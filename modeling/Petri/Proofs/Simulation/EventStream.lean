import Petri.Proofs.Net.Conservation
import Petri.Proofs.Simulation.Iteration

/-! # The stream of events

What observers are told is a story that they can rely on. The clock only moves forward, every firing
is reported as a whole under the next number, and the end of a run comes last. What fails is not told
of, and it leaves the net and the number of firings as they were.
-/
namespace Petri
set_option autoImplicit false

/-- What a stream of events tells about. -/
structure Standing where
  net : Net
  clock : Time
  firings : Nat

def Simulation.standing (s : Simulation) : Standing := ⟨s.net, s.clock, s.firings⟩

/-- The clock of a firing while the clock of the simulation stands so. -/
def TimeMode.firingClock : TimeMode → Time → Time
  | .untimed, _ => 0
  | .timed, clock => clock

/-- The events of a firing: one for each input arc, one for the firing itself and one for each output
arc, the arcs in the order in which they were added, all with one number, clock and transition. -/
structure Block (net : Net) (number : Nat) (f : Firing) (events : List Event) : Prop where
  inputs : List.Forall₂ InPlace.Along ((net.inputsOf f.transition).map .input)
    (f.consumed.map Transfer.toMovement)
  outputs : List.Forall₂ InPlace.Along ((net.outputsOf f.transition).map .output)
    (f.produced.map Transfer.toMovement)
  events_eq : events =
    f.consumed.map (fun x => .consumed number f.clock f.transition x.report) ++
      .fired number f.clock f.transition f.label ::
        f.produced.map fun x => .produced number f.clock f.transition x.report

/-- A firing that succeeds, with the events that report it. -/
structure Standing.Fires (mode : TimeMode) (now : Standing) (f : Firing) (events : List Event)
    (after : Standing) : Prop where
  fire : ∃ ev : Evaluator Id, (now.net.fire ev f.transition f.clock).run = .ok (f, after.net)
  firingClock : f.clock = mode.firingClock now.clock
  block : Block now.net (now.firings + 1) f events
  clock : after.clock = now.clock
  firings : after.firings = now.firings + 1

/-- The streams that observers may see between two standings. -/
inductive Protocol (mode : TimeMode) (first : Standing) : List Event → Standing → Prop where
  | nothing : Protocol mode first [] first
  | advanced {told : List Event} {now : Standing} {next : Time}
      (h : Protocol mode first told now) (hLater : now.clock < next) :
      Protocol mode first (told ++ [.clockAdvanced now.clock next]) { now with clock := next }
  | fired {told events : List Event} {now after : Standing} {f : Firing}
      (h : Protocol mode first told now) (hFires : now.Fires mode f events after) :
      Protocol mode first (told ++ events) after
  | finished {told : List Event} {now : Standing} (h : Protocol mode first told now)
      (outcome : Outcome) :
      Protocol mode first (told ++ [.finished now.clock now.firings outcome]) now

/-- At most the clock has moved, and then this was reported. -/
inductive Quiet (first : Standing) : List Event → Standing → Prop where
  | still : Quiet first [] first
  | moved {next : Time} (hLater : first.clock < next) :
      Quiet first [.clockAdvanced first.clock next] { first with clock := next }

def Event.closes : Event → Bool
  | .finished .. => true
  | _ => false

/-- No run is reported as finished. -/
def Unclosed (told : List Event) : Prop := ∀ e ∈ told, e.closes = false

def Event.firedNumber? : Event → Option Nat
  | .fired number .. => some number
  | _ => none

/-! ## Streams -/

theorem unclosed_append {told told' : List Event} :
    Unclosed (told ++ told') ↔ Unclosed told ∧ Unclosed told' :=
  List.forall_mem_append

theorem Block.unclosed {net : Net} {number : Nat} {f : Firing} {events : List Event}
    (h : Block net number f events) : Unclosed events := by
  rw [h.events_eq, unclosed_append]
  refine ⟨List.forall_mem_map.mpr fun _ _ => rfl, List.forall_mem_cons.mpr ⟨rfl, ?_⟩⟩
  exact List.forall_mem_map.mpr fun _ _ => rfl

theorem Block.firedNumbers {net : Net} {number : Nat} {f : Firing} {events : List Event}
    (h : Block net number f events) : events.filterMap Event.firedNumber? = [number] := by
  rw [h.events_eq, List.filterMap_append, List.filterMap_cons, List.filterMap_map,
    List.filterMap_map]
  have hTaken : Event.firedNumber? ∘ (fun x : Transfer =>
      Event.consumed number f.clock f.transition x.report) = fun _ => none := rfl
  have hMade : Event.firedNumber? ∘ (fun x : Transfer =>
      Event.produced number f.clock f.transition x.report) = fun _ => none := rfl
  rw [hTaken, hMade]
  simp [Event.firedNumber?]

theorem Quiet.unclosed {first last : Standing} {told : List Event} (h : Quiet first told last) :
    Unclosed told := by
  cases h with
  | still => exact List.forall_mem_nil _
  | moved => exact List.forall_mem_singleton.mpr rfl

theorem Quiet.protocol {first last : Standing} {told : List Event} (h : Quiet first told last)
    (mode : TimeMode) : Protocol mode first told last := by
  cases h with
  | still => exact .nothing
  | moved hLater => exact .advanced .nothing hLater

namespace Protocol
variable {mode : TimeMode} {first last : Standing} {told : List Event}

theorem trans {final : Standing} {told' : List Event} (h : Protocol mode first told last)
    (h' : Protocol mode last told' final) : Protocol mode first (told ++ told') final := by
  induction h' with
  | nothing => rwa [List.append_nil]
  | advanced _ hLater ih =>
    rw [← List.append_assoc]
    exact .advanced ih hLater
  | fired _ hFires ih =>
    rw [← List.append_assoc]
    exact .fired ih hFires
  | finished _ outcome ih =>
    rw [← List.append_assoc]
    exact .finished ih outcome

theorem reachable (h : Protocol mode first told last) (hNet : first.net.Reachable) :
    last.net.Reachable := by
  induction h with
  | nothing => exact hNet
  | advanced _ _ ih => exact ih
  | fired _ hFires ih =>
    obtain ⟨ev, hFire⟩ := hFires.fire
    exact ih.change (.fire ev _ _ hFire)
  | finished _ _ ih => exact ih

/-- Firings are numbered one after another. -/
theorem firedNumbers (h : Protocol mode first told last) :
    ∃ count, last.firings = first.firings + count ∧
      told.filterMap Event.firedNumber? = List.range' (first.firings + 1) count := by
  induction h with
  | nothing => exact ⟨0, rfl, rfl⟩
  | advanced _ _ ih =>
    obtain ⟨count, hCount, hNumbers⟩ := ih
    exact ⟨count, hCount, by simp [hNumbers, Event.firedNumber?]⟩
  | fired _ hFires ih =>
    obtain ⟨count, hCount, hNumbers⟩ := ih
    refine ⟨count + 1, by rw [hFires.firings, hCount, Nat.add_assoc], ?_⟩
    rw [List.filterMap_append, hNumbers, hFires.block.firedNumbers, List.range'_concat, hCount]
    simp only [Nat.one_mul, Nat.add_right_comm]
  | finished _ _ ih =>
    obtain ⟨count, hCount, hNumbers⟩ := ih
    exact ⟨count, hCount, by simp [hNumbers, Event.firedNumber?]⟩

end Protocol

/-! ## Calls -/

theorem Net.block_of_fire {ev : Evaluator Id} {net after : Net} (hNet : net.WellFormed)
    {transition : String} {clock : Time} {f : Firing}
    (h : (net.fire ev transition clock).run = .ok (f, after)) (number : Nat) :
    Block net number f (Event.ofFiring number f) := by
  obtain ⟨t, taken, made, μ, _, hFires, rfl, _⟩ := InPlace.exists_fires hNet h
  cases hFires with
  | fires _ hTaken hMade =>
    refine ⟨?_, ?_, by simp [Event.ofFiring]⟩
    · simpa only [InPlace.record, InPlace.map_toMovement_counted] using hTaken.along
    · simpa only [InPlace.record, InPlace.map_toMovement_counted] using hMade.along

namespace Simulation
variable {ev : Evaluator Id} {s s' : Simulation}

/-- These events were reported on the way from one simulation to the other. -/
structure Tells (s : Simulation) (told : List Event) (s' : Simulation) : Prop where
  events : s'.events = s.events ++ told
  config : s'.config = s.config
  protocol : Protocol s.config.mode s.standing told s'.standing

theorem Tells.refl (s : Simulation) : s.Tells [] s := ⟨(List.append_nil _).symm, rfl, .nothing⟩

theorem Tells.trans {s'' : Simulation} {told told' : List Event} (h : s.Tells told s')
    (h' : s'.Tells told' s'') : s.Tells (told ++ told') s'' where
  events := by rw [h'.events, h.events, List.append_assoc]
  config := h'.config.trans h.config
  protocol := h.protocol.trans (h.config ▸ h'.protocol)

theorem quiet_of_isFinished {answer : Except RunError Bool} (h : s.isFinished ev = (answer, s')) :
    ∃ told, s'.events = s.events ++ told ∧ Quiet s.standing told s'.standing := by
  cases checks_of_eq h with
  | fails | live | untimed | exhausted => exact ⟨[], (List.append_nil _).symm, .still⟩
  | failsLater _ _ hNext | liveLater _ _ hNext | deadLater _ _ hNext =>
    exact ⟨_, events_report _ _, .moved (Net.lt_of_earliestPending hNext)⟩

theorem fires_of_fireRandom (hNet : s.net.WellFormed) {f : Firing}
    (h : s.fireRandom ev = (.ok (some f), s')) :
    ∃ events, s'.events = s.events ++ events ∧
      s.standing.Fires s.config.mode f events s'.standing := by
  cases firesRandom_of_eq h with
  | fired _ _ hFire =>
    obtain ⟨hTransition, hClock⟩ := Net.transition_of_fire hFire
    refine ⟨_, events_report _ _, ⟨ev, ?_⟩, ?_, Net.block_of_fire hNet hFire _, rfl, rfl⟩
    · rw [hTransition, hClock]
      exact hFire
    · rw [hClock, firingClock, standing]
      cases s.config.mode <;> rfl

/-- A random firing that does not succeed draws at most. -/
theorem still_of_fireRandom {answer : Except RunError (Option Firing)}
    (h : s.fireRandom ev = (answer, s')) (hNot : ∀ f, answer ≠ .ok (some f)) :
    s'.events = s.events ∧ s'.standing = s.standing := by
  cases firesRandom_of_eq h with
  | fails | nothing | refused => exact ⟨rfl, rfl⟩
  | fired => exact absurd rfl (hNot _)

theorem fires_of_step (hNet : s.net.WellFormed) {f : Firing}
    (h : s.step ev = (.ok (some f), s')) :
    ∃ quiet now events, Quiet s.standing quiet now ∧
      now.Fires s.config.mode f events s'.standing ∧ s'.events = s.events ++ (quiet ++ events) := by
  rcases step_cases h with ⟨_, _, hNot⟩ | ⟨_, hNot⟩ | ⟨checked, hCheck, hFire⟩
  · cases hNot
  · cases hNot
  · obtain ⟨quiet, hQuietEvents, hQuiet⟩ := quiet_of_isFinished hCheck
    have hChecked : checked.net.WellFormed := (net_of_isFinished hCheck).symm ▸ hNet
    obtain ⟨events, hEvents, hFires⟩ := fires_of_fireRandom hChecked hFire
    rw [config_of_isFinished hCheck] at hFires
    exact ⟨quiet, _, events, hQuiet, hFires, by rw [hEvents, hQuietEvents, List.append_assoc]⟩

theorem quiet_of_step {answer : Except RunError (Option Firing)} (h : s.step ev = (answer, s'))
    (hNot : ∀ f, answer ≠ .ok (some f)) :
    ∃ told, s'.events = s.events ++ told ∧ Quiet s.standing told s'.standing := by
  rcases step_cases h with ⟨_, hCheck, _⟩ | ⟨hCheck, _⟩ | ⟨checked, hCheck, hFire⟩
  · exact quiet_of_isFinished hCheck
  · exact quiet_of_isFinished hCheck
  · obtain ⟨hEvents, hStanding⟩ := still_of_fireRandom hFire hNot
    rw [hEvents, hStanding]
    exact quiet_of_isFinished hCheck

/-- Steps that fire are told of, and no run is reported as finished meanwhile. -/
theorem Performs.tells {firings : List Firing} {last : Simulation} (hNet : s.net.Reachable)
    (h : Performs ev s firings last) : ∃ told, s.Tells told last ∧ Unclosed told := by
  induction firings generalizing s with
  | nil =>
    cases h
    exact ⟨[], .refl _, List.forall_mem_nil _⟩
  | cons f firings ih =>
    rw [Performs, List.length_cons, steps_succ, List.map_cons] at h
    obtain ⟨hAnswers, hLast⟩ := Prod.mk.inj h
    obtain ⟨hFirst, hRest⟩ := List.cons.inj hAnswers
    have hStep : s.step ev = (.ok (some f), (s.step ev).2) := Prod.ext hFirst rfl
    obtain ⟨quiet, now, events, hQuiet, hFires, hEvents⟩ := fires_of_step hNet.wellFormed hStep
    have hTells : s.Tells (quiet ++ events) (s.step ev).2 :=
      ⟨hEvents, config_of_step hStep, .fired (hQuiet.protocol _) hFires⟩
    obtain ⟨told, hLater, hUnclosed⟩ :=
      ih (hTells.protocol.reachable hNet) (Prod.ext hRest hLast)
    exact ⟨_, hTells.trans hLater, unclosed_append.mpr
      ⟨unclosed_append.mpr ⟨hQuiet.unclosed, hFires.block.unclosed⟩, hUnclosed⟩⟩

/-! ## Answers -/

/-- What a call has come back with. -/
inductive Answer where
  | drawn (answer : Except RunError (Option String))
  | moved (answer : Option Time)
  | checked (answer : Except RunError Bool)
  | fired (answer : Except RunError (Option Firing))
  | ran (result : Except RunError Report)

/-- A call that has come back. -/
inductive Returns (ev : Evaluator Id) (s : Simulation) : Answer → Simulation → Prop where
  | randomTransition {answer : Except RunError (Option String)} {s' : Simulation}
      (h : s.randomTransition ev = (answer, s')) : Returns ev s (.drawn answer) s'
  | advanceClock {answer : Option Time} {s' : Simulation} (h : s.advanceClock = (answer, s')) :
      Returns ev s (.moved answer) s'
  | isFinished {answer : Except RunError Bool} {s' : Simulation}
      (h : s.isFinished ev = (answer, s')) : Returns ev s (.checked answer) s'
  | fireRandom {answer : Except RunError (Option Firing)} {s' : Simulation}
      (h : s.fireRandom ev = (answer, s')) : Returns ev s (.fired answer) s'
  | step {answer : Except RunError (Option Firing)} {s' : Simulation}
      (h : s.step ev = (answer, s')) : Returns ev s (.fired answer) s'
  | run {result : Except RunError Report} {s' : Simulation} (h : Run.RunsTo ev s result s') :
      Returns ev s (.ran result) s'

/-- What observers are told during a call, by its answer. When a call fails, the net and the number
of firings are in the end what they were before that which has failed. -/
inductive Shows (ev : Evaluator Id) (s : Simulation) : Answer → List Event → Simulation → Prop where
  | drawn {answer : Except RunError (Option String)} {s' : Simulation}
      (hStanding : s'.standing = s.standing) : Shows ev s (.drawn answer) [] s'
  | notMoved {s' : Simulation} (hStanding : s'.standing = s.standing) :
      Shows ev s (.moved none) [] s'
  | moved {next : Time} {s' : Simulation} (hLater : s.clock < next)
      (hStanding : s'.standing = { s.standing with clock := next }) :
      Shows ev s (.moved (some next)) [.clockAdvanced s.clock next] s'
  | checked {answer : Except RunError Bool} {told : List Event} {s' : Simulation}
      (hQuiet : Quiet s.standing told s'.standing) : Shows ev s (.checked answer) told s'
  | fired {f : Firing} {quiet events : List Event} {now : Standing} {s' : Simulation}
      (hQuiet : Quiet s.standing quiet now)
      (hFires : now.Fires s.config.mode f events s'.standing) :
      Shows ev s (.fired (.ok (some f))) (quiet ++ events) s'
  | notFired {answer : Except RunError (Option Firing)} {told : List Event} {s' : Simulation}
      (hNot : ∀ f, answer ≠ .ok (some f)) (hQuiet : Quiet s.standing told s'.standing) :
      Shows ev s (.fired answer) told s'
  | ended {outcome : Outcome} {told : List Event} {s' : Simulation}
      (hProtocol : Protocol s.config.mode s.standing told s'.standing) (hUnclosed : Unclosed told) :
      Shows ev s (.ran (.ok ⟨outcome, s'.firings, s'.clock⟩))
        (told ++ [.finished s'.clock s'.firings outcome]) s'
  | failed {e : RunError} {told quiet : List Event} {before s' : Simulation}
      (hTells : s.Tells told before) (hUnclosed : Unclosed told)
      (hStep : before.step ev = (.error e, s'))
      (hQuiet : Quiet before.standing quiet s'.standing) :
      Shows ev s (.ran (.error e)) (told ++ quiet) s'

theorem Shows.protocol {answer : Answer} {told : List Event} (h : Shows ev s answer told s') :
    Protocol s.config.mode s.standing told s'.standing := by
  cases h with
  | drawn hStanding | notMoved hStanding =>
    rw [hStanding]
    exact .nothing
  | moved hLater hStanding =>
    rw [hStanding]
    exact .advanced .nothing hLater
  | checked hQuiet | notFired _ hQuiet => exact hQuiet.protocol _
  | fired hQuiet hFires => exact .fired (hQuiet.protocol _) hFires
  | ended hProtocol _ => exact .finished hProtocol _
  | failed hTells _ _ hQuiet => exact hTells.protocol.trans (hQuiet.protocol _)

theorem performs_of_steps_concat {firings : List Firing} {last : Simulation}
    {answer : Except RunError (Option Firing)}
    (h : s.steps ev (firings.length + 1) = (firings.map Simulation.fired ++ [answer], last)) :
    ∃ before, Performs ev s firings before ∧ before.step ev = (answer, last) := by
  rw [steps_succ_last] at h
  obtain ⟨hAnswers, hLast⟩ := Prod.mk.inj h
  obtain ⟨hFirings, hAnswer⟩ := List.append_inj' hAnswers rfl
  exact ⟨_, Prod.ext hFirings rfl, Prod.ext (List.cons.inj hAnswer).1 hLast⟩

/-- A run that comes to an end reports it, once and last. -/
theorem Tells.shows_end {told : List Event} (h : s.Tells told s') (hUnclosed : Unclosed told)
    (outcome : Outcome) :
    ∃ told', (s'.report [.finished s'.clock s'.firings outcome]).events = s.events ++ told' ∧
      Shows ev s (.ran (.ok ⟨outcome, s'.firings, s'.clock⟩)) told'
        (s'.report [.finished s'.clock s'.firings outcome]) := by
  refine ⟨told ++ [.finished s'.clock s'.firings outcome], ?_, ?_⟩
  · rw [events_report, h.events, List.append_assoc]
  · exact @Shows.ended ev s outcome told (s'.report _) h.protocol hUnclosed

theorem EndsLike.shows {firings : List Firing} {result : Except RunError Report}
    (hNet : s.net.Reachable) (h : EndsLike ev s firings result s') :
    ∃ told, s'.events = s.events ++ told ∧ Shows ev s (.ran result) told s' := by
  cases h with
  | halted _ hSteps =>
    obtain ⟨told, hTells, hUnclosed⟩ := Performs.tells hNet hSteps
    exact hTells.shows_end hUnclosed _
  | dead hSteps =>
    obtain ⟨before, hPerforms, hStep⟩ := performs_of_steps_concat hSteps
    obtain ⟨told, hTells, hUnclosed⟩ := hPerforms.tells hNet
    obtain ⟨quiet, hEvents, hQuiet⟩ := quiet_of_step hStep nofun
    have hLast : before.Tells quiet _ :=
      ⟨hEvents, config_of_step hStep, hQuiet.protocol _⟩
    exact (hTells.trans hLast).shows_end (unclosed_append.mpr ⟨hUnclosed, hQuiet.unclosed⟩) _
  | failed hSteps =>
    obtain ⟨before, hPerforms, hStep⟩ := performs_of_steps_concat hSteps
    obtain ⟨told, hTells, hUnclosed⟩ := hPerforms.tells hNet
    obtain ⟨quiet, hEvents, hQuiet⟩ := quiet_of_step hStep nofun
    refine ⟨_, ?_, .failed hTells hUnclosed hStep hQuiet⟩
    rw [hEvents, hTells.events, List.append_assoc]

theorem Returns.shows {answer : Answer} (hNet : s.net.Reachable) (h : Returns ev s answer s') :
    ∃ told, s'.events = s.events ++ told ∧ Shows ev s answer told s' := by
  cases h with
  | randomTransition hAnswer =>
    rw [Simulation.randomTransition] at hAnswer
    split at hAnswer <;> cases hAnswer <;> exact ⟨[], (List.append_nil _).symm, .drawn rfl⟩
  | advanceClock hAnswer =>
    cases hNext : s.net.earliestPending s.clock with
    | none =>
      rw [advanceClock_of_none hNext] at hAnswer
      cases hAnswer
      exact ⟨[], (List.append_nil _).symm, .notMoved rfl⟩
    | some next =>
      rw [advanceClock_of_some hNext] at hAnswer
      cases hAnswer
      exact ⟨_, events_report _ _, .moved (Net.lt_of_earliestPending hNext) rfl⟩
  | isFinished hAnswer =>
    obtain ⟨told, hEvents, hQuiet⟩ := quiet_of_isFinished hAnswer
    exact ⟨told, hEvents, .checked hQuiet⟩
  | @fireRandom answer _ hAnswer =>
    by_cases hFired : ∃ f, answer = .ok (some f)
    · obtain ⟨f, rfl⟩ := hFired
      obtain ⟨events, hEvents, hFires⟩ := fires_of_fireRandom hNet.wellFormed hAnswer
      exact ⟨_, hEvents, .fired .still hFires⟩
    · rw [not_exists] at hFired
      obtain ⟨hEvents, hStanding⟩ := still_of_fireRandom hAnswer hFired
      refine ⟨[], by rw [hEvents, List.append_nil], .notFired hFired ?_⟩
      rw [hStanding]
      exact .still
  | @step answer _ hAnswer =>
    by_cases hFired : ∃ f, answer = .ok (some f)
    · obtain ⟨f, rfl⟩ := hFired
      obtain ⟨quiet, now, events, hQuiet, hFires, hEvents⟩ := fires_of_step hNet.wellFormed hAnswer
      exact ⟨_, hEvents, .fired hQuiet hFires⟩
    · rw [not_exists] at hFired
      obtain ⟨told, hEvents, hQuiet⟩ := quiet_of_step hAnswer hFired
      exact ⟨told, hEvents, .notFired hFired hQuiet⟩
  | run hRuns =>
    obtain ⟨firings, hEnds⟩ := hRuns.endsLike
    exact hEnds.shows hNet

/-! ## Sequences of calls -/

theorem config_of_randomTransition : (s.randomTransition ev).2.config = s.config := by
  rw [randomTransition]
  split <;> rfl

theorem config_of_advanceClock : s.advanceClock.2.config = s.config := by
  rw [advanceClock]
  split <;> rfl

theorem Returns.tells {answer : Answer} (hNet : s.net.Reachable) (h : Returns ev s answer s')
    (hConfig : s'.config = s.config) : ∃ told, s.Tells told s' := by
  obtain ⟨told, hEvents, hShows⟩ := h.shows hNet
  exact ⟨told, hEvents, hConfig, hShows.protocol⟩

/-- What a run has told of, as far as it has got. -/
theorem tells_of_drives {react : Reaction} {control : Control} {n : Nat} {r : Run}
    (hNet : s.net.Reachable) (h : Run.Drives react ev (Run.start s control) n r) :
    ∃ told, s.Tells told r.simulation := by
  have hFollows := h.follows
  rw [Run.Follows] at hFollows
  cases hAt : r.location with
  | ended result => exact (Returns.run (.run h hAt)).tells hNet h.config
  | fire =>
    rw [hAt] at hFollows
    obtain ⟨firings, last, hPerforms, hCheck⟩ := hFollows
    obtain ⟨told, hTells, _⟩ := hPerforms.tells hNet
    obtain ⟨quiet, hEvents, hQuiet⟩ := quiet_of_isFinished hCheck
    exact ⟨_, hTells.trans ⟨hEvents, config_of_isFinished hCheck, hQuiet.protocol _⟩⟩
  | start | top | check | checkpoint | delay | parked =>
    rw [hAt] at hFollows
    obtain ⟨firings, hPerforms⟩ := hFollows
    obtain ⟨told, hTells, _⟩ := hPerforms.tells hNet
    exact ⟨told, hTells⟩

theorem Called.tells (hNet : s.net.Reachable) (h : Called ev s s') : ∃ told, s.Tells told s' := by
  cases h with
  | randomTransition => exact (Returns.randomTransition rfl).tells hNet config_of_randomTransition
  | advanceClock => exact (@Returns.advanceClock ev s _ _ rfl).tells hNet config_of_advanceClock
  | isFinished => exact (Returns.isFinished rfl).tells hNet (config_of_isFinished rfl)
  | fireRandom => exact (Returns.fireRandom rfl).tells hNet (config_of_fireRandom rfl)
  | step => exact (Returns.step rfl).tells hNet (config_of_step rfl)
  | run hDrives => exact tells_of_drives hNet hDrives

/-- Calls lead from one simulation to the other, whatever evaluator answers in each. -/
def Reaches : Simulation → Simulation → Prop :=
  Relation.ReflTransGen fun s s' => ∃ ev, Called ev s s'

theorem Reaches.tells (hNet : s.net.Reachable) (h : s.Reaches s') : ∃ told, s.Tells told s' := by
  induction h with
  | refl => exact ⟨[], .refl s⟩
  | tail _ hCall ih =>
    obtain ⟨told, hTells⟩ := ih
    obtain ⟨ev, hCall⟩ := hCall
    obtain ⟨told', hTells'⟩ := hCall.tells (hTells.protocol.reachable hNet)
    exact ⟨_, hTells.trans hTells'⟩

def fresh (net : Net) (config : Config) (source : Random.Source) : Simulation :=
  { start net config 0 with source := source }

/-- Whatever is called on a fresh simulation, observers are told what happens by the protocol: every
firing as a block, under the numbers from one on, and every move of the clock. Each further call
shows what it answers, a run that comes to an end by one last event; and a call that fails shows
nothing of what has failed. -/
theorem events_follow_protocol {net : Net} (hNet : net.Reachable) {config : Config}
    {source : Random.Source} {after : Simulation} (hCalls : (fresh net config source).Reaches after) :
    Protocol config.mode ⟨net, 0, 0⟩ after.events after.standing ∧
    after.events.filterMap Event.firedNumber? = List.range' 1 after.firings ∧
    ∀ ev answer last, Returns ev after answer last →
      ∃ told, last.events = after.events ++ told ∧ Shows ev after answer told last := by
  obtain ⟨told, hEvents, _, hProtocol⟩ := hCalls.tells hNet
  obtain rfl : after.events = told := hEvents
  obtain ⟨count, hCount, hNumbers⟩ := hProtocol.firedNumbers
  obtain rfl : after.firings = count := hCount.trans (Nat.zero_add count)
  exact ⟨hProtocol, hNumbers, fun ev answer last h => h.shows (hProtocol.reachable hNet)⟩

theorem relay_reachable : relay.Reachable := by
  have hFirst := (Net.Reachable.empty "relay").change
    (.addPlace { id := "p", tokens := [{ value := .int 1, time := 5 }] }
      (Net.addPlace_eq_ok_iff.mpr ⟨by decide, rfl⟩))
  have hSecond := hFirst.change
    (.addPlace { id := "q" } (Net.addPlace_eq_ok_iff.mpr ⟨by decide, rfl⟩))
  have hTransition := hSecond.change
    (.addTransition { id := "t" } (Net.addTransition_eq_ok_iff.mpr ⟨by decide, rfl⟩))
  have hInput := hTransition.change (.addInput { id := "i", place := "p", transition := "t" }
    (Net.addInput_eq_ok_iff.mpr ⟨by decide, ⟨_, rfl⟩, ⟨_, rfl⟩, rfl⟩))
  exact hInput.change (.addOutput { id := "o", transition := "t", place := "q" }
    (Net.addOutput_eq_ok_iff.mpr ⟨by decide, ⟨_, rfl⟩, ⟨_, rfl⟩, rfl⟩))

theorem relayStart_reaches : relayStart.Reaches relayDone := by
  have hCalled : Called unhurried relayStart (relayStart.step unhurried).2 := .step relayStart
  rw [relayStart_step] at hCalled
  exact .single ⟨unhurried, hCalled⟩

/-- A step moves the clock and fires once; a run after it moves the clock again and ends. -/
theorem events_follow_protocol_relay :
    relay.Reachable ∧ ∃ after last told, relayStart.Reaches after ∧
      Protocol .timed ⟨relay, 0, 0⟩ after.events after.standing ∧
      after.events.length = 4 ∧ after.events.filterMap Event.firedNumber? = [1] ∧
      Returns unhurried after (.ran (.ok ⟨.dead, 1, 6⟩)) last ∧
      last.events = after.events ++ told ∧
      Shows unhurried after (.ran (.ok ⟨.dead, 1, 6⟩)) told last := by
  have hGoes : Run.Drives Reaction.none unhurried (Run.start relayDone {}) 3 _ :=
    Run.Drives.start.walk 3 (by decide +kernel)
  have hRun : Returns unhurried relayDone (.ran (.ok ⟨.dead, 1, 6⟩)) _ := .run (.run hGoes rfl)
  obtain ⟨hProtocol, hNumbers, hShows⟩ :=
    @events_follow_protocol relay relay_reachable relayStart.config _ _ relayStart_reaches
  obtain ⟨told, hEvents, hTold⟩ := hShows _ _ _ hRun
  exact ⟨relay_reachable, _, _, told, relayStart_reaches, hProtocol, rfl, hNumbers, hRun, hEvents, hTold⟩

end Simulation
end Petri
