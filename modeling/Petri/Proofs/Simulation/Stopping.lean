import Petri.Proofs.Simulation.Calls

/-! # Stopping

A stop is final, and it ends a run within the iteration that it meets: no state that a stopped run
comes to makes it wait, and at most the firing that was already due is still made.
-/
namespace Petri
set_option autoImplicit false

/-- What comes next for a run: a step of its own, whatever observers do meanwhile, or a command of a
caller. -/
inductive Move where
  | step (react : Reaction)
  | command (c : Command)

namespace Move

def own : Move → Bool
  | step _ => true
  | command _ => false

/-- How many of the moves are steps of the run itself. -/
def steps (moves : List Move) : Nat := moves.countP own

@[simp] theorem steps_step (react : Reaction) : steps [step react] = 1 := rfl

@[simp] theorem steps_command (c : Command) : steps [command c] = 0 := rfl

end Move

namespace Location

/-- Not within an iteration of the loop. -/
def outside : Location → Bool
  | start | top => true
  | _ => false

/-- Whether the run has been found not to be stopped and will fire next, if it can. -/
def due : Location → Bool
  | check | fire => true
  | _ => false

/-- How many steps of its own a stopped run still takes, at most. -/
def stepsLeft : Location → Nat
  | ended _ => 0
  | top | parked => 1
  | start | delay => 2
  | checkpoint => 3
  | fire => 4
  | check => 5

theorem due_iff {location : Location} :
    location.due = true ↔ location = .check ∨ location = .fire := by
  cases location <;> simp [due]

theorem exists_ended_of_stepsLeft {location : Location} (h : location.stepsLeft = 0) :
    ∃ result, location = .ended result := by
  cases location with
  | ended result => exact ⟨result, rfl⟩
  | _ => cases h

end Location

namespace Control

theorem enterCheckpoint_of_stopped {control : Control} (h : control.state = .stopped) :
    control.enterCheckpoint.state = .stopped := by
  rw [enterCheckpoint]
  split
  · exact apply_of_stopped h _
  · exact h

theorem applyAll_of_mem {control : Control} {commands : List Command} (h : .stop ∈ commands) :
    (control.applyAll commands).state = .stopped := by
  obtain ⟨earlier, later, rfl⟩ := List.append_of_mem h
  rw [applyAll, List.foldl_append, List.foldl_cons]
  exact applyAll_of_stopped rfl later

end Control

namespace Run

/-- Whether the condition holds on which a run waits: through the delay as long as it is running, and
at the end of the checkpoint as long as it is paused. -/
def blocked (r : Run) : Bool :=
  match r.location with
  | .delay => r.control.state == .running
  | .parked => r.control.state == .paused
  | _ => false

def move (ev : Evaluator Id) (r : Run) : Move → Run
  | .step react => r.next react ev
  | .command c => r.command c

def play (ev : Evaluator Id) (r : Run) (moves : List Move) : Run := moves.foldl (move ev) r

/-- No firing, or just the one that was due. -/
inductive FiresDue (ev : Evaluator Id) (r r' : Run) : Prop where
  | none (hNet : r'.simulation.net = r.simulation.net)
      (hCount : r'.simulation.firings = r.simulation.firings)
      (hDue : r'.location.due = true → r.location.due = true)
  | once (hFired : Net.Fired ev r.simulation.net r'.simulation.net)
      (hCount : r'.simulation.firings = r.simulation.firings + 1)
      (hDue : r.location.due = true) (hMade : r'.location.due = false)

/-- How a stopped run comes to its end. -/
structure Unwinds (ev : Evaluator Id) (r : Run) (moves : List Move) (r' : Run) : Prop where
  stopped : r'.control.state = .stopped
  closer : r'.location.stepsLeft ≤ r.location.stepsLeft - Move.steps moves
  within : r'.location.outside = true → r.location.outside = true
  fires : FiresDue ev r r'

variable {ev : Evaluator Id} {r r' : Run}

theorem play_append (first last : List Move) :
    r.play ev (first ++ last) = (r.play ev first).play ev last := List.foldl_append

theorem play_of_fired {first : List Move} {answer : Option Firing} {s : Simulation}
    (react : Reaction) (last : List Move) (hAt : (r.play ev first).location = .fire)
    (hFire : (r.play ev first).simulation.fireRandom ev = (.ok answer, s)) :
    r.play ev (first ++ .step react :: last) =
      ((r.play ev first).moveTo react s .checkpoint).play ev last := by
  rw [play_append, ← next_of_fired react hAt hFire]
  rfl

theorem blocked_of_stopped (h : r.control.state = .stopped) : r.blocked = false := by
  rw [blocked]
  split
  · rw [h]
    rfl
  · rw [h]
    rfl
  · rfl

theorem waiting_iff_of_stopped (h : r.control.state = .stopped) :
    r.waiting = true ↔ ∃ result, r.location = .ended result := by
  cases hAt : r.location <;> simp [waiting, hAt, h]

/-! ## One move -/

theorem next_stopped (react : Reaction) (h : r.control.state = .stopped) :
    (r.next react ev).control.state = .stopped := by
  rw [next]
  split
  · dsimp only
    split
    · exact command_stopped h _
    · exact h
  · rw [if_pos h]
    exact moveTo_stopped _ _ _ h
  · split
    · exact moveTo_stopped _ _ _ h
    · split
      · exact moveTo_stopped _ _ _ h
      · exact moveTo_stopped _ _ _ (moveTo_stopped _ _ _ h)
      · exact moveTo_stopped _ _ _ h
  · split
    · exact moveTo_stopped _ _ _ h
    · exact moveTo_stopped _ _ _ h
  · exact Control.enterCheckpoint_of_stopped h
  · exact h
  · rw [h]
    exact moveTo_stopped _ _ _ h
  · exact h

/-- What a step leads a stopped run to. -/
theorem unwinds_of_next (react : Reaction) (h : r.control.state = .stopped) :
    Unwinds ev r [.step react] (r.next react ev) := by
  have hStopped : (r.next react ev).control.state = .stopped := next_stopped react h
  cases hWaiting : r.waiting with
  | true =>
    -- of the places where a run waits, a stop leaves only the end
    obtain ⟨result, hAt⟩ := (waiting_iff_of_stopped h).mp hWaiting
    have hNext : r.next react ev = r := by rw [next, hAt]
    rw [hNext]
    exact ⟨h, by simp [hAt, Location.stepsLeft], id, .none rfl rfl id⟩
  | false =>
    have hGoes := goes react ev hWaiting
    generalize r.next react ev = after at hStopped hGoes
    cases hGoes with
    | enters _ hNot => exact absurd h hNot
    | resumes _ hRunning => cases h.symm.trans hRunning
    | begins hAt | halts hAt | limited hAt | parks hAt | leaves hAt =>
      exact ⟨hStopped, by simp [hAt, Location.stepsLeft], by simp [hAt, Location.outside],
        .none rfl rfl (by simp [Location.due])⟩
    | pauses hAt hTo =>
      rcases hTo with rfl | rfl <;>
        exact ⟨hStopped, by simp [hAt, Location.stepsLeft], by simp [Location.outside],
          .none rfl rfl (by simp [Location.due])⟩
    | checkFails hAt _ hCheck | dies hAt _ hCheck | lives hAt _ hCheck =>
      exact ⟨hStopped, by simp [hAt, Location.stepsLeft], by simp [Location.outside],
        .none (Simulation.net_of_isFinished hCheck :) (Simulation.firings_of_isFinished hCheck :)
          (by simp [hAt, Location.due])⟩
    | fireFails hAt hFire =>
      refine ⟨hStopped, by simp [hAt, Location.stepsLeft], by simp [Location.outside], ?_⟩
      cases Simulation.firesRandom_of_eq hFire <;> exact .none rfl rfl (by simp [Location.due])
    | fires hAt hFire =>
      refine ⟨hStopped, by simp [hAt, Location.stepsLeft], by simp [Location.outside], ?_⟩
      cases Simulation.firesRandom_of_eq hFire with
      | nothing => exact .none rfl rfl (by simp [Location.due])
      | fired _ _ hOne => exact .once ⟨_, _, _, hOne⟩ rfl (by rw [hAt]; rfl) rfl

theorem unwinds_of_command (h : r.control.state = .stopped) (c : Command) :
    Unwinds ev r [.command c] (r.command c) :=
  ⟨command_stopped h c, le_rfl, id, .none rfl rfl id⟩

/-! ## All moves -/

theorem FiresDue.trans {r'' : Run} (h : FiresDue ev r r') (h' : FiresDue ev r' r'') :
    FiresDue ev r r'' := by
  cases h with
  | none hNet hCount hDue =>
    cases h' with
    | none hNet' hCount' hDue' =>
      exact .none (hNet'.trans hNet) (hCount'.trans hCount) fun hLast => hDue (hDue' hLast)
    | once hFired hCount' hDue' hMade =>
      exact .once (hNet ▸ hFired) (by rw [hCount', hCount]) (hDue hDue') hMade
  | once hFired hCount hDue hMade =>
    cases h' with
    | none hNet' hCount' hDue' =>
      refine .once (hNet' ▸ hFired) (hCount'.trans hCount) hDue ?_
      rw [← Bool.not_eq_true]
      intro hLast
      rw [hDue' hLast] at hMade
      cases hMade
    | once _ _ hDue' =>
      -- only one firing was due
      rw [hDue'] at hMade
      cases hMade

theorem Unwinds.refl (ev : Evaluator Id) (h : r.control.state = .stopped) : Unwinds ev r [] r :=
  ⟨h, le_rfl, id, .none rfl rfl id⟩

theorem Unwinds.trans {r'' : Run} {moves moves' : List Move} (h : Unwinds ev r moves r')
    (h' : Unwinds ev r' moves' r'') : Unwinds ev r (moves ++ moves') r'' where
  stopped := h'.stopped
  closer := by
    have hFirst := h.closer
    have hSecond := h'.closer
    rw [Move.steps, List.countP_append, ← Move.steps, ← Move.steps]
    omega
  within hLast := h.within (h'.within hLast)
  fires := h.fires.trans h'.fires

theorem unwinds_of_play (h : r.control.state = .stopped) (moves : List Move) :
    Unwinds ev r moves (r.play ev moves) := by
  induction moves generalizing r with
  | nil => exact .refl ev h
  | cons m rest ih =>
    have hOne : Unwinds ev r [m] (r.move ev m) := by
      cases m with
      | step react => exact unwinds_of_next react h
      | command c => exact unwinds_of_command h c
    exact hOne.trans (ih hOne.stopped)

/-! ## Observers -/

theorem moveTo_stopped_of_mem (react : Reaction) {s : Simulation} (location : Location)
    {events : List Event} (hEvents : s.events = r.simulation.events ++ events)
    (hStop : ∃ e ∈ events, Command.stop ∈ react e) :
    (r.moveTo react s location).control.state = .stopped := by
  have hSince : s.history.since r.simulation.history.size = events := by
    rw [History.since_eq_drop, ← History.length_toList]
    exact (congrArg _ hEvents).trans List.drop_left
  obtain ⟨e, he, hReact⟩ := hStop
  obtain ⟨earlier, later, hSplit⟩ := List.append_of_mem he
  rw [moveTo, hSince, hSplit, List.map_append, List.map_cons, List.foldl_append, List.foldl_cons]
  exact Control.foldl_applyAll_of_stopped (Control.applyAll_of_mem hReact) _

theorem next_of_observed {react : Reaction} {firing : Firing} {s' : Simulation}
    (hAt : r.location = .fire) (hFire : r.simulation.fireRandom ev = (.ok (some firing), s'))
    (hStop : ∃ e ∈ Event.ofFiring s'.firings firing, Command.stop ∈ react e) :
    (r.next react ev).control.state = .stopped ∧ (r.next react ev).location = .checkpoint ∧
      (r.next react ev).simulation = s' := by
  rw [next_of_fired react hAt hFire]
  refine ⟨?_, rfl, rfl⟩
  cases Simulation.firesRandom_of_eq hFire with
  | fired => exact moveTo_stopped_of_mem react _ (Simulation.events_report _ _) hStop

/-- Stopping is final: whatever the moves after it are, the run never waits on a condition that holds,
it begins no further iteration, and it has ended after a few steps. It makes at most the one firing
that was due; and none when an observer has stopped it on seeing an event of a firing. -/
theorem stop_unwinds (ev : Evaluator Id) (r : Run) :
    (r.control.state = .stopped → ∀ moves,
      let r' := r.play ev moves
      r'.control.state = .stopped ∧ r'.blocked = false ∧
      (r'.location.outside = true → r.location.outside = true) ∧
      (r.location.stepsLeft ≤ Move.steps moves → ∃ result, r'.location = .ended result) ∧
      (r'.simulation.net = r.simulation.net ∧ r'.simulation.firings = r.simulation.firings ∨
        (r.location = .check ∨ r.location = .fire) ∧
          Net.Fired ev r.simulation.net r'.simulation.net ∧
          r'.simulation.firings = r.simulation.firings + 1)) ∧
    ∀ react firing s', r.location = .fire → r.simulation.fireRandom ev = (.ok (some firing), s') →
      (∃ e ∈ Event.ofFiring s'.firings firing, Command.stop ∈ react e) → ∀ moves,
      let r' := r.play ev (.step react :: moves)
      r'.control.state = .stopped ∧ r'.simulation.net = s'.net ∧
        r'.simulation.firings = s'.firings := by
  refine ⟨fun hStopped moves => ?_, fun react firing s' hAt hFire hStop moves => ?_⟩
  · have h : Unwinds ev r moves _ := unwinds_of_play hStopped moves
    refine ⟨h.stopped, blocked_of_stopped h.stopped, h.within, fun hSteps => ?_, ?_⟩
    · have hLeft := h.closer
      exact Location.exists_ended_of_stepsLeft (by omega)
    · cases h.fires with
      | none hNet hCount => exact .inl ⟨hNet, hCount⟩
      | once hFired hCount hDue => exact .inr ⟨Location.due_iff.mp hDue, hFired, hCount⟩
  · obtain ⟨hStopped, hAfter, rfl⟩ := next_of_observed hAt hFire hStop
    have h : Unwinds ev _ moves _ := unwinds_of_play hStopped moves
    refine ⟨h.stopped, ?_⟩
    cases h.fires with
    | none hNet hCount => exact ⟨hNet, hCount⟩
    | once _ _ hDue =>
      rw [hAfter] at hDue
      cases hDue

/-- A relay that a caller has stopped when it was about to check. -/
def relayStopped : Run :=
  (start relayStart {}).play unhurried [.step .none, .step .none, .command .stop]

def lateMoves : List Move :=
  [.step .none, .command .resume] ++
    .step .none :: [.step .none, .command .pause, .step .none, .step .none]

/-- A caller stops a run that then still makes the firing which is due; an observer that sees a firing
makes it the last. -/
theorem stop_unwinds_relay :
    (∃ (r : Run) (moves : List Move) (result : Except RunError Report),
      r.control.state = .stopped ∧ r.location = .check ∧ r.simulation.firings = 0 ∧
      .command .resume ∈ moves ∧ (r.play unhurried moves).location = .ended result ∧
      (r.play unhurried moves).simulation.firings = 1) ∧
    ∃ (r : Run) (firing : Firing) (s' : Simulation), r.location = .fire ∧
      r.simulation.fireRandom unhurried = (.ok (some firing), s') ∧
      (∃ e ∈ Event.ofFiring s'.firings firing, Command.stop ∈ Reaction.stopAt 1 e) ∧
      (r.play unhurried [.step (.stopAt 1), .command .resume, .step .none]).simulation.firings =
        s'.firings := by
  constructor
  · have hStopped : relayStopped.control.state = .stopped := rfl
    have hFired : relayStopped.play unhurried lateMoves = _ :=
      play_of_fired .none _ rfl relayDue_fireRandom
    have hFirings : (relayStopped.play unhurried lateMoves).simulation.firings = 1 := by
      rw [hFired]
      decide +kernel
    obtain ⟨_, _, _, hEnded, _⟩ := (stop_unwinds unhurried relayStopped).1 hStopped lateMoves
    obtain ⟨result, hResult⟩ := hEnded (by decide)
    exact ⟨relayStopped, lateMoves, result, hStopped, rfl, rfl, by simp [lateMoves], hResult,
      hFirings⟩
  · have hAt : ((start relayStart {}).play unhurried
        [.step .none, .step .none, .step .none]).location = .fire := rfl
    have hStop : ∃ e ∈ Event.ofFiring relayDone.firings relayFiring,
        Command.stop ∈ Reaction.stopAt 1 e :=
      ⟨_, List.mem_append_left _ (List.mem_append_right _ List.mem_cons_self), by decide⟩
    exact ⟨_, relayFiring, relayDone, hAt, relayDue_fireRandom, hStop,
      ((stop_unwinds unhurried _).2 _ _ _ hAt relayDue_fireRandom hStop _).2.2⟩

end Run
end Petri
