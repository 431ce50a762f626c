import Petri.Proofs.Net.Textless
import Petri.Proofs.Simulation.Sessions

/-! # Simulations of nets that differ in texts

The texts of tokens never steer a simulation: on two nets that are the same but for these texts, calls
come back with the same answers, the same tokens move at the same clocks, and observers are told of
the same events. Only the strings by which events show tokens may differ.
-/
namespace Petri
set_option autoImplicit false

/-! ## Events -/

/-- The report with nothing shown of its tokens but how many they are. -/
def TransferReport.textless (x : TransferReport) : TransferReport :=
  { x with tokens := x.tokens.map fun _ => "" }

theorem TransferReport.textless_textless (x : TransferReport) :
    x.textless.textless = x.textless := by
  simp only [textless, List.map_map, Function.comp_def]

theorem Transfer.report_textless (x : Transfer) : x.textless.report.textless = x.report.textless := by
  simp only [report, textless, TransferReport.textless, TokenBag.textless, List.map_map,
    Function.comp_def]

namespace Event

def textless : Event → Event
  | consumed firing clock transition x => consumed firing clock transition x.textless
  | produced firing clock transition x => produced firing clock transition x.textless
  | e => e

theorem textless_textless (e : Event) : e.textless.textless = e.textless := by
  cases e <;> simp only [textless, TransferReport.textless_textless]

theorem ofFiring_textless (number : Nat) (f : Firing) :
    (ofFiring number f.textless).map textless = (ofFiring number f).map textless := by
  simp only [ofFiring, Firing.textless, List.map_append, List.map_map, List.map_singleton,
    Function.comp_def, textless, Transfer.report_textless]

end Event

namespace History

def textless (h : History) : History where
  latest := h.latest.map Event.textless
  size := h.size
  size_eq := by rw [h.size_eq, List.length_map]

theorem textless_textless (h : History) : h.textless.textless = h.textless := by
  simp only [textless, List.map_map, Function.comp_def, Event.textless_textless]

theorem textless_append (h : History) (events : List Event) :
    (h.append events).textless = h.textless.append (events.map Event.textless) := by
  simp only [textless, append, List.map_append, List.map_reverse, List.length_map]

theorem since_textless (h : History) (n : Nat) :
    h.textless.since n = (h.since n).map Event.textless := by
  simp only [since, textless, List.map_reverse, List.map_take]

end History

/-! ## Calls -/

/-- The answer with no text on the tokens of a firing. -/
def Simulation.Answer.textless : Answer → Answer
  | fired answer => fired (answer.map (Option.map Firing.textless))
  | answer => answer

namespace Simulation
variable (s : Simulation)

/-- The simulation without the texts of its net and without what its events show of tokens. -/
def textless : Simulation :=
  { s with net := s.net.textless, history := s.history.textless }

theorem textless_textless : s.textless.textless = s.textless := by
  simp only [textless, Net.textless_textless, History.textless_textless]

theorem report_textless (events : List Event) :
    (s.report events).textless = s.textless.report (events.map Event.textless) := by
  simp only [textless, report, History.textless_append]

theorem enabledTransitions_textless :
    s.textless.enabledTransitions Petri.interpreter = s.enabledTransitions Petri.interpreter :=
  congrArg ExceptT.run (s.net.enabledTransitions_textless s.firingClock)

theorem randomTransition_textless : s.textless.randomTransition Petri.interpreter =
    ((s.randomTransition Petri.interpreter).1,
      (s.randomTransition Petri.interpreter).2.textless) := by
  rw [randomTransition, randomTransition, enabledTransitions_textless]
  cases s.enabledTransitions Petri.interpreter <;> rfl

theorem advanceClock_textless :
    s.textless.advanceClock = (s.advanceClock.1, s.advanceClock.2.textless) := by
  have hNext : s.textless.net.earliestPending s.textless.clock = s.net.earliestPending s.clock :=
    s.net.earliestPending_textless s.clock
  rw [advanceClock, advanceClock, hNext]
  cases s.net.earliestPending s.clock with
  | none => rfl
  | some next =>
    have hMoved := report_textless { s with clock := next } [.clockAdvanced s.clock next]
    exact congrArg (some next, ·) hMoved.symm

theorem isFinished_textless : s.textless.isFinished Petri.interpreter =
    ((s.isFinished Petri.interpreter).1, (s.isFinished Petri.interpreter).2.textless) := by
  have hMode : s.textless.config.mode = s.config.mode := rfl
  rw [isFinished, isFinished, enabledTransitions_textless, hMode, advanceClock_textless]
  cases s.enabledTransitions Petri.interpreter with
  | error e => rfl
  | ok enabled =>
    cases enabled with
    | cons first rest => rfl
    | nil =>
      cases s.config.mode with
      | untimed => rfl
      | timed =>
        rcases s.advanceClock with ⟨_ | next, moved⟩
        · rfl
        · dsimp only
          rw [enabledTransitions_textless]
          cases moved.enabledTransitions Petri.interpreter <;> rfl

theorem fire_textless (transition : String) :
    (s.textless.fire Petri.interpreter transition).map (Except.map Firing.textless) textless =
      (s.fire Petri.interpreter transition).map (Except.map Firing.textless) textless := by
  have hFire : (s.textless.net.fire Petri.interpreter transition s.textless.firingClock).run = _ :=
    s.net.fire_textless transition s.firingClock
  rw [fire, fire, hFire]
  cases (s.net.fire Petri.interpreter transition s.firingClock).run with
  | error e => exact congrArg (Except.error e, ·) s.textless_textless
  | ok result =>
    obtain ⟨f, net⟩ := result
    simp only [Except.map, Prod.map, Firing.textless_textless, report_textless,
      Event.ofFiring_textless]
    simp only [textless, Net.textless_textless, History.textless_textless]

theorem fireRandom_textless :
    (s.textless.fireRandom Petri.interpreter).map
        (Except.map (Option.map Firing.textless)) textless =
      (s.fireRandom Petri.interpreter).map (Except.map (Option.map Firing.textless)) textless := by
  rw [fireRandom, fireRandom, randomTransition_textless]
  rcases s.randomTransition Petri.interpreter with ⟨_ | _ | transition, drawn⟩
  · exact congrArg (Except.error _, ·) drawn.textless_textless
  · exact congrArg (Except.ok none, ·) drawn.textless_textless
  · have hFire := drawn.fire_textless transition
    dsimp only
    generalize drawn.textless.fire Petri.interpreter transition = fired,
      drawn.fire Petri.interpreter transition = fired' at hFire ⊢
    obtain ⟨_ | f, after⟩ := fired <;> obtain ⟨_ | f', after'⟩ := fired' <;>
      obtain ⟨hAnswer, hAfter⟩ := Prod.mk.inj hFire
    · exact Prod.ext (congrArg (Except.map some) hAnswer) hAfter
    · cases hAnswer
    · cases hAnswer
    · exact Prod.ext (congrArg (Except.map some) hAnswer) hAfter

theorem step_textless :
    (s.textless.step Petri.interpreter).map (Except.map (Option.map Firing.textless)) textless =
      (s.step Petri.interpreter).map (Except.map (Option.map Firing.textless)) textless := by
  rw [step, step, isFinished_textless]
  rcases s.isFinished Petri.interpreter with ⟨_ | _ | _, checked⟩
  · exact congrArg (Except.error _, ·) checked.textless_textless
  · exact checked.fireRandom_textless
  · exact congrArg (Except.ok none, ·) checked.textless_textless

end Simulation

/-! ## Runs -/

/-- The observers do not look at how events show tokens. -/
def Reaction.Blind (react : Reaction) : Prop := ∀ e : Event, react e.textless = react e

theorem Reaction.stopAt_blind (n : Nat) : (Reaction.stopAt n).Blind := fun e => by cases e <;> rfl

/-- Commands come from where they may, and the observers of a step are blind. -/
def Move.Blind : Move → Prop
  | step react => react.Blind
  | command _ => True

namespace Run
variable {react : Reaction} (r : Run)

def textless (r : Run) : Run := { r with simulation := r.simulation.textless }

theorem textless_textless : r.textless.textless = r.textless := by
  simp only [textless, Simulation.textless_textless]

theorem moveTo_textless (hBlind : react.Blind) (s : Simulation) (location : Location) :
    r.textless.moveTo react s.textless location = (r.moveTo react s location).textless := by
  have hSince : s.textless.history.since r.textless.simulation.history.size =
      (s.history.since r.simulation.history.size).map Event.textless :=
    s.history.since_textless _
  have hReact : react ∘ Event.textless = react := funext hBlind
  simp only [moveTo, hSince, List.map_map, hReact]
  rfl

theorem moveTo_congr (hBlind : react.Blind) {s s' : Simulation} (h : s.textless = s'.textless)
    (location : Location) :
    (r.textless.moveTo react s location).textless = (r.moveTo react s' location).textless := by
  rw [← moveTo_textless _ hBlind, ← moveTo_textless _ hBlind, textless_textless, h]

theorem finish_textless (hBlind : react.Blind) (outcome : Outcome) :
    r.textless.finish react outcome = (r.finish react outcome).textless := by
  rw [finish, finish, ← moveTo_textless r hBlind, Simulation.report_textless]
  rfl

/-- A run takes the same step whatever the texts are. -/
theorem next_textless (hBlind : react.Blind) :
    (r.textless.next react Petri.interpreter).textless =
      (r.next react Petri.interpreter).textless := by
  have hFinish (outcome : Outcome) : (r.textless.finish react outcome).textless =
      (r.finish react outcome).textless := by
    rw [finish_textless r hBlind, textless_textless]
  have hStays (control : Control) (location : Location) :
      Run.textless ⟨r.simulation.textless, control, location⟩ =
        Run.textless ⟨r.simulation, control, location⟩ := by
    simp only [textless, Simulation.textless_textless]
  have hMode : r.textless.simulation.config = r.simulation.config := rfl
  have hControl : r.textless.control = r.control := rfl
  have hLocation : r.textless.location = r.location := rfl
  rw [next, next, hLocation, hMode, hControl]
  cases r.location with
  | start => cases r.simulation.config.step <;> exact hStays _ _
  | top =>
    dsimp only
    split
    · exact hFinish _
    · exact hStays _ _
  | check =>
    have hLimit : r.textless.limitReached = r.limitReached := rfl
    have hCheck : r.textless.simulation.isFinished Petri.interpreter = _ :=
      r.simulation.isFinished_textless
    dsimp only
    rw [hLimit, hCheck]
    split
    · exact hFinish _
    · rcases r.simulation.isFinished Petri.interpreter with ⟨_ | _ | _, checked⟩
      · exact r.moveTo_congr hBlind checked.textless_textless _
      · exact r.moveTo_congr hBlind checked.textless_textless _
      · dsimp only
        rw [moveTo_textless r hBlind, finish_textless _ hBlind, textless_textless]
  | fire =>
    have hFire : (r.textless.simulation.fireRandom Petri.interpreter).map _ _ = _ :=
      r.simulation.fireRandom_textless
    dsimp only
    generalize r.textless.simulation.fireRandom Petri.interpreter = fired,
      r.simulation.fireRandom Petri.interpreter = fired' at hFire ⊢
    obtain ⟨_ | _, after⟩ := fired <;> obtain ⟨_ | _, after'⟩ := fired' <;>
      obtain ⟨hAnswer, hAfter⟩ := Prod.mk.inj hFire
    · cases hAnswer
      exact r.moveTo_congr hBlind hAfter _
    · cases hAnswer
    · cases hAnswer
    · exact r.moveTo_congr hBlind hAfter _
  | checkpoint => exact hStays _ _
  | delay => exact hStays _ _
  | parked =>
    cases r.control.state with
    | running => exact hStays _ _
    | paused => exact r.textless_textless
    | stopped => exact hFinish _
  | ended result => exact r.textless_textless

variable {r} {r' : Run}

theorem move_congr (h : r.textless = r'.textless) {m : Move} (hBlind : m.Blind) :
    (r.move Petri.interpreter m).textless = (r'.move Petri.interpreter m).textless := by
  cases m with
  | step react =>
    calc (r.next react Petri.interpreter).textless
      _ = (r.textless.next react Petri.interpreter).textless := (r.next_textless hBlind).symm
      _ = (r'.textless.next react Petri.interpreter).textless := by rw [h]
      _ = (r'.next react Petri.interpreter).textless := r'.next_textless hBlind
  | command c => exact congrArg (Run.command · c) h

theorem play_congr (h : r.textless = r'.textless) {moves : List Move}
    (hBlind : ∀ m ∈ moves, m.Blind) :
    (r.play Petri.interpreter moves).textless = (r'.play Petri.interpreter moves).textless := by
  induction moves generalizing r r' with
  | nil => exact h
  | cons m rest ih =>
    obtain ⟨hFirst, hRest⟩ := List.forall_mem_cons.mp hBlind
    exact ih (move_congr h hFirst) hRest

end Run

/-! ## Sequences of calls -/

/-- Other observers than those of runs never get to use the control. -/
def Session.Call.Blind : Call → Prop
  | run moves => ∀ m ∈ moves, m.Blind
  | _ => True

namespace Session
open Simulation
variable (σ : Session)

def textless (σ : Session) : Session := { σ with simulation := σ.simulation.textless }

/-- What a call comes to, without the texts of tokens. -/
def withoutTexts (result : Option Simulation.Answer × Session) : Option Simulation.Answer × Session :=
  (result.1.map Simulation.Answer.textless, result.2.textless)

/-- What calls come to one after another, without the texts of tokens. -/
def allWithoutTexts (result : List (Option Simulation.Answer) × Session) :
    List (Option Simulation.Answer) × Session :=
  (result.1.map (Option.map Simulation.Answer.textless), result.2.textless)

theorem answered_congr {result result' : Simulation.Answer × Simulation}
    (h : result.map Simulation.Answer.textless Simulation.textless =
      result'.map Simulation.Answer.textless Simulation.textless) :
    withoutTexts (σ.textless.answered result) = withoutTexts (σ.answered result') := by
  obtain ⟨hAnswer, hAfter⟩ := Prod.mk.inj h
  exact Prod.ext (congrArg some hAnswer) (congrArg (Session.mk · σ.control) hAfter)

/-- A call comes to the same whatever the texts are. -/
theorem perform_textless {call : Call} (hBlind : call.Blind) :
    withoutTexts (σ.textless.perform Petri.interpreter call) =
      withoutTexts (σ.perform Petri.interpreter call) := by
  cases call with
  | randomTransition =>
    refine σ.answered_congr ?_
    rw [textless, randomTransition_textless]
    exact Prod.ext rfl (Simulation.textless_textless _)
  | advanceClock =>
    refine σ.answered_congr ?_
    rw [textless, advanceClock_textless]
    exact Prod.ext rfl (Simulation.textless_textless _)
  | isFinished =>
    refine σ.answered_congr ?_
    rw [textless, isFinished_textless]
    exact Prod.ext rfl (Simulation.textless_textless _)
  | fireRandom =>
    have hFire := σ.simulation.fireRandom_textless
    exact σ.answered_congr (congrArg (Prod.map Simulation.Answer.fired id) hFire)
  | step =>
    have hStep := σ.simulation.step_textless
    exact σ.answered_congr (congrArg (Prod.map Simulation.Answer.fired id) hStep)
  | run moves =>
    have hPlayed := Run.play_congr (Run.start σ.simulation σ.control).textless_textless hBlind
    have hAnswer := congrArg
      (fun r : Run => (r.result?.map Simulation.Answer.ran).map Simulation.Answer.textless) hPlayed
    have hAfter := congrArg (fun r : Run => Session.mk r.simulation r.control) hPlayed
    exact Prod.ext hAnswer hAfter
  | command c => exact Prod.ext rfl (congrArg (Session.mk · _) σ.simulation.textless_textless)
  | exchange control =>
    exact Prod.ext rfl (congrArg (Session.mk · _) σ.simulation.textless_textless)

variable {σ} {σ' : Session}

theorem performs_congr (h : σ.textless = σ'.textless) {calls : List Call}
    (hBlind : ∀ call ∈ calls, call.Blind) :
    allWithoutTexts (performs Petri.interpreter calls σ) =
      allWithoutTexts (performs Petri.interpreter calls σ') := by
  induction calls generalizing σ σ' with
  | nil => exact Prod.ext rfl h
  | cons call rest ih =>
    obtain ⟨hCall, hRest⟩ := List.forall_mem_cons.mp hBlind
    have hFirst : withoutTexts (σ.perform Petri.interpreter call) =
        withoutTexts (σ'.perform Petri.interpreter call) := by
      rw [← σ.perform_textless hCall, h, σ'.perform_textless hCall]
    obtain ⟨hAnswer, hAfter⟩ := Prod.mk.inj hFirst
    obtain ⟨hAnswers, hLast⟩ := Prod.mk.inj (ih hAfter hRest)
    exact Prod.ext (congrArg₂ List.cons hAnswer hAnswers) hLast

end Session

namespace Net
open Session
open Simulation (start)

/-- The texts of tokens are inert. On two nets that are the same but for these texts every query
answers the same, and a firing fails alike or moves tokens with the same payloads and times, after
which the nets are again the same but for texts. So whole simulations go the same way, to the same
reports or errors, if no observer goes by the strings that show tokens; only these strings may differ
in what they tell. -/
theorem texts_are_inert {net net' : Net} (h : net.textless = net'.textless) :
    (∀ transition clock, net.enabled Petri.interpreter transition clock =
      net'.enabled Petri.interpreter transition clock) ∧
    (∀ clock, net.enabledTransitions Petri.interpreter clock =
      net'.enabledTransitions Petri.interpreter clock) ∧
    net.isDead Petri.interpreter = net'.isDead Petri.interpreter ∧
    (∀ after, net.earliestPending after = net'.earliestPending after) ∧
    (∀ transition clock,
      (net.fire Petri.interpreter transition clock).run.map (Prod.map Firing.textless textless) =
        (net'.fire Petri.interpreter transition clock).run.map
          (Prod.map Firing.textless textless)) ∧
    ∀ config seed control calls, (∀ call ∈ calls, call.Blind) →
      allWithoutTexts (performs Petri.interpreter calls ⟨start net config seed, control⟩) =
        allWithoutTexts (performs Petri.interpreter calls ⟨start net' config seed, control⟩) := by
  refine ⟨fun transition clock => ?_, fun clock => ?_, ?_, fun after => ?_,
    fun transition clock => ?_, fun config seed control calls hBlind => ?_⟩
  · rw [← enabled_textless, h, enabled_textless]
  · rw [← enabledTransitions_textless, h, enabledTransitions_textless]
  · rw [← isDead_textless, h, isDead_textless]
  · rw [← earliestPending_textless, h, earliestPending_textless]
  · rw [← fire_textless, h, fire_textless]
  · refine performs_congr ?_ hBlind
    simp only [Session.textless, Simulation.textless, start, h]

/-- A token is shown by the text that made it, when it has one. -/
def spelled (text : Option String) : Net where
  id := "spelled"
  nodes := [.place { id := "p", tokens := [{ value := .int 2, text := text }, { value := .int 3 }] },
    .place { id := "q", capacity := 2 }, .transition { id := "t" }]
  arcs := [.input { id := "i", place := "p", transition := "t", execute := "[first()]" },
    .output { id := "o", transition := "t", place := "q", execute := "[sum()]" }]

/-- Two nets that show a token differently, in steps and in a run that an observer stops. -/
theorem texts_are_inert_spelled :
    (spelled (some "1 + 1")).textless = (spelled none).textless ∧
      spelled (some "1 + 1") ≠ spelled none ∧
      allWithoutTexts (performs Petri.interpreter
          [.step, .run (List.replicate 9 (.step (Reaction.stopAt 2)))]
          ⟨start (spelled (some "1 + 1")) {} 7, {}⟩) =
        allWithoutTexts (performs Petri.interpreter
          [.step, .run (List.replicate 9 (.step (Reaction.stopAt 2)))]
          ⟨start (spelled none) {} 7, {}⟩) := by
  have hSame : (spelled (some "1 + 1")).textless = (spelled none).textless := rfl
  have hMoves : ∀ m ∈ List.replicate 9 (Move.step (Reaction.stopAt 2)), m.Blind := fun m hm =>
    List.eq_of_mem_replicate hm ▸ Reaction.stopAt_blind 2
  obtain ⟨_, _, _, _, _, hSimulations⟩ := texts_are_inert hSame
  exact ⟨hSame, by decide, hSimulations {} 7 {} _
    (List.forall_mem_cons.mpr ⟨trivial, List.forall_mem_singleton.mpr hMoves⟩)⟩

end Net
end Petri
