import Petri.Proofs.Net.Timeless
import Petri.Proofs.Simulation.Sessions

/-! # Time modes of nets without time

The time mode says at which clock a simulation fires and whether the clock moves when nothing is
enabled. Where no token is timed and no inscription has a delay the clock has nowhere to go: it
stays at 0, and in either mode calls come back with the same answers and leave the same net.
-/
namespace Petri
set_option autoImplicit false

/-- The event took place at clock 0. A move of the clock leads away from there. -/
def Event.AtZero : Event → Prop
  | .consumed _ clock .. | .fired _ clock .. | .produced _ clock .. => clock = 0
  | .finished clock .. => clock = 0
  | .clockAdvanced .. => False

theorem Event.atZero_of_firing {f : Firing} (h : f.clock = 0) (number : Nat) :
    ∀ e ∈ Event.ofFiring number f, e.AtZero := by
  simp only [Event.ofFiring, List.forall_mem_append, List.forall_mem_map,
    List.forall_mem_singleton]
  exact ⟨⟨fun _ _ => h, h⟩, fun _ _ => h⟩

namespace Simulation
variable {ev : Evaluator Id} {s s' : Simulation}

def inMode (mode : TimeMode) (s : Simulation) : Simulation :=
  s.withConfig { s.config with mode := mode }

/-- A simulation that has seen no time pass, of a net that has none. -/
structure Timeless (s : Simulation) : Prop where
  net : s.net.Timeless
  clock : s.clock = 0
  events : ∀ e ∈ s.events, e.AtZero

/-- What a call has come back with, and it is nothing that happened after clock 0. -/
def Answer.Timeless : Answer → Prop
  | .moved answer => answer = none
  | .fired (.ok (some f)) => f.clock = 0 ∧ f.Untimed
  | .ran (.ok report) => report.clock = 0
  | _ => True

/-! ## Calls in another mode -/

theorem firingClock_eq_zero (h : s.clock = 0) : s.firingClock = 0 := by
  rw [firingClock]
  cases s.config.mode with
  | untimed => rfl
  | timed => exact h

theorem firingClock_inMode (h : s.clock = 0) (mode : TimeMode) :
    (s.inMode mode).firingClock = s.firingClock :=
  (firingClock_eq_zero (s := s.inMode mode) h).trans (firingClock_eq_zero h).symm

theorem enabledTransitions_inMode (h : s.clock = 0) (mode : TimeMode) :
    (s.inMode mode).enabledTransitions ev = s.enabledTransitions ev :=
  enabledTransitions_withConfig (firingClock_inMode h mode)

theorem randomTransition_inMode (h : s.clock = 0) (mode : TimeMode) :
    (s.inMode mode).randomTransition ev =
      ((s.randomTransition ev).1, (s.randomTransition ev).2.inMode mode) := by
  rw [randomTransition, randomTransition, enabledTransitions_inMode h]
  cases s.enabledTransitions ev <;> rfl

theorem fireRandom_inMode (h : s.clock = 0) (mode : TimeMode) :
    (s.inMode mode).fireRandom ev = ((s.fireRandom ev).1, (s.fireRandom ev).2.inMode mode) := by
  have hAfter : (s.fireRandom ev).2.inMode mode =
      (s.fireRandom ev).2.withConfig { s.config with mode := mode } := by
    rw [inMode, config_of_fireRandom Prod.mk.eta.symm]
  rw [hAfter]
  exact ((firesRandom ev s).withConfig (firingClock_inMode h mode)).eq

namespace Timeless

/-- In either mode a check finds out whether something is enabled, and no more. -/
theorem isFinished (h : s.Timeless) :
    s.isFinished ev = ((s.enabledTransitions ev).map List.isEmpty, s) := by
  cases hNow : s.enabledTransitions ev with
  | error e => exact (Checks.fails hNow).eq
  | ok enabled =>
    cases enabled with
    | cons first rest => exact (Checks.live hNow).eq
    | nil =>
      cases hMode : s.config.mode with
      | untimed => exact (Checks.untimed hNow hMode).eq
      -- there is no time to which the clock could move
      | timed => exact (Checks.exhausted hNow hMode (h.net.earliestPending _)).eq

theorem inMode (h : s.Timeless) (mode : TimeMode) : (s.inMode mode).Timeless :=
  ⟨h.net, h.clock, h.events⟩

theorem isFinished_inMode (h : s.Timeless) (mode : TimeMode) :
    (s.inMode mode).isFinished ev = ((s.isFinished ev).1, (s.isFinished ev).2.inMode mode) := by
  rw [h.isFinished, (h.inMode mode).isFinished, enabledTransitions_inMode h.clock]

theorem advanceClock (h : s.Timeless) : s.advanceClock = (none, s) :=
  advanceClock_of_none (h.net.earliestPending _)

theorem step_inMode (h : s.Timeless) (mode : TimeMode) :
    (s.inMode mode).step ev = ((s.step ev).1, (s.step ev).2.inMode mode) := by
  have hCheck : (s.inMode mode).isFinished ev = _ := h.isFinished_inMode mode
  rw [h.isFinished] at hCheck
  rw [step, step, hCheck, h.isFinished]
  cases s.enabledTransitions ev with
  | error e => rfl
  | ok enabled =>
    cases enabled with
    | nil => rfl
    | cons first rest => exact fireRandom_inMode h.clock mode

/-! ## No call brings time -/

theorem report (h : s.Timeless) {events : List Event} (hEvents : ∀ e ∈ events, e.AtZero) :
    (s.report events).Timeless where
  net := h.net
  clock := h.clock
  events := by
    rw [events_report]
    exact List.forall_mem_append.mpr ⟨h.events, hEvents⟩

theorem of_isFinished (h : s.Timeless) {answer : Except RunError Bool}
    (hCheck : s.isFinished ev = (answer, s')) : s'.Timeless := by
  rw [h.isFinished] at hCheck
  exact (Prod.mk.inj hCheck).2 ▸ h

theorem of_randomTransition (h : s.Timeless) : (s.randomTransition ev).2.Timeless := by
  rw [randomTransition]
  split
  · exact h
  · exact ⟨h.net, h.clock, h.events⟩

theorem of_fireRandom (h : s.Timeless) {answer : Except RunError (Option Firing)}
    (hFire : s.fireRandom Petri.interpreter = (answer, s')) :
    s'.Timeless ∧ (Answer.fired answer).Timeless := by
  cases firesRandom_of_eq hFire with
  | fails | nothing => exact ⟨h, trivial⟩
  | refused => exact ⟨⟨h.net, h.clock, h.events⟩, trivial⟩
  | fired _ _ hFires =>
    obtain ⟨hNet, hUntimed⟩ := h.net.fire hFires
    have hClock := (Net.transition_of_fire hFires).2.trans (firingClock_eq_zero h.clock)
    refine ⟨.report ⟨?_, ?_, ?_⟩ (Event.atZero_of_firing hClock _), hClock, hUntimed⟩
    · exact hNet
    · exact h.clock
    · exact h.events

theorem of_step (h : s.Timeless) {answer : Except RunError (Option Firing)}
    (hStep : s.step Petri.interpreter = (answer, s')) :
    s'.Timeless ∧ (Answer.fired answer).Timeless := by
  rcases step_cases hStep with ⟨_, hCheck, rfl⟩ | ⟨hCheck, rfl⟩ | ⟨checked, hCheck, hFire⟩
  · exact ⟨h.of_isFinished hCheck, trivial⟩
  · exact ⟨h.of_isFinished hCheck, trivial⟩
  · exact (h.of_isFinished hCheck).of_fireRandom hFire

end Timeless
end Simulation

/-! ## Runs -/

namespace Run
variable {react : Reaction} {ev : Evaluator Id} {r r' : Run}

def inMode (mode : TimeMode) (r : Run) : Run := { r with simulation := r.simulation.inMode mode }

/-- A run of a simulation without time, which ends without time. -/
structure Timeless (r : Run) : Prop where
  simulation : r.simulation.Timeless
  ended : ∀ report, r.location = .ended (.ok report) → report.clock = 0

theorem Timeless.finish (h : r.simulation.Timeless) (outcome : Outcome) :
    (r.finish react outcome).Timeless where
  simulation := h.report (List.forall_mem_singleton.mpr h.clock)
  ended := by
    rintro report hEnded
    cases hEnded
    exact h.clock

theorem Goes.timeless (h : Goes react Petri.interpreter r r') (hTimeless : r.Timeless) :
    r'.Timeless := by
  have hSimulation := hTimeless.simulation
  cases h with
  | begins | enters | parks | resumes => exact ⟨hSimulation, nofun⟩
  | halts | limited | leaves => exact .finish hSimulation _
  | checkFails _ _ hCheck | lives _ _ hCheck => exact ⟨hSimulation.of_isFinished hCheck, nofun⟩
  | dies _ _ hCheck =>
    exact .finish (r := r.moveTo react _ .check) (hSimulation.of_isFinished hCheck) _
  | fireFails _ hFire | fires _ hFire => exact ⟨(hSimulation.of_fireRandom hFire).1, nofun⟩
  | pauses _ hTo =>
    refine ⟨hSimulation, ?_⟩
    rcases hTo with rfl | rfl <;> exact nofun

theorem Timeless.next (h : r.Timeless) : (r.next react Petri.interpreter).Timeless := by
  cases hWaiting : r.waiting with
  | true => exact (next_of_waiting react hWaiting).symm ▸ h
  | false => exact (goes react Petri.interpreter hWaiting).timeless h

/-- A run takes the same step in every mode. -/
theorem Timeless.next_inMode (h : r.Timeless) (mode : TimeMode) :
    (r.inMode mode).next react ev = (r.next react ev).inMode mode := by
  have hCheck : (r.simulation.inMode mode).isFinished ev = _ := h.simulation.isFinished_inMode mode
  have hFire : (r.simulation.inMode mode).fireRandom ev = _ :=
    Simulation.fireRandom_inMode h.simulation.clock mode
  obtain ⟨simulation, control, location⟩ := r
  dsimp only at hCheck hFire
  cases location with
  | start =>
    cases hStep : simulation.config.step <;>
      simp [Run.next, inMode, Simulation.inMode, Simulation.withConfig, hStep, command]
  | top =>
    by_cases hStopped : control.state = .stopped
    · simp only [Run.next, inMode, hStopped, if_true]
      rfl
    · simp only [Run.next, inMode, hStopped, if_false]
  | check =>
    cases hLimit : (Run.mk simulation control .check).limitReached with
    | true =>
      have hLimit' : (Run.mk (simulation.inMode mode) control .check).limitReached = true := hLimit
      simp only [Run.next, inMode, hLimit, hLimit', if_true]
      rfl
    | false =>
      have hLimit' : (Run.mk (simulation.inMode mode) control .check).limitReached = false := hLimit
      simp only [Run.next, inMode, hLimit, hLimit', hCheck, Bool.false_eq_true, if_false]
      rcases simulation.isFinished ev with ⟨_ | _ | _, after⟩ <;> rfl
  | fire =>
    simp only [Run.next, inMode, hFire]
    rcases simulation.fireRandom ev with ⟨_ | _, after⟩ <;> rfl
  | checkpoint => rfl
  | delay => rfl
  | parked =>
    cases hState : control.state with
    | running | paused => simp only [Run.next, inMode, hState]
    | stopped =>
      simp only [Run.next, inMode, hState]
      rfl
  | ended result => rfl

theorem Timeless.move (h : r.Timeless) (m : Move) :
    (r.move Petri.interpreter m).Timeless ∧ ∀ mode,
      (r.inMode mode).move Petri.interpreter m = (r.move Petri.interpreter m).inMode mode := by
  cases m with
  | step react => exact ⟨h.next, h.next_inMode⟩
  | command c => exact ⟨⟨h.simulation, h.ended⟩, fun _ => rfl⟩

theorem Timeless.play (h : r.Timeless) (moves : List Move) :
    (r.play Petri.interpreter moves).Timeless ∧ ∀ mode,
      (r.inMode mode).play Petri.interpreter moves =
        (r.play Petri.interpreter moves).inMode mode := by
  induction moves generalizing r with
  | nil => exact ⟨h, fun _ => rfl⟩
  | cons m rest ih =>
    obtain ⟨hMoved, hModes⟩ := h.move m
    exact (ih hMoved).imp_right fun hRest mode =>
      (congrArg (Run.play Petri.interpreter · rest) (hModes mode)).trans (hRest mode)

end Run

/-! ## Sequences of calls -/

namespace Session
open Simulation

def inMode (mode : TimeMode) (σ : Session) : Session :=
  { σ with simulation := σ.simulation.inMode mode }

variable {σ : Session}

theorem timeless_of_perform (h : σ.simulation.Timeless) (call : Call) :
    (σ.perform Petri.interpreter call).2.simulation.Timeless ∧
      ∀ answer ∈ (σ.perform Petri.interpreter call).1, answer.Timeless := by
  have hAnswered {result : Simulation.Answer × Simulation}
      (hResult : result.2.Timeless ∧ result.1.Timeless) :
      (σ.answered result).2.simulation.Timeless ∧
        ∀ answer ∈ (σ.answered result).1, answer.Timeless :=
    hResult.imp_right fun hAnswer => by
      rintro _ ⟨⟩
      exact hAnswer
  cases call with
  | randomTransition => exact hAnswered ⟨h.of_randomTransition, trivial⟩
  | advanceClock =>
    rw [perform, h.advanceClock]
    exact hAnswered ⟨h, rfl⟩
  | isFinished => exact hAnswered ⟨h.of_isFinished Prod.mk.eta.symm, trivial⟩
  | fireRandom => exact hAnswered (h.of_fireRandom Prod.mk.eta.symm)
  | step => exact hAnswered (h.of_step Prod.mk.eta.symm)
  | run moves =>
    have hStart : (Run.start σ.simulation σ.control).Timeless := ⟨h, nofun⟩
    obtain ⟨hSimulation, hEnded⟩ := (hStart.play moves).1
    refine ⟨hSimulation, ?_⟩
    rintro answer hAnswer
    obtain ⟨result, hResult, rfl⟩ := Option.map_eq_some_iff.mp hAnswer
    cases result with
    | error e => trivial
    | ok report =>
      refine hEnded report ?_
      rw [Run.result?] at hResult
      split at hResult
      · rename_i hAt
        rw [hAt, Option.some.inj hResult]
      · cases hResult
  | command | exchange => exact ⟨h, fun _ hNone => absurd hNone (Option.not_mem_none _)⟩

theorem perform_inMode (h : σ.simulation.Timeless) (call : Call) (mode : TimeMode) :
    (σ.inMode mode).perform Petri.interpreter call =
      ((σ.perform Petri.interpreter call).1,
        (σ.perform Petri.interpreter call).2.inMode mode) := by
  cases call with
  | randomTransition =>
    simp only [perform, inMode, randomTransition_inMode h.clock]
    rfl
  | advanceClock =>
    simp only [perform, inMode, h.advanceClock, (h.inMode mode).advanceClock]
    rfl
  | isFinished =>
    simp only [perform, inMode, h.isFinished_inMode]
    rfl
  | fireRandom =>
    simp only [perform, inMode, fireRandom_inMode h.clock]
    rfl
  | step =>
    simp only [perform, inMode, h.step_inMode]
    rfl
  | run moves =>
    have hStart : (Run.start σ.simulation σ.control).Timeless := ⟨h, nofun⟩
    have hPlay : (Run.start (σ.inMode mode).simulation (σ.inMode mode).control).play
        Petri.interpreter moves = _ := (hStart.play moves).2 mode
    simp only [perform, hPlay]
    rfl
  | command c => rfl
  | exchange control => rfl

theorem performs_inMode (h : σ.simulation.Timeless) (calls : List Call) :
    (performs Petri.interpreter calls σ).2.simulation.Timeless ∧
      (∀ answer, some answer ∈ (performs Petri.interpreter calls σ).1 → answer.Timeless) ∧
      ∀ mode, performs Petri.interpreter calls (σ.inMode mode) =
        ((performs Petri.interpreter calls σ).1,
          (performs Petri.interpreter calls σ).2.inMode mode) := by
  induction calls generalizing σ with
  | nil => exact ⟨h, fun _ hMem => absurd hMem List.not_mem_nil, fun _ => rfl⟩
  | cons call rest ih =>
    obtain ⟨hFirst, hAnswer⟩ := timeless_of_perform h call
    obtain ⟨hLast, hAnswers, hModes⟩ := ih hFirst
    refine ⟨hLast, ?_, fun mode => ?_⟩
    · rintro answer hMem
      rcases List.mem_cons.mp hMem with hHere | hLater
      · exact hAnswer answer hHere.symm
      · exact hAnswers answer hLater
    · simp only [performs, perform_inMode h, hModes]

/-- Without timed tokens and delays it does not matter whether a simulation has time: whatever is
called, the answers are the same in both modes, errors and firings among them, and so are the net
and the events in the end. Whatever the calls have come to, the clock stands at 0, no event tells
otherwise, and no token has become timed. -/
theorem modes_agree_without_time {net : Net} (hNet : net.Timeless) (config : Config) (seed : Nat)
    (control : Control) (calls : List Call) :
    ∃ (answers : List (Option Simulation.Answer)) (last : Session),
      (∀ mode, performs Petri.interpreter calls
        ⟨start net { config with mode := mode } seed, control⟩ = (answers, last.inMode mode)) ∧
      last.simulation.Timeless ∧ ∀ answer, some answer ∈ answers → answer.Timeless := by
  have hStart : (start net config seed).Timeless := ⟨hNet, rfl, List.forall_mem_nil _⟩
  obtain ⟨hLast, hAnswers, hModes⟩ :=
    @performs_inMode ⟨start net config seed, control⟩ hStart calls
  exact ⟨_, _, hModes, hLast, hAnswers⟩

/-- A transition takes one token and makes two, for which there is room once. -/
def burst : Net where
  id := "burst"
  nodes := [.place { id := "p", tokens := [{ value := .unit }, { value := .int 3 }] },
    .place { id := "q", capacity := 3 }, .transition { id := "t" }]
  arcs := [.input { id := "i", place := "p", transition := "t" },
    .output { id := "o", transition := "t", place := "q", execute := "[size(), true]" }]

theorem burst_timeless : burst.Timeless where
  untimed := by decide
  undelayed := by
    have hOne : Inscription.Undelayed defaultExecute :=
      forall_of_eq_ok (b := ⟨.literal (.int 1), none⟩) (by cbv) rfl
    have hTwo : Inscription.Undelayed "[size(), true]" :=
      forall_of_eq_ok (b := ⟨.list [.call "size" [], .literal (.bool true)], none⟩) (by cbv) rfl
    simpa [burst, Arc.execute] using ⟨hOne, hTwo⟩

/-- The first firing of a burst succeeds and the second fails, in a step and in a run. -/
theorem modes_agree_without_time_burst :
    burst.Timeless ∧ ∃ (answers : List (Option Simulation.Answer)) (last : Session),
      (∀ mode, performs Petri.interpreter
        [.isFinished, .step, .command .pause, .step, .run (List.replicate 8 (.step Reaction.none))]
        ⟨start burst { mode := mode, maxFirings := some 5 } 7, {}⟩ = (answers, last.inMode mode)) ∧
      last.simulation.Timeless ∧ ∀ answer, some answer ∈ answers → answer.Timeless :=
  ⟨burst_timeless, modes_agree_without_time burst_timeless { maxFirings := some 5 } 7 {} _⟩

end Session
end Petri
