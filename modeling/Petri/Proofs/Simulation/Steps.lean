import Petri.Proofs.Simulation.Driver

/-! # Steps in a row

The answers of steps, one after another. How many steps are taken does not change what they answer,
and neither do the parts of a configuration that only a run reads.
-/
namespace Petri.Simulation
set_option autoImplicit false

variable {ev : Evaluator Id} {s : Simulation}

def withConfig (s : Simulation) (config : Config) : Simulation := { s with config := config }

/-! ## Configurations -/

section SameClock
variable {config : Config} (hClock : (s.withConfig config).firingClock = s.firingClock)
include hClock

theorem enabledTransitions_withConfig :
    (s.withConfig config).enabledTransitions ev = s.enabledTransitions ev := by
  rw [enabledTransitions, enabledTransitions, hClock, withConfig]

theorem FiresRandom.withConfig {answer : Except RunError (Option Firing)} {s' : Simulation}
    (h : FiresRandom ev s (answer, s')) :
    FiresRandom ev (s.withConfig config) (answer, s'.withConfig config) := by
  have hNow' : _ = s.enabledTransitions ev := enabledTransitions_withConfig hClock
  cases h with
  | fails hNow => exact .fails (hNow'.trans hNow)
  | nothing hNow => exact .nothing (hNow'.trans hNow)
  | refused hNow hChosen hFire =>
    exact .refused (hNow'.trans hNow) hChosen (hClock ▸ hFire)
  | fired hNow hChosen hFire =>
    exact .fired (hNow'.trans hNow) hChosen (hClock ▸ hFire)

end SameClock

section SameMode
variable {config : Config} (hMode : config.mode = s.config.mode)
include hMode

theorem firingClock_withConfig : (s.withConfig config).firingClock = s.firingClock := by
  simp only [firingClock, withConfig, hMode]

theorem Checks.withConfig {answer : Except RunError Bool} {s' : Simulation}
    (h : Checks ev s (answer, s')) :
    Checks ev (s.withConfig config) (answer, s'.withConfig config) := by
  have hNow' : _ = s.enabledTransitions ev :=
    enabledTransitions_withConfig (firingClock_withConfig hMode)
  have hThen' (next : Time) : ((s.advancedTo next).withConfig config).enabledTransitions ev =
      (s.advancedTo next).enabledTransitions ev :=
    enabledTransitions_withConfig (firingClock_withConfig (s := s.advancedTo next) hMode)
  cases h with
  | fails hNow => exact .fails (hNow'.trans hNow)
  | live hNow => exact .live (hNow'.trans hNow)
  | untimed hNow hUntimed => exact .untimed (hNow'.trans hNow) (hMode.trans hUntimed)
  | exhausted hNow hTimed hNext =>
    exact .exhausted (hNow'.trans hNow) (hMode.trans hTimed) hNext
  | failsLater hNow hTimed hNext hThen =>
    exact .failsLater (hNow'.trans hNow) (hMode.trans hTimed) hNext ((hThen' _).trans hThen)
  | liveLater hNow hTimed hNext hThen =>
    exact .liveLater (hNow'.trans hNow) (hMode.trans hTimed) hNext ((hThen' _).trans hThen)
  | deadLater hNow hTimed hNext hThen =>
    exact .deadLater (hNow'.trans hNow) (hMode.trans hTimed) hNext ((hThen' _).trans hThen)

/-- A step reads nothing of a configuration but the time mode. -/
theorem step_withConfig {answer : Except RunError (Option Firing)} {s' : Simulation}
    (h : s.step ev = (answer, s')) : (s.withConfig config).step ev = (answer, s'.withConfig config) := by
  obtain ⟨finished, checked, hChecked⟩ : ∃ finished checked,
      s.isFinished ev = (finished, checked) := ⟨_, _, Prod.mk.eta.symm⟩
  have hMode' : config.mode = checked.config.mode := by
    rw [hMode, config_of_isFinished hChecked]
  have hCheck := ((checks_of_eq hChecked).withConfig hMode).eq
  rw [step, hChecked] at h
  rw [step, hCheck]
  cases finished with
  | error e =>
    cases h
    rfl
  | ok finished =>
    cases finished with
    | true =>
      cases h
      rfl
    | false => exact ((firesRandom_of_eq h).withConfig (firingClock_withConfig hMode')).eq

end SameMode

/-! ## Several steps -/

/-- The answers of so many steps, and the simulation after them. -/
def steps (ev : Evaluator Id) : Nat → Simulation →
    List (Except RunError (Option Firing)) × Simulation
  | 0, s => ([], s)
  | n + 1, s =>
    let (answer, s) := s.step ev
    let (answers, s) := steps ev n s
    (answer :: answers, s)

theorem steps_succ (n : Nat) : s.steps ev (n + 1) =
    ((s.step ev).1 :: ((s.step ev).2.steps ev n).1, ((s.step ev).2.steps ev n).2) := rfl

theorem steps_withConfig {config : Config} (n : Nat) (hMode : config.mode = s.config.mode) :
    (s.withConfig config).steps ev n = ((s.steps ev n).1, (s.steps ev n).2.withConfig config) := by
  induction n generalizing s with
  | zero => rfl
  | succ n ih =>
    have hStep : s.step ev = ((s.step ev).1, (s.step ev).2) := Prod.mk.eta.symm
    have hMode' : config.mode = (s.step ev).2.config.mode := by
      rw [hMode, config_of_step hStep]
    rw [steps_succ, steps_succ, step_withConfig hMode hStep, ih hMode']

theorem steps_take {m n : Nat} (h : n ≤ m) : (s.steps ev n).1 = (s.steps ev m).1.take n := by
  induction n generalizing s m with
  | zero => rfl
  | succ n ih =>
    obtain ⟨m, rfl⟩ : ∃ k, m = k + 1 := ⟨m - 1, by omega⟩
    rw [steps_succ, steps_succ, List.take_succ_cons, ih (Nat.le_of_succ_le_succ h)]

theorem steps_succ_last (n : Nat) : s.steps ev (n + 1) =
    ((s.steps ev n).1 ++ [((s.steps ev n).2.step ev).1], ((s.steps ev n).2.step ev).2) := by
  induction n generalizing s with
  | zero => rfl
  | succ n ih =>
    rw [steps_succ, ih, steps_succ n, List.cons_append]

/-! ## Counting -/

def fired (f : Firing) : Except RunError (Option Firing) := .ok (some f)

def isFired : Except RunError (Option Firing) → Bool
  | .ok (some _) => true
  | _ => false

theorem countP_fired (firings : List Firing) : (firings.map fired).countP isFired =
    firings.length := by
  rw [List.countP_map]
  exact List.countP_eq_length.mpr fun _ _ => rfl

theorem firings_of_step {answer : Except RunError (Option Firing)} {s' : Simulation}
    (h : s.step ev = (answer, s')) :
    s'.firings = s.firings + [answer].countP isFired := by
  rcases step_cases h with ⟨_, hCheck, rfl⟩ | ⟨hCheck, rfl⟩ | ⟨checked, hCheck, hFire⟩
  · exact firings_of_isFinished hCheck
  · exact firings_of_isFinished hCheck
  · rw [← firings_of_isFinished hCheck]
    cases firesRandom_of_eq hFire <;> rfl

theorem firings_steps (n : Nat) :
    (s.steps ev n).2.firings = s.firings + (s.steps ev n).1.countP isFired := by
  induction n with
  | zero => rfl
  | succ n ih =>
    rw [steps_succ_last, List.countP_append, ← Nat.add_assoc, ← ih]
    exact firings_of_step Prod.mk.eta.symm

end Petri.Simulation
