import Mathlib
import Petri.Simulation.Basic

/-! # What a driver does

All that a check for the end and a random firing can do, said once. A check moves the clock at most
once and touches nothing else; a random firing draws one candidate and fires it. After a check that
finds the simulation alive, a random firing never comes back empty-handed.
-/
namespace Petri.Simulation
set_option autoImplicit false

variable {ev : Evaluator Id} {s s' : Simulation}

def advancedTo (s : Simulation) (next : Time) : Simulation :=
  { s with clock := next }.report [.clockAdvanced s.clock next]

theorem advanceClock_of_none (h : s.net.earliestPending s.clock = none) :
    s.advanceClock = (none, s) := by
  rw [advanceClock, h]

theorem advanceClock_of_some {next : Time} (h : s.net.earliestPending s.clock = some next) :
    s.advanceClock = (some next, s.advancedTo next) := by
  rw [advanceClock, h]
  rfl

/-! ## Checking for the end -/

/-- The outcomes of a check, each with what was found on the way. -/
inductive Checks (ev : Evaluator Id) (s : Simulation) :
    Except RunError Bool × Simulation → Prop where
  | fails {e : RunError} (hNow : s.enabledTransitions ev = .error e) : Checks ev s (.error e, s)
  | live {first : String} {rest : List String}
      (hNow : s.enabledTransitions ev = .ok (first :: rest)) : Checks ev s (.ok false, s)
  | untimed (hNow : s.enabledTransitions ev = .ok []) (hMode : s.config.mode = .untimed) :
      Checks ev s (.ok true, s)
  | exhausted (hNow : s.enabledTransitions ev = .ok []) (hMode : s.config.mode = .timed)
      (hNext : s.net.earliestPending s.clock = none) : Checks ev s (.ok true, s)
  | failsLater {next : Time} {e : RunError} (hNow : s.enabledTransitions ev = .ok [])
      (hMode : s.config.mode = .timed) (hNext : s.net.earliestPending s.clock = some next)
      (hThen : (s.advancedTo next).enabledTransitions ev = .error e) :
      Checks ev s (.error e, s.advancedTo next)
  | liveLater {next : Time} {first : String} {rest : List String}
      (hNow : s.enabledTransitions ev = .ok []) (hMode : s.config.mode = .timed)
      (hNext : s.net.earliestPending s.clock = some next)
      (hThen : (s.advancedTo next).enabledTransitions ev = .ok (first :: rest)) :
      Checks ev s (.ok false, s.advancedTo next)
  | deadLater {next : Time} (hNow : s.enabledTransitions ev = .ok [])
      (hMode : s.config.mode = .timed) (hNext : s.net.earliestPending s.clock = some next)
      (hThen : (s.advancedTo next).enabledTransitions ev = .ok []) :
      Checks ev s (.ok true, s.advancedTo next)

theorem checks (ev : Evaluator Id) (s : Simulation) : Checks ev s (s.isFinished ev) := by
  rw [isFinished]
  cases hNow : s.enabledTransitions ev with
  | error e => exact .fails hNow
  | ok enabled =>
    cases enabled with
    | cons first rest => exact .live hNow
    | nil =>
      dsimp only
      cases hMode : s.config.mode with
      | untimed => exact .untimed hNow hMode
      | timed =>
        cases hNext : s.net.earliestPending s.clock with
        | none =>
          rw [advanceClock_of_none hNext]
          exact .exhausted hNow hMode hNext
        | some next =>
          rw [advanceClock_of_some hNext]
          dsimp only
          cases hThen : (s.advancedTo next).enabledTransitions ev with
          | error e => exact .failsLater hNow hMode hNext hThen
          | ok enabled =>
            cases enabled with
            | nil => exact .deadLater hNow hMode hNext hThen
            | cons first rest => exact .liveLater hNow hMode hNext hThen

theorem Checks.eq {result : Except RunError Bool × Simulation} (h : Checks ev s result) :
    s.isFinished ev = result := by
  cases h with
  | fails hNow | live hNow => simp only [isFinished, hNow]
  | untimed hNow hMode => simp only [isFinished, hNow, hMode]
  | exhausted hNow hMode hNext => simp only [isFinished, hNow, hMode, advanceClock_of_none hNext]
  | failsLater hNow hMode hNext hThen | liveLater hNow hMode hNext hThen
  | deadLater hNow hMode hNext hThen =>
    simp only [isFinished, hNow, hMode, advanceClock_of_some hNext, hThen, List.isEmpty]

theorem checks_of_eq {result : Except RunError Bool × Simulation}
    (h : s.isFinished ev = result) : Checks ev s result := h ▸ checks ev s

section Kept
variable {answer : Except RunError Bool} (h : s.isFinished ev = (answer, s'))
include h

theorem net_of_isFinished : s'.net = s.net := by
  cases checks_of_eq h <;> rfl

theorem config_of_isFinished : s'.config = s.config := by
  cases checks_of_eq h <;> rfl

theorem firings_of_isFinished : s'.firings = s.firings := by
  cases checks_of_eq h <;> rfl

end Kept

/-! ## Firing at random -/

inductive FiresRandom (ev : Evaluator Id) (s : Simulation) :
    Except RunError (Option Firing) × Simulation → Prop where
  | fails {e : RunError} (hNow : s.enabledTransitions ev = .error e) :
      FiresRandom ev s (.error e, s)
  | nothing (hNow : s.enabledTransitions ev = .ok []) : FiresRandom ev s (.ok none, s)
  | refused {first : String} {rest : List String} {chosen : String} {source : Random.Source}
      {e : RunError} (hNow : s.enabledTransitions ev = .ok (first :: rest))
      (hChosen : Random.choose (first :: rest) s.source = (some chosen, source))
      (hFire : (s.net.fire ev chosen s.firingClock).run = .error e) :
      FiresRandom ev s (.error e, { s with source := source })
  | fired {first : String} {rest : List String} {chosen : String} {source : Random.Source}
      {firing : Firing} {net : Net} (hNow : s.enabledTransitions ev = .ok (first :: rest))
      (hChosen : Random.choose (first :: rest) s.source = (some chosen, source))
      (hFire : (s.net.fire ev chosen s.firingClock).run = .ok (firing, net)) :
      FiresRandom ev s (.ok (some firing),
        { s with source := source, net := net, firings := s.firings + 1 }.report
          (Event.ofFiring (s.firings + 1) firing))

theorem firesRandom (ev : Evaluator Id) (s : Simulation) : FiresRandom ev s (s.fireRandom ev) := by
  rw [fireRandom, randomTransition]
  cases hNow : s.enabledTransitions ev with
  | error e => exact .fails hNow
  | ok enabled =>
    cases enabled with
    | nil => exact .nothing hNow
    | cons first rest =>
      obtain ⟨chosen, source, hChosen⟩ := Random.exists_choose_cons first rest s.source
      -- drawing changes neither the net nor the clock at which it fires
      have hDrawn : ({ s with source := source } : Simulation).firingClock = s.firingClock := rfl
      simp only [hChosen, fire, hDrawn]
      cases hFire : (s.net.fire ev chosen s.firingClock).run with
      | error e => exact .refused hNow hChosen hFire
      | ok pair => exact .fired hNow hChosen hFire

theorem FiresRandom.eq {result : Except RunError (Option Firing) × Simulation}
    (h : FiresRandom ev s result) : s.fireRandom ev = result := by
  cases h with
  | fails hNow | nothing hNow => simp only [fireRandom, randomTransition, hNow, Random.choose]
  | @refused first rest chosen source e hNow hChosen hFire =>
    have hDrawn : ({ s with source := source } : Simulation).firingClock = s.firingClock := rfl
    simp only [fireRandom, randomTransition, hNow, hChosen, fire, hDrawn, hFire]
  | @fired first rest chosen source firing net hNow hChosen hFire =>
    have hDrawn : ({ s with source := source } : Simulation).firingClock = s.firingClock := rfl
    simp only [fireRandom, randomTransition, hNow, hChosen, fire, hDrawn, hFire]

theorem firesRandom_of_eq {result : Except RunError (Option Firing) × Simulation}
    (h : s.fireRandom ev = result) : FiresRandom ev s result := h ▸ firesRandom ev s

/-- Where one transition alone is enabled, it fires whatever words are drawn. -/
theorem fireRandom_of_singleton {transition : String} {firing : Firing} {net : Net}
    (hNow : s.enabledTransitions ev = .ok [transition])
    (hFire : (s.net.fire ev transition s.firingClock).run = .ok (firing, net)) :
    s.fireRandom ev = (.ok (some firing),
      { s with
        source := (s.source.drawIndex 0).2, net := net, firings := s.firings + 1 }.report
          (Event.ofFiring (s.firings + 1) firing)) :=
  (FiresRandom.fired hNow (Random.choose_singleton transition s.source) hFire).eq

theorem config_of_fireRandom {answer : Except RunError (Option Firing)}
    (h : s.fireRandom ev = (answer, s')) : s'.config = s.config := by
  cases firesRandom_of_eq h <;> rfl

/-! ## Together -/

/-- A step is a check, and a random firing unless the check ends it. -/
theorem step_cases {answer : Except RunError (Option Firing)} (h : s.step ev = (answer, s')) :
    (∃ e, s.isFinished ev = (.error e, s') ∧ answer = .error e) ∨
    (s.isFinished ev = (.ok true, s') ∧ answer = .ok none) ∨
    ∃ checked, s.isFinished ev = (.ok false, checked) ∧ checked.fireRandom ev = (answer, s') := by
  rw [step] at h
  split at h
  · rename_i hCheck
    cases h
    exact .inl ⟨_, hCheck, rfl⟩
  · rename_i hCheck
    cases h
    exact .inr (.inl ⟨hCheck, rfl⟩)
  · rename_i hCheck
    exact .inr (.inr ⟨_, hCheck, h⟩)

theorem step_of_failing {e : RunError} (h : s.isFinished ev = (.error e, s')) :
    s.step ev = (.error e, s') := by
  rw [step, h]

theorem step_of_dead (h : s.isFinished ev = (.ok true, s')) : s.step ev = (.ok none, s') := by
  rw [step, h]

theorem step_of_alive {checked : Simulation} (h : s.isFinished ev = (.ok false, checked)) :
    s.step ev = checked.fireRandom ev := by
  rw [step, h]

theorem config_of_step {answer : Except RunError (Option Firing)}
    (h : s.step ev = (answer, s')) : s'.config = s.config := by
  rcases step_cases h with ⟨_, hCheck, _⟩ | ⟨hCheck, _⟩ | ⟨checked, hCheck, hFire⟩
  · exact config_of_isFinished hCheck
  · exact config_of_isFinished hCheck
  · exact (config_of_fireRandom hFire).trans (config_of_isFinished hCheck)

theorem enabled_of_alive (h : s.isFinished ev = (.ok false, s')) :
    ∃ first rest, s'.enabledTransitions ev = .ok (first :: rest) := by
  cases checks_of_eq h with
  | live hNow => exact ⟨_, _, hNow⟩
  | liveLater _ _ _ hThen => exact ⟨_, _, hThen⟩

/-- A simulation that a check found alive fires, or its firing fails. -/
theorem fires_of_alive (h : s.isFinished ev = (.ok false, s')) :
    (∃ firing after, s'.fireRandom ev = (.ok (some firing), after) ∧
      after.firings = s'.firings + 1) ∨
    ∃ e after, s'.fireRandom ev = (.error e, after) ∧ after.net = s'.net ∧
      after.firings = s'.firings ∧ after.history = s'.history := by
  obtain ⟨first, rest, hEnabled⟩ := enabled_of_alive h
  generalize hResult : s'.fireRandom ev = result
  cases firesRandom_of_eq hResult with
  | fails hNow => simp [hEnabled] at hNow
  | nothing hNow => simp [hEnabled] at hNow
  | refused => exact .inr ⟨_, _, rfl, rfl, rfl, rfl⟩
  | fired => exact .inl ⟨_, _, rfl, rfl⟩

end Petri.Simulation
