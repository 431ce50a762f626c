import Petri.Proofs.Net.Queries
import Petri.Proofs.Simulation.Calls

/-! # Progress of a run

A run never goes round without a firing: when its check lets it pass, it fires or fails, so that the
steps it takes are bounded by the firings it makes. A limit bounds the firings, and each outcome says
what was found in the end.
-/
namespace Petri
set_option autoImplicit false

theorem Simulation.enabledTransitions_eq_nil_iff {ev : Evaluator Id} {s : Simulation} :
    s.enabledTransitions ev = .ok [] ↔
      ∀ t ∈ s.net.transitions, (s.net.enabled ev t.id s.firingClock).run = .ok false :=
  Net.selectEnabled_eq_nil_iff ev s.net s.firingClock s.net.transitions

namespace Run
variable {react : Reaction} {ev : Evaluator Id}

theorem limitReached_eq_false_iff {r : Run} : r.limitReached = false ↔
    ∀ m, r.simulation.config.maxFirings = some m → r.simulation.firings < m := by
  rw [limitReached]
  cases r.simulation.config.maxFirings <;> simp

theorem limitReached_eq_true_iff {r : Run} : r.limitReached = true ↔
    ∃ m, r.simulation.config.maxFirings = some m ∧ m ≤ r.simulation.firings := by
  rw [limitReached]
  cases r.simulation.config.maxFirings <;> simp

/-! ## Every round fires -/

/-- The check has let the run pass. -/
structure Passed (ev : Evaluator Id) (r : Run) : Prop where
  alive : ∃ checked : Simulation, checked.isFinished ev = (.ok false, r.simulation)
  below : ∀ m, r.simulation.config.maxFirings = some m → r.simulation.firings < m

theorem Goes.passed {r after : Run} (h : Goes react ev r after) (hAt : after.location = .fire) :
    Passed ev after := by
  cases h with
  | lives _ hLimit hCheck =>
    refine ⟨⟨r.simulation, hCheck⟩, ?_⟩
    rw [moveTo_simulation, Simulation.config_of_isFinished hCheck,
      Simulation.firings_of_isFinished hCheck]
    exact limitReached_eq_false_iff.mp hLimit
  | pauses _ hTo => rcases hTo with rfl | rfl <;> cases hAt
  | _ => cases hAt

theorem Drives.passed {s : Simulation} {control : Control} {n : Nat} {r : Run}
    (h : Drives react ev (Run.start s control) n r) (hAt : r.location = .fire) : Passed ev r := by
  induction h with
  | start => cases hAt
  | next _ hGoes => exact (goes react ev hGoes).passed hAt
  | command _ c ih =>
    obtain ⟨hAlive, hBelow⟩ := ih hAt
    exact ⟨hAlive, hBelow⟩

/-- How far a run has come since its last firing, at most. -/
def phase : Location → Nat
  | .checkpoint => 0
  | .delay => 1
  | .start | .parked => 2
  | .top => 3
  | .check => 4
  | .fire => 5
  | .ended _ => 6

/-- A step comes closer to the next firing or makes it. -/
theorem Goes.counts {r after : Run} (h : Goes react ev r after)
    (hPassed : r.location = .fire → Passed ev r) :
    (after.simulation.firings = r.simulation.firings ∧
      phase r.location < phase after.location) ∨
    (after.simulation.firings = r.simulation.firings + 1 ∧ r.location = .fire ∧
      phase after.location = 0) := by
  cases h with
  | begins hAt | halts hAt | enters hAt | limited hAt | parks hAt | resumes hAt | leaves hAt =>
    exact .inl ⟨rfl, by simp [hAt, phase]⟩
  | pauses hAt hTo =>
    refine .inl ⟨rfl, ?_⟩
    rcases hTo with rfl | rfl <;> simp [hAt, phase]
  | checkFails hAt _ hCheck | dies hAt _ hCheck | lives hAt _ hCheck =>
    exact .inl ⟨(Simulation.firings_of_isFinished hCheck :), by simp [hAt, phase]⟩
  | fireFails hAt hFire =>
    refine .inl ⟨?_, by simp [hAt, phase]⟩
    cases Simulation.firesRandom_of_eq hFire <;> rfl
  | fires hAt hFire =>
    refine .inr ⟨?_, hAt, rfl⟩
    obtain ⟨checked, hCheck⟩ := (hPassed hAt).alive
    rcases Simulation.fires_of_alive hCheck with ⟨firing, after, hSome, hCount⟩ | ⟨e, after, hFails, _⟩
    · cases hSome.symm.trans hFire
      exact hCount
    · cases hFails.symm.trans hFire

/-- Between two firings there is room for six steps, and a limit is not passed. -/
theorem Drives.paced {s : Simulation} {control : Control} {n : Nat} {r : Run}
    (h : Drives react ev (Run.start s control) n r) :
    n + 6 * s.firings ≤ 6 * r.simulation.firings + phase r.location ∧
      s.firings ≤ r.simulation.firings ∧
      ∀ m, s.config.maxFirings = some m → r.simulation.firings ≤ max m s.firings := by
  induction h with
  | start => simp [Run.start]
  | command _ _ ih => exact ih
  | next hBefore hGoes ih =>
    obtain ⟨hPace, hMono, hLimit⟩ := ih
    have hStep := goes react ev hGoes
    rcases hStep.counts hBefore.passed with ⟨hCount, hPhase⟩ | ⟨hCount, hAt, hPhase⟩
    · rw [hCount]
      exact ⟨by omega, hMono, hLimit⟩
    · rw [hAt, phase] at hPace
      refine ⟨by omega, by omega, fun m hm => ?_⟩
      -- this firing was let pass below the limit
      have hBelow := (hBefore.passed hAt).below m (by rw [hBefore.config]; exact hm)
      omega

/-- The one step of a run that fires: one firing, or the error of a firing that has changed nothing. -/
inductive FiresOnce (react : Reaction) (ev : Evaluator Id) (r : Run) : Prop where
  | fires {firing : Firing} {after : Simulation}
      (hAnswer : r.simulation.fireRandom ev = (.ok (some firing), after))
      (hFire : (r.simulation.net.fire ev firing.transition r.simulation.firingClock).run =
        .ok (firing, after.net))
      (hCount : after.firings = r.simulation.firings + 1)
      (hNext : r.next react ev = r.moveTo react after .checkpoint)
  | fails {e : RunError} {after : Simulation}
      (hAnswer : r.simulation.fireRandom ev = (.error e, after))
      (hNet : after.net = r.simulation.net) (hCount : after.firings = r.simulation.firings)
      (hNext : r.next react ev = r.moveTo react after (.ended (.error e)))

theorem Passed.firesOnce {r : Run} (h : Passed ev r) (hAt : r.location = .fire) :
    FiresOnce react ev r := by
  obtain ⟨checked, hCheck⟩ := h.alive
  rcases Simulation.fires_of_alive hCheck with
    ⟨firing, after, hAnswer, hCount⟩ | ⟨e, after, hAnswer, hNet, hCount, _⟩
  · refine .fires hAnswer (Simulation.fire_of_fireRandom hAnswer) hCount ?_
    simp only [next, hAt, hAnswer]
  · refine .fails hAnswer hNet hCount ?_
    simp only [next, hAt, hAnswer]

/-! ## What outcomes say -/

/-- The last check of a run has moved the clock. -/
def AdvancedLast (react : Reaction) (ev : Evaluator Id) (first r : Run) : Prop :=
  ∃ n before, Drives react ev first n before ∧ before.location = .check ∧
    before.simulation.clock < r.simulation.clock ∧
    r.simulation.events = before.simulation.events ++
      [.clockAdvanced before.simulation.clock r.simulation.clock,
        .finished r.simulation.clock r.simulation.firings .dead]

/-- What an outcome says of a run that began as `first` and has ended as `r`. -/
def Says (react : Reaction) (ev : Evaluator Id) (first r : Run) : Outcome → Prop
  | .dead =>
    (∀ t ∈ r.simulation.net.transitions,
      (r.simulation.net.enabled ev t.id r.simulation.firingClock).run = .ok false) ∧
    (r.simulation.config.mode = .timed →
      (∀ p ∈ r.simulation.net.places, ∀ t ∈ p.tokens, t.time ≤ r.simulation.clock) ∨
        AdvancedLast react ev first r)
  | .stopped => r.control.state = .stopped
  | .firingLimit => ∃ m, first.simulation.config.maxFirings = some m ∧
      r.simulation.firings = max m first.simulation.firings

theorem Says.command {first r : Run} {outcome : Outcome} (h : Says react ev first r outcome)
    (c : Command) : Says react ev first (r.command c) outcome := by
  cases outcome with
  | dead => exact h
  | stopped => exact command_stopped h c
  | firingLimit => exact h

theorem verdict_dead {first r : Run} {n : Nat} (h : Drives react ev first n r)
    (hAt : r.location = .check) {last : Simulation}
    (hCheck : r.simulation.isFinished ev = (.ok true, last)) :
    Says react ev first ((r.moveTo react last .check).finish react .dead) .dead := by
  cases Simulation.checks_of_eq hCheck with
  | untimed hNow hMode =>
    refine ⟨Simulation.enabledTransitions_eq_nil_iff.mp hNow, fun hTimed => ?_⟩
    cases hMode.symm.trans hTimed
  | exhausted hNow _ hNext =>
    exact ⟨Simulation.enabledTransitions_eq_nil_iff.mp hNow,
      fun _ => .inl (Net.earliestPending_eq_none_iff.mp hNext)⟩
  | @deadLater next hNow _ hNext hThen =>
    refine ⟨Simulation.enabledTransitions_eq_nil_iff.mp hThen, fun _ => .inr ?_⟩
    refine ⟨n, r, h, hAt, Net.lt_of_earliestPending hNext, ?_⟩
    simp only [finish_simulation, moveTo_simulation, Simulation.advancedTo,
      Simulation.events_report, List.append_assoc]
    rfl

theorem Drives.verdict {s : Simulation} {control : Control} {n : Nat} {r : Run}
    (h : Drives react ev (Run.start s control) n r) {report : Report}
    (hEnd : r.location = .ended (.ok report)) :
    report.firings = r.simulation.firings ∧ report.clock = r.simulation.clock ∧
      Says react ev (Run.start s control) r report.outcome := by
  induction h with
  | start => cases hEnd
  | command hBefore c ih =>
    obtain ⟨hFirings, hClock, hSays⟩ := ih hEnd
    exact ⟨hFirings, hClock, hSays.command c⟩
  | @next n r hBefore hGoes _ =>
    have hStep := goes react ev hGoes
    generalize r.next react ev = after at hStep hEnd
    cases hStep with
    | halts _ hStopped | leaves _ hStopped =>
      cases hEnd
      exact ⟨rfl, rfl, moveTo_stopped react _ _ hStopped⟩
    | limited _ hLimit =>
      cases hEnd
      obtain ⟨m, hm, hReached⟩ := limitReached_eq_true_iff.mp hLimit
      rw [hBefore.config] at hm
      obtain ⟨_, hMono, hMost⟩ := hBefore.paced
      exact ⟨rfl, rfl, m, hm, (hMost m hm).antisymm (max_le hReached hMono)⟩
    | dies hAt _ hCheck =>
      cases hEnd
      exact ⟨rfl, rfl, verdict_dead hBefore hAt hCheck⟩
    | pauses _ hTo => rcases hTo with rfl | rfl <;> cases hEnd
    | _ => cases hEnd

/-- A run that its check lets pass goes on to fire, and fires once or ends with an error; so its
steps are bounded by its firings, and its firings by the limit. In the end its outcome says what
was found. -/
theorem run_progresses {s : Simulation} {control : Control} {n : Nat} {r : Run}
    (h : Drives react ev (Run.start s control) n r) :
    (r.location = .check → r.limitReached = false →
      ∀ alive, r.simulation.isFinished ev = (.ok false, alive) →
        r.next react ev = r.moveTo react alive .fire) ∧
    (r.location = .fire → FiresOnce react ev r) ∧
    n ≤ 6 * (r.simulation.firings - s.firings) + 6 ∧
    (∀ m, s.config.maxFirings = some m → r.simulation.firings - s.firings ≤ m - s.firings) ∧
    ∀ report, r.location = .ended (.ok report) →
      report.firings = r.simulation.firings ∧ report.clock = r.simulation.clock ∧
        Says react ev (Run.start s control) r report.outcome := by
  obtain ⟨hPace, hMono, hLimit⟩ := h.paced
  refine ⟨?_, fun hAt => (h.passed hAt).firesOnce hAt, ?_, ?_, fun report hEnd => h.verdict hEnd⟩
  · intro hAt hBelow alive hCheck
    simp [next, hAt, hBelow, hCheck]
  · have hPhase : phase r.location ≤ 6 := by cases r.location <;> simp [phase]
    omega
  · intro m hm
    have hMost := hLimit m hm
    omega

theorem run_progresses_relay :
    ∃ passing final, Drives Reaction.none unhurried (Run.start relayStart {}) 3 passing ∧
      Drives Reaction.none unhurried (Run.start relayStart {}) 8 final ∧
      passing.location = .fire ∧ FiresOnce Reaction.none unhurried passing ∧
      final.location = .ended (.ok ⟨.dead, 1, 6⟩) ∧
      Says Reaction.none unhurried (Run.start relayStart {}) final .dead ∧
      8 ≤ 6 * (final.simulation.firings - relayStart.firings) + 6 := by
  have hPassing : Drives Reaction.none unhurried (Run.start relayStart {}) 3 _ :=
    Drives.start.walk 3 (by decide +kernel)
  have hFinal := (hPassing.fires rfl relayDue_fireRandom).walk 4 (by decide +kernel)
  refine ⟨_, _, hPassing, hFinal, rfl, (run_progresses hPassing).2.1 rfl, rfl, ?_⟩
  obtain ⟨_, _, hPace, _, hSays⟩ := run_progresses hFinal
  exact ⟨(hSays ⟨.dead, 1, 6⟩ rfl).2.2, hPace⟩

end Run
end Petri
