import Petri.Proofs.Simulation.Progress
import Petri.Proofs.Simulation.Steps

/-! # A run is steps in a row

Whatever callers do, a run acts on its simulation as so many steps do; they decide how many, and never
what a step does. So of two runs from one simulation, the firings of one begin those of the other.
-/
namespace Petri
set_option autoImplicit false

namespace Simulation

/-- Steps from `s` that have made these firings and that leave `last`. -/
def Performs (ev : Evaluator Id) (s : Simulation) (firings : List Firing) (last : Simulation) :
    Prop :=
  s.steps ev firings.length = (firings.map fired, last)

variable {ev : Evaluator Id} {s last after : Simulation} {firings : List Firing}

theorem Performs.steps_concat (h : Performs ev s firings last)
    {answer : Except RunError (Option Firing)} (hStep : last.step ev = (answer, after)) :
    s.steps ev (firings.length + 1) = (firings.map fired ++ [answer], after) := by
  rw [Performs] at h
  rw [steps_succ_last, h, hStep]

theorem Performs.concat (h : Performs ev s firings last) {f : Firing}
    (hStep : last.step ev = (.ok (some f), after)) : Performs ev s (firings ++ [f]) after := by
  rw [Performs, List.length_append, List.map_append]
  exact h.steps_concat hStep

/-- How a run ends that has made these firings, as steps do: after a step for each firing, or after
one more that finds nothing to fire or fails. -/
inductive EndsLike (ev : Evaluator Id) (s : Simulation) (firings : List Firing) :
    Except RunError Report → Simulation → Prop where
  | halted {outcome : Outcome} {last : Simulation} (hOutcome : outcome ≠ .dead)
      (hSteps : s.steps ev firings.length = (firings.map fired, last)) :
      EndsLike ev s firings (.ok ⟨outcome, last.firings, last.clock⟩)
        (last.report [.finished last.clock last.firings outcome])
  | dead {last : Simulation}
      (hSteps : s.steps ev (firings.length + 1) = (firings.map fired ++ [.ok none], last)) :
      EndsLike ev s firings (.ok ⟨.dead, last.firings, last.clock⟩)
        (last.report [.finished last.clock last.firings .dead])
  | failed {e : RunError} {last : Simulation}
      (hSteps : s.steps ev (firings.length + 1) = (firings.map fired ++ [.error e], last)) :
      EndsLike ev s firings (.error e) last

theorem EndsLike.firings_eq {result : Except RunError Report} {final : Simulation}
    (h : EndsLike ev s firings result final) : final.firings = s.firings + firings.length := by
  cases h with
  | halted _ hSteps =>
    have hCount : (s.steps ev firings.length).2.firings = _ := firings_steps _
    rw [hSteps, countP_fired] at hCount
    exact hCount
  | dead hSteps | failed hSteps =>
    have hCount : (s.steps ev (firings.length + 1)).2.firings = _ := firings_steps _
    rw [hSteps, List.countP_append, countP_fired] at hCount
    exact hCount

theorem EndsLike.answers {result : Except RunError Report} {final : Simulation}
    (h : EndsLike ev s firings result final) : (s.steps ev firings.length).1 = firings.map fired := by
  cases h with
  | halted _ hSteps => rw [hSteps]
  | dead hSteps | failed hSteps =>
    rw [steps_take (Nat.le_succ _), hSteps, List.take_left' (List.length_map _)]

/-- A run that ends by itself ends where a step makes no firing. -/
theorem EndsLike.stuck {result : Except RunError Report} {final : Simulation}
    (h : EndsLike ev s firings result final)
    (hItself : ∀ report, result = .ok report → report.outcome = .dead) :
    (s.steps ev (firings.length + 1)).1.countP isFired = firings.length := by
  cases h with
  | halted hOutcome _ => exact absurd (hItself _ rfl) hOutcome
  | dead hSteps | failed hSteps =>
    rw [hSteps, List.countP_append, countP_fired]
    rfl

theorem fired_injective : Function.Injective fired := by
  intro f g h
  cases h
  rfl

section Prefix
variable {firings' : List Firing} (h : (s.steps ev firings.length).1 = firings.map fired)
include h

theorem prefix_of_length_le (h' : (s.steps ev firings'.length).1 = firings'.map fired)
    (hLength : firings.length ≤ firings'.length) : firings <+: firings' := by
  have hTake : firings.map fired = (firings'.take firings.length).map fired := by
    rw [← h, steps_take hLength, h', List.map_take]
  rw [List.map_injective_iff.mpr fired_injective hTake]
  exact List.take_prefix _ _

theorem length_le_of_stuck {n : Nat} (hStuck : (s.steps ev (n + 1)).1.countP isFired = n) :
    firings.length ≤ n := by
  by_contra hLonger
  have hWithin : n + 1 ≤ firings.length := by omega
  rw [steps_take hWithin, h, ← List.map_take, countP_fired, List.length_take] at hStuck
  omega

end Prefix

end Simulation

namespace Run
open Simulation
variable {react : Reaction} {ev : Evaluator Id} {s : Simulation}

/-- A run is level with steps: it stands after one, or between the check and the firing of one, or it
has ended. -/
def Follows (ev : Evaluator Id) (s : Simulation) (r : Run) : Prop :=
  match r.location with
  | .fire => ∃ firings last, Performs ev s firings last ∧
      last.isFinished ev = (.ok false, r.simulation)
  | .ended result => ∃ firings, EndsLike ev s firings result r.simulation
  | _ => ∃ firings, Performs ev s firings r.simulation

theorem Follows.goes {r after : Run} (h : Follows ev s r) (hGoes : Goes react ev r after) :
    Follows ev s after := by
  rw [Follows] at h
  cases hGoes with
  | begins hAt | enters hAt | parks hAt | resumes hAt =>
    rw [hAt] at h
    exact h
  | pauses hAt hTo =>
    rw [hAt] at h
    rcases hTo with rfl | rfl <;> exact h
  | halts hAt | leaves hAt | limited hAt =>
    rw [hAt] at h
    obtain ⟨firings, hPerforms⟩ := h
    exact ⟨firings, .halted (by decide) hPerforms⟩
  | checkFails hAt _ hCheck =>
    rw [hAt] at h
    obtain ⟨firings, hPerforms⟩ := h
    exact ⟨firings, .failed (hPerforms.steps_concat (step_of_failing hCheck))⟩
  | dies hAt _ hCheck =>
    rw [hAt] at h
    obtain ⟨firings, hPerforms⟩ := h
    exact ⟨firings, .dead (hPerforms.steps_concat (step_of_dead hCheck))⟩
  | lives hAt _ hCheck =>
    rw [hAt] at h
    obtain ⟨firings, hPerforms⟩ := h
    exact ⟨firings, r.simulation, hPerforms, hCheck⟩
  | fireFails hAt hFire =>
    rw [hAt] at h
    obtain ⟨firings, last, hPerforms, hCheck⟩ := h
    exact ⟨firings, .failed (hPerforms.steps_concat ((step_of_alive hCheck).trans hFire))⟩
  | fires hAt hFire =>
    rw [hAt] at h
    obtain ⟨firings, last, hPerforms, hCheck⟩ := h
    -- a simulation that was found alive does fire
    rcases fires_of_alive hCheck with ⟨f, s', hSome, _⟩ | ⟨e, s', hFails, _⟩
    · cases hSome.symm.trans hFire
      exact ⟨firings ++ [f], hPerforms.concat ((step_of_alive hCheck).trans hFire)⟩
    · cases hFails.symm.trans hFire

theorem Drives.follows {control : Control} {n : Nat} {r : Run}
    (h : Drives react ev (Run.start s control) n r) : Follows ev s r := by
  induction h with
  | start => exact ⟨[], rfl⟩
  | next _ hGoes ih => exact ih.goes (Run.goes react ev hGoes)
  | command _ _ ih => exact ih

/-- A run from `s`, among whatever callers and observers, that ends. -/
inductive RunsTo (ev : Evaluator Id) (s : Simulation) :
    Except RunError Report → Simulation → Prop where
  | run {react : Reaction} {control : Control} {n : Nat} {r : Run}
      {result : Except RunError Report} (h : Drives react ev (Run.start s control) n r)
      (hEnd : r.location = .ended result) : RunsTo ev s result r.simulation

theorem RunsTo.endsLike {result : Except RunError Report} {final : Simulation}
    (h : RunsTo ev s result final) : ∃ firings, EndsLike ev s firings result final := by
  obtain ⟨hDrives, hEnd⟩ := h
  have hFollows := hDrives.follows
  rw [Follows, hEnd] at hFollows
  exact hFollows

/-- With a limit that is no smaller, a run that is not stopped makes no fewer firings. -/
theorem RunsTo.firings_le {config : Config} {result result' : Except RunError Report}
    {final final' : Simulation} (h : RunsTo ev s result final)
    (h' : RunsTo ev (s.withConfig config) result' final')
    (hMode : config.mode = s.config.mode)
    (hLimit : ∀ m', config.maxFirings = some m' → ∃ m, s.config.maxFirings = some m ∧ m ≤ m')
    (hUnstopped : ∀ report, result' = .ok report → report.outcome ≠ .stopped) :
    final.firings ≤ final'.firings := by
  obtain ⟨firings, hEnds⟩ := h.endsLike
  obtain ⟨firings', hEnds'⟩ := h'.endsLike
  by_cases hItself : ∀ report, result' = .ok report → report.outcome = .dead
  · -- the other run has come to where no step fires
    have hStuck := hEnds'.stuck hItself
    rw [steps_withConfig _ hMode] at hStuck
    have hFirings : final'.firings = s.firings + firings'.length := hEnds'.firings_eq
    have hLength := length_le_of_stuck hEnds.answers hStuck
    rw [hEnds.firings_eq, hFirings]
    omega
  · obtain ⟨report, rfl, hOutcome⟩ : ∃ report, result' = .ok report ∧ report.outcome ≠ .dead := by
      simpa using hItself
    have hReached : report.outcome = .firingLimit := by
      cases hName : report.outcome with
      | dead => exact absurd hName hOutcome
      | stopped => exact absurd hName (hUnstopped report rfl)
      | firingLimit => rfl
    obtain ⟨hDrives, _⟩ := h
    obtain ⟨hDrives', hEnd'⟩ := h'
    have hVerdict := (hDrives'.verdict hEnd').2.2
    rw [hReached] at hVerdict
    obtain ⟨m', hm', hFirings⟩ := hVerdict
    obtain ⟨m, hm, hLe⟩ := hLimit m' hm'
    have hMost := hDrives.paced.2.2 m hm
    change _ = max m' s.firings at hFirings
    omega

/-- A run ends as so many steps do. Another run from the same simulation, its time mode apart however
it is configured and commanded, makes the same firings as far as it gets; and it gets as far unless
it is stopped or has a smaller limit. -/
theorem run_eq_steps {result : Except RunError Report} {final : Simulation}
    (h : RunsTo ev s result final) :
    ∃ firings, final.firings = s.firings + firings.length ∧ EndsLike ev s firings result final ∧
      ∀ config result' final', config.mode = s.config.mode →
        RunsTo ev (s.withConfig config) result' final' →
        ∃ firings', final'.firings = s.firings + firings'.length ∧
          EndsLike ev (s.withConfig config) firings' result' final' ∧
          (final.firings ≤ final'.firings → firings <+: firings') ∧
          ((∀ m', config.maxFirings = some m' → ∃ m, s.config.maxFirings = some m ∧ m ≤ m') →
            (∀ report, result' = .ok report → report.outcome ≠ .stopped) →
            firings <+: firings') := by
  obtain ⟨firings, hEnds⟩ := h.endsLike
  refine ⟨firings, hEnds.firings_eq, hEnds, fun config result' final' hMode h' => ?_⟩
  obtain ⟨firings', hEnds'⟩ := h'.endsLike
  have hFirings : final'.firings = s.firings + firings'.length := hEnds'.firings_eq
  have hPrefix (hLe : final.firings ≤ final'.firings) : firings <+: firings' := by
    have hAnswers' := hEnds'.answers
    rw [steps_withConfig _ hMode] at hAnswers'
    rw [hEnds.firings_eq, hFirings] at hLe
    exact prefix_of_length_le hEnds.answers hAnswers' (Nat.le_of_add_le_add_left hLe)
  exact ⟨firings', hFirings, hEnds', hPrefix,
    fun hLimit hUnstopped => hPrefix (h.firings_le h' hMode hLimit hUnstopped)⟩

/-- A run that an observer stops makes the firing that it makes when nobody does. -/
theorem run_eq_steps_relay :
    ∃ stopped final, RunsTo unhurried relayStart (.ok ⟨.stopped, 1, 5⟩) stopped ∧
      RunsTo unhurried relayStart (.ok ⟨.dead, 1, 6⟩) final ∧
      ∃ firing, EndsLike unhurried relayStart [firing] (.ok ⟨.stopped, 1, 5⟩) stopped ∧
        EndsLike unhurried relayStart [firing] (.ok ⟨.dead, 1, 6⟩) final := by
  have hStoppedDue : Drives (Reaction.stopAt 1) unhurried (Run.start relayStart {}) 3 _ :=
    Drives.start.walk 3 (by decide +kernel)
  have hFinalDue : Drives Reaction.none unhurried (Run.start relayStart {}) 3 _ :=
    Drives.start.walk 3 (by decide +kernel)
  have hStopped : RunsTo unhurried relayStart (.ok ⟨.stopped, 1, 5⟩) _ :=
    .run ((hStoppedDue.fires rfl relayDue_fireRandom).walk 2 (by decide +kernel)) rfl
  have hFinal : RunsTo unhurried relayStart (.ok ⟨.dead, 1, 6⟩) _ :=
    .run ((hFinalDue.fires rfl relayDue_fireRandom).walk 4 (by decide +kernel)) rfl
  obtain ⟨firings, hCount, hEnds, hOthers⟩ := run_eq_steps hStopped
  obtain ⟨firings', hCount', hEnds', hPrefix, _⟩ := hOthers relayStart.config _ _ rfl hFinal
  change 1 = 0 + firings.length at hCount
  change 1 = 0 + firings'.length at hCount'
  obtain rfl := (hPrefix le_rfl).eq_of_length (by omega)
  obtain ⟨firing, rfl⟩ := List.length_eq_one_iff.mp (by omega : firings.length = 1)
  exact ⟨_, _, hStopped, hFinal, firing, hEnds, hEnds'⟩

end Run
end Petri
