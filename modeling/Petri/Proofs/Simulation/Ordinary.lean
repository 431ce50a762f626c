import Petri.Proofs.Net.Ordinary
import Petri.Proofs.Simulation.EventStream

/-! # Ordinary nets never fail

Drivers fire what they have found enabled, and in an ordinary net that never fails, nor does looking
for it. Firings keep a net ordinary, so no call of a sequence comes back with an error.
-/
namespace Petri
set_option autoImplicit false

/-- A net that can be built and is ordinary. -/
structure Net.Dependable (net : Net) : Prop where
  wellFormed : net.WellFormed
  ordinary : net.Ordinary

theorem Net.Dependable.fired {ev : Evaluator Id} {net after : Net} (h : net.Dependable)
    (hFired : Relation.ReflTransGen (Fired ev) net after) : after.Dependable := by
  induction hFired with
  | refl => exact h
  | tail _ hOne ih =>
    obtain ⟨transition, clock, firing, hFire⟩ := hOne
    obtain ⟨_, _, _, μ, _, _, _, rfl⟩ := InPlace.exists_fires ih.wellFormed hFire
    exact ⟨ih.wellFormed.change (.fire ev transition clock hFire),
      ih.ordinary.settled μ transition clock⟩

namespace Simulation
variable {s s' : Simulation}

/-- What a call has failed with. -/
def Answer.error? : Answer → Option RunError
  | drawn (.error e) | checked (.error e) | fired (.error e) | ran (.error e) => some e
  | _ => none

theorem exists_enabledTransitions (h : s.net.Dependable) : ∃ enabled,
    s.enabledTransitions Petri.interpreter = .ok enabled ∧
      ∀ t ∈ enabled, (s.net.enabled Petri.interpreter t s.firingClock).run = .ok true := by
  have hNow := h.ordinary.run_enabledTransitions h.wellFormed s.firingClock
  refine ⟨_, hNow, ?_⟩
  intro id hId
  obtain ⟨t, ht, rfl⟩ := List.mem_map.mp hId
  obtain ⟨hMem, hEnabled⟩ := List.mem_filter.mp ht
  rw [h.ordinary.run_enabled (Net.transition?_of_mem h.wellFormed.nodup hMem), hEnabled]

theorem enabledTransitions_ne_error (h : s.net.Dependable) (e : RunError) :
    s.enabledTransitions Petri.interpreter ≠ .error e := by
  obtain ⟨enabled, hEnabled, _⟩ := exists_enabledTransitions h
  rw [hEnabled]
  exact nofun

theorem isFinished_ne_error (h : s.net.Dependable) (e : RunError) (s' : Simulation) :
    s.isFinished Petri.interpreter ≠ (.error e, s') := by
  intro hCheck
  cases checks_of_eq hCheck with
  | fails hNow => exact enabledTransitions_ne_error h e hNow
  | @failsLater next _ _ _ _ hThen =>
    exact enabledTransitions_ne_error (s := s.advancedTo next) h e hThen

theorem fireRandom_ne_error (h : s.net.Dependable) (e : RunError) (s' : Simulation) :
    s.fireRandom Petri.interpreter ≠ (.error e, s') := by
  intro hFire
  cases firesRandom_of_eq hFire with
  | fails hNow => exact enabledTransitions_ne_error h e hNow
  | refused hNow hChosen hRefused =>
    obtain ⟨enabled, hEnabled, hAll⟩ := exists_enabledTransitions h
    cases hEnabled.symm.trans hNow
    obtain ⟨firing, after, hFires⟩ := h.ordinary.exists_fire h.wellFormed
      (hAll _ (Random.mem_of_choose hChosen))
    cases hFires.symm.trans hRefused

theorem step_ne_error (h : s.net.Dependable) (e : RunError) (s' : Simulation) :
    s.step Petri.interpreter ≠ (.error e, s') := by
  intro hStep
  rcases step_cases hStep with ⟨e', hCheck, _⟩ | ⟨_, hAnswer⟩ | ⟨checked, hCheck, hFire⟩
  · exact isFinished_ne_error h e' s' hCheck
  · cases hAnswer
  · exact fireRandom_ne_error (net_of_isFinished hCheck ▸ h) e s' hFire

theorem location_ne_error_of_drives {react : Reaction} {control : Control} {n : Nat} {r : Run}
    (h : s.net.Dependable) (hDrives : Run.Drives react Petri.interpreter (Run.start s control) n r)
    (e : RunError) : r.location ≠ .ended (.error e) := by
  induction hDrives with
  | start => exact nofun
  | command _ _ ih => exact ih
  | @next n r hBefore hGoes _ =>
    intro hEnd
    have hDependable : r.simulation.net.Dependable := h.fired (fired_of_drives hBefore)
    have hStep := Run.goes react Petri.interpreter hGoes
    generalize r.next react Petri.interpreter = after at hStep hEnd
    cases hStep with
    | checkFails _ _ hCheck => exact isFinished_ne_error hDependable _ _ hCheck
    | fireFails _ hFire => exact fireRandom_ne_error hDependable _ _ hFire
    | pauses _ hTo => rcases hTo with rfl | rfl <;> cases hEnd
    | _ => cases hEnd

theorem Returns.error?_eq_none {answer : Answer} (h : s.net.Dependable)
    (hReturns : Returns Petri.interpreter s answer s') : answer.error? = none := by
  cases hReturns with
  | @randomTransition answer _ hAnswer =>
    obtain ⟨enabled, hEnabled, _⟩ := exists_enabledTransitions h
    rw [Simulation.randomTransition, hEnabled] at hAnswer
    cases hAnswer
    rfl
  | advanceClock => rfl
  | @isFinished answer _ hAnswer =>
    cases answer with
    | ok => rfl
    | error e => exact absurd hAnswer (isFinished_ne_error h e s')
  | @fireRandom answer _ hAnswer =>
    cases answer with
    | ok => rfl
    | error e => exact absurd hAnswer (fireRandom_ne_error h e s')
  | @step answer _ hAnswer =>
    cases answer with
    | ok => rfl
    | error e => exact absurd hAnswer (step_ne_error h e s')
  | @run result _ hRuns =>
    cases result with
    | ok => rfl
    | error e =>
      obtain ⟨hDrives, hEnd⟩ := hRuns
      exact absurd hEnd (location_ne_error_of_drives h hDrives e)

theorem Reaches.dependable (h : s.net.Dependable) (hReaches : s.Reaches s') :
    s'.net.Dependable := by
  induction hReaches with
  | refl => exact h
  | tail _ hCall ih =>
    obtain ⟨ev, hCall⟩ := hCall
    exact ih.fired hCall.fired

/-- In an ordinary net an enabled transition fires, at whatever clock it was found enabled. So no
call on a simulation of the net fails, after whatever other calls: checks, steps and random firings
have no error, and a run among callers that comes to an end does not end with one. -/
theorem ordinary_never_fails {net : Net} (hNet : net.Reachable) (hOrdinary : net.Ordinary) :
    (∀ transition clock, (net.enabled Petri.interpreter transition clock).run = .ok true →
      ∃ firing after, (net.fire Petri.interpreter transition clock).run = .ok (firing, after)) ∧
    ∀ s s' : Simulation, s.net = net → s.Reaches s' → ∀ answer last,
      Returns Petri.interpreter s' answer last → answer.error? = none := by
  have h : net.Dependable := ⟨hNet.wellFormed, hOrdinary⟩
  refine ⟨fun transition clock hEnabled => hOrdinary.exists_fire h.wellFormed hEnabled, ?_⟩
  rintro s s' rfl hReaches answer last hReturns
  exact hReturns.error?_eq_none (hReaches.dependable h)

/-- A transition gives a token back to the place that it takes one from, as long as the other place is
not full. -/
def shuttle : Net where
  id := "shuttle"
  nodes := [.place { id := "p", tokens := [{ value := .int 7, time := 4 }, { value := .unit }]
                     capacity := 3 },
    .place { id := "q", capacity := 1 }, .transition { id := "t" }]
  arcs := [.input { id := "i", place := "p", transition := "t" },
    .output { id := "o", transition := "t", place := "p" },
    .output { id := "u", transition := "t", place := "q" }]

theorem shuttle_reachable : shuttle.Reachable := by
  have hFirst := (Net.Reachable.empty "shuttle").change
    (.addPlace { id := "p", tokens := [{ value := .int 7, time := 4 }, { value := .unit }]
                 capacity := 3 } (Net.addPlace_eq_ok_iff.mpr ⟨by decide, rfl⟩))
  have hSecond := hFirst.change
    (.addPlace { id := "q", capacity := 1 } (Net.addPlace_eq_ok_iff.mpr ⟨by decide, rfl⟩))
  have hTransition := hSecond.change
    (.addTransition { id := "t" } (Net.addTransition_eq_ok_iff.mpr ⟨by decide, rfl⟩))
  have hInput := hTransition.change (.addInput { id := "i", place := "p", transition := "t" }
    (Net.addInput_eq_ok_iff.mpr ⟨by decide, ⟨_, rfl⟩, ⟨_, rfl⟩, rfl⟩))
  have hBack := hInput.change (.addOutput { id := "o", transition := "t", place := "p" }
    (Net.addOutput_eq_ok_iff.mpr ⟨by decide, ⟨_, rfl⟩, ⟨_, rfl⟩, rfl⟩))
  exact hBack.change (.addOutput { id := "u", transition := "t", place := "q" }
    (Net.addOutput_eq_ok_iff.mpr ⟨by decide, ⟨_, rfl⟩, ⟨_, rfl⟩, rfl⟩))

theorem shuttle_ordinary : shuttle.Ordinary where
  guards := by decide
  evaluates := by decide
  requests := by decide
  products := by decide
  sources := by decide
  targets := by decide

/-- The shuttle fires early, and a step after that finds its one transition held up by the full
place. -/
theorem ordinary_never_fails_shuttle :
    shuttle.Reachable ∧ shuttle.Ordinary ∧
      (shuttle.enabled Petri.interpreter "t" 0).run = .ok true ∧
      (∃ firing after, (shuttle.fire Petri.interpreter "t" 0).run = .ok (firing, after)) ∧
      ∃ (s s' last : Simulation) (answer : Except RunError (Option Firing)), s.net = shuttle ∧
        s.Reaches s' ∧ Returns Petri.interpreter s' (.fired answer) last ∧
        (Answer.fired answer).error? = none := by
  have hSupplied : (shuttle.supplied "t" 0 && shuttle.headroom "t") = true := by decide
  have hEnabled : (shuttle.enabled Petri.interpreter "t" 0).run = .ok true := by
    rw [shuttle_ordinary.run_enabled (t := { id := "t" }) rfl, hSupplied]
  obtain ⟨hFires, hCalls⟩ := ordinary_never_fails shuttle_reachable shuttle_ordinary
  have hReaches : (start shuttle { mode := .timed } 7).Reaches _ :=
    .single ⟨Petri.interpreter, .fireRandom _⟩
  have hReturns : Returns Petri.interpreter _ (.fired _) _ :=
    .step (s := ((start shuttle { mode := .timed } 7).fireRandom Petri.interpreter).2)
      Prod.mk.eta.symm
  exact ⟨shuttle_reachable, shuttle_ordinary, hEnabled, hFires "t" 0 hEnabled, _, _, _, _, rfl,
    hReaches, hReturns, hCalls _ _ rfl hReaches _ _ hReturns⟩

end Simulation
end Petri
