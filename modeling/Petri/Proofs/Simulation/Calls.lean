import Petri.Proofs.Net.Firing
import Petri.Proofs.Simulation.Driving

/-! # Calls that fire

Transitions are fired by calls on a net and by drivers that have a net. To the net every such call,
whether it fails or not, is a sequence of firings.
-/
namespace Petri
set_option autoImplicit false

def Net.Fired (ev : Evaluator Id) (net after : Net) : Prop :=
  ∃ transition clock firing, (net.fire ev transition clock).run = .ok (firing, after)

theorem Net.transition_of_fire {ev : Evaluator Id} {net after : Net} {transition : String}
    {clock : Time} {firing : Firing}
    (h : (net.fire ev transition clock).run = .ok (firing, after)) :
    firing.transition = transition ∧ firing.clock = clock := by
  rw [Net.run_fire] at h
  split at h
  · cases h
  · split at h
    · cases h
    · split at h
      · cases h
      · cases h
        exact ⟨rfl, rfl⟩

/-- A call of a driver. A run may be looked at in any state that it reaches. -/
inductive Simulation.Called (ev : Evaluator Id) : Simulation → Simulation → Prop where
  | randomTransition (s : Simulation) : Called ev s (s.randomTransition ev).2
  | advanceClock (s : Simulation) : Called ev s s.advanceClock.2
  | isFinished (s : Simulation) : Called ev s (s.isFinished ev).2
  | fireRandom (s : Simulation) : Called ev s (s.fireRandom ev).2
  | step (s : Simulation) : Called ev s (s.step ev).2
  | run {s : Simulation} {control : Control} {react : Reaction} {n : Nat} {r : Run}
      (h : Run.Drives react ev (Run.start s control) n r) : Called ev s r.simulation

/-- A call on a net, or of a driver that has it, with evaluators of their own. -/
inductive Net.Called : Net → Net → Prop where
  | fire {ev : Evaluator Id} {net after : Net} {transition : String} {clock : Time}
      {firing : Firing} (h : (net.fire ev transition clock).run = .ok (firing, after)) :
      Called net after
  | fireFails {ev : Evaluator Id} {net : Net} {transition : String} {clock : Time} {e : RunError}
      (h : (net.fire ev transition clock).run = .error e) : Called net net
  | driver {ev : Evaluator Id} {s s' : Simulation} (h : s.Called ev s') : Called s.net s'.net

/-- A firing that a call on a net has made, or a driver that has the net. -/
inductive Net.Commits : Net → Firing → Net → Prop where
  | fire {ev : Evaluator Id} {net after : Net} {transition : String} {clock : Time}
      {firing : Firing} (h : (net.fire ev transition clock).run = .ok (firing, after)) :
      Commits net firing after
  | fireRandom {ev : Evaluator Id} {s s' : Simulation} {firing : Firing}
      (h : s.fireRandom ev = (.ok (some firing), s')) : Commits s.net firing s'.net
  | step {ev : Evaluator Id} {s s' : Simulation} {firing : Firing}
      (h : s.step ev = (.ok (some firing), s')) : Commits s.net firing s'.net

namespace Simulation
variable {ev : Evaluator Id} {s s' : Simulation}

theorem fire_of_fireRandom {firing : Firing} (h : s.fireRandom ev = (.ok (some firing), s')) :
    (s.net.fire ev firing.transition s.firingClock).run = .ok (firing, s'.net) := by
  cases firesRandom_of_eq h with
  | fired _ _ hFire =>
    rw [(Net.transition_of_fire hFire).1]
    exact hFire

theorem fired_of_fireRandom {answer : Except RunError (Option Firing)}
    (h : s.fireRandom ev = (answer, s')) :
    Relation.ReflTransGen (Net.Fired ev) s.net s'.net := by
  cases firesRandom_of_eq h with
  | fails => exact .refl
  | nothing => exact .refl
  | refused => exact .refl
  | fired _ _ hFire => exact .single ⟨_, _, _, hFire⟩

theorem fired_of_goes {react : Reaction} {r after : Run} (h : Run.Goes react ev r after) :
    Relation.ReflTransGen (Net.Fired ev) r.simulation.net after.simulation.net := by
  cases h with
  | checkFails _ _ hCheck => exact net_of_isFinished hCheck ▸ .refl
  | dies _ _ hCheck => exact net_of_isFinished hCheck ▸ .refl
  | lives _ _ hCheck => exact net_of_isFinished hCheck ▸ .refl
  | fireFails _ hFire => exact fired_of_fireRandom hFire
  | fires _ hFire => exact fired_of_fireRandom hFire
  | _ => exact .refl

theorem fired_of_drives {react : Reaction} {r after : Run} {n : Nat}
    (h : Run.Drives react ev r n after) :
    Relation.ReflTransGen (Net.Fired ev) r.simulation.net after.simulation.net := by
  induction h with
  | start => exact .refl
  | next _ hGoes ih => exact ih.trans (fired_of_goes (Run.goes react ev hGoes))
  | command _ _ ih => exact ih

theorem Called.fired (h : s.Called ev s') : Relation.ReflTransGen (Net.Fired ev) s.net s'.net := by
  cases h with
  | randomTransition =>
    rw [Simulation.randomTransition]
    split <;> exact .refl
  | advanceClock =>
    rw [Simulation.advanceClock]
    split <;> exact .refl
  | isFinished =>
    have hNet : (s.isFinished ev).2.net = s.net := net_of_isFinished rfl
    rw [hNet]
  | fireRandom => exact fired_of_fireRandom rfl
  | step =>
    have hStep : s.step ev = ((s.step ev).1, (s.step ev).2) := Prod.mk.eta.symm
    rcases step_cases hStep with ⟨_, hCheck, _⟩ | ⟨hCheck, _⟩ | ⟨checked, hCheck, hFire⟩
    · exact net_of_isFinished hCheck ▸ .refl
    · exact net_of_isFinished hCheck ▸ .refl
    · rw [← net_of_isFinished hCheck]
      exact fired_of_fireRandom hFire
  | run hRun => exact fired_of_drives hRun

end Simulation

namespace Net

theorem Commits.fire_eq {net after : Net} {firing : Firing} (h : Commits net firing after) :
    ∃ ev : Evaluator Id, (net.fire ev firing.transition firing.clock).run = .ok (firing, after) := by
  cases h with
  | @fire ev _ _ transition clock _ hFire =>
    obtain ⟨hTransition, hClock⟩ := transition_of_fire hFire
    exact ⟨ev, by rw [hTransition, hClock, hFire]⟩
  | @fireRandom ev s _ _ hFire =>
    have hDirect := Simulation.fire_of_fireRandom hFire
    exact ⟨ev, by rw [(transition_of_fire hDirect).2, hDirect]⟩
  | @step ev s _ _ hStep =>
    rcases Simulation.step_cases hStep with ⟨_, _, hNot⟩ | ⟨_, hNot⟩ | ⟨checked, hCheck, hFire⟩
    · cases hNot
    · cases hNot
    · have hDirect := Simulation.fire_of_fireRandom hFire
      rw [Simulation.net_of_isFinished hCheck] at hDirect
      exact ⟨ev, by rw [(transition_of_fire hDirect).2, hDirect]⟩

/-- To a net all calls are firings. -/
theorem Called.fired {net after : Net} (h : Called net after) :
    Relation.ReflTransGen (fun net after => ∃ ev, Fired ev net after) net after := by
  cases h with
  | @fire ev _ _ _ _ _ hFire => exact .single ⟨ev, _, _, _, hFire⟩
  | fireFails => exact .refl
  | @driver ev _ _ hDriver =>
    have hSome : Fired ev ≤ fun net after => ∃ ev, Fired ev net after :=
      fun _ _ hFired => ⟨ev, hFired⟩
    exact Relation.ReflTransGen.mono hSome _ _ hDriver.fired

end Net
end Petri
