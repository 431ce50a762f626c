import Petri.Proofs.Net.Conservation
import Petri.Proofs.Simulation.Calls

/-! # Capacities

A bounded place that an output arc leads to is within its capacity after every firing, even if it
was not before, and no other place grows. So no sequence of calls, by whomever they are made, brings
a place beyond its capacity.
-/
namespace Petri
set_option autoImplicit false

namespace InPlace
variable {ev : Evaluator Id} {net : Net} {transition : String} {clock : Time}

/-- The last output arc that leads to a place has seen that its tokens fit. -/
theorem MovesAll.fits {arcs : List OutputArc} {μ μ' : Marking} {moved : List Movement}
    (h : MovesAll ev net transition clock (arcs.map .output) μ (.ok (moved, μ'))) {q : String}
    {p : Place} (hPlace : net.place? q = some p) (hq : q ∈ arcs.map OutputArc.place) :
    p.fits (μ' q).length = true := by
  induction arcs generalizing μ moved with
  | nil => cases hq
  | cons a rest ih =>
    cases h with
    | move hOne hOthers =>
      by_cases hLater : q ∈ rest.map OutputArc.place
      · exact ih hOthers hLater
      · obtain rfl : q = a.place := by simpa [hLater] using hq
        cases hOne with
        | make _ _ hHere hFits =>
          cases hPlace.symm.trans hHere
          -- later arcs lead elsewhere
          rw [hOthers.frame, Function.update_self, List.length_append]
          · exact hFits
          · intro b hb hSame
            obtain ⟨c, hc, rfl⟩ := List.mem_map.mp hb
            exact hLater (hSame ▸ List.mem_map_of_mem hc)

end InPlace

namespace Net
open InPlace

def targets (net : Net) (transition : String) : List String :=
  (net.outputsOf transition).map OutputArc.place

/-- Only the tokens of places have changed, bounded targets of the transition are within their
capacity, and no other place has grown. -/
def RoomAfter (net : Net) (transition : String) (after : Net) : Prop :=
  ∀ p ∈ net.places, ∃ tokens, after.place? p.id = some { p with tokens := tokens } ∧
    (p.id ∈ net.targets transition → 0 < p.capacity → tokens.length ≤ p.capacity) ∧
    (p.id ∉ net.targets transition → tokens.length ≤ p.tokens.length)

theorem roomAfter_fire {ev : Evaluator Id} {net after : Net} (hNet : net.WellFormed)
    {transition : String} {clock : Time} {firing : Firing}
    (h : (net.fire ev transition clock).run = .ok (firing, after)) :
    net.RoomAfter transition after := by
  obtain ⟨t, taken, made, μ, _, hFires, _, rfl⟩ := exists_fires hNet h
  intro p hp
  have hPlace := place?_of_mem hNet.nodup hp
  refine ⟨μ p.id, place?_settled transition clock μ hPlace, ?_, ?_⟩
  · intro hTarget hBounded
    cases hFires with
    | fires _ _ hMade =>
      have hFits := hMade.fits hPlace hTarget
      simpa [Place.fits, Place.bounded, hBounded] using hFits
  · intro hOther
    cases hFires with
    | fires _ hTaken hMade =>
      have hSublist := (hTaken.taken p.id).1
      rw [hNet.tokensAt_of_mem hp] at hSublist
      rw [hMade.frame]
      · exact hSublist.length_le
      · intro a ha hSame
        obtain ⟨b, hb, rfl⟩ := List.mem_map.mp ha
        exact hOther (hSame ▸ List.mem_map_of_mem hb)

/-- Bounded places that are within their capacity are so in the other net. -/
def CapacityKept (net after : Net) : Prop :=
  ∀ p ∈ net.places, 0 < p.capacity → p.tokens.length ≤ p.capacity →
    ∃ tokens, after.place? p.id = some { p with tokens := tokens } ∧ tokens.length ≤ p.capacity

theorem RoomAfter.capacityKept {net after : Net} {transition : String}
    (h : net.RoomAfter transition after) : net.CapacityKept after := by
  intro p hp hBounded hWithin
  obtain ⟨tokens, hPlace, hTarget, hOther⟩ := h p hp
  refine ⟨tokens, hPlace, ?_⟩
  by_cases hMem : p.id ∈ net.targets transition
  · exact hTarget hMem hBounded
  · exact (hOther hMem).trans hWithin

theorem CapacityKept.refl {net : Net} (hNet : net.WellFormed) : net.CapacityKept net :=
  fun p hp _ hWithin => ⟨p.tokens, place?_of_mem hNet.nodup hp, hWithin⟩

theorem CapacityKept.trans {net middle after : Net} (h : net.CapacityKept middle)
    (h' : middle.CapacityKept after) : net.CapacityKept after := by
  intro p hp hBounded hWithin
  obtain ⟨tokens, hPlace, hMiddle⟩ := h p hp hBounded hWithin
  exact h' { p with tokens := tokens } (mem_of_place? hPlace).1 hBounded hMiddle

theorem capacityKept_of_fired {net after : Net} (hNet : net.WellFormed)
    (h : Relation.ReflTransGen (fun net after => ∃ ev, Fired ev net after) net after) :
    after.WellFormed ∧ net.CapacityKept after := by
  induction h with
  | refl => exact ⟨hNet, .refl hNet⟩
  | tail _ hFired ih =>
    obtain ⟨hMiddle, hKept⟩ := ih
    obtain ⟨ev, transition, clock, firing, hFire⟩ := hFired
    exact ⟨hMiddle.change (.fire ev transition clock hFire),
      hKept.trans (roomAfter_fire hMiddle hFire).capacityKept⟩

/-- Whatever calls are made, on the net or by drivers, a bounded place stays within its capacity,
and a firing leaves its bounded targets within theirs whatever they held before. -/
theorem capacity_respected {net after : Net} (hNet : net.Reachable)
    (hCalls : Relation.ReflTransGen Called net after) :
    net.CapacityKept after ∧
    ∀ firing next, Commits after firing next → after.RoomAfter firing.transition next := by
  have hFired : Relation.ReflTransGen (fun net after => ∃ ev, Fired ev net after) net after := by
    induction hCalls with
    | refl => exact .refl
    | tail _ hCall ih => exact ih.trans hCall.fired
  obtain ⟨hAfter, hKept⟩ := capacityKept_of_fired hNet.wellFormed hFired
  refine ⟨hKept, fun firing next hCommits => ?_⟩
  obtain ⟨ev, hFire⟩ := hCommits.fire_eq
  exact roomAfter_fire hAfter hFire

/-- The loop with a place that holds more than it may. -/
def crowdedLoop : Net := loop.updatePlace "p" fun p => { p with capacity := 2 }

theorem crowdedLoop_reachable : crowdedLoop.Reachable :=
  loop_reachable.change (.editPlace loop "p" _ fun _ => rfl)

theorem capacity_respected_crowdedLoop :
    crowdedLoop.Reachable ∧ Relation.ReflTransGen Called crowdedLoop crowdedLoop ∧
      ∃ firing next, Commits crowdedLoop firing next ∧ firing.transition = "t" ∧
        2 < (crowdedLoop.tokensAt "p").length ∧ (next.tokensAt "p").length ≤ 2 := by
  have hFails : (crowdedLoop.fire counting "u" 0).run = .error (.unknownTransition "u") := rfl
  have hCalls : Relation.ReflTransGen Called crowdedLoop crowdedLoop := .single (.fireFails hFails)
  obtain ⟨firing, next, hFire, hTransition⟩ : ∃ firing next,
      (crowdedLoop.fire counting "t" 5).run = .ok (firing, next) ∧ firing.transition = "t" :=
    ⟨_, _, rfl, rfl⟩
  have hCommits : Commits crowdedLoop firing next := .fire hFire
  have hRoom := (capacity_respected crowdedLoop_reachable hCalls).2 firing next hCommits
  rw [hTransition] at hRoom
  obtain ⟨tokens, hPlace, hTarget, _⟩ := hRoom { loopPlace with capacity := 2 } (by decide)
  refine ⟨crowdedLoop_reachable, hCalls, firing, next, hCommits, hTransition, by decide, ?_⟩
  rw [tokensAt, show next.place? "p" = some _ from hPlace]
  exact hTarget (by decide) (by decide)

end Net
end Petri
