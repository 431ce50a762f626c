import Petri.Proofs.Net.Firing
import Petri.Proofs.Net.WellFormed

/-! # Reachable nets

What a caller does with a net, one call after another: it adds elements, draws identifiers, edits
what elements carry, and fires transitions. Calls that fail leave the net as it is, so they are no
changes. Every reachable net is well-formed.
-/
namespace Petri.Net
set_option autoImplicit false

structure SameArc (a b : Arc) : Prop where
  id : b.id = a.id
  place : b.place = a.place
  transition : b.transition = a.transition
  kind : b.input?.isSome = a.input?.isSome

inductive Change : Net → Net → Prop where
  | describe (net : Net) (id : String) (label : Option String)
      (declarations imports implements : String) :
      Change net { net with
        id := id, label := label, declarations := declarations, imports := imports
        implements := implements }
  | addPlace {net after : Net} (p : Place) (h : net.addPlace p = .ok after) : Change net after
  | addTransition {net after : Net} (t : Transition) (h : net.addTransition t = .ok after) :
      Change net after
  | addInput {net after : Net} (a : InputArc) (h : net.addInput a = .ok after) : Change net after
  | addOutput {net after : Net} (a : OutputArc) (h : net.addOutput a = .ok after) :
      Change net after
  | drawId (net : Net) (kind : ElementKind) (reserved : List String) :
      Change net (net.freshId kind reserved).2
  | restartNumbering (net : Net) : Change net net.restartNumbering
  | editPlace (net : Net) (id : String) (f : Place → Place) (hId : ∀ p, (f p).id = p.id) :
      Change net (net.updatePlace id f)
  | editTransition (net : Net) (id : String) (f : Transition → Transition)
      (hId : ∀ t, (f t).id = t.id) : Change net (net.updateTransition id f)
  | editArc (net : Net) (id : String) (f : Arc → Arc) (hSame : ∀ a, SameArc a (f a)) :
      Change net (net.updateArc id f)
  | fire {net after : Net} (ev : Evaluator Id) (transition : String) (clock : Time)
      {firing : Firing} (h : (net.fire ev transition clock).run = .ok (firing, after)) :
      Change net after

/-- The nets that calls lead to from a net without elements. -/
inductive Reachable : Net → Prop where
  | empty (id : String) : Reachable { id := id }
  | change {net after : Net} (h : Reachable net) (hChange : Change net after) : Reachable after

theorem wellFormed_empty (id : String) : WellFormed { id := id } where
  nodup := List.nodup_nil
  place_of_arc _ ha := nomatch ha
  transition_of_arc _ ha := nomatch ha

theorem WellFormed.updatePlace {net : Net} (h : net.WellFormed) (id : String) {f : Place → Place}
    (hId : ∀ p, (f p).id = p.id) : (net.updatePlace id f).WellFormed :=
  h.mapPlaces fun p => by
    split
    · exact hId p
    · rfl

theorem WellFormed.updateTransition {net : Net} (h : net.WellFormed) (id : String)
    {f : Transition → Transition} (hId : ∀ t, (f t).id = t.id) :
    (net.updateTransition id f).WellFormed :=
  h.mapTransitions fun t => by
    split
    · exact hId t
    · rfl

theorem WellFormed.commit {net : Net} (h : net.WellFormed) (scratch : Scratch)
    (transition : String) (clock : Time) : (net.commit scratch transition clock).WellFormed := by
  rw [Net.commit]
  apply WellFormed.updateTransition
  · exact h.mapPlaces fun _ => rfl
  · exact fun _ => rfl

/-- The invariant is kept by every call. -/
theorem WellFormed.change {net after : Net} (h : net.WellFormed) (hChange : Change net after) :
    after.WellFormed := by
  cases hChange with
  | describe => exact ⟨h.nodup, h.place_of_arc, h.transition_of_arc⟩
  | addPlace p hAdd =>
    obtain ⟨hFresh, rfl⟩ := addPlace_eq_ok_iff.mp hAdd
    exact h.addNode hFresh
  | addTransition t hAdd =>
    obtain ⟨hFresh, rfl⟩ := addTransition_eq_ok_iff.mp hAdd
    exact h.addNode hFresh
  | addInput a hAdd =>
    obtain ⟨hFresh, hPlace, hTransition, rfl⟩ := addInput_eq_ok_iff.mp hAdd
    exact h.addArc hFresh hPlace hTransition
  | addOutput a hAdd =>
    obtain ⟨hFresh, hTransition, hPlace, rfl⟩ := addOutput_eq_ok_iff.mp hAdd
    exact h.addArc hFresh hPlace hTransition
  | drawId => exact ⟨h.nodup, h.place_of_arc, h.transition_of_arc⟩
  | restartNumbering => exact ⟨h.nodup, h.place_of_arc, h.transition_of_arc⟩
  | editPlace id f hId => exact h.updatePlace id hId
  | editTransition id f hId => exact h.updateTransition id hId
  | editArc id f hSame =>
    refine h.mapArcs (fun a => ?_) (fun a => ?_) (fun a => ?_) <;> split
    · exact (hSame a).id
    · rfl
    · exact (hSame a).place
    · rfl
    · exact (hSame a).transition
    · rfl
  | fire ev transition clock hFire =>
    obtain ⟨scratch, rfl⟩ := eq_commit_of_fire ev net transition clock hFire
    exact h.commit scratch transition clock

theorem Reachable.wellFormed {net : Net} (h : net.Reachable) : net.WellFormed := by
  induction h with
  | empty id => exact wellFormed_empty id
  | change _ hChange ih => exact ih.change hChange

/-! ## A loop -/

def loopPlace : Place where
  id := "p"
  tokens := [⟨.int 1, 0, none⟩, ⟨.int 2, 4, none⟩, ⟨.int 3, 9, none⟩]
  capacity := 3

def loopInput (id : String) : InputArc := { id := id, place := "p", transition := "t" }

/-- A transition takes from a place along two arcs and gives back to it along a third. -/
def loop : Net where
  id := "loop"
  nodes := [.place loopPlace, .transition { id := "t" }]
  arcs := [.input (loopInput "i"), .input (loopInput "j"),
    .output { id := "o", transition := "t", place := "p" }]

theorem loop_reachable : loop.Reachable := by
  have hPlace := (Reachable.empty "loop").change
    (.addPlace loopPlace (addPlace_eq_ok_iff.mpr ⟨by decide, rfl⟩))
  have hTransition := hPlace.change
    (.addTransition { id := "t" } (addTransition_eq_ok_iff.mpr ⟨by decide, rfl⟩))
  have hFirst := hTransition.change
    (.addInput (loopInput "i") (addInput_eq_ok_iff.mpr ⟨by decide, ⟨_, rfl⟩, ⟨_, rfl⟩, rfl⟩))
  have hSecond := hFirst.change
    (.addInput (loopInput "j") (addInput_eq_ok_iff.mpr ⟨by decide, ⟨_, rfl⟩, ⟨_, rfl⟩, rfl⟩))
  exact hSecond.change
    (.addOutput { id := "o", transition := "t", place := "p" }
      (addOutput_eq_ok_iff.mpr ⟨by decide, ⟨_, rfl⟩, ⟨_, rfl⟩, rfl⟩))

end Petri.Net
