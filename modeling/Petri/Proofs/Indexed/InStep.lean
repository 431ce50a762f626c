import Petri.Proofs.Indexed.Basic
import Petri.Proofs.Indexed.Positions
import Petri.Proofs.Net.Reachable

/-! # Indexes in step

What has to hold between the structures of a net with indexes. Whoever looks into such a net then
finds what the plain net says.
-/
namespace Petri
set_option autoImplicit false

namespace IndexedNet

/-- Every structure of the net says what the nodes and the edges say. -/
structure InStep (net : IndexedNet) : Prop where
  wellFormed : net.toNet.WellFormed
  nodeTable : ∀ id ix, net.nodeTable[id]? = some ix ↔ net.nodes[ix]?.map Node.id = some id
  edgeTable : ∀ id ex, net.edgeTable[id]? = some ex ↔
    net.edges[ex]?.map (fun e : Edge => e.arc.id) = some id
  placeOrder : net.placeOrder = net.nodes.findIdxs fun n => n.place?.isSome
  transitionOrder : net.transitionOrder = net.nodes.findIdxs fun n => n.transition?.isSome
  inputOrder : net.inputOrder = net.edges.findIdxs fun e => e.arc.input?.isSome
  outputOrder : net.outputOrder = net.edges.findIdxs fun e => e.arc.output?.isSome
  place : ∀ e ∈ net.edges, net.nodes[e.place]?.map Node.id = some e.arc.place
  transition : ∀ e ∈ net.edges, net.nodes[e.transition]?.map Node.id = some e.arc.transition
  inputs : ∀ tx, (net.wiringOf tx).inputs =
    net.edges.findIdxs fun e => e.arc.input?.isSome && e.transition == tx
  outputs : ∀ tx, (net.wiringOf tx).outputs =
    net.edges.findIdxs fun e => e.arc.output?.isSome && e.transition == tx

theorem inStep_empty (id : String) : InStep { id := id } where
  wellFormed := Net.wellFormed_empty id
  nodeTable := by simp
  edgeTable := by simp
  placeOrder := rfl
  transitionOrder := rfl
  inputOrder := rfl
  outputOrder := rfl
  place _ he := nomatch he
  transition _ he := nomatch he
  inputs _ := by simp [wiringOf]
  outputs _ := by simp [wiringOf]

namespace InStep
variable {net : IndexedNet} (h : net.InStep)
include h

/-! ## Looking up -/

theorem node?_of_table {id : String} {ix : Nat} (hIx : net.nodeTable[id]? = some ix) :
    ∃ n, net.nodes[ix]? = some n ∧ n.id = id ∧ net.toNet.node? id = some n := by
  obtain ⟨n, hn, rfl⟩ := Option.map_eq_some_iff.mp ((h.nodeTable id ix).mp hIx)
  exact ⟨n, hn, rfl, Net.node?_of_mem h.wellFormed.nodup (List.mem_of_getElem? hn)⟩

theorem node?_of_no_table {id : String} (hNone : net.nodeTable[id]? = none) :
    net.toNet.node? id = none := by
  rw [Net.node?, List.find?_eq_none]
  intro n hn
  obtain ⟨ix, hIx⟩ := List.mem_iff_getElem?.mp hn
  rw [toNet_nodes] at hIx
  rw [beq_iff_eq]
  rintro rfl
  have hSome : net.nodeTable[n.id]? = some ix := by
    rw [h.nodeTable, hIx, Option.map_some]
  cases hNone.symm.trans hSome

theorem arc?_of_table {id : String} {ex : Nat} (hEx : net.edgeTable[id]? = some ex) :
    ∃ e, net.edges[ex]? = some e ∧ e.arc.id = id ∧ net.toNet.arc? id = some e.arc := by
  obtain ⟨e, he, rfl⟩ := Option.map_eq_some_iff.mp ((h.edgeTable id ex).mp hEx)
  exact ⟨e, he, rfl, Net.arc?_of_mem h.wellFormed.nodup
    (List.mem_map_of_mem (List.mem_of_getElem? he))⟩

theorem arc?_of_no_table {id : String} (hNone : net.edgeTable[id]? = none) :
    net.toNet.arc? id = none := by
  rw [Net.arc?, List.find?_eq_none]
  intro a ha
  obtain ⟨e, he, rfl⟩ := List.mem_map.mp ha
  obtain ⟨ex, hEx⟩ := List.mem_iff_getElem?.mp he
  rw [beq_iff_eq]
  rintro rfl
  have hSome : net.edgeTable[e.arc.id]? = some ex := by
    rw [h.edgeTable, hEx, Option.map_some]
  cases hNone.symm.trans hSome

theorem contains_nodeTable (id : String) :
    net.nodeTable.contains id = true ↔ id ∈ net.nodes.map Node.id := by
  rw [Std.HashMap.contains_eq_isSome_getElem?, Option.isSome_iff_exists, List.mem_iff_getElem?]
  simp only [h.nodeTable, List.getElem?_map]

theorem contains_edgeTable (id : String) :
    net.edgeTable.contains id = true ↔ id ∈ net.toNet.arcs.map Arc.id := by
  rw [Std.HashMap.contains_eq_isSome_getElem?, Option.isSome_iff_exists, List.mem_iff_getElem?]
  simp only [h.edgeTable, toNet, List.map_map, List.getElem?_map]
  rfl

theorem known_iff (id : String) :
    (net.nodeTable.contains id || net.edgeTable.contains id) = true ↔ id ∈ net.toNet.ids := by
  rw [Bool.or_eq_true, h.contains_nodeTable, h.contains_edgeTable, Net.ids, List.mem_append]
  rfl

theorem element? (id : String) : net.element? id = some (net.toNet.node? id) := by
  rw [IndexedNet.element?]
  cases hIx : net.nodeTable[id]? with
  | none => rw [h.node?_of_no_table hIx]
  | some ix =>
    obtain ⟨n, hn, _, hNode⟩ := h.node?_of_table hIx
    simp [hn, hNode]

theorem arc? (id : String) : net.arc? id = some (net.toNet.arc? id) := by
  rw [IndexedNet.arc?]
  cases hEx : net.edgeTable[id]? with
  | none => rw [h.arc?_of_no_table hEx]
  | some ex =>
    obtain ⟨e, he, _, hArc⟩ := h.arc?_of_table hEx
    simp [he, hArc]

/-! ## Orders -/

theorem places : net.places = some net.toNet.places := by
  rw [IndexedNet.places, h.placeOrder]
  exact mapM_filterMap_of_forall₂ (forall₂_findIdxs fun _ _ => rfl)

theorem transitions : net.transitions = some net.toNet.transitions := by
  rw [IndexedNet.transitions, h.transitionOrder]
  exact mapM_filterMap_of_forall₂ (forall₂_findIdxs fun _ _ => rfl)

theorem inputArcs : net.inputArcs = some net.toNet.inputArcs := by
  rw [IndexedNet.inputArcs, arcsAt, h.inputOrder, Net.inputArcs, toNet_arcs, List.filterMap_map]
  refine mapM_filterMap_of_forall₂ ((forall₂_findIdxs fun _ _ => rfl).imp fun ex a => ?_)
  rintro ⟨e, he, ha⟩
  exact ⟨e.arc, by rw [he, Option.map_some], ha⟩

theorem outputArcs : net.outputArcs = some net.toNet.outputArcs := by
  rw [IndexedNet.outputArcs, arcsAt, h.outputOrder, Net.outputArcs, toNet_arcs,
    List.filterMap_map]
  refine mapM_filterMap_of_forall₂ ((forall₂_findIdxs fun _ _ => rfl).imp fun ex a => ?_)
  rintro ⟨e, he, ha⟩
  exact ⟨e.arc, by rw [he, Option.map_some], ha⟩

/-! ## Edges -/

theorem placeAt {ex : Nat} {e : Edge} (he : net.edges[ex]? = some e) :
    ∃ p, net.placeAt ex = some (e.place, p) ∧ net.nodes[e.place]? = some (.place p) ∧
      p.id = e.arc.place ∧ net.toNet.place? e.arc.place = some p := by
  have hMem := List.mem_of_getElem? he
  obtain ⟨p, hPlace⟩ := h.wellFormed.place_of_arc e.arc (List.mem_map_of_mem hMem)
  obtain ⟨n, hn, hId, hNode⟩ := h.node?_of_table ((h.nodeTable _ _).mpr (h.place e hMem))
  obtain ⟨m, hm, hp⟩ := Option.bind_eq_some_iff.mp hPlace
  cases hNode.symm.trans hm
  cases n with
  | transition t => cases hp
  | place q =>
    cases hp
    exact ⟨p, by simp [IndexedNet.placeAt, he, hn, Node.place?], hn, hId, hPlace⟩

theorem transitionAt {ex : Nat} {e : Edge} (he : net.edges[ex]? = some e) :
    ∃ t, net.nodes[e.transition]? = some (.transition t) ∧ t.id = e.arc.transition := by
  have hMem := List.mem_of_getElem? he
  obtain ⟨t, hTransition⟩ := h.wellFormed.transition_of_arc e.arc (List.mem_map_of_mem hMem)
  obtain ⟨n, hn, hId, hNode⟩ := h.node?_of_table ((h.nodeTable _ _).mpr (h.transition e hMem))
  obtain ⟨m, hm, ht⟩ := Option.bind_eq_some_iff.mp hTransition
  cases hNode.symm.trans hm
  cases n with
  | place p => cases ht
  | transition u => exact ⟨u, hn, hId⟩

theorem transition_eq_iff {e : Edge} (he : e ∈ net.edges) {tx : Nat} {id : String}
    (hTx : net.nodeTable[id]? = some tx) : e.transition = tx ↔ e.arc.transition = id := by
  have hEnd := h.transition e he
  constructor
  · rintro rfl
    rw [(h.nodeTable _ _).mp hTx] at hEnd
    exact (Option.some.inj hEnd).symm
  · rintro rfl
    rw [← h.nodeTable, hTx] at hEnd
    exact (Option.some.inj hEnd).symm

theorem inputsOf {tx : Nat} {id : String} (hTx : net.nodeTable[id]? = some tx) :
    List.Forall₂ (fun ex a => ∃ e, net.edges[ex]? = some e ∧ e.arc = .input a)
      (net.wiringOf tx).inputs (net.toNet.inputsOf id) := by
  rw [h.inputs, Net.inputsOf, toNet_arcs, List.filterMap_map]
  refine (forall₂_findIdxs fun e he => ?_).imp fun ex a => ?_
  · rw [Function.comp_apply]
    have hEnd := h.transition_eq_iff he hTx
    cases hArc : e.arc with
    | output b => rfl
    | input b =>
      rw [hArc] at hEnd
      by_cases hHere : b.transition = id <;> simp_all [Arc.input?, Arc.transition]
  · rintro ⟨e, he, ha⟩
    refine ⟨e, he, ?_⟩
    rw [Function.comp_apply] at ha
    cases hArc : e.arc with
    | output b => simp [hArc] at ha
    | input b => simp_all

theorem outputsOf {tx : Nat} {id : String} (hTx : net.nodeTable[id]? = some tx) :
    List.Forall₂ (fun ex a => ∃ e, net.edges[ex]? = some e ∧ e.arc = .output a)
      (net.wiringOf tx).outputs (net.toNet.outputsOf id) := by
  rw [h.outputs, Net.outputsOf, toNet_arcs, List.filterMap_map]
  refine (forall₂_findIdxs fun e he => ?_).imp fun ex a => ?_
  · rw [Function.comp_apply]
    have hEnd := h.transition_eq_iff he hTx
    cases hArc : e.arc with
    | input b => rfl
    | output b =>
      rw [hArc] at hEnd
      by_cases hHere : b.transition = id <;> simp_all [Arc.output?, Arc.transition]
  · rintro ⟨e, he, ha⟩
    refine ⟨e, he, ?_⟩
    rw [Function.comp_apply] at ha
    cases hArc : e.arc with
    | input b => simp [hArc] at ha
    | output b => simp_all

end InStep
end IndexedNet
end Petri
