import Petri.Net.Basic
import Petri.Proofs.Except

/-! # Well-formed nets

No two elements share an identifier, and both ends of every arc are there. Beside the invariant
stand the views of a net whose nodes were edited or to which an element was added.
-/
namespace Petri.Net
set_option autoImplicit false

/-! ## Views of an edited net -/

theorem node?_map_nodes (net : Net) {g : Node → Node} (hId : ∀ n, (g n).id = n.id) (id : String) :
    ({ net with nodes := net.nodes.map g } : Net).node? id = (net.node? id).map g := by
  have hKey : ((fun n : Node => n.id == id) ∘ g) = fun n => n.id == id := by
    funext n
    simp [hId]
  simp only [node?, List.find?_map, hKey]

theorem ids_map_nodes (net : Net) {g : Node → Node} (hId : ∀ n, (g n).id = n.id) :
    ({ net with nodes := net.nodes.map g } : Net).ids = net.ids := by
  have hIds : Node.id ∘ g = Node.id := funext hId
  simp only [ids, List.map_map, hIds]

theorem mapPlaces_self (net : Net) : (net.mapPlaces fun p => p) = net := by
  have hNodes : ∀ g : Node → Node, (∀ n, g n = n) → net.nodes.map g = net.nodes := fun g hg => by
    rw [funext hg, List.map_id']
  rw [mapPlaces, hNodes _ fun n => by cases n <;> rfl]

theorem places_mapPlaces (net : Net) (f : Place → Place) :
    (net.mapPlaces f).places = net.places.map f := by
  simp only [places, mapPlaces, List.filterMap_map, List.map_filterMap]
  congr 1
  funext n
  cases n <;> rfl

theorem places_mapTransitions (net : Net) (f : Transition → Transition) :
    (net.mapTransitions f).places = net.places := by
  simp only [places, mapTransitions, List.filterMap_map]
  congr 1
  funext n
  cases n <;> rfl

section MapPlaces
variable (net : Net) {f : Place → Place} (hId : ∀ p, (f p).id = p.id)

include hId

theorem ids_mapPlaces : (net.mapPlaces f).ids = net.ids :=
  net.ids_map_nodes fun n => by cases n <;> simp [Node.id, hId]

theorem place?_mapPlaces (id : String) : (net.mapPlaces f).place? id = (net.place? id).map f := by
  rw [place?, mapPlaces, node?_map_nodes net (fun n => by cases n <;> simp [Node.id, hId]), place?]
  cases net.node? id with
  | none => rfl
  | some n => cases n <;> rfl

theorem transition?_mapPlaces (id : String) :
    (net.mapPlaces f).transition? id = net.transition? id := by
  rw [transition?, mapPlaces, node?_map_nodes net (fun n => by cases n <;> simp [Node.id, hId]),
    transition?]
  cases net.node? id with
  | none => rfl
  | some n => cases n <;> rfl

end MapPlaces

section MapTransitions
variable (net : Net) {f : Transition → Transition} (hId : ∀ t, (f t).id = t.id)

include hId

theorem ids_mapTransitions : (net.mapTransitions f).ids = net.ids :=
  net.ids_map_nodes fun n => by cases n <;> simp [Node.id, hId]

theorem place?_mapTransitions (id : String) :
    (net.mapTransitions f).place? id = net.place? id := by
  rw [place?, mapTransitions, node?_map_nodes net (fun n => by cases n <;> simp [Node.id, hId]),
    place?]
  cases net.node? id with
  | none => rfl
  | some n => cases n <;> rfl

theorem transition?_mapTransitions (id : String) :
    (net.mapTransitions f).transition? id = (net.transition? id).map f := by
  rw [transition?, mapTransitions,
    node?_map_nodes net (fun n => by cases n <;> simp [Node.id, hId]), transition?]
  cases net.node? id with
  | none => rfl
  | some n => cases n <;> rfl

end MapTransitions

/-! ## The invariant -/

/-- No two elements share an identifier, and every arc joins a place and a transition. -/
structure WellFormed (net : Net) : Prop where
  nodup : net.ids.Nodup
  place_of_arc : ∀ a ∈ net.arcs, ∃ p, net.place? a.place = some p
  transition_of_arc : ∀ a ∈ net.arcs, ∃ t, net.transition? a.transition = some t

/-- Where no key occurs twice, a search by key finds what has it. -/
theorem find?_key_of_mem {α : Type} {key : α → String} {l : List α} (h : (l.map key).Nodup) {a : α}
    (ha : a ∈ l) : l.find? (fun b => key b == key a) = some a := by
  induction l with
  | nil => cases ha
  | cons b rest ih =>
    rw [List.map_cons, List.nodup_cons] at h
    rcases List.mem_cons.mp ha with rfl | ha
    · simp
    · have hne : key b ≠ key a := fun he => h.1 (he ▸ List.mem_map_of_mem ha)
      rw [List.find?_cons_of_neg (by simpa using hne)]
      exact ih h.2 ha

theorem find?_key_eq_some_iff {α : Type} {key : α → String} {l : List α} (h : (l.map key).Nodup)
    {id : String} {a : α} : l.find? (fun b => key b == id) = some a ↔ a ∈ l ∧ key a = id := by
  constructor
  · intro hFound
    exact ⟨List.mem_of_find?_eq_some hFound, by simpa using List.find?_some hFound⟩
  · rintro ⟨ha, rfl⟩
    exact find?_key_of_mem h ha

theorem node_ids_perm (nodes : List Node) :
    ((nodes.filterMap Node.place?).map Place.id ++
      (nodes.filterMap Node.transition?).map Transition.id).Perm (nodes.map Node.id) := by
  induction nodes with
  | nil => exact .nil
  | cons n nodes ih =>
    cases n with
    | place p => exact ih.cons p.id
    | transition t => exact List.perm_middle.trans (ih.cons t.id)

theorem arc_ids_perm (arcs : List Arc) :
    ((arcs.filterMap Arc.input?).map InputArc.id ++
      (arcs.filterMap Arc.output?).map OutputArc.id).Perm (arcs.map Arc.id) := by
  induction arcs with
  | nil => exact .nil
  | cons a arcs ih =>
    cases a with
    | input a => exact ih.cons a.id
    | output a => exact List.perm_middle.trans (ih.cons a.id)

theorem node?_of_mem {net : Net} (h : net.ids.Nodup) {n : Node} (hn : n ∈ net.nodes) :
    net.node? n.id = some n :=
  find?_key_of_mem (List.nodup_append.mp h).1 hn

theorem arc?_of_mem {net : Net} (h : net.ids.Nodup) {a : Arc} (ha : a ∈ net.arcs) :
    net.arc? a.id = some a :=
  find?_key_of_mem (List.nodup_append.mp h).2.1 ha

theorem place?_of_mem {net : Net} (h : net.ids.Nodup) {p : Place} (hp : p ∈ net.places) :
    net.place? p.id = some p := by
  obtain ⟨n, hn, hPlace⟩ := List.mem_filterMap.mp hp
  cases n with
  | transition t => cases hPlace
  | place q =>
    cases hPlace
    have hNode : net.node? p.id = some (.place p) := node?_of_mem h hn
    rw [place?, hNode]
    rfl

theorem transition?_of_mem {net : Net} (h : net.ids.Nodup) {t : Transition}
    (ht : t ∈ net.transitions) : net.transition? t.id = some t := by
  obtain ⟨n, hn, hTransition⟩ := List.mem_filterMap.mp ht
  cases n with
  | place p => cases hTransition
  | transition u =>
    cases hTransition
    have hNode : net.node? t.id = some (.transition t) := node?_of_mem h hn
    rw [transition?, hNode]
    rfl

namespace WellFormed
variable {net : Net}

theorem nodup_by_kind (h : net.WellFormed) :
    ((net.places.map Place.id ++ net.transitions.map Transition.id) ++
      (net.inputArcs.map InputArc.id ++ net.outputArcs.map OutputArc.id)).Nodup :=
  ((node_ids_perm net.nodes).append (arc_ids_perm net.arcs)).nodup_iff.mpr h.nodup

theorem not_transition_of_place (h : net.WellFormed) {id : String}
    (hPlace : id ∈ net.places.map Place.id) : id ∉ net.transitions.map Transition.id := by
  intro hTransition
  have hApart := (List.nodup_append.mp (List.nodup_append.mp h.nodup_by_kind).1).2.2
  exact hApart id hPlace id hTransition rfl

theorem tokensAt_of_mem (h : net.WellFormed) {p : Place} (hp : p ∈ net.places) :
    net.tokensAt p.id = p.tokens := by
  rw [tokensAt, place?_of_mem h.nodup hp]
  rfl

theorem place_of_input (h : net.WellFormed) {transition : String} {a : InputArc}
    (ha : a ∈ net.inputsOf transition) : ∃ p, net.place? a.place = some p := by
  rw [inputsOf_eq_filter] at ha
  obtain ⟨b, hb, hArc⟩ := List.mem_filterMap.mp (List.mem_filter.mp ha).1
  cases b with
  | output b => cases hArc
  | input b =>
    cases hArc
    exact h.place_of_arc _ hb

theorem place_of_output (h : net.WellFormed) {transition : String} {a : OutputArc}
    (ha : a ∈ net.outputsOf transition) : ∃ p, net.place? a.place = some p := by
  rw [outputsOf_eq_filter] at ha
  obtain ⟨b, hb, hArc⟩ := List.mem_filterMap.mp (List.mem_filter.mp ha).1
  cases b with
  | input b => cases hArc
  | output b =>
    cases hArc
    exact h.place_of_arc _ hb

end WellFormed

theorem id_of_node? {net : Net} {id : String} {n : Node} (h : net.node? id = some n) :
    n.id = id := by
  simpa using List.find?_some h

theorem mem_of_place? {net : Net} {id : String} {p : Place} (h : net.place? id = some p) :
    p ∈ net.places ∧ p.id = id := by
  obtain ⟨n, hNode, hPlace⟩ := Option.bind_eq_some_iff.mp h
  cases n with
  | transition t => cases hPlace
  | place q =>
    cases hPlace
    exact ⟨List.mem_filterMap.mpr ⟨.place p, List.mem_of_find?_eq_some hNode, rfl⟩,
      id_of_node? hNode⟩

theorem mem_of_transition? {net : Net} {id : String} {t : Transition}
    (h : net.transition? id = some t) : t ∈ net.transitions ∧ t.id = id := by
  obtain ⟨n, hNode, hTransition⟩ := Option.bind_eq_some_iff.mp h
  cases n with
  | place p => cases hTransition
  | transition u =>
    cases hTransition
    exact ⟨List.mem_filterMap.mpr ⟨.transition t, List.mem_of_find?_eq_some hNode, rfl⟩,
      id_of_node? hNode⟩

theorem id_mem_of_place {net : Net} {p : Place} (hp : p ∈ net.places) : p.id ∈ net.ids := by
  obtain ⟨n, hn, hPlace⟩ := List.mem_filterMap.mp hp
  cases n with
  | transition t => cases hPlace
  | place q =>
    cases hPlace
    exact List.mem_append_left _ (List.mem_map_of_mem hn)

theorem id_mem_of_transition {net : Net} {t : Transition} (ht : t ∈ net.transitions) :
    t.id ∈ net.ids := by
  obtain ⟨n, hn, hTransition⟩ := List.mem_filterMap.mp ht
  cases n with
  | place p => cases hTransition
  | transition u =>
    cases hTransition
    exact List.mem_append_left _ (List.mem_map_of_mem hn)

theorem id_mem_of_arc {net : Net} {a : Arc} (ha : a ∈ net.arcs) : a.id ∈ net.ids :=
  List.mem_append_right _ (List.mem_map_of_mem ha)

theorem mem_arcs_of_input {net : Net} {a : InputArc} (ha : a ∈ net.inputArcs) :
    .input a ∈ net.arcs := by
  obtain ⟨b, hb, hArc⟩ := List.mem_filterMap.mp ha
  cases b with
  | input b => exact Option.some.inj hArc ▸ hb
  | output b => cases hArc

theorem mem_arcs_of_output {net : Net} {a : OutputArc} (ha : a ∈ net.outputArcs) :
    .output a ∈ net.arcs := by
  obtain ⟨b, hb, hArc⟩ := List.mem_filterMap.mp ha
  cases b with
  | input b => cases hArc
  | output b => exact Option.some.inj hArc ▸ hb

theorem mem_inputArcs_of_inputsOf {net : Net} {transition : String} {a : InputArc}
    (h : a ∈ net.inputsOf transition) : a ∈ net.inputArcs := by
  rw [inputsOf_eq_filter] at h
  exact (List.mem_filter.mp h).1

theorem mem_outputArcs_of_outputsOf {net : Net} {transition : String} {a : OutputArc}
    (h : a ∈ net.outputsOf transition) : a ∈ net.outputArcs := by
  rw [outputsOf_eq_filter] at h
  exact (List.mem_filter.mp h).1

/-! ## Adding elements -/

section Adding
variable {net after : Net}

theorem requireFresh_eq_ok_iff {id : String} {u : Unit} :
    net.requireFresh id = .ok u ↔ id ∉ net.ids := by
  unfold requireFresh
  split <;> simp_all

theorem requireNode_place_eq_ok_iff {id : String} {u : Unit} :
    net.requireNode id .place = .ok u ↔ ∃ p, net.place? id = some p := by
  unfold requireNode place?
  cases net.node? id with
  | none => simp
  | some n => cases n <;> simp [Node.kind, Node.place?]

theorem requireNode_transition_eq_ok_iff {id : String} {u : Unit} :
    net.requireNode id .transition = .ok u ↔ ∃ t, net.transition? id = some t := by
  unfold requireNode transition?
  cases net.node? id with
  | none => simp
  | some n => cases n <;> simp [Node.kind, Node.transition?]

theorem addPlace_eq_ok_iff {p : Place} :
    net.addPlace p = .ok after ↔
      p.id ∉ net.ids ∧ after = { net with nodes := net.nodes ++ [.place p] } := by
  simp only [addPlace, bind_eq_ok_iff, requireFresh_eq_ok_iff, pure_eq_ok_iff, exists_const]

theorem addTransition_eq_ok_iff {t : Transition} :
    net.addTransition t = .ok after ↔
      t.id ∉ net.ids ∧ after = { net with nodes := net.nodes ++ [.transition t] } := by
  simp only [addTransition, bind_eq_ok_iff, requireFresh_eq_ok_iff, pure_eq_ok_iff, exists_const]

theorem requireFresh_eq_error_iff {id : String} {cause : ConstructionError} :
    net.requireFresh id = .error cause ↔ id ∈ net.ids ∧ cause = .duplicateId id := by
  unfold requireFresh
  split <;> simp_all [eq_comm]

theorem requireNode_ne_duplicateId {id other : String} {kind : ElementKind} :
    net.requireNode id kind ≠ .error (.duplicateId other) := by
  unfold requireNode
  split
  · simp
  · split <;> simp

/-- An element that is checked first for its identifier is refused for no other one. -/
theorem duplicateId_of_requireFresh {id other : String} {next : Unit → Except ConstructionError Net}
    (hNext : ∀ other, next () ≠ .error (.duplicateId other))
    (h : (net.requireFresh id >>= next) = .error (.duplicateId other)) :
    other = id ∧ id ∈ net.ids := by
  rcases bind_eq_error_iff.mp h with hFresh | ⟨_, _, hRest⟩
  · obtain ⟨hMem, hCause⟩ := requireFresh_eq_error_iff.mp hFresh
    exact ⟨ConstructionError.duplicateId.inj hCause, hMem⟩
  · exact absurd hRest (hNext other)

/-- A check of both ends is refused for no identifier that occurs twice. -/
theorem requireNodes_ne_duplicateId {first second other : String} {kind kind' : ElementKind} :
    (do
      net.requireNode first kind
      net.requireNode second kind'
      return after) ≠ .error (.duplicateId other) := by
  intro h
  rcases bind_eq_error_iff.mp h with hFirst | ⟨_, _, hRest⟩
  · exact requireNode_ne_duplicateId hFirst
  · rcases bind_eq_error_iff.mp hRest with hSecond | ⟨_, _, hPure⟩
    · exact requireNode_ne_duplicateId hSecond
    · cases hPure

theorem duplicateId_of_addPlace {p : Place} {id : String}
    (h : net.addPlace p = .error (.duplicateId id)) : id = p.id ∧ p.id ∈ net.ids :=
  duplicateId_of_requireFresh (fun _ hPure => by cases hPure) h

theorem duplicateId_of_addTransition {t : Transition} {id : String}
    (h : net.addTransition t = .error (.duplicateId id)) : id = t.id ∧ t.id ∈ net.ids :=
  duplicateId_of_requireFresh (fun _ hPure => by cases hPure) h

theorem duplicateId_of_addInput {a : InputArc} {id : String}
    (h : net.addInput a = .error (.duplicateId id)) : id = a.id ∧ a.id ∈ net.ids :=
  duplicateId_of_requireFresh (fun _ => requireNodes_ne_duplicateId) h

theorem duplicateId_of_addOutput {a : OutputArc} {id : String}
    (h : net.addOutput a = .error (.duplicateId id)) : id = a.id ∧ a.id ∈ net.ids :=
  duplicateId_of_requireFresh (fun _ => requireNodes_ne_duplicateId) h

/-- Both ends of an arc are there. -/
def Joins (net : Net) (place transition : String) : Prop :=
  (∃ p, net.place? place = some p) ∧ ∃ t, net.transition? transition = some t

theorem addInput_eq_ok_iff {a : InputArc} :
    net.addInput a = .ok after ↔
      a.id ∉ net.ids ∧ (∃ p, net.place? a.place = some p) ∧
        (∃ t, net.transition? a.transition = some t) ∧
        after = { net with arcs := net.arcs ++ [.input a] } := by
  simp only [addInput, bind_eq_ok_iff, requireFresh_eq_ok_iff, requireNode_place_eq_ok_iff,
    requireNode_transition_eq_ok_iff, pure_eq_ok_iff, exists_const]

theorem addOutput_eq_ok_iff {a : OutputArc} :
    net.addOutput a = .ok after ↔
      a.id ∉ net.ids ∧ (∃ t, net.transition? a.transition = some t) ∧
        (∃ p, net.place? a.place = some p) ∧
        after = { net with arcs := net.arcs ++ [.output a] } := by
  simp only [addOutput, bind_eq_ok_iff, requireFresh_eq_ok_iff, requireNode_place_eq_ok_iff,
    requireNode_transition_eq_ok_iff, pure_eq_ok_iff, exists_const]

end Adding

theorem node?_append (net : Net) (n : Node) (id : String) :
    ({ net with nodes := net.nodes ++ [n] } : Net).node? id =
      (net.node? id).or (if n.id = id then some n else none) := by
  simp only [node?, List.find?_append]
  by_cases h : n.id = id <;> simp [h]

theorem ids_addNode (net : Net) (n : Node) :
    ({ net with nodes := net.nodes ++ [n] } : Net).ids.Perm (n.id :: net.ids) := by
  simp only [ids, List.map_append, List.map_cons, List.map_nil, List.append_assoc]
  exact List.perm_middle

theorem ids_addArc (net : Net) (a : Arc) :
    ({ net with arcs := net.arcs ++ [a] } : Net).ids.Perm (a.id :: net.ids) := by
  simp only [ids, List.map_append, List.map_cons, List.map_nil, ← List.append_assoc]
  exact List.perm_append_singleton _ _

theorem place?_addNode {net : Net} {id : String} {p : Place} (n : Node)
    (h : net.place? id = some p) :
    ({ net with nodes := net.nodes ++ [n] } : Net).place? id = some p := by
  obtain ⟨m, hNode, hPlace⟩ := Option.bind_eq_some_iff.mp h
  rw [place?, node?_append, hNode]
  exact hPlace

theorem transition?_addNode {net : Net} {id : String} {t : Transition} (n : Node)
    (h : net.transition? id = some t) :
    ({ net with nodes := net.nodes ++ [n] } : Net).transition? id = some t := by
  obtain ⟨m, hNode, hTransition⟩ := Option.bind_eq_some_iff.mp h
  rw [transition?, node?_append, hNode]
  exact hTransition

namespace WellFormed
variable {net : Net}

theorem addNode (h : net.WellFormed) {n : Node} (hFresh : n.id ∉ net.ids) :
    ({ net with nodes := net.nodes ++ [n] } : Net).WellFormed where
  nodup := (net.ids_addNode n).nodup_iff.mpr (List.nodup_cons.mpr ⟨hFresh, h.nodup⟩)
  place_of_arc a ha := by
    obtain ⟨p, hp⟩ := h.place_of_arc a ha
    exact ⟨p, place?_addNode n hp⟩
  transition_of_arc a ha := by
    obtain ⟨t, ht⟩ := h.transition_of_arc a ha
    exact ⟨t, transition?_addNode n ht⟩

theorem addArc (h : net.WellFormed) {a : Arc} (hFresh : a.id ∉ net.ids)
    (hPlace : ∃ p, net.place? a.place = some p)
    (hTransition : ∃ t, net.transition? a.transition = some t) :
    ({ net with arcs := net.arcs ++ [a] } : Net).WellFormed where
  nodup := (net.ids_addArc a).nodup_iff.mpr (List.nodup_cons.mpr ⟨hFresh, h.nodup⟩)
  place_of_arc b hb := by
    rcases List.mem_append.mp hb with hb | hb
    · exact h.place_of_arc b hb
    · exact List.mem_singleton.mp hb ▸ hPlace
  transition_of_arc b hb := by
    rcases List.mem_append.mp hb with hb | hb
    · exact h.transition_of_arc b hb
    · exact List.mem_singleton.mp hb ▸ hTransition

theorem mapPlaces (h : net.WellFormed) {f : Place → Place} (hId : ∀ p, (f p).id = p.id) :
    (net.mapPlaces f).WellFormed where
  nodup := by
    rw [ids_mapPlaces net hId]
    exact h.nodup
  place_of_arc a ha := by
    obtain ⟨p, hp⟩ := h.place_of_arc a ha
    exact ⟨f p, by rw [place?_mapPlaces net hId, hp, Option.map_some]⟩
  transition_of_arc a ha := by
    obtain ⟨t, ht⟩ := h.transition_of_arc a ha
    exact ⟨t, by rw [transition?_mapPlaces net hId, ht]⟩

theorem mapTransitions (h : net.WellFormed) {f : Transition → Transition}
    (hId : ∀ t, (f t).id = t.id) : (net.mapTransitions f).WellFormed where
  nodup := by
    rw [ids_mapTransitions net hId]
    exact h.nodup
  place_of_arc a ha := by
    obtain ⟨p, hp⟩ := h.place_of_arc a ha
    exact ⟨p, by rw [place?_mapTransitions net hId, hp]⟩
  transition_of_arc a ha := by
    obtain ⟨t, ht⟩ := h.transition_of_arc a ha
    exact ⟨f t, by rw [transition?_mapTransitions net hId, ht, Option.map_some]⟩

theorem mapArcs (h : net.WellFormed) {f : Arc → Arc} (hId : ∀ a, (f a).id = a.id)
    (hPlace : ∀ a, (f a).place = a.place) (hTransition : ∀ a, (f a).transition = a.transition) :
    ({ net with arcs := net.arcs.map f } : Net).WellFormed where
  nodup := by
    have hIds : Arc.id ∘ f = Arc.id := funext hId
    simpa only [ids, List.map_map, hIds] using h.nodup
  place_of_arc b hb := by
    obtain ⟨a, ha, rfl⟩ := List.mem_map.mp hb
    exact hPlace a ▸ h.place_of_arc a ha
  transition_of_arc b hb := by
    obtain ⟨a, ha, rfl⟩ := List.mem_map.mp hb
    exact hTransition a ▸ h.transition_of_arc a ha

end WellFormed
end Petri.Net
