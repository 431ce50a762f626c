import Petri.NetFile.Build
import Petri.Proofs.NetFile.Reading

/-! # The net that a printed net is read as

Reading a printed net evaluates the texts of its tokens again. When this succeeds, the elements are
as before, places before transitions and input arcs before output arcs; nothing else can fail.
-/
namespace Petri.NetFile
open Text
set_option autoImplicit false

variable (ev : Evaluator Id)

/-- The place with the tokens that their texts make. -/
def rereadPlace (p : Place) : Except FileError Place := do
  let made ← (p.tokens.map tokenText).mapM (initialTokens ev p.id)
  return { p with tokens := made.flatten }

/-- The net with these places. What is not printed is as at the start. -/
def rebuilt (net : Net) (places : List Place) : Net where
  id := net.id
  label := net.label
  declarations := net.declarations
  imports := net.imports
  implements := net.implements
  nodes := places.map .place ++ net.transitions.map fun t => .transition { t with lastFired := 0 }
  arcs := net.inputArcs.map .input ++ net.outputArcs.map .output

/-! ## Elements by kind -/

theorem ids_rebuilt {net : Net} {places : List Place}
    (hIds : places.map Place.id = net.places.map Place.id) :
    (rebuilt net places).ids.Perm net.ids := by
  have hNodes := Net.node_ids_perm net.nodes
  have hArcs := Net.arc_ids_perm net.arcs
  have hAll := hNodes.append hArcs
  rw [← Net.places, ← Net.transitions, ← hIds, ← Net.inputArcs, ← Net.outputArcs] at hAll
  simpa [Net.ids, rebuilt, Function.comp_def, Node.id, Arc.id] using hAll

theorem places_rebuilt (net : Net) (places : List Place) :
    (rebuilt net places).places = places := by
  simp [Net.places, rebuilt, List.filterMap_append, List.filterMap_map, Function.comp_def,
    Node.place?]

theorem transitions_rebuilt (net : Net) (places : List Place) :
    (rebuilt net places).transitions = net.transitions.map fun t => { t with lastFired := 0 } := by
  simp [Net.transitions, rebuilt, List.filterMap_append, List.filterMap_map, Function.comp_def,
    Node.transition?]

theorem inputArcs_rebuilt (net : Net) (places : List Place) :
    (rebuilt net places).inputArcs = net.inputArcs := by
  simp [Net.inputArcs, rebuilt, List.filterMap_append, List.filterMap_map, Function.comp_def,
    Arc.input?]

theorem outputArcs_rebuilt (net : Net) (places : List Place) :
    (rebuilt net places).outputArcs = net.outputArcs := by
  simp [Net.outputArcs, rebuilt, List.filterMap_append, List.filterMap_map, Function.comp_def,
    Arc.output?]

/-! ## Attributes -/

theorem foldlM_placeAttributes (p : Place) :
    (placeAttributes p).foldlM (addPlaceAttribute ev) { id := p.id } = rereadPlace ev p := by
  obtain ⟨id, label, tokens, capacity⟩ := p
  have hCapacity : ¬ 0 < capacity → capacity = 0 := Nat.eq_zero_of_not_pos
  cases tokens with
  | nil =>
    cases label <;> by_cases hBounded : 0 < capacity <;>
      simp [placeAttributes, labelAttribute, Place.bounded, addPlaceAttribute, rereadPlace,
        hBounded, hCapacity] <;> rfl
  | cons t tokens =>
    cases label <;> by_cases hBounded : 0 < capacity <;>
      simp [placeAttributes, labelAttribute, Place.bounded, addPlaceAttribute, addInitialTokens,
        rereadPlace, hBounded, hCapacity] <;> rfl

theorem foldl_transitionAttributes (t : Transition) :
    (transitionAttributes t).foldl addTransitionAttribute { id := t.id } =
      { t with lastFired := 0 } := by
  obtain ⟨id, label, guard, lastFired⟩ := t
  cases label <;> by_cases hGuard : guard = defaultGuard <;>
    simp [transitionAttributes, labelAttribute, unlessDefault, addTransitionAttribute, hGuard]

theorem foldl_inputAttributes (a : InputArc) :
    (inputAttributes a).foldl addInputAttribute
      { id := a.id, place := a.place, transition := a.transition } = a := by
  obtain ⟨id, label, place, transition, evaluate, execute⟩ := a
  cases label <;> by_cases hEvaluate : evaluate = defaultEvaluate <;>
    by_cases hExecute : execute = defaultExecute <;>
    simp [inputAttributes, labelAttribute, unlessDefault, addInputAttribute, hEvaluate, hExecute]

theorem foldlM_outputAttributes (a : OutputArc) :
    (outputAttributes a).foldlM addOutputAttribute
      { id := a.id, transition := a.transition, place := a.place } = .ok a := by
  obtain ⟨id, label, transition, place, execute⟩ := a
  cases label <;> by_cases hExecute : execute = defaultExecute <;>
    simp [outputAttributes, labelAttribute, unlessDefault, addOutputAttribute, hExecute] <;> rfl

/-! ## Adding elements -/

section Adding
variable (net : Net)

/-- One more element takes its identifier from those that are still to come. -/
theorem nodup_move {ids taken rest : List String} {id : String}
    (hPerm : taken.Perm (id :: ids)) (h : (ids ++ id :: rest).Nodup) : (taken ++ rest).Nodup := by
  have hMoved : (taken ++ rest).Perm (ids ++ id :: rest) :=
    (hPerm.append_right rest).trans List.perm_middle.symm
  exact hMoved.nodup_iff.mpr h

theorem not_mem_of_nodup {ids rest : List String} {id : String}
    (h : (ids ++ id :: rest).Nodup) : id ∉ ids := fun hId =>
  (List.nodup_append.mp h).2.2 id hId id List.mem_cons_self rfl

theorem id_of_rereadPlace {p q : Place} (h : rereadPlace ev p = .ok q) : q.id = p.id := by
  obtain ⟨made, _, hq⟩ := bind_eq_ok_iff.mp h
  cases hq
  rfl

theorem foldlM_places (places : List Place)
    (hFresh : (net.ids ++ places.map Place.id).Nodup) :
    (places.map placeEntry).foldlM (addNode ev) net =
      (do
        let reread ← places.mapM (rereadPlace ev)
        return { net with nodes := net.nodes ++ reread.map .place }) := by
  induction places generalizing net with
  | nil => simp [Pure.pure, Except.pure, bind, Except.bind]
  | cons p places ih =>
    rw [List.map_cons, List.foldlM_cons, List.mapM_cons]
    have hNode : addNode ev net (placeEntry p) =
        (rereadPlace ev p >>= fun q => constructed (net.addPlace q)) := by
      rw [← foldlM_placeAttributes]
      rfl
    rw [hNode]
    cases hPlace : rereadPlace ev p with
    | error e => rfl
    | ok q =>
      have hId := id_of_rereadPlace ev hPlace
      rw [List.map_cons, ← hId] at hFresh
      have hAdd : net.addPlace q = .ok { net with nodes := net.nodes ++ [.place q] } :=
        Net.addPlace_eq_ok_iff.mpr ⟨not_mem_of_nodup hFresh, rfl⟩
      have hRest := ih _ (nodup_move (net.ids_addNode (.place q)) hFresh)
      simp only [bind, Except.bind, hAdd, constructed] at hRest ⊢
      rw [hRest]
      cases places.mapM (rereadPlace ev) with
      | error e => rfl
      | ok reread => simp [Pure.pure, Except.pure]

theorem foldlM_transitions (transitions : List Transition)
    (hFresh : (net.ids ++ transitions.map Transition.id).Nodup) :
    (transitions.map transitionEntry).foldlM (addNode ev) net =
      .ok { net with
        nodes := net.nodes ++ transitions.map fun t => .transition { t with lastFired := 0 } } := by
  induction transitions generalizing net with
  | nil => simp [Pure.pure, Except.pure]
  | cons t transitions ih =>
    rw [List.map_cons, List.foldlM_cons]
    have hAdd : net.addTransition { t with lastFired := 0 } =
        .ok { net with nodes := net.nodes ++ [.transition { t with lastFired := 0 }] } :=
      Net.addTransition_eq_ok_iff.mpr ⟨not_mem_of_nodup hFresh, rfl⟩
    have hNode : addNode ev net (transitionEntry t) =
        .ok { net with nodes := net.nodes ++ [.transition { t with lastFired := 0 }] } := by
      simp only [transitionEntry, addNode, foldl_transitionAttributes, hAdd, constructed]
    rw [hNode]
    refine (ih _ (nodup_move
      (net.ids_addNode (.transition { t with lastFired := 0 })) hFresh)).trans ?_
    simp

/-- Entries that each add their arc to the nodes of the net add all of them. -/
theorem foldlM_arcs {α : Type} {entry : α → Entry} {arc : α → Arc} {reserved : List String}
    (as : List α)
    (hOne : ∀ a ∈ as, ∀ arcs, (arc a).id ∉ ({ net with arcs := arcs } : Net).ids →
      addArc reserved { net with arcs := arcs } (entry a) =
        .ok { net with arcs := arcs ++ [arc a] })
    (hFresh : (net.ids ++ as.map fun a => (arc a).id).Nodup) :
    (as.map entry).foldlM (addArc reserved) net =
      .ok { net with arcs := net.arcs ++ as.map arc } := by
  induction as generalizing net with
  | nil => simp [Pure.pure, Except.pure]
  | cons a as ih =>
    rw [List.forall_mem_cons] at hOne
    rw [List.map_cons] at hFresh
    rw [List.map_cons, List.foldlM_cons, hOne.1 net.arcs (not_mem_of_nodup hFresh)]
    refine (ih { net with arcs := net.arcs ++ [arc a] } hOne.2
      (nodup_move (net.ids_addArc (arc a)) hFresh)).trans ?_
    simp

theorem foldlM_inputs (reserved : List String) (arcs : List InputArc)
    (hFresh : (net.ids ++ arcs.map InputArc.id).Nodup)
    (hPlace : ∀ a ∈ arcs, ∃ p, net.place? a.place = some p)
    (hTransition : ∀ a ∈ arcs, ∃ t, net.transition? a.transition = some t) :
    (arcs.map inputEntry).foldlM (addArc reserved) net =
      .ok { net with arcs := net.arcs ++ arcs.map .input } := by
  refine foldlM_arcs net arcs (fun a ha others hId => ?_) hFresh
  have hAdd : ({ net with arcs := others } : Net).addInput a =
      .ok { net with arcs := others ++ [.input a] } :=
    Net.addInput_eq_ok_iff.mpr ⟨hId, hPlace a ha, hTransition a ha, rfl⟩
  simp only [inputEntry, addArc, arcId, foldl_inputAttributes, hAdd, constructed]

theorem foldlM_outputs (reserved : List String) (arcs : List OutputArc)
    (hFresh : (net.ids ++ arcs.map OutputArc.id).Nodup)
    (hPlace : ∀ a ∈ arcs, ∃ p, net.place? a.place = some p)
    (hTransition : ∀ a ∈ arcs, ∃ t, net.transition? a.transition = some t) :
    (arcs.map outputEntry).foldlM (addArc reserved) net =
      .ok { net with arcs := net.arcs ++ arcs.map .output } := by
  refine foldlM_arcs net arcs (fun a ha others hId => ?_) hFresh
  have hAdd : ({ net with arcs := others } : Net).addOutput a =
      .ok { net with arcs := others ++ [.output a] } :=
    Net.addOutput_eq_ok_iff.mpr ⟨hId, hTransition a ha, hPlace a ha, rfl⟩
  simp only [outputEntry, addArc, arcId, foldlM_outputAttributes, bind, Except.bind, hAdd,
    constructed]

end Adding

theorem eq_of_mem_unlessDefault {α : Type} {default text : String} {make : String → α} {a : α}
    (h : a ∈ unlessDefault default make text) : a = make text := by
  rw [unlessDefault] at h
  split at h
  · cases h
  · exact List.mem_singleton.mp h

theorem foldlM_eq_self {ε α β : Type} {f : β → α → Except ε β} {as : List α} {b : β}
    (h : ∀ a ∈ as, f b a = .ok b) : as.foldlM f b = .ok b := by
  induction as with
  | nil => rfl
  | cons a as ih =>
    rw [List.forall_mem_cons] at h
    rw [List.foldlM_cons, h.1]
    exact ih h.2

def header (net : Net) : Net where
  id := net.id
  label := net.label
  declarations := net.declarations
  imports := net.imports
  implements := net.implements

def headerEntries (net : Net) : List Entry :=
  .net net.id net.label :: (unlessDefault "" .declarations net.declarations ++
    unlessDefault "" .imports net.imports ++ unlessDefault "" .implements net.implements)

theorem entries_eq (net : Net) : entries net = headerEntries net ++
    (net.places.map placeEntry ++ (net.transitions.map transitionEntry ++
      (net.inputArcs.map inputEntry ++ net.outputArcs.map outputEntry))) := by
  simp [entries, headerEntries]

theorem foldlM_headerEntries (net : Net) :
    (headerEntries net).foldlM (addNode ev) { id := defaultName } = .ok (header net) := by
  obtain ⟨id, label, declarations, imports, implements, nodes, arcs, numbering⟩ := net
  by_cases hDeclarations : declarations = "" <;> by_cases hImports : imports = "" <;>
    by_cases hImplements : implements = "" <;>
    simp [headerEntries, header, unlessDefault, addNode, hDeclarations, hImports, hImplements] <;>
    rfl

theorem foldlM_addArc_header (reserved : List String) (net acc : Net) :
    (headerEntries net).foldlM (addArc reserved) acc = .ok acc := by
  refine foldlM_eq_self fun entry hEntry => ?_
  simp only [headerEntries, List.mem_cons, List.mem_append] at hEntry
  rcases hEntry with rfl | (hEntry | hEntry) | hEntry
  · rfl
  all_goals
    cases eq_of_mem_unlessDefault hEntry
    rfl

theorem ids_of_mapM {places reread : List Place}
    (h : places.mapM (rereadPlace ev) = .ok reread) :
    reread.map Place.id = places.map Place.id := by
  have hEach := mapM_eq_ok_iff.mp h
  induction hEach with
  | nil => rfl
  | cons hPlace hOthers ih =>
    rw [List.map_cons, List.map_cons, id_of_rereadPlace ev hPlace, ih (mapM_eq_ok_iff.mpr hOthers)]

theorem foldlM_addNode_entries {net : Net} (hNet : net.WellFormed) :
    (entries net).foldlM (addNode ev) { id := defaultName } = (do
      let places ← net.places.mapM (rereadPlace ev)
      return { rebuilt net places with arcs := [] }) := by
  have hNodup := (List.nodup_append.mp hNet.nodup_by_kind).1
  have hPlaces := foldlM_places ev (header net) net.places
    (by simpa [header, Net.ids] using (List.nodup_append.mp hNodup).1)
  simp only [entries_eq, List.foldlM_append, foldlM_headerEntries, bind, Except.bind] at hPlaces ⊢
  rw [hPlaces]
  cases hReread : net.places.mapM (rereadPlace ev) with
  | error e => rfl
  | ok places =>
    rw [← ids_of_mapM ev hReread] at hNodup
    have hTransitions := foldlM_transitions ev { header net with nodes := places.map .place }
      net.transitions (by simpa [header, Net.ids, Function.comp_def, Node.id] using hNodup)
    have hArcs : ∀ acc : Net,
        (net.inputArcs.map inputEntry ++ net.outputArcs.map outputEntry).foldlM
          (addNode ev) acc = .ok acc := fun acc =>
      foldlM_eq_self (List.forall_mem_append.mpr
        ⟨List.forall_mem_map.mpr fun _ _ => rfl, List.forall_mem_map.mpr fun _ _ => rfl⟩)
    simp only [List.foldlM_append, bind, Except.bind] at hArcs
    simp only [header] at hTransitions
    simp only [header, Pure.pure, Except.pure, List.nil_append, hTransitions, hArcs]
    rfl

section Arcs
variable {net : Net} (hNet : net.WellFormed) {places : List Place}
  (hSame : places.map Place.id = net.places.map Place.id)
include hNet hSame

theorem nodup_rebuilt : (rebuilt net places).ids.Nodup :=
  (ids_rebuilt hSame).nodup_iff.mpr hNet.nodup

theorem place?_rebuilt {id : String} {p : Place} (h : net.place? id = some p) :
    ∃ q, (rebuilt net places).place? id = some q := by
  obtain ⟨hp, rfl⟩ := Net.mem_of_place? h
  have hId : p.id ∈ places.map Place.id := hSame ▸ List.mem_map_of_mem hp
  obtain ⟨q, hq, hqp⟩ := List.mem_map.mp hId
  refine ⟨q, hqp ▸ Net.place?_of_mem (nodup_rebuilt hNet hSame) ?_⟩
  rw [places_rebuilt]
  exact hq

theorem transition?_rebuilt {id : String} {t : Transition} (h : net.transition? id = some t) :
    ∃ u, (rebuilt net places).transition? id = some u := by
  obtain ⟨ht, rfl⟩ := Net.mem_of_transition? h
  refine ⟨{ t with lastFired := 0 },
    Net.transition?_of_mem (t := { t with lastFired := 0 }) (nodup_rebuilt hNet hSame) ?_⟩
  rw [transitions_rebuilt]
  exact List.mem_map_of_mem ht

theorem foldlM_addArc_entries (reserved : List String) :
    (entries net).foldlM (addArc reserved) { rebuilt net places with arcs := [] } =
      .ok (rebuilt net places) := by
  have hNodup := hNet.nodup_by_kind
  rw [← hSame] at hNodup
  have hPlace : ∀ a ∈ net.arcs, ∃ q, (rebuilt net places).place? a.place = some q := fun a ha => by
    obtain ⟨p, hp⟩ := hNet.place_of_arc a ha
    exact place?_rebuilt hNet hSame hp
  have hTransition : ∀ a ∈ net.arcs,
      ∃ u, (rebuilt net places).transition? a.transition = some u := fun a ha => by
    obtain ⟨t, ht⟩ := hNet.transition_of_arc a ha
    exact transition?_rebuilt hNet hSame ht
  have hPlaces : ∀ acc : Net,
      (net.places.map placeEntry).foldlM (addArc reserved) acc = .ok acc := fun acc =>
    foldlM_eq_self (List.forall_mem_map.mpr fun _ _ => rfl)
  have hTransitions : ∀ acc : Net,
      (net.transitions.map transitionEntry).foldlM (addArc reserved) acc = .ok acc := fun acc =>
    foldlM_eq_self (List.forall_mem_map.mpr fun _ _ => rfl)
  have hInputs := foldlM_inputs { rebuilt net places with arcs := [] } reserved net.inputArcs
    (by
      rw [← List.append_assoc] at hNodup
      simpa [Net.ids, rebuilt, Function.comp_def, Node.id] using (List.nodup_append.mp hNodup).1)
    (fun a ha => hPlace _ (Net.mem_arcs_of_input ha))
    (fun a ha => hTransition _ (Net.mem_arcs_of_input ha))
  have hOutputs := foldlM_outputs { rebuilt net places with arcs := net.inputArcs.map .input }
    reserved net.outputArcs
    (by simpa [Net.ids, rebuilt, Function.comp_def, Node.id, Arc.id] using hNodup)
    (fun a ha => hPlace _ (Net.mem_arcs_of_output ha))
    (fun a ha => hTransition _ (Net.mem_arcs_of_output ha))
  rw [entries_eq]
  simp only [List.foldlM_append, bind, Except.bind, foldlM_addArc_header, hPlaces, hTransitions,
    hInputs]
  exact hOutputs

end Arcs

/-- The entries of a net describe it up to the tokens, which their texts make. -/
theorem netOf_entries {net : Net} (hNet : net.WellFormed) :
    netOf ev (entries net) = (do
      let places ← net.places.mapM (rereadPlace ev)
      return rebuilt net places) := by
  rw [netOf, foldlM_addNode_entries ev hNet]
  cases hReread : net.places.mapM (rereadPlace ev) with
  | error e => rfl
  | ok places => exact foldlM_addArc_entries hNet (ids_of_mapM ev hReread) _

/-- Reading a printed net. Only the evaluation of the tokens can fail. -/
theorem parse_print {net : Net} (hNet : net.WellFormed) (hNamed : Named net)
    (hCapacity : ∀ p ∈ net.places, p.capacity < capacityLimit) :
    parse ev (print net) = (do
      let places ← net.places.mapM (rereadPlace ev)
      return rebuilt net places) := by
  rw [parse, entriesOf_print hNet hNamed hCapacity]
  exact netOf_entries ev hNet

end Petri.NetFile
