import Petri.Proofs.NetFile.Loading

/-! # The first pass over the entries of a file

The first pass describes the net and adds its places and transitions. What it leaves is read off the
entries that it has gone over, and so is whether it fails.
-/
namespace Petri.NetFile
set_option autoImplicit false

/-! ## What an entry says -/

/-- The identifier that the entry of a place or a transition gives it. -/
def Entry.nodeId? : Entry → Option String
  | .place id _ | .transition id _ => some id
  | _ => none

/-- The identifier that the entry of an element gives it. -/
def Entry.id? : Entry → Option String
  | .place id _ | .transition id _ => some id
  | .input id .. | .output id .. => id
  | _ => none

def Entry.arcKind? : Entry → Option ElementKind
  | .input .. => some .inputArc
  | .output .. => some .outputArc
  | _ => none

def Entry.isArc (entry : Entry) : Bool := entry.arcKind?.isSome

/-- The place and the transition that the entry of an arc joins. -/
def Entry.ends? : Entry → Option (String × String)
  | .input _ source target _ => some (source, target)
  | .output _ source target _ => some (target, source)
  | _ => none

/-- The entry of an output arc says nothing about enabling. -/
def Entry.Plain : Entry → Prop
  | .output _ _ _ attributes => ∀ text, .evaluate text ∉ attributes
  | _ => True

theorem id?_perm (entries : List Entry) :
    (entries.filterMap Entry.id?).Perm
      (entries.filterMap Entry.nodeId? ++ entries.filterMap Entry.arcId?) := by
  induction entries with
  | nil => exact .nil
  | cons entry entries ih =>
    cases entry with
    | net | declarations | imports | implements => exact ih
    | place id | transition id => exact ih.cons id
    | input given | output given =>
      cases given with
      | none => exact ih
      | some id => exact (ih.cons id).trans List.perm_middle.symm

theorem arcId?_filter_isArc (entries : List Entry) :
    (entries.filter Entry.isArc).filterMap Entry.arcId? = entries.filterMap Entry.arcId? := by
  rw [List.filterMap_filter]
  congr 1
  funext entry
  cases entry <;> rfl

/-! ## Places and transitions -/

section FirstPass
variable (ev : Evaluator Id) {net after : Net} {entry : Entry}

/-- The net that the entry says something about. -/
def describe (net : Net) : Entry → Net
  | .net id label => { net with id := id, label := label }
  | .declarations text => { net with declarations := text }
  | .imports text => { net with imports := text }
  | .implements text => { net with implements := text }
  | _ => net

/-- The place or the transition of the entry. -/
def Entry.node? : Entry → Option Node
  | .place id attributes =>
    (attributes.foldlM (addPlaceAttribute ev) { id := id }).toOption.map Node.place
  | .transition id attributes =>
    some (.transition (attributes.foldl addTransitionAttribute { id := id }))
  | _ => none

/-- The texts of the attribute evaluate where the place is in scope. -/
def PlaceAttribute.Evaluates (place : String) : PlaceAttribute → Prop
  | .tokens texts => ∀ text ∈ texts, ∃ made, ev.execute text ⟨0, place, some []⟩ = .ok made
  | _ => True

def Entry.Evaluates : Entry → Prop
  | .place id attributes => ∀ a ∈ attributes, a.Evaluates ev id
  | _ => True

theorem id_addPlaceAttribute {p q : Place} {a : PlaceAttribute}
    (h : addPlaceAttribute ev p a = .ok q) : q.id = p.id := by
  cases a with
  | label text | capacity n =>
    cases h
    rfl
  | tokens texts =>
    obtain ⟨made, _, hq⟩ := bind_eq_ok_iff.mp h
    cases hq
    rfl

theorem id_foldlM_placeAttributes {p q : Place} {attributes : List PlaceAttribute}
    (h : attributes.foldlM (addPlaceAttribute ev) p = .ok q) : q.id = p.id :=
  foldlM_keeps (P := fun r : Place => r.id = p.id)
    (fun _ _ _ _ hr hStep => (id_addPlaceAttribute ev hStep).trans hr) rfl h

theorem exists_initialTokens_iff {place text : String} :
    (∃ made, initialTokens ev place text = .ok made) ↔
      ∃ made, ev.execute text ⟨0, place, some []⟩ = .ok made := by
  unfold initialTokens
  constructor
  · rintro ⟨made, h⟩
    split at h
    · cases h
    · exact ⟨_, ‹_›⟩
    · exact ⟨_, ‹_›⟩
  · rintro ⟨made, h⟩
    rw [h]
    split
    · rename_i hError
      cases hError
    · exact ⟨_, rfl⟩
    · exact ⟨_, rfl⟩

theorem exists_addPlaceAttribute_iff (p : Place) (a : PlaceAttribute) :
    (∃ q, addPlaceAttribute ev p a = .ok q) ↔ a.Evaluates ev p.id := by
  cases a with
  | label text | capacity n => exact iff_of_true ⟨_, rfl⟩ trivial
  | tokens texts =>
    simp only [addPlaceAttribute, addInitialTokens, bind_eq_ok_iff, pure_eq_ok_iff,
      PlaceAttribute.Evaluates, ← exists_initialTokens_iff, ← exists_mapM_iff]
    constructor
    · rintro ⟨_, made, hMade, _⟩
      exact ⟨made, hMade⟩
    · rintro ⟨made, hMade⟩
      exact ⟨_, made, hMade, rfl⟩

theorem exists_foldlM_placeAttributes_iff (p : Place) (attributes : List PlaceAttribute) :
    (∃ q, attributes.foldlM (addPlaceAttribute ev) p = .ok q) ↔
      ∀ a ∈ attributes, a.Evaluates ev p.id := by
  refine exists_foldlM_iff (P := fun r : Place => r.id = p.id) ?_ ?_ attributes rfl
  · intro r a hr
    rw [exists_addPlaceAttribute_iff, hr]
  · intro r a s hr hStep
    exact (id_addPlaceAttribute ev hStep).trans hr

theorem toOption_eq_some_iff {ε α : Type} {x : Except ε α} {a : α} :
    x.toOption = some a ↔ x = .ok a := by
  cases x <;> simp [Except.toOption]

theorem isSome_node?_iff {id : String} (h : entry.nodeId? = some id) :
    (entry.node? ev).isSome ↔ entry.Evaluates ev := by
  cases entry with
  | net | declarations | imports | implements | input | output => cases h
  | transition id attributes => exact iff_of_true rfl trivial
  | place id attributes =>
    simp only [Entry.node?, Option.isSome_map, Option.isSome_iff_exists, toOption_eq_some_iff]
    exact exists_foldlM_placeAttributes_iff ev { id := id } attributes

theorem nodeId?_of_node? {n : Node} (h : entry.node? ev = some n) :
    entry.nodeId? = some n.id := by
  cases entry with
  | net | declarations | imports | implements | input | output => cases h
  | transition id attributes =>
    cases h
    rw [Node.id, id_foldl_transitionAttributes]
    rfl
  | place id attributes =>
    obtain ⟨p, hPlace, rfl⟩ := Option.map_eq_some_iff.mp h
    exact congrArg some (id_foldlM_placeAttributes ev (toOption_eq_some_iff.mp hPlace)).symm

theorem addNode_eq_ok_iff :
    addNode ev net entry = .ok after ↔
      (∀ id ∈ entry.nodeId?, id ∉ net.ids ∧ (entry.node? ev).isSome) ∧
        after = { describe net entry with nodes := net.nodes ++ (entry.node? ev).toList } := by
  cases entry with
  | net | declarations | imports | implements =>
    simp [addNode, Entry.nodeId?, Entry.node?, describe, eq_comm]
  | input | output =>
    simp only [addNode, Entry.node?, describe, Option.toList_none, List.append_nil]
    constructor
    · intro h
      cases h
      refine ⟨?_, rfl⟩
      intro id hId
      cases hId
    · rintro ⟨_, rfl⟩
      rfl
  | transition id attributes =>
    simp [addNode, Entry.nodeId?, Entry.node?, describe, constructed_eq_ok_iff,
      Net.addTransition_eq_ok_iff, id_foldl_transitionAttributes]
  | place id attributes =>
    simp only [addNode, bind_eq_ok_iff, constructed_eq_ok_iff, Net.addPlace_eq_ok_iff]
    constructor
    · rintro ⟨p, hPlace, hFresh, rfl⟩
      rw [id_foldlM_placeAttributes ev hPlace] at hFresh
      simpa [Entry.nodeId?, Entry.node?, describe, hPlace, Except.toOption] using hFresh
    · rintro ⟨hFresh, rfl⟩
      obtain ⟨hFresh, hSome⟩ := hFresh id rfl
      obtain ⟨n, hNode⟩ := Option.isSome_iff_exists.mp hSome
      obtain ⟨p, hPlace, rfl⟩ := Option.map_eq_some_iff.mp hNode
      have hId := id_foldlM_placeAttributes ev (toOption_eq_some_iff.mp hPlace)
      refine ⟨p, toOption_eq_some_iff.mp hPlace, hId ▸ hFresh, ?_⟩
      rw [hNode]
      rfl

theorem describe_withNodes (net : Net) (nodes : List Node) (entry : Entry) :
    describe { net with nodes := nodes } entry = { describe net entry with nodes := nodes } := by
  cases entry <;> rfl

theorem foldl_describe_withNodes (net : Net) (nodes : List Node) (entries : List Entry) :
    entries.foldl describe { net with nodes := nodes } =
      { entries.foldl describe net with nodes := nodes } := by
  induction entries generalizing net with
  | nil => rfl
  | cons entry entries ih => rw [List.foldl_cons, describe_withNodes, ih, List.foldl_cons]

theorem ids_describe_withNodes (net : Net) (nodes : List Node) (entry : Entry) :
    ({ describe net entry with nodes := nodes } : Net).ids = { net with nodes := nodes }.ids := by
  cases entry <;> rfl

theorem perm_ids_of_addNode (h : addNode ev net entry = .ok after) (rest : List Entry) :
    (after.ids ++ rest.filterMap Entry.nodeId?).Perm
      (net.ids ++ (entry :: rest).filterMap Entry.nodeId?) := by
  obtain ⟨hFresh, rfl⟩ := (addNode_eq_ok_iff ev).mp h
  rw [ids_describe_withNodes]
  cases hNode : entry.node? ev with
  | none =>
    have hId : entry.nodeId? = none := by
      by_contra hSome
      obtain ⟨id, hId⟩ := Option.ne_none_iff_exists'.mp hSome
      have hSome := (hFresh id hId).2
      rw [hNode] at hSome
      cases hSome
    rw [List.filterMap_cons_none hId, Option.toList_none, List.append_nil]
  | some n =>
    rw [List.filterMap_cons_some (nodeId?_of_node? ev hNode), Option.toList_some]
    exact ((net.ids_addNode n).append_right _).trans List.perm_middle.symm

theorem nodup_ids_of_addNode (hNodup : net.ids.Nodup) (h : addNode ev net entry = .ok after) :
    after.ids.Nodup := by
  have hPerm := perm_ids_of_addNode ev h []
  rw [List.filterMap_nil, List.append_nil] at hPerm
  refine hPerm.nodup_iff.mpr ?_
  cases hId : entry.nodeId? with
  | none => rwa [List.filterMap_cons_none hId, List.filterMap_nil, List.append_nil]
  | some id =>
    have hFresh := (((addNode_eq_ok_iff ev).mp h).1 id hId).1
    rw [List.filterMap_cons_some hId, List.filterMap_nil]
    exact (List.perm_append_singleton id _).nodup_iff.mpr (List.nodup_cons.mpr ⟨hFresh, hNodup⟩)

theorem perm_ids_of_nodes {entries : List Entry}
    (h : entries.foldlM (addNode ev) net = .ok after) (rest : List Entry) :
    (after.ids ++ rest.filterMap Entry.nodeId?).Perm
      (net.ids ++ (entries ++ rest).filterMap Entry.nodeId?) := by
  induction entries generalizing net with
  | nil =>
    cases h
    exact .refl _
  | cons entry entries ih =>
    rw [List.foldlM_cons] at h
    obtain ⟨middle, hStep, hRest⟩ := bind_eq_ok_iff.mp h
    exact (ih hRest).trans (perm_ids_of_addNode ev hStep (entries ++ rest))

/-- When the first pass succeeds, and what it leaves. -/
theorem foldlM_addNode_eq_ok_iff (entries : List Entry) (hNodup : net.ids.Nodup) :
    entries.foldlM (addNode ev) net = .ok after ↔
      (∀ entry ∈ entries, entry.nodeId?.isSome → (entry.node? ev).isSome) ∧
        (net.ids ++ entries.filterMap Entry.nodeId?).Nodup ∧
        after = { entries.foldl describe net with
          nodes := net.nodes ++ entries.filterMap (Entry.node? ev) } := by
  induction entries generalizing net with
  | nil => simp [pure_eq_ok_iff, hNodup]
  | cons entry entries ih =>
    have hLast : ∀ net : Net, ({ entries.foldl describe
          { describe net entry with nodes := net.nodes ++ (entry.node? ev).toList } with
          nodes := net.nodes ++ (entry.node? ev).toList ++ entries.filterMap (Entry.node? ev) } :
          Net) =
        { (entry :: entries).foldl describe net with
          nodes := net.nodes ++ (entry :: entries).filterMap (Entry.node? ev) } := by
      intro net
      rw [foldl_describe_withNodes, List.filterMap_cons]
      cases entry.node? ev <;> simp
    rw [List.foldlM_cons, bind_eq_ok_iff, List.forall_mem_cons]
    constructor
    · rintro ⟨middle, hStep, hRest⟩
      obtain ⟨hAll, hDistinct, hAfter⟩ := (ih (nodup_ids_of_addNode ev hNodup hStep)).mp hRest
      refine ⟨⟨?_, hAll⟩, (perm_ids_of_addNode ev hStep entries).nodup_iff.mp hDistinct, ?_⟩
      · intro hSome
        obtain ⟨id, hId⟩ := Option.isSome_iff_exists.mp hSome
        exact (((addNode_eq_ok_iff ev).mp hStep).1 id hId).2
      · rw [hAfter, ((addNode_eq_ok_iff ev).mp hStep).2]
        exact hLast net
    · rintro ⟨⟨hNode, hAll⟩, hDistinct, hAfter⟩
      have hFresh : ∀ id ∈ entry.nodeId?, id ∉ net.ids ∧ (entry.node? ev).isSome := by
        intro id hId
        rw [List.filterMap_cons_some hId] at hDistinct
        exact ⟨not_mem_of_nodup hDistinct, hNode (Option.isSome_of_mem hId)⟩
      have hStep := (addNode_eq_ok_iff ev).mpr ⟨hFresh, rfl⟩
      refine ⟨_, hStep, (ih (nodup_ids_of_addNode ev hNodup hStep)).mpr ⟨hAll, ?_, ?_⟩⟩
      · exact (perm_ids_of_addNode ev hStep entries).nodup_iff.mpr hDistinct
      · rw [hAfter]
        exact (hLast net).symm

theorem marking_of_addPlaceAttribute {p : Place} {a : PlaceAttribute} {e : FileError}
    (h : addPlaceAttribute ev p a = .error e) : ∃ text cause, e = .marking p.id text cause := by
  cases a with
  | label text | capacity n => cases h
  | tokens texts =>
    rcases bind_eq_error_iff.mp h with hMade | ⟨made, _, hPure⟩
    · obtain ⟨text, _, hText⟩ := exists_of_mapM_eq_error hMade
      unfold initialTokens at hText
      split at hText
      · cases hText
        exact ⟨text, _, rfl⟩
      · cases hText
      · cases hText
    · cases hPure

theorem duplicateId_of_addNode {id : String}
    (h : addNode ev net entry = .error (.construction (.duplicateId id))) :
    entry.nodeId? = some id ∧ id ∈ net.ids := by
  cases entry with
  | net | declarations | imports | implements | input | output => cases h
  | transition own attributes =>
    obtain ⟨rfl, hMem⟩ := Net.duplicateId_of_addTransition (constructed_eq_error_iff.mp h)
    rw [id_foldl_transitionAttributes] at hMem ⊢
    exact ⟨rfl, hMem⟩
  | place own attributes =>
    rcases bind_eq_error_iff.mp h with hPlace | ⟨p, hPlace, hAdd⟩
    · obtain ⟨_, a, _, q, _, _, hError⟩ := exists_of_foldlM_eq_error hPlace
      obtain ⟨text, cause, hMarking⟩ := marking_of_addPlaceAttribute ev hError
      cases hMarking
    · obtain ⟨rfl, hMem⟩ := Net.duplicateId_of_addPlace (constructed_eq_error_iff.mp hAdd)
      rw [id_foldlM_placeAttributes ev hPlace] at hMem ⊢
      exact ⟨rfl, hMem⟩

theorem two_le_count_append {ids rest : List String} {id : String} (h : id ∈ ids) :
    2 ≤ (ids ++ id :: rest).count id := by
  have hFirst := List.count_pos_iff.mpr h
  rw [List.count_append, List.count_cons_self]
  omega

theorem two_le_count_of_nodes {entries : List Entry} {id : String}
    (h : entries.foldlM (addNode ev) net = .error (.construction (.duplicateId id))) :
    2 ≤ (net.ids ++ entries.filterMap Entry.nodeId?).count id := by
  obtain ⟨done, entry, rest, middle, rfl, hDone, hError⟩ := exists_of_foldlM_eq_error h
  obtain ⟨hId, hMem⟩ := duplicateId_of_addNode ev hError
  have hPerm := perm_ids_of_nodes ev hDone (entry :: rest)
  rw [← hPerm.count_eq, List.filterMap_cons_some hId]
  exact two_le_count_append hMem

end FirstPass

end Petri.NetFile
