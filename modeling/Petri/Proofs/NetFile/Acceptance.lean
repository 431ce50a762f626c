import Petri.Proofs.NetFile.SecondPass

/-! # Files that are accepted

A list of entries describes a net exactly when the texts of its initial marking evaluate, no
identifier is given twice, every arc joins a place and a transition of the file, and no output arc
says when it is enabled. The identifiers that are made up never stand in the way of a given one.
-/
namespace Petri.NetFile
set_option autoImplicit false

variable (ev : Evaluator Id) {entries : List Entry} {nodes net : Net}

structure Acceptable (entries : List Entry) : Prop where
  evaluates : ∀ entry ∈ entries, entry.Evaluates ev
  distinct : (entries.filterMap Entry.id?).Nodup
  joins : ∀ entry ∈ entries, ∀ ends ∈ entry.ends?,
    (∃ attributes, .place ends.1 attributes ∈ entries) ∧
      ∃ attributes, .transition ends.2 attributes ∈ entries
  plain : ∀ entry ∈ entries, entry.Plain

/-! ## Places and transitions -/

theorem isSome_node?_of_evaluates (hEvaluates : ∀ entry ∈ entries, entry.Evaluates ev) :
    ∀ entry ∈ entries, entry.nodeId?.isSome → (entry.node? ev).isSome := by
  intro entry hEntry hSome
  obtain ⟨id, hId⟩ := Option.isSome_iff_exists.mp hSome
  exact (isSome_node?_iff ev hId).mpr (hEvaluates entry hEntry)

theorem evaluates_of_isSome_node?
    (hSome : ∀ entry ∈ entries, entry.nodeId?.isSome → (entry.node? ev).isSome) :
    ∀ entry ∈ entries, entry.Evaluates ev := by
  intro entry hEntry
  cases hId : entry.nodeId? with
  | some id => exact (isSome_node?_iff ev hId).mp (hSome entry hEntry (Option.isSome_of_mem hId))
  | none => cases entry <;> trivial

theorem ids_of_nodes
    (hSome : ∀ entry ∈ entries, entry.nodeId?.isSome → (entry.node? ev).isSome) :
    (entries.filterMap (Entry.node? ev)).map Node.id = entries.filterMap Entry.nodeId? := by
  rw [List.map_filterMap]
  apply List.filterMap_congr
  intro entry hEntry
  cases hNode : entry.node? ev with
  | some n => exact (nodeId?_of_node? ev hNode).symm
  | none =>
    cases hId : entry.nodeId? with
    | none => rfl
    | some id =>
      have hSome := hSome entry hEntry (Option.isSome_of_mem hId)
      rw [hNode] at hSome
      cases hSome

theorem arcs_foldl_describe (net : Net) (entries : List Entry) :
    (entries.foldl describe net).arcs = net.arcs := by
  refine foldl_keeps Net.arcs ?_ entries net
  intro net entry
  cases entry <;> rfl

theorem numbering_foldl_describe (net : Net) (entries : List Entry) :
    (entries.foldl describe net).numbering = net.numbering := by
  refine foldl_keeps Net.numbering ?_ entries net
  intro net entry
  cases entry <;> rfl

/-- The net after the first pass over a file. -/
def nodesOf (entries : List Entry) : Net :=
  { entries.foldl describe { id := defaultName } with nodes := entries.filterMap (Entry.node? ev) }

theorem arcs_nodesOf (entries : List Entry) : (nodesOf ev entries).arcs = [] :=
  arcs_foldl_describe { id := defaultName } entries

theorem numbering_nodesOf (entries : List Entry) : (nodesOf ev entries).numbering = {} :=
  numbering_foldl_describe { id := defaultName } entries

theorem nodes_eq_ok_iff :
    entries.foldlM (addNode ev) { id := defaultName } = .ok nodes ↔
      (∀ entry ∈ entries, entry.Evaluates ev) ∧ (entries.filterMap Entry.nodeId?).Nodup ∧
        nodes = nodesOf ev entries := by
  rw [foldlM_addNode_eq_ok_iff ev entries (Net.wellFormed_empty defaultName).nodup]
  constructor
  · rintro ⟨hSome, hDistinct, hNodes⟩
    exact ⟨evaluates_of_isSome_node? ev hSome, hDistinct, hNodes⟩
  · rintro ⟨hEvaluates, hDistinct, hNodes⟩
    exact ⟨isSome_node?_of_evaluates ev hEvaluates, hDistinct, hNodes⟩

theorem ids_nodesOf (hEvaluates : ∀ entry ∈ entries, entry.Evaluates ev) :
    (nodesOf ev entries).ids = entries.filterMap Entry.nodeId? := by
  rw [Net.ids, arcs_nodesOf, List.map_nil, List.append_nil]
  exact ids_of_nodes ev (isSome_node?_of_evaluates ev hEvaluates)

theorem places_nodesOf (hEvaluates : ∀ entry ∈ entries, entry.Evaluates ev) {id : String} :
    (∃ p ∈ (nodesOf ev entries).places, p.id = id) ↔ ∃ attributes, .place id attributes ∈ entries := by
  constructor
  · rintro ⟨p, hp, rfl⟩
    obtain ⟨n, hn, hPlace⟩ := List.mem_filterMap.mp hp
    obtain ⟨entry, hEntry, hNode⟩ := List.mem_filterMap.mp hn
    have hId := nodeId?_of_node? ev hNode
    cases entry with
    | net | declarations | imports | implements | input | output => cases hNode
    | transition id attributes =>
      cases hNode
      cases hPlace
    | place id attributes =>
      obtain ⟨q, _, rfl⟩ := Option.map_eq_some_iff.mp hNode
      cases hPlace
      cases hId
      exact ⟨attributes, hEntry⟩
  · rintro ⟨attributes, hEntry⟩
    obtain ⟨n, hNode⟩ := Option.isSome_iff_exists.mp
      (isSome_node?_of_evaluates ev hEvaluates _ hEntry rfl)
    obtain ⟨p, hPlace, rfl⟩ := Option.map_eq_some_iff.mp hNode
    refine ⟨p, ?_, id_foldlM_placeAttributes ev (toOption_eq_some_iff.mp hPlace)⟩
    exact List.mem_filterMap.mpr ⟨.place p, List.mem_filterMap.mpr ⟨_, hEntry, hNode⟩, rfl⟩

theorem transitions_nodesOf {id : String} :
    (∃ t ∈ (nodesOf ev entries).transitions, t.id = id) ↔
      ∃ attributes, .transition id attributes ∈ entries := by
  constructor
  · rintro ⟨t, ht, rfl⟩
    obtain ⟨n, hn, hTransition⟩ := List.mem_filterMap.mp ht
    obtain ⟨entry, hEntry, hNode⟩ := List.mem_filterMap.mp hn
    cases entry with
    | net | declarations | imports | implements | input | output => cases hNode
    | place id attributes =>
      obtain ⟨q, _, rfl⟩ := Option.map_eq_some_iff.mp hNode
      cases hTransition
    | transition id attributes =>
      cases hNode
      cases hTransition
      rw [id_foldl_transitionAttributes]
      exact ⟨attributes, hEntry⟩
  · rintro ⟨attributes, hEntry⟩
    refine ⟨_, List.mem_filterMap.mpr ⟨_, List.mem_filterMap.mpr ⟨_, hEntry, rfl⟩, rfl⟩, ?_⟩
    rw [id_foldl_transitionAttributes]

theorem joins_iff {place transition : String} (hNodup : net.ids.Nodup) :
    net.Joins place transition ↔
      (∃ p ∈ net.places, p.id = place) ∧ ∃ t ∈ net.transitions, t.id = transition := by
  constructor
  · rintro ⟨⟨p, hPlace⟩, t, hTransition⟩
    exact ⟨⟨p, Net.mem_of_place? hPlace⟩, t, Net.mem_of_transition? hTransition⟩
  · rintro ⟨⟨p, hp, rfl⟩, t, ht, rfl⟩
    exact ⟨⟨p, Net.place?_of_mem hNodup hp⟩, t, Net.transition?_of_mem hNodup ht⟩

/-! ## The two passes together -/

theorem foldlM_isArc (reserved : List String) (net : Net) (entries : List Entry) :
    entries.foldlM (addArc reserved) net = (entries.filter Entry.isArc).foldlM (addArc reserved) net := by
  rw [List.foldlM_filter]
  congr 1
  funext net entry
  cases entry <;> rfl

theorem isArc_of_mem_filter : ∀ entry ∈ entries.filter Entry.isArc, entry.isArc = true :=
  fun _ hEntry => (List.mem_filter.mp hEntry).2

theorem netOf_eq_ok_iff :
    netOf ev entries = .ok net ↔
      (∀ entry ∈ entries, entry.Evaluates ev) ∧ (entries.filterMap Entry.nodeId?).Nodup ∧
        (entries.filter Entry.isArc).foldlM (addArc (entries.filterMap Entry.arcId?))
          (nodesOf ev entries) = .ok net := by
  rw [netOf, bind_eq_ok_iff]
  constructor
  · rintro ⟨nodes, hNodes, hArcs⟩
    obtain ⟨hEvaluates, hDistinct, rfl⟩ := (nodes_eq_ok_iff ev).mp hNodes
    rw [foldlM_isArc] at hArcs
    exact ⟨hEvaluates, hDistinct, hArcs⟩
  · rintro ⟨hEvaluates, hDistinct, hArcs⟩
    refine ⟨_, (nodes_eq_ok_iff ev).mpr ⟨hEvaluates, hDistinct, rfl⟩, ?_⟩
    rwa [foldlM_isArc]

/-- The arcs of a net that entries describe. -/
theorem identified_of_netOf (h : netOf ev entries = .ok net) :
    ∃ made, Identified (entries.filterMap Entry.arcId?) (entries.filterMap Entry.nodeId?) 0
        (entries.filter Entry.isArc) net.arcs made ∧
      net = { nodesOf ev entries with arcs := net.arcs, numbering := net.numbering } ∧
      ∀ a ∈ net.arcs, (nodesOf ev entries).Joins a.place a.transition := by
  obtain ⟨hEvaluates, _, hArcs⟩ := (netOf_eq_ok_iff ev).mp h
  obtain ⟨arcs, made, hIdentified, hNet, hJoins⟩ := identified_of_arcs isArc_of_mem_filter hArcs
  rw [arcs_nodesOf, List.nil_append] at hNet
  have hSame : net.arcs = arcs := by rw [hNet]
  rw [ids_nodesOf ev hEvaluates, numbering_nodesOf] at hIdentified
  rw [hSame]
  exact ⟨made, hIdentified, hNet, hJoins⟩

theorem acceptable_of_netOf (h : netOf ev entries = .ok net) : Acceptable ev entries := by
  obtain ⟨hEvaluates, hDistinct, hArcs⟩ := (netOf_eq_ok_iff ev).mp h
  obtain ⟨made, hIdentified, hNet, hJoins⟩ := identified_of_netOf ev h
  have hNodup : (nodesOf ev entries).ids.Nodup := by rwa [ids_nodesOf ev hEvaluates]
  have hEntry : ∀ entry ∈ entries, entry.isArc = true → ∃ a ∈ net.arcs, ∃ id, entry.Describes id a :=
    fun entry hEntry hArc => hIdentified.exists_arc (List.mem_filter.mpr ⟨hEntry, hArc⟩)
  refine ⟨hEvaluates, ?_, ?_, ?_⟩
  · have hAll := nodup_ids_of_arcs hNodup hArcs
    have hIds : net.ids = (nodesOf ev entries).ids ++ net.arcs.map Arc.id := by
      rw [hNet, Net.ids, Net.ids, arcs_nodesOf, List.map_nil, List.append_nil]
    rw [hIds, ids_nodesOf ev hEvaluates] at hAll
    have hPerm := hIdentified.ids_perm.append_left (entries.filterMap Entry.nodeId?)
    rw [arcId?_filter_isArc] at hPerm
    refine (id?_perm entries).nodup_iff.mpr ((hPerm.nodup_iff.mp hAll).sublist ?_)
    exact (List.sublist_append_right _ _).append_left _
  · intro entry hMem ends hEnds
    have hArc : entry.isArc = true := by
      cases entry <;> first | rfl | cases hEnds
    obtain ⟨a, ha, id, hDescribes⟩ := hEntry entry hMem hArc
    cases hDescribes.ends.symm.trans hEnds
    obtain ⟨hPlace, hTransition⟩ := (joins_iff hNodup).mp (hJoins a ha)
    exact ⟨(places_nodesOf ev hEvaluates).mp hPlace, (transitions_nodesOf ev).mp hTransition⟩
  · intro entry hMem
    cases hArc : entry.isArc with
    | true =>
      obtain ⟨a, _, id, hDescribes⟩ := hEntry entry hMem hArc
      exact hDescribes.plain
    | false => cases entry <;> trivial

theorem exists_netOf (h : Acceptable ev entries) : ∃ net, netOf ev entries = .ok net := by
  have hDistinct := (id?_perm entries).nodup_iff.mp h.distinct
  have hNodes := (List.nodup_append.mp hDistinct).1
  have hIds := ids_nodesOf ev h.evaluates
  have hNodup : (nodesOf ev entries).ids.Nodup := by rwa [hIds]
  rw [← arcId?_filter_isArc, ← hIds] at hDistinct
  have hReserved : ∀ id ∈ (entries.filter Entry.isArc).filterMap Entry.arcId?,
      id ∈ entries.filterMap Entry.arcId? := by
    rw [arcId?_filter_isArc]
    exact fun _ hId => hId
  have hPlain : ∀ entry ∈ entries.filter Entry.isArc, entry.Plain :=
    fun entry hEntry => h.plain entry (List.mem_of_mem_filter hEntry)
  have hJoins : ∀ entry ∈ entries.filter Entry.isArc, ∀ ends ∈ entry.ends?,
      (nodesOf ev entries).Joins ends.1 ends.2 := by
    intro entry hEntry ends hEnds
    obtain ⟨hPlace, hTransition⟩ := h.joins entry (List.mem_of_mem_filter hEntry) ends hEnds
    exact (joins_iff hNodup).mpr ⟨(places_nodesOf ev h.evaluates).mpr hPlace,
      (transitions_nodesOf ev).mpr hTransition⟩
  obtain ⟨net, hNet⟩ := exists_of_arcs isArc_of_mem_filter hReserved hDistinct hPlain hJoins
  exact ⟨net, (netOf_eq_ok_iff ev).mpr ⟨h.evaluates, hNodes, hNet⟩⟩

theorem nodup_made {made : List String} {n : Nat} {arcs : List Arc}
    (h : Identified (entries.filterMap Entry.arcId?) (entries.filterMap Entry.nodeId?) n
      (entries.filter Entry.isArc) arcs made)
    (hDistinct : (entries.filterMap Entry.id?).Nodup) :
    (made ++ entries.filterMap Entry.id?).Nodup := by
  obtain ⟨hMade, hFresh⟩ := h.fresh
  refine List.nodup_append.mpr ⟨hMade, hDistinct, ?_⟩
  rintro id hId _ hGiven rfl
  exact hFresh id hId ((id?_perm entries).mem_iff.mp hGiven)

theorem two_le_count_of_netOf {id : String}
    (h : netOf ev entries = .error (.construction (.duplicateId id))) :
    2 ≤ (entries.filterMap Entry.id?).count id := by
  rw [(id?_perm entries).count_eq]
  rcases bind_eq_error_iff.mp h with hNodes | ⟨nodes, hNodes, hArcs⟩
  · have hCount := two_le_count_of_nodes ev hNodes
    rw [List.count_append]
    exact hCount.trans (Nat.le_add_right _ _)
  · obtain ⟨hEvaluates, _, rfl⟩ := (nodes_eq_ok_iff ev).mp hNodes
    rw [foldlM_isArc] at hArcs
    have hCount := two_le_count_of_arcs isArc_of_mem_filter
      (by rw [arcId?_filter_isArc]; exact fun _ hId => hId) hArcs
    rwa [arcId?_filter_isArc, ids_nodesOf ev hEvaluates] at hCount

/-- Which lists of entries are accepted. Their arcs stand in the order of the file and keep the
identifiers that it gives; every other identifier is where a search, which always ends, has come to,
and it is none that the file gives anywhere. An identifier is refused as a duplicate only if the file
gives it twice. -/
theorem netOf_accepts (entries : List Entry) :
    ((∃ net, netOf ev entries = .ok net) ↔ Acceptable ev entries) ∧
      (∀ net, netOf ev entries = .ok net → ∃ made,
        Identified (entries.filterMap Entry.arcId?) (entries.filterMap Entry.nodeId?) 0
          (entries.filter Entry.isArc) net.arcs made ∧
        (made ++ entries.filterMap Entry.id?).Nodup) ∧
      (∀ (numbering : Numbering) (kind : ElementKind) (taken : List String),
        Numbering.Search kind taken numbering.last (numbering.next kind taken).last) ∧
      ∀ id, netOf ev entries = .error (.construction (.duplicateId id)) →
        2 ≤ (entries.filterMap Entry.id?).count id := by
  refine ⟨⟨?_, exists_netOf ev⟩, ?_, Numbering.search_next, fun id => two_le_count_of_netOf ev⟩
  · rintro ⟨net, h⟩
    exact acceptable_of_netOf ev h
  · intro net h
    obtain ⟨made, hIdentified, _⟩ := identified_of_netOf ev h
    exact ⟨made, hIdentified, nodup_made hIdentified (acceptable_of_netOf ev h).distinct⟩

/-- The first arc has no identifier, and the one after it has the identifier that is next. -/
def crossing : List Entry :=
  [.input none "queue" "serve" [], .output (some "i1") "serve" "queue" [], .place "queue" [],
    .transition "serve" []]

def collision : List Entry := [.place "queue" [], .transition "queue" []]

theorem netOf_accepts_crossing :
    (∃ net, netOf interpreter crossing = .ok net ∧ net.arcs.map Arc.id = ["i2", "i1"] ∧
      Acceptable interpreter crossing ∧ ∃ made, (made ++ ["i1", "queue", "serve"]).Nodup) ∧
      netOf interpreter collision = .error (.construction (.duplicateId "queue")) ∧
      2 ≤ (collision.filterMap Entry.id?).count "queue" := by
  have hCollision : netOf interpreter collision = .error (.construction (.duplicateId "queue")) := by
    decide
  obtain ⟨hAccepts, hArcs, _⟩ := netOf_accepts interpreter crossing
  obtain ⟨_, _, _, hTwice⟩ := netOf_accepts interpreter collision
  have hNet : ∃ net, netOf interpreter crossing = .ok net ∧ net.arcs.map Arc.id = ["i2", "i1"] := by
    refine ⟨_, by rfl, ?_⟩
    decide
  obtain ⟨net, hNet, hIds⟩ := hNet
  obtain ⟨made, _, hNodup⟩ := hArcs net hNet
  exact ⟨⟨net, hNet, hIds, hAccepts.mp ⟨net, hNet⟩, made, hNodup⟩, hCollision, hTwice _ hCollision⟩

end Petri.NetFile
