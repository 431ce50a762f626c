import Petri.Proofs.Net.Numbering
import Petri.Proofs.NetFile.FirstPass

/-! # The second pass over the entries of a file

The second pass adds the arcs, one after another, each with the identifier that its entry gives or
with a numbered one that nothing else has.
-/
namespace Petri.NetFile
set_option autoImplicit false

/-! ## Arcs and their identifiers -/

/-- The arc is what the entry describes when it has this identifier. -/
inductive Entry.Describes (id : String) : Entry → Arc → Prop where
  | input {given : Option String} {source target : String} {attributes : List ArcAttribute} :
    Describes id (.input given source target attributes)
      (.input (attributes.foldl addInputAttribute
        { id := id, place := source, transition := target }))
  | output {given : Option String} {source target : String} {attributes : List ArcAttribute}
    {a : OutputArc}
    (hAttributes : attributes.foldlM addOutputAttribute
      { id := id, transition := source, place := target } = .ok a) :
    Describes id (.output given source target attributes) (.output a)

/-- These arcs come from the entries of arcs, in their order. An arc keeps the identifier that its
entry gives; another one is numbered by a search past the last number, around the identifiers that
are taken and those that are reserved. `made` lists the identifiers so made. -/
inductive Identified (reserved : List String) :
    List String → Nat → List Entry → List Arc → List String → Prop where
  | done {taken : List String} {n : Nat} : Identified reserved taken n [] [] []
  | given {taken made : List String} {n : Nat} {entry : Entry} {entries : List Entry} {a : Arc}
    {arcs : List Arc} {id : String} (hId : entry.arcId? = some id) (hArc : entry.Describes id a)
    (h : Identified reserved (taken ++ [id]) n entries arcs made) :
    Identified reserved taken n (entry :: entries) (a :: arcs) made
  | numbered {taken made : List String} {n m : Nat} {entry : Entry} {entries : List Entry} {a : Arc}
    {arcs : List Arc} {kind : ElementKind} (hId : entry.arcId? = none)
    (hKind : entry.arcKind? = some kind) (hSearch : Numbering.Search kind (taken ++ reserved) n m)
    (hArc : entry.Describes (Numbering.numbered kind m) a)
    (h : Identified reserved (taken ++ [Numbering.numbered kind m]) m entries arcs made) :
    Identified reserved taken n (entry :: entries) (a :: arcs) (Numbering.numbered kind m :: made)

section Describes
variable {entry : Entry} {id : String} {a : Arc}

theorem ends_foldl_inputAttributes (attributes : List ArcAttribute) (a : InputArc) :
    ((attributes.foldl addInputAttribute a).place, (attributes.foldl addInputAttribute a).transition) =
      (a.place, a.transition) := by
  refine foldl_keeps (fun b : InputArc => (b.place, b.transition)) ?_ attributes a
  intro b one
  cases one <;> rfl

theorem ends_of_outputAttributes {attributes : List ArcAttribute} {a b : OutputArc}
    (h : attributes.foldlM addOutputAttribute a = .ok b) :
    (b.place, b.transition) = (a.place, a.transition) := by
  refine foldlM_keeps (P := fun c : OutputArc => (c.place, c.transition) = (a.place, a.transition))
    ?_ rfl h
  intro one _ c d hc hd
  cases one <;> cases hd <;> exact hc

theorem exists_outputAttributes_iff (attributes : List ArcAttribute) (a : OutputArc) :
    (∃ b, attributes.foldlM addOutputAttribute a = .ok b) ↔
      ∀ text, .evaluate text ∉ attributes := by
  have hEach : (∃ b, attributes.foldlM addOutputAttribute a = .ok b) ↔
      ∀ one ∈ attributes, ∀ text, one ≠ .evaluate text := by
    refine exists_foldlM_iff (P := fun _ => True) ?_ (fun _ _ _ _ _ => trivial) attributes trivial
    intro b one _
    cases one <;> simp [addOutputAttribute]
  rw [hEach]
  constructor
  · exact fun h text hMem => h _ hMem text rfl
  · rintro h one hMem text rfl
    exact h text hMem

theorem Entry.Describes.id_eq (h : entry.Describes id a) : a.id = id := by
  cases h with
  | input => rw [Arc.id, id_foldl_inputAttributes]
  | output hAttributes => rw [Arc.id, id_of_outputAttributes hAttributes]

theorem Entry.Describes.ends (h : entry.Describes id a) :
    entry.ends? = some (a.place, a.transition) := by
  cases h with
  | @input _ source target attributes =>
    exact congrArg some (ends_foldl_inputAttributes attributes
      { id := id, place := source, transition := target }).symm
  | output hAttributes => exact congrArg some (ends_of_outputAttributes hAttributes).symm

theorem Entry.Describes.unique {b : Arc} (h : entry.Describes id a) (h' : entry.Describes id b) :
    a = b := by
  cases h with
  | input =>
    cases h'
    rfl
  | output hAttributes =>
    cases h' with
    | output hAttributes' =>
      rw [hAttributes] at hAttributes'
      cases hAttributes'
      rfl

theorem exists_describes (hArc : entry.isArc = true) (hPlain : entry.Plain) (id : String) :
    ∃ a, entry.Describes id a := by
  cases entry with
  | net | declarations | imports | implements | place | transition => cases hArc
  | input => exact ⟨_, .input⟩
  | output given source target attributes =>
    obtain ⟨a, hAttributes⟩ := (exists_outputAttributes_iff attributes
      { id := id, transition := source, place := target }).mpr hPlain
    exact ⟨.output a, .output hAttributes⟩

theorem Entry.Describes.plain (h : entry.Describes id a) : entry.Plain := by
  cases h with
  | input => trivial
  | output hAttributes => exact (exists_outputAttributes_iff _ _).mp ⟨_, hAttributes⟩

end Describes

namespace Identified
variable {reserved taken made : List String} {n : Nat} {entries : List Entry} {arcs : List Arc}

theorem unique {reserved' taken' made' : List String} {arcs' : List Arc}
    (hSame : ∀ id, id ∈ taken ++ reserved ↔ id ∈ taken' ++ reserved')
    (h : Identified reserved taken n entries arcs made)
    (h' : Identified reserved' taken' n entries arcs' made') : arcs = arcs' := by
  have hMore : ∀ {taken taken' : List String} (own : String),
      (∀ id, id ∈ taken ++ reserved ↔ id ∈ taken' ++ reserved') →
        ∀ id, id ∈ taken ++ [own] ++ reserved ↔ id ∈ taken' ++ [own] ++ reserved' := by
    intro taken taken' own hSame id
    have hId := hSame id
    simp only [List.mem_append] at hId ⊢
    tauto
  induction h generalizing taken' arcs' made' with
  | done =>
    cases h'
    rfl
  | given hId hArc _ ih =>
    cases h' with
    | given hId' hArc' hRest =>
      cases hId.symm.trans hId'
      rw [hArc.unique hArc', ih (hMore _ hSame) hRest]
    | numbered hId' => cases hId.symm.trans hId'
  | numbered hId hKind hSearch hArc _ ih =>
    cases h' with
    | given hId' => cases hId.symm.trans hId'
    | numbered _ hKind' hSearch' hArc' hRest =>
      cases hKind.symm.trans hKind'
      cases (hSearch.congr hSame).unique hSearch'
      rw [hArc.unique hArc', ih (hMore _ hSame) hRest]

theorem mem_taken_concat {id : String} (own : String) (h : id ∈ taken ++ reserved) :
    id ∈ taken ++ [own] ++ reserved := by
  rw [List.append_assoc]
  rcases List.mem_append.mp h with hTaken | hReserved
  · exact List.mem_append_left _ hTaken
  · exact List.mem_append_right _ (List.mem_append_right _ hReserved)

/-- Identifiers that are made up differ from each other and from all that are taken or reserved. -/
theorem fresh (h : Identified reserved taken n entries arcs made) :
    made.Nodup ∧ ∀ id ∈ made, id ∉ taken ++ reserved := by
  induction h with
  | done => exact ⟨.nil, List.forall_mem_nil _⟩
  | given _ _ _ ih =>
    obtain ⟨hNodup, hOthers⟩ := ih
    refine ⟨hNodup, ?_⟩
    intro id hId hMem
    exact hOthers id hId (mem_taken_concat _ hMem)
  | numbered _ _ hSearch _ _ ih =>
    obtain ⟨hNodup, hOthers⟩ := ih
    rw [List.forall_mem_cons, List.nodup_cons]
    refine ⟨⟨?_, hNodup⟩, hSearch.free, ?_⟩
    · intro hMem
      exact hOthers _ hMem (by simp)
    · intro id hId hMem
      exact hOthers id hId (mem_taken_concat _ hMem)

theorem ids_perm (h : Identified reserved taken n entries arcs made) :
    (arcs.map Arc.id).Perm (made ++ entries.filterMap Entry.arcId?) := by
  induction h with
  | done => exact .nil
  | given hId hArc _ ih =>
    rw [List.map_cons, hArc.id_eq, List.filterMap_cons_some hId]
    exact (ih.cons _).trans List.perm_middle.symm
  | numbered hId _ _ hArc _ ih =>
    rw [List.map_cons, hArc.id_eq, List.filterMap_cons_none hId]
    exact ih.cons _

theorem exists_arc (h : Identified reserved taken n entries arcs made) {entry : Entry}
    (hEntry : entry ∈ entries) : ∃ a ∈ arcs, ∃ id, entry.Describes id a := by
  induction h with
  | done => cases hEntry
  | given _ hArc _ ih =>
    rcases List.mem_cons.mp hEntry with rfl | hEntry
    · exact ⟨_, List.mem_cons_self, _, hArc⟩
    · obtain ⟨a, ha, hDescribes⟩ := ih hEntry
      exact ⟨a, List.mem_cons_of_mem _ ha, hDescribes⟩
  | numbered _ _ _ hArc _ ih =>
    rcases List.mem_cons.mp hEntry with rfl | hEntry
    · exact ⟨_, List.mem_cons_self, _, hArc⟩
    · obtain ⟨a, ha, hDescribes⟩ := ih hEntry
      exact ⟨a, List.mem_cons_of_mem _ ha, hDescribes⟩

end Identified

section SecondPass
variable {net after : Net} {reserved : List String} {entry : Entry} {kind : ElementKind}
  {id : String}

/-- Adds the arc of the entry with this identifier. -/
def addArcAs (net : Net) (id : String) : Entry → Except FileError Net
  | .input _ source target attributes =>
    constructed (net.addInput (attributes.foldl addInputAttribute
      { id := id, place := source, transition := target }))
  | .output _ source target attributes => do
    let a ← attributes.foldlM addOutputAttribute { id := id, transition := source, place := target }
    constructed (net.addOutput a)
  | _ => .ok net

theorem addArc_eq (hKind : entry.arcKind? = some kind) :
    addArc reserved net entry =
      addArcAs (arcId reserved net kind entry.arcId?).2 (arcId reserved net kind entry.arcId?).1
        entry := by
  cases entry <;> cases hKind <;> rfl

theorem addArcAs_eq_ok_iff (hArc : entry.isArc = true) :
    addArcAs net id entry = .ok after ↔
      ∃ a, entry.Describes id a ∧ id ∉ net.ids ∧ net.Joins a.place a.transition ∧
        after = { net with arcs := net.arcs ++ [a] } := by
  cases entry with
  | net | declarations | imports | implements | place | transition => cases hArc
  | input given source target attributes =>
    rw [addArcAs, constructed_eq_ok_iff, Net.addInput_eq_ok_iff]
    constructor
    · rintro ⟨hFresh, hPlace, hTransition, rfl⟩
      rw [id_foldl_inputAttributes] at hFresh
      exact ⟨_, .input, hFresh, ⟨hPlace, hTransition⟩, rfl⟩
    · rintro ⟨_, ⟨⟩, hFresh, ⟨hPlace, hTransition⟩, rfl⟩
      rw [id_foldl_inputAttributes]
      exact ⟨hFresh, hPlace, hTransition, rfl⟩
  | output given source target attributes =>
    rw [addArcAs, bind_eq_ok_iff]
    constructor
    · rintro ⟨a, hAttributes, hAdd⟩
      obtain ⟨hFresh, hTransition, hPlace, rfl⟩ :=
        Net.addOutput_eq_ok_iff.mp (constructed_eq_ok_iff.mp hAdd)
      rw [id_of_outputAttributes hAttributes] at hFresh
      exact ⟨_, .output hAttributes, hFresh, ⟨hPlace, hTransition⟩, rfl⟩
    · rintro ⟨a, hArc, hFresh, ⟨hPlace, hTransition⟩, rfl⟩
      cases hArc with | output hAttributes =>
      refine ⟨_, hAttributes, constructed_eq_ok_iff.mpr (Net.addOutput_eq_ok_iff.mpr ?_)⟩
      rw [id_of_outputAttributes hAttributes]
      exact ⟨hFresh, hTransition, hPlace, rfl⟩

theorem duplicateId_of_addArcAs {other : String}
    (h : addArcAs net id entry = .error (.construction (.duplicateId other))) :
    other = id ∧ id ∈ net.ids := by
  cases entry with
  | net | declarations | imports | implements | place | transition => cases h
  | input given source target attributes =>
    have hBoth := Net.duplicateId_of_addInput (constructed_eq_error_iff.mp h)
    rwa [id_foldl_inputAttributes] at hBoth
  | output given source target attributes =>
    rcases bind_eq_error_iff.mp h with hAttributes | ⟨a, hAttributes, hAdd⟩
    · obtain ⟨_, one, _, b, _, _, hError⟩ := exists_of_foldlM_eq_error hAttributes
      cases one <;> cases hError
    · have hBoth := Net.duplicateId_of_addOutput (constructed_eq_error_iff.mp hAdd)
      rwa [id_of_outputAttributes hAttributes] at hBoth

theorem addArc_eq_ok_iff (hKind : entry.arcKind? = some kind) :
    addArc reserved net entry = .ok after ↔
      ∃ a, entry.Describes (arcId reserved net kind entry.arcId?).1 a ∧
        (arcId reserved net kind entry.arcId?).1 ∉ net.ids ∧ net.Joins a.place a.transition ∧
        after = { net with
          arcs := net.arcs ++ [a]
          numbering := (arcId reserved net kind entry.arcId?).2.numbering } := by
  have hArc : entry.isArc = true := by rw [Entry.isArc, hKind, Option.isSome_some]
  rw [addArc_eq hKind, addArcAs_eq_ok_iff hArc]
  cases entry.arcId? <;> exact Iff.rfl

theorem free_of_arcId (net : Net) (reserved : List String) (kind : ElementKind) :
    (arcId reserved net kind none).1 ∉ net.ids ++ reserved :=
  (Numbering.search_next net.numbering kind (net.ids ++ reserved)).free

theorem identified_of_arcs {entries : List Entry} (hArcs : ∀ entry ∈ entries, entry.isArc = true)
    (h : entries.foldlM (addArc reserved) net = .ok after) :
    ∃ arcs made, Identified reserved net.ids net.numbering.last entries arcs made ∧
      after = { net with arcs := net.arcs ++ arcs, numbering := after.numbering } ∧
      ∀ a ∈ arcs, net.Joins a.place a.transition := by
  induction entries generalizing net with
  | nil =>
    cases h
    exact ⟨[], [], .done, by rw [List.append_nil], List.forall_mem_nil _⟩
  | cons entry entries ih =>
    rw [List.forall_mem_cons] at hArcs
    rw [List.foldlM_cons] at h
    obtain ⟨middle, hStep, hRest⟩ := bind_eq_ok_iff.mp h
    obtain ⟨kind, hKind⟩ := Option.isSome_iff_exists.mp hArcs.1
    obtain ⟨a, hArc, _, hJoins, rfl⟩ := (addArc_eq_ok_iff hKind).mp hStep
    obtain ⟨arcs, made, hIdentified, hAfter, hOthers⟩ := ih hArcs.2 hRest
    have hIds : ({ net with arcs := net.arcs ++ [a], numbering :=
        (arcId reserved net kind entry.arcId?).2.numbering } : Net).ids = net.ids ++ [a.id] := by
      simp [Net.ids]
    have hAll : after = { net with arcs := net.arcs ++ a :: arcs, numbering := after.numbering } := by
      rw [hAfter, List.append_assoc]
      rfl
    rw [hIds, hArc.id_eq] at hIdentified
    cases hId : entry.arcId? with
    | some id =>
      rw [hId] at hArc hIdentified
      exact ⟨a :: arcs, made, .given hId hArc hIdentified, hAll,
        List.forall_mem_cons.mpr ⟨hJoins, hOthers⟩⟩
    | none =>
      rw [hId] at hArc hIdentified
      exact ⟨a :: arcs, _, .numbered hId hKind (Numbering.search_next _ _ _) hArc hIdentified, hAll,
        List.forall_mem_cons.mpr ⟨hJoins, hOthers⟩⟩

theorem nodup_ids_of_arcs {entries : List Entry} (hNodup : net.ids.Nodup)
    (h : entries.foldlM (addArc reserved) net = .ok after) : after.ids.Nodup := by
  refine foldlM_keeps (P := fun net : Net => net.ids.Nodup) ?_ hNodup h
  intro entry _ net after hNodup hStep
  cases hKind : entry.arcKind? with
  | none =>
    cases entry <;> first | cases hStep | cases hKind
    all_goals exact hNodup
  | some kind =>
    obtain ⟨a, hArc, hFresh, _, rfl⟩ := (addArc_eq_ok_iff hKind).mp hStep
    refine (net.ids_addArc a).nodup_iff.mpr (List.nodup_cons.mpr ⟨?_, hNodup⟩)
    rwa [hArc.id_eq]

theorem exists_of_arcs {entries : List Entry} (hArcs : ∀ entry ∈ entries, entry.isArc = true)
    (hReserved : ∀ id ∈ entries.filterMap Entry.arcId?, id ∈ reserved)
    (hDistinct : (net.ids ++ entries.filterMap Entry.arcId?).Nodup)
    (hPlain : ∀ entry ∈ entries, entry.Plain)
    (hJoins : ∀ entry ∈ entries, ∀ ends ∈ entry.ends?, net.Joins ends.1 ends.2) :
    ∃ after, entries.foldlM (addArc reserved) net = .ok after := by
  induction entries generalizing net with
  | nil => exact ⟨net, rfl⟩
  | cons entry entries ih =>
    rw [List.forall_mem_cons] at hArcs hPlain hJoins
    obtain ⟨kind, hKind⟩ := Option.isSome_iff_exists.mp hArcs.1
    obtain ⟨a, hArc⟩ := exists_describes hArcs.1 hPlain.1 (arcId reserved net kind entry.arcId?).1
    have hNew : (arcId reserved net kind entry.arcId?).1 ∉ net.ids ∧
        (a.id :: net.ids ++ entries.filterMap Entry.arcId?).Nodup ∧
        ∀ id ∈ entries.filterMap Entry.arcId?, id ∈ reserved := by
      rw [hArc.id_eq]
      cases hId : entry.arcId? with
      | some id =>
        rw [List.filterMap_cons_some hId] at hDistinct hReserved
        exact ⟨not_mem_of_nodup hDistinct, nodup_move (.refl _) hDistinct,
          (List.forall_mem_cons.mp hReserved).2⟩
      | none =>
        rw [List.filterMap_cons_none hId] at hDistinct hReserved
        have hFree := free_of_arcId net reserved kind
        rw [List.mem_append, not_or] at hFree
        refine ⟨hFree.1, List.nodup_cons.mpr ⟨?_, hDistinct⟩, hReserved⟩
        intro hMem
        rcases List.mem_append.mp hMem with hMem | hMem
        · exact hFree.1 hMem
        · exact hFree.2 (hReserved _ hMem)
    have hStep := (addArc_eq_ok_iff hKind).mpr
      ⟨a, hArc, hNew.1, hJoins.1 _ hArc.ends, rfl⟩
    obtain ⟨after, hAfter⟩ : ∃ after, entries.foldlM (addArc reserved) { net with
        arcs := net.arcs ++ [a]
        numbering := (arcId reserved net kind entry.arcId?).2.numbering } = .ok after :=
      ih hArcs.2 hNew.2.2 (((net.ids_addArc a).append_right _).nodup_iff.mpr hNew.2.1)
        hPlain.2 hJoins.2
    refine ⟨after, ?_⟩
    rw [List.foldlM_cons, hStep]
    exact hAfter

theorem two_le_count_of_arcs {entries : List Entry}
    (hArcs : ∀ entry ∈ entries, entry.isArc = true)
    (hReserved : ∀ id ∈ entries.filterMap Entry.arcId?, id ∈ reserved)
    (h : entries.foldlM (addArc reserved) net = .error (.construction (.duplicateId id))) :
    2 ≤ (net.ids ++ entries.filterMap Entry.arcId?).count id := by
  obtain ⟨done, entry, rest, middle, rfl, hDone, hError⟩ := exists_of_foldlM_eq_error h
  rw [List.forall_mem_append, List.forall_mem_cons] at hArcs
  rw [List.filterMap_append, List.forall_mem_append] at hReserved
  obtain ⟨kind, hKind⟩ := Option.isSome_iff_exists.mp hArcs.2.1
  obtain ⟨arcs, made, hIdentified, hMiddle, _⟩ := identified_of_arcs hArcs.1 hDone
  rw [addArc_eq hKind] at hError
  obtain ⟨rfl, hMem⟩ := duplicateId_of_addArcAs hError
  cases hId : entry.arcId? with
  | none =>
    rw [hId] at hMem
    exact absurd (List.mem_append_left reserved hMem) (free_of_arcId middle reserved kind)
  | some own =>
    rw [hId] at hMem
    rw [List.filterMap_cons_some hId, List.forall_mem_cons] at hReserved
    rw [List.filterMap_append, List.filterMap_cons_some hId, ← List.append_assoc]
    refine two_le_count_append ?_
    have hIds : middle.ids = net.ids ++ arcs.map Arc.id := by
      rw [hMiddle]
      simp [Net.ids]
    change own ∈ middle.ids at hMem
    rw [hIds, List.mem_append, hIdentified.ids_perm.mem_iff, List.mem_append] at hMem
    rcases hMem with hMem | hMade | hMem
    · exact List.mem_append_left _ hMem
    · -- a made-up identifier is not reserved, an explicit one is
      exact absurd (List.mem_append_right _ hReserved.2.1) (hIdentified.fresh.2 _ hMade)
    · exact List.mem_append_right _ hMem

end SecondPass

end Petri.NetFile
