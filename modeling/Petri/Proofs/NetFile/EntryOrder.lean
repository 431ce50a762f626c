import Petri.Proofs.NetFile.Acceptance

/-! # The order of entries

Only the order among the entries of places, among those of transitions and among those of arcs
matters, and which entry comes last among those that name the net or set one of its texts. Files that
agree on this are read as the same net, or none of them is read.
-/
namespace Petri.NetFile
set_option autoImplicit false

/-- What an entry is about. Places, transitions and arcs are kept apart, for the order of a net is
the order among the elements of one kind. -/
inductive Topic where
  | net | declarations | imports | implements | place | transition | arc
  deriving DecidableEq

def Entry.topic : Entry → Topic
  | .net .. => .net
  | .declarations _ => .declarations
  | .imports _ => .imports
  | .implements _ => .implements
  | .place .. => .place
  | .transition .. => .transition
  | .input .. | .output .. => .arc

/-- The entries about this topic, in their order. -/
def about (topic : Topic) (entries : List Entry) : List Entry :=
  entries.filter fun entry => entry.topic == topic

/-- The lists agree on all that matters, however their entries are interleaved. -/
structure Interleaved (entries entries' : List Entry) : Prop where
  net : (about .net entries).getLast? = (about .net entries').getLast?
  declarations : (about .declarations entries).getLast? = (about .declarations entries').getLast?
  imports : (about .imports entries).getLast? = (about .imports entries').getLast?
  implements : (about .implements entries).getLast? = (about .implements entries').getLast?
  places : about .place entries = about .place entries'
  transitions : about .transition entries = about .transition entries'
  arcs : about .arc entries = about .arc entries'

variable {entries entries' : List Entry} {entry : Entry} {topic : Topic}

theorem mem_about_iff : entry ∈ about topic entries ↔ entry ∈ entries ∧ entry.topic = topic := by
  rw [about, List.mem_filter, beq_iff_eq]

theorem filterMap_about {α : Type} {f : Entry → Option α}
    (hOther : ∀ entry : Entry, entry.topic ≠ topic → f entry = none) :
    (about topic entries).filterMap f = entries.filterMap f := by
  rw [about, List.filterMap_filter]
  congr 1
  funext entry
  split
  · rfl
  · rename_i hTopic
    exact (hOther entry fun h => hTopic (beq_iff_eq.mpr h)).symm

theorem about_arc (entries : List Entry) : about .arc entries = entries.filter Entry.isArc := by
  rw [about]
  congr 1
  funext entry
  cases entry <;> rfl

theorem nodeId?_perm (entries : List Entry) :
    (entries.filterMap Entry.nodeId?).Perm
      ((about .place entries).filterMap Entry.nodeId? ++
        (about .transition entries).filterMap Entry.nodeId?) := by
  induction entries with
  | nil => exact .nil
  | cons entry entries ih =>
    cases entry with
    | net | declarations | imports | implements | input | output => exact ih
    | place id => exact ih.cons id
    | transition id => exact (ih.cons id).trans List.perm_middle.symm

/-- What a net says about a topic that is not a kind of elements. -/
def said (net : Net) : Topic → String × Option String
  | .net => (net.id, net.label)
  | .declarations => (net.declarations, none)
  | .imports => (net.imports, none)
  | .implements => (net.implements, none)
  | .place | .transition | .arc => ("", none)

theorem said_describe_of_ne (net : Net) (hTopic : entry.topic ≠ topic) :
    said (describe net entry) topic = said net topic := by
  cases entry <;> cases topic <;> first | rfl | exact absurd rfl hTopic

theorem said_describe (net net' : Net) (entry : Entry) :
    said (describe net entry) entry.topic = said (describe net' entry) entry.topic := by
  cases entry <;> rfl

theorem said_foldl_describe (net : Net) (topic : Topic) (entries : List Entry) :
    said (entries.foldl describe net) topic =
      match (about topic entries).getLast? with
      | some entry => said (describe net entry) topic
      | none => said net topic := by
  -- the last entry is the one that counts, so the induction takes entries from the end
  induction entries using List.reverseRecOn with
  | nil => rfl
  | append_singleton entries entry ih =>
    rw [List.foldl_append, List.foldl_cons, List.foldl_nil]
    by_cases hTopic : entry.topic = topic
    · have hAbout : about topic (entries ++ [entry]) = about topic entries ++ [entry] := by
        simp [about, hTopic]
      rw [hAbout, List.getLast?_concat, ← hTopic]
      exact said_describe _ _ entry
    · have hAbout : about topic (entries ++ [entry]) = about topic entries := by
        simp [about, hTopic]
      rw [hAbout, said_describe_of_ne _ hTopic, ih]

theorem said_nodesOf_eq (ev : Evaluator Id)
    (hLast : (about topic entries).getLast? = (about topic entries').getLast?) :
    said (nodesOf ev entries) topic = said (nodesOf ev entries') topic := by
  have hSaid : ∀ entries, said (nodesOf ev entries) topic =
      said (entries.foldl describe { id := defaultName }) topic := by
    intro entries
    cases topic <;> rfl
  rw [hSaid, hSaid, said_foldl_describe, said_foldl_describe, hLast]

namespace Interleaved
variable (ev : Evaluator Id) (h : Interleaved entries entries')

include h

theorem symm : Interleaved entries' entries where
  net := h.net.symm
  declarations := h.declarations.symm
  imports := h.imports.symm
  implements := h.implements.symm
  places := h.places.symm
  transitions := h.transitions.symm
  arcs := h.arcs.symm

theorem mem (hTopic : entry.topic = .place ∨ entry.topic = .transition ∨ entry.topic = .arc)
    (hEntry : entry ∈ entries) : entry ∈ entries' := by
  rcases hTopic with hTopic | hTopic | hTopic
  · exact (mem_about_iff.mp (h.places ▸ mem_about_iff.mpr ⟨hEntry, hTopic⟩)).1
  · exact (mem_about_iff.mp (h.transitions ▸ mem_about_iff.mpr ⟨hEntry, hTopic⟩)).1
  · exact (mem_about_iff.mp (h.arcs ▸ mem_about_iff.mpr ⟨hEntry, hTopic⟩)).1

theorem nodeIds : (entries.filterMap Entry.nodeId?).Perm (entries'.filterMap Entry.nodeId?) := by
  refine (nodeId?_perm entries).trans ?_
  rw [h.places, h.transitions]
  exact (nodeId?_perm entries').symm

theorem arcIds : entries.filterMap Entry.arcId? = entries'.filterMap Entry.arcId? := by
  rw [← arcId?_filter_isArc, ← about_arc, h.arcs, about_arc, arcId?_filter_isArc]

theorem ids : (entries.filterMap Entry.id?).Perm (entries'.filterMap Entry.id?) := by
  refine (id?_perm entries).trans (.trans ?_ (id?_perm entries').symm)
  rw [h.arcIds]
  exact h.nodeIds.append_right _

theorem acceptable (hAcceptable : Acceptable ev entries) : Acceptable ev entries' where
  evaluates entry hEntry := by
    cases entry with
    | net | declarations | imports | implements | transition | input | output => trivial
    | place id attributes => exact hAcceptable.evaluates _ (h.symm.mem (.inl rfl) hEntry)
  distinct := h.ids.nodup_iff.mp hAcceptable.distinct
  joins entry hEntry ends hEnds := by
    have hArc : entry.topic = .arc := by
      cases entry <;> first | rfl | cases hEnds
    obtain ⟨⟨attributes, hPlace⟩, attributes', hTransition⟩ :=
      hAcceptable.joins entry (h.symm.mem (.inr (.inr hArc)) hEntry) ends hEnds
    exact ⟨⟨attributes, h.mem (.inl rfl) hPlace⟩, attributes', h.mem (.inr (.inl rfl)) hTransition⟩
  plain entry hEntry := by
    cases entry with
    | net | declarations | imports | implements | place | transition | input => trivial
    | output => exact hAcceptable.plain _ (h.symm.mem (.inr (.inr rfl)) hEntry)

theorem places_eq : (nodesOf ev entries).places = (nodesOf ev entries').places := by
  have hOther : ∀ entry : Entry, entry.topic ≠ .place → (entry.node? ev).bind Node.place? = none := by
    intro entry hTopic
    cases entry <;> first | rfl | exact absurd rfl hTopic
  have hPlaces : ∀ entries, (nodesOf ev entries).places =
      (about .place entries).filterMap fun entry => (entry.node? ev).bind Node.place? := by
    intro entries
    rw [filterMap_about hOther]
    exact List.filterMap_filterMap
  rw [hPlaces, hPlaces, h.places]

theorem transitions_eq : (nodesOf ev entries).transitions = (nodesOf ev entries').transitions := by
  have hOther : ∀ entry : Entry, entry.topic ≠ .transition →
      (entry.node? ev).bind Node.transition? = none := by
    intro entry hTopic
    cases entry with
    | net | declarations | imports | implements | input | output => rfl
    | transition => exact absurd rfl hTopic
    | place id attributes =>
      cases hPlace : attributes.foldlM (addPlaceAttribute ev) { id := id } <;>
        simp [Entry.node?, hPlace, Except.toOption, Node.transition?]
  have hTransitions : ∀ entries, (nodesOf ev entries).transitions =
      (about .transition entries).filterMap fun entry => (entry.node? ev).bind Node.transition? := by
    intro entries
    rw [filterMap_about hOther]
    exact List.filterMap_filterMap
  rw [hTransitions, hTransitions, h.transitions]

end Interleaved

/-- Entries may be interleaved as one likes: the net is the same. -/
theorem netOf_order_immaterial (ev : Evaluator Id) {entries entries' : List Entry}
    (h : Interleaved entries entries') :
    ((∃ net, netOf ev entries = .ok net) ↔ ∃ net, netOf ev entries' = .ok net) ∧
      ∀ net net', netOf ev entries = .ok net → netOf ev entries' = .ok net' →
        (net.id, net.label) = (net'.id, net'.label) ∧ net.declarations = net'.declarations ∧
          net.imports = net'.imports ∧ net.implements = net'.implements ∧
          net.places = net'.places ∧ net.transitions = net'.transitions ∧ net.arcs = net'.arcs := by
  constructor
  · constructor
    · rintro ⟨net, hNet⟩
      exact exists_netOf ev (h.acceptable ev (acceptable_of_netOf ev hNet))
    · rintro ⟨net, hNet⟩
      exact exists_netOf ev (h.symm.acceptable ev (acceptable_of_netOf ev hNet))
  · intro net net' hNet hNet'
    obtain ⟨made, hArcs, hEq, _⟩ := identified_of_netOf ev hNet
    obtain ⟨made', hArcs', hEq', _⟩ := identified_of_netOf ev hNet'
    rw [← about_arc] at hArcs hArcs'
    rw [h.arcs] at hArcs
    have hSame : net.arcs = net'.arcs := by
      refine hArcs.unique ?_ hArcs'
      intro id
      rw [List.mem_append, List.mem_append, h.nodeIds.mem_iff, h.arcIds]
    rw [hEq, hEq']
    exact ⟨said_nodesOf_eq ev h.net, congrArg Prod.fst (said_nodesOf_eq ev h.declarations),
      congrArg Prod.fst (said_nodesOf_eq ev h.imports), congrArg Prod.fst (said_nodesOf_eq ev h.implements),
      h.places_eq ev, h.transitions_eq ev, hSame⟩

/-- The entries of `crossing` under a name that is given twice, and in another order. -/
def crossingNamed : List Entry :=
  .net "draft" none :: crossing ++ [.imports "rates", .net "shop" (some "Shop")]

def crossingSorted : List Entry :=
  [.net "shop" (some "Shop"), .imports "rates", .transition "serve" [], .place "queue" [],
    .input none "queue" "serve" [], .output (some "i1") "serve" "queue" []]

theorem netOf_order_immaterial_crossing :
    Interleaved crossingNamed crossingSorted ∧
      ∃ net net', netOf interpreter crossingNamed = .ok net ∧
        netOf interpreter crossingSorted = .ok net' ∧ net.nodes ≠ net'.nodes ∧
        net.arcs = net'.arcs ∧ net.id = "shop" ∧ net'.id = "shop" := by
  have hInterleaved : Interleaved crossingNamed crossingSorted :=
    ⟨by decide, by decide, by decide, by decide, by decide, by decide, by decide⟩
  obtain ⟨net, hNet, hId, hFirst⟩ : ∃ net, netOf interpreter crossingNamed = .ok net ∧
      net.id = "shop" ∧ net.nodes.head?.map Node.id = some "queue" := ⟨_, by rfl, by decide⟩
  obtain ⟨net', hNet', hFirst'⟩ : ∃ net, netOf interpreter crossingSorted = .ok net ∧
      net.nodes.head?.map Node.id = some "serve" := ⟨_, by rfl, by decide⟩
  obtain ⟨hSame, _, _, _, _, _, hArcs⟩ :=
    (netOf_order_immaterial interpreter hInterleaved).2 net net' hNet hNet'
  refine ⟨hInterleaved, net, net', hNet, hNet', ?_, hArcs, hId, ?_⟩
  · intro hNodes
    rw [hNodes, hFirst'] at hFirst
    exact absurd hFirst (by decide)
  · rw [← hId]
    exact (congrArg Prod.fst hSame).symm

end Petri.NetFile
