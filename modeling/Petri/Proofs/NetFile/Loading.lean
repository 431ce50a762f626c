import Petri.Proofs.Net.Textless
import Petri.Proofs.NetFile.Accepted
import Petri.Proofs.NetFile.RoundTrip

/-! # Nets that come from files

A net that a file describes can be written to a file: its identifiers are names, its capacities are
in range, and the texts of its tokens make them.
-/
namespace Petri.NetFile
open Text
set_option autoImplicit false

/-- The net can be written; only tokens without a text may be lost. -/
structure Storable (net : Net) : Prop where
  wellFormed : net.WellFormed
  named : Named net
  capacity : ∀ p ∈ net.places, p.capacity < capacityLimit
  faithful : ∀ p ∈ net.places, ∀ t ∈ p.tokens, t.Faithful p.id

/-! ## Tokens -/

theorem faithful_of_text_eq_none {place : String} {t : Token} (h : t.text = none) :
    t.Faithful place := fun _ hText => nomatch h.symm.trans hText

theorem faithful_of_initialTokens {place text : String} {made : TokenBag}
    (h : initialTokens interpreter place text = .ok made) : ∀ t ∈ made, t.Faithful place := by
  unfold initialTokens at h
  split at h
  · cases h
  · rename_i u hMade
    cases h
    intro t ht
    cases List.mem_singleton.mp ht
    intro own hOwn
    cases hOwn
    exact ⟨u, hMade, rfl, rfl⟩
  · rename_i hMade
    cases h
    exact fun t ht => faithful_of_text_eq_none (Interpreter.text_of_execute hMade t ht)

/-! ## Adding what entries describe -/

theorem constructed_eq_ok_iff {α : Type} {x : Except ConstructionError α} {a : α} :
    constructed x = .ok a ↔ x = .ok a := by
  cases x <;> simp [constructed]

theorem constructed_eq_error_iff {α : Type} {x : Except ConstructionError α}
    {cause : ConstructionError} :
    constructed x = .error (.construction cause) ↔ x = .error cause := by
  cases x <;> simp [constructed]

/-- What holds of a place while its attributes are added. -/
structure StorablePlace (name : String) (p : Place) : Prop where
  id : p.id = name
  capacity : p.capacity < capacityLimit
  faithful : ∀ t ∈ p.tokens, t.Faithful name

theorem StorablePlace.addAttribute {name : String} {p q : Place} {a : PlaceAttribute}
    (hp : StorablePlace name p) (ha : a.InRange)
    (h : addPlaceAttribute interpreter p a = .ok q) : StorablePlace name q := by
  cases a with
  | label text =>
    cases h
    exact ⟨hp.id, hp.capacity, hp.faithful⟩
  | capacity n =>
    cases h
    exact ⟨hp.id, ha, hp.faithful⟩
  | tokens inscriptions =>
    obtain ⟨made, hMade, hq⟩ := bind_eq_ok_iff.mp h
    cases hq
    refine ⟨hp.id, hp.capacity, fun t ht => ?_⟩
    rcases List.mem_append.mp ht with ht | ht
    · exact hp.faithful t ht
    · obtain ⟨bag, hBag, ht⟩ := List.mem_flatten.mp ht
      obtain ⟨text, _, hText⟩ := exists_of_mem_mapM hMade hBag
      exact hp.id ▸ faithful_of_initialTokens hText t ht

theorem id_foldl_transitionAttributes (attributes : List TransitionAttribute) (t : Transition) :
    (attributes.foldl addTransitionAttribute t).id = t.id := by
  refine foldl_keeps Transition.id (fun t one => ?_) attributes t
  cases one <;> rfl

theorem id_foldl_inputAttributes (attributes : List ArcAttribute) (a : InputArc) :
    (attributes.foldl addInputAttribute a).id = a.id := by
  refine foldl_keeps InputArc.id (fun a one => ?_) attributes a
  cases one <;> rfl

theorem id_of_outputAttributes {attributes : List ArcAttribute} {a b : OutputArc}
    (h : attributes.foldlM addOutputAttribute a = .ok b) : b.id = a.id := by
  refine foldlM_keeps (P := fun c : OutputArc => c.id = a.id) (fun one _ c d hc hd => ?_) rfl h
  cases one <;> cases hd <;> exact hc

/-! ## Made-up identifiers -/

theorem isName_numbered {kind : ElementKind} (hKind : kind = .inputArc ∨ kind = .outputArc)
    (n : Nat) : IsName (Numbering.numbered kind n) := by
  obtain ⟨c, cs, hDigits, hDigit, hAll⟩ := exists_digits n
  have hPart : ∀ d ∈ (toString n).toList, Terminal.isNamePart d = true := fun d hd =>
    isNamePart_of_isDigit (isDigit_of_mem_toString hd)
  refine ⟨?_, fun k hk => ?_⟩
  · rcases hKind with rfl | rfl <;> rw [Numbering.numbered, String.toList_append] <;>
      exact ⟨by decide, hPart⟩
  · -- keywords have no digits
    have hPlain : (k.spelling.toList.all fun d => !d.isDigit) = true := by cases k <;> decide
    have hMem : c ∈ k.spelling.toList := by
      rw [← hk, Numbering.numbered, String.toList_append, hDigits]
      exact List.mem_append_right _ List.mem_cons_self
    have hOff := List.all_eq_true.mp hPlain c hMem
    rw [hDigit] at hOff
    cases hOff

namespace Storable
variable {net after : Net}

theorem empty : Storable { id := defaultName } where
  wellFormed := Net.wellFormed_empty defaultName
  named := ⟨by decide, fun _ hId => nomatch hId⟩
  capacity _ hp := nomatch hp
  faithful _ hp := nomatch hp

/-- Only the elements and the name matter. -/
theorem describe (h : Storable net) {id : String} (hId : IsName id) (label : Option String)
    (declarations imports implements : String) :
    Storable { net with
      id := id, label := label, declarations := declarations, imports := imports
      implements := implements } where
  wellFormed := h.wellFormed.change (.describe net id label declarations imports implements)
  named := ⟨hId, h.named.ids⟩
  capacity := h.capacity
  faithful := h.faithful

theorem addPlace (h : Storable net) {p : Place} (hName : IsName p.id)
    (hPlace : StorablePlace p.id p) (hAdd : net.addPlace p = .ok after) : Storable after := by
  have hWell := h.wellFormed.change (.addPlace p hAdd)
  obtain ⟨_, rfl⟩ := Net.addPlace_eq_ok_iff.mp hAdd
  have hPlaces : ({ net with nodes := net.nodes ++ [.place p] } : Net).places = net.places ++ [p] :=
    List.filterMap_append
  refine ⟨hWell, ⟨h.named.id, fun id hId => ?_⟩, ?_, ?_⟩
  · rcases List.mem_cons.mp ((net.ids_addNode (.place p)).mem_iff.mp hId) with rfl | hId
    · exact hName
    · exact h.named.ids id hId
  · rw [hPlaces, List.forall_mem_append, List.forall_mem_singleton]
    exact ⟨h.capacity, hPlace.capacity⟩
  · rw [hPlaces, List.forall_mem_append, List.forall_mem_singleton]
    exact ⟨h.faithful, hPlace.faithful⟩

theorem addTransition (h : Storable net) {t : Transition} (hName : IsName t.id)
    (hAdd : net.addTransition t = .ok after) : Storable after := by
  have hWell := h.wellFormed.change (.addTransition t hAdd)
  obtain ⟨_, rfl⟩ := Net.addTransition_eq_ok_iff.mp hAdd
  have hPlaces :
      ({ net with nodes := net.nodes ++ [.transition t] } : Net).places = net.places := by
    simp [Net.places, Node.place?]
  refine ⟨hWell, ⟨h.named.id, fun id hId => ?_⟩, hPlaces ▸ h.capacity, hPlaces ▸ h.faithful⟩
  rcases List.mem_cons.mp ((net.ids_addNode (.transition t)).mem_iff.mp hId) with rfl | hId
  · exact hName
  · exact h.named.ids id hId

theorem addArc (h : Storable net) {a : Arc} (hName : IsName a.id)
    (hWell : ({ net with arcs := net.arcs ++ [a] } : Net).WellFormed) :
    Storable { net with arcs := net.arcs ++ [a] } where
  wellFormed := hWell
  named := by
    refine ⟨h.named.id, fun id hId => ?_⟩
    rcases List.mem_cons.mp ((net.ids_addArc a).mem_iff.mp hId) with rfl | hId
    · exact hName
    · exact h.named.ids id hId
  capacity := h.capacity
  faithful := h.faithful

theorem addNode {entry : Entry} (hEntry : entry.Proper) (h : Storable net)
    (hAdd : NetFile.addNode interpreter net entry = .ok after) : Storable after := by
  cases entry with
  | net id label =>
    cases hAdd
    exact h.describe hEntry label _ _ _
  | declarations text =>
    cases hAdd
    exact h.describe h.named.id _ text _ _
  | imports text =>
    cases hAdd
    exact h.describe h.named.id _ _ text _
  | implements text =>
    cases hAdd
    exact h.describe h.named.id _ _ _ text
  | place id attributes =>
    obtain ⟨p, hAttributes, hAdded⟩ := bind_eq_ok_iff.mp hAdd
    have hLimit : 0 < capacityLimit := by decide
    have hStart : StorablePlace id { id := id } := ⟨rfl, hLimit, fun _ ht => nomatch ht⟩
    have hPlace : StorablePlace id p :=
      foldlM_keeps (fun a ha _ _ hp hq => hp.addAttribute (hEntry.2 a ha) hq) hStart hAttributes
    obtain rfl := hPlace.id
    exact h.addPlace hEntry.1 hPlace (constructed_eq_ok_iff.mp hAdded)
  | transition id attributes =>
    refine h.addTransition ?_ (constructed_eq_ok_iff.mp hAdd)
    rw [id_foldl_transitionAttributes]
    exact hEntry
  | input | output =>
    cases hAdd
    exact h

theorem drawId (h : Storable net) (kind : ElementKind) (reserved : List String) :
    Storable (net.freshId kind reserved).2 where
  wellFormed := h.wellFormed.change (.drawId net kind reserved)
  named := ⟨h.named.id, h.named.ids⟩
  capacity := h.capacity
  faithful := h.faithful

theorem arcId (h : Storable net) {kind : ElementKind}
    (hKind : kind = .inputArc ∨ kind = .outputArc) {id : Option String} (hId : ∀ i ∈ id, IsName i)
    (reserved : List String) :
    IsName (NetFile.arcId reserved net kind id).1 ∧
      Storable (NetFile.arcId reserved net kind id).2 := by
  cases id with
  | some id => exact ⟨hId id rfl, h⟩
  | none => exact ⟨isName_numbered hKind _, h.drawId kind reserved⟩

theorem addArcEntry {entry : Entry} (hEntry : entry.Proper) (h : Storable net)
    {reserved : List String} (hAdd : NetFile.addArc reserved net entry = .ok after) :
    Storable after := by
  cases entry with
  | input id place transition attributes =>
    obtain ⟨hName, hStorable⟩ := h.arcId (.inl rfl) hEntry reserved
    have hAdded := constructed_eq_ok_iff.mp hAdd
    have hWell := hStorable.wellFormed.change (.addInput _ hAdded)
    obtain ⟨_, _, _, rfl⟩ := Net.addInput_eq_ok_iff.mp hAdded
    refine hStorable.addArc ?_ hWell
    rw [Arc.id, id_foldl_inputAttributes]
    exact hName
  | output id transition place attributes =>
    obtain ⟨hName, hStorable⟩ := h.arcId (.inr rfl) hEntry reserved
    obtain ⟨a, hAttributes, hAdd⟩ := bind_eq_ok_iff.mp hAdd
    have hAdded := constructed_eq_ok_iff.mp hAdd
    have hWell := hStorable.wellFormed.change (.addOutput _ hAdded)
    obtain ⟨_, _, _, rfl⟩ := Net.addOutput_eq_ok_iff.mp hAdded
    refine hStorable.addArc ?_ hWell
    rw [Arc.id, id_of_outputAttributes hAttributes]
    exact hName
  | _ =>
    cases hAdd
    exact h

end Storable

/-- Every net that a file describes can be written to a file. -/
theorem storable_of_parse {text : String} {net : Net} (h : parse interpreter text = .ok net) :
    Storable net := by
  unfold parse at h
  split at h
  · cases h
  · rename_i entries hEntries
    have hProper := proper_of_entriesOf hEntries
    obtain ⟨nodes, hNodes, hArcs⟩ := bind_eq_ok_iff.mp h
    have hStorable : Storable nodes :=
      foldlM_keeps (fun entry hEntry _ _ hb hc => hb.addNode (hProper entry hEntry) hc)
        Storable.empty hNodes
    exact foldlM_keeps (fun entry hEntry _ _ hb hc => hb.addArcEntry (hProper entry hEntry) hc)
      hStorable hArcs

end Petri.NetFile
