import Petri.Proofs.NetFile.Reading

/-! # Entries that are accepted

Whatever text is read, its entries have identifiers that can be written and capacities in range.
-/
namespace Petri.NetFile
open Text
set_option autoImplicit false

/-! ## Lexemes -/

/-- If the terminal is a name, it can be written. -/
def Terminal.Proper (t : Terminal) : Prop := ∀ word, t = .name word → IsName (String.ofList word)

theorem Terminal.proper_ofWord {word : List Char} (hWord : IsWord word) :
    (Terminal.ofWord word).Proper := by
  intro name hName
  unfold Terminal.ofWord at hName
  split at hName
  · cases hName
  · rename_i hKeyword
    cases hName
    refine ⟨by rwa [String.toList_ofList], fun k hk => ?_⟩
    have hNone := List.find?_eq_none.mp hKeyword k k.mem_all
    rw [← hk, String.toList_ofList] at hNone
    exact hNone (beq_self_eq_true _)

theorem Terminal.proper_of_read {cs : List Char} {t : Terminal} (h : Terminal.read cs = some t) :
    t.Proper := by
  cases cs with
  | nil => cases h
  | cons c cs =>
    by_cases hDigit : c.isDigit = true
    · rw [Terminal.read_of_isDigit hDigit] at h
      cases h
      exact fun word hWord => nomatch hWord
    · by_cases hStart : isWordStart c = true
      · rw [Terminal.read_of_isWordStart hStart] at h
        cases h
        exact Terminal.proper_ofWord ⟨hStart, List.all_eq_true.mp List.all_takeWhile⟩
      · intro word hWord
        subst hWord
        unfold Terminal.read at h
        dsimp only at h
        split at h <;> simp_all

def Proper (ls : Lexemes) : Prop := ∀ l ∈ ls, l.terminal.Proper

theorem proper_scan (cs : List Char) : Proper (lexicon.scan cs).lexemes := by
  intro l hl
  obtain ⟨rest, hRead⟩ := Lexicon.read_of_mem_scanFrom hl
  exact Terminal.proper_of_read hRead

/-! ## Entries -/

/-- The identifiers that the entry gives can be written, and its capacities are in range. -/
def Entry.Proper : Entry → Prop
  | .net id _ => IsName id
  | .place id attributes => IsName id ∧ ∀ a ∈ attributes, a.InRange
  | .transition id _ => IsName id
  | .input id .. => ∀ i ∈ id, IsName i
  | .output id .. => ∀ i ∈ id, IsName i
  | _ => True

theorem DerivesPlaceAttribute.inRange {ts : List Terminal} {a : PlaceAttribute}
    (h : DerivesPlaceAttribute ts a) : a.InRange := by
  cases h with
  | capacity hRange => exact hRange
  | label | tokens => trivial

theorem DerivesAll.forall_mem {α : Type} {D : List Terminal → α → Prop} {P : α → Prop}
    {ts : List Terminal} {as : List α} (h : DerivesAll D ts as)
    (hOne : ∀ {us a}, (∀ t ∈ us, t ∈ ts) → D us a → P a) : ∀ a ∈ as, P a := by
  induction h with
  | nil => exact List.forall_mem_nil _
  | cons hD _ ih =>
    refine List.forall_mem_cons.mpr ⟨hOne (fun t ht => List.mem_append_left _ ht) hD, ih ?_⟩
    exact fun hMem => hOne fun t ht => List.mem_append_right _ (hMem t ht)

theorem DerivesEnds.isName {ts : List Terminal} {ends : Option String × String × String}
    (h : DerivesEnds ts ends) (hProper : ∀ t ∈ ts, t.Proper) : ∀ id ∈ ends.1, IsName id := by
  cases h with
  | named =>
    rintro id ⟨⟩
    exact hProper _ List.mem_cons_self _ rfl
  | unnamed => exact nofun

theorem DerivesEntry.proper {ts : List Terminal} {entry : Entry} (h : DerivesEntry ts entry)
    (hProper : ∀ t ∈ ts, t.Proper) : entry.Proper := by
  cases h with
  | net | transition => exact hProper _ (by simp) _ rfl
  | place hAll => exact ⟨hProper _ (by simp) _ rfl, hAll.forall_mem fun _ hOne => hOne.inRange⟩
  | input hEnds | output hEnds => exact hEnds.isName fun t ht => hProper t (by simp [ht])
  | _ => trivial

theorem proper_of_entriesOf {text : String} {entries : List Entry}
    (h : entriesOf text = .ok entries) : ∀ entry ∈ entries, entry.Proper := by
  have hDerives := (readEntries_eq_ok_iff.mp h).2
  refine hDerives.forall_mem fun hMem hEntry => hEntry.proper fun t ht => ?_
  obtain ⟨l, hl, rfl⟩ := List.mem_map.mp (hMem t ht)
  exact proper_scan _ l hl

end Petri.NetFile
