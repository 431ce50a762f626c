import Petri.Proofs.NetFile.Entries
import Petri.Proofs.NetFile.Parsing

/-! # Entries read back

The grammar derives an entry from its terminals when its capacities are in range. So reading a
printed net gives its entries.
-/
namespace Petri.NetFile
open Text
set_option autoImplicit false

theorem derivesTexts_terminals : ∀ texts : List String, DerivesTexts (textTerminals texts) texts
  | [] => .nil
  | [text] => by
    have hLast := @DerivesTexts.last (Quoted.escape text.toList)
    rwa [Quoted.ofList_unescape_escape] at hLast
  | text :: next :: texts => by
    have hCons := @DerivesTexts.cons (Quoted.escape text.toList) _ _
      (derivesTexts_terminals (next :: texts))
    rwa [Quoted.ofList_unescape_escape] at hCons

theorem derivesAll_flatMap {α : Type} {D : List Terminal → α → Prop} {terminals : α → List Terminal}
    {as : List α} (h : ∀ a ∈ as, D (terminals a) a) : DerivesAll D (as.flatMap terminals) as := by
  induction as with
  | nil => exact .nil
  | cons a as ih =>
    rw [List.forall_mem_cons] at h
    exact .cons h.1 (ih h.2)

def PlaceAttribute.InRange : PlaceAttribute → Prop
  | .capacity n => n < capacityLimit
  | _ => True

theorem derives_placeAttribute {a : PlaceAttribute} (hRange : a.InRange) :
    DerivesPlaceAttribute a.terminals a := by
  cases a with
  | label text =>
    have hLabel := @DerivesPlaceAttribute.label (Quoted.escape text.toList)
    rwa [Quoted.ofList_unescape_escape] at hLabel
  | capacity n =>
    have hCapacity := @DerivesPlaceAttribute.capacity (toString n).toList
    rw [ofDigitChars_toString] at hCapacity
    exact hCapacity hRange
  | tokens texts => exact .tokens (derivesTexts_terminals texts)

theorem derives_transitionAttribute (a : TransitionAttribute) :
    DerivesTransitionAttribute a.terminals a := by
  cases a with
  | label text =>
    have hLabel := @DerivesTransitionAttribute.label (Quoted.escape text.toList)
    rwa [Quoted.ofList_unescape_escape] at hLabel
  | guard text =>
    have hGuard := @DerivesTransitionAttribute.guard (Quoted.escape text.toList)
    rwa [Quoted.ofList_unescape_escape] at hGuard

theorem derives_arcAttribute (a : ArcAttribute) : DerivesArcAttribute a.terminals a := by
  cases a with
  | label text =>
    have hLabel := @DerivesArcAttribute.label (Quoted.escape text.toList)
    rwa [Quoted.ofList_unescape_escape] at hLabel
  | evaluate text =>
    have hEvaluate := @DerivesArcAttribute.evaluate (Quoted.escape text.toList)
    rwa [Quoted.ofList_unescape_escape] at hEvaluate
  | execute text =>
    have hExecute := @DerivesArcAttribute.execute (Quoted.escape text.toList)
    rwa [Quoted.ofList_unescape_escape] at hExecute

theorem derives_label : ∀ label : Option String, DerivesLabel (labelTerminals label) label
  | none => .absent
  | some text => by
    have hLabel := @DerivesLabel.present (Quoted.escape text.toList)
    rwa [Quoted.ofList_unescape_escape] at hLabel

theorem derives_ends (id : Option String) (source target : String) :
    DerivesEnds (endTerminals id source target) (id, source, target) := by
  cases id with
  | none =>
    have hEnds := @DerivesEnds.unnamed source.toList target.toList
    rw [String.ofList_toList, String.ofList_toList] at hEnds
    exact hEnds
  | some id =>
    have hEnds := @DerivesEnds.named id.toList source.toList target.toList
    rw [String.ofList_toList, String.ofList_toList, String.ofList_toList] at hEnds
    exact hEnds

def Entry.InRange : Entry → Prop
  | .place _ attributes => ∀ a ∈ attributes, a.InRange
  | _ => True

theorem derives_entry {entry : Entry} (hRange : entry.InRange) :
    DerivesEntry entry.terminals entry := by
  cases entry with
  | net id label =>
    have hNet := @DerivesEntry.net id.toList _ _ (derives_label label)
    rwa [String.ofList_toList] at hNet
  | declarations text =>
    have hText := @DerivesEntry.declarations (Quoted.escape text.toList)
    rwa [Quoted.ofList_unescape_escape] at hText
  | imports text =>
    have hText := @DerivesEntry.imports (Quoted.escape text.toList)
    rwa [Quoted.ofList_unescape_escape] at hText
  | implements text =>
    have hText := @DerivesEntry.implements (Quoted.escape text.toList)
    rwa [Quoted.ofList_unescape_escape] at hText
  | place id attributes =>
    have hPlace := @DerivesEntry.place id.toList _ attributes
      (derivesAll_flatMap fun a ha => derives_placeAttribute (hRange a ha))
    rwa [String.ofList_toList] at hPlace
  | transition id attributes =>
    have hTransition := @DerivesEntry.transition id.toList _ attributes
      (derivesAll_flatMap fun a _ => derives_transitionAttribute a)
    rwa [String.ofList_toList] at hTransition
  | input id place transition attributes =>
    rw [Entry.terminals, ← List.append_assoc]
    exact .input (derives_ends id place transition)
      (derivesAll_flatMap fun a _ => derives_arcAttribute a)
  | output id transition place attributes =>
    rw [Entry.terminals, ← List.append_assoc]
    exact .output (derives_ends id transition place)
      (derivesAll_flatMap fun a _ => derives_arcAttribute a)

/-- What is read from a text that scans as the terminals of some entries. -/
theorem entriesOf_of_scans {text : String} {entries : List Entry}
    (hRange : ∀ entry ∈ entries, entry.InRange)
    (hScans : lexicon.Scans text.toList (entries.flatMap Entry.terminals)) :
    entriesOf text = .ok entries := by
  obtain ⟨hTerminals, offset, hEnding⟩ := hScans.scan
  rw [entriesOf, hEnding]
  have hDerives : DerivesFile (entries.flatMap Entry.terminals) entries :=
    derivesAll_flatMap fun entry hEntry => derives_entry (hRange entry hEntry)
  exact readEntries_of_derives hDerives hTerminals (Nat.le_refl _)

theorem inRange_placeEntry {p : Place} (hCapacity : p.capacity < capacityLimit) :
    (placeEntry p).InRange := by
  intro a ha
  cases a with
  | label text => trivial
  | tokens texts => trivial
  | capacity n =>
    have hn : n = p.capacity := by
      simp only [placeAttributes, labelAttribute, List.mem_append] at ha
      rcases ha with ha | ha | ha
      · simp at ha
      · split at ha <;> simp_all
      · split at ha <;> simp_all
    exact hn ▸ hCapacity

theorem inRange_of_mem_entries {net : Net}
    (hCapacity : ∀ p ∈ net.places, p.capacity < capacityLimit) :
    ∀ entry ∈ entries net, entry.InRange := by
  intro entry hEntry
  cases entry with
  | place id attributes =>
    have hPlace : .place id attributes ∈ net.places.map placeEntry := by
      simpa [entries, unlessDefault, transitionEntry, inputEntry, outputEntry] using hEntry
    obtain ⟨p, hp, hAttributes⟩ := List.mem_map.mp hPlace
    exact hAttributes ▸ inRange_placeEntry (hCapacity p hp)
  | _ => trivial

theorem entriesOf_print {net : Net} (hNet : net.WellFormed) (hNamed : Named net)
    (hCapacity : ∀ p ∈ net.places, p.capacity < capacityLimit) :
    entriesOf (print net) = .ok (entries net) :=
  entriesOf_of_scans (inRange_of_mem_entries hCapacity) (scans_print hNet hNamed)

end Petri.NetFile
