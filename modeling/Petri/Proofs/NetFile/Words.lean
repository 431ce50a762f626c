import Petri.NetFile.Terminal
import Petri.Proofs.Text.Scanning

/-! # Words, strings and symbols of net files

Which stretches of a net file scan as which terminals. A name can be written when it is a word and
no keyword.
-/
namespace Petri.NetFile
open Text
set_option autoImplicit false

/-! ## Reading a terminal -/

theorem isNamePart_of_isDigit {c : Char} (h : c.isDigit = true) : Terminal.isNamePart c = true := by
  rw [Terminal.isNamePart, isWordPart_of_isDigit h, Bool.true_or]

theorem Terminal.read_of_isDigit {c : Char} (hDigit : c.isDigit = true) (cs : List Char) :
    Terminal.read (c :: cs) = some (.numeral (c :: cs.takeWhile Char.isDigit)) := by
  unfold Terminal.read
  dsimp only
  split <;> first | simp at hDigit | simp_all

theorem Terminal.read_of_isWordStart {c : Char} (hStart : isWordStart c = true)
    (cs : List Char) :
    Terminal.read (c :: cs) = some (Terminal.ofWord (c :: cs.takeWhile Terminal.isNamePart)) := by
  have hDigit := isDigit_of_isWordStart hStart
  unfold Terminal.read
  dsimp only
  split <;> first | (simp [isWordStart] at hStart; done) | simp_all

theorem gap_eq_nil {c : Char} (hBlank : isBlank c = false) (hComment : c ≠ '#')
    (cs : List Char) : lexicon.gap (c :: cs) = [] := by
  simp [lexicon, gap, hBlank, hComment]

theorem gap_of_isBlank {c : Char} (hBlank : isBlank c = true) (cs : List Char) :
    lexicon.gap (c :: cs) = c :: lexicon.gap cs := by
  simp [lexicon, gap, hBlank]

/-! ## Chunks -/

theorem symbol_semicolon : lexicon.Symbol ';' [] .semicolon :=
  ⟨rfl, gap_eq_nil (by decide) (by decide), fun _ => rfl⟩

theorem symbol_arrow : lexicon.Symbol '-' ['>'] .arrow :=
  ⟨rfl, gap_eq_nil (by decide) (by decide), fun _ => rfl⟩

theorem symbol_openBracket : lexicon.Symbol '[' [] .openBracket :=
  ⟨rfl, gap_eq_nil (by decide) (by decide), fun _ => rfl⟩

theorem symbol_closeBracket : lexicon.Symbol ']' [] .closeBracket :=
  ⟨rfl, gap_eq_nil (by decide) (by decide), fun _ => rfl⟩

theorem symbol_comma : lexicon.Symbol ',' [] .comma :=
  ⟨rfl, gap_eq_nil (by decide) (by decide), fun _ => rfl⟩

theorem piece_space {cs : List Char} {ts : List Terminal}
    (h : lexicon.Chunk Terminal.isNamePart cs ts) :
    lexicon.Piece Terminal.isNamePart (' ' :: cs) ts :=
  h.skip (by decide) (gap_of_isBlank (by decide))

theorem chunk_numeral (n : Nat) :
    lexicon.Chunk Terminal.isNamePart (toString n).toList [.numeral (toString n).toList] := by
  obtain ⟨c, cs, hDigits, hDigit, hAll⟩ := exists_digits n
  have hComment : c ≠ '#' := by
    rintro rfl
    cases hDigit
  rw [hDigits]
  exact .run rfl (gap_eq_nil (isBlank_of_isWordPart (isWordPart_of_isDigit hDigit)) hComment)
    (Terminal.read_of_isDigit hDigit) hAll fun _ => isNamePart_of_isDigit

theorem chunk_quote (text : String) :
    lexicon.Chunk Terminal.isNamePart (Quoted.quote text).toList
      [.quoted (Quoted.escape text.toList)] := by
  rw [Quoted.toList_quote]
  refine .terminal rfl (gap_eq_nil (by decide) (by decide)) fun rest _ => ?_
  simp [lexicon, Terminal.read, Quoted.body_escape]

/-- The characters begin with a letter or an underscore and go on with letters, digits, underscores
and dots. -/
def IsWord : List Char → Prop
  | [] => False
  | c :: cs => isWordStart c = true ∧ ∀ d ∈ cs, Terminal.isNamePart d = true

instance : DecidablePred IsWord
  | [] => inferInstanceAs (Decidable False)
  | _ :: cs => @instDecidableAnd _ _ inferInstance (List.decidableBAll _ cs)

theorem Keyword.spelling_of_ofWord {word : List Char} {k : Keyword}
    (h : Keyword.ofWord word = some k) : k.spelling.toList = word := by
  have hFound := List.find?_some h
  exact eq_of_beq hFound

theorem Terminal.spelling_ofWord (word : List Char) : (Terminal.ofWord word).spelling = word := by
  unfold Terminal.ofWord
  split
  · exact Keyword.spelling_of_ofWord (by assumption)
  · rfl

theorem chunk_word {word : List Char} (hWord : IsWord word) :
    lexicon.Chunk Terminal.isNamePart word [Terminal.ofWord word] := by
  obtain _ | ⟨c, cs⟩ := word
  · cases hWord
  obtain ⟨hStart, hAll⟩ := hWord
  have hComment : c ≠ '#' := by
    rintro rfl
    cases hStart
  exact .run (Terminal.spelling_ofWord _)
    (gap_eq_nil (isBlank_of_isWordPart (isWordPart_of_isWordStart hStart)) hComment)
    (Terminal.read_of_isWordStart hStart) hAll fun _ hPart => hPart

theorem chunk_keyword (k : Keyword) :
    lexicon.Chunk Terminal.isNamePart k.spelling.toList [.keyword k] := by
  have hWord : IsWord k.spelling.toList := by
    cases k <;> decide
  have hKeyword : Terminal.ofWord k.spelling.toList = .keyword k := by cases k <;> rfl
  exact hKeyword ▸ chunk_word hWord

/-! ## Names -/

/-- The text can stand for an identifier. -/
structure IsName (id : String) : Prop where
  word : IsWord id.toList
  not_keyword : ∀ k : Keyword, id ≠ k.spelling

theorem Keyword.mem_all (k : Keyword) : k ∈ Keyword.all := by
  cases k <;> decide

instance (id : String) : Decidable (IsName id) :=
  decidable_of_iff (IsWord id.toList ∧ ∀ k ∈ Keyword.all, id ≠ k.spelling)
    ⟨fun h => ⟨h.1, fun k => h.2 k k.mem_all⟩, fun h => ⟨h.word, fun k _ => h.not_keyword k⟩⟩

theorem ofWord_of_isName {id : String} (h : IsName id) :
    Terminal.ofWord id.toList = .name id.toList := by
  unfold Terminal.ofWord
  split
  · rename_i k hKeyword
    have hSpelling := Keyword.spelling_of_ofWord hKeyword
    exact absurd (String.toList_inj.mp hSpelling).symm (h.not_keyword k)
  · rfl

theorem chunk_name {id : String} (h : IsName id) :
    lexicon.Chunk Terminal.isNamePart id.toList [.name id.toList] :=
  ofWord_of_isName h ▸ chunk_word h.word

end Petri.NetFile
