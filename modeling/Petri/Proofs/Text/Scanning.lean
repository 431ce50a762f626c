import Mathlib
import Petri.Text.Classes
import Petri.Text.Lexeme
import Petri.Text.Quoted

/-! # Texts and their terminals

A text scans as a list of terminals when it consists of them, each the longest at its place, with
skipped characters before any of them. Scanning such a text finds these terminals, so what a text
is written from can be shown piece by piece, from its end to its beginning.
-/
namespace Petri.Text
set_option autoImplicit false

namespace Lexicon
variable {τ : Type} (lexicon : Lexicon τ)

inductive Scans : List Char → List τ → Prop where
  | nil : Scans [] []
  | skip {c : Char} {cs : List Char} {ts : List τ}
      (hGap : lexicon.gap (c :: cs) = c :: lexicon.gap cs) (h : Scans cs ts) : Scans (c :: cs) ts
  | read {t : τ} {c : Char} {cs rest : List Char} {ts : List τ}
      (hSpelling : lexicon.spelling t = c :: cs) (hGap : lexicon.gap (c :: (cs ++ rest)) = [])
      (hRead : lexicon.read (c :: (cs ++ rest)) = some t) (h : Scans rest ts) :
      Scans (c :: (cs ++ rest)) (t :: ts)

variable {lexicon}

theorem scanFrom_skip {c : Char} {cs : List Char}
    (hGap : lexicon.gap (c :: cs) = c :: lexicon.gap cs) (fuel offset : Nat) :
    lexicon.scanFrom fuel offset (c :: cs) = lexicon.scanFrom fuel (offset + c.utf8Size) cs := by
  cases fuel with
  | zero => rfl
  | succ fuel => simp [scanFrom, hGap, byteLength, Nat.add_assoc]

theorem Scans.scanFrom {cs : List Char} {ts : List τ} (h : lexicon.Scans cs ts)
    (fuel offset : Nat) (hFuel : cs.length ≤ fuel) :
    (lexicon.scanFrom fuel offset cs).lexemes.map Lexeme.terminal = ts ∧
      (lexicon.scanFrom fuel offset cs).invalid = none := by
  induction h generalizing fuel offset with
  | nil => cases fuel <;> simp [Lexicon.scanFrom]
  | skip hGap _ ih =>
    rw [scanFrom_skip hGap]
    exact ih fuel _ (Nat.le_of_succ_le hFuel)
  | @read t c cs rest ts hSpelling hGap hRead _ ih =>
    cases fuel with
    | zero => cases hFuel
    | succ fuel =>
      have hDrop : (c :: (cs ++ rest)).drop (lexicon.spelling t).length = rest := by
        rw [hSpelling, ← List.cons_append, List.drop_left]
      -- a terminal has a character at least, so the fuel lasts
      have hFuel' : rest.length ≤ fuel := by
        simp only [List.length_cons, List.length_append] at hFuel
        omega
      simp only [Lexicon.scanFrom, hGap, List.length_nil, List.drop_zero, hRead, hDrop,
        List.map_cons]
      have hTail := ih fuel (offset + byteLength [] + byteLength (lexicon.spelling t)) hFuel'
      exact ⟨by rw [hTail.1], hTail.2⟩

/-- What scanning finds in a text that scans as some terminals. -/
theorem Scans.scan {cs : List Char} {ts : List τ} (h : lexicon.Scans cs ts) :
    (lexicon.scan cs).lexemes.map Lexeme.terminal = ts ∧
      ∃ offset, (lexicon.scan cs).ending = .text offset := by
  obtain ⟨hTerminals, hInvalid⟩ := h.scanFrom cs.length 0 (Nat.le_refl _)
  refine ⟨hTerminals, ((lexicon.scan cs).lexemes.getLast?.map Lexeme.stop).getD 0, ?_⟩
  rw [Lexed.ending, Lexicon.scan, hInvalid]

/-- Every lexeme stood at the head of a text when it was read. -/
theorem read_of_mem_scanFrom {fuel offset : Nat} {cs : List Char} {l : Lexeme τ}
    (hl : l ∈ (lexicon.scanFrom fuel offset cs).lexemes) :
    ∃ rest, lexicon.read rest = some l.terminal := by
  induction fuel generalizing offset cs with
  | zero => cases hl
  | succ fuel ih =>
    rw [Lexicon.scanFrom] at hl
    dsimp only at hl
    split at hl
    · cases hl
    · split at hl
      · cases hl
      · rename_i hRead
        rcases List.mem_cons.mp hl with rfl | hl
        · exact ⟨_, hRead⟩
        · exact ih hl

end Lexicon

theorem exists_cons_of_terminals {τ : Type} {t : τ} {ts : List τ} {ls : List (Lexeme τ)}
    (h : ls.map Lexeme.terminal = t :: ts) :
    ∃ spelling start rest, ls = ⟨t, spelling, start⟩ :: rest ∧ rest.map Lexeme.terminal = ts := by
  obtain ⟨⟨_, spelling, start⟩, rest, rfl, rfl, hRest⟩ := List.map_eq_cons_iff.mp h
  exact ⟨spelling, start, rest, rfl, hRest⟩

/-! ## Boundaries -/

/-- No character of the class stands at the head of the text. -/
def Ends (part : Char → Bool) (rest : List Char) : Prop :=
  ∀ c ∈ rest.head?, part c = false

theorem takeWhile_append_of_ends {part : Char → Bool} {cs rest : List Char}
    (hAll : ∀ c ∈ cs, part c = true) (hEnds : Ends part rest) :
    (cs ++ rest).takeWhile part = cs := by
  rw [List.takeWhile_append_of_pos hAll]
  cases rest with
  | nil => simp
  | cons c rest => simp [hEnds c rfl]

theorem Ends.mono {part finer : Char → Bool} {rest : List Char}
    (hPart : ∀ c, finer c = true → part c = true) (h : Ends part rest) : Ends finer rest := by
  intro c hc
  have hOff := h c hc
  cases hFiner : finer c with
  | false => rfl
  | true => rw [hPart c hFiner] at hOff; cases hOff

theorem ends_cons {part : Char → Bool} {c : Char} (hPart : part c = false) (rest : List Char) :
    Ends part (c :: rest) := by
  intro d hd
  cases hd
  exact hPart

/-! ## Chunks of text -/

namespace Lexicon
variable {τ : Type} (lexicon : Lexicon τ) (part : Char → Bool)

/-- Characters that scan as some terminals when no character of the class follows them. -/
def Chunk (cs : List Char) (ts : List τ) : Prop :=
  ∀ ⦃rest : List Char⦄ ⦃us : List τ⦄,
    Ends part rest → lexicon.Scans rest us → lexicon.Scans (cs ++ rest) (ts ++ us)

/-- A chunk that can stand behind another one. -/
structure Piece (cs : List Char) (ts : List τ) : Prop where
  chunk : lexicon.Chunk part cs ts
  ends : ∀ ⦃rest : List Char⦄, Ends part rest → Ends part (cs ++ rest)

/-- A terminal that is read off its characters whatever follows them. -/
structure Symbol (c : Char) (cs : List Char) (t : τ) : Prop where
  spelling : lexicon.spelling t = c :: cs
  gap : ∀ rest, lexicon.gap (c :: rest) = []
  read : ∀ rest, lexicon.read (c :: (cs ++ rest)) = some t

variable {lexicon part} {c : Char} {cs ds : List Char} {t : τ} {ts us : List τ}

theorem Chunk.nil : lexicon.Chunk part [] [] := fun _ _ _ hRest => hRest

theorem Piece.nil : lexicon.Piece part [] [] := ⟨Chunk.nil, fun _ hEnds => hEnds⟩

/-- A terminal is a chunk when it is read wherever no character of the class follows. -/
theorem Chunk.terminal (hSpelling : lexicon.spelling t = c :: cs)
    (hGap : ∀ rest, lexicon.gap (c :: rest) = [])
    (hRead : ∀ rest, Ends part rest → lexicon.read (c :: (cs ++ rest)) = some t) :
    lexicon.Chunk part (c :: cs) [t] :=
  fun rest _ hEnds hRest => .read hSpelling (hGap _) (hRead rest hEnds) hRest

/-- A terminal that takes all characters of a class behind its first one is a chunk. -/
theorem Chunk.run {make : List Char → τ} {inner : Char → Bool}
    (hSpelling : lexicon.spelling (make (c :: cs)) = c :: cs)
    (hGap : ∀ rest, lexicon.gap (c :: rest) = [])
    (hRead : ∀ rest, lexicon.read (c :: rest) = some (make (c :: rest.takeWhile inner)))
    (hAll : ∀ d ∈ cs, inner d = true) (hInner : ∀ d, inner d = true → part d = true) :
    lexicon.Chunk part (c :: cs) [make (c :: cs)] := by
  refine .terminal hSpelling hGap fun rest hEnds => ?_
  rw [hRead, takeWhile_append_of_ends hAll (hEnds.mono hInner)]

theorem Symbol.cons (hSymbol : lexicon.Symbol c cs t) (h : lexicon.Chunk part ds ts) :
    lexicon.Chunk part (c :: (cs ++ ds)) (t :: ts) := by
  intro rest us hEnds hRest
  rw [List.cons_append, List.append_assoc]
  exact .read hSymbol.spelling (hSymbol.gap _) (hSymbol.read _) (h hEnds hRest)

theorem Symbol.piece (hSymbol : lexicon.Symbol c cs t) (hPart : part c = false) :
    lexicon.Piece part (c :: cs) [t] where
  chunk := .terminal hSymbol.spelling hSymbol.gap fun rest _ => hSymbol.read rest
  ends _ _ := ends_cons hPart _

/-- Behind a skipped character every chunk can stand. -/
theorem Chunk.skip (h : lexicon.Chunk part cs ts) (hPart : part c = false)
    (hGap : ∀ rest, lexicon.gap (c :: rest) = c :: lexicon.gap rest) :
    lexicon.Piece part (c :: cs) ts where
  chunk _ _ hEnds hRest := .skip (hGap _) (h hEnds hRest)
  ends _ _ := ends_cons hPart _

theorem Chunk.append (hFirst : lexicon.Chunk part cs ts) (hSecond : lexicon.Piece part ds us) :
    lexicon.Chunk part (cs ++ ds) (ts ++ us) := by
  intro rest vs hEnds hRest
  rw [List.append_assoc, List.append_assoc]
  exact hFirst (hSecond.ends hEnds) (hSecond.chunk hEnds hRest)

theorem Piece.append (hFirst : lexicon.Piece part cs ts) (hSecond : lexicon.Piece part ds us) :
    lexicon.Piece part (cs ++ ds) (ts ++ us) where
  chunk := hFirst.chunk.append hSecond
  ends rest hEnds := by
    rw [List.append_assoc]
    exact hFirst.ends (hSecond.ends hEnds)

/-- Characters that scan as some terminals whatever follows them. -/
def Closed (lexicon : Lexicon τ) (cs : List Char) (ts : List τ) : Prop :=
  ∀ ⦃rest : List Char⦄ ⦃us : List τ⦄, lexicon.Scans rest us → lexicon.Scans (cs ++ rest) (ts ++ us)

theorem Closed.nil : lexicon.Closed [] [] := fun _ _ hRest => hRest

theorem Closed.append (hFirst : lexicon.Closed cs ts) (hSecond : lexicon.Closed ds us) :
    lexicon.Closed (cs ++ ds) (ts ++ us) := by
  intro rest vs hRest
  rw [List.append_assoc, List.append_assoc]
  exact hFirst (hSecond hRest)

theorem Closed.flatMap {α : Type} {f : α → List Char} {g : α → List τ} {as : List α}
    (h : ∀ a ∈ as, lexicon.Closed (f a) (g a)) : lexicon.Closed (as.flatMap f) (as.flatMap g) := by
  induction as with
  | nil => exact .nil
  | cons a as ih =>
    rw [List.forall_mem_cons] at h
    rw [List.flatMap_cons, List.flatMap_cons]
    exact h.1.append (ih h.2)

theorem Closed.whole (h : lexicon.Closed cs ts) : lexicon.Scans cs ts := by
  simpa using h .nil

theorem Chunk.whole (h : lexicon.Chunk part cs ts) : lexicon.Scans cs ts := by
  have hEmpty : Ends part [] := fun c hc => nomatch hc
  simpa using h hEmpty .nil

end Lexicon

/-! ## Classes -/

theorem bounds_of_isWordPart {c : Char} (h : isWordPart c = true) :
    48 ≤ c.toNat ∧ c.toNat ≤ 122 := by
  simp only [isWordPart, isWordStart, Char.isAlpha, Char.isUpper, Char.isLower, Char.isDigit,
    Bool.or_eq_true, Bool.and_eq_true, decide_eq_true_eq, beq_iff_eq, ge_iff_le,
    UInt32.le_iff_toNat_le] at h
  rcases h with ((h | h) | rfl) | h
  · exact ⟨Nat.le_trans (by decide) h.1, Nat.le_trans h.2 (by decide)⟩
  · exact ⟨Nat.le_trans (by decide) h.1, Nat.le_trans h.2 (by decide)⟩
  · decide
  · exact ⟨Nat.le_trans (by decide) h.1, Nat.le_trans h.2 (by decide)⟩

theorem isBlank_of_isWordPart {c : Char} (h : isWordPart c = true) : isBlank c = false := by
  have hBounds := bounds_of_isWordPart h
  simp only [isBlank, isWithin, blankRanges, List.any_cons, List.any_nil]
  grind

theorem isDigit_of_isWordStart {c : Char} (h : isWordStart c = true) : c.isDigit = false := by
  rw [Bool.eq_false_iff]
  intro hDigit
  simp only [isWordStart, Char.isAlpha, Char.isUpper, Char.isLower, Bool.or_eq_true,
    Bool.and_eq_true, decide_eq_true_eq, beq_iff_eq] at h
  rcases h with h | rfl
  · simp only [Char.isDigit, Bool.and_eq_true, decide_eq_true_eq] at hDigit
    grind
  · cases hDigit

theorem isWordPart_of_isDigit {c : Char} (h : c.isDigit = true) : isWordPart c = true := by
  rw [isWordPart, h, Bool.or_true]

theorem isWordPart_of_isWordStart {c : Char} (h : isWordStart c = true) : isWordPart c = true := by
  rw [isWordPart, h, Bool.true_or]

/-! ## Strings -/

/-- A quoted text is read up to its closing quote, whatever follows. -/
theorem Quoted.body_escape (cs rest : List Char) :
    Quoted.body (Quoted.escape cs ++ '"' :: rest) = some (Quoted.escape cs) := by
  induction cs with
  | nil => simp [Quoted.escape, Quoted.body]
  | cons c cs ih =>
    by_cases hBackslash : c = '\\'
    · subst hBackslash
      simp [Quoted.escape, Quoted.body, ih]
    · by_cases hQuote : c = '"'
      · subst hQuote
        simp [Quoted.escape, Quoted.body, ih]
      · simp [Quoted.escape, Quoted.body, hBackslash, hQuote, ih]

theorem Quoted.toList_quote (text : String) :
    (Quoted.quote text).toList = '"' :: (Quoted.escape text.toList ++ ['"']) := by
  rw [Quoted.quote, String.toList_ofList, List.cons_append]

theorem Quoted.ofList_unescape_escape (text : String) :
    String.ofList (Quoted.unescape (Quoted.escape text.toList)) = text := by
  rw [Quoted.unescape_escape, String.ofList_toList]

/-! ## Numerals -/

theorem toList_toString (n : Nat) : (toString n).toList = Nat.toDigits 10 n := by
  rw [Nat.toString_eq_repr, Nat.toList_repr]

theorem isDigit_of_mem_toString {n : Nat} {c : Char} (h : c ∈ (toString n).toList) :
    c.isDigit = true := by
  rw [toList_toString] at h
  exact Nat.isDigit_of_mem_toDigits (by decide) (by decide) h

theorem exists_digits (n : Nat) :
    ∃ c cs, (toString n).toList = c :: cs ∧ c.isDigit = true ∧ ∀ d ∈ cs, d.isDigit = true := by
  cases hDigits : (toString n).toList with
  | nil => exact absurd hDigits (by rw [toList_toString]; exact Nat.toDigits_ne_nil)
  | cons c cs =>
    have hAll : ∀ d ∈ c :: cs, d.isDigit = true := fun d hd =>
      isDigit_of_mem_toString (hDigits ▸ hd)
    exact ⟨c, cs, rfl, hAll c List.mem_cons_self, fun d hd => hAll d (List.mem_cons_of_mem _ hd)⟩

theorem ofDigitChars_toString (n : Nat) : Nat.ofDigitChars 10 (toString n).toList 0 = n := by
  rw [toList_toString, Nat.ofDigitChars_ten_toDigits]

end Petri.Text
