import Petri.Proofs.NetFile.Words

/-! # How a text splits into terminals

What may stand in a text: terminals, and the white space and comments between them. A text splits at
the longest of these each time, a keyword before a name; scanning finds the terminals of that
splitting.
-/
namespace Petri.NetFile
open Text
set_option autoImplicit false

/-! ## Patterns -/

/-- Characters other than quotes and backslashes, and pairs of a backslash and a character other than
a line feed. -/
inductive IsBody : List Char → Prop where
  | nil : IsBody []
  | plain {c : Char} {cs : List Char} (hQuote : c ≠ '"') (hBackslash : c ≠ '\\') (h : IsBody cs) :
    IsBody (c :: cs)
  | escaped {c : Char} {cs : List Char} (hLine : c ≠ '\n') (h : IsBody cs) : IsBody ('\\' :: c :: cs)

/-- Line feeds and carriage returns, which end a comment. -/
def isBreak (c : Char) : Bool := c == '\n' || c == '\r'

/-- The characters match a terminal, or, with no terminal, something that is skipped: white space, or
a comment with the line breaks behind it. -/
inductive Matches : List Char → Option Terminal → Prop where
  | blanks {cs : List Char} (hNonempty : cs ≠ []) (h : ∀ c ∈ cs, isBlank c = true) : Matches cs none
  | comment {cs ds : List Char} (h : ∀ c ∈ cs, isBreak c = false)
    (hBreaks : ∀ d ∈ ds, isBreak d = true) : Matches ('#' :: cs ++ ds) none
  | keyword (k : Keyword) : Matches k.spelling.toList (some (.keyword k))
  | semicolon : Matches [';'] (some .semicolon)
  | arrow : Matches ['-', '>'] (some .arrow)
  | openBracket : Matches ['['] (some .openBracket)
  | closeBracket : Matches [']'] (some .closeBracket)
  | comma : Matches [','] (some .comma)
  | numeral {digits : List Char} (hNonempty : digits ≠ []) (h : ∀ d ∈ digits, d.isDigit = true) :
    Matches digits (some (.numeral digits))
  | quoted {body : List Char} (h : IsBody body) : Matches ('"' :: body ++ ['"']) (some (.quoted body))
  | name {word : List Char} (h : IsWord word) : Matches word (some (.name word))

/-- The characters stand at the head of a text as what they match: nothing that matches there is
longer, and they are no name if they match a keyword. -/
structure Leads (cs rest : List Char) (item : Option Terminal) : Prop where
  matches_item : Matches cs item
  longest : ∀ {ds other}, Matches ds other → ds <+: cs ++ rest → ds.length ≤ cs.length
  keyword_first : ∀ {k : Keyword}, Matches cs (some (.keyword k)) → item = some (.keyword k)

inductive Splits : List Char → List Terminal → Prop where
  | nil : Splits [] []
  | skip {cs rest : List Char} {ts : List Terminal} (h : Leads cs rest none) (hRest : Splits rest ts) :
    Splits (cs ++ rest) ts
  | terminal {cs rest : List Char} {t : Terminal} {ts : List Terminal} (h : Leads cs rest (some t))
    (hRest : Splits rest ts) : Splits (cs ++ rest) (t :: ts)

/-! ## Characters of a class -/

/-- Characters of a class at the head of a text belong to the longest stretch of them. -/
theorem length_le_takeWhile {part : Char → Bool} {ds text : List Char}
    (hAll : ∀ d ∈ ds, part d = true) (hPrefix : ds <+: text) :
    ds.length ≤ (text.takeWhile part).length := by
  obtain ⟨rest, rfl⟩ := hPrefix
  rw [List.takeWhile_append_of_pos hAll, List.length_append]
  exact Nat.le_add_right _ _

theorem ends_dropWhile (part : Char → Bool) (text : List Char) :
    Ends part (text.dropWhile part) := by
  intro c hc
  have hHead := List.head?_dropWhile_not part text
  rw [Option.mem_def.mp hc] at hHead
  exact hHead

theorem dropWhile_of_ends {part : Char → Bool} {text : List Char} (hEnds : Ends part text) :
    text.dropWhile part = text := by
  cases text with
  | nil => rfl
  | cons c text => exact List.dropWhile_cons_of_neg (by simp [hEnds c rfl])

/-- A line break is white space. -/
theorem isBlank_of_isBreak {c : Char} (h : isBreak c = true) : isBlank c = true := by
  simp only [isBreak, Bool.or_eq_true, beq_iff_eq] at h
  rcases h with rfl | rfl <;> decide

/-! ## What is skipped -/

/-- No terminal begins with white space or with the sign of a comment. -/
theorem Matches.head {c : Char} {cs : List Char} {t : Terminal} (h : Matches (c :: cs) (some t)) :
    isBlank c = false ∧ c ≠ '#' := by
  have hWordPart : isWordPart c = true → isBlank c = false ∧ c ≠ '#' := by
    refine fun hPart => ⟨isBlank_of_isWordPart hPart, ?_⟩
    rintro rfl
    cases hPart
  generalize hText : c :: cs = text at h
  cases h with
  | keyword k => cases k <;> cases hText <;> decide
  | numeral hNonempty hAll =>
    subst hText
    exact hWordPart (isWordPart_of_isDigit (hAll c List.mem_cons_self))
  | name hWord =>
    subst hText
    exact hWordPart (isWordPart_of_isWordStart hWord.1)
  | _ => cases hText; decide

theorem Matches.ne_nil {cs : List Char} {item : Option Terminal} (h : Matches cs item) :
    cs ≠ [] := by
  cases h with
  | blanks hNonempty => exact hNonempty
  | numeral hNonempty => exact hNonempty
  | keyword k => cases k <;> simp [Keyword.spelling]
  | name hWord =>
    rintro rfl
    exact hWord
  | _ => simp

/-- What begins with white space is white space. -/
theorem Matches.of_isBlank {c : Char} {cs : List Char} {item : Option Terminal}
    (h : Matches (c :: cs) item) (hBlank : isBlank c = true) :
    ∀ d ∈ c :: cs, isBlank d = true := by
  cases item with
  | some t => exact absurd h.head.1 (by simp [hBlank])
  | none =>
    generalize hText : c :: cs = text at h
    cases h with
    | blanks _ hAll => exact hAll
    | comment =>
      cases hText
      exact absurd hBlank (by decide)

theorem Matches.of_comment {cs : List Char} {item : Option Terminal}
    (h : Matches ('#' :: cs) item) : ∃ body breaks, cs = body ++ breaks ∧
      (∀ c ∈ body, isBreak c = false) ∧ ∀ d ∈ breaks, isBreak d = true := by
  cases item with
  | some t => exact absurd rfl h.head.2
  | none =>
    generalize hText : '#' :: cs = text at h
    cases h with
    | blanks _ hAll =>
      subst hText
      exact absurd (hAll '#' List.mem_cons_self) (by decide)
    | comment hBody hBreaks =>
      cases hText
      exact ⟨_, _, rfl, hBody, hBreaks⟩

theorem Matches.skipped {cs : List Char} (h : Matches cs none) :
    (cs ≠ [] ∧ ∀ c ∈ cs, isBlank c = true) ∨ ∃ body breaks, cs = '#' :: body ++ breaks ∧
      (∀ c ∈ body, isBreak c = false) ∧ ∀ d ∈ breaks, isBreak d = true := by
  cases h with
  | blanks hNonempty hAll => exact .inl ⟨hNonempty, hAll⟩
  | comment hBody hBreaks => exact .inr ⟨_, _, rfl, hBody, hBreaks⟩

theorem leads_blanks {cs rest : List Char} (hNonempty : cs ≠ []) (hAll : ∀ c ∈ cs, isBlank c = true)
    (hEnds : Ends isBlank rest) : Leads cs rest none where
  matches_item := .blanks hNonempty hAll
  longest {ds _} h hPrefix := by
    obtain _ | ⟨d, ds⟩ := ds
    · exact Nat.zero_le _
    obtain _ | ⟨c, cs⟩ := cs
    · exact absurd rfl hNonempty
    have hHead := (List.cons_prefix_cons.mp hPrefix).1
    have hBlanks := h.of_isBlank (hHead ▸ hAll c List.mem_cons_self)
    have hLength := length_le_takeWhile hBlanks hPrefix
    rwa [takeWhile_append_of_ends hAll hEnds] at hLength
  keyword_first {k} h := by
    obtain _ | ⟨c, cs⟩ := cs
    · exact absurd rfl hNonempty
    exact absurd h.head.1 (by simp [hAll c List.mem_cons_self])

/-- Where line breaks stand, or the text ends, a comment does not go on. -/
theorem ends_breaks {breaks rest : List Char} (hBreaks : ∀ d ∈ breaks, isBreak d = true)
    (hOpen : breaks = [] → rest = []) : Ends (fun c => !isBreak c) (breaks ++ rest) := by
  intro c hc
  obtain _ | ⟨b, breaks⟩ := breaks
  · rw [hOpen rfl] at hc
    cases hc
  · cases hc
    simpa using hBreaks _ List.mem_cons_self

/-- A comment without a line break goes to the end of the text. -/
theorem leads_comment {body breaks rest : List Char} (hBody : ∀ c ∈ body, isBreak c = false)
    (hBreaks : ∀ d ∈ breaks, isBreak d = true) (hEnds : Ends isBreak rest)
    (hOpen : breaks = [] → rest = []) : Leads ('#' :: body ++ breaks) rest none where
  matches_item := .comment hBody hBreaks
  longest {ds _} h hPrefix := by
    obtain _ | ⟨d, ds⟩ := ds
    · exact Nat.zero_le _
    rw [List.cons_append, List.cons_append, List.append_assoc] at hPrefix
    obtain ⟨rfl, hInside⟩ := List.cons_prefix_cons.mp hPrefix
    obtain ⟨body', breaks', rfl, hBody', hBreaks'⟩ := h.of_comment
    have hLine : (body ++ (breaks ++ rest)).takeWhile (fun c => !isBreak c) = body :=
      takeWhile_append_of_ends (by simpa using hBody) (ends_breaks hBreaks hOpen)
    have hLine' : body'.length ≤ body.length := by
      rw [← hLine]
      exact length_le_takeWhile (by simpa using hBody') ((List.prefix_append _ _).trans hInside)
    simp only [List.length_cons, List.length_append]
    obtain _ | ⟨b, breaks'⟩ := breaks'
    · simp only [List.length_nil]
      omega
    · -- the first line break of the text is where the line ends in both
      have hSame : body' = body := by
        obtain ⟨tail, hTail⟩ := hInside
        rw [← hLine, ← hTail, List.append_assoc]
        exact (takeWhile_append_of_ends (by simpa using hBody')
          (ends_cons (by simp [hBreaks' b List.mem_cons_self]) _)).symm
      subst hSame
      have hLength := length_le_takeWhile hBreaks' ((List.prefix_append_right_inj _).mp hInside)
      rw [takeWhile_append_of_ends hBreaks hEnds] at hLength
      omega
  keyword_first h := absurd rfl h.head.2

theorem gap_blanks {cs : List Char} (hAll : ∀ c ∈ cs, isBlank c = true) (rest : List Char) :
    lexicon.gap (cs ++ rest) = cs ++ lexicon.gap rest := by
  induction cs with
  | nil => rfl
  | cons c cs ih =>
    rw [List.forall_mem_cons] at hAll
    rw [List.cons_append, gap_of_isBlank hAll.1, ih hAll.2]
    rfl

/-- Up to its end, or up to the first line break, a comment is skipped. -/
theorem gap_comment (text : List Char) : lexicon.gap ('#' :: text) =
    '#' :: text.takeWhile (fun c => !isBreak c) ++
      lexicon.gap (text.dropWhile fun c => !isBreak c) := by
  have hInside : ∀ text, gap true text = text.takeWhile (fun c => !isBreak c) ++
      gap false (text.dropWhile fun c => !isBreak c) := by
    intro text
    induction text with
    | nil => rfl
    | cons c cs ih =>
      cases hBreak : isBreak c with
      | false =>
        have hInside : (c != '\n' && c != '\r') = true := by simpa [isBreak] using hBreak
        rw [List.takeWhile_cons_of_pos (by simp [hBreak]), List.dropWhile_cons_of_pos
          (by simp [hBreak]), gap, if_pos rfl, hInside, ih]
        rfl
      | true =>
        have hOutside : (c != '\n' && c != '\r') = false := by
          simpa [isBreak, or_iff_not_imp_left] using hBreak
        rw [List.takeWhile_cons_of_neg (by simp [hBreak]), List.dropWhile_cons_of_neg
          (by simp [hBreak]), gap, if_pos rfl, hOutside]
        exact (gap_of_isBlank (isBlank_of_isBreak hBreak) cs).symm
  change gap false ('#' :: text) = _
  rw [gap, if_neg (by decide), if_neg (by decide), if_pos rfl, hInside]
  rfl

/-- A comment with what its line breaks go on to. -/
theorem gap_comment_append {body breaks rest : List Char} (hBody : ∀ c ∈ body, isBreak c = false)
    (hBreaks : ∀ d ∈ breaks, isBreak d = true) (hOpen : breaks = [] → rest = []) :
    lexicon.gap ('#' :: body ++ breaks ++ rest) =
      '#' :: body ++ breaks ++ lexicon.gap rest := by
  have hBody' : ∀ c ∈ body, (!isBreak c) = true := by simpa using hBody
  have hLine := ends_breaks hBreaks hOpen
  rw [List.cons_append, List.cons_append, List.append_assoc, gap_comment,
    takeWhile_append_of_ends hBody' hLine, List.dropWhile_append_of_pos hBody',
    dropWhile_of_ends hLine, gap_blanks fun d hd => isBlank_of_isBreak (hBreaks d hd)]
  simp

/-! ## What is read -/

theorem isBody_of_body {text body : List Char} (h : Quoted.body text = some body) :
    IsBody body ∧ ∃ rest, text = body ++ '"' :: rest := by
  fun_induction Quoted.body text generalizing body with
  | case1 => cases h
  | case2 => cases h
  | case3 => cases h
  | case4 c cs hLine ih =>
    obtain ⟨inner, hInner, rfl⟩ := Option.map_eq_some_iff.mp h
    obtain ⟨hBody, rest, rfl⟩ := ih hInner
    exact ⟨.escaped hLine hBody, rest, rfl⟩
  | case5 cs =>
    cases h
    exact ⟨.nil, cs, rfl⟩
  | case6 c cs hEnd hEscape hQuote ih =>
    obtain ⟨inner, hInner, rfl⟩ := Option.map_eq_some_iff.mp h
    obtain ⟨hBody, rest, rfl⟩ := ih hInner
    refine ⟨.plain hQuote ?_ hBody, rest, rfl⟩
    rintro rfl
    cases hTail : inner ++ '"' :: rest with
    | nil => exact hEnd rfl hTail
    | cons d ds => exact hEscape d ds rfl hTail

theorem IsBody.body_append {body : List Char} (h : IsBody body) (rest : List Char) :
    Quoted.body (body ++ '"' :: rest) = some body := by
  induction h with
  | nil => simp [Quoted.body]
  | plain hQuote hBackslash _ ih => simp [Quoted.body, hQuote, hBackslash, ih]
  | escaped hLine _ ih => simp [Quoted.body, hLine, ih]

theorem read_append_of_isWord {word : List Char} (hWord : IsWord word) (rest : List Char) :
    Terminal.read (word ++ rest) =
      some (Terminal.ofWord (word ++ rest.takeWhile Terminal.isNamePart)) := by
  obtain _ | ⟨c, cs⟩ := word
  · cases hWord
  rw [List.cons_append, Terminal.read_of_isWordStart hWord.1, List.takeWhile_append_of_pos hWord.2]
  rfl

theorem isWord_keyword (k : Keyword) : IsWord k.spelling.toList := by
  cases k <;> decide

theorem ofWord_keyword (k : Keyword) : Terminal.ofWord k.spelling.toList = .keyword k := by
  cases k <;> rfl

/-- What is read where a terminal matches is no shorter than it, and another terminal only when it is
longer or a keyword. -/
theorem Matches.read {ds text : List Char} {t : Terminal} (h : Matches ds (some t))
    (hPrefix : ds <+: text) : ∃ t', Terminal.read text = some t' ∧
      ds.length ≤ t'.spelling.length ∧ (t'.spelling = ds → t' = t ∨ ∃ k, t' = .keyword k) := by
  obtain ⟨rest, rfl⟩ := hPrefix
  cases h with
  | keyword k =>
    refine ⟨_, read_append_of_isWord (isWord_keyword k) rest, ?_, fun hSame => ?_⟩
    · rw [Terminal.spelling_ofWord, List.length_append]
      exact Nat.le_add_right _ _
    · rw [Terminal.spelling_ofWord] at hSame
      rw [hSame, ofWord_keyword]
      exact .inl rfl
  | numeral hNonempty hAll =>
    obtain _ | ⟨d, ds⟩ := ds
    · exact absurd rfl hNonempty
    rw [List.forall_mem_cons] at hAll
    rw [List.cons_append]
    refine ⟨_, Terminal.read_of_isDigit hAll.1 _, ?_, fun hSame => .inl ?_⟩
    · rw [List.takeWhile_append_of_pos hAll.2]
      simp [Terminal.spelling]
    · rw [← hSame]
      rfl
  | quoted hBody =>
    refine ⟨_, ?_, Nat.le_refl _, fun _ => .inl rfl⟩
    simp [Terminal.read, hBody.body_append]
  | name hWord =>
    refine ⟨_, read_append_of_isWord hWord rest, ?_, fun hSame => ?_⟩
    · rw [Terminal.spelling_ofWord, List.length_append]
      exact Nat.le_add_right _ _
    · rw [Terminal.spelling_ofWord] at hSame
      rw [hSame, Terminal.ofWord]
      split
      · exact .inr ⟨_, rfl⟩
      · exact .inl rfl
  | _ => exact ⟨_, rfl, Nat.le_refl _, fun _ => .inl rfl⟩

/-- What is read stands at the head of the text and matches. -/
theorem matches_of_read {text : List Char} {t : Terminal} (h : Terminal.read text = some t) :
    t.spelling <+: text ∧ Matches t.spelling (some t) := by
  obtain _ | ⟨c, cs⟩ := text
  · cases h
  unfold Terminal.read at h
  dsimp only at h
  split at h
  · cases h
    exact ⟨⟨_, rfl⟩, .semicolon⟩
  · cases h
    exact ⟨⟨_, rfl⟩, .arrow⟩
  · cases h
    exact ⟨⟨_, rfl⟩, .openBracket⟩
  · cases h
    exact ⟨⟨_, rfl⟩, .closeBracket⟩
  · cases h
    exact ⟨⟨_, rfl⟩, .comma⟩
  · obtain ⟨body, hBody, rfl⟩ := Option.map_eq_some_iff.mp h
    obtain ⟨hIsBody, rest, rfl⟩ := isBody_of_body hBody
    exact ⟨⟨rest, by simp [Terminal.spelling]⟩, .quoted hIsBody⟩
  · split at h
    · rename_i hDigit
      cases h
      refine ⟨List.cons_prefix_cons.mpr ⟨rfl, List.takeWhile_prefix _⟩, .numeral nofun ?_⟩
      exact List.forall_mem_cons.mpr ⟨hDigit, fun d hd => List.mem_takeWhile_imp hd⟩
    · split at h
      · rename_i hStart
        cases h
        have hWord : IsWord (c :: cs.takeWhile Terminal.isNamePart) :=
          ⟨hStart, fun d hd => List.mem_takeWhile_imp hd⟩
        rw [Terminal.spelling_ofWord]
        refine ⟨List.cons_prefix_cons.mpr ⟨rfl, List.takeWhile_prefix _⟩, ?_⟩
        cases hKeyword : Keyword.ofWord (c :: cs.takeWhile Terminal.isNamePart) with
        | none =>
          rw [Terminal.ofWord, hKeyword]
          exact .name hWord
        | some k =>
          rw [Terminal.ofWord, hKeyword, ← Keyword.spelling_of_ofWord hKeyword]
          exact .keyword k
      · cases h

/-! ## Items and what is scanned -/

theorem Matches.spelling {cs : List Char} {t : Terminal} (h : Matches cs (some t)) :
    t.spelling = cs := by
  cases h <;> rfl

theorem read_of_skipped {c : Char} (h : isBlank c = true ∨ c = '#') (cs : List Char) :
    Terminal.read (c :: cs) = none := by
  cases hRead : Terminal.read (c :: cs) with
  | none => rfl
  | some t =>
    obtain ⟨hPrefix, hMatches⟩ := matches_of_read hRead
    cases hSpelling : t.spelling with
    | nil => exact absurd hSpelling hMatches.ne_nil
    | cons d ds =>
      rw [hSpelling] at hPrefix hMatches
      obtain ⟨rfl, _⟩ := List.cons_prefix_cons.mp hPrefix
      obtain ⟨hBlank, hComment⟩ := hMatches.head
      rcases h with h | h
      · exact absurd h (by simp [hBlank])
      · exact absurd h hComment

theorem Matches.read_eq_none {ds text : List Char} (h : Matches ds none) (hPrefix : ds <+: text) :
    Terminal.read text = none := by
  obtain ⟨rest, rfl⟩ := hPrefix
  rcases h.skipped with ⟨hNonempty, hBlanks⟩ | ⟨body, breaks, rfl, _⟩
  · obtain _ | ⟨d, ds⟩ := ds
    · exact absurd rfl hNonempty
    exact read_of_skipped (.inl (hBlanks d List.mem_cons_self)) _
  · exact read_of_skipped (.inr rfl) _

/-- What is read is what the text leads with. -/
theorem leads_of_read {text : List Char} {t : Terminal} (h : Terminal.read text = some t) :
    ∃ rest, text = t.spelling ++ rest ∧ Leads t.spelling rest (some t) := by
  obtain ⟨⟨rest, rfl⟩, hMatches⟩ := matches_of_read h
  refine ⟨rest, rfl, hMatches, fun {ds other} hOther hPrefix => ?_, fun {k} hKeyword => ?_⟩
  · cases other with
    | none =>
      rw [hOther.read_eq_none hPrefix] at h
      cases h
    | some t' =>
      obtain ⟨_, hRead, hLength, _⟩ := hOther.read hPrefix
      cases h.symm.trans hRead
      exact hLength
  · obtain ⟨_, hRead, _, hSame⟩ := hKeyword.read (List.prefix_append _ rest)
    cases h.symm.trans hRead
    rcases hSame rfl with rfl | ⟨k', rfl⟩
    · rfl
    · have hSpelling : k.spelling.toList = k'.spelling.toList := hKeyword.spelling
      rw [← ofWord_keyword k', ← hSpelling, ofWord_keyword]

theorem Leads.read {cs rest : List Char} {t : Terminal} (h : Leads cs rest (some t)) :
    Terminal.read (cs ++ rest) = some t := by
  obtain ⟨t', hRead, hLength, hSame⟩ := h.matches_item.read (List.prefix_append cs rest)
  obtain ⟨hPrefix, hMatches⟩ := matches_of_read hRead
  have hSpelling : t'.spelling = cs :=
    (List.prefix_of_prefix_length_le hPrefix (List.prefix_append cs rest)
      (h.longest hMatches hPrefix)).eq_of_length
        (Nat.le_antisymm (h.longest hMatches hPrefix) hLength)
  rcases hSame hSpelling with rfl | ⟨k, rfl⟩
  · exact hRead
  · rw [hSpelling] at hMatches
    rw [hRead, h.keyword_first hMatches]

/-- What is skipped belongs to the gap before whatever follows, unless it is a comment that the text
ends in. -/
theorem Leads.skipped {cs rest : List Char} (h : Leads cs rest none) :
    (∀ others, lexicon.gap (cs ++ others) = cs ++ lexicon.gap others) ∨
      rest = [] ∧ ∃ body, cs = '#' :: body ∧ ∀ c ∈ body, isBreak c = false := by
  rcases h.matches_item.skipped with ⟨_, hBlanks⟩ | ⟨body, breaks, rfl, hBody, hBreaks⟩
  · exact .inl (gap_blanks hBlanks)
  obtain _ | ⟨b, breaks⟩ := breaks
  · rw [List.append_nil] at h ⊢
    refine .inr ⟨?_, body, rfl, hBody⟩
    obtain _ | ⟨c, rest⟩ := rest
    · rfl
    -- a comment that takes one more character would be longer
    have hLonger : Matches ('#' :: body ++ [c]) none := by
      cases hBreak : isBreak c with
      | true => exact .comment hBody (by simpa using hBreak)
      | false =>
        rw [← List.append_nil ('#' :: body ++ [c]), List.cons_append]
        refine .comment (fun d hd => ?_) nofun
        rcases List.mem_append.mp hd with hd | hd
        · exact hBody d hd
        · cases List.mem_singleton.mp hd
          exact hBreak
    have hLength := h.longest hLonger ⟨rest, by simp⟩
    simp at hLength
  · exact .inl fun others => gap_comment_append hBody hBreaks nofun

theorem Leads.gap {cs rest : List Char} (h : Leads cs rest none) :
    lexicon.gap (cs ++ rest) = cs ++ lexicon.gap rest := by
  rcases h.skipped with hGap | ⟨rfl, body, rfl, hBody⟩
  · exact hGap rest
  · have hGap := gap_comment_append hBody (nofun : ∀ d ∈ [], isBreak d = true)
      fun _ => (rfl : ([] : List Char) = [])
    simpa using hGap

theorem exists_leads_skipped {c : Char} (h : isBlank c = true ∨ c = '#') (cs : List Char) :
    ∃ ds rest, c :: cs = ds ++ rest ∧ Leads ds rest none := by
  rcases h with hBlank | rfl
  · refine ⟨(c :: cs).takeWhile isBlank, _, List.takeWhile_append_dropWhile.symm,
      leads_blanks ?_ (fun d hd => List.mem_takeWhile_imp hd) (ends_dropWhile _ _)⟩
    rw [List.takeWhile_cons_of_pos hBlank]
    nofun
  · let inside := fun d => !isBreak d
    let others := cs.dropWhile inside
    refine ⟨'#' :: cs.takeWhile inside ++ others.takeWhile isBreak, others.dropWhile isBreak, ?_,
      leads_comment (fun d hd => ?_) (fun d hd => List.mem_takeWhile_imp hd) (ends_dropWhile _ _)
        fun hNil => ?_⟩
    · rw [List.append_assoc, List.takeWhile_append_dropWhile, List.cons_append,
        List.takeWhile_append_dropWhile]
    · simpa [inside] using List.mem_takeWhile_imp hd
    · have hEnds := ends_dropWhile inside cs
      change Ends inside others at hEnds
      obtain _ | ⟨d, ds⟩ := others
      · rfl
      · have hBreak : isBreak d = true := by simpa [inside] using hEnds d rfl
        rw [List.takeWhile_cons_of_pos hBreak] at hNil
        cases hNil

/-! ## Splitting and scanning -/

theorem byteLength_append (cs ds : List Char) :
    byteLength (cs ++ ds) = byteLength cs + byteLength ds := by
  induction cs with
  | nil => simp [byteLength]
  | cons c cs ih =>
    change c.utf8Size + byteLength (cs ++ ds) = c.utf8Size + byteLength cs + byteLength ds
    rw [ih, Nat.add_assoc]

theorem scanFrom_gap {cs rest : List Char} (hGap : lexicon.gap (cs ++ rest) = cs ++ lexicon.gap rest)
    (fuel offset : Nat) : lexicon.scanFrom fuel offset (cs ++ rest) =
      lexicon.scanFrom fuel (offset + byteLength cs) rest := by
  cases fuel with
  | zero => rfl
  | succ fuel =>
    simp only [Lexicon.scanFrom, hGap, byteLength_append, List.length_append,
      List.drop_length_add_append, Nat.add_assoc]

theorem Splits.scanFrom {text : List Char} {ts : List Terminal} (h : Splits text ts)
    (fuel offset : Nat) (hFuel : text.length ≤ fuel) :
    (lexicon.scanFrom fuel offset text).lexemes.map Lexeme.terminal = ts ∧
      (lexicon.scanFrom fuel offset text).invalid = none := by
  induction h generalizing fuel offset with
  | nil => cases fuel <;> simp [Lexicon.scanFrom, lexicon, gap]
  | skip h _ ih =>
    rw [scanFrom_gap h.gap]
    rw [List.length_append] at hFuel
    exact ih fuel _ (by omega)
  | @terminal cs rest t ts h _ ih =>
    obtain _ | ⟨c, cs⟩ := cs
    · exact absurd rfl h.matches_item.ne_nil
    cases fuel with
    | zero => cases hFuel
    | succ fuel =>
      obtain ⟨hBlank, hComment⟩ := h.matches_item.head
      have hGap : lexicon.gap (c :: (cs ++ rest)) = [] := gap_eq_nil hBlank hComment _
      have hRead : lexicon.read (c :: (cs ++ rest)) = some t := h.read
      have hSpelling : lexicon.spelling t = c :: cs := h.matches_item.spelling
      have hDrop : (c :: (cs ++ rest)).drop (c :: cs).length = rest := by
        rw [← List.cons_append, List.drop_left]
      have hFuel' : rest.length ≤ fuel := by
        simp only [List.length_cons, List.length_append] at hFuel
        omega
      obtain ⟨hTerminals, hInvalid⟩ :=
        ih fuel (offset + byteLength [] + byteLength (c :: cs)) hFuel'
      simp only [List.cons_append, Lexicon.scanFrom, hGap, List.length_nil, List.drop_zero, hRead,
        hSpelling, hDrop, List.map_cons, hTerminals, hInvalid, and_self]

theorem splits_of_gap {text : List Char} {ts : List Terminal}
    (h : Splits (text.drop (lexicon.gap text).length) ts) : Splits text ts := by
  induction hLength : text.length using Nat.strongRecOn generalizing text with
  | ind length ih =>
    obtain _ | ⟨c, cs⟩ := text
    · exact h
    by_cases hSkipped : isBlank c = true ∨ c = '#'
    · obtain ⟨ds, rest, hText, hLeads⟩ := exists_leads_skipped hSkipped cs
      rw [hText] at h hLength ⊢
      rw [hLeads.gap, List.length_append, List.drop_length_add_append] at h
      have hShorter : rest.length < length := by
        have := List.length_pos_of_ne_nil hLeads.matches_item.ne_nil
        rw [← hLength, List.length_append]
        omega
      exact .skip hLeads (ih rest.length hShorter h rfl)
    · rw [not_or, Bool.not_eq_true] at hSkipped
      rwa [gap_eq_nil hSkipped.1 hSkipped.2] at h

theorem splits_of_scanFrom {fuel offset : Nat} {text : List Char} (hFuel : text.length ≤ fuel)
    (hValid : (lexicon.scanFrom fuel offset text).invalid = none) :
    Splits text ((lexicon.scanFrom fuel offset text).lexemes.map Lexeme.terminal) := by
  induction fuel generalizing offset text with
  | zero =>
    cases List.length_eq_zero_iff.mp (Nat.le_zero.mp hFuel)
    exact .nil
  | succ fuel ih =>
    refine splits_of_gap ?_
    rw [Lexicon.scanFrom] at hValid ⊢
    dsimp only at hValid ⊢
    split at hValid
    · rename_i hDrop
      rw [hDrop]
      exact .nil
    · rename_i c rest hDrop
      split at hValid
      · cases hValid
      · rename_i t hRead
        have hRead' : Terminal.read (c :: rest) = some t := hRead
        obtain ⟨others, hText, hLeads⟩ := leads_of_read hRead'
        have hOthers : (c :: rest).drop (lexicon.spelling t).length = others := by
          rw [hText]
          exact List.drop_left
        have hFuel' : others.length ≤ fuel := by
          have hDropped := congrArg List.length hDrop
          have hLength := congrArg List.length hText
          have hPositive := List.length_pos_of_ne_nil hLeads.matches_item.ne_nil
          rw [List.length_drop] at hDropped
          rw [List.length_append] at hLength
          omega
        rw [hOthers] at hValid
        simp only [hDrop, hOthers, List.map_cons]
        rw [hText]
        exact .terminal hLeads (ih hFuel' hValid)

/-- Scanning goes through a text exactly when the text splits, and finds the terminals it splits
into. -/
theorem splits_iff_scan {text : List Char} {ts : List Terminal} :
    Splits text ts ↔ (lexicon.scan text).lexemes.map Lexeme.terminal = ts ∧
      (lexicon.scan text).invalid = none := by
  constructor
  · exact fun h => h.scanFrom _ _ (Nat.le_refl _)
  · rintro ⟨rfl, hValid⟩
    exact splits_of_scanFrom (Nat.le_refl _) hValid

theorem Splits.unique {text : List Char} {ts us : List Terminal} (h : Splits text ts)
    (h' : Splits text us) : ts = us :=
  (splits_iff_scan.mp h).1.symm.trans (splits_iff_scan.mp h').1

end Petri.NetFile
