import Petri.Proofs.NetFile.Lexing
import Petri.Proofs.NetFile.Parsing

/-! # The layout of a net file

Entries are read from a text exactly when it splits into terminals from which the grammar derives
them. White space and comments with their line break can stand between any two items of a text, so
more of them there leave its terminals, and with them its entries, as they are.
-/
namespace Petri.NetFile
open Text
set_option autoImplicit false

variable {cs rest text u v g : List Char} {ts us : List Terminal} {t : Terminal}

/-! ## The syntax of a text -/

theorem entriesOf_eq_ok_iff {text : String} {entries : List Entry} :
    entriesOf text = .ok entries ↔ ∃ ts, Splits text.toList ts ∧ DerivesFile ts entries := by
  simp only [splits_iff_scan]
  rw [entriesOf, readEntries_eq_ok_iff]
  constructor
  · rintro ⟨⟨offset, hEnding⟩, hDerives⟩
    refine ⟨_, ⟨rfl, ?_⟩, hDerives⟩
    rw [Lexed.ending] at hEnding
    split at hEnding
    · cases hEnding
    · assumption
  · rintro ⟨_, ⟨rfl, hValid⟩, hDerives⟩
    rw [Lexed.ending, hValid]
    exact ⟨⟨_, rfl⟩, hDerives⟩

/-! ## Skipped characters -/

theorem splits_append_iff_of_gap (hGap : lexicon.gap (cs ++ rest) = cs ++ lexicon.gap rest) :
    Splits (cs ++ rest) ts ↔ Splits rest ts := by
  have hFuel : rest.length ≤ (cs ++ rest).length := by
    rw [List.length_append]
    omega
  constructor
  · intro h
    obtain ⟨hTerminals, hValid⟩ := h.scanFrom _ 0 (Nat.le_refl _)
    rw [scanFrom_gap hGap] at hTerminals hValid
    exact hTerminals ▸ splits_of_scanFrom hFuel hValid
  · intro h
    obtain ⟨hTerminals, hValid⟩ := h.scanFrom _ (0 + byteLength cs) hFuel
    rw [← scanFrom_gap hGap] at hTerminals hValid
    exact hTerminals ▸ splits_of_scanFrom (Nat.le_refl _) hValid

theorem splits_blank_iff {c : Char} (hBlank : isBlank c = true) :
    Splits (c :: text) ts ↔ Splits text ts := by
  rw [← List.singleton_append]
  exact splits_append_iff_of_gap (gap_blanks (by simpa using hBlank) text)

/-- Of a text behind the sign of a comment only what comes after the line matters. -/
theorem splits_comment_iff :
    Splits ('#' :: text) ts ↔ Splits (text.dropWhile fun c => !isBreak c) ts := by
  have hText : '#' :: text = '#' :: text.takeWhile (fun c => !isBreak c) ++
      text.dropWhile fun c => !isBreak c := by
    rw [List.cons_append, List.takeWhile_append_dropWhile]
  conv_lhs => rw [hText]
  refine splits_append_iff_of_gap ?_
  rw [← hText, gap_comment]

/-! ## Terminals -/

theorem ends_of_takeWhile {part : Char → Bool} (h : text.takeWhile part = []) : Ends part text := by
  intro c hc
  obtain _ | ⟨d, text⟩ := text
  · cases hc
  cases hc
  cases hPart : part c with
  | false => rfl
  | true =>
    rw [List.takeWhile_cons_of_pos hPart] at h
    cases h

/-- What a terminal is read from may go on in another way, unless what follows now could belong to a
word. -/
theorem Leads.followed (h : Leads cs rest (some t))
    (hHead : ∀ c ∈ v.head?, rest.head? = some c ∨ Terminal.isNamePart c = false) :
    Leads cs v (some t) := by
  have hEnds : ∀ {part : Char → Bool}, (∀ c, part c = true → Terminal.isNamePart c = true) →
      rest.takeWhile part = [] → v.takeWhile part = [] := by
    intro part hPart hNone
    have hOff : Ends part v := by
      intro c hc
      rcases hHead c hc with hSame | hOther
      · exact ends_of_takeWhile hNone c hSame
      · cases hIn : part c with
        | false => rfl
        | true => rw [hPart c hIn] at hOther; cases hOther
    simpa using takeWhile_append_of_ends (nofun : ∀ c ∈ [], part c = true) hOff
  have hRead := h.read
  suffices hRead' : Terminal.read (cs ++ v) = some t by
    obtain ⟨others, hText, hLeads⟩ := leads_of_read hRead'
    rw [h.matches_item.spelling] at hText hLeads
    rwa [List.append_cancel_left hText]
  have hWord : IsWord cs → Terminal.read (cs ++ v) = some t := by
    intro hWord
    rw [read_append_of_isWord hWord] at hRead ⊢
    have hSpelling := congrArg Terminal.spelling (Option.some.inj hRead)
    rw [Terminal.spelling_ofWord, h.matches_item.spelling, List.append_right_eq_self] at hSpelling
    rw [hSpelling] at hRead
    rw [hEnds (fun _ hPart => hPart) hSpelling, hRead]
  cases h.matches_item with
  | keyword k => exact hWord (isWord_keyword k)
  | name hName => exact hWord hName
  | quoted hBody => simp [Terminal.read, hBody.body_append]
  | numeral hNonempty hAll =>
    obtain _ | ⟨d, ds⟩ := cs
    · exact absurd rfl hNonempty
    rw [List.forall_mem_cons] at hAll
    rw [List.cons_append, Terminal.read_of_isDigit hAll.1, List.takeWhile_append_of_pos hAll.2]
      at hRead ⊢
    have hDigits : rest.takeWhile Char.isDigit = [] := by simpa using hRead
    rw [hEnds (fun _ => isNamePart_of_isDigit) hDigits, List.append_nil]
  | _ => rfl

theorem splits_terminal_iff (h : Leads cs rest (some t)) :
    Splits (cs ++ rest) ts ↔ ∃ us, ts = t :: us ∧ Splits rest us := by
  constructor
  · intro hSplits
    generalize hText : cs ++ rest = text at hSplits
    cases hSplits with
    | nil => exact absurd (List.append_eq_nil_iff.mp hText).1 h.matches_item.ne_nil
    | @skip ds others _ hOther =>
      have hNone := hOther.matches_item.read_eq_none (List.prefix_append ds others)
      rw [← hText, h.read] at hNone
      cases hNone
    | terminal hOther hRest =>
      have hSame := hOther.read
      rw [← hText, h.read] at hSame
      cases hSame
      have hSpelling := h.matches_item.spelling.symm.trans hOther.matches_item.spelling
      subst hSpelling
      cases List.append_cancel_left hText
      exact ⟨_, rfl, hRest⟩
  · rintro ⟨us, rfl, hRest⟩
    exact .terminal h hRest

/-! ## Places between the items of a text -/

/-- Between its parts the text has a place where one item of it ends and another one begins, or
where it begins or ends itself. -/
inductive Boundary : List Char → List Char → Prop where
  | start {v : List Char} : Boundary [] v
  | behind {cs u v : List Char} {item : Option Terminal} (h : Leads cs (u ++ v) item)
    (hRest : Boundary u v) : Boundary (cs ++ u) v

/-- The text has the terminals of its parts. So its parts meet neither inside a terminal nor before
the rest of a comment that would have terminals by itself. -/
structure Cut (u v : List Char) (ts us : List Terminal) : Prop where
  front : Splits u ts
  back : Splits v us
  whole : Splits (u ++ v) (ts ++ us)

theorem Boundary.cut (h : Boundary u v) (hSplits : Splits (u ++ v) ts) :
    ∃ front back, ts = front ++ back ∧ Cut u v front back := by
  induction h generalizing ts with
  | start => exact ⟨[], ts, rfl, .nil, hSplits, hSplits⟩
  | @behind cs u v item h _ ih =>
    rw [List.append_assoc] at hSplits
    cases item with
    | none =>
      obtain ⟨front, back, rfl, hCut⟩ := ih ((splits_append_iff_of_gap h.gap).mp hSplits)
      refine ⟨front, back, rfl, ?_, hCut.back, by rwa [List.append_assoc]⟩
      rcases h.skipped with hGap | ⟨hNil, body, rfl, hBody⟩
      · exact (splits_append_iff_of_gap (hGap u)).mpr hCut.front
      · obtain ⟨rfl, rfl⟩ := List.append_eq_nil_iff.mp hNil
        exact (splits_append_iff_of_gap h.gap).mpr hCut.front
    | some t =>
      obtain ⟨us, rfl, hRest⟩ := (splits_terminal_iff h).mp hSplits
      obtain ⟨front, back, rfl, hCut⟩ := ih hRest
      refine ⟨t :: front, back, rfl, .terminal (h.followed fun c hc => .inl ?_) hCut.front, hCut.back,
        by rwa [List.append_assoc]⟩
      rw [List.head?_append, Option.mem_def.mp hc]
      rfl

/-- Any two terminals in a row have such a place between them. -/
theorem Splits.exists_boundary (h : Splits text (ts ++ us)) :
    ∃ u v, text = u ++ v ∧ Boundary u v ∧ Cut u v ts us := by
  suffices hBoundary : ∃ u v, text = u ++ v ∧ Boundary u v ∧ Splits v us by
    obtain ⟨u, v, rfl, hBoundary, hBack⟩ := hBoundary
    obtain ⟨front, back, hTerminals, hCut⟩ := hBoundary.cut h
    cases hCut.back.unique hBack
    cases List.append_cancel_right hTerminals
    exact ⟨u, v, rfl, hBoundary, hCut⟩
  generalize hTerminals : ts ++ us = all at h
  induction h generalizing ts with
  | nil =>
    obtain ⟨rfl, rfl⟩ := List.append_eq_nil_iff.mp hTerminals
    exact ⟨[], [], rfl, .start, .nil⟩
  | skip hLeads _ ih =>
    obtain ⟨u, v, rfl, hBoundary, hBack⟩ := ih hTerminals
    exact ⟨_, v, (List.append_assoc _ _ _).symm, .behind hLeads hBoundary, hBack⟩
  | terminal hLeads hRest ih =>
    cases ts with
    | nil =>
      cases hTerminals
      exact ⟨[], _, rfl, .start, .terminal hLeads hRest⟩
    | cons t ts =>
      obtain ⟨rfl, hOthers⟩ := List.cons.inj hTerminals
      obtain ⟨u, v, rfl, hBoundary, hBack⟩ := ih hOthers
      exact ⟨_, v, (List.append_assoc _ _ _).symm, .behind hLeads hBoundary, hBack⟩

theorem Splits.boundary_end (h : Splits text ts) : Boundary text [] := by
  induction h with
  | nil => exact .start
  | skip hLeads _ ih => exact .behind (by rwa [List.append_nil]) ih
  | terminal hLeads _ ih => exact .behind (by rwa [List.append_nil]) ih

/-! ## Fillers -/

/-- White space, and comments each with a line break. -/
inductive Filler : List Char → Prop where
  | nil : Filler []
  | blank {c : Char} {cs : List Char} (hBlank : isBlank c = true) (h : Filler cs) : Filler (c :: cs)
  | comment {body : List Char} {b : Char} {cs : List Char} (hBody : ∀ c ∈ body, isBreak c = false)
    (hBreak : isBreak b = true) (h : Filler cs) : Filler ('#' :: body ++ b :: cs)

theorem Filler.splits_append_iff (hFiller : Filler g) : Splits (g ++ v) us ↔ Splits v us := by
  induction hFiller with
  | nil => rfl
  | @blank c cs hBlank _ ih =>
    rw [← ih]
    exact splits_blank_iff hBlank
  | @comment body b cs hBody hBreak _ ih =>
    have hBody' : ∀ c ∈ body, (!isBreak c) = true := by simpa using hBody
    rw [List.cons_append, List.cons_append, List.append_assoc, splits_comment_iff,
      List.dropWhile_append_of_pos hBody', List.cons_append,
      List.dropWhile_cons_of_neg (by simp [hBreak]), ← ih]
    exact splits_blank_iff (isBlank_of_isBreak hBreak)

theorem isNamePart_of_isBlank {c : Char} (hBlank : isBlank c = true) :
    Terminal.isNamePart c = false := by
  rw [Terminal.isNamePart, Bool.or_eq_false_iff]
  constructor
  · cases hPart : isWordPart c with
    | false => rfl
    | true => rw [isBlank_of_isWordPart hPart] at hBlank; cases hBlank
  · cases hDot : c == '.' with
    | false => rfl
    | true => rw [eq_of_beq hDot] at hBlank; exact absurd hBlank (by decide)

/-- No word goes on in a filler. -/
theorem Filler.head (hFiller : Filler g) (hNonempty : g ≠ []) :
    ∀ c ∈ (g ++ v).head?, Terminal.isNamePart c = false := by
  cases hFiller with
  | nil => exact absurd rfl hNonempty
  | blank hBlank =>
    intro c hc
    cases hc
    exact isNamePart_of_isBlank hBlank
  | comment =>
    intro c hc
    cases hc
    decide

/-- A comment that stands open before a filler ends inside of it, or goes on behind it. -/
theorem Filler.line (hFiller : Filler g) : (∀ c ∈ g, isBreak c = false) ∨
    ∃ line b others, g = line ++ b :: others ∧ (∀ c ∈ line, isBreak c = false) ∧
      isBreak b = true ∧ Filler others := by
  induction hFiller with
  | nil => exact .inl nofun
  | @blank c cs hBlank hFiller ih =>
    cases hBreak : isBreak c with
    | true => exact .inr ⟨[], c, cs, rfl, nofun, hBreak, hFiller⟩
    | false =>
      rcases ih with hLine | ⟨line, b, others, rfl, hLine, hEnd, hOthers⟩
      · exact .inl (List.forall_mem_cons.mpr ⟨hBreak, hLine⟩)
      · exact .inr ⟨c :: line, b, others, rfl, List.forall_mem_cons.mpr ⟨hBreak, hLine⟩, hEnd,
          hOthers⟩
  | @comment body b cs hBody hBreak hFiller _ =>
    exact .inr ⟨'#' :: body, b, cs, rfl, List.forall_mem_cons.mpr ⟨by decide, hBody⟩, hBreak,
      hFiller⟩

/-- A filler where a comment stands open. -/
theorem Filler.splits_open (hFiller : Filler g) {body : List Char}
    (hBody : ∀ c ∈ body, isBreak c = false) (hWhole : Splits ('#' :: body ++ v) us)
    (hBack : Splits v us) : Splits ('#' :: body ++ g ++ v) us := by
  have hBody' : ∀ c ∈ body, (!isBreak c) = true := by simpa using hBody
  rw [List.cons_append, List.cons_append, List.append_assoc, splits_comment_iff,
    List.dropWhile_append_of_pos hBody']
  rw [List.cons_append, splits_comment_iff, List.dropWhile_append_of_pos hBody'] at hWhole
  rcases hFiller.line with hLine | ⟨line, b, others, rfl, hLine, hEnd, hOthers⟩
  · rwa [List.dropWhile_append_of_pos (by simpa using hLine)]
  · rw [List.append_assoc, List.dropWhile_append_of_pos (by simpa using hLine), List.cons_append,
      List.dropWhile_cons_of_neg (by simp [hEnd])]
    exact (splits_blank_iff (isBlank_of_isBreak hEnd)).mpr (hOthers.splits_append_iff.mpr hBack)

/-- A filler between the parts of a text leaves its terminals as they are. -/
theorem Cut.insert (h : Cut u v ts us) (hFiller : Filler g) : Splits (u ++ g ++ v) (ts ++ us) := by
  by_cases hNonempty : g = []
  · rw [hNonempty, List.append_nil]
    exact h.whole
  obtain ⟨hFront, hBack, hWhole⟩ := h
  induction hFront with
  | nil => exact hFiller.splits_append_iff.mpr hBack
  | skip h hRest ih =>
    rcases h.skipped with hGap | ⟨rfl, body, rfl, hBody⟩
    · rw [List.append_assoc, splits_append_iff_of_gap (hGap _)] at hWhole
      rw [List.append_assoc, List.append_assoc, splits_append_iff_of_gap (hGap _), ← List.append_assoc]
      exact ih hWhole
    · cases hRest.unique .nil
      rw [List.append_nil] at hWhole ⊢
      exact hFiller.splits_open hBody hWhole hBack
  | @terminal cs rest t ts h hRest ih =>
    -- only the last terminal of the front part has the filler right behind it
    have hOthers : Splits (rest ++ v) (ts ++ us) := by
      obtain _ | ⟨c, rest⟩ := rest
      · cases hRest.unique .nil
        exact hBack
      · have hLeads : Leads cs (c :: rest ++ v) (some t) := h.followed fun d hd => .inl hd
        rw [List.append_assoc] at hWhole
        obtain ⟨_, hSame, hOthers⟩ := (splits_terminal_iff hLeads).mp hWhole
        cases hSame
        exact hOthers
    rw [List.append_assoc, List.append_assoc]
    refine .terminal (h.followed fun c hc => ?_) (List.append_assoc _ _ _ ▸ ih hOthers)
    obtain _ | ⟨d, rest⟩ := rest
    · exact .inr (hFiller.head hNonempty c hc)
    · exact .inl hc

theorem entriesOf_insert {entries : List Entry} (hPlace : Boundary u v ∨ ∃ ts us, Cut u v ts us)
    (hFiller : Filler g) (hEntries : entriesOf (String.ofList (u ++ v)) = .ok entries) :
    entriesOf (String.ofList (u ++ g ++ v)) = .ok entries := by
  rw [entriesOf_eq_ok_iff, String.toList_ofList] at hEntries ⊢
  obtain ⟨all, hSplits, hDerives⟩ := hEntries
  obtain ⟨ts, us, rfl, hCut⟩ : ∃ ts us, all = ts ++ us ∧ Cut u v ts us := by
    rcases hPlace with hBoundary | ⟨ts, us, hCut⟩
    · exact hBoundary.cut hSplits
    · exact ⟨ts, us, hSplits.unique hCut.whole, hCut⟩
  exact ⟨_, hCut.insert hFiller, hDerives⟩

/-- A text has the entries that the grammar derives from the terminals it splits into, and no text
has others. The place of its arrow tells an arc without an identifier from one with it. White space
and comments can be added between any two terminals, before the first one and behind the last one. -/
theorem entriesOf_exact :
    (∀ (text : String) (entries : List Entry),
      entriesOf text = .ok entries ↔ ∃ ts, Splits text.toList ts ∧ DerivesFile ts entries) ∧
    (∀ text ts us, Splits text ts → Splits text us → ts = us) ∧
    (∀ ts entries entries', DerivesFile ts entries → DerivesFile ts entries' → entries = entries') ∧
    (∀ ts id source target attributes, (DerivesEntry ts (.input id source target attributes) ∨
      DerivesEntry ts (.output id source target attributes)) →
        (id = none ↔ ts[2]? = some .arrow) ∧ (id.isSome ↔ ts[3]? = some .arrow)) ∧
    (∀ (u g v : List Char) (entries : List Entry), (Boundary u v ∨ ∃ ts us, Cut u v ts us) →
      Filler g → entriesOf (String.ofList (u ++ v)) = .ok entries →
        entriesOf (String.ofList (u ++ g ++ v)) = .ok entries) ∧
    (∀ text ts us, Splits text (ts ++ us) →
      ∃ u v, text = u ++ v ∧ Boundary u v ∧ Cut u v ts us) ∧
    ∀ text ts, Splits text ts → Boundary [] text ∧ Boundary text [] :=
  ⟨fun _ _ => entriesOf_eq_ok_iff, fun _ _ _ => Splits.unique, fun _ _ _ => DerivesFile.unique,
    fun _ _ _ _ _ => arrow_of_derivesEntry, fun _ _ _ _ => entriesOf_insert,
    fun _ _ _ => Splits.exists_boundary, fun _ _ h => ⟨.start, h.boundary_end⟩⟩

/-- Names with dots that begin with keywords, strings with the sign of a comment and a line feed, a
comment with a quote, and arcs with and without an identifier. -/
def crowdedFront : String :=
  "net net.x label \"a # b\n\"; place p capacity 3 tokens [\"1\",]; # \"\n transition t;\ninput a p"

def crowdedBack : String := " -> t; output t->p;"

def crowdedEntries : List Entry :=
  [.net "net.x" (some "a # b\n"), .place "p" [.capacity 3, .tokens ["1"]], .transition "t" [],
    .input (some "a") "p" "t" [], .output none "t" "p" []]

theorem entriesOf_exact_crowded :
    (∃ ts, Splits (crowdedFront ++ crowdedBack).toList ts ∧ DerivesFile ts crowdedEntries) ∧
    entriesOf (crowdedFront ++ " # -> \"\n" ++ crowdedBack) = .ok crowdedEntries ∧
    ¬ ∃ ts entries, Splits "place p capacity 18446744073709551616;".toList ts ∧
      DerivesFile ts entries := by
  obtain ⟨hExact, _, _, _, hInsert, _⟩ := entriesOf_exact
  have hEntries : entriesOf (crowdedFront ++ crowdedBack) = .ok crowdedEntries := by rfl
  have hCut : Cut crowdedFront.toList crowdedBack.toList
      ((lexicon.scan crowdedFront.toList).lexemes.map Lexeme.terminal)
      ((lexicon.scan crowdedBack.toList).lexemes.map Lexeme.terminal) :=
    ⟨splits_iff_scan.mpr (by decide +kernel), splits_iff_scan.mpr (by decide +kernel),
      splits_iff_scan.mpr (by decide +kernel)⟩
  have hFiller : Filler " # -> \"\n".toList := by
    have hComment : Filler ('#' :: [' ', '-', '>', ' ', '"'] ++ ['\n']) :=
      .comment (by simp [isBreak]) (by decide) .nil
    exact .blank (c := ' ') (by decide) hComment
  refine ⟨(hExact _ _).mp hEntries, ?_, ?_⟩
  · have hInserted := hInsert _ _ _ crowdedEntries (.inr ⟨_, _, hCut⟩) hFiller
    simp only [String.ofList_append, String.ofList_toList] at hInserted
    exact hInserted hEntries
  · rintro ⟨ts, entries, hSplits, hDerives⟩
    have hAccepted := (hExact _ _).mpr ⟨ts, hSplits, hDerives⟩
    have hRejected : entriesOf "place p capacity 18446744073709551616;" =
        .error (.outOfRange "capacity") := by rfl
    rw [hRejected] at hAccepted
    cases hAccepted

end Petri.NetFile
