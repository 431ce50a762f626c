import Petri.Proofs.Text.Quoting

/-! # JSON

The values that are made of texts, natural numbers, lists and objects, and a reader of JSON for them.
Whether a text is what JSON writes for a value can be shown piece by piece, and what is written is read
as the value it was written for.
-/
namespace Petri
open Text
set_option autoImplicit false

inductive Json where
  | text (s : String)
  | number (n : Nat)
  | list (items : List Json)
  | object (members : List (String × Json))

namespace Json

/-! ## Looking into values -/

def text? : Json → Option String
  | text s => some s
  | _ => none

def number? : Json → Option Nat
  | number n => some n
  | _ => none

def texts? : Json → Option (List String)
  | list items => items.mapM text?
  | _ => none

/-- The value of a member of an object, wherever it stands among the members. -/
def member? : Json → String → Option Json
  | object members, name => members.lookup name
  | _, _ => none

theorem texts?_list (texts : List String) : (list (texts.map text)).texts? = some texts := by
  rw [texts?, List.mapM_map]
  change texts.mapM (fun t => (pure t : Option String)) = some texts
  rw [List.mapM_pure, List.map_id']
  rfl

/-! ## Terminals -/

inductive Terminal where
  | openBrace | closeBrace | openBracket | closeBracket | colon | comma
  | numeral (digits : List Char)
  /-- A string; `body` is what stands between the quotes. -/
  | quoted (body : List Char)
  deriving DecidableEq

namespace Terminal

def spelling : Terminal → List Char
  | openBrace => ['\x7b']
  | closeBrace => ['\x7d']
  | openBracket => ['[']
  | closeBracket => [']']
  | colon => [':']
  | comma => [',']
  | numeral digits => digits
  | quoted body => inQuotes body

/-- No numeral but zero begins with a zero. -/
def read : List Char → Option Terminal
  | [] => none
  | c :: cs =>
    match c with
    | '\x7b' => some openBrace
    | '\x7d' => some closeBrace
    | '[' => some openBracket
    | ']' => some closeBracket
    | ':' => some colon
    | ',' => some comma
    | '"' => (Quoted.body cs).map quoted
    | '0' => some (numeral ['0'])
    | _ => if c.isDigit then some (numeral (c :: cs.takeWhile Char.isDigit)) else none

end Terminal

def isSpace (c : Char) : Bool := c == ' ' || c == '\t' || c == '\n' || c == '\r'

def lexicon : Lexicon Terminal where
  gap := List.takeWhile isSpace
  read := Terminal.read
  spelling := Terminal.spelling

/-! ## Strings -/

def hexDigit? (c : Char) : Option Nat :=
  if c.isDigit then some (c.toNat - '0'.toNat)
  else if 'a' ≤ c ∧ c ≤ 'f' then some (c.toNat - 'a'.toNat + 10)
  else if 'A' ≤ c ∧ c ≤ 'F' then some (c.toNat - 'A'.toNat + 10)
  else none

/-- The character with this number in hexadecimal digits. Halves of surrogate pairs are none. -/
def numbered? (digits : List Char) : Option Char := do
  let number ← digits.foldlM (fun n d => (hexDigit? d).map (16 * n + ·)) 0
  if number.isValidChar then some (Char.ofNat number) else none

/-- The character that a letter behind a backslash stands for. -/
def lettered? : Char → Option Char
  | '"' => some '"'
  | '\\' => some '\\'
  | '/' => some '/'
  | 'b' => some '\x08'
  | 'f' => some '\x0c'
  | 'n' => some '\n'
  | 'r' => some '\r'
  | 't' => some '\t'
  | _ => none

/-- No character below the blank stands in a string as it is. -/
def unescape : List Char → Option (List Char)
  | [] => some []
  | '\\' :: 'u' :: a :: b :: c :: d :: cs =>
    Option.map₂ List.cons (numbered? [a, b, c, d]) (unescape cs)
  | '\\' :: c :: cs => Option.map₂ List.cons (lettered? c) (unescape cs)
  | c :: cs => if c = '\\' ∨ c.toNat < 32 then none else (unescape cs).map (c :: ·)

/-! ## Sentences -/

/-- What is read off the head of some terminals, and the terminals behind it. -/
abbrev Reader (α : Type) : Type := List Terminal → Option (α × List Terminal)

/-- One item or more with commas between them, up to a closing terminal. The number bounds how many
items there are. -/
def readSeparated {α : Type} (close : Terminal) (read : Reader α) : Nat → Reader (List α)
  | 0, _ => none
  | bound + 1, ts =>
    match read ts with
    | some (a, t :: rest) =>
      if t = close then some ([a], rest)
      else if t = .comma then
        (readSeparated close read bound rest).map fun others => (a :: others.1, others.2)
      else none
    | _ => none

def readEnclosed {α : Type} (close : Terminal) (read : Reader α) (bound : Nat) : Reader (List α)
  | [] => none
  | t :: ts => if t = close then some ([], ts) else readSeparated close read bound (t :: ts)

def readMember (read : Reader Json) (ts : List Terminal) :
    Option ((String × Json) × List Terminal) :=
  match read ts with
  | some (.text name, .colon :: rest) => (read rest).map fun value => ((name, value.1), value.2)
  | _ => none

/-- A value nested no deeper than the number says, and with no more items in a list. -/
def readValue : Nat → Reader Json
  | 0, _ => none
  | bound + 1, ts =>
    match ts with
    | .quoted body :: rest => (unescape body).map fun cs => (.text (String.ofList cs), rest)
    | .numeral digits :: rest => some (.number (Nat.ofDigitChars 10 digits 0), rest)
    | .openBracket :: rest =>
      (readEnclosed .closeBracket (readValue bound) bound rest).map fun items =>
        (.list items.1, items.2)
    | .openBrace :: rest =>
      (readEnclosed .closeBrace (readMember (readValue bound)) bound rest).map fun members =>
        (.object members.1, members.2)
    | _ => none

def parse (text : String) : Option Json :=
  let lexed := lexicon.scan text.toList
  let terminals := lexed.lexemes.map Lexeme.terminal
  match lexed.invalid, readValue terminals.length terminals with
  | none, some (v, []) => some v
  | _, _ => none

/-! ## Terminals that are read -/

/-- The terminals are read as `a`, whatever follows. -/
def Takes {α : Type} (read : Reader α) (ts : List Terminal) (a : α) : Prop :=
  ∀ rest, read (ts ++ rest) = some (a, rest)

def separated (tss : List (List Terminal)) : List Terminal := [Terminal.comma].intercalate tss

@[simp] theorem separated_nil : separated [] = [] := rfl

@[simp] theorem separated_singleton (ts : List Terminal) : separated [ts] = ts := by
  simp [separated]

theorem separated_cons_cons (ts ts' : List Terminal) (tss : List (List Terminal)) :
    separated (ts :: ts' :: tss) = ts ++ .comma :: separated (ts' :: tss) := by
  simp [separated, List.intercalate_cons_cons]

theorem length_separated (tss : List (List Terminal)) :
    tss.length ≤ (separated tss).length + 1 ∧ ∀ ts ∈ tss, ts.length ≤ (separated tss).length := by
  induction tss with
  | nil => simp
  | cons ts tss ih =>
    cases tss with
    | nil => simp
    | cons ts' tss =>
      obtain ⟨hMany, hEach⟩ := ih
      have hLength : (separated (ts :: ts' :: tss)).length =
          ts.length + (separated (ts' :: tss)).length + 1 := by
        rw [separated_cons_cons, List.length_append, List.length_cons, Nat.add_assoc]
      rw [hLength, List.length_cons, List.forall_mem_cons]
      refine ⟨by omega, by omega, fun us hus => ?_⟩
      have hOne := hEach us hus
      omega

section Enclosed
variable {α : Type} {close : Terminal} {read : Reader α} {tss : List (List Terminal)} {as : List α}

theorem takes_separated (hClose : close ≠ .comma) (h : List.Forall₂ (Takes read) tss as)
    (hSome : tss ≠ []) {bound : Nat} (hBound : tss.length ≤ bound) :
    Takes (readSeparated close read bound) (separated tss ++ [close]) as := by
  induction h generalizing bound with
  | nil => exact absurd rfl hSome
  | @cons ts a tss as hTakes hRest ih =>
    obtain ⟨bound, rfl⟩ := Nat.exists_eq_add_of_le' hBound
    intro rest
    -- behind the last item stands the closing terminal, and behind every other one a comma
    cases hRest with
    | nil => simp [readSeparated, hTakes (close :: rest)]
    | @cons ts' a' tss as _ _ =>
      have hTail := ih (List.cons_ne_nil _ _) (Nat.le_add_left _ bound) rest
      rw [separated_cons_cons, List.append_assoc, List.append_assoc, List.length_cons,
        ← Nat.add_assoc, readSeparated, hTakes, List.cons_append, ← List.append_assoc]
      simp only [if_neg hClose.symm, if_true, hTail, Option.map_some]

/-- No item begins with a terminal that no item is read off. -/
theorem Takes.head_ne {ts : List Terminal} {a : α} (h : Takes read ts a)
    (hRead : ∀ rest, read (close :: rest) = none) : ∃ t us, ts = t :: us ∧ t ≠ close := by
  cases ts with
  | nil => exact absurd ((hRead []).symm.trans (h [close])) nofun
  | cons t us =>
    refine ⟨t, us, rfl, ?_⟩
    rintro rfl
    exact absurd ((hRead _).symm.trans (h [])) nofun

theorem takes_enclosed (hRead : ∀ rest, read (close :: rest) = none) (hClose : close ≠ .comma)
    (h : List.Forall₂ (Takes read) tss as) {bound : Nat} (hBound : tss.length ≤ bound) :
    Takes (readEnclosed close read bound) (separated tss ++ [close]) as := by
  intro rest
  obtain _ | ⟨hTakes, hRest⟩ := h
  · simp [readEnclosed]
  · rename_i ts a tss as
    have hSeparated := takes_separated hClose (.cons hTakes hRest) (List.cons_ne_nil _ _) hBound rest
    -- the first item keeps the closing terminal from standing at the head
    obtain ⟨t, us, rfl, hOther⟩ := hTakes.head_ne hRead
    obtain ⟨others, hOthers⟩ : ∃ others, separated ((t :: us) :: tss) = t :: others := by
      cases tss with
      | nil => exact ⟨us, separated_singleton _⟩
      | cons ts' tss => exact ⟨_, separated_cons_cons _ _ _⟩
    rw [hOthers] at hSeparated ⊢
    rw [List.cons_append, List.cons_append] at hSeparated ⊢
    rw [readEnclosed, if_neg hOther, hSeparated]

end Enclosed

/-! ## Values -/

/-- The terminals are read as `a` with any bound that is not below their number. -/
def Reads {α : Type} (read : Nat → Reader α) (ts : List Terminal) (a : α) : Prop :=
  ∀ bound, ts.length ≤ bound → Takes (read bound) ts a

theorem reads_text {body cs : List Char} (h : unescape body = some cs) :
    Reads readValue [.quoted body] (.text (String.ofList cs)) := by
  intro bound hBound rest
  obtain ⟨bound, rfl⟩ := Nat.exists_eq_add_of_le' hBound
  simp only [List.singleton_append, List.length_singleton, readValue, h, Option.map_some]

theorem reads_number (n : Nat) : Reads readValue [.numeral (toString n).toList] (.number n) := by
  intro bound hBound rest
  obtain ⟨bound, rfl⟩ := Nat.exists_eq_add_of_le' hBound
  simp only [List.singleton_append, List.length_singleton, readValue, ofDigitChars_toString]

theorem reads_member {ts us : List Terminal} {name : String} {v : Json}
    (hName : Reads readValue ts (.text name)) (hValue : Reads readValue us v) :
    Reads (fun bound => readMember (readValue bound)) (ts ++ .colon :: us) (name, v) := by
  intro bound hBound rest
  rw [List.length_append, List.length_cons] at hBound
  have hRest := hValue bound (by omega) rest
  change readMember (readValue bound) (ts ++ .colon :: us ++ rest) = _
  rw [List.append_assoc, readMember, hName bound (by omega), List.cons_append]
  simp only [hRest, Option.map_some]

theorem readValue_close {bound : Nat} {t : Terminal} (h : t = .closeBracket ∨ t = .closeBrace)
    (rest : List Terminal) : readValue bound (t :: rest) = none := by
  cases bound with
  | zero => rfl
  | succ bound => rcases h with rfl | rfl <;> rfl

theorem Reads.enclosed {α : Type} {close : Terminal} {read : Nat → Reader α} {as : List α}
    {tss : List (List Terminal)} (hRead : ∀ bound rest, read bound (close :: rest) = none)
    (hClose : close ≠ .comma) (h : List.Forall₂ (Reads read) tss as) {bound : Nat}
    (hBound : (separated tss).length < bound) :
    Takes (readEnclosed close (read bound) bound) (separated tss ++ [close]) as := by
  obtain ⟨hMany, hEach⟩ := length_separated tss
  -- no item has more terminals than all of them together
  have hItems : List.Forall₂ (Takes (read bound)) tss as := by
    have hBounded : ∀ ts ∈ tss, ts.length ≤ bound := fun ts hts => by
      have hOne := hEach ts hts
      omega
    exact ((List.forall₂_and_left _ _).mpr ⟨hBounded, h⟩).imp fun _ _ hOne => hOne.2 bound hOne.1
  exact takes_enclosed (hRead bound) hClose hItems (by omega)

theorem reads_list {tss : List (List Terminal)} {items : List Json}
    (h : List.Forall₂ (Reads readValue) tss items) :
    Reads readValue (.openBracket :: (separated tss ++ [.closeBracket])) (.list items) := by
  intro bound hBound rest
  obtain _ | bound := bound
  · cases hBound
  rw [List.length_cons, List.length_append] at hBound
  have hNone (bound : Nat) (rest : List Terminal) :
      readValue bound (.closeBracket :: rest) = none := readValue_close (.inl rfl) rest
  have hItems := Reads.enclosed hNone nofun h (Nat.le_of_succ_le_succ hBound) rest
  rw [List.cons_append, readValue, hItems, Option.map_some]

theorem reads_object {tss : List (List Terminal)} {members : List (String × Json)}
    (h : List.Forall₂ (Reads fun bound => readMember (readValue bound)) tss members) :
    Reads readValue (.openBrace :: (separated tss ++ [.closeBrace])) (.object members) := by
  intro bound hBound rest
  obtain _ | bound := bound
  · cases hBound
  rw [List.length_cons, List.length_append] at hBound
  have hNone (bound : Nat) (rest : List Terminal) :
      readMember (readValue bound) (.closeBrace :: rest) = none := by
    rw [readMember, readValue_close (.inr rfl)]
  have hMembers := Reads.enclosed hNone nofun h (Nat.le_of_succ_le_succ hBound) rest
  rw [List.cons_append, readValue, hMembers, Option.map_some]

/-! ## Texts that are cut into terminals -/

theorem gap_eq_nil {c : Char} (h : isSpace c = false) (cs : List Char) :
    lexicon.gap (c :: cs) = [] :=
  List.takeWhile_cons_of_neg (by simp [h])

def marks : List (Char × Terminal) :=
  [('\x7b', .openBrace), ('\x7d', .closeBrace), ('[', .openBracket), (']', .closeBracket),
   (':', .colon), (',', .comma)]

theorem symbol_mark {c : Char} {t : Terminal} (h : (c, t) ∈ marks) : lexicon.Symbol c [] t := by
  simp only [marks, List.mem_cons, List.not_mem_nil, Prod.mk.injEq, or_false] at h
  rcases h with ⟨rfl, rfl⟩ | ⟨rfl, rfl⟩ | ⟨rfl, rfl⟩ | ⟨rfl, rfl⟩ | ⟨rfl, rfl⟩ | ⟨rfl, rfl⟩ <;>
    exact ⟨rfl, gap_eq_nil (by decide), fun _ => rfl⟩

theorem isDigit_mark : ∀ mark ∈ marks, mark.1.isDigit = false := by decide

/-- Characters that are cut into these terminals where no digit follows. -/
abbrev Cut (cs : List Char) (ts : List Terminal) : Prop := lexicon.Chunk Char.isDigit cs ts

theorem Cut.behind {cs : List Char} {ts : List Terminal} {c : Char} {t : Terminal}
    (hMark : (c, t) ∈ marks) (h : Cut cs ts) : lexicon.Piece Char.isDigit (c :: cs) (t :: ts) where
  chunk := (symbol_mark hMark).cons h
  ends _ _ := ends_cons (isDigit_mark _ hMark) _

theorem cut_separated {css : List (List Char)} {tss : List (List Terminal)}
    (h : List.Forall₂ Cut css tss) : Cut ([','].intercalate css) (separated tss) := by
  induction h with
  | nil => exact .nil
  | @cons cs ts css tss hCut hRest ih =>
    cases hRest with
    | nil => simpa using hCut
    | @cons cs' ts' css tss _ _ =>
      rw [List.intercalate_cons_cons, separated_cons_cons, List.append_assoc]
      exact hCut.append (Cut.behind (by decide) ih)

theorem cut_enclosed {css : List (List Char)} {tss : List (List Terminal)}
    (h : List.Forall₂ Cut css tss) {c d : Char} {t u : Terminal} (hOpen : (c, t) ∈ marks)
    (hClose : (d, u) ∈ marks) :
    Cut (c :: ([','].intercalate css ++ [d])) (t :: (separated tss ++ [u])) := by
  have hEnd : lexicon.Piece Char.isDigit [d] [u] := Cut.behind hClose .nil
  exact (Cut.behind hOpen ((cut_separated h).append hEnd)).chunk

theorem cut_quoted {body : List Char} (h : NetFile.IsBody body) :
    Cut (inQuotes body) [.quoted body] := by
  refine .terminal rfl (gap_eq_nil (by decide)) fun rest _ => ?_
  change (Quoted.body (body ++ ['"'] ++ rest)).map Terminal.quoted = _
  rw [body_closed h, Option.map_some]

theorem head_toDigits {n : Nat} (h : 0 < n) : (Nat.toDigits 10 n).head? ≠ some '0' := by
  induction n using Nat.strongRecOn with
  | ind n ih =>
    rcases Nat.lt_or_ge n 10 with hLast | hMore
    · rw [Nat.toDigits_of_lt_base hLast]
      have hDigits : ∀ m < 10, 0 < m → [m.digitChar].head? ≠ some '0' := by decide
      exact hDigits n hLast h
    · rw [Nat.toDigits_of_base_le (by decide) hMore, List.head?_append_of_ne_nil _ Nat.toDigits_ne_nil]
      exact ih (n / 10) (by omega) (by omega)

theorem read_of_isDigit {c : Char} (h : c.isDigit = true) (hZero : c ≠ '0') (cs : List Char) :
    Terminal.read (c :: cs) = some (.numeral (c :: cs.takeWhile Char.isDigit)) := by
  unfold Terminal.read
  dsimp only
  split
  any_goals cases h
  · exact absurd rfl hZero
  · rw [if_pos h]

theorem isSpace_of_isDigit {c : Char} (h : c.isDigit = true) : isSpace c = false := by
  rw [Bool.eq_false_iff]
  intro hSpace
  simp only [isSpace, Bool.or_eq_true, beq_iff_eq] at hSpace
  rcases hSpace with ((rfl | rfl) | rfl) | rfl <;> cases h

theorem cut_numeral (n : Nat) : Cut (toString n).toList [.numeral (toString n).toList] := by
  rcases n.eq_zero_or_pos with rfl | hPositive
  · exact .terminal rfl (gap_eq_nil (by decide)) fun _ _ => rfl
  · obtain ⟨c, cs, hDigits, hDigit, hAll⟩ := exists_digits n
    have hZero : c ≠ '0' := by
      rintro rfl
      exact head_toDigits hPositive (by rw [← toList_toString, hDigits]; rfl)
    rw [hDigits]
    exact .run rfl (gap_eq_nil (isSpace_of_isDigit hDigit)) (read_of_isDigit hDigit hZero) hAll
      fun _ hInner => hInner

/-! ## Texts that are written -/

/-- No line ends among the characters. -/
def Inline (cs : List Char) : Prop := ∀ c ∈ cs, 32 ≤ c.toNat

theorem Inline.append {cs ds : List Char} (h : Inline cs) (h' : Inline ds) : Inline (cs ++ ds) :=
  List.forall_mem_append.mpr ⟨h, h'⟩

theorem inline_singleton {c : Char} (h : 32 ≤ c.toNat) : Inline [c] :=
  fun _ hd => List.mem_singleton.mp hd ▸ h

theorem inline_mark {c : Char} {t : Terminal} (h : (c, t) ∈ marks) : Inline [c] := by
  have hMarks : ∀ mark ∈ marks, 32 ≤ mark.1.toNat := by decide
  exact inline_singleton (hMarks _ h)

theorem inline_intercalate {css : List (List Char)} (h : ∀ cs ∈ css, Inline cs) :
    Inline ([','].intercalate css) := by
  have hComma : Inline [','] := inline_singleton (by decide)
  induction css with
  | nil => exact fun _ hc => nomatch hc
  | cons cs css ih =>
    rw [List.forall_mem_cons] at h
    cases css with
    | nil => simpa using h.1
    | cons cs' css =>
      rw [List.intercalate_cons_cons]
      exact (h.1.append hComma).append (ih h.2)

/-- The text is one for `a` in a line of JSON. -/
structure Writes {α : Type} (read : Nat → Reader α) (text : String) (a : α) : Prop where
  inline : Inline text.toList
  readable : ∃ ts, Cut text.toList ts ∧ Reads read ts a

theorem parse_of_writes {text : String} {v : Json} (h : Writes readValue text v) :
    parse text = some v := by
  obtain ⟨ts, hCut, hReads⟩ := h.readable
  obtain ⟨hTerminals, hInvalid⟩ := hCut.whole.scanFrom text.toList.length 0 (Nat.le_refl _)
  have hWhole := hReads ts.length (Nat.le_refl _) []
  rw [List.append_nil] at hWhole
  simp only [parse, Lexicon.scan, hTerminals, hInvalid, hWhole]

theorem writes_text {body : List Char} {text : String} (hBody : NetFile.IsBody body)
    (hText : unescape body = some text.toList) (hInline : Inline body) :
    Writes readValue (String.ofList (inQuotes body)) (.text text) where
  inline := by
    have hQuote : Inline ['"'] := inline_singleton (by decide)
    rw [String.toList_ofList]
    exact hQuote.append (hInline.append hQuote)
  readable := by
    refine ⟨[.quoted body], ?_, ?_⟩
    · rw [String.toList_ofList]
      exact cut_quoted hBody
    · have hReads := reads_text hText
      rwa [String.ofList_toList] at hReads

theorem writes_number (n : Nat) : Writes readValue (toString n) (.number n) where
  inline c hc := by
    have hBounds := bounds_of_isWordPart (isWordPart_of_isDigit (isDigit_of_mem_toString hc))
    omega
  readable := ⟨_, cut_numeral n, reads_number n⟩

theorem writes_member {name value key : String} {v : Json}
    (hName : Writes readValue name (.text key)) (hValue : Writes readValue value v) :
    Writes (fun bound => readMember (readValue bound)) (name ++ ":" ++ value) (key, v) where
  inline := by
    rw [String.toList_append, String.toList_append]
    exact (hName.inline.append (inline_singleton (by decide))).append hValue.inline
  readable := by
    obtain ⟨ts, hCut, hReads⟩ := hName.readable
    obtain ⟨us, hCut', hReads'⟩ := hValue.readable
    refine ⟨ts ++ .colon :: us, ?_, reads_member hReads hReads'⟩
    rw [String.toList_append, String.toList_append, List.append_assoc]
    exact hCut.append (Cut.behind (by decide) hCut')

section Enclosed
variable {α : Type} {read : Nat → Reader α} {texts : List String} {as : List α}

theorem inline_of_writes (h : List.Forall₂ (Writes read) texts as) :
    ∀ cs ∈ texts.map String.toList, Inline cs := by
  induction h with
  | nil => nofun
  | cons hOne _ ih =>
    rw [List.map_cons, List.forall_mem_cons]
    exact ⟨hOne.inline, ih⟩

theorem readable_of_writes (h : List.Forall₂ (Writes read) texts as) :
    ∃ tss, List.Forall₂ Cut (texts.map String.toList) tss ∧ List.Forall₂ (Reads read) tss as := by
  induction h with
  | nil => exact ⟨[], .nil, .nil⟩
  | cons hOne _ ih =>
    obtain ⟨ts, hCut, hReads⟩ := hOne.readable
    obtain ⟨tss, hCuts, hAll⟩ := ih
    exact ⟨ts :: tss, .cons hCut hCuts, .cons hReads hAll⟩

theorem writes_enclosed (h : List.Forall₂ (Writes read) texts as) {start stop : String} {c d : Char}
    {t u : Terminal} (hStart : start.toList = [c]) (hStop : stop.toList = [d])
    (hOpen : (c, t) ∈ marks) (hClose : (d, u) ∈ marks) {v : Json}
    (hReads : ∀ tss, List.Forall₂ (Reads read) tss as →
      Reads readValue (t :: (separated tss ++ [u])) v) :
    Writes readValue (start ++ String.intercalate "," texts ++ stop) v := by
  have hText : (start ++ String.intercalate "," texts ++ stop).toList =
      c :: ([','].intercalate (texts.map String.toList) ++ [d]) := by
    rw [String.toList_append, String.toList_append, String.toList_intercalate, hStart, hStop]
    rfl
  obtain ⟨tss, hCuts, hAll⟩ := readable_of_writes h
  refine ⟨?_, _, ?_, hReads tss hAll⟩
  · rw [hText]
    exact (inline_mark hOpen).append
      ((inline_intercalate (inline_of_writes h)).append (inline_mark hClose))
  · rw [hText]
    exact cut_enclosed hCuts hOpen hClose

end Enclosed

theorem writes_list {texts : List String} {items : List Json}
    (h : List.Forall₂ (Writes readValue) texts items) :
    Writes readValue ("[" ++ String.intercalate "," texts ++ "]") (.list items) :=
  writes_enclosed h rfl rfl (by decide) (by decide) fun _ => reads_list

theorem writes_object {texts : List String} {members : List (String × Json)}
    (h : List.Forall₂ (Writes fun bound => readMember (readValue bound)) texts members) :
    Writes readValue ("\x7b" ++ String.intercalate "," texts ++ "\x7d") (.object members) :=
  writes_enclosed h rfl rfl (by decide) (by decide) fun _ => reads_object

end Json
end Petri
