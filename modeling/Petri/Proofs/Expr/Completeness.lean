import Petri.Proofs.Expr.Soundness
import Petri.Proofs.Text.Scanning

/-! # What is derived is read

Reading a sentence of a level finds its expression, whatever follows it but an operator of this level
or of a tighter one. Eight steps of fuel for each lexeme are enough, as a term stands seven steps
below the loosest level.
-/
namespace Petri.Expr
open Text
set_option autoImplicit false

/-! ## What may follow -/

/-- The lexemes begin with no operator of this level or of a tighter one. -/
def Stops (level : Level) (ls : Lexemes) : Prop :=
  ∀ l ∈ ls.head?, ∀ other : Level, level.rank ≤ other.rank → other.operator l.terminal = none

namespace Stops
variable {level : Level} {ls : Lexemes} {l : Lexeme Terminal}

theorem nil (level : Level) : Stops level [] := fun _ hl => nomatch hl

theorem of_terminal (hl : ∀ other : Level, other.operator l.terminal = none) (level : Level)
    (ls : Lexemes) : Stops level (l :: ls) := by
  intro k hk other _
  cases hk
  exact hl other

theorem unary (ls : Lexemes) : Stops .unary ls := by
  intro l _ other hRank
  cases other <;> first | rfl | exact absurd hRank (by decide)

theorem tighter (hLevel : level ≠ .unary) (h : Stops level ls) : Stops level.tighter ls := by
  intro l hl other hRank
  rw [Level.rank_tighter hLevel] at hRank
  exact h l hl other (by omega)

theorem of_operator {op : Operator} (hOp : level.operator l.terminal = some op) (ls : Lexemes) :
    Stops level.tighter (l :: ls) := by
  intro k hk other hRank
  cases hk
  refine Level.operator_eq_none hOp ?_
  rintro rfl
  cases other <;> first | cases hOp | exact absurd hRank (by decide)

end Stops

/-- After the first operand stands an operator of the level, or what follows the sentence. -/
theorem Continues.stops {level : Level} {lhs e : Expr} {ts : List Terminal} {front rest : Lexemes}
    (hLevel : level ≠ .unary) (h : Continues level lhs ts e)
    (hFront : front.map Lexeme.terminal = ts) (hStops : Stops level rest) :
    Stops level.tighter (front ++ rest) := by
  cases h with
  | done =>
    cases List.map_eq_nil_iff.mp hFront
    exact hStops.tighter hLevel
  | more hOp =>
    obtain ⟨spelling, start, ls, rfl, _⟩ := exists_cons_of_terminals hFront
    exact .of_operator hOp _

variable {reading : Reading} {fuel : Nat}

theorem parseChain_of_stops {level : Level} {ls : Lexemes} (h : Stops level ls) (e : Expr) :
    parseChain reading (fuel + 1) level e ls = .ok (e, ls) := by
  cases ls with
  | nil => rfl
  | cons l ls => rw [parseChain, h l rfl level (Nat.le_refl _)]

/-! ## Brackets -/

/-- The lexemes of an opening bracket, of what it encloses and of the closing bracket. -/
theorem exists_enclosed {first last : Terminal} {ts : List Terminal} {front : Lexemes}
    (h : front.map Lexeme.terminal = first :: ts ++ [last]) (rest : Lexemes) :
    ∃ spelling start inner spelling' start',
      front ++ rest = ⟨first, spelling, start⟩ :: (inner ++ ⟨last, spelling', start'⟩ :: rest) ∧
        inner.map Lexeme.terminal = ts ∧ front.length = inner.length + 2 := by
  obtain ⟨spelling, start, tail, rfl, hTail⟩ := exists_cons_of_terminals h
  obtain ⟨inner, ends, rfl, hInner, hEnds⟩ := List.map_eq_append_iff.mp hTail
  obtain ⟨spelling', start', others, rfl, hNil⟩ := exists_cons_of_terminals hEnds
  cases List.map_eq_nil_iff.mp hNil
  refine ⟨spelling, start, inner, spelling', start', ?_, hInner, ?_⟩
  · rw [List.cons_append, List.append_assoc, List.singleton_append]
  · rw [List.length_cons, List.length_append, List.length_singleton]

/-- The lexemes do not begin with the end of a sequence. -/
def Opens (close : Terminal) (ls : Lexemes) : Prop :=
  ∃ l rest, ls = l :: rest ∧ l.terminal ≠ close

theorem Derives.opens {level : Level} {ts : List Terminal} {e : Expr} {front : Lexemes}
    {close : Terminal} (h : Derives level ts e) (hFront : front.map Lexeme.terminal = ts)
    (hClose : close = .closeParen ∨ close = .closeBracket) (tail : Lexemes) :
    Opens close (front ++ tail) := by
  obtain ⟨t, us, rfl, hParen, hBracket⟩ := h.exists_head
  obtain ⟨spelling, start, ls, rfl, _⟩ := exists_cons_of_terminals hFront
  refine ⟨⟨t, spelling, start⟩, ls ++ tail, rfl, ?_⟩
  rcases hClose with rfl | rfl
  · exact hParen
  · exact hBracket

theorem parseItems_last {close : Terminal} {next : Lexeme Terminal} {ls rest : Lexemes}
    {item : Expr} (hOpens : Opens close ls)
    (hItem : parseLevel reading fuel .or ls = .ok (item, next :: rest))
    (hNext : next.terminal = close) :
    parseItems reading close (fuel + 1) ls = .ok ([item], rest) := by
  obtain ⟨l, ls, rfl, hHead⟩ := hOpens
  simp only [parseItems, if_neg hHead, hItem, bind, Except.bind, if_pos hNext]
  rfl

theorem parseItems_cons {close : Terminal} {next : Lexeme Terminal} {ls others rest : Lexemes}
    {item : Expr} {items : List Expr} (hOpens : Opens close ls)
    (hItem : parseLevel reading fuel .or ls = .ok (item, next :: others))
    (hNext : next.terminal = .comma) (hClose : close ≠ .comma)
    (hItems : parseItems reading close fuel others = .ok (items, rest)) :
    parseItems reading close (fuel + 1) ls = .ok (item :: items, rest) := by
  obtain ⟨l, ls, rfl, hHead⟩ := hOpens
  have hNext' : next.terminal ≠ close := hNext ▸ hClose.symm
  simp only [parseItems, if_neg hHead, hItem, bind, Except.bind, if_neg hNext', if_pos hNext,
    hItems]
  rfl

/-- What stands behind an opening parenthesis is read first, unless it is closed at once. -/
theorem parseTerm_openParen {spelling : List Char} {start : Nat} {ls : Lexemes}
    (hOpens : Opens .closeParen ls) :
    parseTerm reading (fuel + 1) (⟨.openParen, spelling, start⟩ :: ls) = (do
      let (first, rest) ← parseLevel reading fuel .or ls
      match rest with
      | ⟨.closeParen, _, _⟩ :: rest => return (first, rest)
      | ⟨.comma, _, _⟩ :: rest =>
        let (items, rest) ← parseItems reading .closeParen fuel rest
        return (.tuple (first :: items), rest)
      | rest => .error (unexpected reading.ending rest)) := by
  obtain ⟨l, ls, rfl, hHead⟩ := hOpens
  rewrite [parseTerm]
  · rfl
  · rintro spelling start rest hClose
    cases hClose
    exact hHead rfl

/-! ## Sentences -/

/-- With this much fuel, every sentence that is short enough is read. -/
structure Complete (reading : Reading) (fuel : Nat) : Prop where
  level : ∀ {level ts front rest e}, Derives level ts e → front.map Lexeme.terminal = ts →
    Stops level rest → 8 * front.length ≤ fuel + level.rank →
      parseLevel reading fuel level (front ++ rest) = .ok (e, rest)
  chain : ∀ {level lhs ts front rest e}, Continues level lhs ts e →
    front.map Lexeme.terminal = ts → Stops level rest → 8 * front.length < fuel →
      parseChain reading fuel level lhs (front ++ rest) = .ok (e, rest)
  term : ∀ {ts front rest e}, DerivesTerm ts e → front.map Lexeme.terminal = ts →
    8 * front.length ≤ fuel + 6 → parseTerm reading fuel (front ++ rest) = .ok (e, rest)
  items : ∀ {close ts front spelling start rest items}, DerivesItems ts items →
    front.map Lexeme.terminal = ts → close = .closeParen ∨ close = .closeBracket →
      8 * front.length < fuel →
        parseItems reading close fuel (front ++ ⟨close, spelling, start⟩ :: rest) = .ok (items, rest)

namespace Complete

theorem zero : Complete reading 0 where
  level {level ts front rest e} h hFront _ hFuel := by
    obtain ⟨t, us, rfl, _⟩ := h.exists_head
    obtain ⟨_, _, ls, rfl, _⟩ := exists_cons_of_terminals hFront
    rw [List.length_cons] at hFuel
    cases level <;> simp only [Level.rank] at hFuel <;> omega
  chain _ _ _ hFuel := absurd hFuel (Nat.not_lt_zero _)
  term h hFront hFuel := by
    obtain ⟨t, us, rfl, _⟩ := h.exists_head
    obtain ⟨_, _, ls, rfl, _⟩ := exists_cons_of_terminals hFront
    rw [List.length_cons] at hFuel
    omega
  items _ _ _ hFuel := absurd hFuel (Nat.not_lt_zero _)

variable {ts : List Terminal} {front rest : Lexemes} {e : Expr}

theorem unary_succ (h : Complete reading fuel) (hDerives : Derives .unary ts e)
    (hFront : front.map Lexeme.terminal = ts) (hFuel : 8 * front.length ≤ fuel + 6) :
    parseLevel reading (fuel + 1) .unary (front ++ rest) = .ok (e, rest) := by
  cases hDerives with
  | not hOperand | neg hOperand =>
    obtain ⟨spelling, start, ls, rfl, hLs⟩ := exists_cons_of_terminals hFront
    rw [List.length_cons] at hFuel
    have hRead := h.level hOperand hLs (.unary rest) (by simp only [Level.rank]; omega)
    rw [List.cons_append, parseLevel, hRead]
    rfl
  | ofTerm hTerm =>
    have hRead : parseTerm reading fuel (front ++ rest) = .ok (e, rest) :=
      h.term hTerm hFront hFuel
    obtain ⟨t, us, rfl, hBang, hMinus, _⟩ := hTerm.exists_head
    obtain ⟨spelling, start, ls, rfl, _⟩ := exists_cons_of_terminals hFront
    rw [List.cons_append, parseLevel]
    · exact hRead
    · rintro spelling start rest hHead
      cases hHead
      exact hBang rfl
    · rintro spelling start rest hHead
      cases hHead
      exact hMinus rfl

theorem level_succ (h : Complete reading fuel) {level : Level} (hDerives : Derives level ts e)
    (hFront : front.map Lexeme.terminal = ts) (hStops : Stops level rest)
    (hFuel : 8 * front.length ≤ fuel + 1 + level.rank) :
    parseLevel reading (fuel + 1) level (front ++ rest) = .ok (e, rest) := by
  by_cases hLevel : level = .unary
  · subst hLevel
    exact h.unary_succ hDerives hFront hFuel
  · obtain ⟨us, first, vs, rfl, hFirst, hRest⟩ := hDerives.exists_continues hLevel
    obtain ⟨ls, others, rfl, hLs, hOthers⟩ := List.map_eq_append_iff.mp hFront
    obtain ⟨t, us, rfl, _⟩ := hFirst.exists_head
    have hLength : 0 < ls.length := by
      obtain ⟨_, _, tail, rfl, _⟩ := exists_cons_of_terminals hLs
      exact Nat.succ_pos _
    rw [List.length_append] at hFuel
    have hRank := Level.rank_tighter hLevel
    have hLoose := Level.rank_lt hLevel
    -- the operand has one step less, but its level is tighter by one
    have hRead := h.level hFirst hLs (hRest.stops hLevel hOthers hStops) (by omega)
    rw [List.append_assoc, parseLevel, hRead]
    · exact h.chain hRest hOthers hStops (by omega)
    · exact hLevel

theorem chain_succ (h : Complete reading fuel) {level : Level} {lhs : Expr}
    (hContinues : Continues level lhs ts e) (hFront : front.map Lexeme.terminal = ts)
    (hStops : Stops level rest) (hFuel : 8 * front.length < fuel + 1) :
    parseChain reading (fuel + 1) level lhs (front ++ rest) = .ok (e, rest) := by
  cases hContinues with
  | done =>
    cases List.map_eq_nil_iff.mp hFront
    exact parseChain_of_stops hStops _
  | more hOp hr hLast hRest =>
    obtain ⟨spelling, start, ls, rfl, hSplit⟩ := exists_cons_of_terminals hFront
    obtain ⟨operand, others, rfl, hOperand, hOthers⟩ := List.map_eq_append_iff.mp hSplit
    rw [List.length_cons, List.length_append] at hFuel
    have hLevel := Level.ne_unary_of_operator hOp
    have hRank := Level.rank_tighter hLevel
    have hRead := h.level hr hOperand (hRest.stops hLevel hOthers hStops) (by omega)
    rw [List.cons_append, List.append_assoc, parseChain, hOp]
    simp only [hRead, bind, Except.bind]
    split
    · rename_i hComparison
      cases hLast hComparison
      cases List.map_eq_nil_iff.mp hOthers
      cases hRest
      rfl
    · exact h.chain hRest hOthers hStops (by omega)

/-- An item ends before a comma or a closing bracket. -/
theorem item (h : Complete reading fuel) {next : Lexeme Terminal} (hDerives : Derives .or ts e)
    (hFront : front.map Lexeme.terminal = ts)
    (hNext : next.terminal = .comma ∨ next.terminal = .closeParen ∨ next.terminal = .closeBracket)
    (hFuel : 8 * front.length ≤ fuel) :
    parseLevel reading fuel .or (front ++ next :: rest) = .ok (e, next :: rest) := by
  refine h.level hDerives hFront (.of_terminal ?_ .or rest) hFuel
  intro other
  rcases hNext with hNext | hNext | hNext <;> rw [hNext] <;> cases other <;> rfl

theorem items_succ (h : Complete reading fuel) {close : Terminal} {spelling : List Char}
    {start : Nat} {items : List Expr} (hDerives : DerivesItems ts items)
    (hFront : front.map Lexeme.terminal = ts) (hClose : close = .closeParen ∨ close = .closeBracket)
    (hFuel : 8 * front.length < fuel + 1) :
    parseItems reading close (fuel + 1) (front ++ ⟨close, spelling, start⟩ :: rest) =
      .ok (items, rest) := by
  cases hDerives with
  | nil =>
    cases List.map_eq_nil_iff.mp hFront
    rw [List.nil_append, parseItems, if_pos rfl]
  | last hItem =>
    have hNext : close = .comma ∨ close = .closeParen ∨ close = .closeBracket := .inr hClose
    exact parseItems_last (hItem.opens hFront hClose _) (h.item hItem hFront hNext (by omega)) rfl
  | cons hItem hItems =>
    obtain ⟨ls, tail, rfl, hLs, hTail⟩ := List.map_eq_append_iff.mp hFront
    obtain ⟨_, _, others, rfl, hOthers⟩ := exists_cons_of_terminals hTail
    rw [List.length_append, List.length_cons] at hFuel
    have hComma : close ≠ .comma := by
      rcases hClose with rfl | rfl <;> simp
    rw [List.append_assoc, List.cons_append]
    exact parseItems_cons (hItem.opens hLs hClose _) (h.item hItem hLs (.inl rfl) (by omega)) rfl
      hComma (h.items hItems hOthers hClose (by omega))

theorem term_succ (h : Complete reading fuel) (hDerives : DerivesTerm ts e)
    (hFront : front.map Lexeme.terminal = ts) (hFuel : 8 * front.length ≤ fuel + 1 + 6) :
    parseTerm reading (fuel + 1) (front ++ rest) = .ok (e, rest) := by
  cases hDerives with
  | numeral hRange =>
    obtain ⟨_, _, ls, rfl, hNil⟩ := exists_cons_of_terminals hFront
    cases List.map_eq_nil_iff.mp hNil
    rw [List.cons_append, parseTerm, if_pos (inRange_iff_lt.mp hRange)]
    rfl
  | quoted | trueWord | falseWord =>
    obtain ⟨_, _, ls, rfl, hNil⟩ := exists_cons_of_terminals hFront
    cases List.map_eq_nil_iff.mp hNil
    rw [List.cons_append, parseTerm]
    rfl
  | unit =>
    have hBrackets : front.map Lexeme.terminal = .openParen :: [] ++ [.closeParen] := hFront
    obtain ⟨_, _, inner, _, _, hText, hNil, _⟩ := exists_enclosed hBrackets rest
    cases List.map_eq_nil_iff.mp hNil
    rw [hText, List.nil_append, parseTerm]
  | call hArgs =>
    obtain ⟨_, _, ls, rfl, hTail⟩ := exists_cons_of_terminals hFront
    obtain ⟨_, _, args, _, _, hText, hTerminals, hLength⟩ := exists_enclosed hTail rest
    rw [List.length_cons, hLength] at hFuel
    rw [List.cons_append, hText, parseTerm, h.items hArgs hTerminals (.inl rfl) (by omega)]
    rfl
  | paren hInner =>
    obtain ⟨_, _, inner, _, _, hText, hTerminals, hLength⟩ := exists_enclosed hFront rest
    rw [hLength] at hFuel
    rw [hText, parseTerm_openParen (hInner.opens hTerminals (.inl rfl) _),
      h.item hInner hTerminals (.inr (.inl rfl)) (by omega)]
    rfl
  | tuple hFirst hItems =>
    obtain ⟨_, _, inner, _, _, hText, hInner, hLength⟩ := exists_enclosed hFront rest
    obtain ⟨first, others, rfl, hFirstTerminals, hOthers⟩ := List.map_eq_append_iff.mp hInner
    obtain ⟨_, _, items, rfl, hItemTerminals⟩ := exists_cons_of_terminals hOthers
    rw [hLength, List.length_append, List.length_cons] at hFuel
    have hLimit : 8 * items.length < fuel := by omega
    rw [hText, List.append_assoc, parseTerm_openParen (hFirst.opens hFirstTerminals (.inl rfl) _),
      List.cons_append, h.item hFirst hFirstTerminals (.inl rfl) (by omega)]
    simp only [bind, Except.bind, h.items hItems hItemTerminals (.inl rfl) hLimit]
    rfl
  | list hItems =>
    obtain ⟨_, _, items, _, _, hText, hTerminals, hLength⟩ := exists_enclosed hFront rest
    rw [hLength] at hFuel
    rw [hText, parseTerm, h.items hItems hTerminals (.inr rfl) (by omega)]
    rfl

theorem of_fuel (reading : Reading) (fuel : Nat) : Complete reading fuel := by
  induction fuel with
  | zero => exact zero
  | succ fuel ih => exact ⟨ih.level_succ, ih.chain_succ, ih.term_succ, ih.items_succ⟩

end Complete

/-- A sentence is read up to its end. -/
theorem parseLevel_of_derives {level : Level} {ts : List Terminal} {front rest : Lexemes} {e : Expr}
    (h : Derives level ts e) (hFront : front.map Lexeme.terminal = ts) (hStops : Stops level rest)
    (hFuel : 8 * front.length ≤ fuel) :
    parseLevel reading fuel level (front ++ rest) = .ok (e, rest) :=
  (Complete.of_fuel reading fuel).level h hFront hStops (by omega)

theorem parseExpression_of_derives {offset : Nat} {delays : Bool} {ls : Lexemes} {e : Expr}
    (h : Derives .or (ls.map Lexeme.terminal) e) :
    parseExpression ⟨.text offset, delays⟩ ls = .ok e := by
  have hRead : parseLevel ⟨.text offset, delays⟩ (fuelFor ls) .or (ls ++ []) = .ok (e, []) :=
    parseLevel_of_derives h rfl (.nil .or) (Nat.le_add_right _ _)
  rw [List.append_nil] at hRead
  rw [parseExpression, hRead]
  rfl

theorem parseInscription_of_derives {offset : Nat} {ls : Lexemes} {i : Inscription}
    (h : DerivesInscription (ls.map Lexeme.terminal) i) :
    parseInscription ⟨.text offset, true⟩ ls = .ok i := by
  generalize hLs : ls.map Lexeme.terminal = ts at h
  cases h with
  | plain hValue =>
    have hRead : parseLevel ⟨.text offset, true⟩ (fuelFor ls) .or (ls ++ []) = .ok (_, []) :=
      parseLevel_of_derives hValue hLs (.nil .or) (Nat.le_add_right _ _)
    rw [List.append_nil] at hRead
    rw [parseInscription, hRead]
    rfl
  | delayed hValue hDelay =>
    obtain ⟨value, others, rfl, hTerminals, hOthers⟩ := List.map_eq_append_iff.mp hLs
    obtain ⟨spelling, start, delay, rfl, hTail⟩ := exists_cons_of_terminals hOthers
    have hStops : Stops .or (⟨.atSign, spelling, start⟩ :: delay) :=
      .of_terminal (fun other => by cases other <;> rfl) .or delay
    have hFuel : 8 * value.length ≤ fuelFor (value ++ ⟨.atSign, spelling, start⟩ :: delay) := by
      rw [fuelFor, List.length_append]
      omega
    rw [parseInscription, parseLevel_of_derives hValue hTerminals hStops hFuel]
    rw [← hTail] at hDelay
    simp only [bind, Except.bind, parseExpression_of_derives hDelay]
    rfl

end Petri.Expr
