import Mathlib
import Petri.Expr.Eval
import Petri.Expr.Parser

/-! # The grammar of expressions

Which terminals derive which expression, production by production: operators that associate to the
left below each other, one comparison that does not chain, prefix operators, and the terms. An
integer has 64 bits, so a numeral beyond them derives nothing.
-/
namespace Petri.Expr
open Text
set_option autoImplicit false

/-! ## Productions -/

inductive CompareOp : Terminal → BinaryOp → Prop where
  | eq : CompareOp .equal .eq
  | ne : CompareOp .notEqual .ne
  | lt : CompareOp .less .lt
  | le : CompareOp .lessEqual .le
  | gt : CompareOp .greater .gt
  | ge : CompareOp .greaterEqual .ge

inductive SumOp : Terminal → BinaryOp → Prop where
  | add : SumOp .plus .add
  | sub : SumOp .minus .sub

inductive ProductOp : Terminal → BinaryOp → Prop where
  | mul : ProductOp .star .mul
  | div : ProductOp .slash .div
  | rem : ProductOp .percent .rem

mutual

/-- The sentences of one level. -/
inductive Derives : Level → List Terminal → Expr → Prop where
  | or {ls rs : List Terminal} {l r : Expr} (hl : Derives .or ls l) (hr : Derives .and rs r) :
    Derives .or (ls ++ .orOr :: rs) (.binary .or l r)
  | ofAnd {ts : List Terminal} {e : Expr} (h : Derives .and ts e) : Derives .or ts e
  | and {ls rs : List Terminal} {l r : Expr} (hl : Derives .and ls l)
    (hr : Derives .comparison rs r) : Derives .and (ls ++ .andAnd :: rs) (.binary .and l r)
  | ofComparison {ts : List Terminal} {e : Expr} (h : Derives .comparison ts e) : Derives .and ts e
  | comparison {ls rs : List Terminal} {l r : Expr} {t : Terminal} {op : BinaryOp}
    (hOp : CompareOp t op) (hl : Derives .sum ls l) (hr : Derives .sum rs r) :
    Derives .comparison (ls ++ t :: rs) (.binary (.strict op) l r)
  | ofSum {ts : List Terminal} {e : Expr} (h : Derives .sum ts e) : Derives .comparison ts e
  | sum {ls rs : List Terminal} {l r : Expr} {t : Terminal} {op : BinaryOp} (hOp : SumOp t op)
    (hl : Derives .sum ls l) (hr : Derives .product rs r) :
    Derives .sum (ls ++ t :: rs) (.binary (.strict op) l r)
  | ofProduct {ts : List Terminal} {e : Expr} (h : Derives .product ts e) : Derives .sum ts e
  | product {ls rs : List Terminal} {l r : Expr} {t : Terminal} {op : BinaryOp}
    (hOp : ProductOp t op) (hl : Derives .product ls l) (hr : Derives .unary rs r) :
    Derives .product (ls ++ t :: rs) (.binary (.strict op) l r)
  | ofUnary {ts : List Terminal} {e : Expr} (h : Derives .unary ts e) : Derives .product ts e
  | not {ts : List Terminal} {e : Expr} (h : Derives .unary ts e) :
    Derives .unary (.bang :: ts) (.unary .not e)
  | neg {ts : List Terminal} {e : Expr} (h : Derives .unary ts e) :
    Derives .unary (.minus :: ts) (.unary .neg e)
  | ofTerm {ts : List Terminal} {e : Expr} (h : DerivesTerm ts e) : Derives .unary ts e

inductive DerivesTerm : List Terminal → Expr → Prop where
  | numeral {digits : List Char} (hRange : InRange (Nat.ofDigitChars 10 digits 0)) :
    DerivesTerm [.numeral digits] (.literal (.int (Nat.ofDigitChars 10 digits 0)))
  | quoted {body : List Char} :
    DerivesTerm [.quoted body] (.literal (.str (String.ofList (Quoted.unescape body))))
  | trueWord : DerivesTerm [.trueWord] (.literal (.bool true))
  | falseWord : DerivesTerm [.falseWord] (.literal (.bool false))
  | unit : DerivesTerm [.openParen, .closeParen] (.literal .unit)
  | call {word : List Char} {ts : List Terminal} {args : List Expr} (h : DerivesItems ts args) :
    DerivesTerm (.name word :: .openParen :: ts ++ [.closeParen]) (.call (String.ofList word) args)
  | paren {ts : List Terminal} {e : Expr} (h : Derives .or ts e) :
    DerivesTerm (.openParen :: ts ++ [.closeParen]) e
  | tuple {ts us : List Terminal} {first : Expr} {items : List Expr} (hFirst : Derives .or ts first)
    (hItems : DerivesItems us items) :
    DerivesTerm (.openParen :: ts ++ .comma :: us ++ [.closeParen]) (.tuple (first :: items))
  | list {ts : List Terminal} {items : List Expr} (h : DerivesItems ts items) :
    DerivesTerm (.openBracket :: ts ++ [.closeBracket]) (.list items)

/-- Expressions with a comma behind each, which the last one may lack. -/
inductive DerivesItems : List Terminal → List Expr → Prop where
  | nil : DerivesItems [] []
  | last {ts : List Terminal} {item : Expr} (h : Derives .or ts item) : DerivesItems ts [item]
  | cons {ts us : List Terminal} {item : Expr} {items : List Expr} (h : Derives .or ts item)
    (hItems : DerivesItems us items) : DerivesItems (ts ++ .comma :: us) (item :: items)

end

/-- A value, then perhaps `@` and a delay. -/
inductive DerivesInscription : List Terminal → Inscription → Prop where
  | plain {ts : List Terminal} {value : Expr} (h : Derives .or ts value) :
    DerivesInscription ts ⟨value, none⟩
  | delayed {ts us : List Terminal} {value delay : Expr} (hValue : Derives .or ts value)
    (hDelay : Derives .or us delay) : DerivesInscription (ts ++ .atSign :: us) ⟨value, some delay⟩

/-! ## Levels -/

namespace Level

/-- The level of a left operand. -/
def left : Level → Level
  | comparison => sum
  | level => level

/-- How many levels are looser. -/
def rank : Level → Nat
  | or => 0
  | and => 1
  | comparison => 2
  | sum => 3
  | product => 4
  | unary => 5

theorem rank_tighter {level : Level} (h : level ≠ .unary) : level.tighter.rank = level.rank + 1 := by
  cases level <;> first | rfl | exact absurd rfl h

theorem rank_lt {level : Level} (h : level ≠ .unary) : level.rank < 5 := by
  cases level <;> first | decide | exact absurd rfl h

theorem ne_unary_of_operator {level : Level} {t : Terminal} {op : Operator}
    (h : level.operator t = some op) : level ≠ .unary := by
  rintro rfl
  cases h

theorem left_eq_self {level : Level} (h : level ≠ .comparison) : level.left = level := by
  cases level <;> first | rfl | exact absurd rfl h

theorem operator_eq_none {level other : Level} {t : Terminal} {op : Operator}
    (hOp : level.operator t = some op) (hOther : other ≠ level) : other.operator t = none := by
  cases level <;> cases t <;> cases hOp <;> cases other <;> first | rfl | exact absurd rfl hOther

end Level

namespace Derives
variable {level : Level} {ts ls rs : List Terminal} {e l r : Expr}

theorem of_tighter (h : Derives level.tighter ts e) : Derives level ts e := by
  cases level with
  | or => exact .ofAnd h
  | and => exact .ofComparison h
  | comparison => exact .ofSum h
  | sum => exact .ofProduct h
  | product => exact .ofUnary h
  | unary => exact h

theorem left_of_tighter (h : Derives level.tighter ts e) : Derives level.left ts e := by
  cases level with
  | comparison => exact h
  | or | and | sum | product | unary => exact h.of_tighter

theorem of_left (h : Derives level.left ts e) : Derives level ts e := by
  cases level with
  | comparison => exact .ofSum h
  | or | and | sum | product | unary => exact h

theorem binary {t : Terminal} {op : Operator} (hOp : level.operator t = some op)
    (hl : Derives level.left ls l) (hr : Derives level.tighter rs r) :
    Derives level (ls ++ t :: rs) (.binary op l r) := by
  cases level with
  | or => cases t <;> cases hOp; exact .or hl hr
  | and => cases t <;> cases hOp; exact .and hl hr
  | comparison => cases t <;> cases hOp <;> exact .comparison (by constructor) hl hr
  | sum => cases t <;> cases hOp <;> exact .sum (by constructor) hl hr
  | product => cases t <;> cases hOp <;> exact .product (by constructor) hl hr
  | unary => cases t <;> cases hOp

/-- A sentence of a level is one of the next tighter level or has an operator of this one. -/
theorem cases_level (hLevel : level ≠ .unary) (h : Derives level ts e) :
    Derives level.tighter ts e ∨ ∃ ls t rs op l r, ts = ls ++ t :: rs ∧ e = .binary op l r ∧
      level.operator t = some op ∧ Derives level.left ls l ∧ Derives level.tighter rs r := by
  cases h with
  | or hl hr => exact .inr ⟨_, _, _, _, _, _, rfl, rfl, rfl, hl, hr⟩
  | and hl hr => exact .inr ⟨_, _, _, _, _, _, rfl, rfl, rfl, hl, hr⟩
  | comparison hOp hl hr =>
    cases hOp <;> exact .inr ⟨_, _, _, _, _, _, rfl, rfl, rfl, hl, hr⟩
  | sum hOp hl hr => cases hOp <;> exact .inr ⟨_, _, _, _, _, _, rfl, rfl, rfl, hl, hr⟩
  | product hOp hl hr => cases hOp <;> exact .inr ⟨_, _, _, _, _, _, rfl, rfl, rfl, hl, hr⟩
  | ofAnd h | ofComparison h | ofSum h | ofProduct h | ofUnary h => exact .inl h
  | not | neg | ofTerm => exact absurd rfl hLevel

end Derives

/-! ## First terminals -/

theorem DerivesTerm.exists_head {ts : List Terminal} {e : Expr} (h : DerivesTerm ts e) :
    ∃ t rest, ts = t :: rest ∧ t ≠ .bang ∧ t ≠ .minus ∧ t ≠ .closeParen ∧ t ≠ .closeBracket := by
  cases h <;> exact ⟨_, _, rfl, by simp⟩

/-- No sentence is empty or begins with a closing bracket. -/
theorem Derives.exists_head {level : Level} {ts : List Terminal} {e : Expr}
    (h : Derives level ts e) :
    ∃ t rest, ts = t :: rest ∧ t ≠ .closeParen ∧ t ≠ .closeBracket := by
  match h with
  | .or hl _ | .and hl _ | .comparison _ hl _ | .sum _ hl _ | .product _ hl _ =>
    obtain ⟨t, rest, rfl, hHead⟩ := hl.exists_head
    exact ⟨t, _, rfl, hHead⟩
  | .ofAnd h | .ofComparison h | .ofSum h | .ofProduct h | .ofUnary h => exact h.exists_head
  | .not _ | .neg _ => exact ⟨_, _, rfl, by simp⟩
  | .ofTerm h =>
    obtain ⟨t, rest, rfl, _, _, hHead⟩ := h.exists_head
    exact ⟨t, rest, rfl, hHead⟩

/-! ## Numerals -/

/-- The terminal is no numeral out of range. -/
def Moderate (t : Terminal) : Prop :=
  ∀ digits, t = .numeral digits → InRange (Nat.ofDigitChars 10 digits 0)

theorem inRange_iff_lt {n : Nat} : InRange n ↔ n < numeralLimit := by
  rw [InRange, numeralLimit]
  omega

theorem moderate_infix {ls rs : List Terminal} {t : Terminal} (hl : ∀ u ∈ ls, Moderate u)
    (ht : Moderate t) (hr : ∀ u ∈ rs, Moderate u) : ∀ u ∈ ls ++ t :: rs, Moderate u := by
  rw [List.forall_mem_append, List.forall_mem_cons]
  exact ⟨hl, ht, hr⟩

theorem moderate_enclosed {ts : List Terminal} {first last : Terminal} (hFirst : Moderate first)
    (h : ∀ u ∈ ts, Moderate u) (hLast : Moderate last) : ∀ u ∈ first :: ts ++ [last], Moderate u :=
  List.forall_mem_cons.mpr ⟨hFirst, moderate_infix h hLast (List.forall_mem_nil _)⟩

mutual

/-- All numerals of a sentence are in range. -/
theorem Derives.moderate {level : Level} {ts : List Terminal} {e : Expr} (h : Derives level ts e) :
    ∀ t ∈ ts, Moderate t := by
  match h with
  | .or hl hr | .and hl hr => exact moderate_infix hl.moderate (by simp [Moderate]) hr.moderate
  | .comparison hOp hl hr =>
    exact moderate_infix hl.moderate (by cases hOp <;> simp [Moderate]) hr.moderate
  | .sum hOp hl hr =>
    exact moderate_infix hl.moderate (by cases hOp <;> simp [Moderate]) hr.moderate
  | .product hOp hl hr =>
    exact moderate_infix hl.moderate (by cases hOp <;> simp [Moderate]) hr.moderate
  | .ofAnd h | .ofComparison h | .ofSum h | .ofProduct h | .ofUnary h => exact h.moderate
  | .not h | .neg h => exact List.forall_mem_cons.mpr ⟨by simp [Moderate], h.moderate⟩
  | .ofTerm h => exact h.moderate

theorem DerivesTerm.moderate {ts : List Terminal} {e : Expr} (h : DerivesTerm ts e) :
    ∀ t ∈ ts, Moderate t := by
  match h with
  | .numeral hRange =>
    rintro t ht digits rfl
    cases List.mem_singleton.mp ht
    exact hRange
  | .quoted | .trueWord | .falseWord | .unit => simp [Moderate]
  | .call h =>
    exact List.forall_mem_cons.mpr ⟨by simp [Moderate],
      moderate_enclosed (by simp [Moderate]) h.moderate (by simp [Moderate])⟩
  | .paren h => exact moderate_enclosed (by simp [Moderate]) h.moderate (by simp [Moderate])
  | .tuple hFirst hItems =>
    have hInner := moderate_infix hFirst.moderate (t := .comma) (by simp [Moderate]) hItems.moderate
    exact moderate_enclosed (by simp [Moderate]) hInner (by simp [Moderate])
  | .list h => exact moderate_enclosed (by simp [Moderate]) h.moderate (by simp [Moderate])

theorem DerivesItems.moderate {ts : List Terminal} {items : List Expr} (h : DerivesItems ts items) :
    ∀ t ∈ ts, Moderate t := by
  match h with
  | .nil => exact List.forall_mem_nil _
  | .last h => exact h.moderate
  | .cons h hItems => exact moderate_infix h.moderate (by simp [Moderate]) hItems.moderate

end

theorem DerivesInscription.moderate {ts : List Terminal} {i : Inscription}
    (h : DerivesInscription ts i) : ∀ t ∈ ts, Moderate t := by
  cases h with
  | plain h => exact h.moderate
  | delayed hValue hDelay =>
    exact moderate_infix hValue.moderate (by simp [Moderate]) hDelay.moderate

/-! ## Left recursion unrolled -/

/-- An operand followed by operators of the level with their right operands. A comparison is
followed by nothing. -/
inductive Continues (level : Level) : Expr → List Terminal → Expr → Prop where
  | done {e : Expr} : Continues level e [] e
  | more {lhs rhs e : Expr} {t : Terminal} {op : Operator} {rs ts : List Terminal}
    (hOp : level.operator t = some op) (hr : Derives level.tighter rs rhs)
    (hLast : level = .comparison → ts = []) (h : Continues level (.binary op lhs rhs) ts e) :
    Continues level lhs (t :: rs ++ ts) e

theorem Continues.snoc {level : Level} {lhs e rhs : Expr} {ts rs : List Terminal} {t : Terminal}
    {op : Operator} (hLevel : level ≠ .comparison) (h : Continues level lhs ts e)
    (hOp : level.operator t = some op) (hr : Derives level.tighter rs rhs) :
    Continues level lhs (ts ++ t :: rs) (.binary op e rhs) := by
  induction h with
  | done =>
    rw [List.nil_append, ← List.append_nil (t :: rs)]
    exact .more hOp hr (fun h => absurd h hLevel) .done
  | more hOp hr hLast _ ih =>
    rw [List.append_assoc]
    exact .more hOp hr (fun h => absurd h hLevel) ih

theorem Derives.exists_continues {level : Level} {ts : List Terminal} {e : Expr}
    (hLevel : level ≠ .unary) (h : Derives level ts e) :
    ∃ ls first rest, ts = ls ++ rest ∧ Derives level.tighter ls first ∧
      Continues level first rest e := by
  rcases h.cases_level hLevel with h | ⟨ls, t, rs, op, l, r, hTs, rfl, hOp, hl, hr⟩
  · exact ⟨ts, e, [], (List.append_nil ts).symm, h, .done⟩
  · -- only a level that chains has its own sentences on the left, and these are shorter
    by_cases hComparison : level = .comparison
    · subst hComparison
      refine ⟨ls, l, t :: rs ++ [], by rw [hTs, List.append_nil], hl, ?_⟩
      exact .more hOp hr (fun _ => rfl) .done
    · rw [Level.left_eq_self hComparison] at hl
      obtain ⟨front, first, rest, hLs, hFirst, hRest⟩ := hl.exists_continues hLevel
      refine ⟨front, first, rest ++ t :: rs, by rw [hTs, hLs, List.append_assoc], hFirst, ?_⟩
      exact hRest.snoc hComparison hOp hr
termination_by ts.length
decreasing_by
  rw [hTs, List.length_append, List.length_cons]
  omega

end Petri.Expr
