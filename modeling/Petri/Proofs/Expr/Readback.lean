import Petri.Expr.Eval
import Petri.Proofs.Except
import Petri.Proofs.Expr.Grammar
import Petri.Proofs.Expr.Literal

/-! # Literals read back

The literal of a value whose integers lie above the least integer of 64 bits derives one expression.
This expression denotes the value, except that an empty tuple has no literal of its own.
-/
namespace Petri
open Text Petri.Expr
set_option autoImplicit false

namespace Value

mutual

/-- The value itself and what it contains, at any depth. -/
def parts : Value → List Value
  | tuple vs => tuple vs :: itemParts vs
  | list vs => list vs :: itemParts vs
  | v => [v]

def itemParts : List Value → List Value
  | [] => []
  | v :: vs => parts v ++ itemParts vs

end

mutual

/-- The expression that the literal of a value is read as. -/
def expr : Value → Expr
  | int (.negSucc n) => .unary .neg (.literal (.int (n + 1 : Nat)))
  | tuple [] => .literal .unit
  | tuple (v :: vs) => .tuple (expr v :: itemExprs vs)
  | list vs => .list (itemExprs vs)
  | v => .literal v

def itemExprs : List Value → List Expr
  | [] => []
  | v :: vs => expr v :: itemExprs vs

end

mutual

/-- The value that the literal of a value denotes: empty tuples become units. -/
def reread : Value → Value
  | tuple [] => unit
  | tuple (v :: vs) => tuple (reread v :: rereadItems vs)
  | list vs => list (rereadItems vs)
  | v => v

def rereadItems : List Value → List Value
  | [] => []
  | v :: vs => reread v :: rereadItems vs

end

/-- An integer that can be written with a sign before a numeral. -/
def Signed (n : Int) : Prop := InRange n ∧ n ≠ -0x8000000000000000

instance (n : Int) : Decidable (Signed n) := inferInstanceAs (Decidable (_ ∧ _))

theorem natAbs_lt_of_signed {n : Int} (h : Signed n) : n.natAbs < numeralLimit := by
  obtain ⟨⟨hLow, hHigh⟩, hMin⟩ := h
  rw [numeralLimit]
  omega

end Value

namespace Expr

theorem Derives.of_unary {ts : List Terminal} {e : Expr} (h : Derives .unary ts e) :
    Derives .or ts e :=
  .ofAnd (.ofComparison (.ofSum (.ofProduct (.ofUnary h))))

theorem Derives.of_term {ts : List Terminal} {e : Expr} (h : DerivesTerm ts e) : Derives .or ts e :=
  .of_unary (.ofTerm h)

theorem derivesTerm_natural {n : Nat} (hLimit : n < numeralLimit) :
    DerivesTerm [.numeral (toString n).toList] (.literal (.int n)) := by
  have hNumeral : InRange (Nat.ofDigitChars 10 (toString n).toList 0) := by
    rw [ofDigitChars_toString]
    exact inRange_iff_lt.mpr hLimit
  have hTerm := DerivesTerm.numeral hNumeral
  rwa [ofDigitChars_toString] at hTerm

end Expr

/-! ## Literals -/

namespace Value
open Petri.Expr

mutual

/-- The terminals of a literal are a sentence of the grammar. -/
theorem derives_literal : ∀ v : Value, (∀ n, .int n ∈ v.parts → Signed n) →
    Derives .or v.terminals v.expr
  | unit, _ => .of_term .unit
  | bool true, _ => .of_term .trueWord
  | bool false, _ => .of_term .falseWord
  | int (.ofNat n), hSigned =>
    .of_term (derivesTerm_natural (natAbs_lt_of_signed (hSigned _ (List.mem_singleton.mpr rfl))))
  | int (.negSucc n), hSigned => by
    have hLimit : n + 1 < numeralLimit :=
      natAbs_lt_of_signed (hSigned _ (List.mem_singleton.mpr rfl))
    exact .of_unary (.neg (.ofTerm (derivesTerm_natural hLimit)))
  | str s, _ => by
    have hTerm : DerivesTerm [.quoted (Quoted.escape s.toList)] _ := .quoted
    rw [Quoted.ofList_unescape_escape] at hTerm
    exact .of_term hTerm
  | tuple [], _ => .of_term .unit
  | tuple (v :: vs), hSigned => by
    have hFirst := derives_literal v fun n hn => hSigned n (by simp [parts, itemParts, hn])
    have hOthers := derives_items vs fun n hn => hSigned n (by simp [parts, itemParts, hn])
    have hTerm := DerivesTerm.tuple hFirst hOthers
    simp only [List.cons_append, List.append_assoc] at hTerm
    exact .of_term hTerm
  | list vs, hSigned =>
    .of_term (.list (derives_items vs fun n hn => hSigned n (by simp [parts, hn])))

theorem derives_items : ∀ vs : List Value, (∀ n, .int n ∈ itemParts vs → Signed n) →
    DerivesItems (itemTerminals vs) (itemExprs vs)
  | [], _ => .nil
  | [v], hSigned => .last (derives_literal v fun n hn => hSigned n (by simp [itemParts, hn]))
  | v :: w :: vs, hSigned => by
    have hFirst := derives_literal v fun n hn => hSigned n (by simp [itemParts, hn])
    have hOthers := derives_items (w :: vs) fun n hn =>
      hSigned n (by rw [itemParts]; exact List.mem_append_right _ hn)
    exact .cons hFirst hOthers

end

theorem eval_neg {n : Nat} (hRange : InRange (-n)) (context : Context) :
    (Expr.unary .neg (.literal (.int n))).eval context = .ok (.int (-n)) := by
  have hChecked : checked (-n) = .ok (-n : Int) := by rw [checked, if_pos hRange]
  simp only [Expr.eval, UnaryOp.apply, integer, bind, Except.bind, hChecked]
  rfl

mutual

/-- What is read denotes the value, up to empty tuples. -/
theorem eval_expr : ∀ v : Value, (∀ n, .int n ∈ v.parts → Signed n) → ∀ context : Context,
    v.expr.eval context = .ok v.reread
  | unit, _, _ => rfl
  | bool _, _, _ => rfl
  | int (.ofNat _), _, _ => rfl
  | int (.negSucc n), hSigned, context => by
    have hRange : InRange (.negSucc n) := (hSigned _ (List.mem_singleton.mpr rfl)).1
    rw [Int.negSucc_eq] at hRange
    exact eval_neg hRange context
  | str _, _, _ => rfl
  | tuple [], _, _ => rfl
  | tuple (v :: vs), hSigned, context => by
    have hFirst := eval_expr v (fun n hn => hSigned n (by simp [parts, itemParts, hn])) context
    have hOthers :=
      evalItems_exprs vs (fun n hn => hSigned n (by simp [parts, itemParts, hn])) context
    simp only [expr, Expr.eval, Expr.evalItems, hFirst, hOthers, bind, Except.bind]
    rfl
  | list vs, hSigned, context => by
    have hItems := evalItems_exprs vs (fun n hn => hSigned n (by simp [parts, hn])) context
    simp only [expr, Expr.eval, hItems, bind, Except.bind]
    rfl

theorem evalItems_exprs : ∀ vs : List Value, (∀ n, .int n ∈ itemParts vs → Signed n) →
    ∀ context : Context, Expr.evalItems context (itemExprs vs) = .ok (rereadItems vs)
  | [], _, _ => rfl
  | v :: vs, hSigned, context => by
    have hFirst := eval_expr v (fun n hn => hSigned n (by simp [itemParts, hn])) context
    have hOthers := evalItems_exprs vs (fun n hn => hSigned n (by simp [itemParts, hn])) context
    simp only [itemExprs, Expr.evalItems, hFirst, hOthers, bind, Except.bind]
    rfl

end

/-! ## Empty tuples -/

mutual

theorem reread_eq_self : ∀ v : Value, .tuple [] ∉ v.parts → v.reread = v
  | unit, _ => rfl
  | bool _, _ => rfl
  | int _, _ => rfl
  | str _, _ => rfl
  | tuple [], hSolid => absurd (List.mem_cons_self) hSolid
  | tuple (v :: vs), hSolid => by
    simp only [parts, itemParts, List.mem_cons, List.mem_append, not_or] at hSolid
    rw [reread, reread_eq_self v hSolid.2.1, rereadItems_eq_self vs hSolid.2.2]
  | list vs, hSolid => by
    simp only [parts, List.mem_cons, not_or] at hSolid
    rw [reread, rereadItems_eq_self vs hSolid.2]

theorem rereadItems_eq_self : ∀ vs : List Value, .tuple [] ∉ itemParts vs → rereadItems vs = vs
  | [], _ => rfl
  | v :: vs, hSolid => by
    simp only [itemParts, List.mem_append, not_or] at hSolid
    rw [rereadItems, reread_eq_self v hSolid.1, rereadItems_eq_self vs hSolid.2]

end

mutual

/-- A measure that tells an empty tuple from a unit and a list from its elements. -/
def size : Value → Nat
  | tuple vs => 2 + sizeOfItems vs
  | list vs => 1 + sizeOfItems vs
  | _ => 1

def sizeOfItems : List Value → Nat
  | [] => 0
  | v :: vs => size v + sizeOfItems vs

end

mutual

theorem size_reread_le : ∀ v : Value, v.reread.size ≤ v.size
  | unit | bool _ | int _ | str _ => Nat.le_refl _
  | tuple [] => by simp [reread, size, sizeOfItems]
  | tuple (v :: vs) => by
    have hFirst := size_reread_le v
    have hOthers := sizeOfItems_reread_le vs
    simp only [reread, size, sizeOfItems]
    omega
  | list vs => by
    have hItems := sizeOfItems_reread_le vs
    simp only [reread, size]
    omega

theorem sizeOfItems_reread_le : ∀ vs : List Value, sizeOfItems (rereadItems vs) ≤ sizeOfItems vs
  | [] => Nat.le_refl _
  | v :: vs => by
    have hFirst := size_reread_le v
    have hOthers := sizeOfItems_reread_le vs
    simp only [rereadItems, sizeOfItems]
    omega

end

mutual

/-- Reading back makes a value with an empty tuple smaller. -/
theorem solid_of_size_le : ∀ v : Value, v.size ≤ v.reread.size → .tuple [] ∉ v.parts
  | unit, _ | bool _, _ | int _, _ | str _, _ => by simp [parts]
  | tuple [], h => by simp [reread, size, sizeOfItems] at h
  | tuple (v :: vs), h => by
    have hFirst := size_reread_le v
    have hOthers := sizeOfItems_reread_le vs
    simp only [reread, size, sizeOfItems] at h
    have hSolid := solid_of_size_le v (by omega)
    have hSolids := solidItems_of_size_le vs (by omega)
    simp [parts, itemParts, hSolid, hSolids]
  | list vs, h => by
    simp only [reread, size] at h
    have hSolids := solidItems_of_size_le vs (by omega)
    simp [parts, hSolids]

theorem solidItems_of_size_le : ∀ vs : List Value,
    sizeOfItems vs ≤ sizeOfItems (rereadItems vs) → .tuple [] ∉ itemParts vs
  | [], _ => by simp [itemParts]
  | v :: vs, h => by
    have hFirst := size_reread_le v
    have hOthers := sizeOfItems_reread_le vs
    simp only [rereadItems, sizeOfItems] at h
    have hSolid := solid_of_size_le v (by omega)
    have hSolids := solidItems_of_size_le vs (by omega)
    simp [itemParts, hSolid, hSolids]

end

end Value
end Petri
