import Petri.Expr.Eval
import Petri.Proofs.Except
import Petri.Proofs.Value.Order

/-! # Comparisons

Values of one type can be compared whatever they contain. The comparisons of the language tell where
two values stand in the order of values, so they fit together as those of a total order do.
-/
namespace Petri
set_option autoImplicit false

theorem Value.beq_eq_isEq (a b : Value) : (a == b) = (a.order b).isEq := by
  rw [Bool.eq_iff_iff, beq_iff_eq, Ordering.isEq_iff_eq_eq, order_eq_eq_iff]

namespace BinaryOp
variable {holds : Ordering → Bool} {a b : Value}

theorem compare_of_kind_eq (h : a.kind = b.kind) :
    compare holds a b = .ok (.bool (holds (a.order b))) := if_pos h

theorem compare_of_kind_ne (h : a.kind ≠ b.kind) :
    compare holds a b = .error (.typeMismatch a.kind b.kind) := if_neg h

theorem compare_eq_true_iff :
    compare holds a b = .ok (.bool true) ↔ a.kind = b.kind ∧ holds (a.order b) = true := by
  by_cases h : a.kind = b.kind
  · rw [compare_of_kind_eq h, Except.ok.injEq, Value.bool.injEq]
    exact (and_iff_right h).symm
  · rw [compare_of_kind_ne h]
    exact iff_of_false nofun fun hBoth => h hBoth.1

theorem compare_bind_not (holds : Ordering → Bool) (a b : Value) :
    (compare holds a b >>= fun v => UnaryOp.not.apply v) = compare (fun o => !holds o) a b := by
  by_cases h : a.kind = b.kind
  · rw [compare_of_kind_eq h, compare_of_kind_eq h]
    rfl
  · rw [compare_of_kind_ne h, compare_of_kind_ne h]
    rfl

end BinaryOp

namespace Expr
variable {context : Context} {l m r : Expr} {a b : Value}

theorem eval_strict {op : BinaryOp} (hl : l.eval context = .ok a) (hr : r.eval context = .ok b) :
    eval context (.binary (.strict op) l r) = op.apply a b := by
  rw [eval, hl, hr]
  rfl

theorem eval_le (context : Context) (l r : Expr) :
    eval context (.binary (.strict .le) l r) =
      eval context (.unary .not (.binary (.strict .gt) l r)) := by
  simp only [eval, BinaryOp.apply, bind_assoc, BinaryOp.compare_bind_not,
    Ordering.not_isGT_eq_isLE]

theorem eval_ge (context : Context) (l r : Expr) :
    eval context (.binary (.strict .ge) l r) =
      eval context (.unary .not (.binary (.strict .lt) l r)) := by
  simp only [eval, BinaryOp.apply, bind_assoc, BinaryOp.compare_bind_not,
    Ordering.not_isLT_eq_isGE]

theorem eval_lt_eq_true_iff :
    eval context (.binary (.strict .lt) l r) = .ok (.bool true) ↔
      ∃ a b, l.eval context = .ok a ∧ r.eval context = .ok b ∧ a.kind = b.kind ∧
        Value.Before a b := by
  simp only [eval, bind_eq_ok_iff, BinaryOp.apply, BinaryOp.compare_eq_true_iff,
    Ordering.isLT_iff_eq_lt, Value.order_eq_lt_iff]
  constructor
  · rintro ⟨a, ha, b, hb, h⟩
    exact ⟨a, b, ha, hb, h⟩
  · rintro ⟨a, b, ha, hb, h⟩
    exact ⟨a, ha, b, hb, h⟩

theorem eval_lt_trans (hl : eval context (.binary (.strict .lt) l m) = .ok (.bool true))
    (hr : eval context (.binary (.strict .lt) m r) = .ok (.bool true)) :
    eval context (.binary (.strict .lt) l r) = .ok (.bool true) := by
  obtain ⟨a, b, ha, hb, hKind, hLess⟩ := eval_lt_eq_true_iff.mp hl
  obtain ⟨b', c, hb', hc, hKind', hLess'⟩ := eval_lt_eq_true_iff.mp hr
  obtain rfl : b = b' := Except.ok.inj (hb.symm.trans hb')
  exact eval_lt_eq_true_iff.mpr ⟨a, c, ha, hc, hKind.trans hKind', hLess.trans hLess'⟩

/-- The comparison of values is a total order. Two operands with values of one type are equal or
else one of them is less than the other, `<=` and `>=` are the negations of `>` and `<`, and `<` is
transitive. -/
theorem comparison_is_total :
    (∀ a b : Value, (a.order b = .lt ↔ a.Before b) ∧ (a.order b = .eq ↔ a = b) ∧
      (a.order b = .gt ↔ b.Before a)) ∧
    (∀ a : Value, (a.order a).isLE = true) ∧
    (∀ a b : Value, (a.order b).isLE = true → (b.order a).isLE = true → a = b) ∧
    (∀ a b c : Value, (a.order b).isLE = true → (b.order c).isLE = true →
      (a.order c).isLE = true) ∧
    (∀ a b : Value, (a.order b).isLE = true ∨ (b.order a).isLE = true) ∧
    (∀ (context : Context) (l r : Expr) (a b : Value), l.eval context = .ok a →
      r.eval context = .ok b → a.kind = b.kind →
      ∃ less same greater : Bool,
        eval context (.binary (.strict .lt) l r) = .ok (.bool less) ∧
        eval context (.binary (.strict .eq) l r) = .ok (.bool same) ∧
        eval context (.binary (.strict .gt) l r) = .ok (.bool greater) ∧
        (less = true ↔ a.Before b) ∧ (same = true ↔ a = b) ∧ (greater = true ↔ b.Before a) ∧
        [less, same, greater].count true = 1) ∧
    (∀ (context : Context) (l r : Expr),
      eval context (.binary (.strict .le) l r) =
        eval context (.unary .not (.binary (.strict .gt) l r)) ∧
      eval context (.binary (.strict .ge) l r) =
        eval context (.unary .not (.binary (.strict .lt) l r))) ∧
    ∀ (context : Context) (l m r : Expr),
      eval context (.binary (.strict .lt) l m) = .ok (.bool true) →
      eval context (.binary (.strict .lt) m r) = .ok (.bool true) →
      eval context (.binary (.strict .lt) l r) = .ok (.bool true) := by
  refine ⟨fun a b => ⟨Value.order_eq_lt_iff, Value.order_eq_eq_iff, Value.order_eq_gt_iff⟩, ?_, ?_,
    ?_, ?_, ?_, fun context l r => ⟨eval_le context l r, eval_ge context l r⟩,
    fun _ _ _ _ => eval_lt_trans⟩
  · exact fun a => Value.isLE_order_iff.mpr le_rfl
  · intro a b hab hba
    exact le_antisymm (Value.isLE_order_iff.mp hab) (Value.isLE_order_iff.mp hba)
  · intro a b c hab hbc
    exact Value.isLE_order_iff.mpr
      ((Value.isLE_order_iff.mp hab).trans (Value.isLE_order_iff.mp hbc))
  · exact Value.isLE_order_total
  · intro context l r a b hl hr hKind
    refine ⟨(a.order b).isLT, a == b, (a.order b).isGT, ?_, ?_, ?_, ?_, ?_, ?_, ?_⟩
    · rw [eval_strict hl hr]
      exact BinaryOp.compare_of_kind_eq hKind
    · rw [eval_strict hl hr]
      rfl
    · rw [eval_strict hl hr]
      exact BinaryOp.compare_of_kind_eq hKind
    · rw [Ordering.isLT_iff_eq_lt, Value.order_eq_lt_iff]
    · exact beq_iff_eq
    · rw [Ordering.isGT_iff_eq_gt, Value.order_eq_gt_iff]
    · rw [Value.beq_eq_isEq]
      cases a.order b <;> rfl

/-- Texts are not ordered by code units of two bytes each, and a sequence comes before the longer
ones that it begins. -/
theorem comparison_is_total_nested :
    let context : Context := ⟨0, "t", none⟩
    let first : Value := .list [.tuple [.str "\uff61", .list []], .unit]
    let second : Value := .list [.tuple [.str "😀"]]
    let third : Value := .list [.tuple [.str "😀"], .tuple []]
    let l : Expr := .literal first
    let r : Expr := .literal third
    first.Before second ∧ second.Before third ∧ (first.order third).isLE = true ∧
      eval context (.binary (.strict .lt) l r) = .ok (.bool true) ∧
      ∃ same greater : Bool,
        eval context (.binary (.strict .eq) l r) = .ok (.bool same) ∧
        eval context (.binary (.strict .gt) l r) = .ok (.bool greater) ∧
        [true, same, greater].count true = 1 := by
  intro context first second third l r
  obtain ⟨hOrder, _, _, hOrderTrans, _, hOperands, _, hTrans⟩ := comparison_is_total
  have hFirst : first.Before second := (hOrder first second).1.mp (by decide)
  have hSecond : second.Before third := (hOrder second third).1.mp (by decide)
  have hLess (a b : Value) (hKind : a.kind = b.kind) (h : a.Before b) :
      eval context (.binary (.strict .lt) (.literal a) (.literal b)) = .ok (.bool true) := by
    obtain ⟨less, _, _, hRun, _, _, hBefore, _⟩ :=
      hOperands context (.literal a) (.literal b) a b rfl rfl hKind
    rwa [hBefore.mpr h] at hRun
  have hRun := hTrans context l (.literal second) r (hLess first second rfl hFirst)
    (hLess second third rfl hSecond)
  obtain ⟨less, same, greater, hLessRun, hSame, hGreater, _, _, _, hOne⟩ :=
    hOperands context l r first third rfl rfl rfl
  obtain rfl : less = true := Value.bool.inj (Except.ok.inj (hLessRun.symm.trans hRun))
  exact ⟨hFirst, hSecond, hOrderTrans first second third (by decide) (by decide), hRun, same,
    greater, hSame, hGreater, hOne⟩

end Expr
end Petri
