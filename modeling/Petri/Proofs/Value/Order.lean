import Petri.Value
import Petri.Proofs.Text.Bytes

/-! # The order of values

Of two different values exactly one comes before the other, and what comes before a value comes
before all that follow it. The comparison of values computes this order.
-/
namespace Petri
set_option autoImplicit false

/-! ## Lexicographic order

The laws are assumed of the items of one sequence alone, since the items of a value are smaller than
the value.
-/

section Lex
variable {α β : Type} {r : α → α → Prop} {as bs cs : List α}

theorem lex_irrefl (h : ∀ a ∈ as, ¬ r a a) : ¬ List.Lex r as as := by
  induction as with
  | nil => exact nofun
  | cons a as ih =>
    rw [List.forall_mem_cons] at h
    intro hLex
    cases hLex with
    | rel hFirst => exact h.1 hFirst
    | cons hRest => exact ih h.2 hRest

theorem lex_trans (h : ∀ a ∈ as, ∀ b c, r a b → r b c → r a c) (hab : List.Lex r as bs)
    (hbc : List.Lex r bs cs) : List.Lex r as cs := by
  induction hab generalizing cs with
  | nil => cases hbc <;> exact .nil
  | rel hFirst =>
    cases hbc with
    | rel hSecond => exact .rel (h _ List.mem_cons_self _ _ hFirst hSecond)
    | cons _ => exact .rel hFirst
  | cons _ ih =>
    cases hbc with
    | rel hSecond => exact .rel hSecond
    | cons hRest => exact .cons (ih (fun a ha => h a (List.mem_cons_of_mem _ ha)) hRest)

theorem compares_map [LT α] [LT β] {f : α → β} (hLess : ∀ a b, a < b → f a < f b) {a b : α}
    {o : Ordering} (h : o.Compares a b) : o.Compares (f a) (f b) := by
  cases o with
  | lt => exact hLess a b h
  | eq => exact congrArg f h
  | gt => exact hLess b a h

theorem compares_cons [LT α] {a b : α} {o rest : Ordering} (hFirst : o.Compares a b)
    (hRest : rest.Compares as bs) : (o.then rest).Compares (a :: as) (b :: bs) := by
  cases o with
  | lt => exact List.Lex.rel hFirst
  | eq =>
    obtain rfl : a = b := hFirst
    exact compares_map (fun _ _ => List.Lex.cons) hRest
  | gt => exact List.Lex.rel hFirst

end Lex

namespace Value

/-- Values of different types come in the order of their types, values of one type in the order of
their contents. -/
inductive Before : Value → Value → Prop
  | kind {a b : Value} (h : a.kind.rank < b.kind.rank) : Before a b
  | bool : Before (bool false) (bool true)
  | int {m n : Int} (h : m < n) : Before (int m) (int n)
  | str {s t : String} (h : Text.bytes s < Text.bytes t) : Before (str s) (str t)
  | tuple {as bs : List Value} (h : List.Lex Before as bs) : Before (tuple as) (tuple bs)
  | list {as bs : List Value} (h : List.Lex Before as bs) : Before (list as) (list bs)

theorem Before.rank_le {a b : Value} (h : Before a b) : a.kind.rank ≤ b.kind.rank := by
  cases h with
  | kind h => exact h.le
  | _ => exact le_rfl

theorem Before.irrefl (a : Value) : ¬ Before a a := by
  intro h
  cases h with
  | kind h => exact lt_irrefl _ h
  | int h => exact lt_irrefl _ h
  | str h => exact List.lt_irrefl _ h
  | tuple h => exact lex_irrefl (fun v _ => Before.irrefl v) h
  | list h => exact lex_irrefl (fun v _ => Before.irrefl v) h

theorem Before.trans {a b c : Value} (hab : Before a b) (hbc : Before b c) : Before a c := by
  -- where one step leads to another type, so do both together; else the contents decide
  cases hab with
  | kind h => exact .kind (h.trans_le hbc.rank_le)
  | bool =>
    cases hbc with
    | kind hRank => exact .kind hRank
  | int h =>
    cases hbc with
    | kind hRank => exact .kind hRank
    | int hNext => exact .int (h.trans hNext)
  | str h =>
    cases hbc with
    | kind hRank => exact .kind hRank
    | str hNext => exact .str (List.lt_trans h hNext)
  | tuple h =>
    cases hbc with
    | kind hRank => exact .kind hRank
    | tuple hNext => exact .tuple (lex_trans (fun _ _ _ _ => Before.trans) h hNext)
  | list h =>
    cases hbc with
    | kind hRank => exact .kind hRank
    | list hNext => exact .list (lex_trans (fun _ _ _ _ => Before.trans) h hNext)
termination_by sizeOf a

instance : IsStrictOrder Value Before where
  irrefl := Before.irrefl
  trans _ _ _ := Before.trans

instance : PartialOrder Value := partialOrderOfSO Before

/-! ## The comparison -/

theorem Kind.rank_injective : Function.Injective Kind.rank := by
  intro k l h
  cases k <;> cases l <;> cases h <;> rfl

theorem order_of_kind_ne {a b : Value} (h : a.kind ≠ b.kind) :
    order a b = compare a.kind.rank b.kind.rank := by
  unfold order
  split
  case h_6 => rfl
  all_goals exact absurd rfl h

theorem compares_of_kind_ne {a b : Value} (h : a.kind ≠ b.kind) : (order a b).Compares a b := by
  have hRank : a.kind.rank ≠ b.kind.rank := Kind.rank_injective.ne h
  rw [order_of_kind_ne h]
  rcases lt_or_gt_of_ne hRank with hLess | hMore
  · rw [compare_lt_iff_lt.mpr hLess]
    exact Before.kind hLess
  · rw [compare_gt_iff_gt.mpr hMore]
    exact Before.kind hMore

theorem compares_orderItems {as : List Value} (h : ∀ a ∈ as, ∀ b, (order a b).Compares a b)
    (bs : List Value) : (orderItems as bs).Compares as bs := by
  induction as generalizing bs with
  | nil =>
    cases bs with
    | nil => rfl
    | cons b bs => exact List.Lex.nil
  | cons a as ih =>
    rw [List.forall_mem_cons] at h
    cases bs with
    | nil => exact List.Lex.nil
    | cons b bs =>
      rw [orderItems]
      exact compares_cons (h.1 b) (ih h.2 bs)

/-- The comparison tells which of the values is before the other, or else that they are equal. -/
theorem compares_order (a b : Value) : (order a b).Compares a b := by
  by_cases hKind : a.kind = b.kind
  · cases a with
    | unit =>
      cases b with
      | unit => rfl
      | _ => cases hKind
    | bool p =>
      cases b with
      | bool q =>
        rw [order]
        refine compares_map (fun p q h => ?_) ((compare_iff p q).mp rfl)
        obtain ⟨rfl, rfl⟩ := Bool.lt_iff.mp h
        exact Before.bool
      | _ => cases hKind
    | int m =>
      cases b with
      | int n =>
        rw [order]
        exact compares_map (fun _ _ => Before.int) ((compare_iff m n).mp rfl)
      | _ => cases hKind
    | str s =>
      cases b with
      | str t =>
        rw [order]
        exact compares_map (fun _ _ h => Before.str (Text.bytes_lt_bytes_iff.mpr h))
          ((compare_iff s t).mp rfl)
      | _ => cases hKind
    | tuple as =>
      cases b with
      | tuple bs =>
        rw [order]
        exact compares_map (fun _ _ => Before.tuple)
          (compares_orderItems (fun v _ => compares_order v) bs)
      | _ => cases hKind
    | list as =>
      cases b with
      | list bs =>
        rw [order]
        exact compares_map (fun _ _ => Before.list)
          (compares_orderItems (fun v _ => compares_order v) bs)
      | _ => cases hKind
  · exact compares_of_kind_ne hKind
termination_by sizeOf a

variable {a b : Value}

theorem order_eq_lt_iff : order a b = .lt ↔ Before a b := (compares_order a b).eq_lt

theorem order_eq_eq_iff : order a b = .eq ↔ a = b := (compares_order a b).eq_eq

theorem order_eq_gt_iff : order a b = .gt ↔ Before b a := (compares_order a b).eq_gt

theorem isLE_order_iff : (order a b).isLE = true ↔ a ≤ b := by
  rw [Ordering.isLE_iff_eq_lt_or_eq_eq, order_eq_lt_iff, order_eq_eq_iff, le_iff_lt_or_eq]
  rfl

theorem isLE_order_total (a b : Value) : (order a b).isLE = true ∨ (order b a).isLE = true := by
  rw [isLE_order_iff, isLE_order_iff]
  cases h : order a b with
  | lt => exact .inl (le_of_lt (order_eq_lt_iff.mp h))
  | eq => exact .inl (order_eq_eq_iff.mp h).le
  | gt => exact .inr (le_of_lt (order_eq_gt_iff.mp h))

end Value
end Petri
