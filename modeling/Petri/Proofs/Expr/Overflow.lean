import Petri.Expr.Eval
import Petri.Proofs.Except

/-! # When there is an overflow

Arithmetic comes to the exact result wherever that has 64 bits, with two exceptions. A remainder
exists only beside its quotient, and the quotient of the least integer by `-1` is too large. A sum
counts up from the first token, so it overflows when some tokens at the front have a total beyond 64
bits, whatever comes after them. Whether there are such tokens is a matter of their order, what the
sum comes to is not.
-/
namespace Petri
set_option autoImplicit false

/-- The result is the exact one if that has 64 bits and an overflow if it has not; under the
exception it is an overflow in any case. Where nothing is exact there was a division by zero. -/
structure ExactUnless (exception : Prop) (exact : Int → Prop) (result : Except EvalError Value) :
    Prop where
  value : ∀ n, result = .ok (.int n) ↔ exact n ∧ InRange n ∧ ¬ exception
  overflow : result = .error .overflow ↔ ∃ n, exact n ∧ (InRange n → exception)
  undefined : result = .error .divisionByZero ↔ ∀ n, ¬ exact n

namespace ExactUnless
variable {exception : Prop} {exact : Int → Prop} {n : Int}

theorem of_value (hExact : ∀ m, exact m ↔ m = n) (hRange : InRange n) (hNone : ¬ exception) :
    ExactUnless exception exact (.ok (.int n)) := by
  constructor
  · intro m
    rw [hExact]
    constructor
    · rintro ⟨⟩
      exact ⟨rfl, hRange, hNone⟩
    · rintro ⟨rfl, _⟩
      rfl
  · refine iff_of_false nofun ?_
    rintro ⟨m, hm, hNeed⟩
    obtain rfl := (hExact m).mp hm
    exact hNone (hNeed hRange)
  · exact iff_of_false nofun fun h => h n ((hExact n).mpr rfl)

theorem of_overflow (hExact : ∀ m, exact m ↔ m = n) (hNeed : InRange n → exception) :
    ExactUnless exception exact (.error .overflow) := by
  constructor
  · intro m
    refine iff_of_false nofun ?_
    rintro ⟨hm, hRange, hNone⟩
    obtain rfl := (hExact m).mp hm
    exact hNone (hNeed hRange)
  · exact iff_of_true rfl ⟨n, (hExact n).mpr rfl, hNeed⟩
  · exact iff_of_false nofun fun h => h n ((hExact n).mpr rfl)

theorem of_divisionByZero (hExact : ∀ m, ¬ exact m) :
    ExactUnless exception exact (.error .divisionByZero) := by
  constructor
  · intro m
    exact iff_of_false nofun fun h => hExact m h.1
  · refine iff_of_false nofun ?_
    rintro ⟨m, hm, _⟩
    exact hExact m hm
  · exact iff_of_true rfl hExact

theorem of_checked (hExact : ∀ m, exact m ↔ m = n) (hNone : ¬ exception) :
    ExactUnless exception exact (do return .int (← checked n)) := by
  unfold checked
  split
  · exact of_value hExact ‹_› hNone
  · rename_i hRange
    exact of_overflow hExact fun hIn => absurd hIn hRange

end ExactUnless

theorem checked_of_inRange {n : Int} (h : InRange n) : checked n = .ok n := if_pos h

theorem checked_of_not_inRange {n : Int} (h : ¬ InRange n) : checked n = .error .overflow :=
  if_neg h

/-! ## Division -/

/-- A quotient that is cut off towards zero: what remains is less than the divisor and has the sign
of the dividend. -/
structure Divides (l r quotient remainder : Int) : Prop where
  split : l = r * quotient + remainder
  less : remainder.natAbs < r.natAbs
  nonneg : 0 ≤ l → 0 ≤ remainder
  nonpos : l < 0 → remainder ≤ 0

theorem divides_iff {l r q m : Int} (hr : r ≠ 0) :
    Divides l r q m ↔ q = l.tdiv r ∧ m = l.tmod r := by
  rw [eq_comm (a := q), eq_comm (a := m)]
  rcases Int.lt_or_le l 0 with hl | hl
  · rw [Int.tdiv_tmod_unique' (Int.le_of_lt hl) hr]
    constructor
    · rintro ⟨hSplit, hLess, -, hNonpos⟩
      have hm := hNonpos hl
      omega
    · rintro ⟨hSplit, hLess, hm⟩
      constructor <;> omega
  · rw [Int.tdiv_tmod_unique hl hr]
    constructor
    · rintro ⟨hSplit, hLess, hNonneg, -⟩
      have hm := hNonneg hl
      omega
    · rintro ⟨hSplit, hm, hLess⟩
      constructor <;> omega

theorem not_divides_zero {l q m : Int} : ¬ Divides l 0 q m := fun h => Nat.not_lt_zero _ h.less

def leastInteger : Int := -0x8000000000000000

/-- Of all quotients only one has more than 64 bits. -/
theorem inRange_tdiv_iff {l r : Int} (hl : InRange l) (hr : r ≠ 0) :
    InRange (l.tdiv r) ↔ ¬ (l = leastInteger ∧ r = -1) := by
  unfold InRange leastInteger at *
  by_cases hMinus : r = -1
  · subst hMinus
    rw [Int.tdiv_neg, Int.tdiv_one]
    omega
  · by_cases hOne : r = 1
    · subst hOne
      rw [Int.tdiv_one]
      omega
    · -- any other divisor halves the dividend at least
      have hDivisor : 2 ≤ r.natAbs := by omega
      have hAbs : (l.tdiv r).natAbs = l.natAbs / r.natAbs := Int.natAbs_tdiv l r
      have hHalf : l.natAbs / r.natAbs ≤ l.natAbs / 2 := Nat.div_le_div_left hDivisor (by decide)
      omega

theorem inRange_tmod {l r : Int} (hr : InRange r) (hNonzero : r ≠ 0) : InRange (l.tmod r) := by
  have hAbs := Int.natAbs_tmod l r
  have hLess : l.natAbs % r.natAbs < r.natAbs := Nat.mod_lt _ (by omega)
  unfold InRange at *
  omega

/-! ## Operators -/

namespace BinaryOp

def arithmetical : List BinaryOp := [add, sub, mul, div, rem]

/-- The integer is what the operator comes to without any bounds. -/
def Exact (l r n : Int) : BinaryOp → Prop
  | .add => n = l + r
  | .sub => n = l - r
  | .mul => n = l * r
  | .div => ∃ remainder, Divides l r n remainder
  | .rem => ∃ quotient, Divides l r quotient n
  | _ => False

/-- The remainder of the least integer by `-1`, which has no quotient beside it. -/
def LacksQuotient (l r : Int) (op : BinaryOp) : Prop := op = .rem ∧ l = leastInteger ∧ r = -1

section Applied
variable {l r n : Int}

theorem arithmetic_int (result : Int → Int → Except EvalError Int) :
    arithmetic result (.int l) (.int r) = do return .int (← result l r) := rfl

theorem exact_div_iff (hr : r ≠ 0) : Exact l r n .div ↔ n = l.tdiv r := by
  constructor
  · rintro ⟨m, h⟩
    exact ((divides_iff hr).mp h).1
  · intro h
    exact ⟨l.tmod r, (divides_iff hr).mpr ⟨h, rfl⟩⟩

theorem exact_rem_iff (hr : r ≠ 0) : Exact l r n .rem ↔ n = l.tmod r := by
  constructor
  · rintro ⟨q, h⟩
    exact ((divides_iff hr).mp h).2
  · intro h
    exact ⟨l.tdiv r, (divides_iff hr).mpr ⟨rfl, h⟩⟩

/-- Nothing is exact only of a division by zero. -/
theorem exists_exact_iff {op : BinaryOp} (hOp : op ∈ arithmetical) :
    (∃ n, op.Exact l r n) ↔ (op = .div ∨ op = .rem → r ≠ 0) := by
  simp only [arithmetical, List.mem_cons, List.not_mem_nil, or_false] at hOp
  rcases hOp with rfl | rfl | rfl | rfl | rfl
  · exact iff_of_true ⟨_, rfl⟩ nofun
  · exact iff_of_true ⟨_, rfl⟩ nofun
  · exact iff_of_true ⟨_, rfl⟩ nofun
  · constructor
    · rintro ⟨n, m, h⟩ - rfl
      exact not_divides_zero h
    · intro h
      exact ⟨_, (exact_div_iff (h (.inl rfl))).mpr rfl⟩
  · constructor
    · rintro ⟨n, q, h⟩ - rfl
      exact not_divides_zero h
    · intro h
      exact ⟨_, (exact_rem_iff (h (.inr rfl))).mpr rfl⟩

theorem exactUnless_div :
    ExactUnless (LacksQuotient l r .div) (Exact l r · .div) (div.apply (.int l) (.int r)) := by
  rw [apply, arithmetic_int]
  by_cases hr : r = 0
  · subst hr
    exact .of_divisionByZero fun m ⟨_, h⟩ => not_divides_zero h
  · rw [quotient, if_neg hr]
    exact .of_checked (fun m => exact_div_iff hr) fun h => nomatch h.1

theorem exactUnless_rem (hl : InRange l) (hr : InRange r) :
    ExactUnless (LacksQuotient l r .rem) (Exact l r · .rem) (rem.apply (.int l) (.int r)) := by
  rw [apply, arithmetic_int]
  by_cases hZero : r = 0
  · subst hZero
    exact .of_divisionByZero fun m ⟨_, h⟩ => not_divides_zero h
  · have hQuotient := inRange_tdiv_iff hl hZero
    rw [remainder, quotient, if_neg hZero]
    by_cases hLacks : LacksQuotient l r .rem
    · have hOut : ¬ InRange (l.tdiv r) := fun hIn => hQuotient.mp hIn hLacks.2
      rw [checked_of_not_inRange hOut]
      exact .of_overflow (fun m => exact_rem_iff hZero) fun _ => hLacks
    · have hIn : InRange (l.tdiv r) := hQuotient.mpr fun h => hLacks ⟨rfl, h⟩
      have hRemainder : InRange (l.tmod r) := inRange_tmod hr hZero
      rw [checked_of_inRange hIn, checked_of_inRange hRemainder]
      exact .of_value (fun m => exact_rem_iff hZero) hRemainder hLacks

theorem exactUnless_apply {op : BinaryOp} (hOp : op ∈ arithmetical) (hl : InRange l)
    (hr : InRange r) :
    ExactUnless (op.LacksQuotient l r) (op.Exact l r ·) (op.apply (.int l) (.int r)) := by
  simp only [arithmetical, List.mem_cons, List.not_mem_nil, or_false] at hOp
  rcases hOp with rfl | rfl | rfl | rfl | rfl
  · exact .of_checked (fun m => Iff.rfl) fun h => nomatch h.1
  · exact .of_checked (fun m => Iff.rfl) fun h => nomatch h.1
  · exact .of_checked (fun m => Iff.rfl) fun h => nomatch h.1
  · exact exactUnless_div
  · exact exactUnless_rem hl hr

end Applied
end BinaryOp

/-! ## Sums -/

/-- The payloads of the tokens are these integers. -/
def Amounts (tokens : TokenBag) (ns : List Int) : Prop :=
  List.Forall₂ (fun t n => t.value = .int n) tokens ns

/-- Counting up from `start`, some integers at the front come to a total beyond 64 bits. -/
def Overshoots (start : Int) (ns : List Int) : Prop :=
  ∃ front, front <+: ns ∧ ¬ InRange (start + front.sum)

section Sums
variable {start n : Int} {ns order : List Int} {tokens : TokenBag}

theorem overshoots_nil_iff : Overshoots start [] ↔ ¬ InRange start := by
  simp [Overshoots]

theorem overshoots_cons_iff (hStart : InRange start) :
    Overshoots start (n :: ns) ↔ Overshoots (start + n) ns := by
  constructor
  · rintro ⟨front, hFront, hOut⟩
    rcases List.prefix_cons_iff.mp hFront with rfl | ⟨rest, rfl, hRest⟩
    · rw [List.sum_nil, Int.add_zero] at hOut
      exact absurd hStart hOut
    · refine ⟨rest, hRest, ?_⟩
      rwa [List.sum_cons, ← Int.add_assoc] at hOut
  · rintro ⟨front, hFront, hOut⟩
    refine ⟨n :: front, List.cons_prefix_cons.mpr ⟨rfl, hFront⟩, ?_⟩
    rwa [List.sum_cons, ← Int.add_assoc]

theorem overshoots_of_not_inRange (h : ¬ InRange (start + ns.sum)) : Overshoots start ns :=
  ⟨ns, List.prefix_refl ns, h⟩

theorem exactUnless_sum_from (hTokens : Amounts tokens ns) (hStart : InRange start) :
    ExactUnless (Overshoots start ns) (· = start + ns.sum) (do
      let sum ← tokens.foldlM (fun sum t => do checked (sum + (← t.value.integer))) start
      return .int sum) := by
  induction hTokens generalizing start with
  | nil =>
    refine .of_value (n := start) (fun m => ?_) hStart ?_
    · rw [List.sum_nil, Int.add_zero]
    · intro hOut
      exact overshoots_nil_iff.mp hOut hStart
  | @cons t n tokens ns hValue _ ih =>
    rw [List.foldlM_cons, hValue, overshoots_cons_iff hStart, List.sum_cons, ← Int.add_assoc]
    change ExactUnless _ _ (checked (start + n) >>= _ >>= _)
    by_cases hRange : InRange (start + n)
    · rw [checked_of_inRange hRange]
      exact ih hRange
    · rw [checked_of_not_inRange hRange]
      refine .of_overflow (n := start + n + ns.sum) (fun m => Iff.rfl) fun _ => ?_
      refine ⟨[], List.nil_prefix, ?_⟩
      rwa [List.sum_nil, Int.add_zero]

end Sums

/-! ### Orders -/

/-- The total of the positive integers. -/
def gains (ns : List Int) : Int := (ns.filter (0 < ·)).sum

/-- The total of the negative integers. -/
def losses (ns : List Int) : Int := (ns.filter (· < 0)).sum

section Orders
variable {start n : Int} {ns order : List Int}

theorem sum_nonpos (h : ∀ n ∈ ns, n ≤ 0) : ns.sum ≤ 0 :=
  (List.sum_le_card_nsmul ns 0 h).trans_eq (nsmul_zero _)

theorem sum_between (ns : List Int) : losses ns ≤ ns.sum ∧ ns.sum ≤ gains ns := by
  unfold gains losses
  induction ns with
  | nil => exact ⟨le_rfl, le_rfl⟩
  | cons n ns ih =>
    rw [List.sum_cons]
    rcases lt_trichotomy n 0 with hNegative | rfl | hPositive
    · rw [List.filter_cons_of_pos (by simpa using hNegative),
        List.filter_cons_of_neg (by simpa using hNegative.le), List.sum_cons]
      omega
    · rw [List.filter_cons_of_neg (by decide), List.filter_cons_of_neg (by decide)]
      omega
    · rw [List.filter_cons_of_neg (by simpa using hPositive.le),
        List.filter_cons_of_pos (by simpa using hPositive), List.sum_cons]
      omega

theorem gains_nonneg (ns : List Int) : 0 ≤ gains ns := by
  refine List.sum_nonneg fun n hn => ?_
  have hPos := List.of_mem_filter hn
  exact Int.le_of_lt (of_decide_eq_true hPos)

theorem losses_nonpos (ns : List Int) : losses ns ≤ 0 := by
  refine sum_nonpos fun n hn => ?_
  have hNeg := List.of_mem_filter hn
  exact Int.le_of_lt (of_decide_eq_true hNeg)

theorem sum_between_of_prefix {front : List Int} (h : front <+: ns) :
    losses ns ≤ front.sum ∧ front.sum ≤ gains ns := by
  obtain ⟨rest, rfl⟩ := h
  obtain ⟨hLow, hHigh⟩ := sum_between front
  have hGains := gains_nonneg rest
  have hLosses := losses_nonpos rest
  unfold gains losses at *
  rw [List.filter_append, List.filter_append, List.sum_append, List.sum_append]
  omega

/-- Every order stays within 64 bits if the positive integers do and the negative ones do; the order
that begins with the positive ones shows that they have to, and likewise the negative ones. -/
theorem no_order_overshoots_iff :
    (∀ order, order.Perm ns → ¬ Overshoots 0 order) ↔ InRange (gains ns) ∧ InRange (losses ns) := by
  constructor
  · intro hOrders
    have hFirst (p : Int → Bool) : InRange (ns.filter p).sum := by
      have hOrder := hOrders _ (List.filter_append_perm p ns)
      by_contra hOut
      refine hOrder ⟨ns.filter p, List.prefix_append _ _, ?_⟩
      rwa [Int.zero_add]
    exact ⟨hFirst _, hFirst _⟩
  · rintro ⟨hGains, hLosses⟩ order hOrder ⟨front, hFront, hOut⟩
    obtain ⟨hLow, hHigh⟩ := sum_between_of_prefix hFront
    have hSameGains : gains order = gains ns := (hOrder.filter _).sum_eq
    have hSameLosses : losses order = losses ns := (hOrder.filter _).sum_eq
    apply hOut
    unfold InRange at *
    omega

/-- Two integers that miss the range on both sides are too far apart, and if all miss it on one
side, so does their total. -/
theorem exists_next_inRange (hNonempty : ns ≠ []) (hAll : ∀ n ∈ ns, InRange n)
    (hStart : InRange start) (hTotal : InRange (start + ns.sum)) :
    ∃ n ∈ ns, InRange (start + n) := by
  by_contra hNone
  obtain ⟨first, rest, rfl⟩ := List.exists_cons_of_ne_nil hNonempty
  have hOut : ∀ n ∈ first :: rest, ¬ InRange (start + n) := fun n hn hIn => hNone ⟨n, hn, hIn⟩
  have hFirst := hOut first List.mem_cons_self
  have hFirstIn := hAll first List.mem_cons_self
  rw [List.sum_cons] at hTotal
  unfold InRange at *
  rcases Int.lt_or_le 0 first with hPositive | hNegative
  · have hRest : 0 ≤ rest.sum := by
      refine List.sum_nonneg fun n hn => ?_
      have hMiss := hOut n (List.mem_cons_of_mem _ hn)
      have hIn := hAll n (List.mem_cons_of_mem _ hn)
      omega
    omega
  · have hRest : rest.sum ≤ 0 := by
      refine sum_nonpos fun n hn => ?_
      have hMiss := hOut n (List.mem_cons_of_mem _ hn)
      have hIn := hAll n (List.mem_cons_of_mem _ hn)
      omega
    omega

/-- An order is made from the front on, each time of an integer that keeps within the range. -/
theorem exists_order_iff (hAll : ∀ n ∈ ns, InRange n) (hStart : InRange start) :
    (∃ order, order.Perm ns ∧ ¬ Overshoots start order) ↔ InRange (start + ns.sum) := by
  constructor
  · rintro ⟨order, hOrder, hStays⟩
    rw [← hOrder.sum_eq]
    by_contra hOut
    exact hStays (overshoots_of_not_inRange hOut)
  · intro hTotal
    induction hLength : ns.length generalizing start ns with
    | zero =>
      obtain rfl := List.eq_nil_of_length_eq_zero hLength
      exact ⟨[], List.Perm.refl [], fun h => overshoots_nil_iff.mp h hStart⟩
    | succ length ih =>
      have hNonempty : ns ≠ [] := List.ne_nil_of_length_eq_add_one hLength
      obtain ⟨n, hn, hNext⟩ := exists_next_inRange hNonempty hAll hStart hTotal
      have hPerm : ns.Perm (n :: ns.erase n) := List.perm_cons_erase hn
      have hSum : ns.sum = n + (ns.erase n).sum := hPerm.sum_eq.trans List.sum_cons
      rw [hSum, ← Int.add_assoc] at hTotal
      have hShorter : (ns.erase n).length = length := by
        rw [List.length_erase_of_mem hn, hLength, Nat.add_sub_cancel]
      have hRest : ∀ m ∈ ns.erase n, InRange m := fun m hm => hAll m (List.mem_of_mem_erase hm)
      obtain ⟨order, hOrder, hStays⟩ := ih hRest hNext hTotal hShorter
      refine ⟨n :: order, (hOrder.cons n).trans hPerm.symm, ?_⟩
      rwa [overshoots_cons_iff hStart]

end Orders

/-! ## Expressions -/

namespace Expr
variable {context : Context} {tokens order : TokenBag} {ns ms : List Int}

/-- What `sum()` comes to where these are the tokens. -/
def evalSum (context : Context) (tokens : TokenBag) : Except EvalError Value :=
  (call "sum" []).eval { context with tokens := some tokens }

theorem evalSum_eq : evalSum context tokens = do return .int (← Builtin.total tokens) := by
  have hName : Builtin.ofName "sum" = some .sum := by decide
  rw [evalSum, eval, evalItems, hName]
  rfl

theorem evalSum_exactUnless (hTokens : Amounts tokens ns) :
    ExactUnless (Overshoots 0 ns) (· = ns.sum) (evalSum context tokens) := by
  have hSum := exactUnless_sum_from hTokens (by decide : InRange 0)
  rwa [Int.zero_add, ← Builtin.total, ← evalSum_eq] at hSum

theorem evalSum_eq_ok_iff (hTokens : Amounts tokens ns) :
    evalSum context tokens = .ok (.int ns.sum) ↔ ¬ Overshoots 0 ns := by
  rw [(evalSum_exactUnless hTokens).value]
  constructor
  · exact fun h => h.2.2
  · intro hStays
    refine ⟨rfl, ?_, hStays⟩
    by_contra hOut
    exact hStays (overshoots_of_not_inRange (by rwa [Int.zero_add]))

theorem exists_amounts (hTokens : Amounts tokens ns) (hOrder : order.Perm tokens) :
    ∃ ms, Amounts order ms ∧ ms.Perm ns := List.perm_comp_forall₂ hOrder hTokens

theorem exists_tokens (hTokens : Amounts tokens ns) (hOrder : ms.Perm ns) :
    ∃ order : TokenBag, order.Perm tokens ∧ Amounts order ms := by
  obtain ⟨order, hAmounts, hPerm⟩ := List.perm_comp_forall₂ hOrder hTokens.flip
  exact ⟨order, hPerm, hAmounts.flip⟩

theorem evalSum_of_perm (hTokens : Amounts tokens ns) (hOrder : order.Perm tokens) {v : Value}
    (hSum : evalSum context order = .ok v) : v = .int ns.sum := by
  obtain ⟨ms, hAmounts, hPerm⟩ := exists_amounts hTokens hOrder
  obtain ⟨n, -, hv⟩ := bind_eq_ok_iff.mp (evalSum_eq.symm.trans hSum)
  obtain rfl := Except.ok.inj hv
  obtain ⟨rfl, -⟩ := ((evalSum_exactUnless hAmounts).value n).mp hSum
  rw [hPerm.sum_eq]

theorem exists_evalSum_iff (hTokens : Amounts tokens ns) (hAll : ∀ n ∈ ns, InRange n) :
    (∃ order : TokenBag, order.Perm tokens ∧ evalSum context order = .ok (.int ns.sum)) ↔
      InRange ns.sum := by
  have hOrders := exists_order_iff hAll (by decide : InRange 0)
  rw [Int.zero_add] at hOrders
  rw [← hOrders]
  constructor
  · rintro ⟨order, hOrder, hSum⟩
    obtain ⟨ms, hAmounts, hPerm⟩ := exists_amounts hTokens hOrder
    rw [← hPerm.sum_eq, evalSum_eq_ok_iff hAmounts] at hSum
    exact ⟨ms, hPerm, hSum⟩
  · rintro ⟨ms, hPerm, hStays⟩
    obtain ⟨order, hOrder, hAmounts⟩ := exists_tokens hTokens hPerm
    rw [← hPerm.sum_eq]
    exact ⟨order, hOrder, (evalSum_eq_ok_iff hAmounts).mpr hStays⟩

theorem forall_evalSum_iff (hTokens : Amounts tokens ns) :
    (∀ order : TokenBag, order.Perm tokens → evalSum context order = .ok (.int ns.sum)) ↔
      InRange (gains ns) ∧ InRange (losses ns) := by
  rw [← no_order_overshoots_iff]
  constructor
  · intro hSums ms hPerm
    obtain ⟨order, hOrder, hAmounts⟩ := exists_tokens hTokens hPerm
    have hSum := hSums order hOrder
    rwa [← hPerm.sum_eq, evalSum_eq_ok_iff hAmounts] at hSum
  · intro hStays order hOrder
    obtain ⟨ms, hAmounts, hPerm⟩ := exists_amounts hTokens hOrder
    rw [← hPerm.sum_eq, evalSum_eq_ok_iff hAmounts]
    exact hStays ms hPerm

/-- Overflows of arithmetic, and the two cases in which the exact result has 64 bits nonetheless. -/
theorem eval_exactUnless (context : Context) :
    (∀ op ∈ BinaryOp.arithmetical, ∀ (lhs rhs : Expr) (l r : Int),
      lhs.eval context = .ok (.int l) → rhs.eval context = .ok (.int r) → InRange l → InRange r →
      ExactUnless (op.LacksQuotient l r) (op.Exact l r ·)
          ((binary (.strict op) lhs rhs).eval context) ∧
        ((∃ n, op.Exact l r n) ↔ (op = .div ∨ op = .rem → r ≠ 0))) ∧
    (∀ (operand : Expr) (n : Int), operand.eval context = .ok (.int n) →
      ExactUnless False (· = -n) ((unary .neg operand).eval context)) ∧
    (∀ (tokens : TokenBag) (ns : List Int), Amounts tokens ns → (∀ n ∈ ns, InRange n) →
      ExactUnless (Overshoots 0 ns) (· = ns.sum) (evalSum context tokens) ∧
      (∀ order : TokenBag, order.Perm tokens →
        ∀ v, evalSum context order = .ok v → v = .int ns.sum) ∧
      ((∃ order : TokenBag, order.Perm tokens ∧ evalSum context order = .ok (.int ns.sum)) ↔
        InRange ns.sum) ∧
      ((∀ order : TokenBag, order.Perm tokens → evalSum context order = .ok (.int ns.sum)) ↔
        InRange (gains ns) ∧ InRange (losses ns))) := by
  refine ⟨?binary, ?neg, ?sum⟩
  case binary =>
    intro op hOp lhs rhs l r hLhs hRhs hl hr
    rw [eval, hLhs, hRhs]
    exact ⟨BinaryOp.exactUnless_apply hOp hl hr, BinaryOp.exists_exact_iff hOp⟩
  case neg =>
    intro operand n hOperand
    rw [eval, hOperand]
    exact .of_checked (fun m => Iff.rfl) id
  case sum =>
    intro tokens ns hTokens hAll
    refine ⟨evalSum_exactUnless hTokens, ?_, exists_evalSum_iff hTokens hAll,
      forall_evalSum_iff hTokens⟩
    intro order hOrder v hSum
    exact evalSum_of_perm hTokens hOrder hSum

/-- The total of `2⁶³ - 1`, `1` and `-1` has 64 bits, and so has the remainder of `-2⁶³` by `-1`. -/
theorem eval_exactUnless_corners :
    ∃ order : TokenBag, order.Perm [⟨.int (-leastInteger - 1), 0, none⟩, ⟨.int 1, 0, none⟩,
        ⟨.int (-1), 0, none⟩] ∧
      evalSum ⟨0, "t", none⟩ order = .ok (.int (-leastInteger - 1)) ∧
      (binary (.strict .rem) (literal (.int (-7))) (literal (.int 2))).eval ⟨0, "t", none⟩ =
        .ok (.int (-1)) ∧
      (binary (.strict .rem) (literal (.int leastInteger)) (literal (.int (-1)))).eval
        ⟨0, "t", none⟩ = .error .overflow ∧
      (unary .neg (literal (.int leastInteger))).eval ⟨0, "t", none⟩ = .error .overflow := by
  obtain ⟨hBinary, hNeg, hSum⟩ := eval_exactUnless ⟨0, "t", none⟩
  have hAmounts : Amounts [⟨.int (-leastInteger - 1), 0, none⟩, ⟨.int 1, 0, none⟩,
      ⟨.int (-1), 0, none⟩] [-leastInteger - 1, 1, -1] :=
    .cons rfl (.cons rfl (.cons rfl .nil))
  obtain ⟨-, -, hOrder, -⟩ := hSum _ _ hAmounts (by decide)
  obtain ⟨order, hPerm, hValue⟩ := hOrder.mpr (by decide)
  have hRem := (hBinary .rem (by decide) (literal (.int (-7))) (literal (.int 2)) (-7) 2 rfl rfl
    (by decide) (by decide)).1
  have hLeast := (hBinary .rem (by decide) (literal (.int leastInteger)) (literal (.int (-1)))
    leastInteger (-1) rfl rfl (by decide) (by decide)).1
  refine ⟨order, hPerm, hValue, ?_, ?_, ?_⟩
  · exact (hRem.value (-1)).mpr ⟨⟨-3, by constructor <;> decide⟩, by decide, nofun⟩
  · refine hLeast.overflow.mpr ⟨0, ⟨-leastInteger, by constructor <;> decide⟩, ?_⟩
    exact fun _ => ⟨rfl, rfl, rfl⟩
  · exact (hNeg (literal (.int leastInteger)) leastInteger rfl).overflow.mpr ⟨_, rfl, by decide⟩

/-- Without exceptions this holds neither of the remainder nor of the sum, and the order of the
tokens matters. -/
theorem eval_not_exact :
    ¬ ExactUnless False (BinaryOp.Exact leastInteger (-1) · .rem)
        ((binary (.strict .rem) (literal (.int leastInteger)) (literal (.int (-1)))).eval
          ⟨0, "t", none⟩) ∧
      ¬ ExactUnless False (· = -leastInteger - 1) (evalSum ⟨0, "t", none⟩
        [⟨.int (-leastInteger - 1), 0, none⟩, ⟨.int 1, 0, none⟩, ⟨.int (-1), 0, none⟩]) ∧
      evalSum ⟨0, "t", none⟩
          [⟨.int (-leastInteger - 1), 0, none⟩, ⟨.int (-1), 0, none⟩, ⟨.int 1, 0, none⟩] =
        .ok (.int (-leastInteger - 1)) := by
  refine ⟨fun h => ?_, fun h => ?_, ?_⟩
  · have hExact : BinaryOp.Exact leastInteger (-1) 0 .rem :=
      ⟨-leastInteger, by constructor <;> decide⟩
    have hValue := (h.value 0).mpr ⟨hExact, by decide, id⟩
    cases hValue
  · have hValue := (h.value _).mpr ⟨rfl, by decide, id⟩
    cases hValue
  · rfl

end Expr
end Petri
