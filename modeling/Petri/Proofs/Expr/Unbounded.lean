import Petri.Proofs.Expr.Machine

/-! # Evaluation over unbounded integers

The evaluator without its range checks. Where the checks find nothing the two agree, on results and
on errors, and all integers of a result have 64 bits. So the checks only ever turn a result or an
error into an overflow.
-/
namespace Petri
set_option autoImplicit false

/-! ## Integers inside of values and values inside of expressions -/

/-- The integer stands somewhere in the value. -/
inductive Value.HasInteger (n : Int) : Value → Prop where
  | self : HasInteger n (.int n)
  | tuple {v : Value} {items : List Value} (hMem : v ∈ items) (h : HasInteger n v) :
    HasInteger n (.tuple items)
  | list {v : Value} {items : List Value} (hMem : v ∈ items) (h : HasInteger n v) :
    HasInteger n (.list items)

/-- All integers anywhere in the value have 64 bits. -/
def Value.Fits (v : Value) : Prop := ∀ n, v.HasInteger n → InRange n

/-- The value is a literal somewhere in the expression. -/
inductive Expr.HasLiteral (v : Value) : Expr → Prop where
  | self : HasLiteral v (.literal v)
  | argument {function : String} {e : Expr} {args : List Expr} (hMem : e ∈ args)
    (h : HasLiteral v e) : HasLiteral v (.call function args)
  | operand {op : UnaryOp} {e : Expr} (h : HasLiteral v e) : HasLiteral v (.unary op e)
  | left {op : Operator} {lhs rhs : Expr} (h : HasLiteral v lhs) : HasLiteral v (.binary op lhs rhs)
  | right {op : Operator} {lhs rhs : Expr} (h : HasLiteral v rhs) : HasLiteral v (.binary op lhs rhs)
  | tuple {e : Expr} {items : List Expr} (hMem : e ∈ items) (h : HasLiteral v e) :
    HasLiteral v (.tuple items)
  | list {e : Expr} {items : List Expr} (hMem : e ∈ items) (h : HasLiteral v e) :
    HasLiteral v (.list items)

namespace Value

theorem fits_bool (b : Bool) : (bool b).Fits := by
  rintro n ⟨⟩

theorem fits_str (s : String) : (str s).Fits := by
  rintro n ⟨⟩

theorem fits_int_iff {n : Int} : (int n).Fits ↔ InRange n := by
  constructor
  · exact fun h => h n .self
  · rintro h m ⟨⟩
    exact h

theorem fits_tuple {items : List Value} (h : ∀ v ∈ items, v.Fits) : (tuple items).Fits := by
  rintro n (_ | ⟨hMem, hInteger⟩)
  exact h _ hMem n hInteger

theorem fits_list {items : List Value} (h : ∀ v ∈ items, v.Fits) : (list items).Fits := by
  rintro n (_ | _ | ⟨hMem, hInteger⟩)
  exact h _ hMem n hInteger

theorem Fits.integer {v : Value} {n : Int} (h : v.Fits) (hInteger : v.integer = .ok n) :
    InRange n := by
  cases v with
  | int m =>
    cases hInteger
    exact fits_int_iff.mp h
  | _ => cases hInteger

end Value

/-! ## The evaluator without checks -/

namespace Unbounded

def unary (op : UnaryOp) (v : Value) : Except EvalError Value :=
  match op with
  | .not => do return .bool (!(← v.truth))
  | .neg => do return .int (-(← v.integer))

def binary (op : BinaryOp) (lhs rhs : Value) : Except EvalError Value :=
  match op with
  | .eq => .ok (.bool (lhs == rhs))
  | .ne => .ok (.bool (lhs != rhs))
  | .lt => BinaryOp.compare (·.isLT) lhs rhs
  | .le => BinaryOp.compare (·.isLE) lhs rhs
  | .gt => BinaryOp.compare (·.isGT) lhs rhs
  | .ge => BinaryOp.compare (·.isGE) lhs rhs
  | .add =>
    match lhs, rhs with
    | .str l, .str r => .ok (.str (l ++ r))
    | lhs, rhs => BinaryOp.arithmetic (fun l r => .ok (l + r)) lhs rhs
  | .sub => BinaryOp.arithmetic (fun l r => .ok (l - r)) lhs rhs
  | .mul => BinaryOp.arithmetic (fun l r => .ok (l * r)) lhs rhs
  | .div =>
    BinaryOp.arithmetic (fun l r => if r = 0 then .error .divisionByZero else .ok (l.tdiv r)) lhs rhs
  | .rem =>
    BinaryOp.arithmetic (fun l r => if r = 0 then .error .divisionByZero else .ok (l.tmod r)) lhs rhs

def total (tokens : TokenBag) : Except EvalError Int :=
  tokens.foldlM (fun sum t => do return sum + (← t.value.integer)) 0

/-- Of the functions only the clock and the sum have a range check. -/
def call (context : Context) (f : Builtin) (args : List Value) : Except EvalError Value :=
  match f, args with
  | .clock, [] => .ok (.int context.clock)
  | .sum, [] => do return .int (← total (← Builtin.sum.scope context))
  | f, args => f.apply context args

mutual

def eval (context : Context) : Expr → Except EvalError Value
  | .literal v => .ok v
  | .tuple items => do return .tuple (← evalItems context items)
  | .list items => do return .list (← evalItems context items)
  | .unary op operand => do unary op (← eval context operand)
  | .binary .and lhs rhs => do
    match ← (← eval context lhs).truth with
    | true => return .bool (← (← eval context rhs).truth)
    | false => return .bool false
  | .binary .or lhs rhs => do
    match ← (← eval context lhs).truth with
    | true => return .bool true
    | false => return .bool (← (← eval context rhs).truth)
  | .binary (.strict op) lhs rhs => do
    let l ← eval context lhs
    let r ← eval context rhs
    binary op l r
  | .call function args => do
    let values ← evalItems context args
    match Builtin.ofName function with
    | some f => call context f values
    | none => .error (.unknownFunction function)

def evalItems (context : Context) : List Expr → Except EvalError (List Value)
  | [] => .ok []
  | e :: es => do
    let v ← eval context e
    let vs ← evalItems context es
    return v :: vs

end

/-! ## Agreement but for an overflow -/

/-- A checked result is the unchecked one and fits. So is any error other than an overflow. -/
structure Agrees {α : Type} (fits : α → Prop) (checked unchecked : Except EvalError α) : Prop where
  ok : ∀ {a}, checked = .ok a → unchecked = .ok a ∧ fits a
  error : ∀ {e}, checked = .error e → e ≠ .overflow → unchecked = .error e

namespace Agrees
variable {α β : Type} {fits : α → Prop} {fits' : β → Prop} {x y : Except EvalError α}

theorem refl (h : ∀ a, x = .ok a → fits a) : Agrees fits x x :=
  ⟨fun hOk => ⟨hOk, h _ hOk⟩, fun hError _ => hError⟩

theorem pure {a : α} (h : fits a) : Agrees fits (.ok a) (.ok a) :=
  refl fun _ hOk => Except.ok.inj hOk ▸ h

theorem bind {f g : α → Except EvalError β} (h : Agrees fits x y)
    (hNext : ∀ a, x = .ok a → fits a → Agrees fits' (f a) (g a)) :
    Agrees fits' (x >>= f) (y >>= g) where
  ok hOk := by
    obtain ⟨a, hFirst, hSecond⟩ := bind_eq_ok_iff.mp hOk
    obtain ⟨hSame, hFits⟩ := h.ok hFirst
    obtain ⟨hSecondSame, hSecondFits⟩ := (hNext a hFirst hFits).ok hSecond
    exact ⟨bind_eq_ok_iff.mpr ⟨a, hSame, hSecondSame⟩, hSecondFits⟩
  error hError hOverflow := by
    rcases bind_eq_error_iff.mp hError with hFirst | ⟨a, hFirst, hSecond⟩
    · exact bind_eq_error_iff.mpr (.inl (h.error hFirst hOverflow))
    · obtain ⟨hSame, hFits⟩ := h.ok hFirst
      exact bind_eq_error_iff.mpr
        (.inr ⟨a, hSame, (hNext a hFirst hFits).error hSecond hOverflow⟩)

end Agrees

theorem agrees_checked (n : Int) : Agrees InRange (checked n) (.ok n) := by
  unfold checked
  split
  · exact .pure (by assumption)
  · refine ⟨nofun, fun hError hOverflow => ?_⟩
    cases hError
    exact absurd rfl hOverflow

theorem agrees_integer {v : Value} (h : v.Fits) : Agrees InRange v.integer v.integer :=
  .refl fun _ hOk => h.integer hOk

theorem agrees_truth (v : Value) : Agrees (fun _ => True) v.truth v.truth := .refl fun _ _ => trivial

theorem agrees_unary {v : Value} (h : v.Fits) (op : UnaryOp) :
    Agrees Value.Fits (op.apply v) (unary op v) := by
  cases op with
  | not => exact (agrees_truth v).bind fun _ _ _ => .pure (Value.fits_bool _)
  | neg =>
    exact (agrees_integer h).bind fun _ _ _ =>
      (agrees_checked _).bind fun _ _ hRange => .pure (Value.fits_int_iff.mpr hRange)

theorem agrees_arithmetic {lhs rhs : Value} (hl : lhs.Fits) (hr : rhs.Fits)
    {result unchecked : Int → Int → Except EvalError Int}
    (h : ∀ l r, InRange l → InRange r → Agrees InRange (result l r) (unchecked l r)) :
    Agrees Value.Fits (BinaryOp.arithmetic result lhs rhs) (BinaryOp.arithmetic unchecked lhs rhs) :=
  (agrees_integer hl).bind fun _ _ hLeft => (agrees_integer hr).bind fun _ _ hRight =>
    (h _ _ hLeft hRight).bind fun _ _ hRange => .pure (Value.fits_int_iff.mpr hRange)

theorem agrees_quotient (l r : Int) : Agrees InRange (BinaryOp.quotient l r)
    (if r = 0 then .error .divisionByZero else .ok (l.tdiv r)) := by
  unfold BinaryOp.quotient
  split
  · exact .refl nofun
  · exact agrees_checked _

/-- The quotient is checked as well, though nothing becomes of it. -/
theorem agrees_remainder (l r : Int) : Agrees InRange (BinaryOp.remainder l r)
    (if r = 0 then .error .divisionByZero else .ok (l.tmod r)) := by
  have hRemainder := (agrees_quotient l r).bind fun _ _ _ => agrees_checked (l.tmod r)
  split
  · rename_i hZero
    rw [if_pos hZero] at hRemainder
    exact hRemainder
  · rename_i hNonzero
    rw [if_neg hNonzero] at hRemainder
    exact hRemainder

theorem agrees_binary {lhs rhs : Value} (hl : lhs.Fits) (hr : rhs.Fits) (op : BinaryOp) :
    Agrees Value.Fits (op.apply lhs rhs) (binary op lhs rhs) := by
  have hCompare : ∀ holds : Ordering → Bool, Agrees Value.Fits
      (BinaryOp.compare holds lhs rhs) (BinaryOp.compare holds lhs rhs) := by
    refine fun holds => .refl fun v hOk => ?_
    unfold BinaryOp.compare at hOk
    split at hOk
    · cases hOk
      exact Value.fits_bool _
    · cases hOk
  cases op with
  | eq | ne => exact .pure (Value.fits_bool _)
  | lt | le | gt | ge => exact hCompare _
  | add =>
    have hAdd := agrees_arithmetic hl hr fun l r _ _ => agrees_checked (l + r)
    cases lhs <;> cases rhs <;> first | exact hAdd | exact .pure (Value.fits_str _)
  | sub => exact agrees_arithmetic hl hr fun l r _ _ => agrees_checked _
  | mul => exact agrees_arithmetic hl hr fun l r _ _ => agrees_checked _
  | div => exact agrees_arithmetic hl hr fun l r _ _ => agrees_quotient l r
  | rem => exact agrees_arithmetic hl hr fun l r _ _ => agrees_remainder l r

/-! ## Functions -/

/-- The payloads of the tokens in scope have only integers of 64 bits. -/
def Payloads (context : Context) : Prop :=
  ∀ tokens, context.tokens = some tokens → ∀ t ∈ tokens, t.value.Fits

variable {context : Context}

theorem agrees_total (tokens : TokenBag) (hTokens : ∀ t ∈ tokens, t.value.Fits) :
    Agrees InRange (Builtin.total tokens) (total tokens) := by
  have hFrom : ∀ start, InRange start → Agrees InRange
      (tokens.foldlM (fun sum t => do checked (sum + (← t.value.integer))) start)
      (tokens.foldlM (fun sum t => do return sum + (← t.value.integer)) start) := by
    induction tokens with
    | nil => exact fun start hStart => .pure hStart
    | cons t tokens ih =>
      rw [List.forall_mem_cons] at hTokens
      intro start _
      rw [List.foldlM_cons, List.foldlM_cons]
      have hSum := (agrees_integer hTokens.1).bind fun n _ _ => agrees_checked (start + n)
      exact hSum.bind fun sum _ hRange => ih hTokens.2 sum hRange
  exact hFrom 0 (by decide)

/-- A number of tokens in scope fits. -/
theorem agrees_tally (hCountable : Machine.Countable context) {f : Builtin}
    {tally : TokenBag → Nat} (hLe : ∀ tokens, tally tokens ≤ tokens.length) :
    Agrees Value.Fits (do return Value.int (tally (← f.scope context)))
      (do return Value.int (tally (← f.scope context))) := by
  refine .refl fun v hOk => ?_
  obtain ⟨tokens, hScope, hTally⟩ := bind_eq_ok_iff.mp hOk
  cases hTally
  have hLength := hCountable tokens (Machine.scope_eq_ok_iff.mp hScope)
  have hTokens := hLe tokens
  rw [Value.fits_int_iff, InRange]
  omega

theorem agrees_first (hPayloads : Payloads context) :
    Agrees Value.Fits (Builtin.first.apply context []) (Builtin.first.apply context []) := by
  refine .refl fun v hOk => ?_
  obtain ⟨tokens, hScope, hFirst⟩ := bind_eq_ok_iff.mp hOk
  unfold Builtin.firstAvailable at hFirst
  split at hFirst
  · rename_i t hFind
    cases hFirst
    exact hPayloads tokens (Machine.scope_eq_ok_iff.mp hScope) t (List.mem_of_find?_eq_some hFind)
  · cases hFirst

theorem agrees_clock :
    Agrees Value.Fits (Builtin.clock.apply context []) (call context .clock []) := by
  have hClock := (agrees_checked (context.clock : Int)).bind fun n _ hRange =>
    Agrees.pure (Value.fits_int_iff.mpr hRange)
  exact hClock

theorem agrees_sum (hPayloads : Payloads context) :
    Agrees Value.Fits (Builtin.sum.apply context []) (call context .sum []) := by
  have hScope : Agrees (fun tokens : TokenBag => ∀ t ∈ tokens, t.value.Fits)
      (Builtin.sum.scope context) (Builtin.sum.scope context) :=
    .refl fun tokens hOk => hPayloads tokens (Machine.scope_eq_ok_iff.mp hOk)
  exact hScope.bind fun tokens _ hTokens => (agrees_total tokens hTokens).bind fun _ _ hRange =>
    .pure (Value.fits_int_iff.mpr hRange)

theorem agrees_replicate {v n : Value} (hv : v.Fits) :
    Agrees Value.Fits (Builtin.replicate.apply context [v, n])
      (Builtin.replicate.apply context [v, n]) := by
  refine .refl fun w hOk => ?_
  obtain ⟨requested, _, hReplicate⟩ := bind_eq_ok_iff.mp hOk
  unfold Builtin.replicateValue at hReplicate
  split at hReplicate
  · cases hReplicate
    exact Value.fits_list fun u hu => List.eq_of_mem_replicate hu ▸ hv
  · cases hReplicate

theorem agrees_call (hCountable : Machine.Countable context) (hPayloads : Payloads context)
    (f : Builtin) {args : List Value} (hArgs : ∀ v ∈ args, v.Fits) :
    Agrees Value.Fits (f.apply context args) (call context f args) := by
  by_cases hArity : args.length = f.arity
  · cases f with
    | clock =>
      cases List.length_eq_zero_iff.mp hArity
      exact agrees_clock
    | transition =>
      cases List.length_eq_zero_iff.mp hArity
      exact .pure (Value.fits_str _)
    | replicate =>
      obtain ⟨v, n, rfl⟩ := List.length_eq_two.mp hArity
      exact agrees_replicate (hArgs v List.mem_cons_self)
    | size =>
      cases List.length_eq_zero_iff.mp hArity
      exact agrees_tally hCountable fun _ => Nat.le_refl _
    | available =>
      cases List.length_eq_zero_iff.mp hArity
      exact agrees_tally hCountable fun _ => List.countP_le_length
    | first =>
      cases List.length_eq_zero_iff.mp hArity
      exact agrees_first hPayloads
    | contains =>
      obtain ⟨v, rfl⟩ := List.length_eq_one_iff.mp hArity
      exact (Agrees.refl fun _ _ => trivial).bind fun _ _ _ => .pure (Value.fits_bool _)
    | count =>
      obtain ⟨v, rfl⟩ := List.length_eq_one_iff.mp hArity
      exact agrees_tally hCountable fun _ => List.countP_le_length
    | sum =>
      cases List.length_eq_zero_iff.mp hArity
      exact agrees_sum hPayloads
  · have hSame : call context f args = f.apply context args := by
      unfold call
      split <;> first | exact absurd rfl hArity | rfl
    rw [hSame, Machine.apply_of_arity_ne hArity]
    exact .refl nofun

/-! ## Expressions -/

mutual

theorem agrees_eval (hCountable : Machine.Countable context) (hPayloads : Payloads context) :
    ∀ e : Expr, (∀ v, e.HasLiteral v → v.Fits) →
      Agrees Value.Fits (e.eval context) (eval context e)
  | .literal v, hLiterals => .pure (hLiterals v .self)
  | .tuple items, hLiterals =>
    (agrees_evalItems hCountable hPayloads items fun _ hMem v h => hLiterals v (.tuple hMem h)).bind
      fun _ _ hFits => .pure (Value.fits_tuple hFits)
  | .list items, hLiterals =>
    (agrees_evalItems hCountable hPayloads items fun _ hMem v h => hLiterals v (.list hMem h)).bind
      fun _ _ hFits => .pure (Value.fits_list hFits)
  | .unary op operand, hLiterals =>
    (agrees_eval hCountable hPayloads operand fun v h => hLiterals v (.operand h)).bind
      fun _ _ hFits => agrees_unary hFits op
  | .binary .and lhs rhs, hLiterals =>
    (agrees_eval hCountable hPayloads lhs fun v h => hLiterals v (.left h)).bind fun _ _ _ =>
      (agrees_truth _).bind fun l _ _ => by
        cases l with
        | true =>
          exact (agrees_eval hCountable hPayloads rhs fun v h => hLiterals v (.right h)).bind
            fun _ _ _ => (agrees_truth _).bind fun _ _ _ => .pure (Value.fits_bool _)
        | false => exact .pure (Value.fits_bool _)
  | .binary .or lhs rhs, hLiterals =>
    (agrees_eval hCountable hPayloads lhs fun v h => hLiterals v (.left h)).bind fun _ _ _ =>
      (agrees_truth _).bind fun l _ _ => by
        cases l with
        | true => exact .pure (Value.fits_bool _)
        | false =>
          exact (agrees_eval hCountable hPayloads rhs fun v h => hLiterals v (.right h)).bind
            fun _ _ _ => (agrees_truth _).bind fun _ _ _ => .pure (Value.fits_bool _)
  | .binary (.strict op) lhs rhs, hLiterals =>
    (agrees_eval hCountable hPayloads lhs fun v h => hLiterals v (.left h)).bind fun _ _ hl =>
      (agrees_eval hCountable hPayloads rhs fun v h => hLiterals v (.right h)).bind fun _ _ hr =>
        agrees_binary hl hr op
  | .call function args, hLiterals =>
    (agrees_evalItems hCountable hPayloads args
      fun _ hMem v h => hLiterals v (.argument hMem h)).bind fun values _ hFits => by
        cases Builtin.ofName function with
        | some f => exact agrees_call hCountable hPayloads f hFits
        | none => exact .refl nofun

theorem agrees_evalItems (hCountable : Machine.Countable context) (hPayloads : Payloads context) :
    ∀ es : List Expr, (∀ e ∈ es, ∀ v, e.HasLiteral v → v.Fits) →
      Agrees (fun vs => ∀ v ∈ vs, v.Fits) (Expr.evalItems context es) (evalItems context es)
  | [], _ => .pure nofun
  | e :: es, hLiterals =>
    (agrees_eval hCountable hPayloads e (hLiterals e List.mem_cons_self)).bind fun _ _ hFirst =>
      (agrees_evalItems hCountable hPayloads es
        fun e' hMem => hLiterals e' (List.mem_cons_of_mem _ hMem)).bind fun _ _ hOthers =>
          .pure (List.forall_mem_cons.mpr ⟨hFirst, hOthers⟩)

end

end Unbounded

/-- No evaluation meets a fault. With literals and payloads of 64 bits and tokens that can be
counted, it is the evaluation that has no faults, and that one refines unbounded arithmetic: a result
is the unbounded one and has only integers of 64 bits, and an error is the unbounded one unless it
is an overflow. -/
theorem eval_refines_unbounded (e : Expr) (context : Context) :
    (∃ r, (Machine.eval context e).run = .ok r) ∧
    ((∀ v, e.HasLiteral v → v.Fits) → Machine.Countable context → Unbounded.Payloads context →
      (Machine.eval context e).run = .ok (e.eval context) ∧
      (∀ v, e.eval context = .ok v →
        Unbounded.eval context e = .ok v ∧ ∀ n, v.HasInteger n → InRange n) ∧
      ∀ err, e.eval context = .error err → err ≠ .overflow →
        Unbounded.eval context e = .error err) := by
  obtain ⟨r, hRun, hSame⟩ := Machine.runs_eval context e
  refine ⟨⟨r, hRun⟩, fun hLiterals hCountable hPayloads => ⟨?_, ?_, ?_⟩⟩
  · rw [hRun, hSame hCountable]
  · exact fun v => (Unbounded.agrees_eval hCountable hPayloads e hLiterals).ok
  · exact fun err => (Unbounded.agrees_eval hCountable hPayloads e hLiterals).error

/-- A place with the least integer and a small one. -/
def cornerContext : Context :=
  ⟨5, "t", some [{ value := .int (-0x8000000000000000) }, { value := .int 7 }]⟩

/-- Its first token, its size, a negative remainder and its sum. -/
def cornerExpr : Expr :=
  .list [.call "first" [], .call "size" [],
    .binary (.strict .rem) (.literal (.int (-7))) (.literal (.int 2)), .call "sum" []]

theorem eval_refines_unbounded_corner :
    Unbounded.eval cornerContext cornerExpr =
      .ok (.list [.int (-0x8000000000000000), .int 2, .int (-1), .int (-0x7ffffffffffffff9)]) ∧
    (Machine.eval cornerContext cornerExpr).run = .ok (.ok (.list
      [.int (-0x8000000000000000), .int 2, .int (-1), .int (-0x7ffffffffffffff9)])) := by
  have hLiterals : ∀ v, cornerExpr.HasLiteral v → v.Fits := by
    rintro v (_ | _ | _ | _ | _ | _ | ⟨hMem, h⟩)
    simp only [List.mem_cons, List.not_mem_nil, or_false] at hMem
    rcases hMem with rfl | rfl | rfl | rfl
    · obtain _ | ⟨hMem, _⟩ := h
      cases hMem
    · obtain _ | ⟨hMem, _⟩ := h
      cases hMem
    · obtain _ | _ | _ | ⟨⟨⟩⟩ | ⟨⟨⟩⟩ := h
      · exact Value.fits_int_iff.mpr (by decide)
      · exact Value.fits_int_iff.mpr (by decide)
    · obtain _ | ⟨hMem, _⟩ := h
      cases hMem
  have hPayloads : Unbounded.Payloads cornerContext := by
    rintro tokens ⟨⟩ t ht
    simp only [List.mem_cons, List.not_mem_nil, or_false] at ht
    rcases ht with rfl | rfl
    · exact Value.fits_int_iff.mpr (by decide)
    · exact Value.fits_int_iff.mpr (by decide)
  have hCountable : Machine.Countable cornerContext := by
    rintro tokens ⟨⟩
    decide
  obtain ⟨hMachine, hOk, _⟩ :=
    (eval_refines_unbounded cornerExpr cornerContext).2 hLiterals hCountable hPayloads
  have hEval : cornerExpr.eval cornerContext = .ok (.list
      [.int (-0x8000000000000000), .int 2, .int (-1), .int (-0x7ffffffffffffff9)]) := by rfl
  exact ⟨(hOk _ hEval).1, hEval ▸ hMachine⟩

end Petri
