import Petri.Interpreter
import Petri.Proofs.Except

/-! # Evaluation on a machine

Expressions are evaluated once more with what can go wrong beyond an error: an argument that is not
there, an operator that arithmetic does not know, and a number of tokens that is cut off to 64 bits.
The checks that go before keep the first two from happening whatever the expression and its context
are, and a place that is not too large the last one.
-/
namespace Petri
set_option autoImplicit false

/-- What would stop the machine in the middle of an evaluation. -/
inductive Fault where
  /-- There is no argument at this index. -/
  | noArgument (index : Nat)
  /-- Arithmetic with an operator that belongs elsewhere. -/
  | notArithmetic (op : Operator)
  deriving DecidableEq

/-- A result or an error, unless a fault stops the machine. -/
abbrev Machine := ExceptT EvalError (Except Fault)

namespace Machine

def lift {α : Type} (x : Except EvalError α) : Machine α := ExceptT.mk (.ok x)

def fault {α : Type} (f : Fault) : Machine α := ExceptT.mk (.error f)

/-- A number of tokens as a signed integer of 64 bits. -/
def signed (n : Nat) : Int := (n : Int).bmod 0x10000000000000000

def argument (args : List Value) (i : Nat) : Machine Value :=
  match args[i]? with
  | some v => pure v
  | none => fault (.noArgument i)

def checkArity (f : Builtin) (args : List Value) : Machine Unit :=
  if args.length = f.arity then pure () else lift (.error (.arity f.name f.arity args.length))

def arithmetic (op : Operator) (l r : Int) : Machine Int :=
  match op with
  | .strict .add => lift (checked (l + r))
  | .strict .sub => lift (checked (l - r))
  | .strict .mul => lift (checked (l * r))
  | .strict .div => if r = 0 then lift (.error .divisionByZero) else lift (checked (l.tdiv r))
  | .strict .rem =>
    if r = 0 then lift (.error .divisionByZero)
    else do
      let _ ← lift (checked (l.tdiv r))
      lift (checked (l.tmod r))
  | op => fault (.notArithmetic op)

/-- Equality and order come first, then the one operation on strings. All other operators are left
to arithmetic. -/
def binary (lhs : Value) (op : Operator) (rhs : Value) : Machine Value :=
  match op, lhs, rhs with
  | .strict .eq, lhs, rhs => pure (.bool (lhs == rhs))
  | .strict .ne, lhs, rhs => pure (.bool (lhs != rhs))
  | .strict .lt, lhs, rhs => lift (BinaryOp.compare (·.isLT) lhs rhs)
  | .strict .le, lhs, rhs => lift (BinaryOp.compare (·.isLE) lhs rhs)
  | .strict .gt, lhs, rhs => lift (BinaryOp.compare (·.isGT) lhs rhs)
  | .strict .ge, lhs, rhs => lift (BinaryOp.compare (·.isGE) lhs rhs)
  | .strict .add, .str l, .str r => pure (.str (l ++ r))
  | op, lhs, rhs => do
    let l ← lift lhs.integer
    let r ← lift rhs.integer
    return .int (← arithmetic op l r)

def perform (context : Context) (f : Builtin) (args : List Value) : Machine Value :=
  match f with
  | .clock => do return .int (← lift (checked context.clock))
  | .transition => return .str context.transition
  | .replicate => do
    let requested ← lift (← argument args 1).integer
    if 0 ≤ requested ∧ requested ≤ Builtin.replicateLimit then
      return .list (List.replicate requested.toNat (← argument (args.eraseIdx 1) 0))
    else lift (.error (.listTooLong requested Builtin.replicateLimit))
  | .size => do return .int (signed (← lift (f.scope context)).length)
  | .available => do return .int (signed (TokenBag.available context.clock (← lift (f.scope context))))
  | .first => do lift (Builtin.firstAvailable context (← lift (f.scope context)))
  | .contains => do
    let wanted ← argument args 0
    return .bool ((← lift (f.scope context)).any fun t => t.value == wanted)
  | .count => do
    let wanted ← argument args 0
    return .int (signed ((← lift (f.scope context)).countP fun t => t.value == wanted))
  | .sum => do return .int (← lift (Builtin.total (← lift (f.scope context))))

/-- The number of arguments is checked before any of them is looked up. -/
def call (context : Context) (f : Builtin) (args : List Value) : Machine Value := do
  checkArity f args
  perform context f args

mutual

def eval (context : Context) : Expr → Machine Value
  | .literal v => pure v
  | .tuple items => do return .tuple (← evalItems context items)
  | .list items => do return .list (← evalItems context items)
  | .unary op operand => do lift (op.apply (← eval context operand))
  | .binary .and lhs rhs => do
    if ← lift (← eval context lhs).truth then return .bool (← lift (← eval context rhs).truth)
    else return .bool false
  | .binary .or lhs rhs => do
    if ← lift (← eval context lhs).truth then return .bool true
    else return .bool (← lift (← eval context rhs).truth)
  | .binary op lhs rhs => do
    let l ← eval context lhs
    let r ← eval context rhs
    binary l op r
  | .call function args => do
    let values ← evalItems context args
    match Builtin.ofName function with
    | some f => call context f values
    | none => lift (.error (.unknownFunction function))

def evalItems (context : Context) : List Expr → Machine (List Value)
  | [] => pure []
  | e :: es => do
    let v ← eval context e
    let vs ← evalItems context es
    return v :: vs

end

/-! ## Runs without a fault -/

/-- The tokens in scope can be counted with signed integers of 64 bits. -/
def Countable (context : Context) : Prop :=
  ∀ tokens, context.tokens = some tokens → tokens.length < 0x8000000000000000

/-- The machine does not stop, and it comes to the expected result if that can be counted. -/
def Runs {α : Type} (countable : Prop) (m : Machine α) (x : Except EvalError α) : Prop :=
  ∃ r, m.run = .ok r ∧ (countable → r = x)

namespace Runs
variable {α β : Type} {countable : Prop}

theorem lift (x : Except EvalError α) : Runs countable (Machine.lift x) x := ⟨x, rfl, fun _ => rfl⟩

theorem pure (a : α) : Runs countable (Pure.pure a) (.ok a) := ⟨.ok a, rfl, fun _ => rfl⟩

theorem bind {m : Machine α} {x : Except EvalError α} {f : α → Machine β}
    {g : α → Except EvalError β} (h : Runs countable m x) (hNext : ∀ a, Runs countable (f a) (g a)) :
    Runs countable (m >>= f) (x >>= g) := by
  obtain ⟨r, hRun, hSame⟩ := h
  cases r with
  | error e =>
    refine ⟨.error e, ?_, fun hCountable => ?_⟩
    · rw [ExceptT.run_bind, hRun]
      rfl
    · rw [← hSame hCountable]
      rfl
  | ok a =>
    obtain ⟨s, hNextRun, hNextSame⟩ := hNext a
    refine ⟨s, ?_, fun hCountable => ?_⟩
    · rw [ExceptT.run_bind, hRun]
      exact hNextRun
    · rw [← hSame hCountable, hNextSame hCountable]
      rfl

end Runs

theorem signed_eq {n : Nat} (h : n < 0x8000000000000000) : signed n = n := by
  unfold signed
  apply Int.bmod_eq_of_le
  · simp
  · simp
    omega

theorem runs_integers {countable : Prop} {op : Operator} {result : Int → Int → Except EvalError Int}
    (h : ∀ l r, Runs countable (arithmetic op l r) (result l r)) (lhs rhs : Value) :
    Runs countable (do
      let l ← lift lhs.integer
      let r ← lift rhs.integer
      return .int (← arithmetic op l r)) (BinaryOp.arithmetic result lhs rhs) :=
  (Runs.lift _).bind fun _ => (Runs.lift _).bind fun _ => (h _ _).bind fun _ => .pure _

theorem runs_div {countable : Prop} (l r : Int) :
    Runs countable (arithmetic (.strict .div) l r) (BinaryOp.quotient l r) := by
  rw [arithmetic, BinaryOp.quotient]
  split
  · exact .lift _
  · exact .lift _

theorem runs_rem {countable : Prop} (l r : Int) :
    Runs countable (arithmetic (.strict .rem) l r) (BinaryOp.remainder l r) := by
  rw [arithmetic, BinaryOp.remainder, BinaryOp.quotient]
  split
  · exact .lift _
  · exact (Runs.lift _).bind fun _ => .lift _

/-- Of an operator that evaluates both of its operands there is an arm. -/
theorem runs_binary {countable : Prop} (op : BinaryOp) (lhs rhs : Value) :
    Runs countable (binary lhs (.strict op) rhs) (op.apply lhs rhs) := by
  cases op with
  | eq | ne => exact .pure _
  | lt | le | gt | ge => exact .lift _
  | add =>
    have hAdd := @runs_integers countable (.strict .add) (fun l r => checked (l + r)) fun l r =>
      .lift (checked (l + r))
    cases lhs <;> cases rhs <;> first | exact hAdd _ _ | exact .pure _
  | sub => exact runs_integers (fun _ _ => .lift _) _ _
  | mul => exact runs_integers (fun _ _ => .lift _) _ _
  | div => exact runs_integers runs_div _ _
  | rem => exact runs_integers runs_rem _ _

/-! ## Functions -/

theorem apply_of_arity_ne {context : Context} {f : Builtin} {args : List Value}
    (h : args.length ≠ f.arity) :
    f.apply context args = .error (.arity f.name f.arity args.length) := by
  unfold Builtin.apply
  split <;> first | exact absurd rfl h | rfl

theorem scope_eq_ok_iff {context : Context} {f : Builtin} {tokens : TokenBag} :
    f.scope context = .ok tokens ↔ context.tokens = some tokens := by
  rw [Builtin.scope]
  split <;> simp_all

/-- A number of tokens of the place is what it is cut off to. -/
theorem runs_tally {context : Context} {f : Builtin} {tally : TokenBag → Nat}
    (hLe : ∀ tokens, tally tokens ≤ tokens.length) :
    Runs (Countable context) (do return Value.int (signed (tally (← lift (f.scope context)))))
      (do return Value.int (tally (← f.scope context))) := by
  cases hScope : f.scope context with
  | error e => exact .lift _
  | ok tokens =>
    refine ⟨.ok (Value.int (signed (tally tokens))), rfl, fun hCountable => ?_⟩
    have hLength := hCountable tokens (scope_eq_ok_iff.mp hScope)
    rw [signed_eq (Nat.lt_of_le_of_lt (hLe tokens) hLength)]
    rfl

theorem runs_replicate {countable : Prop} {context : Context} (v n : Value) :
    Runs countable (call context .replicate [v, n]) (Builtin.replicate.apply context [v, n]) := by
  refine (Runs.lift n.integer).bind fun requested => ?_
  rw [Builtin.replicateValue]
  split
  · exact .pure _
  · exact .lift _

/-- Where arguments are looked up, there are as many as the function takes. -/
theorem runs_call (context : Context) (f : Builtin) (args : List Value) :
    Runs (Countable context) (call context f args) (f.apply context args) := by
  by_cases hArity : args.length = f.arity
  · have hChecked : checkArity f args = pure () := if_pos hArity
    rw [call, hChecked, pure_bind]
    cases f with
    | clock =>
      cases List.length_eq_zero_iff.mp hArity
      exact (Runs.lift _).bind fun _ => .pure _
    | transition =>
      cases List.length_eq_zero_iff.mp hArity
      exact .pure _
    | replicate =>
      obtain ⟨v, n, rfl⟩ := List.length_eq_two.mp hArity
      exact runs_replicate v n
    | size =>
      cases List.length_eq_zero_iff.mp hArity
      exact runs_tally fun _ => Nat.le_refl _
    | available =>
      cases List.length_eq_zero_iff.mp hArity
      exact runs_tally fun _ => List.countP_le_length
    | first =>
      cases List.length_eq_zero_iff.mp hArity
      exact (Runs.lift _).bind fun _ => .lift _
    | contains =>
      obtain ⟨v, rfl⟩ := List.length_eq_one_iff.mp hArity
      exact (Runs.lift _).bind fun _ => .pure _
    | count =>
      obtain ⟨v, rfl⟩ := List.length_eq_one_iff.mp hArity
      exact runs_tally fun _ => List.countP_le_length
    | sum =>
      cases List.length_eq_zero_iff.mp hArity
      exact (Runs.lift _).bind fun _ => (Runs.lift _).bind fun _ => .pure _
  · have hRefused : checkArity f args = lift (.error (.arity f.name f.arity args.length)) :=
      if_neg hArity
    rw [call, hRefused, apply_of_arity_ne hArity]
    exact .lift _

/-! ## Expressions -/

mutual

theorem runs_eval (context : Context) :
    ∀ e : Expr, Runs (Countable context) (eval context e) (e.eval context)
  | .literal v => .pure v
  | .tuple items => (runs_evalItems context items).bind fun _ => .pure _
  | .list items => (runs_evalItems context items).bind fun _ => .pure _
  | .unary op operand => (runs_eval context operand).bind fun _ => .lift _
  | .binary .and lhs rhs =>
    (runs_eval context lhs).bind fun _ => (Runs.lift _).bind fun l => by
      cases l with
      | true =>
        exact (runs_eval context rhs).bind fun _ => (Runs.lift _).bind fun _ => .pure _
      | false => exact .pure _
  | .binary .or lhs rhs =>
    (runs_eval context lhs).bind fun _ => (Runs.lift _).bind fun l => by
      cases l with
      | true => exact .pure _
      | false =>
        exact (runs_eval context rhs).bind fun _ => (Runs.lift _).bind fun _ => .pure _
  | .binary (.strict op) lhs rhs =>
    (runs_eval context lhs).bind fun _ => (runs_eval context rhs).bind fun _ => runs_binary op _ _
  | .call function args =>
    (runs_evalItems context args).bind fun values => by
      cases Builtin.ofName function with
      | some f => exact runs_call context f values
      | none => exact .lift _

theorem runs_evalItems (context : Context) :
    ∀ es : List Expr, Runs (Countable context) (evalItems context es) (Expr.evalItems context es)
  | [] => .pure []
  | e :: es =>
    (runs_eval context e).bind fun _ => (runs_evalItems context es).bind fun _ => .pure _

end

end Machine
end Petri
