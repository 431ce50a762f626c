import Petri.Evaluator
import Petri.Expr.Syntax

/-! # The value of an expression

Operands and arguments are evaluated from left to right, and `&&` and `||` leave out an operand that
cannot matter. Integers have 64 bits; an operation whose result needs more is an overflow.
-/
namespace Petri
set_option autoImplicit false

namespace Value

def truth : Value → Except EvalError Bool
  | bool b => .ok b
  | v => .error (.typeMismatch .bool v.kind)

def integer : Value → Except EvalError Int
  | int n => .ok n
  | v => .error (.typeMismatch .int v.kind)

end Value

def InRange (n : Int) : Prop := -0x8000000000000000 ≤ n ∧ n < 0x8000000000000000

instance (n : Int) : Decidable (InRange n) := inferInstanceAs (Decidable (_ ∧ _))

def checked (n : Int) : Except EvalError Int :=
  if InRange n then .ok n else .error .overflow

def UnaryOp.apply (op : UnaryOp) (v : Value) : Except EvalError Value :=
  match op with
  | .not => do return .bool (!(← v.truth))
  | .neg => do return .int (← checked (-(← v.integer)))

namespace BinaryOp

/-- Only values of one type are compared. -/
def compare (holds : Ordering → Bool) (lhs rhs : Value) : Except EvalError Value :=
  if lhs.kind = rhs.kind then .ok (.bool (holds (lhs.order rhs)))
  else .error (.typeMismatch lhs.kind rhs.kind)

def arithmetic (result : Int → Int → Except EvalError Int) (lhs rhs : Value) :
    Except EvalError Value := do
  let l ← lhs.integer
  let r ← rhs.integer
  return .int (← result l r)

/-- The quotient is cut off towards zero. -/
def quotient (l r : Int) : Except EvalError Int :=
  if r = 0 then .error .divisionByZero else checked (l.tdiv r)

/-- The remainder belongs to the quotient and exists only beside it. -/
def remainder (l r : Int) : Except EvalError Int := do
  let _ ← quotient l r
  checked (l.tmod r)

def apply (op : BinaryOp) (lhs rhs : Value) : Except EvalError Value :=
  match op with
  | .eq => .ok (.bool (lhs == rhs))
  | .ne => .ok (.bool (lhs != rhs))
  | .lt => compare (·.isLT) lhs rhs
  | .le => compare (·.isLE) lhs rhs
  | .gt => compare (·.isGT) lhs rhs
  | .ge => compare (·.isGE) lhs rhs
  | .add =>
    match lhs, rhs with
    | .str l, .str r => .ok (.str (l ++ r))
    | lhs, rhs => arithmetic (fun l r => checked (l + r)) lhs rhs
  | .sub => arithmetic (fun l r => checked (l - r)) lhs rhs
  | .mul => arithmetic (fun l r => checked (l * r)) lhs rhs
  | .div => arithmetic quotient lhs rhs
  | .rem => arithmetic remainder lhs rhs

end BinaryOp

inductive Builtin where
  | clock | transition | replicate
  | size | available | first | contains | count | sum
  deriving DecidableEq

namespace Builtin

def all : List Builtin :=
  [clock, transition, replicate, size, available, first, contains, count, sum]

def name : Builtin → String
  | clock => "clock"
  | transition => "transition"
  | replicate => "repeat"
  | size => "size"
  | available => "available"
  | first => "first"
  | contains => "contains"
  | count => "count"
  | sum => "sum"

def arity : Builtin → Nat
  | contains | count => 1
  | replicate => 2
  | _ => 0

def ofName (name : String) : Option Builtin :=
  all.find? fun f => f.name == name

def replicateLimit : Nat := 0x10000

def scope (f : Builtin) (context : Context) : Except EvalError TokenBag :=
  match context.tokens with
  | some tokens => .ok tokens
  | none => .error (.noPlace f.name)

def replicateValue (v : Value) (requested : Int) : Except EvalError Value :=
  if 0 ≤ requested ∧ requested ≤ replicateLimit then
    .ok (.list (List.replicate requested.toNat v))
  else .error (.listTooLong requested replicateLimit)

/-- Adds from the first token on and checks every partial sum. -/
def total (tokens : TokenBag) : Except EvalError Int :=
  tokens.foldlM (fun sum t => do checked (sum + (← t.value.integer))) 0

def firstAvailable (context : Context) (tokens : TokenBag) : Except EvalError Value :=
  match tokens.find? (Token.available context.clock) with
  | some t => .ok t.value
  | none => .error (.emptyPlace first.name)

def apply (context : Context) : Builtin → List Value → Except EvalError Value
  | clock, [] => do return .int (← checked context.clock)
  | transition, [] => .ok (.str context.transition)
  | replicate, [v, n] => do replicateValue v (← n.integer)
  | size, [] => do return .int (← size.scope context).length
  | available, [] => do
    return .int (TokenBag.available context.clock (← available.scope context))
  | first, [] => do firstAvailable context (← first.scope context)
  | contains, [v] => do return .bool ((← contains.scope context).any fun t => t.value == v)
  | count, [v] => do return .int ((← count.scope context).countP fun t => t.value == v)
  | sum, [] => do return .int (← total (← sum.scope context))
  | f, args => .error (.arity f.name f.arity args.length)

end Builtin

namespace Expr

mutual

def eval (context : Context) : Expr → Except EvalError Value
  | literal v => .ok v
  | tuple items => do return .tuple (← evalItems context items)
  | list items => do return .list (← evalItems context items)
  | unary op operand => do op.apply (← eval context operand)
  | binary .and lhs rhs => do
    match ← (← eval context lhs).truth with
    | true => return .bool (← (← eval context rhs).truth)
    | false => return .bool false
  | binary .or lhs rhs => do
    match ← (← eval context lhs).truth with
    | true => return .bool true
    | false => return .bool (← (← eval context rhs).truth)
  | binary (.strict op) lhs rhs => do
    let l ← eval context lhs
    let r ← eval context rhs
    op.apply l r
  | call function args => do
    let values ← evalItems context args
    match Builtin.ofName function with
    | some f => f.apply context values
    | none => .error (.unknownFunction function)

def evalItems (context : Context) : List Expr → Except EvalError (List Value)
  | [] => .ok []
  | e :: es => do
    let v ← eval context e
    let vs ← evalItems context es
    return v :: vs

end

end Expr
end Petri
