import Petri.Text.Lexeme
import Petri.TokenBag

/-! # Evaluators

The net engine never reads the text of a guard or an inscription. It asks an evaluator, which may be
any pure function, keep a cache, or note down what it is asked.
-/
namespace Petri
open Text
set_option autoImplicit false

inductive EvalError where
  /-- The text is no expression, or no inscription. -/
  | malformed (text : String) (reason : SyntaxError)
  | typeMismatch (expected found : Value.Kind)
  | divisionByZero
  | overflow
  | unknownFunction (name : String)
  | arity (function : String) (expected found : Nat)
  /-- A function of the place's tokens where no place is in scope. -/
  | noPlace (function : String)
  /-- A function of an available token where none is available. -/
  | emptyPlace (function : String)
  | negativeDelay (delay : Int)
  | listTooLong (requested : Int) (limit : Nat)
  deriving DecidableEq

def EvalError.message : EvalError → String
  | .malformed text reason => "cannot parse `" ++ text ++ "`: " ++ reason.message
  | .typeMismatch expected found => s!"expected {expected.name}, found {found.name}"
  | .divisionByZero => "division by zero"
  | .overflow => "integer overflow"
  | .unknownFunction name => "unknown function `" ++ name ++ "`"
  | .arity function expected found =>
    "`" ++ function ++ s!"` takes {expected} argument(s), {found} given"
  | .noPlace function => "`" ++ function ++ "()` needs a place in scope"
  | .emptyPlace function => "`" ++ function ++ "()` on a place without available tokens"
  | .negativeDelay delay => s!"negative delay {delay}"
  | .listTooLong requested limit =>
    s!"list of {requested} elements exceeds the limit of {limit}"

/-- What a text is evaluated in. Guards have no place, and so no tokens in scope. -/
structure Context where
  clock : Time
  transition : String
  tokens : Option TokenBag := none
  deriving DecidableEq

structure Evaluator (m : Type → Type) where
  evaluate : String → Context → m (Except EvalError Bool)
  /-- The tokens that an inscription denotes. -/
  execute : String → Context → m (Except EvalError TokenBag)

inductive Query where
  | evaluate (text : String) (context : Context)
  | execute (text : String) (context : Context)
  deriving DecidableEq

namespace Evaluator
variable {m : Type → Type} [Monad m]

/-- Notes down each question, latest last, and passes it on. -/
def recording (ev : Evaluator m) : Evaluator (StateT (List Query) m) where
  evaluate text context := do
    modify (· ++ [.evaluate text context])
    ev.evaluate text context
  execute text context := do
    modify (· ++ [.execute text context])
    ev.execute text context

end Evaluator
end Petri
