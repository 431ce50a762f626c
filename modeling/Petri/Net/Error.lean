import Petri.Evaluator
import Petri.Net.Element

/-! # Errors of building and running a net -/
namespace Petri
set_option autoImplicit false

inductive ConstructionError where
  | duplicateId (id : String)
  | unknownElement (id : String)
  | wrongKind (id : String) (expected : ElementKind)
  deriving DecidableEq

def ConstructionError.message : ConstructionError → String
  | .duplicateId id => "element `" ++ id ++ "` is defined more than once"
  | .unknownElement id => "unknown element `" ++ id ++ "`"
  | .wrongKind id expected => "`" ++ id ++ "` is not a " ++ expected.name

inductive Phase where
  | evaluating | consuming | producing
  deriving DecidableEq

def Phase.name : Phase → String
  | .evaluating => "evaluating"
  | .consuming => "consuming"
  | .producing => "producing"

inductive RunError where
  /-- There is no arc when the guard failed. -/
  | evaluation (transition : String) (arc : Option String) (phase : Phase) (cause : EvalError)
  | unsupported (arc operation : String)
  | insufficientTokens (transition place : String) (requested : Nat) (clock : Time)
  | capacityExceeded (transition place : String) (capacity : Nat)
  | timeOverflow (transition arc : String)
  | unknownTransition (transition : String)
  deriving DecidableEq

namespace RunError

def message : RunError → String
  | evaluation transition arc phase cause =>
    let place := match arc with
      | some arc => " (arc `" ++ arc ++ "`)"
      | none => ""
    phase.name ++ " transition `" ++ transition ++ "`" ++ place ++ ": " ++ cause.message
  | unsupported arc operation => operation ++ " is not supported by `" ++ arc ++ "`"
  | insufficientTokens transition place requested clock =>
    "place `" ++ place ++ s!"` cannot supply {requested} token(s) to transition `" ++ transition ++
      s!"` at clock {clock}"
  | capacityExceeded transition place capacity =>
    "firing `" ++ transition ++ s!"` would exceed the capacity {capacity} of place `" ++ place ++ "`"
  | timeOverflow transition arc =>
    "token delay on `" ++ arc ++ "` overflows the clock when firing `" ++ transition ++ "`"
  | unknownTransition transition => "unknown transition `" ++ transition ++ "`"

def transition? : RunError → Option String
  | evaluation transition .. => some transition
  | unsupported .. => none
  | insufficientTokens transition .. => some transition
  | capacityExceeded transition .. => some transition
  | timeOverflow transition _ => some transition
  | unknownTransition transition => some transition

end RunError

/-- The predicate of an arc; output arcs have none. -/
def Arc.evaluate : Arc → Except RunError String
  | .input a => .ok a.evaluate
  | .output a => .error (.unsupported a.id "evaluate")

end Petri
