import Petri.Simulation.Event

/-! # Firing logs

What people read while a simulation runs: the firings under rules, each with the tokens it took and
made, the moves of the clock, and how it ended.
-/
namespace Petri.FiringLog
set_option autoImplicit false

def rule : String := "----------\n"

def firingOf : Event → Option Nat
  | .consumed firing .. => some firing
  | .fired firing .. => some firing
  | .produced firing .. => some firing
  | .clockAdvanced .. => none
  | .finished .. => none

def tokensText (tokens : List String) : String := String.intercalate ", " tokens

/-- The text of an event without the rule above it. -/
def entry : Event → String
  | .consumed _ _ _ transfer => "- " ++ tokensText transfer.tokens ++ " from " ++ transfer.place ++ "\n"
  | .fired _ clock transition label =>
    let time := if clock = 0 then "" else s!"[{clock}] "
    if label = transition then time ++ transition ++ " fired.\n"
    else time ++ label ++ " (" ++ transition ++ ") fired!\n"
  | .produced _ _ _ transfer => "+ " ++ tokensText transfer.tokens ++ " into " ++ transfer.place ++ "\n"
  | .clockAdvanced start stop => s!"Clock advanced from {start} to {stop}\n"
  | .finished _ _ outcome => rule ++ outcome.message ++ "\n"

/-- The text of some events when the last firing written before them had the number `last`; a rule
stands above the first event of each other firing. -/
def printAfter : Option Nat → List Event → String
  | _, [] => ""
  | last, e :: es =>
    match firingOf e with
    | none => entry e ++ printAfter last es
    | some firing =>
      (if last = some firing then "" else rule) ++ entry e ++ printAfter (some firing) es

def lastFiring (last : Option Nat) (events : List Event) : Option Nat :=
  (events.filterMap firingOf).getLast?.or last

def print (events : List Event) : String := printAfter none events

end Petri.FiringLog
