import Petri.Cli.Inspect
import Petri.Cli.Simulate

/-! # Commands

The first word of a command line names the command.
-/
namespace Petri.Cli
set_option autoImplicit false

def commandNames : List String := ["simulate", "inspect", "help"]

def helpError : List String → UsageError
  | [] => .helpRequested
  | [name] => if commandNames.contains name then .helpRequested else .unknownCommand
  | _ => .unknownCommand

/-- The error of a word where a command should be; `behindDashes` tells whether `--` stands before
it. -/
def commandError (behindDashes : Bool) (word : String) : UsageError :=
  match behindDashes, word.toList with
  | true, _ => if commandNames.contains word then .unknownArgument else .unknownCommand
  | false, '-' :: '-' :: cs =>
    match splitLong cs with
    | ("help", none) => .helpRequested
    | ("help", some _) => .unexpectedValue
    | _ => .unknownArgument
  | false, '-' :: c :: _ => if c = 'h' then .helpRequested else .unknownArgument
  | false, _ => .unknownCommand

def program : List String → Except UsageError Program
  | [] => .error .nothingGiven
  | ["--"] => .error .nothingGiven
  | "--" :: word :: _ => .error (commandError true word)
  | "simulate" :: words => do return simulate (← SimulateArgs.ofWords words)
  | "inspect" :: words => do return inspect (← InspectArgs.ofWords words)
  | "help" :: words => .error (helpError words)
  | word :: _ => .error (commandError false word)

end Petri.Cli
