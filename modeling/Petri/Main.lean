import Petri.Cli.Commands

/-! # The command line -/
namespace Petri.Cli
set_option autoImplicit false

def UsageError.text : UsageError → String
  | nothingGiven => "a command is needed"
  | helpRequested => "help"
  | unknownCommand => "there is no such command"
  | missingInput => "a net file is needed"
  | unknownArgument => "unexpected argument"
  | badNumber => "invalid number"
  | missingValue => "a value is needed"
  | repeated => "an option is given twice"
  | unexpectedValue => "an option takes no value"

def usage : String :=
  "Usage:\n" ++
  "  simulate FILE [--timed] [--seed N] [--max-firings N] [--step] [--delay MS] [--log FILE]\n" ++
  "           [--vcd FILE] [-o, --output FILE] [--runs N] [-q, --quiet]\n" ++
  "  inspect FILE [--dot FILE] [-o, --output FILE]\n"

/-- What an error of the system says about a path; its code may be negated. -/
def pathError? : IO.Error → Option PathError
  | .noFileOrDirectory .. => some .missing
  | .inappropriateType _ code _ =>
    some (if code = 21 ∨ code = 0 - 21 then .isDirectory else .notDirectory)
  | .invalidArgument _ code _ => if code = 36 ∨ code = 0 - 36 then some .nameTooLong else none
  | _ => none

/-- Runs an action on a file; a path that leads nowhere is an error of the command. -/
def onFile {α : Type} (action : IO α) : IO (Except CommandError α) := do
  match ← action.toBaseIO with
  | .ok a => return .ok a
  | .error e =>
    match pathError? e with
    | some cause => return .error (.path cause)
    | none => throw e

def execute : Program → IO (Except CommandError Unit)
  | .done result => return result
  | .print text rest => do
    IO.print text
    (← IO.getStdout).flush
    execute (rest ())
  | .load path rest => do
    match ← onFile (IO.FS.readFile path) with
    | .ok text => execute (rest text)
    | .error e => return .error e
  | .save path text rest => do
    match ← onFile (IO.FS.writeFile path text) with
    | .ok () => execute (rest ())
    | .error e => return .error e
  | .append path text rest => do
    let write : IO Unit := IO.FS.withFile path .append fun handle => handle.putStr text
    match ← onFile write with
    | .ok () => execute (rest ())
    | .error e => return .error e
  | .ask rest => do
    IO.eprint "[enter] next, [c]ontinue, [q]uit > "
    let line ← (← IO.getStdin).getLine
    execute (rest (if line.isEmpty then none else some line))

def report (e : CommandError) : IO Unit := do
  IO.eprintln ("Error: " ++ e.message)
  if let some cause := e.cause? then IO.eprintln ("Caused by: " ++ cause)

end Petri.Cli

open Petri.Cli in
def main (args : List String) : IO UInt32 := do
  match program args with
  | .error .helpRequested =>
    IO.print usage
    return 0
  | .error e =>
    IO.eprintln ("error: " ++ e.text)
    IO.eprint usage
    return 2
  | .ok p =>
    match ← execute p with
    | .ok () => return 0
    | .error e =>
      report e
      return 1
