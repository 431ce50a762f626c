import Petri.Cli.FileTree
import Petri.Net.Error
import Petri.NetFile.Build

/-! # Programs

A command is a program that loads and saves files, prints, and asks for lines. What it does in the
world is left to who runs it; here it runs on a tree of files and lines that are given.
-/
namespace Petri.Cli
set_option autoImplicit false

inductive CommandError where
  | file (cause : NetFile.FileError)
  | run (cause : RunError)
  | noRuns
  /-- Batch runs do not go with options of a single run. -/
  | batchOutput
  | path (cause : PathError)
  deriving DecidableEq

namespace CommandError

def message : CommandError → String
  | file cause => cause.message
  | run cause => cause.message
  | noRuns => "At least one run must be requested."
  | batchOutput => "--runs cannot be combined with --step, --log, --vcd or --output."
  | path cause => cause.message

def cause? : CommandError → Option String
  | file (.construction cause) => some cause.message
  | file (.marking _ _ cause) => some cause.message
  | run (.evaluation _ _ _ cause) => some cause.message
  | _ => none

end CommandError

inductive Program where
  | done (result : Except CommandError Unit)
  | print (text : String) (rest : Unit → Program)
  | load (path : String) (rest : String → Program)
  | save (path text : String) (rest : Unit → Program)
  | append (path text : String) (rest : Unit → Program)
  /-- Asks for a line; there is none at the end of the input. -/
  | ask (rest : Option String → Program)

def Program.saveIfGiven (path : Option String) (text : String) (rest : Unit → Program) : Program :=
  match path with
  | some path => save path text rest
  | none => rest ()

structure World where
  tree : FileTree := {}
  lines : List String := []
  printed : String := ""

def Program.run : Program → World → World × Except CommandError Unit
  | done result, w => (w, result)
  | print text rest, w => (rest ()).run { w with printed := w.printed ++ text }
  | load path rest, w =>
    match w.tree.read path with
    | .error cause => (w, .error (.path cause))
    | .ok text => (rest text).run w
  | save path text rest, w =>
    match w.tree.write path text with
    | .error cause => (w, .error (.path cause))
    | .ok tree => (rest ()).run { w with tree := tree }
  | append path text rest, w =>
    match w.tree.append path text with
    | .error cause => (w, .error (.path cause))
    | .ok tree => (rest ()).run { w with tree := tree }
  | ask rest, w => (rest w.lines.head?).run { w with lines := w.lines.tail }

end Petri.Cli
