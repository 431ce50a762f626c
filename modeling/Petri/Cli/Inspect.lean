import Petri.Cli.Options
import Petri.Cli.Program
import Petri.Interpreter
import Petri.Net.Enabling
import Petri.NetFile.Printer
import Petri.Report.Digraph
import Petri.Report.Table

/-! # The command that shows a net

Prints tables of the places, transitions and arcs of a net, tells whether nothing is enabled in its
initial marking, and may write a drawing of the net and the net itself.
-/
namespace Petri.Cli
set_option autoImplicit false

structure InspectArgs where
  input : String
  dot : Option String
  output : Option String

namespace InspectArgs

def options : List OptionSpec :=
  [{ long := "dot", takes := .path },
   { long := "output", short := some 'o', takes := .path }]

def ofWords (words : List String) : Except UsageError InspectArgs := do
  let (input, given) ← readOptions options words
  return { input := input, dot := given.text? "dot", output := given.text? "output" }

end InspectArgs

namespace Inspect

def title (net : Net) : String :=
  match net.label with
  | some label => "Net " ++ net.id ++ " (" ++ label ++ ")\n"
  | none => "Net " ++ net.id ++ "\n"

def placesTable (net : Net) : Table where
  titles := ["Place", "Label", "Capacity", "Tokens"]
  rows := net.places.map fun p =>
    [.left p.id, .left p.shown, .right (if p.bounded then toString p.capacity else "-"),
     .left (TokenBag.display p.tokens)]

/-- Whether a transition is enabled in the initial marking, in words. -/
def enabledText (net : Net) (transition : String) : String :=
  match (net.enabled interpreter transition 0).run with
  | .ok true => "yes"
  | .ok false => "no"
  | .error e => "error: " ++ e.message

def transitionsTable (net : Net) : Table where
  titles := ["Transition", "Label", "Guard", "In", "Out", "Enabled"]
  rows := net.transitions.map fun t =>
    [.left t.id, .left t.shown, .left t.guard, .right (toString (net.inputsOf t.id).length),
     .right (toString (net.outputsOf t.id).length), .left (enabledText net t.id)]

def arcsTable (net : Net) : Table where
  titles := ["Arc", "From", "To", "Evaluate", "Execute"]
  rows :=
    net.inputArcs.map (fun a =>
      [.left a.id, .left a.place, .left a.transition, .left a.evaluate, .left a.execute]) ++
    net.outputArcs.map (fun a =>
      [.left a.id, .left a.transition, .left a.place, .left "", .left a.execute])

def tables (net : Net) : String :=
  title net ++ (placesTable net).print ++ (transitionsTable net).print ++ (arcsTable net).print

def write (args : InspectArgs) (net : Net) : Program :=
  Program.saveIfGiven args.dot (Digraph.print net) fun _ =>
  Program.saveIfGiven args.output (NetFile.print net) fun _ => .done (.ok ())

end Inspect

def inspect (args : InspectArgs) : Program :=
  .load args.input fun text =>
    match NetFile.parse interpreter text with
    | .error e => .done (.error (.file e))
    | .ok net =>
      .print (Inspect.tables net) fun _ =>
        match (net.isDead interpreter).run with
        | .error e => .done (.error (.run e))
        | .ok true => .print "No transition is enabled.\n" fun _ => Inspect.write args net
        | .ok false => Inspect.write args net

end Petri.Cli
