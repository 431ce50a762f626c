import Petri.Cli.Options
import Petri.Cli.Program
import Petri.Net.Interpreter
import Petri.NetFile.Printer
import Petri.Report.EventLog
import Petri.Report.FiringLog
import Petri.Report.Mean
import Petri.Report.Table
import Petri.Report.Waveform
import Petri.Simulation.Run
import Petri.Text.Classes

/-! # The command that runs a net

A single run prints its firings and its final marking, and may write an event log, a waveform and the
final net. With a number of runs it prints a summary of them instead.
-/
namespace Petri.Cli
open Text
set_option autoImplicit false

structure SimulateArgs where
  input : String
  config : Config
  seed : Option Nat
  log : Option String
  vcd : Option String
  output : Option String
  runs : Option Nat
  quiet : Bool

namespace SimulateArgs

def options : List OptionSpec :=
  [{ long := "timed" },
   { long := "seed", takes := .number },
   { long := "max-firings", takes := .number },
   { long := "step" },
   { long := "delay", takes := .number },
   { long := "log", takes := .path },
   { long := "vcd", takes := .path },
   { long := "output", short := some 'o', takes := .path },
   { long := "runs", takes := .number },
   { long := "quiet", short := some 'q' }]

def ofWords (words : List String) : Except UsageError SimulateArgs := do
  let (input, given) ← readOptions options words
  return {
    input := input
    config := {
      mode := if given.has "timed" then .timed else .untimed
      step := given.has "step"
      delay := (given.number? "delay").getD 0
      maxFirings := given.number? "max-firings" }
    seed := given.number? "seed"
    log := given.text? "log"
    vcd := given.text? "vcd"
    output := given.text? "output"
    runs := given.number? "runs"
    quiet := given.has "quiet" }

def single (args : SimulateArgs) : Bool :=
  args.config.step || args.log.isSome || args.vcd.isSome || args.output.isSome

end SimulateArgs

namespace Simulate

/-! ## A single run -/

def markingTable (net : Net) : Table where
  titles := ["Place", "Label", "Count", "Tokens"]
  rows := net.places.map fun p =>
    [.left p.id, .left p.shown, .right p.count, .left (TokenBag.display p.tokens)]

def markingText (net : Net) (report : Report) : String :=
  s!"{report.firings} firing(s), final clock {report.clock}: {report.outcome.message}\n" ++
    (markingTable net).print

/-- What follows a run that has ended. -/
def conclude (args : SimulateArgs) (start : Net) (simulation : Simulation) :
    Except RunError Report → Program
  | .error e => .done (.error (.run e))
  | .ok report =>
    Program.saveIfGiven args.vcd ((Waveform.ofNet start).record simulation.events).print fun _ =>
    Program.saveIfGiven args.output (NetFile.print simulation.net) fun _ =>
    if args.quiet then .done (.ok ())
    else .print (markingText simulation.net report) fun _ => .done (.ok ())

/-- Writes what a run has reported; `last` is the number of the firing written before. -/
def showEvents (args : SimulateArgs) (last : Option Nat) (fresh : List Event)
    (rest : Unit → Program) : Program :=
  if fresh.isEmpty then rest ()
  else
    let logged : Unit → Program := fun _ =>
      match args.log with
      | some path => .append path (EventLog.print fresh) rest
      | none => rest ()
    if args.quiet then logged ()
    else .print (FiringLog.printAfter last fresh) logged

/-- What a line means to a run that waits. The end of the input stops the run. -/
def commandsOf : Option String → List Command
  | none => [.stop]
  | some line =>
    let word := trimBlank line.toList
    if word = ['q'] then [.stop]
    else if word = ['c'] then [.setStep false, .resume]
    else [.resume]

/-- Goes on with a run step by step; where it waits, a line says how. -/
def drive (args : SimulateArgs) (ev : Evaluator Id) (start : Net) :
    Nat → Option Nat → Run → Program
  | 0, _, _ => .done (.ok ())
  | fuel + 1, last, r =>
    match r.result? with
    | some result => conclude args start r.simulation result
    | none =>
      if r.waiting then
        .ask fun line => drive args ev start fuel last ((commandsOf line).foldl Run.command r)
      else
        let after := r.next Reaction.none ev
        let fresh := after.simulation.history.since r.simulation.history.size
        showEvents args last fresh fun _ =>
          drive args ev start fuel (FiringLog.lastFiring last fresh) after

def singleRun (args : SimulateArgs) (net : Net) : Program :=
  let r := Run.spawn (Simulation.start net args.config (args.seed.getD 0))
  Program.saveIfGiven args.log "" fun _ => drive args net.interpreter net Run.patience none r

/-! ## A batch of runs -/

structure BatchRow where
  run : Nat
  seed : Option Nat
  report : Report

/-- The seeds of the runs follow each other and start again after the last of 64 bits. -/
def batchSeed (args : SimulateArgs) (run : Nat) : Option Nat :=
  args.seed.map fun seed => (seed + run) % 0x10000000000000000

/-- One run of a batch. A run that is given up counts as stopped. -/
def batchRun (args : SimulateArgs) (ev : Evaluator Id) (net : Net) (run : Nat) :
    Except RunError BatchRow :=
  let seed := batchSeed args run
  let r := (Run.start (Simulation.start net args.config (seed.getD run)) {}).settle Reaction.none ev
  match r.result? with
  | some (.ok report) => .ok ⟨run, seed, report⟩
  | some (.error e) => .error e
  | none => .ok ⟨run, seed, ⟨.stopped, r.simulation.firings, r.simulation.clock⟩⟩

def batchTable (rows : List BatchRow) : Table where
  titles := ["Run", "Seed", "Outcome", "Firings", "Clock"]
  rows := rows.map fun row =>
    [.left (toString row.run), .left ((row.seed.map toString).getD "-"),
     .left row.report.outcome.message, .right (toString row.report.firings),
     .right (toString row.report.clock)]

/-- How often each outcome came about, in the order of their messages. -/
def outcomeCounts (rows : List BatchRow) : String :=
  let counts := [Outcome.dead, .firingLimit, .stopped].filterMap fun outcome =>
    let n := rows.countP fun row => row.report.outcome == outcome
    if n = 0 then none else some (outcome.message ++ s!" x{n}")
  String.intercalate ", " counts

def batchText (rows : List BatchRow) : String :=
  (batchTable rows).print ++ "Mean firings: " ++
    Mean.print (rows.map fun row => row.report.firings) ++ "; " ++ outcomeCounts rows ++ "\n"

def batch (args : SimulateArgs) (net : Net) (runs : Nat) : Program :=
  match (List.range runs).mapM (batchRun args net.interpreter net) with
  | .error e => .done (.error (.run e))
  | .ok rows => .print (batchText rows) fun _ => .done (.ok ())

end Simulate

def simulate (args : SimulateArgs) : Program :=
  .load args.input fun text =>
    match NetFile.parse interpreter text with
    | .error e => .done (.error (.file e))
    | .ok net =>
      match args.runs with
      | none => Simulate.singleRun args net
      | some 0 => .done (.error .noRuns)
      | some (n + 1) =>
        if args.single then .done (.error .batchOutput) else Simulate.batch args net (n + 1)

end Petri.Cli
