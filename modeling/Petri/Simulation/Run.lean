import Petri.Simulation.Basic
import Petri.Simulation.Control

/-! # Runs

A run drives a simulation until the net is dead, the run is stopped, or the firing limit is reached.
It is a machine of small steps: between two steps callers may use the control, and observers may use
it while they see an event.
-/
namespace Petri
set_option autoImplicit false

structure Report where
  outcome : Outcome
  firings : Nat
  clock : Time
  deriving DecidableEq

inductive Location where
  | start
  | top
  /-- Before it checks the firing limit and whether the simulation is finished. -/
  | check
  | fire
  | checkpoint
  | delay
  /-- At the end of the checkpoint, where it waits while it is paused. -/
  | parked
  | ended (result : Except RunError Report)

/-- What observers do to the control when they see an event. -/
abbrev Reaction := Event → List Command

/-- No observer uses the control. -/
def Reaction.none : Reaction := fun _ => []

/-- An observer that stops the run when it sees firing number `n`. -/
def Reaction.stopAt (n : Nat) : Reaction
  | .fired number .. => if number = n then [.stop] else []
  | _ => []

structure Run where
  simulation : Simulation
  control : Control
  location : Location

namespace Run

def start (simulation : Simulation) (control : Control) : Run :=
  ⟨simulation, control, .start⟩

/-- A run of its own, as it is when it is put on a thread: its control knows from the beginning
whether the run steps. -/
def spawn (simulation : Simulation) : Run :=
  start simulation (({} : Control).apply (.setStep simulation.config.step))

def result? (r : Run) : Option (Except RunError Report) :=
  match r.location with
  | .ended result => some result
  | _ => none

def waiting (r : Run) : Bool :=
  match r.location with
  | .ended _ => true
  | .parked => r.control.state == .paused
  | _ => false

def command (r : Run) (c : Command) : Run := { r with control := r.control.apply c }

variable (react : Reaction)

/-- Goes on with a simulation that may have reported more events. -/
def moveTo (r : Run) (simulation : Simulation) (location : Location) : Run where
  simulation := simulation
  control := ((simulation.history.since r.simulation.history.size).map react).foldl
    Control.applyAll r.control
  location := location

def finish (r : Run) (outcome : Outcome) : Run :=
  let s := r.simulation
  r.moveTo react (s.report [.finished s.clock s.firings outcome])
    (.ended (.ok ⟨outcome, s.firings, s.clock⟩))

def limitReached (r : Run) : Bool :=
  match r.simulation.config.maxFirings with
  | none => false
  | some limit => decide (limit ≤ r.simulation.firings)

variable (ev : Evaluator Id)

/-- One step of a run. A run that waits stays as it is. -/
def next (r : Run) : Run :=
  match r.location with
  | .start =>
    let r := if r.simulation.config.step then r.command (.setStep true) else r
    { r with location := .top }
  | .top =>
    if r.control.state = .stopped then r.finish react .stopped else { r with location := .check }
  | .check =>
    if r.limitReached then r.finish react .firingLimit
    else
      match r.simulation.isFinished ev with
      | (.error e, s) => r.moveTo react s (.ended (.error e))
      | (.ok true, s) => (r.moveTo react s .check).finish react .dead
      | (.ok false, s) => r.moveTo react s .fire
  | .fire =>
    match r.simulation.fireRandom ev with
    | (.error e, s) => r.moveTo react s (.ended (.error e))
    | (.ok _, s) => r.moveTo react s .checkpoint
  | .checkpoint =>
    let control := r.control.enterCheckpoint
    { r with
      control := control
      location := if control.delays r.simulation.config.delay then .delay else .parked }
  | .delay => { r with location := .parked }
  | .parked =>
    match r.control.state with
    | .running => { r with location := .top }
    | .paused => r
    | .stopped => r.finish react .stopped
  | .ended _ => r

/-- Steps until the run waits, at most as many as the fuel allows. -/
def proceed : Nat → Run → Run
  | 0, r => r
  | fuel + 1, r => if r.waiting then r else proceed fuel (r.next react ev)

/-- A run that does not wait within so many steps is given up. -/
def patience : Nat := 0x1000000000000000

def settle (r : Run) : Run := proceed react ev patience r

end Run
end Petri
