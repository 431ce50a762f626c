import Petri.Random.Choice
import Petri.Simulation.History

/-! # Simulations

A simulation chooses one enabled transition after another at random and fires it. Without time all
firings happen at clock 0. With time the clock moves, when nothing is enabled, to the next time that
a token carries; if that enables nothing either, the net is dead.

Every operation gives back the simulation along with its result, also when the result is an error: a
clock that has moved stays moved.
-/
namespace Petri
set_option autoImplicit false

inductive TimeMode where
  | untimed | timed
  deriving DecidableEq

structure Config where
  mode : TimeMode := .untimed
  step : Bool := false
  delay : Nat := 0
  maxFirings : Option Nat := none
  deriving DecidableEq

structure Simulation where
  net : Net
  config : Config
  clock : Time := 0
  source : Random.Source
  firings : Nat := 0
  history : History := {}
  deriving DecidableEq

namespace Simulation

def start (net : Net) (config : Config) (seed : Nat) : Simulation :=
  { net := net, config := config, source := Random.Source.ofSeed seed }

def events (s : Simulation) : List Event := s.history.toList

def report (s : Simulation) (events : List Event) : Simulation :=
  { s with history := s.history.append events }

theorem events_report (s : Simulation) (events : List Event) :
    (s.report events).events = s.events ++ events := s.history.toList_append events

/-- The clock at which transitions are checked and fired. -/
def firingClock (s : Simulation) : Time :=
  match s.config.mode with
  | .untimed => 0
  | .timed => s.clock

variable (ev : Evaluator Id)

def enabledTransitions (s : Simulation) : Except RunError (List String) :=
  (s.net.enabledTransitions ev s.firingClock).run

def randomTransition (s : Simulation) : Except RunError (Option String) × Simulation :=
  match s.enabledTransitions ev with
  | .error e => (.error e, s)
  | .ok enabled =>
    let (chosen, source) := Random.choose enabled s.source
    (.ok chosen, { s with source := source })

/-- Moves the clock to the least time beyond it that a token carries. -/
def advanceClock (s : Simulation) : Option Time × Simulation :=
  match s.net.earliestPending s.clock with
  | none => (none, s)
  | some next => (some next, { s with clock := next }.report [.clockAdvanced s.clock next])

/-- Whether nothing is enabled and moving the clock once does not help. -/
def isFinished (s : Simulation) : Except RunError Bool × Simulation :=
  match s.enabledTransitions ev with
  | .error e => (.error e, s)
  | .ok (_ :: _) => (.ok false, s)
  | .ok [] =>
    match s.config.mode with
    | .untimed => (.ok true, s)
    | .timed =>
      match s.advanceClock with
      | (none, s) => (.ok true, s)
      | (some _, s) =>
        match s.enabledTransitions ev with
        | .error e => (.error e, s)
        | .ok enabled => (.ok enabled.isEmpty, s)

/-- Fires a transition at the clock of the simulation and reports it. -/
def fire (s : Simulation) (transition : String) : Except RunError Firing × Simulation :=
  match (s.net.fire ev transition s.firingClock).run with
  | .error e => (.error e, s)
  | .ok (firing, net) =>
    let number := s.firings + 1
    (.ok firing, { s with net := net, firings := number }.report (Event.ofFiring number firing))

def fireRandom (s : Simulation) : Except RunError (Option Firing) × Simulation :=
  match s.randomTransition ev with
  | (.error e, s) => (.error e, s)
  | (.ok none, s) => (.ok none, s)
  | (.ok (some transition), s) =>
    match s.fire ev transition with
    | (.error e, s) => (.error e, s)
    | (.ok firing, s) => (.ok (some firing), s)

/-- Moves on by one firing, the clock first if need be. -/
def step (s : Simulation) : Except RunError (Option Firing) × Simulation :=
  match s.isFinished ev with
  | (.error e, s) => (.error e, s)
  | (.ok true, s) => (.ok none, s)
  | (.ok false, s) => s.fireRandom ev

end Simulation
end Petri
