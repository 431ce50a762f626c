import Petri.Proofs.Simulation.EventStream
import Petri.Proofs.Simulation.Stopping

/-! # Sessions

A session is a simulation with the control that its runs are given. Calls follow one another, and each
comes back with its answer and the session as it is then.
-/
namespace Petri
set_option autoImplicit false

/-- A call of a simulation, or a use of the control that its runs are given. -/
inductive Session.Call where
  | randomTransition
  | advanceClock
  | isFinished
  | fireRandom
  | step
  /-- A run may be left before it has ended. -/
  | run (moves : List Move)
  | command (c : Command)
  /-- From here on runs are given another control. -/
  | exchange (control : Control)

structure Session where
  simulation : Simulation
  control : Control

namespace Session
open Simulation

def answered (σ : Session) (result : Simulation.Answer × Simulation) :
    Option Simulation.Answer × Session :=
  (some result.1, { σ with simulation := result.2 })

/-- Only calls of the simulation are answered, a run not before it has ended. -/
def perform (ev : Evaluator Id) (σ : Session) : Call → Option Simulation.Answer × Session
  | .randomTransition => σ.answered ((σ.simulation.randomTransition ev).map .drawn id)
  | .advanceClock => σ.answered (σ.simulation.advanceClock.map .moved id)
  | .isFinished => σ.answered ((σ.simulation.isFinished ev).map .checked id)
  | .fireRandom => σ.answered ((σ.simulation.fireRandom ev).map .fired id)
  | .step => σ.answered ((σ.simulation.step ev).map .fired id)
  | .run moves =>
    let r := (Run.start σ.simulation σ.control).play ev moves
    (r.result?.map .ran, ⟨r.simulation, r.control⟩)
  | .command c => (none, { σ with control := σ.control.apply c })
  | .exchange control => (none, { σ with control := control })

def performs (ev : Evaluator Id) : List Call → Session → List (Option Simulation.Answer) × Session
  | [], σ => ([], σ)
  | call :: rest, σ =>
    let (answer, σ) := σ.perform ev call
    let (answers, σ) := performs ev rest σ
    (answer :: answers, σ)

end Session
end Petri
