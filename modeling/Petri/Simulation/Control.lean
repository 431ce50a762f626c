/-! # Control of a run

A run and its callers share a control. Pausing acts on a running run only and resuming on a paused
one only, so a resume that comes too early is not kept for later. Stopping is final.
-/
namespace Petri
set_option autoImplicit false

inductive RunState where
  | running | paused | stopped
  deriving DecidableEq

structure Control where
  state : RunState := .running
  /-- Whether the run pauses itself after every firing. -/
  step : Bool := false
  deriving DecidableEq

inductive Command where
  | pause | resume | stop
  | setStep (on : Bool)
  deriving DecidableEq

namespace Control

def apply (control : Control) : Command → Control
  | .pause => if control.state = .running then { control with state := .paused } else control
  | .resume => if control.state = .paused then { control with state := .running } else control
  | .stop => { control with state := .stopped }
  | .setStep on => { control with step := on }

def applyAll (control : Control) (commands : List Command) : Control :=
  commands.foldl apply control

/-- What happens when a run enters its checkpoint after a firing. -/
def enterCheckpoint (control : Control) : Control :=
  if control.step then control.apply .pause else control

/-- Whether a run at its checkpoint waits out the delay between firings. -/
def delays (control : Control) (delay : Nat) : Bool :=
  !control.step && decide (delay ≠ 0) && control.state == .running

end Control
end Petri
