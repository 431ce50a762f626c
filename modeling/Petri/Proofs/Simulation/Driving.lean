import Petri.Proofs.Simulation.Driver
import Petri.Simulation.Run

/-! # Runs among callers

A run takes steps of its own, and callers use its control in between. What one step can do is said
once, by the place in the loop where it is taken; what holds in every state that is reached follows
by induction. Callers reach the control only, and a control that is stopped stays so.
-/
namespace Petri
set_option autoImplicit false

namespace Control

theorem apply_of_stopped {control : Control} (h : control.state = .stopped) (c : Command) :
    (control.apply c).state = .stopped := by
  cases c <;> simp [apply, h]

theorem applyAll_of_stopped {control : Control} (h : control.state = .stopped)
    (commands : List Command) : (control.applyAll commands).state = .stopped := by
  induction commands generalizing control with
  | nil => exact h
  | cons c rest ih => exact ih (apply_of_stopped h c)

theorem foldl_applyAll_of_stopped {control : Control} (h : control.state = .stopped)
    (reactions : List (List Command)) : (reactions.foldl applyAll control).state = .stopped := by
  induction reactions generalizing control with
  | nil => exact h
  | cons commands rest ih => exact ih (applyAll_of_stopped h commands)

end Control

namespace Run
variable (react : Reaction) (ev : Evaluator Id)

section MoveTo
variable (r : Run) (s : Simulation) (location : Location) (outcome : Outcome)

@[simp] theorem moveTo_simulation : (r.moveTo react s location).simulation = s := rfl

@[simp] theorem moveTo_location : (r.moveTo react s location).location = location := rfl

@[simp] theorem finish_simulation : (r.finish react outcome).simulation =
    r.simulation.report [.finished r.simulation.clock r.simulation.firings outcome] := rfl

@[simp] theorem finish_location : (r.finish react outcome).location =
    .ended (.ok ⟨outcome, r.simulation.firings, r.simulation.clock⟩) := rfl

variable {r}

theorem command_stopped (h : r.control.state = .stopped) (c : Command) :
    (r.command c).control.state = .stopped :=
  Control.apply_of_stopped h c

theorem moveTo_stopped (h : r.control.state = .stopped) :
    (r.moveTo react s location).control.state = .stopped :=
  Control.foldl_applyAll_of_stopped h _

end MoveTo

/-- What a step of a run can do. -/
inductive Goes (r : Run) : Run → Prop where
  | begins (hAt : r.location = .start) (control : Control) :
      Goes r { r with control := control, location := .top }
  | halts (hAt : r.location = .top) (hStopped : r.control.state = .stopped) :
      Goes r (r.finish react .stopped)
  | enters (hAt : r.location = .top) (hGoes : r.control.state ≠ .stopped) :
      Goes r { r with location := .check }
  | limited (hAt : r.location = .check) (hLimit : r.limitReached = true) :
      Goes r (r.finish react .firingLimit)
  | checkFails {e : RunError} {s : Simulation} (hAt : r.location = .check)
      (hLimit : r.limitReached = false) (hCheck : r.simulation.isFinished ev = (.error e, s)) :
      Goes r (r.moveTo react s (.ended (.error e)))
  | dies {s : Simulation} (hAt : r.location = .check) (hLimit : r.limitReached = false)
      (hCheck : r.simulation.isFinished ev = (.ok true, s)) :
      Goes r ((r.moveTo react s .check).finish react .dead)
  | lives {s : Simulation} (hAt : r.location = .check) (hLimit : r.limitReached = false)
      (hCheck : r.simulation.isFinished ev = (.ok false, s)) : Goes r (r.moveTo react s .fire)
  | fireFails {e : RunError} {s : Simulation} (hAt : r.location = .fire)
      (hFire : r.simulation.fireRandom ev = (.error e, s)) :
      Goes r (r.moveTo react s (.ended (.error e)))
  | fires {answer : Option Firing} {s : Simulation} (hAt : r.location = .fire)
      (hFire : r.simulation.fireRandom ev = (.ok answer, s)) :
      Goes r (r.moveTo react s .checkpoint)
  | pauses {location : Location} (hAt : r.location = .checkpoint)
      (hTo : location = .delay ∨ location = .parked) :
      Goes r { r with control := r.control.enterCheckpoint, location := location }
  | parks (hAt : r.location = .delay) : Goes r { r with location := .parked }
  | resumes (hAt : r.location = .parked) (hRunning : r.control.state = .running) :
      Goes r { r with location := .top }
  | leaves (hAt : r.location = .parked) (hStopped : r.control.state = .stopped) :
      Goes r (r.finish react .stopped)

theorem goes {r : Run} (h : r.waiting = false) : Goes react ev r (r.next react ev) := by
  rw [next]
  cases hAt : r.location with
  | start =>
    dsimp only
    split
    · exact .begins hAt _
    · exact .begins hAt r.control
  | top =>
    dsimp only
    split
    · exact .halts hAt ‹_›
    · exact .enters hAt ‹_›
  | check =>
    dsimp only
    split
    · exact .limited hAt ‹_›
    · rename_i hLimit
      rw [Bool.not_eq_true] at hLimit
      split
      · exact .checkFails hAt hLimit ‹_›
      · exact .dies hAt hLimit ‹_›
      · exact .lives hAt hLimit ‹_›
  | fire =>
    dsimp only
    split
    · exact .fireFails hAt ‹_›
    · exact .fires hAt ‹_›
  | checkpoint =>
    refine .pauses hAt ?_
    split
    · exact .inl rfl
    · exact .inr rfl
  | delay => exact .parks hAt
  | parked =>
    dsimp only
    split
    · exact .resumes hAt ‹_›
    · rename_i hPaused
      simp [waiting, hAt, hPaused] at h
    · exact .leaves hAt ‹_›
  | ended result => simp [waiting, hAt] at h

/-- The states of a run among callers, with the number of steps that it has taken itself. -/
inductive Drives (r : Run) : Nat → Run → Prop where
  | start : Drives r 0 r
  | next {n : Nat} {r' : Run} (h : Drives r n r') (hGoes : r'.waiting = false) :
      Drives r (n + 1) (r'.next react ev)
  | command {n : Nat} {r' : Run} (h : Drives r n r') (c : Command) : Drives r n (r'.command c)

variable {react ev}

theorem next_of_waiting {r : Run} (react : Reaction) (h : r.waiting = true) : r.next react ev = r := by
  rw [waiting] at h
  rw [Run.next]
  split at h
  · rename_i hAt
    rw [hAt]
  · rename_i hAt
    have hPaused : r.control.state = .paused := by simpa using h
    rw [hAt, hPaused]
  · cases h

theorem next_of_fired {r : Run} {answer : Option Firing} {s : Simulation} (react : Reaction)
    (hAt : r.location = .fire) (hFire : r.simulation.fireRandom ev = (.ok answer, s)) :
    r.next react ev = r.moveTo react s .checkpoint := by
  rw [next, hAt]
  dsimp only
  rw [hFire]

theorem Goes.config {r after : Run} (h : Goes react ev r after) :
    after.simulation.config = r.simulation.config := by
  cases h with
  | checkFails _ _ hCheck => exact Simulation.config_of_isFinished hCheck
  | dies _ _ hCheck => exact (Simulation.config_of_isFinished hCheck :)
  | lives _ _ hCheck => exact Simulation.config_of_isFinished hCheck
  | fireFails _ hFire => exact Simulation.config_of_fireRandom hFire
  | fires _ hFire => exact Simulation.config_of_fireRandom hFire
  | _ => rfl

theorem Drives.config {r r' : Run} {n : Nat} (h : Drives react ev r n r') :
    r'.simulation.config = r.simulation.config := by
  induction h with
  | start => rfl
  | next _ hGoes ih => exact (goes react ev hGoes).config.trans ih
  | command _ _ ih => exact ih

theorem Drives.walk {r r' : Run} {m : Nat} (h : Drives react ev r m r') (n : Nat)
    (hGoes : ∀ k < n, ((Run.next react ev)^[k] r').waiting = false) :
    Drives react ev r (m + n) ((Run.next react ev)^[n] r') := by
  induction n with
  | zero => exact h
  | succ n ih =>
    rw [Function.iterate_succ_apply']
    exact .next (ih fun k hk => hGoes k (Nat.lt_succ_of_lt hk)) (hGoes n (Nat.lt_succ_self n))

theorem Drives.fires {r r' : Run} {n : Nat} {answer : Option Firing} {s : Simulation}
    (h : Drives react ev r n r') (hAt : r'.location = .fire)
    (hFire : r'.simulation.fireRandom ev = (.ok answer, s)) :
    Drives react ev r (n + 1) (r'.moveTo react s .checkpoint) := by
  rw [← next_of_fired react hAt hFire]
  exact h.next (by rw [waiting, hAt])

end Run

/-! ## A relay -/

/-- Enables a transition when its input places hold something, and makes tokens that come one time
unit later. -/
def unhurried : Evaluator Id where
  evaluate _ context := .ok (context.tokens != some [])
  execute _ _ := .ok [{ value := .int 1, time := 1 }]

/-- A transition hands a token on, first when the clock has come to it. -/
def relay : Net where
  id := "relay"
  nodes := [.place { id := "p", tokens := [{ value := .int 1, time := 5 }] }, .place { id := "q" },
    .transition { id := "t" }]
  arcs := [.input { id := "i", place := "p", transition := "t" },
    .output { id := "o", transition := "t", place := "q" }]

def relayStart : Simulation := Simulation.start relay { mode := .timed, maxFirings := some 3 } 7

/-- The relay when the clock has come to its token. -/
def relayDue : Simulation := relayStart.advancedTo 5

def relayFiring : Firing where
  transition := "t"
  label := "t"
  clock := 5
  consumed := [{ arc := "i", place := "p", inscription := "1",
                 tokens := [{ value := .int 1, time := 5 }], marking := 0 }]
  produced := [{ arc := "o", place := "q", inscription := "1",
                 tokens := [{ value := .int 1, time := 6 }], marking := 1 }]

/-- The relay after its one firing. -/
def relayDone : Simulation :=
  { relayDue with
    net := { relay with
      nodes := [.place { id := "p" }, .place { id := "q", tokens := [{ value := .int 1, time := 6 }] },
        .transition { id := "t", lastFired := 5 }] }
    source := (relayDue.source.drawIndex 0).2
    firings := 1 }.report (Event.ofFiring 1 relayFiring)

theorem relayDue_fireRandom :
    relayDue.fireRandom unhurried = (.ok (some relayFiring), relayDone) :=
  Simulation.fireRandom_of_singleton rfl rfl

theorem relayStart_step : relayStart.step unhurried = (.ok (some relayFiring), relayDone) :=
  relayDue_fireRandom

end Petri
