import Petri.Proofs.Simulation.Stopping

/-! # The step flag

Whether a run pauses itself after every firing is a flag of its control. Whoever has the control may
set it, and a run that is to step sets it as well when it begins; so a caller who turns stepping off
before the run has begun is overruled, and one who does so later is not.
-/
namespace Petri
set_option autoImplicit false

/-- Nobody sets the flag to the other value by this move. -/
def Move.KeepsStep (on : Bool) : Move → Prop
  | step react => ∀ e, Command.setStep (!on) ∉ react e
  | command c => c ≠ .setStep (!on)

namespace Control
variable {control : Control} {on : Bool}

theorem step_apply (h : control.step = on) {c : Command} (hc : c ≠ .setStep (!on)) :
    (control.apply c).step = on := by
  cases c with
  | pause | resume =>
    rw [apply]
    split <;> exact h
  | stop => exact h
  | setStep value =>
    by_contra hOther
    exact hc (congrArg Command.setStep (Bool.eq_not_of_ne hOther))

theorem step_applyAll (h : control.step = on) {commands : List Command}
    (hc : Command.setStep (!on) ∉ commands) : (control.applyAll commands).step = on := by
  induction commands generalizing control with
  | nil => exact h
  | cons c rest ih =>
    rw [List.mem_cons, not_or] at hc
    exact ih (step_apply h (Ne.symm hc.1)) hc.2

theorem step_foldl_applyAll (h : control.step = on) {reactions : List (List Command)}
    (hc : ∀ commands ∈ reactions, Command.setStep (!on) ∉ commands) :
    (reactions.foldl applyAll control).step = on := by
  induction reactions generalizing control with
  | nil => exact h
  | cons commands rest ih =>
    rw [List.forall_mem_cons] at hc
    exact ih (step_applyAll h hc.1) hc.2

theorem step_enterCheckpoint : control.enterCheckpoint.step = control.step := by
  rw [enterCheckpoint]
  split
  · exact step_apply rfl (by simp)
  · rfl

theorem enterCheckpoint_paused_iff (h : control.state = .running) :
    control.enterCheckpoint.state = .paused ↔ control.step = true := by
  cases hStep : control.step <;> simp [enterCheckpoint, apply, hStep, h]

end Control

namespace Run
variable {ev : Evaluator Id} {r : Run} {on : Bool}

theorem location_next_ne_start (react : Reaction) : (r.next react ev).location ≠ .start := by
  cases hWaiting : r.waiting with
  | true =>
    rw [next_of_waiting react hWaiting]
    intro hAt
    rw [waiting, hAt] at hWaiting
    cases hWaiting
  | false =>
    have hGoes := goes react ev hWaiting
    generalize r.next react ev = after at hGoes
    cases hGoes with
    | pauses _ hTo => rcases hTo with rfl | rfl <;> simp
    | _ => simp

theorem moveTo_step (h : r.control.step = on) {react : Reaction}
    (hReact : ∀ e, Command.setStep (!on) ∉ react e) (s : Simulation) (location : Location) :
    (r.moveTo react s location).control.step = on :=
  Control.step_foldl_applyAll h (List.forall_mem_map.mpr fun e _ => hReact e)

/-- A run that has begun leaves the flag to others. -/
theorem step_next (hAt : r.location ≠ .start) (h : r.control.step = on) {react : Reaction}
    (hReact : ∀ e, Command.setStep (!on) ∉ react e) : (r.next react ev).control.step = on := by
  cases hWaiting : r.waiting with
  | true => rwa [next_of_waiting react hWaiting]
  | false =>
    have hGoes := goes react ev hWaiting
    generalize r.next react ev = after at hGoes
    cases hGoes with
    | begins hStart => exact absurd hStart hAt
    | enters | parks | resumes => exact h
    | pauses => exact Control.step_enterCheckpoint.trans h
    | dies => exact moveTo_step (moveTo_step h hReact _ _) hReact _ _
    | _ => exact moveTo_step h hReact _ _

/-- What is settled about a run: it is to begin with the flag off and its configuration decides, or
it has begun with the flag as it is. -/
inductive Settled (on : Bool) (r : Run) : Prop where
  | ahead (hAt : r.location = .start) (hOff : r.control.step = false)
      (hConfig : r.simulation.config.step = on)
  | begun (hAt : r.location ≠ .start) (hFlag : r.control.step = on)

theorem Settled.move (h : Settled on r) {m : Move} (hm : ∀ value, m.KeepsStep value) :
    Settled on (r.move ev m) := by
  cases m with
  | command c =>
    cases h with
    | ahead hAt hOff hConfig => exact .ahead hAt (Control.step_apply hOff (hm _)) hConfig
    | begun hAt hFlag => exact .begun hAt (Control.step_apply hFlag (hm _))
  | step react =>
    refine .begun (location_next_ne_start react) ?_
    cases h with
    | ahead hAt hOff hConfig =>
      rw [Run.move, next, hAt]
      dsimp only
      rw [hConfig]
      cases on with
      | true => rfl
      | false => exact hOff
    | begun hAt hFlag => exact step_next hAt hFlag (hm _)

theorem Settled.play (h : Settled on r) {moves : List Move}
    (hMoves : ∀ m ∈ moves, ∀ value, m.KeepsStep value) : Settled on (r.play ev moves) := by
  induction moves generalizing r with
  | nil => exact h
  | cons m rest ih =>
    rw [List.forall_mem_cons] at hMoves
    exact ih (h.move hMoves.1) hMoves.2

theorem play_of_no_steps {moves : List Move} (h : Move.steps moves = 0) :
    (r.play ev moves).location = r.location ∧ (r.play ev moves).simulation = r.simulation := by
  induction moves generalizing r with
  | nil => exact ⟨rfl, rfl⟩
  | cons m rest ih =>
    cases m with
    | step react => simp [Move.steps, Move.own] at h
    | command c =>
      have hRest : Move.steps rest = 0 := by simpa [Move.steps, Move.own] using h
      exact ih hRest

theorem location_play_ne_start {moves : List Move}
    (h : r.location ≠ .start ∨ Move.steps moves ≠ 0) : (r.play ev moves).location ≠ .start := by
  induction moves generalizing r with
  | nil => exact h.resolve_right fun hNot => hNot rfl
  | cons m rest ih =>
    refine ih ?_
    cases m with
    | step react => exact .inl (location_next_ne_start react)
    | command c => exact h.imp_right fun hSteps => by simpa [Move.steps, Move.own] using hSteps

/-- The flag is turned off for good, unless the run has yet to begin and then turns it on. -/
theorem settled_of_setStep (ev : Evaluator Id) (s : Simulation) (earlier : List Move) :
    Settled (s.config.step && Move.steps earlier == 0)
      (((spawn s).play ev earlier).command (.setStep false)) := by
  by_cases hNone : Move.steps earlier = 0
  · obtain ⟨hAt, hSame⟩ : ((spawn s).play ev earlier).location = .start ∧
        ((spawn s).play ev earlier).simulation = s := play_of_no_steps hNone
    have hConfig : ((spawn s).play ev earlier).simulation.config = s.config :=
      congrArg Simulation.config hSame
    exact .ahead hAt rfl (by simp [command, hConfig, hNone])
  · exact .begun (location_play_ne_start (.inr hNone)) (by simp [command, Control.apply, hNone])

/-- When a caller of a spawned run has turned stepping off and nobody sets the flag after that, the
run pauses itself at a checkpoint nonetheless just when it is to step and had not begun at the time. -/
theorem pauses_after_setStep_iff (ev : Evaluator Id) (s : Simulation) (earlier : List Move)
    {later : List Move} (hLater : ∀ m ∈ later, ∀ value, m.KeepsStep value) (react : Reaction) :
    let r := (spawn s).play ev (earlier ++ .command (.setStep false) :: later)
    r.location = .checkpoint → r.control.state = .running →
      ((r.move ev (.step react)).control.state = .paused ↔
        s.config.step = true ∧ Move.steps earlier = 0) := by
  intro r hAt hRunning
  have hSettled : Settled (s.config.step && Move.steps earlier == 0) r := by
    have hPlay : r = (((spawn s).play ev earlier).command (.setStep false)).play ev later :=
      play_append _ _
    rw [hPlay]
    exact (settled_of_setStep ev s earlier).play hLater
  have hFlag : r.control.step = (s.config.step && Move.steps earlier == 0) := by
    cases hSettled with
    | ahead hStart => cases hStart.symm.trans hAt
    | begun _ hFlag => exact hFlag
  have hMove : (r.move ev (.step react)).control = r.control.enterCheckpoint := by
    rw [move, next, hAt]
  rw [hMove, Control.enterCheckpoint_paused_iff hRunning, hFlag]
  simp

/-- A transition that nothing holds up. -/
def pulse : Net where
  id := "pulse"
  nodes := [.transition { id := "t" }]

def pulseFiring : Firing where
  transition := "t"
  label := "t"
  clock := 0
  consumed := []
  produced := []

/-- The simulation of a pulse after one more firing. -/
def pulsed (s : Simulation) : Simulation :=
  { s with
    source := (s.source.drawIndex 0).2, net := pulse, firings := s.firings + 1 }.report
      (Event.ofFiring (s.firings + 1) pulseFiring)

theorem pulse_fireRandom {s : Simulation} (hNet : s.net = pulse) (hClock : s.firingClock = 0) :
    s.fireRandom unhurried = (.ok (some pulseFiring), pulsed s) := by
  have hNow : s.enabledTransitions unhurried = .ok ["t"] := by
    rw [Simulation.enabledTransitions, hNet, hClock]
    rfl
  have hFire : (s.net.fire unhurried "t" s.firingClock).run = .ok (pulseFiring, pulse) := by
    rw [hNet, hClock]
    rfl
  exact Simulation.fireRandom_of_singleton hNow hFire

/-- Stepping is turned off after some moves and left alone for some steps. -/
def pulseAfter (earlier : List Move) (n : Nat) : Run :=
  (spawn (Simulation.start pulse { step := true } 7)).play unhurried
    (earlier ++ .command (.setStep false) :: List.replicate n (.step Reaction.none))

/-- When stepping is turned off before the run has begun, it pauses itself after its first firing; it
goes on when the call comes one step later. -/
theorem pauses_after_setStep_iff_pulse :
    ((pulseAfter [] 4).location = .checkpoint ∧ (pulseAfter [] 4).control.state = .running ∧
      ((pulseAfter [] 4).move unhurried (.step Reaction.none)).control.state = .paused) ∧
    (pulseAfter [.step Reaction.none] 3).location = .checkpoint ∧
      (pulseAfter [.step Reaction.none] 3).control.state = .running ∧
      ((pulseAfter [.step Reaction.none] 3).move unhurried
        (.step Reaction.none)).control.state ≠ .paused := by
  have hLater : ∀ n, ∀ m ∈ List.replicate n (.step Reaction.none), ∀ value,
      Move.KeepsStep value m := by
    intro n m hm value
    rw [List.eq_of_mem_replicate hm]
    exact fun _ => List.not_mem_nil
  have hEarlyFired : (spawn (Simulation.start pulse { step := true } 7)).play unhurried
      (.command (.setStep false) :: List.replicate 3 (.step .none) ++ .step .none :: []) = _ :=
    play_of_fired .none _ rfl (pulse_fireRandom rfl rfl)
  have hLateFired : (spawn (Simulation.start pulse { step := true } 7)).play unhurried
      (.step .none :: .command (.setStep false) :: List.replicate 2 (.step .none) ++
        .step .none :: []) = _ :=
    play_of_fired .none _ rfl (pulse_fireRandom rfl rfl)
  have hEarlyAt : (pulseAfter [] 4).location = .checkpoint := congrArg Run.location hEarlyFired
  have hLateAt : (pulseAfter [.step .none] 3).location = .checkpoint :=
    congrArg Run.location hLateFired
  have hEarlyRuns : (pulseAfter [] 4).control.state = .running :=
    congrArg (fun r => r.control.state) hEarlyFired
  have hLateRuns : (pulseAfter [.step .none] 3).control.state = .running :=
    congrArg (fun r => r.control.state) hLateFired
  have hEarly := pauses_after_setStep_iff unhurried (Simulation.start pulse { step := true } 7) []
    (hLater 4) Reaction.none hEarlyAt hEarlyRuns
  have hLate := pauses_after_setStep_iff unhurried (Simulation.start pulse { step := true } 7)
    [.step Reaction.none] (hLater 3) Reaction.none hLateAt hLateRuns
  refine ⟨⟨hEarlyAt, hEarlyRuns, hEarly.mpr ⟨rfl, rfl⟩⟩, hLateAt, hLateRuns, fun hPaused => ?_⟩
  cases (hLate.mp hPaused).2

end Run
end Petri
