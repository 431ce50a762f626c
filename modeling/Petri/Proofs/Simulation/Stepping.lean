import Petri.Proofs.Simulation.Progress
import Petri.Proofs.Simulation.StepMode

/-! # Stepping

A run that steps pauses itself after every firing and fires again only when a caller has resumed it
there. Pauses and resumes that come at another time, however many, never let a firing slip through:
they only count when they find the run at its checkpoint.
-/
namespace Petri
set_option autoImplicit false

/-- What happens in a run, as far as stepping goes. -/
inductive Mark where
  | fired
  /-- The run has entered its checkpoint. -/
  | reached
  /-- A caller's resume has found the run paused. -/
  | resumed
  deriving DecidableEq

namespace Control
variable {control : Control}

theorem enterCheckpoint_ne_running (h : control.step = true) :
    control.enterCheckpoint.state ≠ .running := by
  rw [enterCheckpoint, if_pos h, apply]
  split
  · simp
  · assumption

theorem delays_of_step (h : control.step = true) (delay : Nat) : control.delays delay = false := by
  simp [delays, h]

end Control

namespace Run
variable {ev : Evaluator Id} {r : Run}

/-- The mark that a move leaves. -/
def mark? (ev : Evaluator Id) (r : Run) : Move → Option Mark
  | .step _ =>
    match r.location with
    | .fire =>
      match (r.simulation.fireRandom ev).1 with
      | .ok (some _) => some .fired
      | _ => none
    | .checkpoint => some .reached
    | _ => none
  | .command .resume => if r.control.state = .paused then some .resumed else none
  | .command _ => none

def marks (ev : Evaluator Id) (r : Run) : List Move → List Mark
  | [] => []
  | m :: rest => (r.mark? ev m).toList ++ marks ev (r.move ev m) rest

theorem marks_append (ev : Evaluator Id) (r : Run) (first last : List Move) :
    r.marks ev (first ++ last) = r.marks ev first ++ (r.play ev first).marks ev last := by
  induction first generalizing r with
  | nil => rfl
  | cons m first ih =>
    rw [List.cons_append, marks, marks, ih, List.append_assoc]
    rfl

theorem marks_of_fired {ev : Evaluator Id} {r : Run} {first : List Move} {firing : Firing}
    {s : Simulation} (react : Reaction) (last : List Move)
    (hAt : (r.play ev first).location = .fire)
    (hFire : (r.play ev first).simulation.fireRandom ev = (.ok (some firing), s)) :
    r.marks ev (first ++ .step react :: last) =
      r.marks ev first ++ .fired :: ((r.play ev first).moveTo react s .checkpoint).marks ev last := by
  rw [marks_append, marks, move, next_of_fired react hAt hFire, mark?, hAt]
  dsimp only
  rw [hFire]
  rfl

/-- The run steps, or it will from its first step on; so it never waits out a delay. -/
structure Stepping (r : Run) : Prop where
  flag : r.control.step = true ∨ r.location = .start ∧ r.simulation.config.step = true
  undelayed : r.location ≠ .delay

/-- The run stays where it is until it is resumed. -/
def Held (r : Run) : Prop :=
  r.location = .parked ∧ r.control.state ≠ .running ∨ ∃ result, r.location = .ended result

/-! ## The flag -/

theorem Stepping.on (h : Stepping r) (hAt : r.location ≠ .start) : r.control.step = true :=
  h.flag.resolve_right fun hStart => hAt hStart.1

/-- A run comes to a delay only where its checkpoint delays it. -/
theorem delays_of_next {react : Reaction} (h : (r.next react ev).location = .delay) :
    r.control.enterCheckpoint.delays r.simulation.config.delay = true := by
  rw [Run.next] at h
  split at h
  · cases h
  · split at h <;> cases h
  · split at h
    · cases h
    · split at h <;> cases h
  · split at h <;> cases h
  · by_contra hNot
    dsimp only at h
    rw [if_neg hNot] at h
    cases h
  · cases h
  · rename_i hAt
    split at h
    · cases h
    · cases hAt.symm.trans h
    · cases h
  · rename_i hAt
    cases hAt.symm.trans h

theorem Stepping.next (h : Stepping r) {react : Reaction}
    (hReact : ∀ e, Command.setStep false ∉ react e) : Stepping (r.next react ev) := by
  by_cases hStart : r.location = .start
  · rw [Run.next, hStart]
    refine ⟨.inl ?_, by simp⟩
    dsimp only
    split
    · rfl
    · rename_i hConfig
      exact h.flag.resolve_right fun hBoth => hConfig hBoth.2
  · have hOn : r.control.step = true := h.on hStart
    refine ⟨.inl (step_next hStart hOn hReact), fun hDelay => ?_⟩
    have hDelays := delays_of_next hDelay
    rw [Control.delays_of_step (Control.step_enterCheckpoint.trans hOn)] at hDelays
    cases hDelays

theorem Stepping.move (h : Stepping r) {m : Move} (hm : m.KeepsStep true) :
    Stepping (r.move ev m) := by
  cases m with
  | step react => exact h.next hm
  | command c => exact ⟨h.flag.imp_left fun hOn => Control.step_apply hOn hm, h.undelayed⟩

theorem Stepping.play (h : Stepping r) {moves : List Move}
    (hMoves : ∀ m ∈ moves, m.KeepsStep true) : Stepping (r.play ev moves) := by
  induction moves generalizing r with
  | nil => exact h
  | cons m rest ih =>
    rw [List.forall_mem_cons] at hMoves
    exact ih (h.move hMoves.1) hMoves.2

/-! ## One move -/

theorem firings_next_of_ne_fire (react : Reaction) (h : r.location ≠ .fire) :
    (r.next react ev).simulation.firings = r.simulation.firings := by
  cases hWaiting : r.waiting with
  | true => rw [next_of_waiting react hWaiting]
  | false =>
    rcases (goes react ev hWaiting).counts fun hAt => absurd hAt h with ⟨hSame, _⟩ | ⟨_, hAt, _⟩
    · exact hSame
    · exact absurd hAt h

theorem mark?_command (c : Command) : r.mark? ev (.command c) =
    if c = .resume ∧ r.control.state = .paused then some .resumed else none := by
  cases c with
  | resume => simp [mark?]
  | _ => rfl

theorem mark?_step_ne_fired (react : Reaction) (h : r.location ≠ .fire) :
    r.mark? ev (.step react) ≠ some .fired := by
  cases hAt : r.location with
  | fire => exact absurd hAt h
  | _ => simp [mark?, hAt]

theorem count_toList_mark {mark? : Option Mark} (k : Mark) :
    mark?.toList.count k = if mark? = some k then 1 else 0 := by
  cases mark? with
  | none => rfl
  | some j => simp [List.count_singleton]

theorem firings_move (m : Move) : (r.move ev m).simulation.firings =
    r.simulation.firings + (r.mark? ev m).toList.count .fired := by
  cases m with
  | command c =>
    rw [mark?_command]
    split <;> rfl
  | step react =>
    by_cases hAt : r.location = .fire
    · rw [move, next, mark?, hAt]
      dsimp only
      generalize hAnswer : r.simulation.fireRandom ev = answer
      cases Simulation.firesRandom_of_eq hAnswer <;> rfl
    · rw [count_toList_mark, if_neg (mark?_step_ne_fired react hAt)]
      exact firings_next_of_ne_fire react hAt

/-- A firing leads to the checkpoint. -/
theorem location_of_fired {m : Move} (h : r.mark? ev m = some .fired) :
    (r.move ev m).location = .checkpoint := by
  cases m with
  | command c =>
    rw [mark?_command] at h
    split at h <;> cases h
  | step react =>
    by_cases hAt : r.location = .fire
    · rw [mark?, hAt] at h
      rw [move, next, hAt]
      dsimp only at h ⊢
      generalize hAnswer : r.simulation.fireRandom ev = answer at h ⊢
      cases Simulation.firesRandom_of_eq hAnswer with
      | fired => rfl
      | _ => cases h
    · exact absurd h (mark?_step_ne_fired react hAt)

/-- A run that is held stays held as long as it is not resumed. -/
theorem move_of_held (ev : Evaluator Id) (h : Held r) (m : Move) :
    r.mark? ev m = some .resumed ∨ r.mark? ev m = none ∧ Held (r.move ev m) := by
  cases m with
  | command c =>
    rw [mark?_command]
    split
    · exact .inl rfl
    · rename_i hOther
      refine .inr ⟨rfl, h.imp_left fun ⟨hAt, hState⟩ => ⟨hAt, ?_⟩⟩
      rw [move, command]
      cases c <;> simp_all [Control.apply]
  | step react =>
    right
    rcases h with ⟨hAt, hState⟩ | ⟨result, hAt⟩
    · refine ⟨by rw [mark?, hAt], ?_⟩
      rw [move, next, hAt]
      dsimp only
      split
      · rename_i hRunning
        exact absurd hRunning hState
      · exact .inl ⟨hAt, hState⟩
      · exact .inr ⟨_, rfl⟩
    · refine ⟨by rw [mark?, hAt], ?_⟩
      rw [move, next, hAt]
      exact .inr ⟨result, hAt⟩

theorem move_of_checkpoint (ev : Evaluator Id) (h : Stepping r) (hAt : r.location = .checkpoint)
    (m : Move) :
    r.mark? ev m = some .reached ∧ Held (r.move ev m) ∨
      r.mark? ev m ≠ some .fired ∧ (r.move ev m).location = .checkpoint := by
  cases m with
  | command c =>
    right
    rw [mark?_command]
    refine ⟨?_, hAt⟩
    split <;> simp
  | step react =>
    left
    have hOn : r.control.step = true := h.on (by simp [hAt])
    refine ⟨by rw [mark?, hAt], ?_⟩
    rw [move, next, hAt]
    dsimp only
    rw [Control.delays_of_step (Control.step_enterCheckpoint.trans hOn)]
    exact .inl ⟨rfl, Control.enterCheckpoint_ne_running hOn⟩

/-! ## All moves -/

/-- A mark in a play has been left by one of its moves. -/
theorem exists_move_of_marks {moves : List Move} {earlier later : List Mark} {k : Mark}
    (h : r.marks ev moves = earlier ++ k :: later) :
    ∃ first m last, moves = first ++ m :: last ∧ (r.play ev first).mark? ev m = some k ∧
      ((r.play ev first).move ev m).marks ev last = later := by
  induction moves generalizing r earlier with
  | nil => simp [marks] at h
  | cons m rest ih =>
    rw [marks] at h
    cases hMark : r.mark? ev m with
    | none =>
      rw [hMark] at h
      obtain ⟨first, m', last, rfl, hFound, hLater⟩ := ih h
      exact ⟨m :: first, m', last, rfl, hFound, hLater⟩
    | some j =>
      rw [hMark] at h
      cases earlier with
      | nil =>
        obtain ⟨rfl, hLater⟩ := List.cons.inj h
        exact ⟨[], m, rest, rfl, hMark, hLater⟩
      | cons i earlier =>
        obtain ⟨m', last, first, rfl, hFound, hLater⟩ := ih (List.cons.inj h).2
        exact ⟨m :: m', last, first, rfl, hFound, hLater⟩

theorem resumed_of_held (h : Held r) {moves : List Move} {earlier later : List Mark}
    (hMarks : r.marks ev moves = earlier ++ .fired :: later) : .resumed ∈ earlier := by
  induction moves generalizing r earlier with
  | nil => simp [marks] at hMarks
  | cons m rest ih =>
    rw [marks] at hMarks
    rcases move_of_held ev h m with hMark | ⟨hMark, hHeld⟩
    · rw [hMark] at hMarks
      cases earlier with
      | nil => cases hMarks
      | cons i earlier =>
        obtain ⟨rfl, _⟩ := List.cons.inj hMarks
        exact List.mem_cons_self
    · rw [hMark] at hMarks
      exact ih hHeld hMarks

theorem resumed_of_checkpoint (h : Stepping r) (hAt : r.location = .checkpoint) {moves : List Move}
    (hMoves : ∀ m ∈ moves, m.KeepsStep true) {earlier later : List Mark}
    (hMarks : r.marks ev moves = earlier ++ .fired :: later) :
    ∃ before meanwhile after,
      earlier = before ++ .reached :: (meanwhile ++ .resumed :: after) := by
  induction moves generalizing r earlier with
  | nil => simp [marks] at hMarks
  | cons m rest ih =>
    rw [List.forall_mem_cons] at hMoves
    rw [marks] at hMarks
    rcases move_of_checkpoint ev h hAt m with ⟨hMark, hHeld⟩ | ⟨hMark, hThere⟩
    · rw [hMark] at hMarks
      cases earlier with
      | nil => cases hMarks
      | cons i earlier =>
        obtain ⟨rfl, hRest⟩ := List.cons.inj hMarks
        obtain ⟨meanwhile, after, rfl⟩ := List.append_of_mem (resumed_of_held hHeld hRest)
        exact ⟨[], meanwhile, after, rfl⟩
    · have hNext : Stepping (r.move ev m) := h.move hMoves.1
      cases hKind : r.mark? ev m with
      | none =>
        rw [hKind] at hMarks
        exact ih hNext hThere hMoves.2 hMarks
      | some j =>
        rw [hKind] at hMarks hMark
        cases earlier with
        | nil => exact absurd (congrArg some (List.cons.inj hMarks).1) hMark
        | cons i earlier =>
          obtain ⟨before, meanwhile, after, rfl⟩ := ih hNext hThere hMoves.2 (List.cons.inj hMarks).2
          exact ⟨i :: before, meanwhile, after, rfl⟩

theorem firings_play (moves : List Move) : (r.play ev moves).simulation.firings =
    r.simulation.firings + (r.marks ev moves).count .fired := by
  induction moves generalizing r with
  | nil => rfl
  | cons m rest ih =>
    calc (r.play ev (m :: rest)).simulation.firings
      _ = (r.move ev m).simulation.firings + ((r.move ev m).marks ev rest).count .fired := ih
      _ = r.simulation.firings + (r.marks ev (m :: rest)).count .fired := by
        rw [firings_move, marks, List.count_append, Nat.add_assoc]

/-- A run that is due to be resumed fires no more often than it is resumed, any other once more. -/
theorem count_fired_le (h : Stepping r) {moves : List Move}
    (hMoves : ∀ m ∈ moves, m.KeepsStep true) :
    (r.location = .checkpoint ∨ Held r →
      (r.marks ev moves).count .fired ≤ (r.marks ev moves).count .resumed) ∧
    (r.marks ev moves).count .fired ≤ (r.marks ev moves).count .resumed + 1 := by
  induction moves generalizing r with
  | nil => simp [marks]
  | cons m rest ih =>
    rw [List.forall_mem_cons] at hMoves
    have hNext : Stepping (r.move ev m) := h.move hMoves.1
    obtain ⟨hDue, hOther⟩ := ih hNext hMoves.2
    rw [marks, List.count_append, List.count_append, count_toList_mark, count_toList_mark]
    constructor
    · rintro (hAt | hHeld)
      · rcases move_of_checkpoint ev h hAt m with ⟨hMark, hHeld⟩ | ⟨hMark, hThere⟩
        · simpa [hMark] using hDue (.inr hHeld)
        · have hRest := hDue (.inl hThere)
          rw [if_neg hMark]
          omega
      · rcases move_of_held ev hHeld m with hMark | ⟨hMark, hStill⟩
        · simpa [hMark, Nat.add_comm] using hOther
        · simpa [hMark] using hDue (.inr hStill)
    · by_cases hMark : r.mark? ev m = some .fired
      · simpa [hMark, Nat.add_comm] using hDue (.inl (location_of_fired hMark))
      · rw [if_neg hMark]
        omega

theorem resume_of_running (h : r.control.state = .running) : r.command .resume = r := by
  rw [command, Control.apply, if_neg (by simp [h])]

/-- Whoever pauses and resumes a run that steps, between any two of its firings there is a resume that
found it paused, after it had reached its checkpoint. So it has never fired more than once more often
than it was resumed; and a resume that finds it running makes no difference to anything that comes
later. -/
theorem stepping_awaits_resume (ev : Evaluator Id) {s : Simulation} {control : Control}
    (hSteps : control.step = true ∨ s.config.step = true) {moves : List Move}
    (hMoves : ∀ m ∈ moves, m.KeepsStep true) :
    let marks := (start s control).marks ev moves
    (∀ earlier between later, marks = earlier ++ .fired :: (between ++ .fired :: later) →
      ∃ before meanwhile after,
        between = before ++ .reached :: (meanwhile ++ .resumed :: after)) ∧
    ((start s control).play ev moves).simulation.firings = s.firings + marks.count .fired ∧
    marks.count .fired ≤ marks.count .resumed + 1 ∧
    ∀ first last, ((start s control).play ev first).control.state = .running →
      (start s control).play ev (first ++ .command .resume :: last) =
        (start s control).play ev (first ++ last) := by
  have h : Stepping (start s control) :=
    ⟨hSteps.imp_right fun hConfig => ⟨rfl, hConfig⟩, by simp [start]⟩
  refine ⟨fun earlier between later hMarks => ?_, firings_play moves, (count_fired_le h hMoves).2,
    fun first last hRunning => ?_⟩
  · obtain ⟨first, m, last, rfl, hFired, hLater⟩ := exists_move_of_marks hMarks
    rw [List.forall_mem_append, List.forall_mem_cons] at hMoves
    obtain ⟨hFirst, hMove, hLast⟩ := hMoves
    exact resumed_of_checkpoint ((h.play hFirst).move hMove) (location_of_fired hFired) hLast hLater
  · rw [play_append, play_append]
    exact congrArg (play ev · last) (resume_of_running hRunning)

/-- A caller pauses and resumes the run before it comes to its checkpoint and resumes it twice there;
the second time does not count. -/
def pulseMoves : List Move :=
  [.step .none, .step .none, .step .none, .step .none, .command .pause, .command .resume,
    .step .none, .command .resume, .command .resume, .step .none, .step .none, .step .none,
    .step .none]

/-- The run right after its first firing. -/
def pulseFired : Run :=
  ((start (Simulation.start pulse { step := true } 7) {}).play unhurried (pulseMoves.take 3)).moveTo
    .none (pulsed (Simulation.start pulse { step := true } 7)) .checkpoint

theorem stepping_awaits_resume_pulse :
    let r := start (Simulation.start pulse { step := true } 7) {}
    (r.control.step = true ∨ r.simulation.config.step = true) ∧
      (∀ m ∈ pulseMoves, m.KeepsStep true) ∧
      r.marks unhurried pulseMoves = [.fired, .resumed, .reached, .resumed, .fired] ∧
      (∃ before meanwhile after, [Mark.resumed, .reached, .resumed] =
        before ++ .reached :: (meanwhile ++ .resumed :: after)) ∧
      (r.play unhurried pulseMoves).simulation.firings = 2 := by
  have hSteps : ({} : Control).step = true ∨
      (Simulation.start pulse { step := true } 7).config.step = true := .inr rfl
  have hMoves : ∀ m ∈ pulseMoves, m.KeepsStep true := by
    simp [pulseMoves, Move.KeepsStep, Reaction.none]
  have hFirst : (start (Simulation.start pulse { step := true } 7) {}).marks unhurried
      (pulseMoves.take 3 ++ .step .none :: pulseMoves.drop 4) = _ :=
    marks_of_fired .none _ rfl (pulse_fireRandom rfl rfl)
  have hSecond : pulseFired.marks unhurried
      ((pulseMoves.drop 4).take 8 ++ .step .none :: []) = _ :=
    marks_of_fired .none _ rfl (pulse_fireRandom rfl rfl)
  have hMarks : (start (Simulation.start pulse { step := true } 7) {}).marks unhurried pulseMoves =
      [.fired, .resumed, .reached, .resumed, .fired] :=
    hFirst.trans (congrArg (Mark.fired :: ·) hSecond)
  obtain ⟨hBetween, hFirings, _⟩ := stepping_awaits_resume unhurried hSteps hMoves
  rw [hMarks] at hBetween hFirings
  exact ⟨hSteps, hMoves, hMarks, hBetween [] [.resumed, .reached, .resumed] [] rfl, hFirings⟩

end Run
end Petri
