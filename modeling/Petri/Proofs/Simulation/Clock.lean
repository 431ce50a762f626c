import Petri.Proofs.Simulation.Progress
import Petri.Proofs.Simulation.Stopping

/-! # The clock

The clock goes from one time that a token carries to the next and leaves none out. A run moves it only
where nothing is enabled.
-/
namespace Petri
set_option autoImplicit false

def Event.movesClock : Event → Bool
  | .clockAdvanced .. => true
  | _ => false

/-! ## From time to time -/

theorem Net.exists_times (net : Net) (clock : Time) :
    ∃ times : List Time, times.Pairwise (· < ·) ∧
      ∀ m, m ∈ times ↔ clock < m ∧ net.Carries m := by
  let carried := (net.places.flatMap fun p => p.tokens.map Token.time).toFinset
  refine ⟨(carried.filter (clock < ·)).sort, (Finset.sortedLT_sort _).pairwise, fun m => ?_⟩
  rw [Finset.mem_sort, Finset.mem_filter, List.mem_toFinset, and_comm, Net.Carries]
  simp only [List.mem_flatMap, List.mem_map]

namespace Simulation
variable {ev : Evaluator Id} {s s' : Simulation}

/-- Moved `k` times from `s` on, the clock has come to the `k`-th of these times, and it is answered
with the one after that; when they are all past, nothing changes any more. -/
structure Ticks (s : Simulation) (times : List Time) (k : Nat) (now : Simulation) : Prop where
  answer : now.advanceClock.1 = times[k]?
  clock : now.clock = (times.take k).getLastD s.clock
  net : now.net = s.net
  rests : times.length ≤ k → now.advanceClock = (none, now)

theorem ticks {times : List Time} (hOrder : times.Pairwise (· < ·))
    (hTimes : ∀ m, m ∈ times ↔ s.clock < m ∧ s.net.Carries m) (k : Nat) :
    s.Ticks times k ((fun s => s.advanceClock.2)^[k] s) := by
  -- what is left of the times after one move are the times of the simulation that has moved
  induction times generalizing s k with
  | nil =>
    have hNone : s.net.earliestPending s.clock = none := by
      rw [Net.earliestPending_eq_none_iff]
      intro p hp t ht
      rw [← not_lt]
      intro hLater
      cases (hTimes t.time).mpr ⟨hLater, p, hp, t, ht, rfl⟩
    have hRests := advanceClock_of_none hNone
    have hStays : (fun s => s.advanceClock.2)^[k] s = s :=
      Function.iterate_fixed (congrArg Prod.snd hRests) k
    rw [hStays]
    exact ⟨congrArg Prod.fst hRests, by rw [List.take_nil]; rfl, rfl, fun _ => hRests⟩
  | cons next rest ih =>
    rw [List.pairwise_cons] at hOrder
    obtain ⟨hLater, hCarried⟩ := (hTimes next).mp List.mem_cons_self
    have hNext : s.net.earliestPending s.clock = some next := by
      refine Net.earliestPending_eq_some_iff.mpr ⟨hCarried, hLater, ?_⟩
      rintro other hOther ⟨hAfter, hBefore⟩
      rcases List.mem_cons.mp ((hTimes other).mpr ⟨hAfter, hOther⟩) with rfl | hRest
      · exact lt_irrefl _ hBefore
      · exact lt_asymm hBefore (hOrder.1 other hRest)
    have hMoves := advanceClock_of_some hNext
    cases k with
    | zero =>
      exact ⟨congrArg Prod.fst hMoves, rfl, rfl, fun hNone => absurd hNone (Nat.not_succ_le_zero _)⟩
    | succ k =>
      have hRest : ∀ m, m ∈ rest ↔ next < m ∧ s.net.Carries m := by
        intro m
        constructor
        · intro hm
          exact ⟨hOrder.1 m hm, ((hTimes m).mp (List.mem_cons_of_mem _ hm)).2⟩
        · rintro ⟨hAfter, hm⟩
          refine (List.mem_cons.mp ((hTimes m).mpr ⟨hLater.trans hAfter, hm⟩)).resolve_left ?_
          exact hAfter.ne'
      have hStep := ih (s := s.advancedTo next) hOrder.2 hRest k
      rw [Function.iterate_succ_apply, hMoves]
      refine ⟨hStep.answer, ?_, hStep.net, fun hAll => hStep.rests (Nat.le_of_succ_le_succ hAll)⟩
      rw [List.take_succ_cons, List.getLastD_cons]
      exact hStep.clock

/-! ## In a run -/

/-- The clock may be moved from `start` to `stop`: without it nothing is enabled, and `stop` is the time
that comes next. -/
structure Turns (ev : Evaluator Id) (s : Simulation) (start stop : Time) : Prop where
  timed : s.config.mode = .timed
  clock : s.clock = start
  idle : ∀ t ∈ s.net.transitions, (s.net.enabled ev t.id start).run = .ok false
  next : s.net.ComesNext start stop

/-- What is told by one move: that the clock is moved comes first, and only where it may be moved. -/
inductive TellsTime (ev : Evaluator Id) (s : Simulation) : List Event → Prop where
  | stays {told : List Event} (hOthers : ∀ e ∈ told, e.movesClock = false) : TellsTime ev s told
  | turns {stop : Time} {told : List Event} (hTurns : s.Turns ev s.clock stop)
      (hOthers : ∀ e ∈ told, e.movesClock = false) :
      TellsTime ev s (.clockAdvanced s.clock stop :: told)

theorem TellsTime.append {told more : List Event} (h : TellsTime ev s told)
    (hMore : ∀ e ∈ more, e.movesClock = false) : TellsTime ev s (told ++ more) := by
  cases h with
  | stays hOthers => exact .stays (List.forall_mem_append.mpr ⟨hOthers, hMore⟩)
  | turns hTurns hOthers => exact .turns hTurns (List.forall_mem_append.mpr ⟨hOthers, hMore⟩)

theorem TellsTime.first {before after : List Event} {start stop : Time}
    (h : TellsTime ev s (before ++ .clockAdvanced start stop :: after)) :
    before = [] ∧ s.Turns ev start stop := by
  generalize hTold : before ++ .clockAdvanced start stop :: after = told at h
  cases h with
  | stays hOthers =>
    subst hTold
    cases hOthers _ List.mem_append_cons_self
  | turns hTurns hOthers =>
    cases before with
    | nil =>
      cases hTold
      exact ⟨rfl, hTurns⟩
    | cons e before =>
      cases hTold
      cases hOthers _ List.mem_append_cons_self

theorem exists_told_of_isFinished {answer : Except RunError Bool}
    (h : s.isFinished ev = (answer, s')) :
    ∃ told, s'.events = s.events ++ told ∧ TellsTime ev s told := by
  cases checks_of_eq h with
  | fails | live | untimed | exhausted =>
    exact ⟨[], (List.append_nil _).symm, .stays (List.forall_mem_nil _)⟩
  | failsLater hNow hMode hNext | liveLater hNow hMode hNext | deadLater hNow hMode hNext =>
    have hClock : s.firingClock = s.clock := by rw [firingClock, hMode]
    have hIdle := enabledTransitions_eq_nil_iff.mp hNow
    rw [hClock] at hIdle
    exact ⟨_, events_report _ _, .turns
      ⟨hMode, rfl, hIdle, Net.earliestPending_eq_some_iff.mp hNext⟩ (List.forall_mem_nil _)⟩

theorem exists_told_of_fireRandom {answer : Except RunError (Option Firing)}
    (h : s.fireRandom ev = (answer, s')) :
    ∃ told, s'.events = s.events ++ told ∧ ∀ e ∈ told, e.movesClock = false := by
  cases firesRandom_of_eq h with
  | fails | nothing | refused => exact ⟨[], (List.append_nil _).symm, List.forall_mem_nil _⟩
  | fired =>
    refine ⟨_, events_report _ _, fun e he => ?_⟩
    rw [Event.ofFiring, List.mem_append, List.mem_append, List.mem_map, List.mem_map,
      List.mem_singleton] at he
    rcases he with (⟨_, _, rfl⟩ | rfl) | ⟨_, _, rfl⟩ <;> rfl

end Simulation

namespace Run
variable {ev : Evaluator Id} {r : Run}

theorem Goes.exists_told {react : Reaction} {after : Run} (h : Goes react ev r after) :
    ∃ told, after.simulation.events = r.simulation.events ++ told ∧
      r.simulation.TellsTime ev told := by
  cases h with
  | begins | enters | pauses | parks | resumes =>
    exact ⟨[], (List.append_nil _).symm, .stays (List.forall_mem_nil _)⟩
  | halts | limited | leaves =>
    exact ⟨_, Simulation.events_report _ _, .stays (List.forall_mem_singleton.mpr rfl)⟩
  | checkFails _ _ hCheck | lives _ _ hCheck => exact Simulation.exists_told_of_isFinished hCheck
  | @dies s _ _ hCheck =>
    obtain ⟨told, hEvents, hTold⟩ := Simulation.exists_told_of_isFinished hCheck
    have hEnd : ∀ e ∈ [Event.finished s.clock s.firings .dead], e.movesClock = false :=
      List.forall_mem_singleton.mpr rfl
    refine ⟨_, ?_, hTold.append hEnd⟩
    rw [finish_simulation, Simulation.events_report, moveTo_simulation, hEvents, List.append_assoc]
  | fireFails _ hFire | fires _ hFire =>
    obtain ⟨told, hEvents, hOthers⟩ := Simulation.exists_told_of_fireRandom hFire
    exact ⟨told, hEvents, .stays hOthers⟩

theorem exists_told_of_move (ev : Evaluator Id) (r : Run) (m : Move) :
    ∃ told, (r.move ev m).simulation.events = r.simulation.events ++ told ∧
      r.simulation.TellsTime ev told := by
  have hNothing : ∃ told, r.simulation.events = r.simulation.events ++ told ∧
      r.simulation.TellsTime ev told :=
    ⟨[], (List.append_nil _).symm, .stays (List.forall_mem_nil _)⟩
  cases m with
  | command c => exact hNothing
  | step react =>
    cases hWaiting : r.waiting with
    | true =>
      rw [move, next_of_waiting react hWaiting]
      exact hNothing
    | false => exact (goes react ev hWaiting).exists_told

theorem exists_told_of_play (ev : Evaluator Id) (r : Run) (moves : List Move) :
    ∃ told, (r.play ev moves).simulation.events = r.simulation.events ++ told := by
  induction moves generalizing r with
  | nil => exact ⟨[], (List.append_nil _).symm⟩
  | cons m rest ih =>
    obtain ⟨told, hTold, _⟩ := exists_told_of_move ev r m
    obtain ⟨later, hLater⟩ := ih (r.move ev m)
    refine ⟨told ++ later, hLater.trans ?_⟩
    rw [hTold, List.append_assoc]

/-- Once `before` has been told, one of the moves tells of this turn of the clock, and the clock may be
moved there. -/
def TurnsAmong (ev : Evaluator Id) (r : Run) (moves : List Move) (before : List Event)
    (start stop : Time) : Prop :=
  ∃ first m last told, moves = first ++ m :: last ∧
    (r.play ev first).simulation.events = r.simulation.events ++ before ∧
    ((r.play ev first).move ev m).simulation.events =
      (r.play ev first).simulation.events ++ .clockAdvanced start stop :: told ∧
    (r.play ev first).simulation.Turns ev start stop

theorem turnsAmong_of_play {moves : List Move} {before after : List Event} {start stop : Time}
    (h : (r.play ev moves).simulation.events =
      r.simulation.events ++ (before ++ .clockAdvanced start stop :: after)) :
    r.TurnsAmong ev moves before start stop := by
  induction moves generalizing r before with
  | nil =>
    have hNone := List.self_eq_append_right.mp h
    simp at hNone
  | cons m rest ih =>
    obtain ⟨told, hTold, hTime⟩ := exists_told_of_move ev r m
    obtain ⟨later, hLater⟩ := exists_told_of_play ev (r.move ev m) rest
    have hAll : (r.play ev (m :: rest)).simulation.events =
        r.simulation.events ++ (told ++ later) := by
      rw [← List.append_assoc, ← hTold]
      exact hLater
    have hSplit : told ++ later = before ++ .clockAdvanced start stop :: after :=
      List.append_cancel_left (hAll.symm.trans h)
    have hRest : ∀ told', before = told ++ told' →
        later = told' ++ .clockAdvanced start stop :: after →
        r.TurnsAmong ev (m :: rest) before start stop := by
      rintro told' rfl rfl
      obtain ⟨first, m', last, told'', rfl, hBefore, hMove, hTurns⟩ := ih hLater
      refine ⟨m :: first, m', last, told'', rfl, hBefore.trans ?_, hMove, hTurns⟩
      rw [hTold, List.append_assoc]
    -- this move tells of the turn only if it has told nothing else before
    rcases List.append_eq_append_iff.mp hSplit with ⟨told', hBefore, hTurn⟩ | ⟨told', hNow, hTurn⟩
    · exact hRest told' hBefore hTurn
    · cases told' with
      | nil => exact hRest [] (by simpa using hNow.symm) hTurn.symm
      | cons e told' =>
        obtain ⟨rfl, -⟩ := List.cons.inj hTurn
        rw [hNow] at hTime hTold
        obtain ⟨rfl, hTurns⟩ := hTime.first
        exact ⟨[], m, rest, told', rfl, (List.append_nil _).symm, hTold, hTurns⟩

end Run

/-- The clock leaves no time out. The time that comes next is one that a token carries, and none is
carried between; there is none when no token carries a later time. Moved again and again, the clock
stands at each later time in turn and then stays. In a run it is moved only when nothing is enabled
where it stands, to the time that comes next. -/
theorem clock_skips_nothing (ev : Evaluator Id) :
    (∀ (net : Net) (clock : Time),
      (∀ m, net.earliestPending clock = some m ↔ net.ComesNext clock m) ∧
      (net.earliestPending clock = none ↔ ∀ m, net.Carries m → m ≤ clock)) ∧
    (∀ s : Simulation, ∃ times : List Time, times.Pairwise (· < ·) ∧
      (∀ m, m ∈ times ↔ s.clock < m ∧ s.net.Carries m) ∧
      ∀ k, s.Ticks times k ((fun s => s.advanceClock.2)^[k] s)) ∧
    ∀ (r : Run) (moves : List Move) (before after : List Event) (start stop : Time),
      (r.play ev moves).simulation.events =
        r.simulation.events ++ (before ++ .clockAdvanced start stop :: after) →
      r.TurnsAmong ev moves before start stop := by
  refine ⟨fun net clock => ⟨fun m => Net.earliestPending_eq_some_iff, ?_⟩, fun s => ?_,
    fun r moves before after start stop => Run.turnsAmong_of_play⟩
  · rw [Net.earliestPending_eq_none_iff]
    constructor
    · rintro hNone _ ⟨p, hp, t, ht, rfl⟩
      exact hNone p hp t ht
    · intro hNone p hp t ht
      exact hNone t.time ⟨p, hp, t, ht, rfl⟩
  · obtain ⟨times, hOrder, hTimes⟩ := s.net.exists_times s.clock
    exact ⟨times, hOrder, hTimes, Simulation.ticks hOrder hTimes⟩

/-- The relay waits for its token: the clock is moved to the time of the token before the firing. -/
theorem clock_skips_nothing_relay :
    ∃ before after, ((Run.start relayStart {}).play unhurried
        (List.replicate 8 (.step .none))).simulation.events =
      relayStart.events ++ (before ++ .clockAdvanced 5 6 :: after) ∧
    (Run.start relayStart {}).TurnsAmong unhurried (List.replicate 8 (.step .none)) before 5 6 := by
  obtain ⟨before, after, hEvents⟩ : ∃ before after, ((Run.start relayStart {}).play unhurried
      (List.replicate 8 (.step .none))).simulation.events =
        relayStart.events ++ (before ++ .clockAdvanced 5 6 :: after) := by
    have hFired : (Run.start relayStart {}).play unhurried (List.replicate 3 (.step .none) ++
        .step .none :: List.replicate 4 (.step .none)) = _ :=
      Run.play_of_fired .none _ rfl relayDue_fireRandom
    exact ⟨_ :: _ :: _ :: _ :: [], _, congrArg (fun r => r.simulation.events) hFired⟩
  exact ⟨before, after, hEvents, (clock_skips_nothing unhurried).2.2 _ _ _ _ _ _ hEvents⟩

end Petri
