import Petri.Proofs.Simulation.Stopping

/-! # Waking

The state of a control is guarded by a mutex, and one condition variable serves everybody who waits
for it to change: the driver, which waits out the delay while the run is running and stays at the end
of its checkpoint while it is paused, and callers, who wait while it is running. A thread that finds
its condition true gives up the mutex and sleeps until it is notified or its time is up. Nobody is
left sleeping on a condition that is false: whatever makes a condition false notifies.
-/
namespace Petri
set_option autoImplicit false

/-- The driver of a run or one of its callers. -/
inductive Thread (ι : Type) where
  | driver
  | caller (i : ι)
  deriving DecidableEq

inductive Rest where
  | awake
  | asleep
  /-- Notified or out of time, and waiting for the mutex. -/
  | woken
  deriving DecidableEq

/-- What the thread that has the mutex goes on with. -/
inductive Task where
  | apply (c : Command)
  /-- A step of the driver's own. -/
  | advance
  /-- A test of the condition on which the thread sleeps. -/
  | test
  | notify (rest : Task)
  | leave

namespace Control

/-- Whether a command notifies those who sleep. -/
def notifies (control : Control) : Command → Bool
  | .pause => control.state == .running
  | .resume => control.state == .paused
  | .stop => true
  | .setStep _ => false

/-- Whether a driver that enters its checkpoint pauses itself there, and notifies. -/
def pausesItself (control : Control) : Bool := control.step && control.state == .running

end Control

namespace Run

/-- Whether the driver is where it sleeps in between. -/
def pausing (r : Run) : Bool :=
  match r.location with
  | .delay | .parked => true
  | _ => false

/-- Whether the driver takes the mutex for its next step. -/
def locks (r : Run) : Bool :=
  match r.location with
  | .start => r.simulation.config.step
  | .top | .checkpoint => true
  | _ => false

/-- Whether the next step of the driver has nothing to do with the control. -/
def apart (r : Run) : Bool :=
  match r.location with
  | .start => !r.simulation.config.step
  | .check | .fire => true
  | _ => false

end Run

/-- A run together with the threads that share its control. -/
structure Monitor (ι : Type) where
  run : Run
  /-- Who has the mutex, and what for. -/
  holder : Option (Thread ι × Task)
  rest : Thread ι → Rest

namespace Monitor
variable {ι : Type}

/-- Whether the condition holds on which a thread sleeps. -/
def waits (m : Monitor ι) : Thread ι → Bool
  | .driver => m.run.blocked
  | .caller _ => m.run.control.state == .running

/-- What a thread takes the mutex for. Observers use the control on the thread of the driver. -/
inductive Begins (m : Monitor ι) : Thread ι → Task → Prop where
  | apply (t : Thread ι) (c : Command) : Begins m t (.apply c)
  | advance (hLocks : m.run.locks = true) : Begins m .driver .advance
  | wait (i : ι) : Begins m (.caller i) .test

variable (ev : Evaluator Id) [DecidableEq ι]

/-- What a thread does next. Time may be up at any moment, but the wait of a paused driver has no
limit. -/
inductive Step (m : Monitor ι) : Monitor ι → Prop where
  | lock {t : Thread ι} {task : Task} (hFree : m.holder = none) (hAwake : m.rest t = .awake)
      (hBegins : m.Begins t task) : Step m { m with holder := some (t, task) }
  | relock {t : Thread ι} (hFree : m.holder = none) (hWoken : m.rest t = .woken) :
      Step m { m with holder := some (t, .test), rest := Function.update m.rest t .awake }
  | apply {t : Thread ι} {c : Command} (hHolds : m.holder = some (t, .apply c)) :
      Step m { m with
        run := m.run.command c
        holder := some (t, if m.run.control.notifies c then .notify .leave else .leave) }
  | notify {t : Thread ι} {rest : Task} (hHolds : m.holder = some (t, .notify rest)) :
      Step m { m with
        holder := some (t, rest)
        rest := fun u => if m.rest u = .asleep then .woken else m.rest u }
  | leave {t : Thread ι} (hHolds : m.holder = some (t, .leave)) : Step m { m with holder := none }
  | sleep {t : Thread ι} (hHolds : m.holder = some (t, .test)) (hWaits : m.waits t = true) :
      Step m { m with holder := none, rest := Function.update m.rest t .asleep }
  | timeOut {t : Thread ι} (hAsleep : m.rest t = .asleep)
      (hLimit : t = .driver → m.run.location = .delay) :
      Step m { m with rest := Function.update m.rest t .woken }
  /-- The condition of a caller is false, or its time is up. -/
  | answer {i : ι} (hHolds : m.holder = some (.caller i, .test)) :
      Step m { m with holder := some (.caller i, .leave) }
  | pass (hHolds : m.holder = some (.driver, .advance))
      (hAt : m.run.location = .start ∨ m.run.location = .top) :
      Step m { m with run := m.run.next Reaction.none ev, holder := some (.driver, .leave) }
  | enter (hHolds : m.holder = some (.driver, .advance)) (hAt : m.run.location = .checkpoint) :
      Step m { m with
        run := m.run.next Reaction.none ev
        holder := some (.driver, if m.run.control.pausesItself then .notify .test else .test) }
  /-- The run is no longer running, or the delay is over; the mutex is kept. -/
  | endDelay (hHolds : m.holder = some (.driver, .test)) (hAt : m.run.location = .delay) :
      Step m { m with run := m.run.next Reaction.none ev }
  | depart (hHolds : m.holder = some (.driver, .test)) (hAt : m.run.location = .parked)
      (hFree : m.run.blocked = false) :
      Step m { m with run := m.run.next Reaction.none ev, holder := some (.driver, .leave) }
  | proceed (hAwake : m.rest .driver = .awake) (hElse : ∀ task, m.holder ≠ some (.driver, task))
      (hApart : m.run.apart = true) : Step m { m with run := m.run.next Reaction.none ev }

/-- Nobody has come for the mutex yet. -/
def start (r : Run) : Monitor ι where
  run := r
  holder := none
  rest _ := .awake

/-- A thread that has the mutex is awake, and unless it is about to notify, everybody who sleeps has
reason to. -/
structure Sound (m : Monitor ι) : Prop where
  holds : ∀ {t task}, m.holder = some (t, task) → m.rest t = .awake
  sleeps : (∀ t rest, m.holder ≠ some (t, .notify rest)) →
    ∀ t, m.rest t = .asleep → m.waits t = true

/-- In the middle of its checkpoint the driver rests, unless it has the mutex to test its condition. -/
def Rests (m : Monitor ι) : Prop :=
  m.run.pausing = true → m.rest .driver = .awake →
    m.holder = some (.driver, .test) ∨ m.holder = some (.driver, .notify .test)

end Monitor

namespace Control
variable {control : Control}

theorem state_apply {c : Command} (h : control.notifies c = false) :
    (control.apply c).state = control.state := by
  cases c with
  | pause => rw [apply, if_neg (by simpa [notifies] using h)]
  | resume => rw [apply, if_neg (by simpa [notifies] using h)]
  | stop => cases h
  | setStep on => rfl

theorem state_enterCheckpoint (h : control.pausesItself = false) :
    control.enterCheckpoint.state = control.state := by
  rw [enterCheckpoint]
  split
  · rename_i hStep
    exact state_apply (by simpa [pausesItself, notifies, hStep] using h)
  · rfl

end Control

namespace Run
variable {ev : Evaluator Id} {r : Run}

theorem control_moveTo_none (s : Simulation) (location : Location) :
    (r.moveTo Reaction.none s location).control = r.control := by
  have hNone : ∀ (events : List Event) (control : Control),
      (events.map Reaction.none).foldl Control.applyAll control = control := by
    intro events control
    induction events with
    | nil => rfl
    | cons e rest ih => exact ih
  exact hNone _ _

/-- Apart from its own pause the driver leaves the state as it is. -/
theorem state_next (h : r.location = .checkpoint → r.control.pausesItself = false) :
    (r.next Reaction.none ev).control.state = r.control.state := by
  rw [next]
  split
  · dsimp only
    split <;> rfl
  · split
    · rw [finish, control_moveTo_none]
    · rfl
  · split
    · rw [finish, control_moveTo_none]
    · split
      · rw [control_moveTo_none]
      · rw [finish, control_moveTo_none, control_moveTo_none]
      · rw [control_moveTo_none]
  · split <;> rw [control_moveTo_none]
  · rename_i hAt
    exact Control.state_enterCheckpoint (h hAt)
  · rfl
  · split
    · rfl
    · rfl
    · rw [finish, control_moveTo_none]
  · rfl

/-- The driver comes to a wait from its checkpoint only and leaves it when nothing blocks it. -/
theorem pausing_of_next (h : (r.next Reaction.none ev).pausing = true) :
    r.location = .checkpoint ∨ r.location = .delay ∨ r.location = .parked ∧ r.blocked = true := by
  rw [next] at h
  split at h
  · cases h
  · split at h <;> cases h
  · split at h
    · cases h
    · split at h <;> cases h
  · split at h <;> cases h
  · rename_i hAt
    exact .inl hAt
  · rename_i hAt
    exact .inr (.inl hAt)
  · rename_i hAt
    split at h
    · cases h
    · rename_i hPaused
      exact .inr (.inr ⟨hAt, by simp [blocked, hAt, hPaused]⟩)
    · cases h
  · rename_i hAt
    rw [pausing, hAt] at h
    cases h

end Run

namespace Monitor
variable {ι : Type} {m m' : Monitor ι} {ev : Evaluator Id}

theorem sound_start (r : Run) : (start r : Monitor ι).Sound := ⟨nofun, nofun⟩

theorem waits_of_state (hState : m'.run.control.state = m.run.control.state) {t : Thread ι}
    (hAt : t = .driver → m'.run.location = m.run.location) (h : m.waits t = true) :
    m'.waits t = true := by
  cases t with
  | driver => rwa [waits, Run.blocked, hAt rfl, hState]
  | caller i => rwa [waits, hState]

/-- As long as the state stays the same and the driver either stays where it is or does not sleep,
those who sleep still have reason to. -/
theorem Sound.sleeps_of_state (h : m.Sound)
    (hQuiet : ∀ t rest, m.holder ≠ some (t, .notify rest))
    (hState : m'.run.control.state = m.run.control.state)
    (hRest : ∀ t, m'.rest t = .asleep → m.rest t = .asleep)
    (hAt : m'.run.location = m.run.location ∨ m.rest .driver = .awake) (t : Thread ι)
    (hAsleep : m'.rest t = .asleep) : m'.waits t = true := by
  refine waits_of_state hState ?_ (h.sleeps hQuiet t (hRest t hAsleep))
  rintro rfl
  refine hAt.resolve_right fun hAwake => ?_
  rw [hRest _ hAsleep] at hAwake
  cases hAwake

/-- A thread that keeps the mutex and goes on to another task must notify if it changes the state. -/
theorem Sound.of_holds (h : m.Sound) {t : Thread ι} {task task' : Task}
    (hHolds : m.holder = some (t, task)) (hTask : ∀ rest, task ≠ .notify rest)
    (hAfter : m'.holder = some (t, task')) (hRest : m'.rest = m.rest)
    (hState : (∀ rest, task' ≠ .notify rest) →
      m'.run.control.state = m.run.control.state)
    (hAt : m'.run.location = m.run.location ∨ t = .driver) : m'.Sound where
  holds hU := by
    obtain ⟨rfl, _⟩ := Prod.mk.inj (Option.some.inj (hAfter.symm.trans hU))
    rw [hRest]
    exact h.holds hHolds
  sleeps hQuiet := by
    refine h.sleeps_of_state ?_ (hState ?_) (fun u => by rw [hRest]; exact id) ?_
    · rintro u rest hU
      exact hTask rest (Prod.mk.inj (Option.some.inj (hHolds.symm.trans hU))).2
    · rintro rest rfl
      exact hQuiet t rest hAfter
    · refine hAt.imp_right ?_
      rintro rfl
      exact h.holds hHolds

variable [DecidableEq ι]

theorem asleep_of_update {t u : Thread ι} {now : Rest} (hNow : now ≠ .asleep)
    (h : Function.update m.rest t now u = .asleep) : m.rest u = .asleep := by
  by_cases hSame : u = t
  · subst hSame
    rw [Function.update_self] at h
    exact absurd h hNow
  · rwa [Function.update_of_ne hSame] at h

theorem Sound.step (h : m.Sound) (hStep : Step ev m m') : m'.Sound := by
  cases hStep with
  | lock hFree hAwake hBegins =>
    refine ⟨fun hHolds => ?_, fun _ => h.sleeps_of_state ?_ rfl (fun _ => id) (.inl rfl)⟩
    · cases hHolds
      exact hAwake
    · simp [hFree]
  | relock hFree hWoken =>
    refine ⟨fun hHolds => ?_, fun _ => h.sleeps_of_state ?_ rfl (fun _ => asleep_of_update nofun)
      (.inl rfl)⟩
    · cases hHolds
      exact Function.update_self ..
    · simp [hFree]
  | @apply t c hHolds =>
    refine h.of_holds hHolds nofun rfl rfl (fun hQuiet => ?_) (.inl rfl)
    refine Control.state_apply (Bool.eq_false_of_not_eq_true fun hNotifies => ?_)
    exact hQuiet .leave (if_pos hNotifies)
  | @notify t rest hHolds =>
    have hNobody : ∀ u, (if m.rest u = .asleep then Rest.woken else m.rest u) ≠ .asleep := by
      intro u
      split
      · exact nofun
      · assumption
    refine ⟨fun hU => ?_, fun _ u hAsleep => absurd hAsleep (hNobody u)⟩
    obtain ⟨rfl, _⟩ := Prod.mk.inj (Option.some.inj hU)
    simp [h.holds hHolds]
  | leave hHolds =>
    exact ⟨nofun, fun _ => h.sleeps_of_state (by simp [hHolds]) rfl (fun _ => id) (.inl rfl)⟩
  | @sleep t hHolds hWaits =>
    refine ⟨nofun, fun _ u hAsleep => ?_⟩
    by_cases hSame : u = t
    · subst hSame
      exact waits_of_state rfl (fun _ => rfl) hWaits
    · dsimp only at hAsleep
      rw [Function.update_of_ne hSame] at hAsleep
      exact waits_of_state rfl (fun _ => rfl) (h.sleeps (by simp [hHolds]) u hAsleep)
  | @timeOut t hAsleep hLimit =>
    refine ⟨fun {u job} hHolds => ?_, fun hQuiet => h.sleeps_of_state hQuiet rfl
      (fun _ => asleep_of_update nofun) (.inl rfl)⟩
    have hAwake : m.rest u = .awake := h.holds hHolds
    have hOther : u ≠ t := by
      rintro rfl
      cases hAwake.symm.trans hAsleep
    exact (Function.update_of_ne hOther ..).trans hAwake
  | answer hHolds => exact h.of_holds hHolds nofun rfl rfl (fun _ => rfl) (.inl rfl)
  | pass hHolds hAt =>
    refine h.of_holds hHolds nofun rfl rfl (fun _ => Run.state_next fun hCheckpoint => ?_) (.inr rfl)
    simp [hCheckpoint] at hAt
  | enter hHolds hAt =>
    refine h.of_holds hHolds nofun rfl rfl (fun hQuiet => Run.state_next fun _ => ?_) (.inr rfl)
    exact Bool.eq_false_of_not_eq_true fun hPauses => hQuiet .test (if_pos hPauses)
  | endDelay hHolds hAt =>
    refine h.of_holds hHolds nofun hHolds rfl (fun _ => Run.state_next fun hCheckpoint => ?_)
      (.inr rfl)
    cases hAt.symm.trans hCheckpoint
  | depart hHolds hAt hFree =>
    refine h.of_holds hHolds nofun rfl rfl (fun _ => Run.state_next fun hCheckpoint => ?_) (.inr rfl)
    cases hAt.symm.trans hCheckpoint
  | proceed hAwake hElse hApart =>
    refine ⟨h.holds, fun hQuiet => h.sleeps_of_state hQuiet
      (Run.state_next fun hCheckpoint => ?_) (fun _ => id) (.inr hAwake)⟩
    simp [Run.apart, hCheckpoint] at hApart

theorem Rests.step (h : m.Rests) (hStep : Step ev m m') : m'.Rests := by
  intro hAt hAwake
  cases hStep with
  | lock hFree =>
    have hHolder := h hAt hAwake
    simp [hFree] at hHolder
  | @relock t hFree =>
    cases t with
    | driver => exact .inl rfl
    | caller i =>
      have hHolder := h hAt hAwake
      simp [hFree] at hHolder
  | apply hHolds | leave hHolds | answer hHolds =>
    have hHolder := h hAt hAwake
    simp [hHolds] at hHolder
  | @notify t rest hHolds =>
    have hStill : m.rest .driver = .awake := by
      dsimp only at hAwake
      split at hAwake
      · cases hAwake
      · exact hAwake
    have hHolder := h hAt hStill
    simp only [hHolds, Option.some.injEq, Prod.mk.injEq, reduceCtorEq, and_false, false_or,
      Task.notify.injEq] at hHolder
    obtain ⟨rfl, rfl⟩ := hHolder
    exact .inl rfl
  | @sleep t hHolds hWaits =>
    cases t with
    | driver => cases hAwake
    | caller i =>
      have hHolder := h hAt hAwake
      simp [hHolds] at hHolder
  | @timeOut t hAsleep hLimit =>
    cases t with
    | driver => cases hAwake
    | caller i => exact h hAt hAwake
  | pass hHolds hFrom =>
    rcases Run.pausing_of_next hAt with hThere | hThere | ⟨hThere, _⟩ <;> simp [hThere] at hFrom
  | enter hHolds hFrom =>
    cases hPauses : m.run.control.pausesItself <;> simp
  | endDelay hHolds hFrom => exact .inl hHolds
  | depart hHolds hFrom hFree =>
    rcases Run.pausing_of_next hAt with hThere | hThere | ⟨_, hBlocked⟩
    · cases hFrom.symm.trans hThere
    · cases hFrom.symm.trans hThere
    · cases hFree.symm.trans hBlocked
  | proceed _ hElse hApart =>
    rcases Run.pausing_of_next hAt with hThere | hThere | ⟨hThere, _⟩ <;>
      simp [Run.apart, hThere] at hApart

theorem sound_of_steps {r : Run} (h : Relation.ReflTransGen (Step ev) (start r) m) : m.Sound := by
  induction h with
  | refl => exact sound_start r
  | tail _ hStep ih => exact ih.step hStep

theorem rests_of_steps {r : Run} (hAt : r.pausing = false)
    (h : Relation.ReflTransGen (Step ev) (start r) m) : m.Rests := by
  induction h with
  | refl => exact fun hPausing => by cases hAt.symm.trans hPausing
  | tail _ hStep ih => exact ih.step hStep

/-- To the run every step of a thread is a move of its own, a command or nothing. -/
theorem Step.moves (h : Step ev m m') : ∃ moves, m'.run = m.run.play ev moves := by
  cases h with
  | apply => exact ⟨[.command _], rfl⟩
  | pass => exact ⟨[.step Reaction.none], rfl⟩
  | enter => exact ⟨[.step Reaction.none], rfl⟩
  | endDelay => exact ⟨[.step Reaction.none], rfl⟩
  | depart => exact ⟨[.step Reaction.none], rfl⟩
  | proceed => exact ⟨[.step Reaction.none], rfl⟩
  | _ => exact ⟨[], rfl⟩

theorem moves_of_steps {r : Run} (h : Relation.ReflTransGen (Step ev) (start r) m) :
    ∃ moves, m.run = r.play ev moves := by
  induction h with
  | refl => exact ⟨[], rfl⟩
  | tail _ hStep ih =>
    obtain ⟨moves, hMoves⟩ := ih
    obtain ⟨more, hMore⟩ := hStep.moves
    refine ⟨moves ++ more, ?_⟩
    rw [hMore, hMoves, Run.play_append]

/-- Whenever nobody has the mutex, everybody who sleeps and has not been notified sleeps on a
condition that holds, however many callers there are and whatever the threads have done so far; and
the driver in the middle of its checkpoint sleeps, or is to have the mutex again. -/
theorem sleeps_on_condition (ev : Evaluator Id) (s : Simulation) (control : Control)
    {m : Monitor ι} (h : Relation.ReflTransGen (Step ev) (start (Run.start s control)) m) :
    (∃ moves, m.run = (Run.start s control).play ev moves) ∧
    (m.holder = none →
      (m.rest .driver = .asleep →
        m.run.location = .delay ∧ m.run.control.state = .running ∨
          m.run.location = .parked ∧ m.run.control.state = .paused) ∧
      (∀ i, m.rest (.caller i) = .asleep → m.run.control.state = .running) ∧
      (m.run.pausing = true → m.rest .driver = .asleep ∨ m.rest .driver = .woken)) := by
  have hSound : m.Sound := sound_of_steps h
  have hRests : m.Rests := rests_of_steps rfl h
  refine ⟨moves_of_steps h, fun hFree => ?_⟩
  have hWaits : ∀ t, m.rest t = .asleep → m.waits t = true := hSound.sleeps (by simp [hFree])
  refine ⟨fun hAsleep => ?_, fun i hAsleep => eq_of_beq (hWaits _ hAsleep), fun hPausing => ?_⟩
  · have hBlocked : m.run.blocked = true := hWaits _ hAsleep
    rw [Run.blocked] at hBlocked
    split at hBlocked
    · rename_i hAt
      exact .inl ⟨hAt, eq_of_beq hBlocked⟩
    · rename_i hAt
      exact .inr ⟨hAt, eq_of_beq hBlocked⟩
    · cases hBlocked
  · cases hDriver : m.rest .driver with
    | awake =>
      have hHolder := hRests hPausing hDriver
      simp [hFree] at hHolder
    | asleep => exact .inl rfl
    | woken => exact .inr rfl

/-- The relay, stepping, after so many steps of its driver. -/
def relayAfter : Nat → Run
  | 0 => Run.start relayStart { step := true }
  | n + 1 => (relayAfter n).next Reaction.none unhurried

/-- One caller sleeps and the driver does not. -/
def callerAsleep : Thread Unit → Rest := Function.update (fun _ => .awake) (.caller ()) .asleep

/-- A caller waits while the run is running; the driver fires, pauses itself at its checkpoint, wakes
the caller and goes to sleep there. -/
theorem sleeps_on_condition_relay : ∃ m : Monitor Unit,
    Relation.ReflTransGen (Step unhurried) (start (relayAfter 0)) m ∧
      m.run.simulation.firings = 1 ∧ m.holder = none ∧ m.rest (.caller ()) = .woken ∧
      m.rest .driver = .asleep ∧ m.run.location = .parked ∧ m.run.control.state = .paused := by
  have hWaits : Relation.ReflTransGen (Step unhurried) (start (relayAfter 0))
      ⟨relayAfter 0, none, callerAsleep⟩ :=
    (Relation.ReflTransGen.refl.tail (.lock rfl rfl (.wait ()))).tail (.sleep rfl rfl)
  have hPasses : Relation.ReflTransGen (Step unhurried) (start (relayAfter 0))
      ⟨relayAfter 2, none, callerAsleep⟩ :=
    (((hWaits.tail (.proceed rfl nofun rfl)).tail (.lock rfl rfl (.advance rfl))).tail
      (.pass rfl (.inr rfl))).tail (.leave rfl)
  have hChecks : (relayAfter 2).apart = true := rfl
  have hDue : (relayAfter 3).apart = true := rfl
  have hFires : Relation.ReflTransGen (Step unhurried) (start (relayAfter 0))
      ⟨relayAfter 4, none, callerAsleep⟩ :=
    (hPasses.tail (.proceed rfl nofun hChecks)).tail (.proceed rfl nofun hDue)
  have hFired : relayAfter 4 = (relayAfter 3).moveTo .none relayDone .checkpoint :=
    Run.next_of_fired .none rfl relayDue_fireRandom
  have hParked : relayAfter 5 = ⟨relayDone, { state := .paused, step := true }, .parked⟩ :=
    congrArg (Run.next Reaction.none unhurried) hFired
  have hAt : (relayAfter 4).location = .checkpoint := by rw [hFired]; rfl
  have hLocks : (relayAfter 4).locks = true := by rw [hFired]; rfl
  have hPauses : (relayAfter 4).control.pausesItself = true := by rw [hFired]; rfl
  have hParks : (relayAfter 5).blocked = true := by rw [hParked]; rfl
  have hEnters : Relation.ReflTransGen (Step unhurried) (start (relayAfter 0))
      ⟨relayAfter 5, some (.driver, .notify .test), callerAsleep⟩ := by
    have hStep := (hFires.tail (.lock rfl rfl (.advance hLocks))).tail (.enter rfl hAt)
    rwa [if_pos hPauses] at hStep
  have hSleeps := (hEnters.tail (.notify rfl)).tail (.sleep rfl hParks)
  obtain ⟨_, hFree⟩ := sleeps_on_condition _ _ _ hSleeps
  obtain ⟨hDriver, _⟩ := hFree rfl
  rcases hDriver rfl with ⟨hDelay, _⟩ | hCheckpoint
  · rw [hParked] at hDelay
    cases hDelay
  · exact ⟨_, hSleeps, congrArg (fun r => r.simulation.firings) hParked, rfl, rfl, rfl, hCheckpoint⟩

end Monitor
end Petri
