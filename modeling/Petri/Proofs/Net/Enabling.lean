import Petri.Proofs.Net.Firing
import Petri.Proofs.Net.Reachable

/-! # Checking whether a transition is enabled

A check asks the evaluator about the guard, and when the guard holds about one input arc after another
until an arc does not pass. Which questions these are is told by their answers alone, and the first
that cannot be answered is what the check fails with.
-/
namespace Petri
set_option autoImplicit false

theorem TokenBag.ready_iff {clock : Time} {bag : TokenBag} :
    ready clock bag = true ↔ (∀ t ∈ bag, t.time = 0) ∨ ∃ t ∈ bag, t.time ≤ clock := by
  simp [ready, Token.timed, Token.available]

theorem Place.headroom_iff {p : Place} :
    p.headroom = true ↔ (0 < p.capacity → p.tokens.length < p.capacity) := by
  simp [headroom, fits, bounded, imp_iff_not_or]

/-- A question about the guard of a transition, or about one of its input arcs. -/
structure Inquiry where
  arc : Option String
  text : String
  context : Context

namespace Inquiry

def ofGuard (t : Transition) (clock : Time) : Inquiry := ⟨none, t.guard, ⟨clock, t.id, none⟩⟩

def ofArc (net : Net) (transition : String) (clock : Time) (a : InputArc) : Inquiry :=
  ⟨some a.id, a.evaluate, ⟨clock, transition, some (net.tokensAt a.place)⟩⟩

def query (q : Inquiry) : Query := .evaluate q.text q.context

def answer (ev : Evaluator Id) (q : Inquiry) : Except EvalError Bool := ev.evaluate q.text q.context

/-- What a check fails with when the question cannot be answered. -/
def failure (q : Inquiry) (cause : EvalError) : RunError :=
  .evaluation q.context.transition q.arc .evaluating cause

theorem answer_ofGuard (ev : Evaluator Id) (t : Transition) (clock : Time) :
    (ofGuard t clock).answer ev = ev.evaluate t.guard ⟨clock, t.id, none⟩ := rfl

theorem answer_ofArc (ev : Evaluator Id) (net : Net) (transition : String) (clock : Time)
    (a : InputArc) : (ofArc net transition clock a).answer ev =
      ev.evaluate a.evaluate ⟨clock, transition, some (net.tokensAt a.place)⟩ := rfl

end Inquiry

namespace Net

/-- Whether an input arc lets its transition pass: its predicate holds, and the tokens are ready. -/
def passes (ev : Evaluator Id) (net : Net) (transition : String) (clock : Time) (a : InputArc) :
    Bool :=
  match (Inquiry.ofArc net transition clock a).answer ev with
  | .ok accepted => accepted && TokenBag.ready clock (net.tokensAt a.place)
  | .error _ => false

/-- The arcs that are asked about: those that pass, up to the first that does not, and this one. -/
def scanned (ev : Evaluator Id) (net : Net) (transition : String) (clock : Time)
    (arcs : List InputArc) : List InputArc :=
  let passing := net.passes ev transition clock
  arcs.takeWhile passing ++ (arcs.dropWhile passing).take 1

def inquiries (ev : Evaluator Id) (net : Net) (t : Transition) (clock : Time) : List Inquiry :=
  .ofGuard t clock ::
    match (Inquiry.ofGuard t clock).answer ev with
    | .ok true =>
      (net.scanned ev t.id clock (net.inputsOf t.id)).map (Inquiry.ofArc net t.id clock)
    | _ => []

/-- What it means for a transition to be enabled. An empty input place is as ready as one without
timed tokens. -/
structure Enables (ev : Evaluator Id) (net : Net) (t : Transition) (clock : Time) : Prop where
  guard : ev.evaluate t.guard ⟨clock, t.id, none⟩ = .ok true
  inputs : ∀ a ∈ net.inputsOf t.id, ∃ p ∈ net.places, p.id = a.place ∧
    ev.evaluate a.evaluate ⟨clock, t.id, some p.tokens⟩ = .ok true ∧
    ((∀ x ∈ p.tokens, x.time = 0) ∨ ∃ x ∈ p.tokens, x.time ≤ clock)
  outputs : ∀ a ∈ net.outputsOf t.id, ∃ p ∈ net.places, p.id = a.place ∧
    (0 < p.capacity → p.tokens.length < p.capacity)

section Arcs
variable (ev : Evaluator Id) (net : Net) (transition : String) (clock : Time)

theorem scanned_cons (a : InputArc) (rest : List InputArc) :
    net.scanned ev transition clock (a :: rest) =
      a :: if net.passes ev transition clock a then net.scanned ev transition clock rest else [] := by
  rw [scanned, List.takeWhile_cons, List.dropWhile_cons]
  split
  · rw [List.cons_append, ← scanned]
  · rw [List.nil_append, List.take_succ_cons, List.take_zero]

theorem run_accepts_cons (a : InputArc) (rest : List InputArc) :
    (net.accepts ev transition clock (a :: rest)).run =
      match (Inquiry.ofArc net transition clock a).answer ev with
      | .error cause => .error ((Inquiry.ofArc net transition clock a).failure cause)
      | .ok accepted =>
        if accepted && TokenBag.ready clock (net.tokensAt a.place) then
          (net.accepts ev transition clock rest).run
        else .ok false := by
  rw [accepts, run_ask_bind, Inquiry.answer_ofArc]
  cases ev.evaluate a.evaluate ⟨clock, transition, some (net.tokensAt a.place)⟩ with
  | error cause => rfl
  | ok accepted =>
    dsimp only
    split <;> rfl

theorem accepts_eq_true_iff (arcs : List InputArc) :
    (net.accepts ev transition clock arcs).run = .ok true ↔
      ∀ a ∈ arcs, net.passes ev transition clock a = true := by
  induction arcs with
  | nil => exact iff_of_true rfl (List.forall_mem_nil _)
  | cons a rest ih =>
    rw [run_accepts_cons, List.forall_mem_cons, ← ih, passes]
    cases (Inquiry.ofArc net transition clock a).answer ev with
    | error cause => exact iff_of_false nofun fun h => Bool.false_ne_true h.1
    | ok accepted =>
      dsimp only
      split
      · rename_i hPasses
        exact (and_iff_right hPasses).symm
      · rename_i hPasses
        exact iff_of_false nofun fun h => hPasses h.1

theorem accepts_eq_error_iff (arcs : List InputArc) {e : RunError} :
    (net.accepts ev transition clock arcs).run = .error e ↔
      ∃ a ∈ net.scanned ev transition clock arcs, ∃ cause,
        (Inquiry.ofArc net transition clock a).answer ev = .error cause ∧
        e = (Inquiry.ofArc net transition clock a).failure cause := by
  induction arcs with
  | nil =>
    constructor
    · intro hNot
      cases hNot
    · rintro ⟨a, ha, _⟩
      cases ha
  | cons a rest ih =>
    rw [run_accepts_cons, scanned_cons, passes]
    simp only [List.mem_cons, exists_eq_or_imp]
    cases hAnswer : (Inquiry.ofArc net transition clock a).answer ev with
    | error cause =>
      constructor
      · rintro ⟨⟩
        exact .inl ⟨cause, rfl, rfl⟩
      · rintro (⟨_, hCause, rfl⟩ | ⟨b, hb, _⟩)
        · cases hCause
          rfl
        · cases hb
    | ok accepted =>
      dsimp only
      split
      · rw [ih]
        simp
      · constructor
        · intro hNot
          cases hNot
        · simp

end Arcs

/-! ## What is asked -/

section Recording
variable (ev : Evaluator Id)

/-- A question that is noted down is answered as it would be otherwise. -/
theorem run_recording_ask_bind {α : Type} (q : Inquiry)
    (f : Bool → ExceptT RunError (StateT (List Query) Id) α) (log : List Query) :
    (Evaluator.ask q.context.transition q.arc .evaluating
        (ev.recording.evaluate q.text q.context) >>= f).run.run log =
      match q.answer ev with
      | .error cause => (.error (q.failure cause), log ++ [q.query])
      | .ok answer => (f answer).run.run (log ++ [q.query]) := by
  rw [Inquiry.answer]
  simp only [Evaluator.ask, Evaluator.recording, ExceptT.run_bind, ExceptT.run_mk, StateT.run_bind,
    StateT.run_modify, StateT.run_monadLift]
  cases ev.evaluate q.text q.context <;> rfl

variable (net : Net) (clock : Time)

theorem run_recording_accepts (transition : String) (arcs : List InputArc) (log : List Query) :
    (net.accepts ev.recording transition clock arcs).run.run log =
      ((net.accepts ev transition clock arcs).run,
        log ++ ((net.scanned ev transition clock arcs).map
          (Inquiry.ofArc net transition clock)).map Inquiry.query) := by
  induction arcs generalizing log with
  | nil => exact Prod.ext rfl (List.append_nil log).symm
  | cons a rest ih =>
    rw [run_accepts_cons, scanned_cons, passes, accepts]
    refine (run_recording_ask_bind ev (.ofArc net transition clock a) _ log).trans ?_
    cases (Inquiry.ofArc net transition clock a).answer ev with
    | error cause => rfl
    | ok accepted =>
      dsimp only
      split
      · exact (ih _).trans (Prod.ext rfl (List.append_assoc _ _ _))
      · rfl

end Recording

/-! ## What is decided -/

section Decision
variable {ev : Evaluator Id} {net : Net} {t : Transition} {clock : Time}

theorem run_enabled (ht : net.transition? t.id = some t) :
    (net.enabled ev t.id clock).run =
      match (Inquiry.ofGuard t clock).answer ev with
      | .error cause => .error ((Inquiry.ofGuard t clock).failure cause)
      | .ok false => .ok false
      | .ok true =>
        match (net.accepts ev t.id clock (net.inputsOf t.id)).run with
        | .error e => .error e
        | .ok accepted => .ok (accepted && net.headroom t.id) := by
  rw [enabled, ht, Inquiry.answer_ofGuard]
  dsimp only
  rw [run_ask_bind]
  cases ev.evaluate t.guard ⟨clock, t.id, none⟩ with
  | error cause => rfl
  | ok holds =>
    cases holds with
    | false => rfl
    | true =>
      dsimp only
      rw [if_pos rfl, run_bind]
      cases (net.accepts ev t.id clock (net.inputsOf t.id)).run <;> rfl

theorem run_recording_enabled (ht : net.transition? t.id = some t) (log : List Query) :
    (net.enabled ev.recording t.id clock).run.run log =
      ((net.enabled ev t.id clock).run, log ++ (net.inquiries ev t clock).map Inquiry.query) := by
  rw [run_enabled ht, enabled, ht]
  refine (run_recording_ask_bind ev (.ofGuard t clock) _ log).trans ?_
  rw [inquiries]
  cases (Inquiry.ofGuard t clock).answer ev with
  | error cause => rfl
  | ok holds =>
    cases holds with
    | false => rfl
    | true =>
      dsimp only
      have hAccepts := run_recording_accepts ev net clock t.id (net.inputsOf t.id)
        (log ++ [(Inquiry.ofGuard t clock).query])
      rw [if_pos rfl, ExceptT.run_bind, StateT.run_bind, hAccepts]
      have hLog := List.append_assoc log [(Inquiry.ofGuard t clock).query]
      cases (net.accepts ev t.id clock (net.inputsOf t.id)).run with
      | error e => exact Prod.ext rfl (hLog _)
      | ok accepted => exact Prod.ext rfl (hLog _)

theorem tokensAt_of_input (hNet : net.WellFormed) {transition : String} {a : InputArc}
    (ha : a ∈ net.inputsOf transition) :
    ∃ p ∈ net.places, p.id = a.place ∧ net.tokensAt a.place = p.tokens := by
  obtain ⟨p, hPlace⟩ := hNet.place_of_input ha
  obtain ⟨hp, hId⟩ := mem_of_place? hPlace
  exact ⟨p, hp, hId, by rw [← hId, hNet.tokensAt_of_mem hp]⟩

theorem passes_eq_true_iff {transition : String} {a : InputArc} :
    net.passes ev transition clock a = true ↔
      ev.evaluate a.evaluate ⟨clock, transition, some (net.tokensAt a.place)⟩ = .ok true ∧
      ((∀ x ∈ net.tokensAt a.place, x.time = 0) ∨ ∃ x ∈ net.tokensAt a.place, x.time ≤ clock) := by
  rw [passes, Inquiry.answer_ofArc, ← TokenBag.ready_iff]
  cases ev.evaluate a.evaluate ⟨clock, transition, some (net.tokensAt a.place)⟩ with
  | error cause => exact iff_of_false Bool.false_ne_true fun h => nomatch h.1
  | ok accepted =>
    dsimp only
    rw [Bool.and_eq_true]
    exact and_congr_left' ⟨fun h => congrArg _ h, fun h => Except.ok.inj h⟩

theorem headroom_eq_true_iff (hNet : net.WellFormed) {transition : String} :
    net.headroom transition = true ↔ ∀ a ∈ net.outputsOf transition, ∃ p ∈ net.places,
      p.id = a.place ∧ (0 < p.capacity → p.tokens.length < p.capacity) := by
  rw [headroom, List.all_eq_true]
  refine forall₂_congr fun a ha => ?_
  obtain ⟨p, hPlace⟩ := hNet.place_of_output ha
  obtain ⟨hp, hId⟩ := mem_of_place? hPlace
  rw [hPlace, Option.all_some, Place.headroom_iff]
  constructor
  · intro hRoom
    exact ⟨p, hp, hId, hRoom⟩
  · rintro ⟨q, hq, hSame, hRoom⟩
    have hFound := place?_of_mem hNet.nodup hq
    rw [hSame, hPlace] at hFound
    cases hFound
    exact hRoom

theorem run_enabled_eq_true_iff (ht : net.transition? t.id = some t) :
    (net.enabled ev t.id clock).run = .ok true ↔
      (Inquiry.ofGuard t clock).answer ev = .ok true ∧
      (∀ a ∈ net.inputsOf t.id, net.passes ev t.id clock a = true) ∧ net.headroom t.id = true := by
  rw [run_enabled ht, ← accepts_eq_true_iff]
  cases (Inquiry.ofGuard t clock).answer ev with
  | error cause => exact iff_of_false nofun fun h => nomatch h.1
  | ok holds =>
    cases holds with
    | false => exact iff_of_false nofun fun h => nomatch h.1
    | true =>
      dsimp only
      cases (net.accepts ev t.id clock (net.inputsOf t.id)).run with
      | error e => exact iff_of_false nofun fun h => nomatch h.2.1
      | ok accepted =>
        constructor
        · intro hEnabled
          obtain ⟨rfl, hHeadroom⟩ := (Bool.and_eq_true _ _).mp (Except.ok.inj hEnabled)
          exact ⟨rfl, rfl, hHeadroom⟩
        · rintro ⟨_, hAccepted, hHeadroom⟩
          cases hAccepted
          rw [hHeadroom]
          rfl

theorem enabled_eq_true_iff (hNet : net.WellFormed) (ht : t ∈ net.transitions) :
    (net.enabled ev t.id clock).run = .ok true ↔ net.Enables ev t clock := by
  have hInputs : (∀ a ∈ net.inputsOf t.id, net.passes ev t.id clock a = true) ↔
      ∀ a ∈ net.inputsOf t.id, ∃ p ∈ net.places, p.id = a.place ∧
        ev.evaluate a.evaluate ⟨clock, t.id, some p.tokens⟩ = .ok true ∧
        ((∀ x ∈ p.tokens, x.time = 0) ∨ ∃ x ∈ p.tokens, x.time ≤ clock) := by
    refine forall₂_congr fun a ha => ?_
    rw [passes_eq_true_iff]
    constructor
    · intro hPasses
      obtain ⟨p, hp, hId, hTokens⟩ := tokensAt_of_input hNet ha
      rw [hTokens] at hPasses
      exact ⟨p, hp, hId, hPasses⟩
    · rintro ⟨p, hp, hId, hPasses⟩
      rwa [← hId, hNet.tokensAt_of_mem hp]
  rw [run_enabled_eq_true_iff (transition?_of_mem hNet.nodup ht), hInputs,
    headroom_eq_true_iff hNet]
  constructor
  · rintro ⟨hGuard, hArcs, hRoom⟩
    exact ⟨hGuard, hArcs, hRoom⟩
  · rintro ⟨hGuard, hArcs, hRoom⟩
    exact ⟨hGuard, hArcs, hRoom⟩

theorem enabled_eq_error_iff (ht : net.transition? t.id = some t) {e : RunError} :
    (net.enabled ev t.id clock).run = .error e ↔
      ∃ q ∈ net.inquiries ev t clock, ∃ cause, q.answer ev = .error cause ∧ e = q.failure cause := by
  rw [run_enabled ht, inquiries]
  simp only [List.mem_cons, exists_eq_or_imp]
  cases hGuard : (Inquiry.ofGuard t clock).answer ev with
  | error cause =>
    constructor
    · rintro ⟨⟩
      exact .inl ⟨cause, rfl, rfl⟩
    · rintro (⟨_, hCause, rfl⟩ | ⟨_, hq, _⟩)
      · cases hCause
        rfl
      · cases hq
  | ok holds =>
    cases holds with
    | false =>
      constructor
      · intro hNot
        cases hNot
      · simp
    | true =>
      dsimp only
      have hArcs := accepts_eq_error_iff (e := e) ev net t.id clock (net.inputsOf t.id)
      cases hAccepts : (net.accepts ev t.id clock (net.inputsOf t.id)).run with
      | error e' =>
        rw [hAccepts] at hArcs
        refine hArcs.trans ?_
        simp
      | ok accepted =>
        rw [hAccepts] at hArcs
        constructor
        · intro hNot
          cases hNot
        · intro hFails
          cases hArcs.mpr (by simpa using hFails)

/-- What a check of a transition asks and decides. It asks about the guard and, if that holds, about the
input arcs one after another, each with the tokens that its place has, up to the first that does not
pass; it asks for no inscription. The transition is enabled just when guard, arcs and places all allow
it, the check fails just when one of its questions cannot be answered, and else the answer is no. -/
theorem enabled_exact (hNet : net.Reachable) (ev : Evaluator Id) {t : Transition}
    (ht : t ∈ net.transitions) (clock : Time) :
    (∀ a ∈ net.inputsOf t.id, ∃ p ∈ net.places, p.id = a.place ∧ net.tokensAt a.place = p.tokens) ∧
    (∀ log, (net.enabled ev.recording t.id clock).run.run log =
      ((net.enabled ev t.id clock).run, log ++ (net.inquiries ev t clock).map Inquiry.query)) ∧
    ((net.enabled ev t.id clock).run = .ok true ↔ net.Enables ev t clock) ∧
    (∀ e, (net.enabled ev t.id clock).run = .error e ↔ ∃ q ∈ net.inquiries ev t clock, ∃ cause,
      q.answer ev = .error cause ∧ e = q.failure cause) ∧
    ((net.enabled ev t.id clock).run = .ok false ↔ ¬ net.Enables ev t clock ∧
      ∀ q ∈ net.inquiries ev t clock, ∃ holds, q.answer ev = .ok holds) := by
  have hWell := hNet.wellFormed
  have hFound := transition?_of_mem hWell.nodup ht
  have hTrue : (net.enabled ev t.id clock).run = .ok true ↔ net.Enables ev t clock :=
    enabled_eq_true_iff hWell ht
  have hError (e : RunError) : (net.enabled ev t.id clock).run = .error e ↔ _ :=
    enabled_eq_error_iff hFound
  refine ⟨fun a ha => tokensAt_of_input hWell ha, fun log => run_recording_enabled hFound log,
    hTrue, hError, ?_⟩
  rw [← hTrue]
  constructor
  · intro hFalse
    refine ⟨fun h => ?_, fun q hq => ?_⟩
    · cases hFalse.symm.trans h
    · cases hAnswer : q.answer ev with
      | ok holds => exact ⟨holds, rfl⟩
      | error cause => cases hFalse.symm.trans ((hError _).mpr ⟨q, hq, cause, hAnswer, rfl⟩)
  · rintro ⟨hNot, hAnswered⟩
    cases hRun : (net.enabled ev t.id clock).run with
    | ok isEnabled =>
      cases isEnabled with
      | false => rfl
      | true => exact absurd hRun hNot
    | error e =>
      obtain ⟨q, hq, cause, hCause, _⟩ := (hError e).mp hRun
      obtain ⟨holds, hHolds⟩ := hAnswered q hq
      cases hCause.symm.trans hHolds

/-- Answers questions about guards only. -/
def guardsOnly : Evaluator Id where
  evaluate _ context := if context.tokens.isNone then .ok true else .error (.noPlace "size")
  execute _ _ := .ok []

/-- A check that fails at the first of two input arcs does not ask about the second. -/
theorem enabled_exact_loop :
    loop.Reachable ∧ ∃ t ∈ loop.transitions,
      ((loop.enabled guardsOnly.recording t.id 4).run.run []).2 =
        [.evaluate "true" ⟨4, "t", none⟩,
          .evaluate "size() > 0" ⟨4, "t", some loopPlace.tokens⟩] ∧
      (loop.enabled guardsOnly t.id 4).run =
        .error (.evaluation "t" (some "i") .evaluating (.noPlace "size")) ∧
      ¬ loop.Enables guardsOnly t 4 := by
  have ht : { id := "t" } ∈ loop.transitions := List.mem_singleton.mpr rfl
  obtain ⟨_, hAsked, hTrue, hError, _⟩ := enabled_exact loop_reachable guardsOnly ht 4
  have hFails := (hError _).mpr ⟨_, .tail _ (.head _), .noPlace "size", rfl, rfl⟩
  refine ⟨loop_reachable, _, ht, ?_, hFails, fun h => ?_⟩
  · rw [hAsked []]
    rfl
  · cases hFails.symm.trans (hTrue.mpr h)

end Decision
end Net
end Petri
