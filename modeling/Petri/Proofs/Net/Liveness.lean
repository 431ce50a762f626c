import Petri.Interpreter
import Petri.Proofs.Net.Queries
import Petri.Proofs.Net.Reachable

/-! # Which transitions are enabled, and whether any is

Two searches go through the transitions in the order in which they were added. The one for all that
are enabled checks every transition, the one for a sign of life stops at the first that is enabled; so
the second may succeed where the first fails, but never the other way round.
-/
namespace Petri.Net
set_option autoImplicit false

section Checks
variable (ev : Evaluator Id) (net : Net) (clock : Time)

/-- The check of one of these transitions has this answer, and no check before it fails. -/
def Meets (ts : List Transition) (answer : Except RunError Bool) : Prop :=
  ∃ earlier t later, ts = earlier ++ t :: later ∧
    (∀ u ∈ earlier, ∃ isEnabled, (net.enabled ev u.id clock).run = .ok isEnabled) ∧
    (net.enabled ev t.id clock).run = answer

variable {ev net clock}

theorem not_meets_nil {answer : Except RunError Bool} : ¬ net.Meets ev clock [] answer := by
  rintro ⟨earlier, t, later, hSplit, _⟩
  cases earlier <;> cases hSplit

theorem meets_cons_iff {t : Transition} {rest : List Transition} {answer : Except RunError Bool} :
    net.Meets ev clock (t :: rest) answer ↔ (net.enabled ev t.id clock).run = answer ∨
      (∃ isEnabled, (net.enabled ev t.id clock).run = .ok isEnabled) ∧
        net.Meets ev clock rest answer := by
  constructor
  · rintro ⟨earlier, u, later, hSplit, hEarlier, hAnswer⟩
    cases earlier with
    | nil =>
      cases hSplit
      exact .inl hAnswer
    | cons first earlier =>
      cases hSplit
      rw [List.forall_mem_cons] at hEarlier
      exact .inr ⟨hEarlier.1, earlier, u, later, rfl, hEarlier.2, hAnswer⟩
  · rintro (hAnswer | ⟨hFirst, earlier, u, later, rfl, hEarlier, hAnswer⟩)
    · exact ⟨[], t, rest, rfl, List.forall_mem_nil _, hAnswer⟩
    · exact ⟨t :: earlier, u, later, rfl, List.forall_mem_cons.mpr ⟨hFirst, hEarlier⟩, hAnswer⟩

/-! ## All that are enabled -/

theorem of_selectEnabled_eq_ok {ts : List Transition} {ids : List String}
    (h : (net.selectEnabled ev clock ts).run = .ok ids) :
    ids.Sublist (ts.map Transition.id) ∧
      ∀ id, id ∈ ids ↔ id ∈ ts.map Transition.id ∧ (net.enabled ev id clock).run = .ok true := by
  induction ts generalizing ids with
  | nil =>
    cases h
    exact ⟨.slnil, fun id => by simp⟩
  | cons t rest ih =>
    rw [run_selectEnabled_cons] at h
    split at h
    · cases h
    · rename_i isEnabled hFirst
      split at h
      · cases h
      · rename_i others hRest
        obtain ⟨hSublist, hMem⟩ := ih hRest
        cases isEnabled with
        | false =>
          cases h
          refine ⟨hSublist.cons _, fun id => ?_⟩
          rw [if_neg Bool.false_ne_true, hMem, List.map_cons, List.mem_cons]
          refine and_congr_left fun hEnabled => (or_iff_right ?_).symm
          rintro rfl
          cases hFirst.symm.trans hEnabled
        | true =>
          cases h
          refine ⟨hSublist.cons_cons _, fun id => ?_⟩
          rw [if_pos rfl, List.mem_cons, hMem, List.map_cons, List.mem_cons, or_and_right]
          refine or_congr_left (iff_self_and.mpr ?_)
          rintro rfl
          exact hFirst

theorem selectEnabled_eq_error_iff {ts : List Transition} {e : RunError} :
    (net.selectEnabled ev clock ts).run = .error e ↔ net.Meets ev clock ts (.error e) := by
  induction ts with
  | nil => exact iff_of_false nofun not_meets_nil
  | cons t rest ih =>
    rw [run_selectEnabled_cons, meets_cons_iff, ← ih]
    cases (net.enabled ev t.id clock).run with
    | error first =>
      constructor
      · rintro ⟨⟩
        exact .inl rfl
      · rintro (hFirst | ⟨⟨_, hNot⟩, _⟩)
        · cases hFirst
          rfl
        · cases hNot
    | ok isEnabled =>
      cases (net.selectEnabled ev clock rest).run with
      | error later => exact ⟨fun h => .inr ⟨⟨_, rfl⟩, h⟩, fun h => h.elim nofun And.right⟩
      | ok others => exact iff_of_false nofun fun h => h.elim nofun fun h => nomatch h.2

/-! ## Whether any is enabled -/

theorem run_noneEnabled_cons (t : Transition) (rest : List Transition) :
    (net.noneEnabled ev (t :: rest)).run =
      match (net.enabled ev t.id 0).run with
      | .error e => .error e
      | .ok true => .ok false
      | .ok false => (net.noneEnabled ev rest).run := by
  rw [noneEnabled, run_bind]
  cases (net.enabled ev t.id 0).run with
  | error e => rfl
  | ok isEnabled => cases isEnabled <;> rfl

theorem noneEnabled_eq_true_iff {ts : List Transition} :
    (net.noneEnabled ev ts).run = .ok true ↔
      ∀ t ∈ ts, (net.enabled ev t.id 0).run = .ok false := by
  induction ts with
  | nil => exact iff_of_true rfl (List.forall_mem_nil _)
  | cons t rest ih =>
    rw [run_noneEnabled_cons, List.forall_mem_cons, ← ih]
    cases (net.enabled ev t.id 0).run with
    | error e => exact iff_of_false nofun fun h => nomatch h.1
    | ok isEnabled =>
      cases isEnabled with
      | true => exact iff_of_false nofun fun h => nomatch h.1
      | false => exact (and_iff_right rfl).symm

theorem noneEnabled_eq_false_iff {ts : List Transition} :
    (net.noneEnabled ev ts).run = .ok false ↔ net.Meets ev 0 ts (.ok true) := by
  induction ts with
  | nil => exact iff_of_false nofun not_meets_nil
  | cons t rest ih =>
    rw [run_noneEnabled_cons, meets_cons_iff, ← ih]
    cases (net.enabled ev t.id 0).run with
    | error e =>
      refine iff_of_false nofun ?_
      rintro (hNot | ⟨⟨_, hNot⟩, _⟩) <;> cases hNot
    | ok isEnabled =>
      cases isEnabled with
      | true => exact iff_of_true rfl (.inl rfl)
      | false => exact ⟨fun h => .inr ⟨⟨_, rfl⟩, h⟩, fun h => h.elim nofun And.right⟩

/-- What ends the search for a sign of life with an error ends any search with it. -/
theorem meets_of_noneEnabled {ts : List Transition} {e : RunError}
    (h : (net.noneEnabled ev ts).run = .error e) : net.Meets ev 0 ts (.error e) := by
  induction ts with
  | nil => cases h
  | cons t rest ih =>
    rw [run_noneEnabled_cons] at h
    rw [meets_cons_iff]
    split at h
    · rename_i hFirst
      cases h
      exact .inl hFirst
    · cases h
    · rename_i hFirst
      exact .inr ⟨⟨false, hFirst⟩, ih h⟩

end Checks

/-- The searches agree. The one lists the enabled transitions in the order in which they were added,
each once, or fails with the first check that fails. The other finds the net dead just when this list
is empty at clock 0, and alive just when a transition is enabled there and no check before it fails;
where it fails, both fail alike. -/
theorem liveness_queries_agree {net : Net} (hNet : net.Reachable) (ev : Evaluator Id) :
    (∀ clock ids, (net.enabledTransitions ev clock).run = .ok ids →
      ids.Sublist (net.transitions.map Transition.id) ∧ ids.Nodup ∧
      ∀ id, id ∈ ids ↔ (net.enabled ev id clock).run = .ok true) ∧
    (∀ clock e, (net.enabledTransitions ev clock).run = .error e ↔
      net.Meets ev clock net.transitions (.error e)) ∧
    ((net.isDead ev).run = .ok true ↔ (net.enabledTransitions ev 0).run = .ok []) ∧
    (∀ e, (net.isDead ev).run = .error e → (net.enabledTransitions ev 0).run = .error e) ∧
    ((net.isDead ev).run = .ok false ↔ net.Meets ev 0 net.transitions (.ok true)) := by
  have hDistinct : (net.transitions.map Transition.id).Nodup :=
    (List.nodup_append.mp (List.nodup_append.mp hNet.wellFormed.nodup_by_kind).1).2.1
  refine ⟨fun clock ids hIds => ?_, fun clock e => selectEnabled_eq_error_iff, ?_, fun e hDead => ?_,
    noneEnabled_eq_false_iff⟩
  · obtain ⟨hSublist, hMem⟩ := of_selectEnabled_eq_ok hIds
    refine ⟨hSublist, hDistinct.sublist hSublist, fun id => (hMem id).trans ?_⟩
    rw [and_iff_right_iff_imp]
    intro hEnabled
    obtain ⟨t, hTransition⟩ := exists_transition_of_enabled hEnabled
    obtain ⟨ht, rfl⟩ := mem_of_transition? hTransition
    exact List.mem_map_of_mem ht
  · exact noneEnabled_eq_true_iff.trans (selectEnabled_eq_nil_iff ev net 0 net.transitions).symm
  · exact selectEnabled_eq_error_iff.mpr (meets_of_noneEnabled hDead)

/-! ## A net of which half fails -/

/-- Two transitions without arcs; the guard of the second is no expression. -/
def halfBroken : Net where
  id := "halfBroken"
  nodes := [.transition { id := "t" }, .transition { id := "u", guard := "" }]

theorem halfBroken_reachable : halfBroken.Reachable := by
  have hFirst := (Reachable.empty "halfBroken").change
    (.addTransition { id := "t" } (addTransition_eq_ok_iff.mpr ⟨by decide, rfl⟩))
  exact hFirst.change
    (.addTransition { id := "u", guard := "" } (addTransition_eq_ok_iff.mpr ⟨by decide, rfl⟩))

/-- The net is alive, while the search for all that are enabled fails at the second transition. -/
theorem liveness_queries_agree_halfBroken :
    halfBroken.Reachable ∧ (halfBroken.isDead Petri.interpreter).run = .ok false ∧
      ∃ e, (halfBroken.enabledTransitions Petri.interpreter 0).run = .error e := by
  obtain ⟨_, hFails, _, _, hAlive⟩ := liveness_queries_agree halfBroken_reachable Petri.interpreter
  have hFirst : (halfBroken.enabled Petri.interpreter "t" 0).run = .ok true := by cbv
  obtain ⟨e, hSecond⟩ : ∃ e, (halfBroken.enabled Petri.interpreter "u" 0).run = .error e :=
    ⟨_, by cbv⟩
  refine ⟨halfBroken_reachable, hAlive.mpr ⟨[], _, _, rfl, List.forall_mem_nil _, hFirst⟩, e,
    (hFails 0 e).mpr ⟨[_], _, [], rfl, ?_, hSecond⟩⟩
  exact List.forall_mem_singleton.mpr ⟨true, hFirst⟩

end Petri.Net
