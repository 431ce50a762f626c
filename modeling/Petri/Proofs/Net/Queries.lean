import Mathlib
import Petri.Net.Enabling
import Petri.Proofs.Except

/-! # What drivers ask a net

Which transitions are enabled at a clock, and which time comes next.
-/
namespace Petri
set_option autoImplicit false

/-! ## Pending times -/

namespace TokenBag

theorem earliestPending_eq_some_iff {after time : Time} {bag : TokenBag} :
    earliestPending after bag = some time ↔
      (∃ t ∈ bag, t.time = time) ∧ after < time ∧ ∀ t ∈ bag, after < t.time → time ≤ t.time := by
  rw [earliestPending, List.min?_eq_some_iff]
  simp only [List.mem_filter, List.mem_map, decide_eq_true_eq, and_imp, forall_exists_index,
    forall_apply_eq_imp_iff₂, and_assoc]

theorem earliestPending_eq_none_iff {after : Time} {bag : TokenBag} :
    earliestPending after bag = none ↔ ∀ t ∈ bag, t.time ≤ after := by
  rw [earliestPending, List.min?_eq_none_iff, List.filter_eq_nil_iff]
  simp

end TokenBag

namespace Net

/-- Some token carries this time. -/
def Carries (net : Net) (time : Time) : Prop := ∃ p ∈ net.places, ∃ t ∈ p.tokens, t.time = time

/-- The first time after `clock` that a token carries. -/
structure ComesNext (net : Net) (clock time : Time) : Prop where
  carried : net.Carries time
  later : clock < time
  first : ∀ other, net.Carries other → ¬ (clock < other ∧ other < time)

theorem earliestPending_eq_some_iff {net : Net} {after time : Time} :
    net.earliestPending after = some time ↔ net.ComesNext after time := by
  rw [earliestPending, List.min?_eq_some_iff]
  constructor
  · rintro ⟨hMem, hLeast⟩
    obtain ⟨p, hp, hTime⟩ := List.mem_filterMap.mp hMem
    obtain ⟨⟨t, ht, rfl⟩, hLater, _⟩ := TokenBag.earliestPending_eq_some_iff.mp hTime
    refine ⟨⟨p, hp, t, ht, rfl⟩, hLater, ?_⟩
    rintro _ ⟨q, hq, u, hu, rfl⟩ ⟨hAfter, hBefore⟩
    cases hNext : TokenBag.earliestPending after q.tokens with
    | none => exact hAfter.not_ge (TokenBag.earliestPending_eq_none_iff.mp hNext u hu)
    | some next =>
      have hWithin : next ≤ u.time :=
        (TokenBag.earliestPending_eq_some_iff.mp hNext).2.2 u hu hAfter
      have hAmong : t.time ≤ next := hLeast next (List.mem_filterMap.mpr ⟨q, hq, hNext⟩)
      exact hBefore.not_ge (hAmong.trans hWithin)
  · rintro ⟨⟨p, hp, t, ht, rfl⟩, hLater, hFirst⟩
    have hLeast : ∀ q ∈ net.places, ∀ u ∈ q.tokens, after < u.time → t.time ≤ u.time := by
      intro q hq u hu hAfter
      rw [← not_lt]
      intro hBefore
      exact hFirst u.time ⟨q, hq, u, hu, rfl⟩ ⟨hAfter, hBefore⟩
    constructor
    · exact List.mem_filterMap.mpr
        ⟨p, hp, TokenBag.earliestPending_eq_some_iff.mpr ⟨⟨t, ht, rfl⟩, hLater, hLeast p hp⟩⟩
    · intro next hNext
      obtain ⟨q, hq, hTime⟩ := List.mem_filterMap.mp hNext
      obtain ⟨⟨u, hu, rfl⟩, hAfter, _⟩ := TokenBag.earliestPending_eq_some_iff.mp hTime
      exact hLeast q hq u hu hAfter

theorem earliestPending_eq_none_iff {net : Net} {after : Time} :
    net.earliestPending after = none ↔ ∀ p ∈ net.places, ∀ t ∈ p.tokens, t.time ≤ after := by
  rw [earliestPending, List.min?_eq_none_iff, List.filterMap_eq_nil_iff]
  simp only [TokenBag.earliestPending_eq_none_iff]

theorem lt_of_earliestPending {net : Net} {after time : Time}
    (h : net.earliestPending after = some time) : after < time :=
  (earliestPending_eq_some_iff.mp h).later

/-! ## Enabled transitions -/

section Enabled
variable (ev : Evaluator Id) (net : Net) (clock : Time)

variable {ev net clock} in
/-- Only transitions can be checked. -/
theorem exists_transition_of_enabled {id : String} {isEnabled : Bool}
    (h : (net.enabled ev id clock).run = .ok isEnabled) : ∃ t, net.transition? id = some t := by
  cases hTransition : net.transition? id with
  | some t => exact ⟨t, rfl⟩
  | none =>
    rw [enabled, hTransition] at h
    cases h

theorem run_selectEnabled_cons (t : Transition) (rest : List Transition) :
    (net.selectEnabled ev clock (t :: rest)).run =
      match (net.enabled ev t.id clock).run with
      | .error e => .error e
      | .ok isEnabled =>
        match (net.selectEnabled ev clock rest).run with
        | .error e => .error e
        | .ok others => .ok (if isEnabled then t.id :: others else others) := by
  rw [selectEnabled, run_bind]
  cases (net.enabled ev t.id clock).run with
  | error e => rfl
  | ok isEnabled =>
    simp only [run_bind]
    cases (net.selectEnabled ev clock rest).run <;> rfl

theorem selectEnabled_eq_nil_iff (ts : List Transition) :
    (net.selectEnabled ev clock ts).run = .ok [] ↔
      ∀ t ∈ ts, (net.enabled ev t.id clock).run = .ok false := by
  induction ts with
  | nil => exact iff_of_true rfl (List.forall_mem_nil _)
  | cons t rest ih =>
    rw [run_selectEnabled_cons, List.forall_mem_cons, ← ih]
    cases (net.enabled ev t.id clock).run with
    | error e => simp
    | ok isEnabled =>
      cases (net.selectEnabled ev clock rest).run with
      | error e => simp
      | ok others =>
        cases isEnabled with
        | false => simp
        | true => simp [Id]

end Enabled
end Net
end Petri
