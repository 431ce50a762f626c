import Petri.Proofs.Mapped

/-! # Later tokens

Timed tokens that all come later by the same time, while untimed ones stay untimed. At a clock that
is later by as much, they are asked for and taken as before.
-/
namespace Petri
set_option autoImplicit false

variable (δ clock : Time)

namespace Token

def later (t : Token) : Token := if t.timed then { t with time := t.time + δ } else t

variable (t : Token)

@[simp] theorem value_later : (t.later δ).value = t.value := by
  rw [later]
  split <;> rfl

@[simp] theorem text_later : (t.later δ).text = t.text := by
  rw [later]
  split <;> rfl

theorem timed_eq_false_iff {t : Token} : t.timed = false ↔ t.time = 0 := bne_eq_false_iff_eq

theorem later_of_untimed {t : Token} (h : t.time = 0) : t.later δ = t := by
  simp [later, timed, h]

theorem later_of_timed {t : Token} (h : t.time ≠ 0) :
    t.later δ = { t with time := t.time + δ } := by
  simp [later, timed, h]

@[simp] theorem timed_later : (t.later δ).timed = t.timed := by
  by_cases h : t.time = 0
  · rw [later_of_untimed δ h]
  · rw [later_of_timed δ h, timed, timed, bne_iff_ne.mpr h]
    exact bne_iff_ne.mpr fun hSum => h (Nat.eq_zero_of_add_eq_zero_right hSum)

@[simp] theorem available_later : (t.later δ).available (clock + δ) = t.available clock := by
  by_cases h : t.time = 0
  · rw [later_of_untimed δ h]
    simp [available, h]
  · rw [later_of_timed δ h]
    simp [available]

theorem keeps_later : Keeps (later δ) clock (clock + δ) :=
  ⟨value_later δ, available_later δ clock⟩

theorem later_add : t.later (clock + δ) = (t.later clock).later δ := by
  by_cases h : t.time = 0
  · rw [later_of_untimed _ h, later_of_untimed _ h, later_of_untimed _ h]
  · rw [later_of_timed _ h, later_of_timed clock h,
      later_of_timed δ fun hSum => h (Nat.eq_zero_of_add_eq_zero_right hSum)]
    simp only [Nat.add_assoc]

end Token

theorem min?_map_add (times : List Time) : (times.map (· + δ)).min? = times.min?.map (· + δ) := by
  cases h : times.min? with
  | none =>
    rw [List.min?_eq_none_iff.mp h]
    rfl
  | some least =>
    obtain ⟨hMem, hLeast⟩ := List.min?_eq_some_iff.mp h
    refine List.min?_eq_some_iff.mpr ⟨List.mem_map_of_mem hMem, ?_⟩
    rw [List.forall_mem_map]
    exact fun time hTime => Nat.add_le_add_right (hLeast time hTime) δ

namespace TokenBag

def later (bag : TokenBag) : TokenBag := bag.map (Token.later δ)

variable (bag : TokenBag)

@[simp] theorem length_later : (bag.later δ).length = bag.length := List.length_map _

theorem later_append (more : TokenBag) :
    TokenBag.later δ (bag ++ more) = bag.later δ ++ more.later δ := List.map_append

theorem later_later : (bag.later clock).later δ = bag.later (clock + δ) := by
  rw [later, later, later, List.map_map]
  exact List.map_congr_left fun t _ => (Token.later_add δ clock t).symm

theorem ready_later : ready (clock + δ) (bag.later δ) = ready clock bag :=
  (Token.keeps_later δ clock).ready_map bag (Token.timed_later δ)

theorem earliestPending_later :
    earliestPending (clock + δ) (bag.later δ) = (earliestPending clock bag).map (· + δ) := by
  have hTimes : ((bag.later δ).map Token.time).filter (fun time => decide (clock + δ < time)) =
      ((bag.map Token.time).filter fun time => decide (clock < time)).map (· + δ) := by
    induction bag with
    | nil => rfl
    | cons t rest ih =>
      -- an untimed token lies beyond no clock, and it is not later either
      by_cases hTime : t.time = 0
      · simpa [later, Token.later_of_untimed δ hTime, hTime] using ih
      · by_cases hLater : clock < t.time
        · simpa [later, Token.later_of_timed δ hTime, hLater] using ih
        · simpa [later, Token.later_of_timed δ hTime, hLater] using ih
  rw [earliestPending, hTimes, min?_map_add, earliestPending]

/-- From later tokens the same ones are taken, and the same ones are left. -/
theorem withdraw_later (request : TokenBag) :
    withdraw request (clock + δ) (bag.later δ) =
      (withdraw request clock bag).map (Prod.map (later δ) (later δ)) :=
  (Token.keeps_later δ clock).withdraw_map bag request

theorem shift_eq_some_iff {bag fresh : TokenBag} :
    shift δ bag = some fresh ↔
      (∀ t ∈ bag, t.timed = true → t.time + δ < Time.limit) ∧ fresh = bag.later δ := by
  have hFits : (bag.all fun t => !t.timed || decide (t.time + δ < Time.limit)) = true ↔
      ∀ t ∈ bag, t.timed = true → t.time + δ < Time.limit := by
    simp [List.all_eq_true, imp_iff_not_or]
  rw [shift, Option.ite_none_right_eq_some, hFits, Option.some.injEq, eq_comm (b := fresh)]
  rfl

/-- What is shifted to a later clock can be shifted to the earlier one, and it is later by what lies
between them. -/
theorem exists_shift_of_later {bag fresh : TokenBag} (h : shift (clock + δ) bag = some fresh) :
    ∃ early, shift clock bag = some early ∧ fresh = early.later δ := by
  obtain ⟨hFits, rfl⟩ := (shift_eq_some_iff (clock + δ)).mp h
  refine ⟨bag.later clock, (shift_eq_some_iff clock).mpr ⟨fun t ht hTimed => ?_, rfl⟩,
    (later_later δ clock bag).symm⟩
  exact Nat.lt_of_le_of_lt (Nat.add_le_add_left (Nat.le_add_right clock δ) _)
    (hFits t ht hTimed)

end TokenBag
end Petri
