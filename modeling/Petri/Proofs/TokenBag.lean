import Mathlib
import Petri.Proofs.Later

/-! # Bags under withdrawal and shifting

What is taken from a bag and what is left make up the bag, and what is left keeps its order. What
is shifted is late or has no time at all.
-/
namespace Petri.TokenBag
set_option autoImplicit false

theorem getElem?_of_choose {clock : Time} {wanted : Value} {bag : TokenBag} {i : Nat}
    (h : choose clock wanted bag = some i) : ∃ t, bag[i]? = some t ∧ t.time ≤ clock := by
  rw [choose, Option.or_eq_some_iff] at h
  rcases h with h | ⟨_, h⟩
  · obtain ⟨hi, hFound, _⟩ := List.findIdx?_eq_some_iff_getElem.mp h
    rw [Bool.and_eq_true, Token.available, decide_eq_true_eq] at hFound
    exact ⟨bag[i], List.getElem?_eq_getElem hi, hFound.1⟩
  · obtain ⟨hi, hFound, _⟩ := List.findIdx?_eq_some_iff_getElem.mp h
    rw [Token.available, decide_eq_true_eq] at hFound
    exact ⟨bag[i], List.getElem?_eq_getElem hi, hFound⟩

theorem perm_eraseIdx {bag : TokenBag} {i : Nat} {t : Token} (h : bag[i]? = some t) :
    bag.Perm (t :: bag.eraseIdx i) := by
  obtain ⟨hi, rfl⟩ := List.getElem?_eq_some_iff.mp h
  exact (List.getElem_cons_eraseIdx_perm hi).symm

theorem withdraw_go {clock : Time} {request left taken allTaken rest : TokenBag}
    (h : withdraw.go clock request left taken = some (allTaken, rest)) :
    ∃ more, allTaken = taken.reverse ++ more ∧ more.length = request.length ∧
      rest.Sublist left ∧ left.Perm (rest ++ more) ∧ ∀ t ∈ more, t.time ≤ clock := by
  induction request generalizing left taken with
  | nil =>
    cases h
    exact ⟨[], by simp, rfl, List.Sublist.refl _, by simp, by simp⟩
  | cons wanted request ih =>
    rw [withdraw.go] at h
    split at h
    · cases h
    · rename_i i hChosen
      obtain ⟨t, hGet, hTime⟩ := getElem?_of_choose hChosen
      obtain ⟨more, rfl, hLength, hSublist, hPerm, hTimes⟩ := ih h
      refine ⟨t :: more, ?_, ?_, hSublist.trans (List.eraseIdx_sublist left i), ?_, ?_⟩
      · simp [hGet]
      · rw [List.length_cons, List.length_cons, hLength]
      · calc
          left.Perm (t :: left.eraseIdx i) := perm_eraseIdx hGet
          _ |>.Perm (t :: (rest ++ more)) := hPerm.cons t
          _ |>.Perm (rest ++ t :: more) := List.perm_middle.symm
      · intro u hu
        rcases List.mem_cons.mp hu with rfl | hu
        · exact hTime
        · exact hTimes u hu

/-- A withdrawal takes available tokens and keeps the others in order. -/
theorem withdraw_spec {request bag taken left : TokenBag} {clock : Time}
    (h : withdraw request clock bag = some (taken, left)) :
    left.Sublist bag ∧ bag.Perm (left ++ taken) ∧ ∀ t ∈ taken, t.time ≤ clock := by
  obtain ⟨more, hTaken, _, hSublist, hPerm, hTimes⟩ := withdraw_go h
  obtain rfl : taken = more := by simpa using hTaken
  exact ⟨hSublist, hPerm, hTimes⟩

/-- A withdrawal takes as many tokens as are requested. -/
theorem length_of_withdraw {request bag taken left : TokenBag} {clock : Time}
    (h : withdraw request clock bag = some (taken, left)) : taken.length = request.length := by
  obtain ⟨more, hTaken, hLength, _⟩ := withdraw_go h
  obtain rfl : taken = more := by simpa using hTaken
  exact hLength

theorem choose_eq_none_iff {clock : Time} {wanted : Value} {bag : TokenBag} :
    choose clock wanted bag = none ↔ available clock bag = 0 := by
  rw [choose, Option.or_eq_none_iff, List.findIdx?_eq_none_iff, List.findIdx?_eq_none_iff,
    available, List.countP_eq_zero]
  constructor
  · rintro ⟨_, hNone⟩ t ht hAvailable
    rw [hNone t ht] at hAvailable
    cases hAvailable
  · intro hNone
    have hUnavailable : ∀ t ∈ bag, t.available clock = false :=
      fun t ht => Bool.not_eq_true _ ▸ hNone t ht
    exact ⟨fun t ht => by rw [hUnavailable t ht, Bool.false_and], hUnavailable⟩

theorem available_of_choose {clock : Time} {wanted : Value} {bag : TokenBag} {i : Nat}
    (h : choose clock wanted bag = some i) :
    available clock bag = available clock (bag.eraseIdx i) + 1 := by
  obtain ⟨t, hGet, hTime⟩ := getElem?_of_choose h
  have hAvailable : t.available clock = true := decide_eq_true hTime
  rw [available, (perm_eraseIdx hGet).countP_eq, List.countP_cons_of_pos hAvailable, available]

/-- The payloads do not matter to whether a withdrawal succeeds. -/
theorem isSome_withdraw_iff {request bag : TokenBag} {clock : Time} :
    (withdraw request clock bag).isSome = true ↔ request.length ≤ available clock bag := by
  have hGo (left taken : TokenBag) : (withdraw.go clock request left taken).isSome = true ↔
      request.length ≤ available clock left := by
    induction request generalizing left taken with
    | nil => exact iff_of_true rfl (Nat.zero_le _)
    | cons wanted rest ih =>
      rw [withdraw.go, List.length_cons]
      cases hChosen : choose clock wanted.value left with
      | none =>
        rw [choose_eq_none_iff.mp hChosen]
        exact iff_of_false Bool.false_ne_true (Nat.not_succ_le_zero _)
      | some i =>
        rw [available_of_choose hChosen, Nat.add_le_add_iff_right]
        exact ih _ _
  exact hGo bag []

/-- A shifted token stays untimed or lies beyond the time that it was shifted by. -/
theorem time_of_mem_shift {delta : Time} {bag fresh : TokenBag} (h : shift delta bag = some fresh)
    {t : Token} (ht : t ∈ fresh) : t.time = 0 ∨ delta < t.time := by
  obtain ⟨_, rfl⟩ := (shift_eq_some_iff delta).mp h
  obtain ⟨u, _, rfl⟩ := List.mem_map.mp ht
  by_cases hTime : u.time = 0
  · left
    rw [Token.later_of_untimed delta hTime, hTime]
  · right
    rw [Token.later_of_timed delta hTime]
    exact Nat.lt_add_of_pos_left (Nat.pos_of_ne_zero hTime)

end Petri.TokenBag
