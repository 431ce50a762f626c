import Petri.Proofs.Later

/-! # Shifting in time

A bag is shifted as a whole or not at all: the times that its tokens get are worked out before any
token gets its own. A shift by two times one after the other is a shift by their sum.
-/
namespace Petri
set_option autoImplicit false

variable (δ ε : Time)

namespace Token

/-- The time that the token gets. From the time limit on there is none. -/
def shiftedTime (t : Token) : Option Time :=
  if t.timed then if t.time + δ < Time.limit then some (t.time + δ) else none else some 0

/-- What a shift makes of the token. -/
structure ShiftedTo (t fresh : Token) : Prop where
  value : fresh.value = t.value
  text : fresh.text = t.text
  untimed : t.timed = false → fresh.time = t.time
  timed : t.timed = true →
    fresh.timed = true ∧ fresh.time = t.time + δ ∧ fresh.time < Time.limit

theorem time_ne_zero {t : Token} (h : t.timed = true) : t.time ≠ 0 := bne_iff_ne.mp h

theorem withTime_later (t : Token) : { t with time := (t.later δ).time } = t.later δ := by
  by_cases h : t.time = 0
  · rw [later_of_untimed δ h]
  · rw [later_of_timed δ h]

theorem shiftedTime_eq_some_iff {t : Token} {time : Time} :
    t.shiftedTime δ = some time ↔
      (t.timed = true → t.time + δ < Time.limit) ∧ time = (t.later δ).time := by
  cases h : t.timed with
  | false =>
    have hTime : t.time = 0 := timed_eq_false_iff.mp h
    rw [shiftedTime, h, later_of_untimed δ hTime, hTime, if_neg Bool.false_ne_true,
      Option.some.injEq, eq_comm]
    exact (and_iff_right nofun).symm
  | true =>
    rw [shiftedTime, h, if_pos rfl, later_of_timed δ (time_ne_zero h),
      Option.ite_none_right_eq_some, Option.some.injEq, eq_comm (b := time)]
    exact and_congr_left fun _ => ⟨fun hFits _ => hFits, fun hFits => hFits rfl⟩

theorem shiftedTo_later {t : Token} (h : t.timed = true → t.time + δ < Time.limit) :
    t.ShiftedTo δ (t.later δ) where
  value := value_later δ t
  text := text_later δ t
  untimed hTimed := by rw [later_of_untimed δ (timed_eq_false_iff.mp hTimed)]
  timed hTimed := by
    refine ⟨(timed_later δ t).trans hTimed, ?_⟩
    rw [later_of_timed δ (time_ne_zero hTimed)]
    exact ⟨rfl, h hTimed⟩

end Token

namespace TokenBag
variable {bag fresh : TokenBag}

/-- Works out the times one after the other and stops where there is none. Only when there is one
for each token do the tokens get them. -/
def setTimes : OptionT (StateM TokenBag) Unit := do
  let bag ← get
  let some times := bag.mapM (Token.shiftedTime δ) | failure
  set (List.zipWith (fun t time => { t with time := time }) bag times)

/-- Whether the tokens get their times, and the bag that is left. -/
def shiftInPlace (bag : TokenBag) : Bool × TokenBag :=
  let (done, bag) := ((setTimes δ).run.run bag).run
  (done.isSome, bag)

theorem shiftInPlace_eq : shiftInPlace δ bag =
    match bag.mapM (Token.shiftedTime δ) with
    | some times => (true, List.zipWith (fun t time => { t with time := time }) bag times)
    | none => (false, bag) := by
  have hGet : (get : OptionT (StateM TokenBag) TokenBag).run.run bag = pure (some bag, bag) := rfl
  rw [shiftInPlace, setTimes, OptionT.run_bind, Option.elimM, StateT.run_bind, hGet, pure_bind,
    Option.elim_some]
  cases bag.mapM (Token.shiftedTime δ) <;> rfl

theorem mapM_shiftedTime_eq_some_iff {times : List Time} :
    bag.mapM (Token.shiftedTime δ) = some times ↔
      (∀ t ∈ bag, t.timed = true → t.time + δ < Time.limit) ∧
        times = bag.map fun t => (t.later δ).time := by
  induction bag generalizing times with
  | nil =>
    constructor
    · rintro ⟨⟩
      exact ⟨nofun, rfl⟩
    · rintro ⟨_, rfl⟩
      rfl
  | cons t rest ih =>
    rw [List.forall_mem_cons, List.map_cons, List.mapM_cons]
    simp only [Option.bind_eq_bind, Option.bind_eq_some_iff, Token.shiftedTime_eq_some_iff, ih]
    constructor
    · rintro ⟨_, ⟨hFirst, rfl⟩, _, ⟨hRest, rfl⟩, ⟨⟩⟩
      exact ⟨⟨hFirst, hRest⟩, rfl⟩
    · rintro ⟨⟨hFirst, hRest⟩, rfl⟩
      exact ⟨_, ⟨hFirst, rfl⟩, _, ⟨hRest, rfl⟩, rfl⟩

theorem zipWith_later (bag : TokenBag) :
    List.zipWith (fun t time => { t with time := time }) bag (bag.map fun t => (t.later δ).time) =
      bag.later δ := by
  rw [List.zipWith_map_right, List.zipWith_self]
  exact List.map_congr_left fun t _ => Token.withTime_later δ t

theorem exists_shift_iff :
    (∃ fresh, shift δ bag = some fresh) ↔
      ∀ t ∈ bag, t.timed = true → t.time + δ < Time.limit := by
  simp only [shift_eq_some_iff, exists_and_left, exists_eq, and_true]

theorem shift_eq_none_iff :
    shift δ bag = none ↔ ∃ t ∈ bag, t.timed = true ∧ Time.limit ≤ t.time + δ := by
  rw [Option.eq_none_iff_forall_ne_some, ← not_exists, exists_shift_iff]
  simp only [not_forall, Nat.not_lt, exists_prop]

theorem shiftInPlace_of_some (h : shift δ bag = some fresh) :
    shiftInPlace δ bag = (true, fresh) := by
  obtain ⟨hFits, rfl⟩ := (shift_eq_some_iff δ).mp h
  rw [shiftInPlace_eq, (mapM_shiftedTime_eq_some_iff δ).mpr ⟨hFits, rfl⟩]
  exact congrArg (Prod.mk true) (zipWith_later δ bag)

theorem shiftInPlace_of_none (h : shift δ bag = none) : shiftInPlace δ bag = (false, bag) := by
  have hTimes : bag.mapM (Token.shiftedTime δ) = none := by
    rw [Option.eq_none_iff_forall_ne_some]
    intro times hTimes
    rw [(shift_eq_some_iff δ).mpr ⟨((mapM_shiftedTime_eq_some_iff δ).mp hTimes).1, rfl⟩] at h
    cases h
  rw [shiftInPlace_eq, hTimes]

theorem shiftedTo_of_shift (h : shift δ bag = some fresh) :
    List.Forall₂ (Token.ShiftedTo δ) bag fresh := by
  obtain ⟨hFits, rfl⟩ := (shift_eq_some_iff δ).mp h
  rw [later, List.forall₂_map_right_iff, List.forall₂_same]
  exact fun t ht => Token.shiftedTo_later δ (hFits t ht)

theorem fits_later_iff :
    (∀ t ∈ bag.later δ, t.timed = true → t.time + ε < Time.limit) ↔
      ∀ t ∈ bag, t.timed = true → t.time + (δ + ε) < Time.limit := by
  rw [later, List.forall_mem_map]
  refine forall₂_congr fun t _ => ?_
  rw [Token.timed_later]
  refine imp_congr_right fun hTimed => ?_
  rw [Token.later_of_timed δ (Token.time_ne_zero hTimed), Nat.add_assoc]

theorem shift_bind_shift (bag : TokenBag) : (shift δ bag).bind (shift ε) = shift (δ + ε) bag := by
  ext fresh
  rw [Option.bind_eq_some_iff]
  constructor
  · rintro ⟨early, hEarly, hFresh⟩
    obtain ⟨_, rfl⟩ := (shift_eq_some_iff δ).mp hEarly
    obtain ⟨hFits, rfl⟩ := (shift_eq_some_iff ε).mp hFresh
    exact (shift_eq_some_iff (δ + ε)).mpr ⟨(fits_later_iff δ ε).mp hFits, later_later ε δ bag⟩
  · intro h
    obtain ⟨early, hEarly, rfl⟩ := exists_shift_of_later ε δ h
    obtain ⟨_, rfl⟩ := (shift_eq_some_iff δ).mp hEarly
    have hFits := ((shift_eq_some_iff (δ + ε)).mp h).1
    exact ⟨_, hEarly, (shift_eq_some_iff ε).mpr ⟨(fits_later_iff δ ε).mpr hFits, rfl⟩⟩

/-- A shift fails if and only if a timed token would reach the time limit, and then no token
changes. One that succeeds adds its time to that of every timed token and changes nothing else. Two
shifts come to the shift by both times together. -/
theorem shift_law (bag : TokenBag) (δ ε : Time) :
    (shift δ bag = none ↔ ∃ t ∈ bag, t.timed = true ∧ Time.limit ≤ t.time + δ) ∧
    (shift δ bag = none → shiftInPlace δ bag = (false, bag)) ∧
    (∀ fresh, shift δ bag = some fresh →
      shiftInPlace δ bag = (true, fresh) ∧ List.Forall₂ (Token.ShiftedTo δ) bag fresh) ∧
    (shift δ bag).bind (shift ε) = shift (δ + ε) bag :=
  ⟨shift_eq_none_iff δ, shiftInPlace_of_none δ,
    fun _ h => ⟨shiftInPlace_of_some δ h, shiftedTo_of_shift δ h⟩, shift_bind_shift δ ε bag⟩

/-- The last token can be shifted by `1` once and not again. Where it cannot be shifted, no token
is. -/
theorem shift_law_brink :
    let bag : TokenBag := [{ value := .unit }, { value := .int 1, time := 4, text := some "1@4" },
      { value := .str "x", time := Time.limit - 2 }]
    shiftInPlace 2 bag = (false, bag) ∧
      ∃ fresh, shiftInPlace 1 bag = (true, fresh) ∧
        List.Forall₂ (Token.ShiftedTo 1) bag fresh ∧ shift 1 fresh = none := by
  intro bag
  obtain ⟨hFails, hLeaves, _, _⟩ := shift_law bag 2 0
  obtain ⟨_, _, hFresh, hTwice⟩ := shift_law bag 1 1
  have hNone : shift 2 bag = none :=
    hFails.mpr ⟨{ value := .str "x", time := Time.limit - 2 }, by decide, by decide, by decide⟩
  obtain ⟨fresh, hSome⟩ : ∃ fresh, shift 1 bag = some fresh := ⟨_, rfl⟩
  rw [hNone, hSome] at hTwice
  exact ⟨hLeaves hNone, fresh, (hFresh fresh hSome).1, (hFresh fresh hSome).2, hTwice⟩

end TokenBag
end Petri
