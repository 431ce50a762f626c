import Petri.Proofs.TokenBag

/-! # Withdrawals that are served exactly

Whether a withdrawal succeeds is a matter of numbers: the available tokens have to last. Which tokens
it takes depends on their payloads. If there are enough available tokens of each payload that is asked
for, every wanted payload is served by the earliest of its tokens that is still there. The tokens are
taken out of a copy of the bag, so a withdrawal that fails on its way leaves the bag as it is.
-/
namespace Petri
set_option autoImplicit false

/-- An available token with this payload. -/
def Token.serves (clock : Time) (wanted : Value) (t : Token) : Bool :=
  t.available clock && t.value == wanted

theorem Token.serves_iff {clock : Time} {wanted : Value} {t : Token} :
    t.serves clock wanted = true ↔ t.available clock = true ∧ t.value = wanted := by
  rw [serves, Bool.and_eq_true, beq_iff_eq]

namespace TokenBag

/-- The available tokens with this payload, the earliest first. -/
def supply (clock : Time) (wanted : Value) (bag : TokenBag) : TokenBag :=
  bag.filter (Token.serves clock wanted)

def asksFor (request : TokenBag) (wanted : Value) : Nat :=
  request.countP fun t => t.value == wanted

/-- What is left when every available token is taken whose payload is still wanted, from the first
token on. -/
def leftOver (clock : Time) : List Value → TokenBag → TokenBag
  | _, [] => []
  | wanted, t :: rest =>
    if t.available clock && wanted.contains t.value then
      leftOver clock (wanted.erase t.value) rest
    else t :: leftOver clock wanted rest

/-! ## In place -/

/-- Moves the token that is taken for a wanted payload from what remains to what was removed. -/
def takeOne (clock : Time) (copy : TokenBag × TokenBag) (wanted : Token) :
    OptionT (StateM TokenBag) (TokenBag × TokenBag) := do
  let (remaining, removed) := copy
  let some i := choose clock wanted.value remaining | failure
  return (remaining.eraseIdx i, removed ++ remaining[i]?.toList)

/-- Takes the tokens out of a copy of the bag. What remains of the copy becomes the bag when there has
been a token for every wish. -/
def withdrawInPlace (request : TokenBag) (clock : Time) : OptionT (StateM TokenBag) TokenBag := do
  let (remaining, removed) ← request.foldlM (takeOne clock) (← get, [])
  set remaining
  return removed

/-- What a withdrawal answers and the bag that it leaves. -/
def withdrawal (request : TokenBag) (clock : Time) (bag : TokenBag) : Option TokenBag × TokenBag :=
  ((withdrawInPlace request clock).run.run bag).run

variable {clock : Time} {wanted : Value} {bag request : TokenBag}

/-- Nothing is assigned to the bag meanwhile. -/
theorem run_foldlM_takeOne (left taken : TokenBag) :
    (request.foldlM (takeOne clock) (left, taken.reverse)).run.run bag =
      pure ((withdraw.go clock request left taken).map Prod.swap, bag) := by
  induction request generalizing left taken with
  | nil => rfl
  | cons wanted rest ih =>
    rw [List.foldlM_cons, withdraw.go, takeOne]
    cases choose clock wanted.value left with
    | none => rfl
    | some i =>
      have hTaken : taken.reverse ++ left[i]?.toList = (left[i]?.toList ++ taken).reverse := by
        cases left[i]? <;> simp
      have hRest := ih (left.eraseIdx i) (left[i]?.toList ++ taken)
      rw [← hTaken] at hRest
      exact hRest

theorem withdrawal_eq : withdrawal request clock bag =
    match withdraw request clock bag with
    | some (taken, left) => (some taken, left)
    | none => (none, bag) := by
  have hRun : withdrawal request clock bag =
      ((request.foldlM (takeOne clock) (bag, []) >>= fun (remaining, removed) => do
        set remaining
        return removed).run.run bag).run := rfl
  have hCopy : (request.foldlM (takeOne clock) (bag, [])).run.run bag = _ :=
    run_foldlM_takeOne bag []
  rw [hRun, OptionT.run_bind, Option.elimM, StateT.run_bind, hCopy, withdraw]
  cases withdraw.go clock request bag [] <;> rfl

theorem withdrawal_eq_some_iff {taken left : TokenBag} :
    withdrawal request clock bag = (some taken, left) ↔
      withdraw request clock bag = some (taken, left) := by
  rw [withdrawal_eq]
  split
  · rename_i hSome
    rw [hSome, Option.some.injEq, Prod.mk.injEq, Prod.mk.injEq, Option.some.injEq]
  · rename_i hNone
    rw [hNone]
    exact iff_of_false nofun nofun

theorem fst_withdrawal :
    (withdrawal request clock bag).1 = (withdraw request clock bag).map Prod.fst := by
  rw [withdrawal_eq]
  split
  · rename_i hSome
    rw [hSome, Option.map_some]
  · rename_i hNone
    rw [hNone, Option.map_none]

/-! ## The earliest token of a payload -/

theorem choose_eq : choose clock wanted bag =
    (bag.findIdx? (Token.serves clock wanted)).or (bag.findIdx? (Token.available clock)) := rfl

/-- Around the earliest token that serves, which is the one that is chosen. -/
theorem exists_earliest (h : supply clock wanted bag ≠ []) :
    ∃ front t back, bag = front ++ t :: back ∧ t.serves clock wanted = true ∧
      (∀ u ∈ front, u.serves clock wanted = false) ∧
      choose clock wanted bag = some front.length := by
  obtain ⟨t, hFound⟩ : ∃ t, bag.find? (Token.serves clock wanted) = some t := by
    rw [← Option.isSome_iff_exists, List.find?_isSome]
    obtain ⟨u, hu⟩ := List.exists_mem_of_ne_nil _ h
    exact ⟨u, List.mem_filter.mp hu⟩
  obtain ⟨hServes, front, back, rfl, hFront⟩ := List.find?_eq_some_iff_append.mp hFound
  have hFront : ∀ u ∈ front, u.serves clock wanted = false := fun u hu => by simpa using hFront u hu
  refine ⟨front, t, back, rfl, hServes, hFront, ?_⟩
  have hIndex : (front ++ t :: back).findIdx? (Token.serves clock wanted) = some front.length := by
    rw [List.findIdx?_append, List.findIdx?_eq_none_iff.mpr hFront, List.findIdx?_cons, hServes]
    simp
  rw [choose_eq, hIndex, Option.some_or]

theorem supply_erase {front back : TokenBag} {t : Token} (hServes : t.serves clock wanted = true)
    (hFront : ∀ u ∈ front, u.serves clock wanted = false) :
    supply clock wanted (front ++ t :: back) = t :: supply clock wanted (front ++ back) := by
  have hNone : front.filter (Token.serves clock wanted) = [] :=
    List.filter_eq_nil_iff.mpr fun u hu => Bool.eq_false_iff.mp (hFront u hu)
  rw [supply, supply, List.filter_append, List.filter_append, hNone,
    List.filter_cons_of_pos hServes]
  rfl

theorem supply_erase_of_ne {front back : TokenBag} {t : Token}
    (hServes : t.serves clock wanted = true) {other : Value} (hOther : other ≠ wanted) :
    supply clock other (front ++ t :: back) = supply clock other (front ++ back) := by
  have hNot : ¬ t.serves clock other = true := fun h =>
    hOther ((Token.serves_iff.mp h).2.symm.trans (Token.serves_iff.mp hServes).2)
  rw [supply, supply, List.filter_append, List.filter_append, List.filter_cons_of_neg hNot]

theorem leftOver_nil (clock : Time) (bag : TokenBag) : leftOver clock [] bag = bag := by
  induction bag with
  | nil => rfl
  | cons t rest ih =>
    rw [leftOver, ih, List.contains_nil, Bool.and_false, if_neg Bool.false_ne_true]

/-- The earliest token of a wanted payload is not left over, and without it and this wish the same
tokens are. -/
theorem leftOver_cons {front back : TokenBag} {t : Token} (hServes : t.serves clock wanted = true)
    (hFront : ∀ u ∈ front, u.serves clock wanted = false) (others : List Value) :
    leftOver clock (wanted :: others) (front ++ t :: back) =
      leftOver clock others (front ++ back) := by
  obtain ⟨hAvailable, rfl⟩ := Token.serves_iff.mp hServes
  induction front generalizing others with
  | nil =>
    rw [List.nil_append, leftOver, hAvailable, List.contains_cons, BEq.rfl, Bool.true_or,
      Bool.and_true, if_pos rfl, List.erase_cons_head, List.nil_append]
  | cons u front ih =>
    obtain ⟨hNot, hFront⟩ := List.forall_mem_cons.mp hFront
    rw [List.cons_append, List.cons_append, leftOver, leftOver]
    cases hAvailable' : u.available clock with
    | false =>
      rw [Bool.false_and, Bool.false_and, if_neg Bool.false_ne_true, if_neg Bool.false_ne_true,
        ih _ hFront]
    | true =>
      -- an available token before it has another payload, which the wish does not concern
      have hOther : (u.value == t.value) = false := by
        rwa [Token.serves, hAvailable', Bool.true_and] at hNot
      rw [List.contains_cons, hOther, Bool.false_or, Bool.true_and]
      split
      · rw [List.erase_cons_tail (by rwa [BEq.comm, Bool.not_eq_true]), ih _ hFront]
      · rw [ih _ hFront]

/-! ## Serving a request -/

/-- There are enough available tokens of every payload that the request asks for. -/
def Suffices (clock : Time) (bag request : TokenBag) : Prop :=
  ∀ wanted, request.asksFor wanted ≤ (supply clock wanted bag).length

theorem suffices_iff : Suffices clock bag request ↔
    ∀ wish ∈ request, request.asksFor wish.value ≤ (supply clock wish.value bag).length := by
  refine ⟨fun h wish _ => h wish.value, fun h wanted => ?_⟩
  by_cases hAsked : ∃ wish ∈ request, wish.value = wanted
  · obtain ⟨wish, hWish, rfl⟩ := hAsked
    exact h wish hWish
  · have hNone : request.asksFor wanted = 0 :=
      List.countP_eq_zero.mpr fun wish hWish hSame => hAsked ⟨wish, hWish, beq_iff_eq.mp hSame⟩
    rw [hNone]
    exact Nat.zero_le _

instance : Decidable (Suffices clock bag request) := decidable_of_iff _ suffices_iff.symm

/-- Each wanted payload is served by a token of this payload: the earliest one of the bag beyond those
that have served earlier wishes. -/
structure Serves (clock : Time) (bag request taken : TokenBag) : Prop where
  values : taken.map Token.value = request.map Token.value
  earliest : ∀ (k : Nat) (wish : Token), request[k]? = some wish →
    taken[k]? = (supply clock wish.value bag)[asksFor (request.take k) wish.value]?

theorem asksFor_cons (wish : Token) (rest : TokenBag) (wanted : Value) :
    TokenBag.asksFor (wish :: rest) wanted =
      TokenBag.asksFor rest wanted + if wish.value = wanted then 1 else 0 := by
  simp only [asksFor, List.countP_cons, beq_iff_eq]

theorem supply_ne_nil {wish : Token} {rest : TokenBag}
    (h : Suffices clock bag (wish :: rest)) : supply clock wish.value bag ≠ [] := by
  have hEnough := h wish.value
  rw [asksFor_cons, if_pos rfl] at hEnough
  exact List.ne_nil_of_length_pos (Nat.lt_of_lt_of_le (Nat.succ_pos _) hEnough)

theorem Suffices.erase {front back rest : TokenBag} {t wish : Token}
    (h : Suffices clock (front ++ t :: back) (wish :: rest))
    (hServes : t.serves clock wish.value = true)
    (hFront : ∀ u ∈ front, u.serves clock wish.value = false) :
    Suffices clock (front ++ back) rest := by
  intro other
  have hEnough := h other
  rw [asksFor_cons] at hEnough
  by_cases hOther : other = wish.value
  · subst hOther
    rw [supply_erase hServes hFront, if_pos rfl, List.length_cons] at hEnough
    exact Nat.le_of_add_le_add_right hEnough
  · rwa [supply_erase_of_ne hServes hOther, if_neg (Ne.symm hOther)] at hEnough

theorem Serves.cons {front back rest taken : TokenBag} {t wish : Token}
    (h : Serves clock (front ++ back) rest taken) (hServes : t.serves clock wish.value = true)
    (hFront : ∀ u ∈ front, u.serves clock wish.value = false) :
    Serves clock (front ++ t :: back) (wish :: rest) (t :: taken) where
  values := by rw [List.map_cons, List.map_cons, h.values, (Token.serves_iff.mp hServes).2]
  earliest := by
    intro k other hOther
    cases k with
    | zero =>
      cases hOther
      rw [supply_erase hServes hFront]
      rfl
    | succ k =>
      have hLater := h.earliest k other hOther
      rw [List.getElem?_cons_succ, List.take_succ_cons, asksFor_cons, hLater]
      by_cases hSame : wish.value = other.value
      · rw [if_pos hSame, ← hSame, supply_erase hServes hFront, List.getElem?_cons_succ]
      · rw [if_neg hSame, supply_erase_of_ne hServes (Ne.symm hSame), Nat.add_zero]

theorem withdraw_go_serves (h : Suffices clock bag request) (taken : TokenBag) :
    ∃ more, withdraw.go clock request bag taken =
        some (taken.reverse ++ more, leftOver clock (request.map Token.value) bag) ∧
      Serves clock bag request more := by
  induction request generalizing bag taken with
  | nil => exact ⟨[], by rw [withdraw.go, List.map_nil, leftOver_nil, List.append_nil], rfl, nofun⟩
  | cons wish rest ih =>
    obtain ⟨front, t, back, rfl, hServes, hFront, hChosen⟩ := exists_earliest (supply_ne_nil h)
    obtain ⟨more, hRest, hMore⟩ := ih (h.erase hServes hFront) (t :: taken)
    refine ⟨t :: more, ?_, hMore.cons hServes hFront⟩
    have hErased : (front ++ t :: back).eraseIdx front.length = front ++ back := by
      rw [List.eraseIdx_append_of_length_le (Nat.le_refl _), Nat.sub_self, List.eraseIdx_cons_zero]
    have hGet : (front ++ t :: back)[front.length]? = some t := by simp
    rw [withdraw.go, hChosen]
    dsimp only
    rw [hErased, hGet, List.map_cons, leftOver_cons hServes hFront]
    simpa using hRest

/-- Where there are enough available tokens of every wanted payload, these serve the request. -/
theorem serves_of_withdraw (h : Suffices clock bag request) {taken left : TokenBag}
    (hTaken : withdraw request clock bag = some (taken, left)) :
    Serves clock bag request taken ∧ left = leftOver clock (request.map Token.value) bag := by
  obtain ⟨more, hGo, hServes⟩ := withdraw_go_serves h []
  rw [withdraw, hGo] at hTaken
  cases hTaken
  exact ⟨hServes, rfl⟩

/-- A withdrawal succeeds if and only if the available tokens last, and otherwise changes nothing. It
takes as many available tokens as are requested and keeps the others in order; and if there are enough
of every payload, each wish is served exactly, by the earliest token of its payload that is there. -/
theorem withdrawal_law (request : TokenBag) (clock : Time) (bag : TokenBag) :
    ((withdrawal request clock bag).1.isSome = true ↔ request.length ≤ available clock bag) ∧
    ((withdrawal request clock bag).1 = none → (withdrawal request clock bag).2 = bag) ∧
    ∀ taken left, withdrawal request clock bag = (some taken, left) →
      taken.length = request.length ∧ (∀ t ∈ taken, t.time ≤ clock) ∧
      left.Sublist bag ∧ bag.Perm (left ++ taken) ∧
      (Suffices clock bag request →
        Serves clock bag request taken ∧ left = leftOver clock (request.map Token.value) bag) := by
  refine ⟨?_, fun hNone => ?_, fun taken left hSome => ?_⟩
  · rw [fst_withdrawal, Option.isSome_map, isSome_withdraw_iff]
  · rw [fst_withdrawal, Option.map_eq_none_iff] at hNone
    rw [withdrawal_eq, hNone]
  · have hTaken := withdrawal_eq_some_iff.mp hSome
    obtain ⟨hSublist, hPerm, hTimes⟩ := withdraw_spec hTaken
    exact ⟨length_of_withdraw hTaken, hTimes, hSublist, hPerm, fun h => serves_of_withdraw h hTaken⟩

/-- Of two tokens with one payload the earlier is taken first, and one that comes too late is not. -/
theorem withdrawal_law_crowd :
    let crowd : TokenBag := [{ value := .int 2, time := 9 }, { value := .int 1 }, { value := .unit },
      { value := .int 2, time := 3 }, { value := .int 1, time := 5 }, { value := .int 2 }]
    let wishes : TokenBag := [{ value := .int 2 }, { value := .int 1 }, { value := .int 2 }]
    let taken : TokenBag := [{ value := .int 2, time := 3 }, { value := .int 1 }, { value := .int 2 }]
    wishes.length ≤ available 5 crowd ∧ Suffices 5 crowd wishes ∧ Serves 5 crowd wishes taken ∧
      crowd.Perm (leftOver 5 [.int 2, .int 1, .int 2] crowd ++ taken) := by
  intro crowd wishes taken
  have hSuffices : Suffices 5 crowd wishes := by decide
  obtain ⟨hSucceeds, _, hLaw⟩ := withdrawal_law wishes 5 crowd
  obtain ⟨_, _, _, hPerm, hServes⟩ := hLaw taken
    [{ value := .int 2, time := 9 }, { value := .unit }, { value := .int 1, time := 5 }] (by decide)
  exact ⟨hSucceeds.mp (by decide), hSuffices, (hServes hSuffices).1,
    (hServes hSuffices).2 ▸ hPerm⟩

end TokenBag
end Petri
