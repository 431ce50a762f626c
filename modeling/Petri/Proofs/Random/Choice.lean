import Mathlib
import Petri.Random.Choice

/-! # Words that choose an index

The words that choose an index are a stretch of consecutive ones. Every index has a stretch of the same
length, a power of two, and all words outside the stretches are rejected. A choice draws words until
one is not rejected.
-/
namespace Petri.Random
set_option autoImplicit false

/-! ## One word -/

/-- How many of 32 binary digits stand before the first one of the number. -/
def leadingZeros (n : Nat) : Nat := 31 - n.log2

/-- How many words choose one index among `n`. -/
def share (n : Nat) : Nat := 2 ^ leadingZeros n

/-- The first word that chooses the index. -/
def firstWord (n index : Nat) : Nat := index * wordLimit ⌈/⌉ n

theorem share_pos (n : Nat) : 0 < share n := Nat.two_pow_pos _

section Index
variable {n : Nat} (hPositive : 0 < n)
include hPositive

theorem zone_succ : zone n + 1 = n * share n := by
  have hProduct : 0 < n * share n := Nat.mul_pos hPositive (share_pos n)
  rw [zone, Nat.shiftLeft_eq]
  exact Nat.sub_add_cancel hProduct

theorem firstWord_le_iff {index word : Nat} :
    firstWord n index ≤ word ↔ index * wordLimit ≤ word * n := by
  rw [firstWord, ceilDiv_le_iff_le_mul hPositive, Nat.mul_comm n]

theorem lt_firstWord_add_iff {index word k : Nat} :
    word < firstWord n index + k ↔ word * n < index * wordLimit + k * n := by
  rcases Nat.lt_or_ge word k with hFew | hMany
  · have hProduct : word * n < k * n := Nat.mul_lt_mul_of_pos_right hFew hPositive
    exact iff_of_true (by omega) (by omega)
  · obtain ⟨rest, rfl⟩ := Nat.exists_eq_add_of_le' hMany
    rw [Nat.add_mul, Nat.add_lt_add_iff_right, Nat.add_lt_add_iff_right, ← not_le, ← not_le,
      firstWord_le_iff hPositive]

variable (hWord : n < wordLimit)
include hWord

/-- Shifted by its leading zeros, a number has a one as the first of 32 digits. -/
theorem share_bounds : wordLimit ≤ 2 * (n * share n) ∧ n * share n < wordLimit := by
  have hLog : n.log2 ≤ 31 := Nat.le_of_lt_succ ((Nat.log2_lt hPositive.ne').mpr hWord)
  have hLower : 2 ^ n.log2 ≤ n := Nat.log2_self_le hPositive.ne'
  have hUpper : n < 2 ^ (n.log2 + 1) := Nat.lt_log2_self
  have hShare : 2 ^ n.log2 * share n = 2 ^ 31 := by
    rw [share, leadingZeros, ← pow_add, Nat.add_sub_cancel' hLog]
  have hLimit : wordLimit = 2 * 2 ^ 31 := rfl
  constructor
  · rw [hLimit, ← hShare]
    exact Nat.mul_le_mul_left 2 (Nat.mul_le_mul_right _ hLower)
  · calc n * share n
      _ < 2 ^ (n.log2 + 1) * share n := Nat.mul_lt_mul_of_pos_right hUpper (share_pos n)
      _ = 2 * (2 ^ n.log2 * share n) := by rw [pow_succ']; ring
      _ = wordLimit := by rw [hShare, hLimit]

theorem accept_eq_some_iff {word index : Nat} :
    accept n word = some index ↔
      firstWord n index ≤ word ∧ word < firstWord n index + share n := by
  have hZone := zone_succ hPositive
  have hBelow := (share_bounds hPositive hWord).2
  have hHalves : accept n word = some index ↔
      word * n % wordLimit ≤ zone n ∧ word * n / wordLimit = index := by
    simp only [accept, Option.ite_none_right_eq_some, Option.some.injEq]
  rw [hHalves, firstWord_le_iff hPositive, lt_firstWord_add_iff hPositive, Nat.mul_comm (share n)]
  generalize word * n = product
  generalize n * share n = width at *
  simp only [wordLimit] at *
  omega

theorem words_of_index {index : Nat} (hIndex : index < n) :
    (Finset.range wordLimit).filter (fun word => accept n word = some index) =
      Finset.Ico (firstWord n index) (firstWord n index + share n) := by
  ext word
  rw [Finset.mem_filter, Finset.mem_range, Finset.mem_Ico, accept_eq_some_iff hPositive hWord,
    and_iff_right_iff_imp]
  rintro ⟨_, hUpper⟩
  have hProduct := (lt_firstWord_add_iff hPositive).mp hUpper
  have hBelow := (share_bounds hPositive hWord).2
  rw [Nat.mul_comm n] at hBelow
  have hNext : (index + 1) * wordLimit ≤ n * wordLimit := Nat.mul_le_mul_right _ hIndex
  rw [Nat.succ_mul] at hNext
  exact Nat.lt_of_mul_lt_mul_right (a := n) (by rw [Nat.mul_comm wordLimit]; omega)

theorem card_words_of_index {index : Nat} (hIndex : index < n) :
    ((Finset.range wordLimit).filter fun word => accept n word = some index).card = share n := by
  rw [words_of_index hPositive hWord hIndex, Nat.card_Ico, Nat.add_sub_cancel_left]

theorem card_rejected_add :
    ((Finset.range wordLimit).filter fun word => accept n word = none).card + n * share n =
      wordLimit := by
  -- a word chooses an index below `n` or nothing, so the counts of these add up to all words
  have hMaps : ∀ word ∈ Finset.range wordLimit, accept n word ∈ (Finset.range n).insertNone := by
    intro word hDrawn
    rw [Finset.mem_insertNone]
    intro index hIndex
    exact Finset.mem_range.mpr
      (lt_of_accept hPositive (Finset.mem_range.mp hDrawn) hIndex)
  have hShares : ∀ index ∈ Finset.range n,
      ((Finset.range wordLimit).filter fun word => accept n word = some index).card = share n :=
    fun index hIndex => card_words_of_index hPositive hWord (Finset.mem_range.mp hIndex)
  have hTotal := Finset.card_eq_sum_card_fiberwise hMaps
  rw [Finset.card_range, Finset.sum_insertNone, Finset.sum_congr rfl hShares, Finset.sum_const,
    Finset.card_range, smul_eq_mul] at hTotal
  exact hTotal.symm

end Index

/-! ## One choice -/

section Choice
variable {α : Type}

/-- The item that a word chooses, if it is not rejected. -/
def pick (items : List α) (word : Nat) : Option α :=
  (accept items.length word).bind fun index => items[index]?

variable {items : List α}

/-- A word that is drawn is rejected or chooses an item. -/
theorem pick_eq_none_iff (hItems : items ≠ []) {word : Nat} (hDrawn : word < wordLimit) :
    pick items word = none ↔ accept items.length word = none := by
  rw [pick, Option.bind_eq_none_iff]
  cases hAccept : accept items.length word with
  | none => simp
  | some index =>
    have hIndex := lt_of_accept (List.length_pos_iff.mpr hItems) hDrawn hAccept
    simp [hIndex]

/-- Where no item occurs twice, as many words choose one item as another. -/
theorem card_words_of_item [DecidableEq α] (hDistinct : items.Nodup)
    (hSize : items.length < wordLimit) {a : α} (ha : a ∈ items) :
    ((Finset.range wordLimit).filter fun word => pick items word = some a).card =
      share items.length := by
  obtain ⟨index, hIndex, rfl⟩ := List.getElem_of_mem ha
  have hSame (word : Nat) :
      pick items word = some items[index] ↔ accept items.length word = some index := by
    rw [pick, Option.bind_eq_some_iff]
    constructor
    · rintro ⟨other, hOther, hItem⟩
      obtain ⟨hRange, hEqual⟩ := List.getElem?_eq_some_iff.mp hItem
      rw [hOther, (hDistinct.getElem_inj_iff).mp hEqual]
    · intro hAccept
      exact ⟨index, hAccept, List.getElem?_eq_getElem hIndex⟩
  simp only [hSame]
  exact card_words_of_index (Nat.zero_lt_of_lt hIndex) hSize hIndex

/-- The words that are drawn, so many, until one is not rejected, and the item that it chooses. -/
inductive Draws (items : List α) : Nat → Source → α → Source → Prop where
  | accepted {source : Source} {a : α} (h : pick items source.draw.1 = some a) :
    Draws items 1 source a source.draw.2
  | rejected {k : Nat} {source after : Source} {a : α} (h : pick items source.draw.1 = none)
    (hRest : Draws items k source.draw.2 a after) : Draws items (k + 1) source a after

section Cons
variable {first : α} {rest : List α} {source after : Source} {a : α}

theorem nextIndex_of_pick (h : pick (first :: rest) source.draw.1 = some a) :
    ∃ index, source.nextIndex rest.length = some index ∧ (first :: rest).get index = a := by
  obtain ⟨index, hAccept, hItem⟩ := Option.bind_eq_some_iff.mp h
  obtain ⟨hIndex, hItem⟩ := List.getElem?_eq_some_iff.mp hItem
  exact ⟨⟨index, hIndex⟩, Option.pmap_eq_some_iff.mpr ⟨index, _, hAccept, rfl⟩, hItem⟩

/-- Where the words come to one that is not rejected, so does the search. -/
theorem drawIndex_of_draws {k : Nat} (h : Draws (first :: rest) k source a after) :
    ∃ index, source.drawIndex rest.length = (index, after) ∧ (first :: rest).get index = a := by
  induction h with
  | @accepted source a h =>
    obtain ⟨index, hNext, hItem⟩ := nextIndex_of_pick h
    refine ⟨index, ?_, hItem⟩
    rw [Source.drawIndex, hNext]
  | @rejected k source after a h _ ih =>
    have hAccept := (pick_eq_none_iff (List.cons_ne_nil first rest) source.draw_lt).mp h
    have hNext : source.nextIndex rest.length = none := Option.pmap_eq_none_iff.mpr hAccept
    rwa [Source.drawIndex, hNext]

end Cons

theorem choose_of_draws {k : Nat} {source after : Source} {a : α} (hItems : items ≠ [])
    (h : Draws items k source a after) : choose items source = (some a, after) := by
  obtain ⟨first, rest, rfl⟩ := List.exists_cons_of_ne_nil hItems
  obtain ⟨index, hIndex, rfl⟩ := drawIndex_of_draws h
  rw [choose, hIndex]

end Choice
end Petri.Random
