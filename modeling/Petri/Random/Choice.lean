import Petri.Random.Keystream

/-! # Choosing an index

An index below `n` is chosen by multiplying a random word by `n`: the high half of the product is
the index, unless the low half lies outside a zone that is the same for every index; then another
word is drawn.
-/
namespace Petri.Random
set_option autoImplicit false

def wordLimit : Nat := 0x100000000

/-- The greatest low half that is accepted: `n` shifted to the left as far as a word allows, less
one. -/
def zone (n : Nat) : Nat := (n <<< (31 - n.log2)) - 1

def accept (n word : Nat) : Option Nat :=
  let product := word * n
  if product % wordLimit ≤ zone n then some (product / wordLimit) else none

theorem lt_of_accept {n word index : Nat} (hPositive : 0 < n) (hDrawn : word < wordLimit)
    (h : accept n word = some index) : index < n := by
  simp only [accept, Option.ite_none_right_eq_some, Option.some.injEq] at h
  obtain ⟨_, rfl⟩ := h
  exact Nat.div_lt_of_lt_mul (Nat.mul_lt_mul_of_pos_right hDrawn hPositive)

namespace Source

theorem draw_lt (source : Source) : source.draw.1 < wordLimit := by
  unfold draw
  split <;> exact UInt32.toNat_lt _

/-- The index up to `k` that the next word chooses, if the word is not rejected. -/
def nextIndex (source : Source) (k : Nat) : Option (Fin (k + 1)) :=
  (accept (k + 1) source.draw.1).pmap Fin.mk fun _ => lt_of_accept k.succ_pos source.draw_lt

instance (k : Nat) : Nonempty (Fin (k + 1) × Source) := ⟨⟨0, k.succ_pos⟩, { key := [] }⟩

/-- Draws words until one is not rejected, however many that takes. About a source all of whose words
are rejected the equation tells nothing. -/
def drawIndex (source : Source) (k : Nat) : Fin (k + 1) × Source :=
  match source.nextIndex k with
  | some index => (index, source.draw.2)
  | none => source.draw.2 |>.drawIndex k
partial_fixpoint

end Source

/-- Chooses an element; nothing is drawn when there is none. -/
def choose {α : Type} (items : List α) (source : Source) : Option α × Source :=
  match items with
  | [] => (none, source)
  | first :: rest =>
    let (index, source) := source.drawIndex rest.length
    (some ((first :: rest).get index), source)

section Choose
variable {α : Type}

theorem choose_cons (first : α) (rest : List α) (source : Source) :
    choose (first :: rest) source =
      (some ((first :: rest).get (source.drawIndex rest.length).1),
        (source.drawIndex rest.length).2) := rfl

/-- With one element there is nothing to choose, but words are drawn all the same. -/
theorem choose_singleton (only : α) (source : Source) :
    choose [only] source = (some only, (source.drawIndex 0).2) := by
  rw [choose_cons, List.get_eq_getElem, List.getElem_singleton]
  rfl

theorem exists_choose_cons (first : α) (rest : List α) (source : Source) :
    ∃ chosen after, choose (first :: rest) source = (some chosen, after) :=
  ⟨_, _, choose_cons first rest source⟩

theorem mem_of_choose {items : List α} {source after : Source} {chosen : α}
    (h : choose items source = (some chosen, after)) : chosen ∈ items := by
  cases items with
  | nil => cases h
  | cons first rest =>
    rw [choose_cons] at h
    cases h
    exact List.get_mem _ _

end Choose
end Petri.Random
