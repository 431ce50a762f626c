import Petri.Net.Basic
import Petri.Proofs.Text.Scanning

/-! # Made-up identifiers

A numbered identifier tells its kind and its number, so different numbers make different ones and
among finitely many taken ones a search upwards ends. The next number is the one where it ends.
-/
namespace Petri.Numbering
set_option autoImplicit false

variable {kind kind' : ElementKind} {taken taken' : List String} {n m : Nat}

theorem toList_numbered (kind : ElementKind) (n : Nat) :
    ∃ c, kind.initial.toList = [c] ∧
      (numbered kind n).toList = c :: (toString n).toList := by
  rw [numbered, String.toList_append]
  cases kind <;> exact ⟨_, rfl, rfl⟩

theorem numbered_injective (h : numbered kind n = numbered kind' m) : kind = kind' ∧ n = m := by
  obtain ⟨c, hInitial, hList⟩ := toList_numbered kind n
  obtain ⟨c', hInitial', hList'⟩ := toList_numbered kind' m
  rw [h, hList'] at hList
  obtain ⟨rfl, hDigits⟩ := List.cons.inj hList
  constructor
  · rw [← hInitial'] at hInitial
    revert hInitial
    cases kind <;> cases kind' <;> decide
  · rw [← Text.ofDigitChars_toString n, ← hDigits, Text.ofDigitChars_toString]

/-- A search for a number whose identifier is free, from the one after `n` upwards, ends at `m`. -/
inductive Search (kind : ElementKind) (taken : List String) : Nat → Nat → Prop where
  | found {n : Nat} (hFree : numbered kind (n + 1) ∉ taken) : Search kind taken n (n + 1)
  | skip {n m : Nat} (hTaken : numbered kind (n + 1) ∈ taken) (h : Search kind taken (n + 1) m) :
    Search kind taken n m

namespace Search

theorem free (h : Search kind taken n m) : numbered kind m ∉ taken := by
  induction h with
  | found hFree => exact hFree
  | skip _ _ ih => exact ih

theorem unique {m' : Nat} (h : Search kind taken n m) (h' : Search kind taken n m') : m = m' := by
  induction h with
  | found hFree =>
    cases h' with
    | found => rfl
    | skip hTaken => exact absurd hTaken hFree
  | skip hTaken _ ih =>
    cases h' with
    | found hFree => exact absurd hTaken hFree
    | skip _ hRest => exact ih hRest

/-- Only which identifiers are taken matters. -/
theorem congr (hSame : ∀ id, id ∈ taken ↔ id ∈ taken') (h : Search kind taken n m) :
    Search kind taken' n m := by
  induction h with
  | found hFree => exact .found fun hTaken => hFree ((hSame _).mpr hTaken)
  | skip hTaken _ ih => exact .skip ((hSame _).mp hTaken) ih

theorem of_find? {count : Nat}
    (h : (List.range' (n + 1) count).find? (fun k => !taken.contains (numbered kind k)) = some m) :
    Search kind taken n m := by
  induction count generalizing n with
  | zero => cases h
  | succ count ih =>
    rw [List.range'_succ, List.find?_cons] at h
    split at h
    · rename_i hFree
      cases h
      exact .found (by simpa using hFree)
    · rename_i hTaken
      exact .skip (by simpa using hTaken) (ih h)

end Search

/-- More candidates than there are taken identifiers are not all taken. -/
theorem exists_free (kind : ElementKind) (taken : List String) (n : Nat) :
    ∃ k ∈ List.range' n (taken.length + 1), numbered kind k ∉ taken := by
  by_contra hNone
  push Not at hNone
  have hNodup : ((List.range' n (taken.length + 1)).map (numbered kind)).Nodup :=
    List.Nodup.map (fun _ _ h => (numbered_injective h).2) List.nodup_range'
  have hSubset : (List.range' n (taken.length + 1)).map (numbered kind) ⊆ taken := by
    intro id hId
    obtain ⟨k, hk, rfl⟩ := List.mem_map.mp hId
    exact hNone k hk
  have hLength := (hNodup.subperm hSubset).length_le
  rw [List.length_map, List.length_range'] at hLength
  omega

/-- The search for the next number ends, whatever is taken. -/
theorem search_next (numbering : Numbering) (kind : ElementKind) (taken : List String) :
    Search kind taken numbering.last (numbering.next kind taken).last := by
  obtain ⟨k, hMem, hFree⟩ := exists_free kind taken (numbering.last + 1)
  have hSome : ((List.range' (numbering.last + 1) (taken.length + 1)).find? fun k =>
      !taken.contains (numbered kind k)).isSome := by
    rw [List.find?_isSome]
    exact ⟨k, hMem, by simpa using hFree⟩
  obtain ⟨m, hFound⟩ := Option.isSome_iff_exists.mp hSome
  have hNext : (numbering.next kind taken).last = m := by
    rw [next, hFound, Option.getD_some]
  rw [hNext]
  exact .of_find? hFound

/-- Only which identifiers are taken matters to the next number. -/
theorem next_congr (numbering : Numbering) (kind : ElementKind)
    (hSame : ∀ id, id ∈ taken ↔ id ∈ taken') :
    numbering.next kind taken = numbering.next kind taken' := by
  have hSearch := (search_next numbering kind taken).congr hSame
  exact congrArg Numbering.mk (hSearch.unique (search_next numbering kind taken'))

end Petri.Numbering
