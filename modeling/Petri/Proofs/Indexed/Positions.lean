import Mathlib

/-! # Positions in lists

Lists of the positions of some elements, and tables of the positions at which keys are.
-/
namespace Petri
set_option autoImplicit false

variable {α β : Type}

/-- The positions of elements that a function is defined on, along with its values. -/
theorem forall₂_findIdxs {p : α → Bool} {f : α → Option β} {l : List α}
    (h : ∀ a ∈ l, p a = (f a).isSome) :
    List.Forall₂ (fun ix b => ∃ a, l[ix]? = some a ∧ f a = some b) (l.findIdxs p)
      (l.filterMap f) := by
  induction l with
  | nil => exact .nil
  | cons a l ih =>
    rw [List.forall_mem_cons] at h
    rw [List.findIdxs_cons, List.findIdxs_start, h.1]
    have hRest : List.Forall₂ (fun ix b => ∃ c, (a :: l)[ix]? = some c ∧ f c = some b)
        ((l.findIdxs p).map (· + 1)) (l.filterMap f) := List.forall₂_map_left_iff.mpr (ih h.2)
    cases hf : f a with
    | none =>
      rw [List.filterMap_cons_none hf]
      exact hRest
    | some b =>
      rw [List.filterMap_cons_some hf]
      exact .cons ⟨a, rfl, hf⟩ hRest

theorem mapM_filterMap_of_forall₂ {γ : Type} {g : γ → Option α} {f : α → Option β} {cs : List γ}
    {bs : List β} (h : List.Forall₂ (fun c b => ∃ a, g c = some a ∧ f a = some b) cs bs) :
    (cs.mapM g).map (List.filterMap f) = some bs := by
  induction h with
  | nil => rfl
  | @cons c b cs bs hStep _ ih =>
    obtain ⟨a, ha, hb⟩ := hStep
    obtain ⟨as, has, rfl⟩ := Option.map_eq_some_iff.mp ih
    simp [ha, has, hb]

theorem mapM_of_forall₂ {f : α → Option β} {as : List α} {bs : List β}
    (h : List.Forall₂ (fun a b => f a = some b) as bs) : as.mapM f = some bs := by
  induction h with
  | nil => rfl
  | cons hStep _ ih => simp [hStep, ih]

theorem findIdxs_concat (p : α → Bool) (l : List α) (a : α) :
    (l ++ [a]).findIdxs p = l.findIdxs p ++ if p a then [l.length] else [] := by
  rw [List.findIdxs_append, List.findIdxs_singleton, Nat.zero_add]

/-- What has a key in a list that has it once is edited in place. -/
theorem set_eq_map (key : α → String) {id : String} {l : List α} {ix : Nat} {a : α} (g : α → α)
    (hAt : l[ix]? = some a) (hOnce : ∀ j, l[j]?.map key = some id ↔ j = ix) :
    l.set ix (g a) = l.map fun b => if key b = id then g b else b := by
  refine List.ext_getElem? fun j => ?_
  rw [List.getElem?_set, List.getElem?_map]
  have hKey := hOnce j
  by_cases hj : ix = j
  · subst hj
    have hHere : key a = id := by simpa [hAt] using hKey
    have hWithin := (List.getElem?_eq_some_iff.mp hAt).1
    rw [if_pos rfl, if_pos hWithin, hAt, Option.map_some, if_pos hHere]
  · rw [if_neg hj]
    cases hB : l[j]? with
    | none => rfl
    | some b =>
      have hOther : key b ≠ id := by
        rw [hB] at hKey
        simpa using fun he => hj (hKey.mp (congrArg some he)).symm
      simp [hOther]

theorem map_edit_of_absent (key : α → String) {id : String} {l : List α} (g : α → α)
    (hAbsent : ∀ a ∈ l, key a ≠ id) : (l.map fun b => if key b = id then g b else b) = l := by
  refine (List.map_congr_left fun a ha => ?_).trans (List.map_id' _)
  rw [if_neg (hAbsent a ha)]

theorem getElem?_concat_map_eq_some_iff {key : α → String} {l : List α} {a : α} {ix : Nat}
    {id : String} : (l ++ [a])[ix]?.map key = some id ↔
      l[ix]?.map key = some id ∨ ix = l.length ∧ key a = id := by
  rcases lt_trichotomy ix l.length with hIx | rfl | hIx
  · simp [List.getElem?_append_left hIx, hIx.ne]
  · simp
  · have hOut : ix - l.length ≠ 0 := by omega
    simp [List.getElem?_append_right hIx.le, hIx.ne', hIx.le, hOut]

/-- A table of positions is kept by writing what is added. -/
theorem table_insert (key : α → String) {l : List α} {table : Std.HashMap String Nat} {a : α}
    (hTable : ∀ id ix, table[id]? = some ix ↔ l[ix]?.map key = some id)
    (hFresh : key a ∉ l.map key) (id : String) (ix : Nat) :
    (table.insert (key a) l.length)[id]? = some ix ↔ (l ++ [a])[ix]?.map key = some id := by
  rw [Std.HashMap.getElem?_insert, getElem?_concat_map_eq_some_iff, ← hTable]
  by_cases hKey : key a = id
  · subst hKey
    have hAbsent : table[key a]? ≠ some ix := fun hSome =>
      hFresh (List.mem_of_getElem? (by rw [List.getElem?_map]; exact (hTable _ _).mp hSome))
    simp [hAbsent, eq_comm]
  · simp [hKey]

end Petri
