import Mathlib

/-! # Results that may be errors -/
namespace Petri
set_option autoImplicit false

theorem bind_eq_ok_iff {ε α β : Type} {x : Except ε α} {f : α → Except ε β} {b : β} :
    (x >>= f) = .ok b ↔ ∃ a, x = .ok a ∧ f a = .ok b := by
  cases x <;> simp [bind, Except.bind]

theorem bind_eq_error_iff {ε α β : Type} {x : Except ε α} {f : α → Except ε β} {e : ε} :
    (x >>= f) = .error e ↔ x = .error e ∨ ∃ a, x = .ok a ∧ f a = .error e := by
  cases x <;> simp [bind, Except.bind]

theorem forall_of_eq_ok {ε α : Type} {x : Except ε α} {b : α} {P : α → Prop} (hx : x = .ok b)
    (hb : P b) : ∀ a, x = .ok a → P a := by
  intro a ha
  obtain rfl : b = a := Except.ok.inj (hx.symm.trans ha)
  exact hb

theorem bind_congr_of_ok {ε α β : Type} {x : Except ε α} {f g : α → Except ε β}
    (h : ∀ a, x = .ok a → f a = g a) : (x >>= f) = (x >>= g) := by
  cases x with
  | error e => rfl
  | ok a => exact h a rfl

theorem pure_eq_ok_iff {ε α : Type} {a b : α} : (pure a : Except ε α) = .ok b ↔ b = a := by
  simp [pure, Except.pure, @eq_comm _ b]

theorem mapM_eq_ok_iff {ε α β : Type} {f : α → Except ε β} {as : List α} {bs : List β} :
    as.mapM f = .ok bs ↔ List.Forall₂ (fun a b => f a = .ok b) as bs := by
  induction as generalizing bs with
  | nil => simp [pure_eq_ok_iff]
  | cons a as ih =>
    simp only [List.mapM_cons, bind_eq_ok_iff, pure_eq_ok_iff, ih, List.forall₂_cons_left_iff]
    constructor
    · rintro ⟨b, hb, bs, hbs, rfl⟩
      exact ⟨b, bs, hb, hbs, rfl⟩
    · rintro ⟨b, bs, hb, hbs, rfl⟩
      exact ⟨b, hb, bs, hbs, rfl⟩

theorem exists_mapM_iff {ε α β : Type} {f : α → Except ε β} {as : List α} :
    (∃ bs, as.mapM f = .ok bs) ↔ ∀ a ∈ as, ∃ b, f a = .ok b := by
  induction as with
  | nil => simp [pure_eq_ok_iff]
  | cons a as ih =>
    rw [List.forall_mem_cons, ← ih]
    simp only [List.mapM_cons, bind_eq_ok_iff, pure_eq_ok_iff]
    constructor
    · rintro ⟨_, b, hb, bs, hbs, _⟩
      exact ⟨⟨b, hb⟩, bs, hbs⟩
    · rintro ⟨⟨b, hb⟩, bs, hbs⟩
      exact ⟨b :: bs, b, hb, bs, hbs, rfl⟩

theorem exists_left_of_forall₂ {α β : Type} {R : α → β → Prop} {as : List α} {bs : List β}
    (h : List.Forall₂ R as bs) {b : β} (hb : b ∈ bs) : ∃ a ∈ as, R a b := by
  induction h with
  | nil => cases hb
  | @cons a c as bs hStep _ ih =>
    rcases List.mem_cons.mp hb with rfl | hb
    · exact ⟨a, List.mem_cons_self, hStep⟩
    · obtain ⟨d, hd, hStep⟩ := ih hb
      exact ⟨d, List.mem_cons_of_mem _ hd, hStep⟩

theorem exists_of_mem_mapM {ε α β : Type} {f : α → Except ε β} {as : List α} {bs : List β}
    (h : as.mapM f = .ok bs) {b : β} (hb : b ∈ bs) : ∃ a ∈ as, f a = .ok b :=
  exists_left_of_forall₂ (mapM_eq_ok_iff.mp h) hb

theorem exists_mem_of_mapM {ε α β : Type} {f : α → Except ε β} {as : List α} {bs : List β}
    (h : as.mapM f = .ok bs) {a : α} (ha : a ∈ as) : ∃ b ∈ bs, f a = .ok b :=
  exists_left_of_forall₂ (R := fun b a => f a = .ok b) (mapM_eq_ok_iff.mp h).flip ha

/-- What no step changes is the same in the end. -/
theorem foldl_keeps {α β γ : Type} {f : β → α → β} (view : β → γ)
    (hStep : ∀ b a, view (f b a) = view b) (as : List α) (b : β) :
    view (as.foldl f b) = view b := by
  induction as generalizing b with
  | nil => rfl
  | cons a as ih => rw [List.foldl_cons, ih, hStep]

/-- What every step keeps is kept by all of them. -/
theorem foldlM_keeps {ε α β : Type} {f : β → α → Except ε β} {P : β → Prop} {as : List α}
    (hStep : ∀ a ∈ as, ∀ b c, P b → f b a = .ok c → P c) {b c : β} (hb : P b)
    (h : as.foldlM f b = .ok c) : P c := by
  induction as generalizing b with
  | nil =>
    cases h
    exact hb
  | cons a as ih =>
    rw [List.forall_mem_cons] at hStep
    rw [List.foldlM_cons] at h
    obtain ⟨d, hFirst, hRest⟩ := bind_eq_ok_iff.mp h
    exact ih hStep.2 (hStep.1 b d hb hFirst) hRest

/-- Steps that succeed or fail whatever went before succeed together if each of them does. -/
theorem exists_foldlM_iff {ε α β : Type} {f : β → α → Except ε β} {P : β → Prop} {Good : α → Prop}
    (hStep : ∀ b a, P b → ((∃ c, f b a = .ok c) ↔ Good a))
    (hKeep : ∀ b a c, P b → f b a = .ok c → P c) (as : List α) {b : β} (hb : P b) :
    (∃ c, as.foldlM f b = .ok c) ↔ ∀ a ∈ as, Good a := by
  induction as generalizing b with
  | nil => simp [pure_eq_ok_iff]
  | cons a as ih =>
    rw [List.forall_mem_cons, ← hStep b a hb]
    simp only [List.foldlM_cons, bind_eq_ok_iff]
    constructor
    · rintro ⟨c, d, hFirst, hRest⟩
      exact ⟨⟨d, hFirst⟩, (ih (hKeep b a d hb hFirst)).mp ⟨c, hRest⟩⟩
    · rintro ⟨⟨d, hFirst⟩, hGood⟩
      obtain ⟨c, hRest⟩ := (ih (hKeep b a d hb hFirst)).mpr hGood
      exact ⟨c, d, hFirst, hRest⟩

/-- Steps fail together at one of them, after those before it have succeeded. -/
theorem exists_of_foldlM_eq_error {ε α β : Type} {f : β → α → Except ε β} {as : List α} {b : β}
    {e : ε} (h : as.foldlM f b = .error e) :
    ∃ done a rest c, as = done ++ a :: rest ∧ done.foldlM f b = .ok c ∧ f c a = .error e := by
  induction as generalizing b with
  | nil => cases h
  | cons a as ih =>
    rw [List.foldlM_cons] at h
    rcases bind_eq_error_iff.mp h with hFirst | ⟨d, hFirst, hRest⟩
    · exact ⟨[], a, as, b, rfl, rfl, hFirst⟩
    · obtain ⟨done, x, rest, c, rfl, hDone, hError⟩ := ih hRest
      refine ⟨a :: done, x, rest, c, rfl, ?_, hError⟩
      rw [List.foldlM_cons, hFirst]
      exact hDone

theorem exists_of_mapM_eq_error {ε α β : Type} {f : α → Except ε β} {as : List α} {e : ε}
    (h : as.mapM f = .error e) : ∃ a ∈ as, f a = .error e := by
  induction as with
  | nil => cases h
  | cons a as ih =>
    rw [List.mapM_cons] at h
    rcases bind_eq_error_iff.mp h with hFirst | ⟨b, _, hRest⟩
    · exact ⟨a, List.mem_cons_self, hFirst⟩
    · rcases bind_eq_error_iff.mp hRest with hOthers | ⟨bs, _, hPure⟩
      · obtain ⟨x, hx, hError⟩ := ih hOthers
        exact ⟨x, List.mem_cons_of_mem _ hx, hError⟩
      · cases hPure

theorem run_bind {ε α β : Type} (x : ExceptT ε Id α) (f : α → ExceptT ε Id β) :
    (x >>= f).run =
      match x.run with
      | .ok a => (f a).run
      | .error e => .error e := by
  rw [ExceptT.run_bind]
  cases x.run <;> rfl

end Petri
