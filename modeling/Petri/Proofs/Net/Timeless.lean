import Petri.Interpreter
import Petri.Proofs.Net.Firing
import Petri.Proofs.Net.Queries
import Petri.Proofs.Net.WellFormed
import Petri.Proofs.TokenBag

/-! # Nets without time

A net without timed tokens whose inscriptions have no delay. No firing brings time into it: what it
takes has lain there untimed, and what it makes is available at once and therefore not shifted.
-/
namespace Petri
set_option autoImplicit false

namespace TokenBag

def Untimed (bag : TokenBag) : Prop := ∀ t ∈ bag, t.timed = false

instance (bag : TokenBag) : Decidable bag.Untimed :=
  inferInstanceAs (Decidable (∀ t ∈ bag, t.timed = false))

namespace Untimed
variable {bag : TokenBag}

theorem append {more : TokenBag} (h : bag.Untimed) (hMore : more.Untimed) :
    Untimed (bag ++ more) :=
  List.forall_mem_append.mpr ⟨h, hMore⟩

theorem shift (h : bag.Untimed) (delta : Time) : TokenBag.shift delta bag = some bag := by
  refine (shift_eq_some_iff delta).mpr ⟨fun t ht hTimed => ?_, ?_⟩
  · rw [h t ht] at hTimed
    contradiction
  · have hKept : ∀ t ∈ bag, t.later delta = t :=
      fun t ht => Token.later_of_untimed delta (Token.timed_eq_false_iff.mp (h t ht))
    rw [TokenBag.later, List.map_congr_left hKept, List.map_id']

theorem withdraw (h : bag.Untimed) {request taken left : TokenBag} {clock : Time}
    (hTaken : TokenBag.withdraw request clock bag = some (taken, left)) :
    taken.Untimed ∧ left.Untimed := by
  obtain ⟨_, hPerm, _⟩ := withdraw_spec hTaken
  exact ⟨fun t ht => h t (hPerm.mem_iff.mpr (List.mem_append_right _ ht)),
    fun t ht => h t (hPerm.mem_iff.mpr (List.mem_append_left _ ht))⟩

end Untimed
end TokenBag

/-! ## Inscriptions -/

/-- The text of an inscription without `@`, or of none. -/
def Inscription.Undelayed (text : String) : Prop :=
  ∀ i, Inscription.readText text = .ok i → i.delay = none

theorem Inscription.untimed_of_tokens {i : Inscription} (h : i.delay = none) {context : Context}
    {made : TokenBag} (hMade : i.tokens context = .ok made) : made.Untimed := by
  have hTime : i.delayTime context = .ok 0 := by rw [delayTime, h]
  obtain ⟨time, hDelay, hMade⟩ := bind_eq_ok_iff.mp hMade
  obtain rfl : 0 = time := Except.ok.inj (hTime.symm.trans hDelay)
  obtain ⟨v, _, hMade⟩ := bind_eq_ok_iff.mp hMade
  cases v with
  | list items =>
    cases hMade
    exact List.forall_mem_map.mpr fun _ _ => rfl
  | unit | bool | int | str | tuple =>
    cases hMade
    exact List.forall_mem_singleton.mpr rfl

theorem Interpreter.untimed_of_execute {text : String} (h : Inscription.Undelayed text)
    {context : Context} {made : TokenBag} (hMade : execute text context = .ok made) :
    made.Untimed := by
  obtain ⟨i, hRead, hMade⟩ := bind_eq_ok_iff.mp hMade
  exact Inscription.untimed_of_tokens (h i hRead) hMade

/-! ## Firings -/

def Scratch.Untimed (scratch : Scratch) : Prop :=
  ∀ place bag, scratch.lookup place = some bag → TokenBag.Untimed bag

theorem Scratch.untimed_nil : Scratch.Untimed [] := fun _ _ hNone => nomatch hNone

theorem Scratch.Untimed.put {scratch : Scratch} (h : scratch.Untimed) (place : String)
    {bag : TokenBag} (hBag : bag.Untimed) : (scratch.put place bag).Untimed := by
  intro other found hFound
  rw [Scratch.put, List.lookup_cons] at hFound
  split at hFound
  · cases hFound
    exact hBag
  · exact h other found hFound

/-- No token that a firing has moved is timed. -/
structure Firing.Untimed (f : Firing) : Prop where
  consumed : ∀ x ∈ f.consumed, x.tokens.Untimed
  produced : ∀ x ∈ f.produced, x.tokens.Untimed

namespace Net

/-- No token is timed, and no inscription gives a delay. -/
structure Timeless (net : Net) : Prop where
  untimed : ∀ p ∈ net.places, p.tokens.Untimed
  undelayed : ∀ a ∈ net.arcs, Inscription.Undelayed a.execute

theorem places_commit (net : Net) (scratch : Scratch) (transition : String) (clock : Time) :
    (net.commit scratch transition clock).places =
      net.places.map fun p => { p with tokens := (scratch.lookup p.id).getD p.tokens } := by
  rw [commit, updateTransition, places_mapTransitions, places_mapPlaces]

namespace Timeless
variable {net : Net} {transition : String} {clock : Time} {scratch last : Scratch}
  {moved : List Movement}

theorem earliestPending (h : net.Timeless) (after : Time) : net.earliestPending after = none := by
  refine earliestPending_eq_none_iff.mpr fun p hp t ht => ?_
  have hTime : t.time = 0 := Token.timed_eq_false_iff.mp (h.untimed p hp t ht)
  exact hTime ▸ after.zero_le

theorem untimed_tokensAt (h : net.Timeless) (hScratch : scratch.Untimed) (place : String) :
    (scratch.tokensAt net place).Untimed := by
  rw [Scratch.tokensAt, Net.tokensAt]
  cases hCopy : scratch.lookup place with
  | some bag => exact hScratch place bag hCopy
  | none =>
    cases hPlace : net.place? place with
    | none => exact List.forall_mem_nil _
    | some p => exact h.untimed p (mem_of_place? hPlace).1

theorem consume (h : net.Timeless) {ev : Evaluator Id} {arcs : List InputArc}
    (hScratch : scratch.Untimed)
    (hRun : (net.consume ev transition clock arcs scratch).run = .ok (moved, last)) :
    (∀ x ∈ moved, x.tokens.Untimed) ∧ last.Untimed := by
  induction arcs generalizing scratch moved last with
  | nil =>
    cases hRun
    exact ⟨List.forall_mem_nil _, hScratch⟩
  | cons a rest ih =>
    rw [run_consume_cons] at hRun
    split at hRun
    · cases hRun
    · split at hRun
      · cases hRun
      · rename_i taken left hTaken
        obtain ⟨hHere, hLeft⟩ := (h.untimed_tokensAt hScratch a.place).withdraw hTaken
        split at hRun
        · cases hRun
        · rename_i others after hRest
          cases hRun
          obtain ⟨hOthers, hLast⟩ := ih (hScratch.put a.place hLeft) hRest
          exact ⟨List.forall_mem_cons.mpr ⟨hHere, hOthers⟩, hLast⟩

theorem produce (h : net.Timeless) {arcs : List OutputArc}
    (hArcs : ∀ a ∈ arcs, Inscription.Undelayed a.execute) (hScratch : scratch.Untimed)
    (hRun : (net.produce Petri.interpreter transition clock arcs scratch).run =
      .ok (moved, last)) :
    (∀ x ∈ moved, x.tokens.Untimed) ∧ last.Untimed := by
  induction arcs generalizing scratch moved last with
  | nil =>
    cases hRun
    exact ⟨List.forall_mem_nil _, hScratch⟩
  | cons a rest ih =>
    obtain ⟨hText, hRestTexts⟩ := List.forall_mem_cons.mp hArcs
    rw [run_produce_cons] at hRun
    split at hRun
    · cases hRun
    · rename_i made hMade
      -- without a time of their own these tokens are not shifted by the clock
      have hHere : made.Untimed := Interpreter.untimed_of_execute hText hMade
      rw [hHere.shift clock] at hRun
      dsimp only at hRun
      split at hRun
      · split at hRun
        · cases hRun
        · rename_i others after hRest
          cases hRun
          have hPut := hScratch.put a.place ((h.untimed_tokensAt hScratch a.place).append hHere)
          obtain ⟨hOthers, hLast⟩ := ih hRestTexts hPut hRest
          exact ⟨List.forall_mem_cons.mpr ⟨hHere, hOthers⟩, hLast⟩
      · cases hRun

theorem commit (h : net.Timeless) (hScratch : scratch.Untimed) :
    (net.commit scratch transition clock).Timeless where
  untimed := by
    rw [places_commit, List.forall_mem_map]
    intro p hp
    cases hCopy : scratch.lookup p.id with
    | none => exact h.untimed p hp
    | some bag => exact hScratch p.id bag hCopy
  undelayed := h.undelayed

/-- Time does not come into a net by firing, at whatever clock. -/
theorem fire (h : net.Timeless) {firing : Firing} {after : Net}
    (hRun : (net.fire Petri.interpreter transition clock).run = .ok (firing, after)) :
    after.Timeless ∧ firing.Untimed := by
  have hOutputs : ∀ a ∈ net.outputsOf transition, Inscription.Undelayed a.execute :=
    fun a ha => h.undelayed (.output a) (mem_arcs_of_output (mem_outputArcs_of_outputsOf ha))
  rw [run_fire] at hRun
  split at hRun
  · cases hRun
  · split at hRun
    · cases hRun
    · rename_i consumed scratch hConsume
      obtain ⟨hConsumed, hScratch⟩ := h.consume Scratch.untimed_nil hConsume
      split at hRun
      · cases hRun
      · rename_i produced last hProduce
        cases hRun
        obtain ⟨hProduced, hLast⟩ := h.produce hOutputs hScratch hProduce
        exact ⟨h.commit hLast, List.forall_mem_map.mpr hConsumed, List.forall_mem_map.mpr hProduced⟩

end Timeless
end Net
end Petri
