import Petri.Proofs.Net.Liveness
import Petri.Proofs.Random.Choice
import Petri.Proofs.Simulation.Driver
import Petri.Proofs.Simulation.Ordinary

/-! # The choice of a transition

A simulation chooses among the enabled transitions with words that are drawn one after another. As many
words choose one of them as another, so the choice is uniform if the words are.
-/
namespace Petri.Simulation
open Petri.Random
set_option autoImplicit false

variable {ev : Evaluator Id} {s : Simulation} {enabled : List String}

theorem randomTransition_of_choose (hEnabled : s.enabledTransitions ev = .ok enabled)
    {chosen : Option String} {after : Source} (hChosen : choose enabled s.source = (chosen, after)) :
    s.randomTransition ev = (.ok chosen, { s with source := after }) := by
  simp only [randomTransition, hEnabled, hChosen]

theorem nodup_enabledTransitions (hNet : s.net.Reachable)
    (hEnabled : s.enabledTransitions ev = .ok enabled) : enabled.Nodup := by
  have hDistinct : (s.net.transitions.map Transition.id).Nodup :=
    (List.nodup_append.mp (List.nodup_append.mp hNet.wellFormed.nodup_by_kind).1).2.1
  exact hDistinct.sublist (Net.of_selectEnabled_eq_ok hEnabled).1

/-- With nothing enabled nothing is drawn. Otherwise one of the enabled transitions is chosen, the one
that the first word chooses that is not rejected; and of all words equally many choose each of them,
while the others are rejected. -/
theorem selection_is_uniform (hNet : s.net.Reachable)
    (hEnabled : s.enabledTransitions ev = .ok enabled) :
    (enabled = [] → s.randomTransition ev = (.ok none, s)) ∧
    (enabled ≠ [] → ∃ t ∈ enabled, (s.randomTransition ev).1 = .ok (some t)) ∧
    (enabled ≠ [] → enabled.length < wordLimit →
      (∀ t ∈ enabled,
        ((Finset.range wordLimit).filter fun word => pick enabled word = some t).card =
          2 ^ leadingZeros enabled.length) ∧
      ((Finset.range wordLimit).filter fun word => accept enabled.length word = none).card +
        enabled.length * 2 ^ leadingZeros enabled.length = wordLimit ∧
      ∀ k t after, Draws enabled k s.source t after →
        s.randomTransition ev = (.ok (some t), { s with source := after })) := by
  refine ⟨?_, fun hSome => ?_, fun hSome hSize => ⟨fun t ht => ?_, ?_, fun k t after hDraws => ?_⟩⟩
  · rintro rfl
    exact randomTransition_of_choose hEnabled rfl
  · obtain ⟨first, rest, rfl⟩ := List.exists_cons_of_ne_nil hSome
    obtain ⟨chosen, after, hChosen⟩ := exists_choose_cons first rest s.source
    exact ⟨chosen, mem_of_choose hChosen,
      congrArg Prod.fst (randomTransition_of_choose hEnabled hChosen)⟩
  · exact card_words_of_item (nodup_enabledTransitions hNet hEnabled) hSize ht
  · exact card_rejected_add (List.length_pos_iff.mpr hSome) hSize
  · exact randomTransition_of_choose hEnabled (choose_of_draws hSome hDraws)

/-! ## Three transitions -/

/-- Transitions without arcs, which are always enabled. -/
def fork : Net where
  id := "fork"
  nodes := [.transition { id := "t" }, .transition { id := "u" }, .transition { id := "v" }]

theorem fork_reachable : fork.Reachable := by
  have hFirst := (Net.Reachable.empty "fork").change
    (.addTransition { id := "t" } (Net.addTransition_eq_ok_iff.mpr ⟨by decide, rfl⟩))
  have hSecond := hFirst.change
    (.addTransition { id := "u" } (Net.addTransition_eq_ok_iff.mpr ⟨by decide, rfl⟩))
  exact hSecond.change
    (.addTransition { id := "v" } (Net.addTransition_eq_ok_iff.mpr ⟨by decide, rfl⟩))

def forkStart : Simulation :=
  { start fork {} 0 with source := { key := [], pending := [0xFFFFFFFF, 0x80000000] } }

/-- The first word is rejected; the second one is in the middle of those that choose the transition in
the middle. -/
theorem selection_is_uniform_fork :
    fork.Reachable ∧ forkStart.enabledTransitions interpreter = .ok ["t", "u", "v"] ∧
      (∀ t ∈ ["t", "u", "v"],
        ((Finset.range wordLimit).filter fun word => pick ["t", "u", "v"] word = some t).card = 2 ^ 30) ∧
      ((Finset.range wordLimit).filter fun word => accept 3 word = none).card + 3 * 2 ^ 30 = wordLimit ∧
      forkStart.randomTransition interpreter =
        (.ok (some "u"), { forkStart with source := { key := [] } }) := by
  have hEnabled : forkStart.enabledTransitions interpreter = .ok ["t", "u", "v"] := by cbv
  have hLength : ["t", "u", "v"].length = 3 := rfl
  have hZeros : leadingZeros 3 = 30 := by decide
  have hDraws : Draws ["t", "u", "v"] 2 forkStart.source "u" { key := [] } :=
    .rejected (by decide) (.accepted (by decide))
  obtain ⟨_, _, hUniform⟩ := selection_is_uniform (s := forkStart) fork_reachable hEnabled
  obtain ⟨hEqual, hRejected, hChosen⟩ := hUniform (by decide) (by decide)
  rw [hLength, hZeros] at hEqual hRejected
  exact ⟨fork_reachable, hEnabled, hEqual, hRejected, hChosen 2 "u" _ hDraws⟩

end Petri.Simulation
