import Petri.Proofs.NetFile.Saving
import Petri.Proofs.Simulation.StateEquation

/-! # Texts tell what they stand on

A text comes from a file and makes the one token that it stands on. What a firing makes has no text,
and what else it leaves in a place was there before. So whatever is called on a net from a file, a
text never tells of another token than its own.
-/
namespace Petri.NetFile
set_option autoImplicit false

variable {net after : Net}

/-! ## Tokens that a firing makes -/

section Produced
open InPlace
variable {transition : String} {clock : Time}

theorem textless_of_fire (hNet : net.WellFormed) {firing : Firing}
    (h : (net.fire interpreter transition clock).run = .ok (firing, after)) :
    ∀ x ∈ firing.produced, ∀ t ∈ x.tokens, t.text = none := by
  obtain ⟨t, taken, made, μ, _, hSteps, rfl, _⟩ := exists_fires hNet h
  cases hSteps with
  | fires _ _ hMade =>
    intro x hx
    obtain ⟨m, hm, rfl⟩ := List.mem_map.mp hx
    exact textless_of_moved hMade m hm

end Produced

/-- A firing that a call on the net makes, or one of a driver that has it. Runs fire at random. -/
inductive Yields (net : Net) (firing : Firing) : Prop where
  | fire {transition : String} {clock : Time} {after : Net}
      (h : (net.fire interpreter transition clock).run = .ok (firing, after))
  | fireRandom {s s' : Simulation} (hNet : s.net = net)
      (h : s.fireRandom interpreter = (.ok (some firing), s'))
  | step {s s' : Simulation} (hNet : s.net = net)
      (h : s.step interpreter = (.ok (some firing), s'))

theorem Yields.exists_fire {firing : Firing} (h : Yields net firing) :
    ∃ transition clock after, (net.fire interpreter transition clock).run = .ok (firing, after) := by
  cases h with
  | fire hFire => exact ⟨_, _, _, hFire⟩
  | fireRandom hNet hFire =>
    subst hNet
    exact ⟨_, _, _, Simulation.fire_of_fireRandom hFire⟩
  | step hNet hStep =>
    subst hNet
    rcases Simulation.step_cases hStep with ⟨_, _, hNot⟩ | ⟨_, hNot⟩ | ⟨checked, hCheck, hFire⟩
    · cases hNot
    · cases hNot
    · rw [← Simulation.net_of_isFinished hCheck]
      exact ⟨_, _, _, Simulation.fire_of_fireRandom hFire⟩

/-! ## Texts of a marking -/

theorem run_of_firesInTurn {names : List String} (h : net.FiresInTurn interpreter names after) :
    Relation.ReflTransGen FiresTo net after := by
  induction h with
  | nothing => exact .refl
  | fired _ hFire ih => exact ih.tail ⟨_, _, _, hFire⟩

theorem texts_are_truthful {text : String} {start net : Net} {names : List String}
    (hParse : parse interpreter text = .ok start) (hRun : start.Evolves names net) :
    (∀ p ∈ net.places, ∀ t ∈ p.tokens, ∀ own, t.text = some own →
      ∃ made, interpreter.execute own ⟨0, p.id, some []⟩ = .ok [made] ∧
        made.value = t.value ∧ made.time = t.time) ∧
    (∀ firing, Yields net firing → ∀ x ∈ firing.produced, ∀ t ∈ x.tokens, t.text = none) := by
  have hNet := (storable_of_parse hParse).run (run_of_firesInTurn hRun.firesInTurn)
  constructor
  · exact hNet.faithful
  · intro firing hYields
    obtain ⟨transition, clock, after, hFire⟩ := hYields.exists_fire
    exact textless_of_fire hNet.wellFormed hFire

/-! ## A token that stays -/

def ageText : String :=
  "place p tokens [\"1 + 1\", \"3 @ 4\"]; transition t; " ++
    "input p -> t; output t -> p execute \"7 @ 2\";"

def aged (tokens : TokenBag) (clock : Time) : Net where
  id := "untitled"
  nodes := [.place { id := "p", tokens := tokens }, .transition { id := "t", lastFired := clock }]
  arcs := [.input { id := "i1", place := "p", transition := "t" },
    .output { id := "o2", transition := "t", place := "p", execute := "7 @ 2" }]
  numbering := ⟨2⟩

def pendingToken : Token := ⟨.int 3, 4, some "3 @ 4"⟩

/-- The token with a text has to wait, the other one is taken at clock 1. -/
theorem texts_are_truthful_aged :
    parse interpreter ageText = .ok (aged [⟨.int 2, 0, some "1 + 1"⟩, pendingToken] 0) ∧
      (aged [⟨.int 2, 0, some "1 + 1"⟩, pendingToken] 0).Evolves ["t"]
        (aged [pendingToken, ⟨.int 7, 3, none⟩] 1) ∧
      (∃ made, interpreter.execute "3 @ 4" ⟨0, "p", some []⟩ = .ok [made] ∧
        made.value = .int 3 ∧ made.time = 4) ∧
      ∀ firing, Yields (aged [pendingToken, ⟨.int 7, 3, none⟩] 1) firing →
        ∀ x ∈ firing.produced, ∀ t ∈ x.tokens, t.text = none := by
  have hParse : parse interpreter ageText =
      .ok (aged [⟨.int 2, 0, some "1 + 1"⟩, pendingToken] 0) := by cbv
  have hFire : ((aged [⟨.int 2, 0, some "1 + 1"⟩, pendingToken] 0).fire interpreter "t" 1).run =
      .ok (⟨"t", "t", 1, [⟨⟨"i1", "p", "1", [⟨.int 2, 0, some "1 + 1"⟩]⟩, 2⟩],
        [⟨⟨"o2", "p", "7 @ 2", [⟨.int 7, 3, none⟩]⟩, 2⟩]⟩,
        aged [pendingToken, ⟨.int 7, 3, none⟩] 1) := by cbv
  have hRun := Net.Evolves.fire .start hFire
  obtain ⟨hTexts, hProduced⟩ := texts_are_truthful hParse hRun
  have hPlace : { id := "p", tokens := [pendingToken, ⟨.int 7, 3, none⟩] } ∈
      (aged [pendingToken, ⟨.int 7, 3, none⟩] 1).places := .head _
  exact ⟨hParse, hRun, hTexts _ hPlace pendingToken (.head _) "3 @ 4" rfl, hProduced⟩

end Petri.NetFile
