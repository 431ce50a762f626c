import Petri.Proofs.Net.Ordinary

/-! # More tokens and more time

A transition with the default texts stays enabled when time goes on and when tokens are added
anywhere but in its bounded output places. Alone the time gate would not allow this: an empty place
passes it, and a token that is still to come closes it. The default text asks for a token, and beside
a token the gate asks for an available one, which more tokens and a later clock leave available.
-/
namespace Petri
set_option autoImplicit false

/-- The place with other tokens in it. -/
def Place.restock (tokens : Place → TokenBag) (p : Place) : Place := { p with tokens := tokens p }

namespace Net
variable {net : Net} {transition : String} {clock later : Time} {grow : Place → TokenBag}

def restock (net : Net) (tokens : Place → TokenBag) : Net := net.mapPlaces (Place.restock tokens)

/-- Tokens are only added, between those that are there or beside them, and none to a bounded output
place of the transition. -/
structure Adds (net : Net) (transition : String) (grow : Place → TokenBag) : Prop where
  kept : ∀ p ∈ net.places, p.tokens.Sublist (grow p)
  room : ∀ p ∈ net.places, p.bounded = true →
    (∃ a ∈ net.outputsOf transition, a.place = p.id) → grow p = p.tokens

theorem place?_restock (id : String) :
    (net.restock grow).place? id = (net.place? id).map (Place.restock grow) :=
  place?_mapPlaces net (f := Place.restock grow) (fun _ => rfl) id

theorem transition?_restock :
    (net.restock grow).transition? transition = net.transition? transition :=
  transition?_mapPlaces net (f := Place.restock grow) (fun _ => rfl) transition

theorem Adds.tokensAt_sublist (h : net.Adds transition grow) (place : String) :
    (net.tokensAt place).Sublist ((net.restock grow).tokensAt place) := by
  rw [tokensAt, tokensAt, place?_restock]
  cases hPlace : net.place? place with
  | none => exact List.Sublist.refl []
  | some p => exact h.kept p (mem_of_place? hPlace).1

theorem answer_defaultGuard {t : Transition} (h : t.guard = defaultGuard) :
    (Inquiry.ofGuard t clock).answer Petri.interpreter = .ok true := by
  rw [Inquiry.answer_ofGuard, h]
  exact Interpreter.evaluate_defaultGuard _

theorem passes_default_iff {a : InputArc} (h : a.evaluate = defaultEvaluate) :
    net.passes Petri.interpreter transition clock a = true ↔
      ∃ x ∈ net.tokensAt a.place, x.time ≤ clock := by
  have hAnswer : Petri.interpreter.evaluate a.evaluate
      ⟨clock, transition, some (net.tokensAt a.place)⟩ = .ok (!(net.tokensAt a.place).isEmpty) :=
    h ▸ Interpreter.evaluate_defaultEvaluate _ _ _
  rw [passes, Inquiry.answer_ofArc, hAnswer]
  dsimp only
  rw [TokenBag.holds_and_ready, List.any_eq_true]
  simp only [Token.available, decide_eq_true_eq]

theorem Adds.passes (h : net.Adds transition grow) (hLater : clock ≤ later) {a : InputArc}
    (hText : a.evaluate = defaultEvaluate)
    (hPasses : net.passes Petri.interpreter transition clock a = true) :
    (net.restock grow).passes Petri.interpreter transition later a = true := by
  rw [passes_default_iff hText] at hPasses ⊢
  obtain ⟨x, hx, hTime⟩ := hPasses
  exact ⟨x, (h.tokensAt_sublist a.place).subset hx, hTime.trans hLater⟩

theorem Adds.headroom (h : net.Adds transition grow) (hRoom : net.headroom transition = true) :
    (net.restock grow).headroom transition = true := by
  refine List.all_eq_true.mpr fun a ha => ?_
  have hThere := List.all_eq_true.mp hRoom a ha
  rw [place?_restock]
  cases hPlace : net.place? a.place with
  | none => rfl
  | some p =>
    obtain ⟨hp, hId⟩ := mem_of_place? hPlace
    rw [hPlace] at hThere
    rw [Option.map_some, Option.all_some, Place.headroom_iff]
    intro hBounded
    rw [Place.restock, h.room p hp (decide_eq_true hBounded) ⟨a, ha, hId.symm⟩]
    exact Place.headroom_iff.mp hThere hBounded

/-- The inscriptions of the arcs may be any texts. -/
theorem enabled_monotone
    (hGuard : ∀ t, net.transition? transition = some t → t.guard = defaultGuard)
    (hTexts : ∀ a ∈ net.inputsOf transition, a.evaluate = defaultEvaluate)
    (hAdds : net.Adds transition grow) (hLater : clock ≤ later)
    (hEnabled : (net.enabled Petri.interpreter transition clock).run = .ok true) :
    ((net.restock grow).enabled Petri.interpreter transition later).run = .ok true := by
  obtain ⟨t, ht⟩ := exists_transition_of_enabled hEnabled
  obtain ⟨-, rfl⟩ := mem_of_transition? ht
  obtain ⟨-, hPasses, hRoom⟩ := (run_enabled_eq_true_iff ht).mp hEnabled
  rw [run_enabled_eq_true_iff (transition?_restock.trans ht)]
  refine ⟨answer_defaultGuard (hGuard t ht), ?_, hAdds.headroom hRoom⟩
  intro a ha
  exact hAdds.passes hLater (hTexts a ha) (hPasses a ha)

/-- Tokens pass from a place without a bound to one that holds a single token. -/
def handover : Net where
  id := "handover"
  nodes := [.place { id := "a", tokens := [⟨.int 1, 4, none⟩] }, .place { id := "b", capacity := 1 },
    .transition { id := "t" }]
  arcs := [.input { id := "i", place := "a", transition := "t", execute := "first()" },
    .output { id := "o", transition := "t", place := "b", execute := "2 @ 3" }]

def handoverGrowth (p : Place) : TokenBag :=
  if p.id = "a" then ⟨.str "late", 9, none⟩ :: p.tokens else p.tokens

theorem handover_adds : handover.Adds "t" handoverGrowth where
  kept p hp := by
    fin_cases hp
    · exact List.sublist_cons_self _ _
    · exact List.Sublist.refl _
  room p hp hBounded _ := by
    fin_cases hp
    · cases hBounded
    · rfl

theorem enabled_monotone_handover :
    (handover.enabled Petri.interpreter "t" 4).run = .ok true ∧
      (handover.restock handoverGrowth).tokensAt "a" =
        [⟨.str "late", 9, none⟩, ⟨.int 1, 4, none⟩] ∧
      ((handover.restock handoverGrowth).enabled Petri.interpreter "t" 7).run = .ok true := by
  have ht : handover.transition? "t" = some { id := "t" } := rfl
  have hTexts : ∀ a ∈ handover.inputsOf "t", a.evaluate = defaultEvaluate := by
    intro a ha
    obtain rfl := List.mem_singleton.mp ha
    rfl
  have hEnabled : (handover.enabled Petri.interpreter "t" 4).run = .ok true := by
    refine (run_enabled_eq_true_iff (t := { id := "t" }) ht).mpr ⟨answer_defaultGuard rfl, ?_, rfl⟩
    intro a ha
    obtain rfl := List.mem_singleton.mp ha
    exact (passes_default_iff rfl).mpr ⟨⟨.int 1, 4, none⟩, .head _, Nat.le_refl 4⟩
  refine ⟨hEnabled, rfl, ?_⟩
  refine enabled_monotone (fun t hFound => ?_) hTexts handover_adds (by decide) hEnabled
  cases ht.symm.trans hFound
  rfl

end Net
end Petri
