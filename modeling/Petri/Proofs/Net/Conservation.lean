import Petri.Proofs.Net.InPlace
import Petri.Proofs.TokenBag

/-! # Conservation of tokens

A firing loses no token and doubles none: what a place had is what it keeps together with what input
arcs took from it, and what it has afterwards is what it keeps, in its old order, followed by what
output arcs made for it.
-/
namespace Petri
set_option autoImplicit false

/-- The tokens that movements carry from or to a place, in the order of the movements. -/
def carried (place : String) (moved : List Movement) : TokenBag :=
  (moved.filter fun m => m.place == place).flatMap Movement.tokens

theorem carried_cons (place : String) (m : Movement) (moved : List Movement) :
    carried place (m :: moved) =
      if m.place = place then m.tokens ++ carried place moved else carried place moved := by
  by_cases h : m.place = place <;> simp [carried, h]

namespace InPlace
variable {ev : Evaluator Id} {net : Net} {transition : String} {clock : Time}

/-- What input arcs leave at a place and what they took from it are the tokens that it had. -/
theorem MovesAll.taken {arcs : List InputArc} {μ μ' : Marking} {moved : List Movement}
    (h : MovesAll ev net transition clock (arcs.map .input) μ (.ok (moved, μ'))) (q : String) :
    (μ' q).Sublist (μ q) ∧ (μ q).Perm (μ' q ++ carried q moved) ∧
      ∀ t ∈ carried q moved, t.time ≤ clock := by
  induction arcs generalizing μ moved with
  | nil =>
    cases h
    exact ⟨List.Sublist.refl _, by simp [carried], by simp [carried]⟩
  | cons a rest ih =>
    cases h with
    | move hOne hOthers =>
      cases hOne with
      | @take _ _ request taken left hRequest hTaken =>
        obtain ⟨hSublist, hPerm, hTimes⟩ := ih hOthers
        obtain ⟨hSublist', hPerm', hTimes'⟩ := TokenBag.withdraw_spec hTaken
        rw [carried_cons]
        by_cases hq : a.place = q
        · subst hq
          -- later arcs take from what this one has left
          rw [Function.update_self] at hSublist hPerm
          rw [if_pos rfl]
          refine ⟨hSublist.trans hSublist', ?_, ?_⟩
          · calc
              (μ a.place).Perm (left ++ taken) := hPerm'
              _ |>.Perm ((μ' a.place ++ carried a.place _) ++ taken) := hPerm.append_right taken
              _ |>.Perm (μ' a.place ++ (taken ++ carried a.place _)) := by
                rw [List.append_assoc]
                exact List.perm_append_comm.append_left _
          · intro t ht
            rcases List.mem_append.mp ht with ht | ht
            · exact hTimes' t ht
            · exact hTimes t ht
        · rw [Function.update_of_ne (Ne.symm hq)] at hSublist hPerm
          rw [if_neg hq]
          exact ⟨hSublist, hPerm, hTimes⟩

/-- Output arcs put what they make behind the tokens of a place. -/
theorem MovesAll.made {arcs : List OutputArc} {μ μ' : Marking} {moved : List Movement}
    (h : MovesAll ev net transition clock (arcs.map .output) μ (.ok (moved, μ'))) (q : String) :
    μ' q = μ q ++ carried q moved ∧ ∀ t ∈ carried q moved, t.time = 0 ∨ clock < t.time := by
  induction arcs generalizing μ moved with
  | nil =>
    cases h
    simp [carried]
  | cons a rest ih =>
    cases h with
    | move hOne hOthers =>
      cases hOne with
      | @make _ _ made fresh p hMade hFresh hPlace hFits =>
        obtain ⟨hTokens, hTimes⟩ := ih hOthers
        rw [carried_cons]
        by_cases hq : a.place = q
        · subst hq
          rw [Function.update_self] at hTokens
          rw [if_pos rfl]
          refine ⟨by rw [hTokens, List.append_assoc], ?_⟩
          intro t ht
          rcases List.mem_append.mp ht with ht | ht
          · exact TokenBag.time_of_mem_shift hFresh ht
          · exact hTimes t ht
        · rw [Function.update_of_ne (Ne.symm hq)] at hTokens
          rw [if_neg hq]
          exact ⟨hTokens, hTimes⟩

theorem map_toMovement_counted (μ : Marking) (moved : List Movement) :
    (moved.map (counted μ)).map Transfer.toMovement = moved := by
  rw [List.map_map]
  exact List.map_id moved

end InPlace

namespace Net
open InPlace

/-- A firing reports one movement for each arc, in the order of the arcs. Of every place, `kept`
are the tokens that it leaves there. -/
theorem fire_conserves (ev : Evaluator Id) {net after : Net} (hNet : net.Reachable)
    {transition : String} {clock : Time} {firing : Firing}
    (hFire : (net.fire ev transition clock).run = .ok (firing, after)) {p : Place}
    (hp : p ∈ net.places) :
    let taken := firing.consumed.map Transfer.toMovement
    let made := firing.produced.map Transfer.toMovement
    let consumed := carried p.id taken
    let produced := carried p.id made
    List.Forall₂ Along ((net.inputsOf transition).map .input) taken ∧
    List.Forall₂ Along ((net.outputsOf transition).map .output) made ∧
    (∃ kept, kept.Sublist p.tokens ∧ p.tokens.Perm (kept ++ consumed) ∧
      after.tokensAt p.id = kept ++ produced) ∧
    (∀ t ∈ consumed, t ∈ p.tokens ∧ t.time ≤ clock ∧ (clock = 0 → t.timed = false)) ∧
    (∀ t ∈ produced, t.timed = false ∨ clock < t.time) := by
  have hWell := hNet.wellFormed
  have hOutcome := fires_of_fire transition clock ev hWell
  rw [hFire] at hOutcome
  obtain ⟨t, taken, made, μ, _, hFires, rfl, rfl⟩ := hOutcome
  cases hFires with
  | @fires _ _ _ μ₀ _ _ hTaken hMade =>
    obtain ⟨hSublist, hPerm, hTimes⟩ := hTaken.taken p.id
    obtain ⟨hTokens, hLate⟩ := hMade.made p.id
    rw [hWell.tokensAt_of_mem hp] at hSublist hPerm
    simp only [record, map_toMovement_counted]
    refine ⟨hTaken.along, hMade.along, ⟨μ₀ p.id, hSublist, hPerm, ?_⟩, ?_, ?_⟩
    · rw [tokensAt_settled transition clock μ ⟨p, Net.place?_of_mem hWell.nodup hp⟩, hTokens]
    · intro t ht
      refine ⟨hPerm.mem_iff.mpr (List.mem_append_right _ ht), hTimes t ht, ?_⟩
      rintro rfl
      have hZero : t.time = 0 := Nat.le_zero.mp (hTimes t ht)
      simp [Token.timed, hZero]
    · intro t ht
      simpa [Token.timed] using hLate t ht

theorem fire_conserves_loop :
    loop.Reachable ∧ loopPlace ∈ loop.places ∧
      ∃ firing after, (loop.fire counting "t" 5).run = .ok (firing, after) ∧
        carried "p" (firing.consumed.map Transfer.toMovement) =
          [⟨.int 1, 0, none⟩, ⟨.int 2, 4, none⟩] ∧
        ∃ kept, kept.Sublist loopPlace.tokens ∧
          loopPlace.tokens.Perm
            (kept ++ carried "p" (firing.consumed.map Transfer.toMovement)) ∧
          after.tokensAt "p" = kept ++ carried "p" (firing.produced.map Transfer.toMovement) := by
  have hPlace : loopPlace ∈ loop.places := by decide
  obtain ⟨firing, after, hFire, hConsumed⟩ : ∃ firing after,
      (loop.fire counting "t" 5).run = .ok (firing, after) ∧
        carried "p" (firing.consumed.map Transfer.toMovement) =
          [⟨.int 1, 0, none⟩, ⟨.int 2, 4, none⟩] := ⟨_, _, rfl, rfl⟩
  have hConserves := fire_conserves counting loop_reachable hFire hPlace
  exact ⟨loop_reachable, hPlace, firing, after, hFire, hConsumed, hConserves.2.2.1⟩

end Net
end Petri
