import Mathlib
import Petri.TokenBag

/-! # Bags under a map of tokens

A withdrawal looks at the payload of a token and at whether it is available, and at nothing else. So
where every token is replaced by one of the same payload that is available when it was, the same
tokens are chosen, taken and left.
-/
namespace Petri
set_option autoImplicit false

/-- The map keeps payloads, and what is available at one clock is available at the other. -/
structure Token.Keeps (f : Token → Token) (clock clock' : Time) : Prop where
  value : ∀ t, (f t).value = t.value
  available : ∀ t, (f t).available clock' = t.available clock

namespace Token.Keeps
open TokenBag
variable {f : Token → Token} {clock clock' : Time} (h : Keeps f clock clock') (bag : TokenBag)
include h

theorem available_map : TokenBag.available clock' (bag.map f) = TokenBag.available clock bag := by
  simp only [TokenBag.available, List.countP_map, Function.comp_def, h.available]

theorem ready_map (hTimed : ∀ t, (f t).timed = t.timed) :
    ready clock' (bag.map f) = ready clock bag := by
  simp only [ready, List.all_map, List.any_map, Function.comp_def, hTimed, h.available]

theorem choose_map (wanted : Value) : choose clock' wanted (bag.map f) = choose clock wanted bag := by
  simp only [choose, List.findIdx?_map, Function.comp_def, h.available, h.value]

theorem withdraw_map (request : TokenBag) :
    withdraw request clock' (bag.map f) =
      (withdraw request clock bag).map (Prod.map (List.map f) (List.map f)) := by
  have hGo (left taken : TokenBag) :
      withdraw.go clock' request (left.map f) (taken.map f) =
        (withdraw.go clock request left taken).map (Prod.map (List.map f) (List.map f)) := by
    induction request generalizing left taken with
    | nil => simp [withdraw.go]
    | cons wanted rest ih =>
      rw [withdraw.go, withdraw.go, h.choose_map]
      cases choose clock wanted.value left with
      | none => rfl
      | some i =>
        dsimp only
        have hTaken : (left.map f)[i]?.toList = left[i]?.toList.map f := by
          rw [List.getElem?_map]
          cases left[i]? <;> rfl
        rw [List.eraseIdx_map, hTaken, ← List.map_append, ih]
  exact hGo bag []

end Token.Keeps
end Petri
