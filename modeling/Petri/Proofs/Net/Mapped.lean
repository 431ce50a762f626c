import Petri.Proofs.Expr.Calls
import Petri.Proofs.Expr.Machine
import Petri.Proofs.Mapped
import Petri.Proofs.Net.WellFormed
import Petri.Net.Firing

/-! # Nets under a map of tokens

What changes and what does not when every token of a net is replaced by another one, at its place. A
text answers as before when tokens keep their payloads and are available when they were; only the
clock tells more, where a text calls it.
-/
namespace Petri
set_option autoImplicit false

/-! ## Texts -/

namespace Token.Keeps
open Builtin
variable {f : Token → Token} {clock clock' : Time} (h : Keeps f clock clock')
include h

theorem total_map (bag : TokenBag) : total (bag.map f) = total bag := by
  simp only [total, List.foldlM_map, h.value]

theorem firstAvailable_map (transition : String) (tokens tokens' : Option TokenBag)
    (bag : TokenBag) :
    firstAvailable ⟨clock', transition, tokens'⟩ (bag.map f) =
      firstAvailable ⟨clock, transition, tokens⟩ bag := by
  have hFind : (bag.map f).find? (Token.available clock') =
      (bag.find? (Token.available clock)).map f := by
    simp only [List.find?_map, Function.comp_def, h.available]
  rw [firstAvailable, firstAvailable, hFind]
  cases bag.find? (Token.available clock) with
  | none => rfl
  | some t => exact congrArg _ (h.value t)

omit h in
theorem scope_map_bind {g : Builtin} {transition : String} {tokens : Option TokenBag}
    {answer answer' : TokenBag → Except EvalError Value}
    (hAnswer : ∀ bag, answer' (bag.map f) = answer bag) :
    (g.scope ⟨clock', transition, tokens.map (List.map f)⟩ >>= answer') =
      (g.scope ⟨clock, transition, tokens⟩ >>= answer) := by
  cases tokens with
  | none => rfl
  | some bag => exact hAnswer bag

/-- Of all functions only the clock tells more than what tokens keep. -/
theorem alike_map (transition : String) (tokens : Option TokenBag) {function : String}
    (hFunction : function = Builtin.clock.name → clock' = clock) :
    Alike ⟨clock', transition, tokens.map (List.map f)⟩ ⟨clock, transition, tokens⟩ function := by
  intro g hName args
  by_cases hArity : args.length = g.arity
  · cases g with
    | clock =>
      cases List.length_eq_zero_iff.mp hArity
      rw [hFunction (name_of_ofName hName).symm]
      rfl
    | transition =>
      cases List.length_eq_zero_iff.mp hArity
      rfl
    | replicate =>
      obtain ⟨v, n, rfl⟩ := List.length_eq_two.mp hArity
      rfl
    | size =>
      cases List.length_eq_zero_iff.mp hArity
      refine scope_map_bind fun bag => ?_
      rw [List.length_map]
    | available =>
      cases List.length_eq_zero_iff.mp hArity
      refine scope_map_bind fun bag => ?_
      rw [h.available_map]
    | first =>
      cases List.length_eq_zero_iff.mp hArity
      exact scope_map_bind (h.firstAvailable_map transition _ _)
    | contains =>
      obtain ⟨v, rfl⟩ := List.length_eq_one_iff.mp hArity
      refine scope_map_bind fun bag => ?_
      simp only [List.any_map, Function.comp_def, h.value]
    | count =>
      obtain ⟨v, rfl⟩ := List.length_eq_one_iff.mp hArity
      refine scope_map_bind fun bag => ?_
      simp only [List.countP_map, Function.comp_def, h.value]
    | sum =>
      cases List.length_eq_zero_iff.mp hArity
      refine scope_map_bind fun bag => ?_
      rw [h.total_map]
  -- a wrong number of arguments is refused before the context is looked at
  · rw [Machine.apply_of_arity_ne hArity, Machine.apply_of_arity_ne hArity]

end Token.Keeps

/-! ## Nets -/

variable (f : Token → Token)

def Place.mapTokens (p : Place) : Place := { p with tokens := p.tokens.map f }

def Scratch.mapTokens (scratch : Scratch) : Scratch :=
  scratch.map fun entry => (entry.1, entry.2.map f)

namespace Net

def mapTokens (net : Net) : Net := net.mapPlaces (Place.mapTokens f)

variable (net : Net) (place transition : String)

theorem place?_mapTokens :
    (net.mapTokens f).place? place = (net.place? place).map (Place.mapTokens f) :=
  place?_mapPlaces net (f := Place.mapTokens f) (fun _ => rfl) place

theorem transition?_mapTokens :
    (net.mapTokens f).transition? transition = net.transition? transition :=
  transition?_mapPlaces net (f := Place.mapTokens f) (fun _ => rfl) transition

theorem places_mapTokens : (net.mapTokens f).places = net.places.map (Place.mapTokens f) :=
  places_mapPlaces net _

theorem transitions_mapTokens : (net.mapTokens f).transitions = net.transitions := by
  simp only [transitions, mapTokens, mapPlaces, List.filterMap_map]
  congr 1
  funext n
  cases n <;> rfl

theorem tokensAt_mapTokens : (net.mapTokens f).tokensAt place = (net.tokensAt place).map f := by
  rw [tokensAt, tokensAt, place?_mapTokens]
  cases net.place? place <;> rfl

theorem fits_mapTokens (count : Nat) :
    ((net.mapTokens f).place? place).all (fun p => p.fits count) =
      (net.place? place).all fun p => p.fits count := by
  rw [place?_mapTokens]
  cases net.place? place <;> rfl

theorem capacity_mapTokens :
    ((net.mapTokens f).place? place).map Place.capacity = (net.place? place).map Place.capacity := by
  rw [place?_mapTokens, Option.map_map]
  rfl

theorem headroom_mapTokens : (net.mapTokens f).headroom transition = net.headroom transition := by
  have hOne (place : String) : ((net.mapTokens f).place? place).all Place.headroom =
      (net.place? place).all Place.headroom := by
    rw [place?_mapTokens]
    cases net.place? place with
    | none => rfl
    | some p => simp [Place.mapTokens, Place.headroom, Place.fits, Place.bounded]
  simp only [headroom, hOne]
  rfl

end Net

theorem Scratch.lookup_mapTokens (scratch : Scratch) (place : String) :
    (scratch.mapTokens f).lookup place = (scratch.lookup place).map (List.map f) := by
  induction scratch with
  | nil => rfl
  | cons entry rest ih =>
    rw [mapTokens, List.map_cons, List.lookup_cons, List.lookup_cons]
    split
    · rfl
    · exact ih

theorem Scratch.tokensAt_mapTokens (scratch : Scratch) (net : Net) (place : String) :
    (scratch.mapTokens f).tokensAt (net.mapTokens f) place = (scratch.tokensAt net place).map f := by
  rw [tokensAt, tokensAt, lookup_mapTokens, net.tokensAt_mapTokens]
  cases scratch.lookup place <;> rfl

theorem Net.commit_mapTokens (net : Net) (scratch : Scratch) (transition : String) (clock : Time) :
    (net.mapTokens f).commit (scratch.mapTokens f) transition clock =
      (net.commit scratch transition clock).mapTokens f := by
  simp only [commit, mapTokens, updateTransition, mapTransitions, mapPlaces, List.map_map]
  congr 1
  refine List.map_congr_left fun n _ => ?_
  cases n with
  | place p =>
    simp only [Function.comp_apply, Place.mapTokens, Scratch.lookup_mapTokens]
    cases scratch.lookup p.id <;> rfl
  | transition t => rfl

end Petri
