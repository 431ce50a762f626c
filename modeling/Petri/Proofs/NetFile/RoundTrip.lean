import Petri.Proofs.Net.Reachable
import Petri.Proofs.NetFile.Restoring
import Petri.Proofs.NetFile.TokenText

/-! # Saving and loading a net

A net whose identifiers can be written and whose tokens their texts make comes back from its text:
the same elements in the same order, with the same tokens, and it is printed the same way again.
-/
namespace Petri
open Text
set_option autoImplicit false

namespace Token

/-- The token's own text, if there is one, makes just this token at clock `0` in a place without
tokens. -/
def Faithful (place : String) (t : Token) : Prop :=
  ∀ text, t.text = some text → ∃ made,
    interpreter.execute text ⟨0, place, some []⟩ = .ok [made] ∧ made.Interchangeable t

/-- Some text makes the token: its own one or, if it has none, the literal. -/
structure Reproducible (place : String) (t : Token) : Prop where
  faithful : t.Faithful place
  savable : t.text = none → t.Savable

end Token

namespace NetFile

def reload (t : Token) : Token := { t with text := some (tokenText t) }

def reloadPlace (p : Place) : Place := { p with tokens := p.tokens.map reload }

theorem reread_of_savable {t : Token} (hText : t.text = none) (h : t.Savable) : t.reread = [t] := by
  obtain ⟨value, time, text⟩ := t
  cases hText
  have hValue := Value.reread_eq_self value h.solid
  have hSingle := h.single
  cases value with
  | list items => exact absurd rfl hSingle
  | _ => simp [Token.reread, hValue]

theorem initialTokens_tokenText {place : String} {t : Token} (h : t.Reproducible place) :
    initialTokens interpreter place (tokenText t) = .ok [reload t] := by
  obtain ⟨value, time, text⟩ := t
  cases text with
  | some text =>
    obtain ⟨⟨value, time, _⟩, hMade, rfl, rfl⟩ := h.faithful text rfl
    have hText : tokenText ⟨value, time, some text⟩ = text := rfl
    rw [initialTokens, hText, hMade]
    rfl
  | none =>
    have hText : (⟨value, time, none⟩ : Token).text = none := rfl
    have hSavable := h.savable hText
    have hMade := execute_tokenText hText hSavable.toLegible ⟨0, place, some []⟩
    rw [reread_of_savable hText hSavable] at hMade
    rw [initialTokens, hMade]
    rfl

theorem rereadPlace_of_reproducible {p : Place} (h : ∀ t ∈ p.tokens, t.Reproducible p.id) :
    rereadPlace interpreter p = .ok (reloadPlace p) := by
  have hMade : (p.tokens.map tokenText).mapM (initialTokens interpreter p.id) =
      .ok (p.tokens.map fun t => [reload t]) := by
    rw [mapM_eq_ok_iff, List.forall₂_map_left_iff, List.forall₂_map_right_iff,
      List.forall₂_same]
    exact fun t ht => initialTokens_tokenText (h t ht)
  rw [rereadPlace, hMade]
  change Except.ok { p with tokens := (p.tokens.map fun t => [reload t]).flatten } = _
  rw [← List.flatMap_def, ← List.map_eq_flatMap]
  rfl

theorem parse_print_of_reproducible {net : Net} (hNet : net.WellFormed) (hNamed : Named net)
    (hCapacity : ∀ p ∈ net.places, p.capacity < capacityLimit)
    (hTokens : ∀ p ∈ net.places, ∀ t ∈ p.tokens, t.Reproducible p.id) :
    parse interpreter (print net) = .ok (rebuilt net (net.places.map reloadPlace)) := by
  have hPlaces : net.places.mapM (rereadPlace interpreter) = .ok (net.places.map reloadPlace) := by
    rw [mapM_eq_ok_iff, List.forall₂_map_right_iff, List.forall₂_same]
    exact fun p hp => rereadPlace_of_reproducible (hTokens p hp)
  rw [parse_print interpreter hNet hNamed hCapacity, hPlaces]
  rfl

/-! ## What comes back -/

/-- The place as before, up to the texts of its tokens. -/
structure SamePlace (p q : Place) : Prop where
  id : q.id = p.id
  label : q.label = p.label
  capacity : q.capacity = p.capacity
  tokens : List.Forall₂ Token.Interchangeable p.tokens q.tokens

/-- The transition as before, up to its last firing. -/
structure SameTransition (t u : Transition) : Prop where
  id : u.id = t.id
  label : u.label = t.label
  guard : u.guard = t.guard

/-- The net as before, with the elements of each kind in the same order. -/
structure SameNet (net after : Net) : Prop where
  id : after.id = net.id
  label : after.label = net.label
  declarations : after.declarations = net.declarations
  imports : after.imports = net.imports
  implements : after.implements = net.implements
  places : List.Forall₂ SamePlace net.places after.places
  transitions : List.Forall₂ SameTransition net.transitions after.transitions
  inputArcs : after.inputArcs = net.inputArcs
  outputArcs : after.outputArcs = net.outputArcs

theorem samePlace_reloadPlace (p : Place) : SamePlace p (reloadPlace p) where
  id := rfl
  label := rfl
  capacity := rfl
  tokens := by
    rw [reloadPlace, List.forall₂_map_right_iff, List.forall₂_same]
    exact fun t _ => ⟨rfl, rfl⟩

theorem sameNet_rebuilt (net : Net) : SameNet net (rebuilt net (net.places.map reloadPlace)) where
  id := rfl
  label := rfl
  declarations := rfl
  imports := rfl
  implements := rfl
  places := by
    rw [places_rebuilt, List.forall₂_map_right_iff, List.forall₂_same]
    exact fun p _ => samePlace_reloadPlace p
  transitions := by
    rw [transitions_rebuilt, List.forall₂_map_right_iff, List.forall₂_same]
    exact fun t _ => ⟨rfl, rfl, rfl⟩
  inputArcs := inputArcs_rebuilt net _
  outputArcs := outputArcs_rebuilt net _

theorem placeLine_reloadPlace (p : Place) : placeLine (reloadPlace p) = placeLine p := by
  have hTexts : ((reloadPlace p).tokens.map fun t => Quoted.quote (tokenText t)) =
      p.tokens.map fun t => Quoted.quote (tokenText t) := by
    rw [reloadPlace, List.map_map]
    rfl
  have hEmpty : (reloadPlace p).tokens.isEmpty = p.tokens.isEmpty := List.isEmpty_map
  rw [placeLine, hTexts, hEmpty]
  rfl

/-- Coming back from a file, a net is printed as before. -/
theorem print_rebuilt (net : Net) :
    print (rebuilt net (net.places.map reloadPlace)) = print net := by
  have hPlaces : placeLine ∘ reloadPlace = placeLine := funext placeLine_reloadPlace
  have hTransitions : (transitionLine ∘ fun t : Transition => { t with lastFired := 0 }) =
      transitionLine := rfl
  simp only [print, lines, places_rebuilt, transitions_rebuilt, inputArcs_rebuilt,
    outputArcs_rebuilt, List.map_map, hPlaces, hTransitions]
  rfl

theorem parse_print_restores {net : Net} (hNet : net.Reachable) (hNamed : Named net)
    (hCapacity : ∀ p ∈ net.places, p.capacity < capacityLimit)
    (hTokens : ∀ p ∈ net.places, ∀ t ∈ p.tokens, t.Reproducible p.id) :
    ∃ after, parse interpreter (print net) = .ok after ∧ SameNet net after ∧
      print after = print net :=
  ⟨_, parse_print_of_reproducible hNet.wellFormed hNamed hCapacity hTokens, sameNet_rebuilt net,
    print_rebuilt net⟩

/-! ## A net with odd texts -/

def oddPlace : Place where
  id := "stock.1"
  label := some "\"raw\" # no comment\n"
  tokens := [⟨.tuple [.str "a\"b\\", .int (-3)], 7, none⟩, ⟨.int 2, 0, some "1 + 1"⟩]
  capacity := 2

def oddNet : Net where
  id := "demo"
  label := some "C:\\nets"
  declarations := "say \"hi\";"
  nodes := [.place oddPlace, .transition { id := "t", guard := "clock() >= 0" }]
  arcs := [.input { id := "i_1", place := "stock.1", transition := "t", execute := "\"a\"" }]

theorem oddNet_reachable : oddNet.Reachable := by
  have hDescribed := (Net.Reachable.empty "demo").change
    (.describe _ "demo" (some "C:\\nets") "say \"hi\";" "" "")
  have hPlace := hDescribed.change
    (.addPlace oddPlace (Net.addPlace_eq_ok_iff.mpr ⟨by decide, rfl⟩))
  have hTransition := hPlace.change (.addTransition { id := "t", guard := "clock() >= 0" }
    (Net.addTransition_eq_ok_iff.mpr ⟨by decide, rfl⟩))
  exact hTransition.change
    (.addInput { id := "i_1", place := "stock.1", transition := "t", execute := "\"a\"" }
      (Net.addInput_eq_ok_iff.mpr ⟨by decide, ⟨_, rfl⟩, ⟨_, rfl⟩, rfl⟩))

theorem parse_print_restores_oddNet :
    oddNet.Reachable ∧ Named oddNet ∧ (∀ p ∈ oddNet.places, p.capacity < capacityLimit) ∧
      (∀ p ∈ oddNet.places, ∀ t ∈ p.tokens, t.Reproducible p.id) ∧
      ∃ after, parse interpreter (print oddNet) = .ok after ∧ SameNet oddNet after ∧
        print after = print oddNet := by
  have hNamed : Named oddNet := ⟨by decide, by decide⟩
  have hCapacity : ∀ p ∈ oddNet.places, p.capacity < capacityLimit := by decide
  have hTokens : ∀ p ∈ oddNet.places, ∀ t ∈ p.tokens, t.Reproducible p.id := by
    intro p hp
    cases List.mem_singleton.mp hp
    refine List.forall_mem_cons.mpr ⟨?_, List.forall_mem_singleton.mpr ?_⟩
    · refine ⟨fun text hText => (nomatch hText), fun _ => ⟨⟨by decide, ?_⟩, by decide, by decide⟩⟩
      intro n hn
      have hThree : n = -3 := by simpa [Value.parts, Value.itemParts] using hn
      subst hThree
      decide
    · refine ⟨fun text hText => ?_, fun hText => (nomatch hText)⟩
      cases hText
      exact ⟨⟨.int 2, 0, none⟩, by cbv, rfl, rfl⟩
  exact ⟨oddNet_reachable, hNamed, hCapacity, hTokens,
    parse_print_restores oddNet_reachable hNamed hCapacity hTokens⟩

end NetFile
end Petri
