import Petri.Proofs.Net.Conservation
import Petri.Proofs.NetFile.Loading

/-! # Saving a marking

After any run of a net that came from a file, the marking survives saving exactly when every token
without a text can be made by its literal. A list is written as an inscription of its elements, and
the least integer and late times have no numeral; then the marking is lost.
-/
namespace Petri.NetFile
open Text
set_option autoImplicit false

/-! ## Runs -/

def FiresTo (net after : Net) : Prop :=
  ∃ transition clock firing, (net.fire interpreter transition clock).run = .ok (firing, after)

section Firing
open InPlace
variable {net after : Net} {transition : String} {clock : Time}

/-- What output arcs make has no text. -/
theorem textless_of_moved {arcs : List OutputArc} {μ μ' : Marking} {moved : List Movement}
    (h : MovesAll interpreter net transition clock (arcs.map .output) μ (.ok (moved, μ'))) :
    ∀ m ∈ moved, ∀ t ∈ m.tokens, t.text = none := by
  induction arcs generalizing μ moved with
  | nil =>
    cases h
    exact List.forall_mem_nil _
  | cons a rest ih =>
    cases h with
    | move hOne hOthers =>
      cases hOne with
      | make hMade hFresh =>
        have hFirst := TokenBag.text_of_mem_shift (Interpreter.text_of_execute hMade) hFresh
        exact List.forall_mem_cons.mpr ⟨hFirst, ih hOthers⟩

theorem textless_of_made {arcs : List OutputArc} {μ μ' : Marking} {moved : List Movement}
    (h : MovesAll interpreter net transition clock (arcs.map .output) μ (.ok (moved, μ')))
    (q : String) : ∀ t ∈ μ' q, t ∈ μ q ∨ t.text = none := by
  rw [(h.made q).1]
  intro t ht
  refine (List.mem_append.mp ht).imp_right fun hCarried => ?_
  obtain ⟨m, hm, ht⟩ := List.mem_flatMap.mp hCarried
  exact textless_of_moved h m (List.mem_of_mem_filter hm) t ht

theorem Storable.fire (h : Storable net) (hFires : FiresTo net after) : Storable after := by
  obtain ⟨transition, clock, firing, hFire⟩ := hFires
  have hWell := h.wellFormed.change (.fire interpreter transition clock hFire)
  obtain ⟨t, taken, made, μ, _, hSteps, _, rfl⟩ := exists_fires h.wellFormed hFire
  have hTokens : ∀ p ∈ net.places, ∀ t ∈ μ p.id, t ∈ p.tokens ∨ t.text = none := by
    intro p hp t ht
    cases hSteps with
    | fires _ hTaken hMade =>
      refine (textless_of_made hMade p.id t ht).imp_left fun ht => ?_
      rw [← h.wellFormed.tokensAt_of_mem hp]
      exact (hTaken.taken p.id).1.subset ht
  refine ⟨hWell, ⟨h.named.id, fun id hId => h.named.ids id ?_⟩, ?_, ?_⟩
  · rwa [ids_settled] at hId
  · rw [places_settled, List.forall_mem_map]
    exact h.capacity
  · rw [places_settled, List.forall_mem_map]
    intro p hp t ht
    rcases hTokens p hp t ht with ht | ht
    · exact h.faithful p hp t ht
    · exact faithful_of_text_eq_none ht

theorem Storable.run (h : Storable net) (hRun : Relation.ReflTransGen FiresTo net after) :
    Storable after := by
  induction hRun with
  | refl => exact h
  | tail _ hFires ih => exact ih.fire hFires

end Firing

/-! ## Weights

A list that is written as the inscription of one token comes back as tokens that are smaller
together, and so does a value with an empty tuple. No other token can make up for the difference.
-/

def weight (bag : TokenBag) : Nat := (bag.map fun t => t.value.size).sum

theorem weight_map (time : Time) (vs : List Value) :
    weight (vs.map fun v => { value := v, time := time }) = Value.sizeOfItems vs := by
  induction vs with
  | nil => rfl
  | cons v vs ih =>
    simp only [weight, List.map_cons, List.sum_cons, Value.sizeOfItems] at ih ⊢
    rw [ih]

/-- What the literal of a token makes is no larger than the token, and smaller unless it is the
token. -/
theorem weight_reread (t : Token) : weight t.reread ≤ t.value.size ∧
    (t.value.size ≤ weight t.reread → t.value.kind ≠ .list ∧ .tuple [] ∉ t.value.parts) := by
  have hValue := t.value.size_reread_le
  have hSolid := t.value.solid_of_size_le
  rw [Token.reread]
  cases hCase : t.value with
  | list items =>
    have hItems := Value.sizeOfItems_reread_le items
    simp only [weight_map, Value.size]
    omega
  | _ =>
    rw [hCase] at hValue hSolid
    simp only [weight, List.map_cons, List.map_nil, List.sum_cons, List.sum_nil, Nat.add_zero]
    exact ⟨hValue, fun hLe => ⟨by simp [Value.kind], hSolid hLe⟩⟩

theorem exists_execute_of_initialTokens {place text : String} {made : TokenBag}
    (h : initialTokens interpreter place text = .ok made) :
    ∃ bag, interpreter.execute text ⟨0, place, some []⟩ = .ok bag ∧ weight made = weight bag := by
  unfold initialTokens at h
  split at h
  · cases h
  · rename_i t hExecute
    cases h
    exact ⟨[t], hExecute, rfl⟩
  · rename_i bag _ hExecute
    cases h
    exact ⟨made, hExecute, rfl⟩

theorem weight_initialTokens {place : String} {t : Token} {made : TokenBag}
    (hFaithful : t.Faithful place)
    (h : initialTokens interpreter place (tokenText t) = .ok made) :
    weight made ≤ t.value.size ∧ (t.value.size ≤ weight made → t.text = none → t.Savable) := by
  obtain ⟨bag, hBag, hWeight⟩ := exists_execute_of_initialTokens h
  rw [hWeight]
  cases hText : t.text with
  | some text =>
    obtain ⟨u, hExecute, hPayload, _⟩ := hFaithful text hText
    have hOwn : tokenText t = text := by rw [tokenText, hText]
    rw [hOwn, hExecute] at hBag
    cases hBag
    refine ⟨by simp [weight, hPayload], fun _ hNone => ?_⟩
    cases hNone
  | none =>
    -- the text could be read, so its numerals are in range
    have hLegible := legible_of_execute hText hBag
    rw [execute_tokenText hText hLegible] at hBag
    cases hBag
    obtain ⟨hLe, hSame⟩ := weight_reread t
    refine ⟨hLe, fun hGe _ => ?_⟩
    obtain ⟨hSingle, hSolid⟩ := hSame hGe
    exact ⟨hLegible, hSingle, hSolid⟩

theorem weight_tokens {place : String} {tokens : TokenBag} {made : List TokenBag}
    (hFaithful : ∀ t ∈ tokens, t.Faithful place)
    (h : (tokens.map tokenText).mapM (initialTokens interpreter place) = .ok made) :
    weight made.flatten ≤ weight tokens ∧
      (weight tokens ≤ weight made.flatten → ∀ t ∈ tokens, t.text = none → t.Savable) := by
  rw [mapM_eq_ok_iff, List.forall₂_map_left_iff] at h
  induction h with
  | nil => exact ⟨Nat.le_refl _, fun _ => List.forall_mem_nil _⟩
  | @cons t bag tokens made hMade _ ih =>
    rw [List.forall_mem_cons] at hFaithful
    obtain ⟨hFirst, hFirst'⟩ := weight_initialTokens hFaithful.1 hMade
    obtain ⟨hOthers, hOthers'⟩ := ih hFaithful.2
    have hMadeWeight : weight (bag :: made).flatten = weight bag + weight made.flatten := by
      simp [weight]
    have hTokens : weight (t :: tokens) = t.value.size + weight tokens := by simp [weight]
    rw [hMadeWeight, hTokens]
    refine ⟨Nat.add_le_add hFirst hOthers, fun hLe => ?_⟩
    exact List.forall_mem_cons.mpr ⟨hFirst' (by omega), hOthers' (by omega)⟩

theorem weight_of_interchangeable {as bs : TokenBag}
    (h : List.Forall₂ Token.Interchangeable as bs) : weight as = weight bs := by
  induction h with
  | nil => rfl
  | cons hFirst _ ih =>
    simp only [weight, List.map_cons, List.sum_cons, hFirst.1] at ih ⊢
    rw [ih]

/-! ## Saved markings -/

/-- Every place holds the same tokens in the same order, whatever their texts. -/
def SameMarking (net after : Net) : Prop :=
  ∀ p ∈ net.places, List.Forall₂ Token.Interchangeable p.tokens (after.tokensAt p.id)

theorem tokensAt_of_parse_print {net after : Net} (hNet : Storable net)
    (h : parse interpreter (print net) = .ok after) {p : Place} (hp : p ∈ net.places) :
    ∃ q, rereadPlace interpreter p = .ok q ∧ after.tokensAt p.id = q.tokens := by
  rw [parse_print interpreter hNet.wellFormed hNet.named hNet.capacity] at h
  obtain ⟨places, hPlaces, hAfter⟩ := bind_eq_ok_iff.mp h
  cases hAfter
  obtain ⟨q, hq, hReread⟩ := exists_mem_of_mapM hPlaces hp
  have hMem : q ∈ (rebuilt net places).places := by
    rw [places_rebuilt]
    exact hq
  have hNodup := nodup_rebuilt hNet.wellFormed (ids_of_mapM interpreter hPlaces)
  refine ⟨q, hReread, ?_⟩
  rw [← id_of_rereadPlace interpreter hReread, Net.tokensAt, Net.place?_of_mem hNodup hMem]
  rfl

theorem savable_of_sameMarking {net after : Net} (hNet : Storable net)
    (h : parse interpreter (print net) = .ok after) (hSame : SameMarking net after) :
    ∀ p ∈ net.places, ∀ t ∈ p.tokens, t.text = none → t.Savable := by
  intro p hp
  obtain ⟨q, hReread, hTokens⟩ := tokensAt_of_parse_print hNet h hp
  obtain ⟨made, hMade, hq⟩ := bind_eq_ok_iff.mp hReread
  cases hq
  have hWeight := weight_of_interchangeable (hSame p hp)
  rw [hTokens] at hWeight
  exact (weight_tokens (hNet.faithful p hp) hMade).2 (Nat.le_of_eq hWeight)

/-- A saved marking comes back exactly when the literals of its tokens make them. -/
theorem saves_marking_iff {text : String} {start net : Net}
    (hParse : parse interpreter text = .ok start) (hRun : Relation.ReflTransGen FiresTo start net) :
    (∃ after, parse interpreter (print net) = .ok after ∧ SameMarking net after) ↔
      ∀ p ∈ net.places, ∀ t ∈ p.tokens, t.text = none → t.Savable := by
  have hNet := (storable_of_parse hParse).run hRun
  constructor
  · rintro ⟨after, hAfter, hSame⟩
    exact savable_of_sameMarking hNet hAfter hSame
  · -- every token is reproducible, with or without a text
    intro hSavable
    have hTokens : ∀ p ∈ net.places, ∀ t ∈ p.tokens, t.Reproducible p.id := fun p hp t ht =>
      ⟨hNet.faithful p hp t ht, hSavable p hp t ht⟩
    have hAfter := parse_print_of_reproducible hNet.wellFormed hNet.named hNet.capacity hTokens
    refine ⟨_, hAfter, fun p hp => ?_⟩
    obtain ⟨q, hReread, hSame⟩ := tokensAt_of_parse_print hNet hAfter hp
    rw [rereadPlace_of_reproducible (hTokens p hp)] at hReread
    cases hReread
    rw [hSame]
    exact (samePlace_reloadPlace p).tokens

/-! ## A list that is lost -/

def nestedText : String := "place p; transition t; output t -> p execute \"[[1, 2]]\";"

def nested (tokens : TokenBag) : Net where
  id := "untitled"
  nodes := [.place { id := "p", tokens := tokens }, .transition { id := "t" }]
  arcs := [.output { id := "o1", transition := "t", place := "p", execute := "[[1, 2]]" }]
  numbering := ⟨1⟩

def pair : Token := { value := .list [.int 1, .int 2] }

theorem saves_marking_iff_nested :
    parse interpreter nestedText = .ok (nested []) ∧ FiresTo (nested []) (nested [pair]) ∧
      ¬ ∃ after, parse interpreter (print (nested [pair])) = .ok after ∧
        SameMarking (nested [pair]) after := by
  have hParse : parse interpreter nestedText = .ok (nested []) := by cbv
  have hFires : FiresTo (nested []) (nested [pair]) :=
    ⟨"t", 0, ⟨"t", "t", 0, [], [⟨⟨"o1", "p", "[[1, 2]]", [pair]⟩, 1⟩]⟩, by cbv⟩
  refine ⟨hParse, hFires, fun hSaved => ?_⟩
  have hAll := (saves_marking_iff hParse (.single hFires)).mp hSaved
  have hPair : pair.Savable := hAll { id := "p", tokens := [pair] } (by decide) pair (by decide) rfl
  exact hPair.single rfl

end Petri.NetFile
