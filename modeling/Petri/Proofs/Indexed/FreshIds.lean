import Petri.Proofs.Indexed.Calls

/-! # Fresh identifiers

A search for a free identifier goes on for as many rounds as there are numbers up to the one where it
ends. All of these but the last belong to taken identifiers, so the rounds are at most one more than
those. The numbers go up from draw to draw and no drawn identifier comes again. Where numbering was
restarted it may come again, but not while an element has it.
-/
namespace Petri
set_option autoImplicit false

namespace Numbering
variable {kind : ElementKind} {taken : List String} {n m : Nat}

/-! ## Rounds of a search -/

inductive Halt where
  | exhausted
  | overflow
  deriving DecidableEq

/-- At most so many rounds from the number `last` on, each of which counts up, which the limit of
machine words may forbid, and asks whether the identifier is taken. -/
def rounds (limit : Nat) (kind : ElementKind) (isTaken : String → Bool) :
    Nat → Nat → Except Halt Nat
  | 0, _ => .error .exhausted
  | count + 1, last =>
    if limit ≤ last + 1 then .error .overflow
    else if isTaken (numbered kind (last + 1)) then rounds limit kind isTaken count (last + 1)
    else .ok (last + 1)

namespace Search

theorem lt (h : Search kind taken n m) : n < m := by
  induction h with
  | found => exact Nat.lt_add_one _
  | skip _ _ ih => omega

theorem taken_of_between (h : Search kind taken n m) {k : Nat} (hAfter : n < k) (hBefore : k < m) :
    numbered kind k ∈ taken := by
  induction h with
  | found => omega
  | @skip n m hTaken _ ih =>
    by_cases hNext : k = n + 1
    · rwa [hNext]
    · exact ih (by omega) hBefore

/-- The numbers that were passed over belong to as many taken identifiers. -/
theorem le_card (h : Search kind taken n m) : m ≤ n + taken.toFinset.card + 1 := by
  have hImage : (Finset.Ioo n m).image (numbered kind) ⊆ taken.toFinset := by
    intro id hId
    obtain ⟨k, hk, rfl⟩ := Finset.mem_image.mp hId
    obtain ⟨hAfter, hBefore⟩ := Finset.mem_Ioo.mp hk
    exact List.mem_toFinset.mpr (h.taken_of_between hAfter hBefore)
  have hCard : ((Finset.Ioo n m).image (numbered kind)).card = m - n - 1 := by
    rw [Finset.card_image_of_injective _ fun _ _ hSame => (numbered_injective hSame).2,
      Nat.card_Ioo]
  have hLe := Finset.card_le_card hImage
  omega

theorem rounds_eq (h : Search kind taken n m) {limit count : Nat} (hCount : m ≤ n + count) :
    rounds limit kind taken.contains count n = if m < limit then .ok m else .error .overflow := by
  induction h generalizing count with
  | @found n hFree =>
    cases count with
    | zero => omega
    | succ count =>
      have hNot : taken.contains (numbered kind (n + 1)) = false := by simpa using hFree
      rw [rounds, hNot]
      split
      · rw [if_neg (by omega)]
      · rw [if_neg Bool.false_ne_true, if_pos (by omega)]
  | @skip n m hTaken hRest ih =>
    have hLater := hRest.lt
    cases count with
    | zero => omega
    | succ count =>
      have hContains : taken.contains (numbered kind (n + 1)) = true := by simpa using hTaken
      rw [rounds, hContains]
      split
      · rw [if_neg (by omega)]
      · rw [if_pos rfl]
        exact ih (by omega)

end Search

/-! ## One draw after another -/

/-- The identifiers that are drawn for these kinds, each with what is taken at that time. -/
def drawAll (numbering : Numbering) : List (ElementKind × List String) → List String
  | [] => []
  | (kind, taken) :: rest =>
    let next := numbering.next kind taken
    numbered kind next.last :: next.drawAll rest

theorem last_lt_of_drawAll {numbering : Numbering} {requests : List (ElementKind × List String)}
    (h : numbered kind n ∈ numbering.drawAll requests) : numbering.last < n := by
  induction requests generalizing numbering with
  | nil => cases h
  | cons request rest ih =>
    have hNext := (search_next numbering request.1 request.2).lt
    rcases List.mem_cons.mp h with hHere | hLater
    · rwa [(numbered_injective hHere).2]
    · exact hNext.trans (ih hLater)

theorem drawAll_nodup (numbering : Numbering) (requests : List (ElementKind × List String)) :
    (numbering.drawAll requests).Nodup := by
  induction requests generalizing numbering with
  | nil => exact List.nodup_nil
  | cons request rest ih =>
    refine List.nodup_cons.mpr ⟨?_, ih _⟩
    intro hAgain
    exact Nat.lt_irrefl _ (last_lt_of_drawAll hAgain)

end Numbering

/-! ## Draws of a net -/

namespace Net
variable {net : Net}

theorem freshId_notMem (net : Net) (kind : ElementKind) : (net.freshId kind).1 ∉ net.ids := by
  have hFree := (Numbering.search_next net.numbering kind (net.ids ++ [])).free
  rw [List.append_nil] at hFree
  rwa [freshId, List.append_nil]

theorem outcome_ne_duplicate {added : Except ConstructionError Net} {position : Nat}
    (h : ∀ other, added ≠ .error (.duplicateId other)) (other : String) :
    (net.outcome .added (added.map fun after => (position, after))).1 ≠
      .added (.error (.duplicateId other)) := by
  cases added with
  | error cause =>
    intro hSame
    cases hSame
    exact h other rfl
  | ok after => exact nofun

/-- An element whose identifier is free may be refused, but not for its identifier. -/
theorem perform_ne_duplicate {call : Call} {id : String} (hNew : call.newId? = some id)
    (hFree : id ∉ net.ids) (other : String) :
    (net.perform call).1 ≠ .added (.error (.duplicateId other)) := by
  cases call with
  | addPlace p =>
    cases hNew
    exact outcome_ne_duplicate (fun _ h => hFree (duplicateId_of_addPlace h).2) other
  | addTransition t =>
    cases hNew
    exact outcome_ne_duplicate (fun _ h => hFree (duplicateId_of_addTransition h).2) other
  | addInput a =>
    cases hNew
    exact outcome_ne_duplicate (fun _ h => hFree (duplicateId_of_addInput h).2) other
  | addOutput a =>
    cases hNew
    exact outcome_ne_duplicate (fun _ h => hFree (duplicateId_of_addOutput h).2) other
  | _ => cases hNew

end Net

namespace IndexedNet

/-- No element has the identifier, and none that is added with it is refused for that. -/
structure Unused (net : IndexedNet) (id : String) : Prop where
  element : net.element? id = some none
  arc : net.arc? id = some none
  notMem : id ∉ net.toNet.ids
  accepted : ∀ call, call.newId? = some id → ∃ answer after,
    net.perform call = some (answer, after) ∧
      ∀ other, answer ≠ .added (.error (.duplicateId other))

theorem InStep.unused {net : IndexedNet} (h : net.InStep) {id : String}
    (hFree : id ∉ net.toNet.ids) : net.Unused id where
  element := (h.sound.noElement id).mpr fun hNode => hFree (List.mem_append_left _ hNode)
  arc := (h.sound.noArc id).mpr fun hArc => hFree (List.mem_append_right _ hArc)
  notMem := hFree
  accepted call hNew := by
    obtain ⟨after, hCall, -⟩ := h.perform call
    exact ⟨_, after, hCall, Net.perform_ne_duplicate hNew hFree⟩

/-- It does not matter which calls were made on the net before, and whether they failed. -/
theorem drawn_unused (name : String) (calls : List Call) (kind : ElementKind) :
    ∃ answers net id net', performAll { id := name } calls = some (answers, net) ∧
      net.perform (.drawId kind) = some (.drawn id, net') ∧ net'.Unused id := by
  obtain ⟨net, hRun, hNet, -⟩ := (inStep_empty name).performAll calls
  obtain ⟨net', hDraw, hNet', hPlain⟩ := hNet.perform (.drawId kind)
  refine ⟨_, net, _, net', hRun, hDraw, hNet'.unused ?_⟩
  rw [hPlain]
  exact Net.freshId_notMem net.toNet kind

end IndexedNet

/-- A search takes at most one round more than there are taken identifiers, from whatever number it
starts, and stops before its end only where the numbers do. -/
theorem fresh_ids :
    (∀ (limit : Nat) (numbering : Numbering) (kind : ElementKind) (taken : List String),
      Numbering.rounds limit kind taken.contains (taken.toFinset.card + 1) numbering.last =
          (if (numbering.next kind taken).last < limit then .ok (numbering.next kind taken).last
            else .error .overflow) ∧
        numbering.last < (numbering.next kind taken).last ∧
        (numbering.next kind taken).last ≤ numbering.last + taken.toFinset.card + 1 ∧
        Numbering.numbered kind (numbering.next kind taken).last ∉ taken) ∧
    (∀ (numbering : Numbering) (requests : List (ElementKind × List String)),
      (numbering.drawAll requests).Nodup) ∧
    (∀ (name : String) (calls : List Call) (kind : ElementKind), ∃ answers net id net',
      IndexedNet.performAll { id := name } calls = some (answers, net) ∧
        net.perform (.drawId kind) = some (.drawn id, net') ∧ net'.Unused id) := by
  refine ⟨?_, Numbering.drawAll_nodup, IndexedNet.drawn_unused⟩
  intro limit numbering kind taken
  have hSearch := Numbering.search_next numbering kind taken
  exact ⟨hSearch.rounds_eq hSearch.le_card, hSearch.lt, hSearch.le_card, hSearch.free⟩

theorem fresh_ids_skip_taken :
    Numbering.rounds (2 ^ 64) .transition ["t2"].contains 2 1 = .ok 3 ∧
      ["p1", "t3", "i4"].Nodup ∧
      ∃ answers net id net',
        IndexedNet.performAll { id := "n" } [.drawId .place, .restartNumbering] =
            some (answers, net) ∧
          net.perform (.drawId .place) = some (.drawn id, net') ∧ net'.Unused id := by
  obtain ⟨hRounds, hDraws, hNets⟩ := fresh_ids
  refine ⟨?_, ?_, hNets "n" [.drawId .place, .restartNumbering] .place⟩
  · exact (hRounds (2 ^ 64) ⟨1⟩ .transition ["t2"]).1
  · exact hDraws {} [(.place, ["t2"]), (.transition, ["t2"]), (.inputArc, ["t2"])]

end Petri
