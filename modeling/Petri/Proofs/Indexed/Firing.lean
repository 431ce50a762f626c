import Petri.Proofs.Indexed.Building
import Petri.Proofs.Net.InPlace

/-! # Enabling and firing with indexes

A net with indexes asks the evaluator what the plain net asks and goes on in the same way. Its copies
of tokens are kept by position, those of the plain net by identifier.
-/
namespace Petri
set_option autoImplicit false

namespace IndexedNet
open Operation InPlace

/-! ## Equations -/

section Binding
variable {α β : Type}

theorem lift_some_bind (a : α) (f : α → ExceptT RunError Option β) :
    ((liftM (some a) : ExceptT RunError Option α) >>= f) = f a := rfl

theorem run_option_bind (x : ExceptT RunError Option α) (f : α → ExceptT RunError Option β) :
    (x >>= f).run =
      match x.run with
      | none => none
      | some (.error e) => some (.error e)
      | some (.ok a) => (f a).run := by
  rw [ExceptT.run_bind]
  rcases x.run with _ | _ | _ <;> rfl

theorem run_ask_some_bind (transition : String) (arc : Option String) (phase : Phase)
    (answer : Except EvalError α) (f : α → ExceptT RunError Option β) :
    (Evaluator.ask transition arc phase (some answer) >>= f).run =
      match answer with
      | .error cause => some (.error (.evaluation transition arc phase cause))
      | .ok a => (f a).run := by
  cases answer <;> rfl

end Binding

section Equations
variable (net : IndexedNet) (ev : Evaluator Id) (transition : String) (clock : Time)
variable {ex : Nat} {e : Edge} {px : Nat} {p : Place} (he : net.edges[ex]? = some e)
  (hp : net.placeAt ex = some (px, p)) (rest : List Nat) (drafts : Drafts)
include he hp

theorem run_consume_cons : (net.consume ev transition clock (ex :: rest) drafts).run =
    match ev.execute e.arc.execute ⟨clock, transition, some (drafts[px]?.getD p.tokens)⟩ with
    | .error cause => some (.error (.evaluation transition (some e.arc.id) .consuming cause))
    | .ok request =>
      match TokenBag.withdraw request clock (drafts[px]?.getD p.tokens) with
      | none => some (.error (.insufficientTokens transition p.id request.length clock))
      | some (taken, left) =>
        match (net.consume ev transition clock rest (drafts.insert px left)).run with
        | none => none
        | some (.error cause) => some (.error cause)
        | some (.ok (moved, after)) =>
          some (.ok (⟨e.arc.id, p.id, e.arc.execute, taken⟩ :: moved, after)) := by
  rw [consume, he, hp, lift_some_bind, lift_some_bind, run_ask_some_bind]
  cases ev.execute e.arc.execute ⟨clock, transition, some (drafts[px]?.getD p.tokens)⟩ with
  | error cause => rfl
  | ok request =>
    dsimp only
    cases TokenBag.withdraw request clock (drafts[px]?.getD p.tokens) with
    | none => rfl
    | some pair =>
      dsimp only
      rw [run_option_bind]
      rcases (net.consume ev transition clock rest (drafts.insert px pair.2)).run with _ | _ | _ <;>
        rfl

theorem run_produce_cons : (net.produce ev transition clock (ex :: rest) drafts).run =
    match ev.execute e.arc.execute ⟨clock, transition, some (drafts[px]?.getD p.tokens)⟩ with
    | .error cause => some (.error (.evaluation transition (some e.arc.id) .producing cause))
    | .ok made =>
      match TokenBag.shift clock made with
      | none => some (.error (.timeOverflow transition e.arc.id))
      | some fresh =>
        if p.fits ((drafts[px]?.getD p.tokens).length + fresh.length) then
          match (net.produce ev transition clock rest
            (drafts.insert px (drafts[px]?.getD p.tokens ++ fresh))).run with
          | none => none
          | some (.error cause) => some (.error cause)
          | some (.ok (moved, after)) =>
            some (.ok (⟨e.arc.id, p.id, e.arc.execute, fresh⟩ :: moved, after))
        else some (.error (.capacityExceeded transition p.id p.capacity)) := by
  rw [produce, he, hp, lift_some_bind, lift_some_bind, run_ask_some_bind]
  cases ev.execute e.arc.execute ⟨clock, transition, some (drafts[px]?.getD p.tokens)⟩ with
  | error cause => rfl
  | ok made =>
    dsimp only
    cases TokenBag.shift clock made with
    | none => rfl
    | some fresh =>
      dsimp only
      split
      · rw [run_option_bind]
        rcases (net.produce ev transition clock rest
          (drafts.insert px (drafts[px]?.getD p.tokens ++ fresh))).run with _ | _ | _ <;> rfl
      · rfl

end Equations

/-! ## Copies by position -/

/-- The copies hold these tokens: places without a copy have them still, and nothing else has one. -/
structure Holds (net : IndexedNet) (drafts : Drafts) (μ : Marking) : Prop where
  tokens : ∀ (px : Nat) (p : Place), net.nodes[px]? = some (.place p) →
    drafts[px]?.getD p.tokens = μ p.id
  place : ∀ (px : Nat) (tokens : TokenBag), drafts[px]? = some tokens →
    ∃ p, net.nodes[px]? = some (.place p)

/-- Arcs followed by position come out as in place. -/
def Follows (net : IndexedNet) (outcome : Option (Except RunError (List Movement × Drafts))) :
    Except RunError (List Movement × Marking) → Prop
  | .error e => outcome = some (.error e)
  | .ok (moved, μ) => ∃ drafts, outcome = some (.ok (moved, drafts)) ∧ net.Holds drafts μ

end IndexedNet

def Node.withTokens (μ : Marking) : Node → Node
  | .place p => .place { p with tokens := μ p.id }
  | .transition t => .transition t

namespace IndexedNet
open Operation InPlace

namespace InStep
variable {net : IndexedNet} (h : net.InStep)
include h

theorem holds_start : net.Holds ∅ net.toNet.tokensAt where
  tokens px p hp := by
    have hMem : p ∈ net.toNet.places :=
      List.mem_filterMap.mpr ⟨.place p, List.mem_of_getElem? hp, rfl⟩
    rw [h.wellFormed.tokensAt_of_mem hMem, Std.HashMap.getElem?_empty, Option.getD_none]
  place px tokens hSome := by simp at hSome

theorem holds_insert {drafts : Drafts} {μ : Marking} (hHolds : net.Holds drafts μ) {px : Nat}
    {p : Place} (hp : net.nodes[px]? = some (.place p)) (tokens : TokenBag) :
    net.Holds (drafts.insert px tokens) (Function.update μ p.id tokens) where
  tokens qx q hq := by
    rw [Std.HashMap.getElem?_insert]
    by_cases hSame : px = qx
    · subst hSame
      cases hp.symm.trans hq
      simp
    · have hOther : q.id ≠ p.id := by
        intro hId
        have hTable : net.nodeTable[p.id]? = some px := (h.nodeTable _ _).mpr (by rw [hp]; rfl)
        have hTable' : net.nodeTable[p.id]? = some qx :=
          (h.nodeTable _ _).mpr (by rw [hq]; exact congrArg some hId)
        exact hSame (Option.some.inj (hTable.symm.trans hTable'))
      simp [hSame, hOther, hHolds.tokens qx q hq]
  place qx tokens' hSome := by
    rw [Std.HashMap.getElem?_insert] at hSome
    by_cases hSame : px = qx
    · exact ⟨p, hSame ▸ hp⟩
    · exact hHolds.place qx tokens' (by simpa [hSame] using hSome)

section Following
variable {ev : Evaluator Id} {transition : String} {clock : Time}

theorem consume_follows {exs : List Nat} {arcs : List InputArc}
    (hEdges : List.Forall₂ (fun ex a => ∃ e, net.edges[ex]? = some e ∧ e.arc = .input a) exs arcs)
    {drafts : Drafts} {μ : Marking} (hHolds : net.Holds drafts μ)
    {r : Except RunError (List Movement × Marking)}
    (hMoves : MovesAll ev net.toNet transition clock (arcs.map .input) μ r) :
    net.Follows (net.consume ev transition clock exs drafts).run r := by
  induction hEdges generalizing drafts μ r with
  | nil =>
    cases hMoves
    exact ⟨drafts, rfl, hHolds⟩
  | @cons ex a exs arcs hEdge _ ih =>
    obtain ⟨e, he, hArc⟩ := hEdge
    obtain ⟨p, hPlaceAt, hp, hId, hPlace⟩ := h.placeAt he
    have hTokens := hHolds.tokens _ _ hp
    have hRun := run_consume_cons net ev transition clock he hPlaceAt exs drafts
    have hInsert (left : TokenBag) := h.holds_insert hHolds hp left
    rw [hId, hArc] at hTokens hInsert
    simp only [hTokens, hId, hArc, Arc.execute, Arc.place, Arc.id] at hRun
    rw [hRun]
    cases hMoves with
    | stop hFails =>
      cases hFails with
      | badRequest hRequest =>
        rw [hRequest]
        rfl
      | tooFew hRequest hTaken =>
        simp only [hRequest, hTaken]
        rfl
    | move hOne hOthers =>
      cases hOne with
      | take hRequest hTaken =>
        obtain ⟨after, hRest, hAfter⟩ := ih (hInsert _) hOthers
        simp only [hRequest, hTaken, hRest]
        exact ⟨after, rfl, hAfter⟩
    | stopLater hOne hFails =>
      cases hOne with
      | take hRequest hTaken =>
        have hRest : _ = some (Except.error _) := ih (hInsert _) hFails
        simp only [hRequest, hTaken, hRest]
        rfl

theorem produce_follows {exs : List Nat} {arcs : List OutputArc}
    (hEdges : List.Forall₂ (fun ex a => ∃ e, net.edges[ex]? = some e ∧ e.arc = .output a) exs arcs)
    {drafts : Drafts} {μ : Marking} (hHolds : net.Holds drafts μ)
    {r : Except RunError (List Movement × Marking)}
    (hMoves : MovesAll ev net.toNet transition clock (arcs.map .output) μ r) :
    net.Follows (net.produce ev transition clock exs drafts).run r := by
  induction hEdges generalizing drafts μ r with
  | nil =>
    cases hMoves
    exact ⟨drafts, rfl, hHolds⟩
  | @cons ex a exs arcs hEdge _ ih =>
    obtain ⟨e, he, hArc⟩ := hEdge
    obtain ⟨p, hPlaceAt, hp, hId, hPlace⟩ := h.placeAt he
    have hTokens := hHolds.tokens _ _ hp
    have hRun := run_produce_cons net ev transition clock he hPlaceAt exs drafts
    have hInsert (left : TokenBag) := h.holds_insert hHolds hp left
    rw [hId, hArc] at hTokens hInsert
    rw [hArc] at hPlace
    simp only [hTokens, hId, hArc, Arc.execute, Arc.place, Arc.id] at hRun
    rw [hRun]
    cases hMoves with
    | stop hFails =>
      cases hFails with
      | badProduct hMade =>
        rw [hMade]
        rfl
      | tooLate hMade hFresh =>
        simp only [hMade, hFresh]
        rfl
      | tooMany hMade hFresh hHere hFits =>
        cases hPlace.symm.trans hHere
        simp only [hMade, hFresh, hFits]
        rfl
    | move hOne hOthers =>
      cases hOne with
      | make hMade hFresh hHere hFits =>
        cases hPlace.symm.trans hHere
        obtain ⟨after, hRest, hAfter⟩ := ih (hInsert _) hOthers
        simp only [hMade, hFresh, hFits, if_true, hRest]
        exact ⟨after, rfl, hAfter⟩
    | stopLater hOne hFails =>
      cases hOne with
      | make hMade hFresh hHere hFits =>
        cases hPlace.symm.trans hHere
        have hRest : _ = some (Except.error _) := ih (hInsert _) hFails
        simp only [hMade, hFresh, hFits, if_true, hRest]
        rfl

end Following

/-! ## Giving copies back -/

omit h in
/-- Copies that hold what a marking says may be given back in any order. -/
theorem giveBack_eq {μ : Marking} {copies : List (Nat × TokenBag)} {nodes : List Node}
    (hCopies : ∀ copy ∈ copies, ∃ p, nodes[copy.1]? = some (.place p) ∧ copy.2 = μ p.id) :
    giveBack copies nodes = some (nodes.mapIdx fun ix n =>
      if ix ∈ copies.map Prod.fst then n.withTokens μ else n) := by
  induction copies generalizing nodes with
  | nil =>
    rw [giveBack, Option.some_inj]
    exact List.ext_getElem? fun ix => by simp [List.getElem?_mapIdx]
  | cons copy rest ih =>
    rw [List.forall_mem_cons] at hCopies
    obtain ⟨⟨p, hp, hTokens⟩, hRest⟩ := hCopies
    have hWithin := (List.getElem?_eq_some_iff.mp hp).1
    rw [giveBack, hp]
    change giveBack rest (nodes.set copy.1 (.place { p with tokens := copy.2 })) = _
    rw [ih, Option.some_inj]
    · refine List.ext_getElem? fun ix => ?_
      rw [List.getElem?_mapIdx, List.getElem?_mapIdx, List.getElem?_set]
      by_cases hIx : copy.1 = ix
      · subst hIx
        rw [if_pos rfl, if_pos hWithin, hp, Option.map_some, Option.map_some, List.map_cons,
          if_pos List.mem_cons_self]
        split <;> simp [Node.withTokens, hTokens]
      · have hMem : ix ∈ (copy :: rest).map Prod.fst ↔ ix ∈ rest.map Prod.fst := by
          simp [Ne.symm hIx]
        rw [if_neg hIx]
        simp only [hMem]
    · intro other hOther
      obtain ⟨q, hq, hTokens'⟩ := hRest other hOther
      rw [List.getElem?_set]
      by_cases hSame : copy.1 = other.1
      · -- two copies of one place hold the same
        rw [← hSame, hp] at hq
        cases hq
        exact ⟨{ p with tokens := copy.2 }, by simp [← hSame, hWithin], hTokens'⟩
      · exact ⟨q, by simp [hSame, hq], hTokens'⟩

omit h in
theorem giveBack_drafts {drafts : Drafts} {μ : Marking} (hHolds : net.Holds drafts μ) :
    giveBack drafts.toList net.nodes = some (net.nodes.map (Node.withTokens μ)) := by
  have hDrafts (px : Nat) (tokens : TokenBag) :
      (px, tokens) ∈ drafts.toList ↔ drafts[px]? = some tokens :=
    Std.HashMap.mem_toList_iff_getElem?_eq_some
  rw [giveBack_eq (μ := μ), Option.some_inj]
  · refine List.ext_getElem? fun ix => ?_
    rw [List.getElem?_mapIdx, List.getElem?_map]
    cases hn : net.nodes[ix]? with
    | none => rfl
    | some n =>
      rw [Option.map_some, Option.map_some]
      split
      · rfl
      · -- a place without a copy has what the marking says already
        rename_i hNoCopy
        cases n with
        | transition t => rfl
        | place p =>
          have hNone : drafts[ix]? = none := by
            rw [Option.eq_none_iff_forall_ne_some]
            exact fun tokens hSome =>
              hNoCopy (List.mem_map_of_mem (f := Prod.fst) ((hDrafts ix tokens).mpr hSome))
          have hTokens := hHolds.tokens ix p hn
          rw [hNone, Option.getD_none] at hTokens
          rw [Node.withTokens, ← hTokens]
  · rintro ⟨px, tokens⟩ hCopy
    have hSome := (hDrafts px tokens).mp hCopy
    obtain ⟨p, hp⟩ := hHolds.place px tokens hSome
    have hTokens := hHolds.tokens px p hp
    rw [hSome, Option.getD_some] at hTokens
    exact ⟨p, hp, hTokens⟩

/-! ## Locating -/

theorem locate_of_none {id : String} (hNone : net.toNet.transition? id = none) :
    (net.locate id).run = some (.error (.unknownTransition id)) := by
  rw [locate]
  cases hIx : net.nodeTable[id]? with
  | none => rfl
  | some ix =>
    obtain ⟨n, hn, _, hNode⟩ := h.node?_of_table hIx
    dsimp only
    rw [hn, lift_some_bind]
    cases n with
    | place p => rfl
    | transition t =>
      rw [Net.transition?, hNode] at hNone
      cases hNone

theorem locate_of_some {id : String} {t : Transition}
    (hSome : net.toNet.transition? id = some t) :
    ∃ tx, (net.locate id).run = some (.ok tx) ∧ net.nodeTable[id]? = some tx ∧
      net.nodes[tx]? = some (.transition t) := by
  obtain ⟨n, hNode, hTransition⟩ := Option.bind_eq_some_iff.mp hSome
  rw [locate]
  cases hIx : net.nodeTable[id]? with
  | none => cases (h.node?_of_no_table hIx).symm.trans hNode
  | some ix =>
    obtain ⟨m, hm, _, hNode'⟩ := h.node?_of_table hIx
    cases hNode'.symm.trans hNode
    dsimp only
    rw [hm, lift_some_bind]
    cases n with
    | place p => cases hTransition
    | transition u =>
      cases hTransition
      exact ⟨ix, rfl, rfl, hm⟩

/-! ## Enabling -/

theorem accepts (ev : Evaluator Id) (transition : String) (clock : Time) {exs : List Nat}
    {arcs : List InputArc}
    (hEdges : List.Forall₂ (fun ex a => ∃ e, net.edges[ex]? = some e ∧ e.arc = .input a) exs arcs) :
    (net.accepts ev transition clock exs).run =
      some (net.toNet.accepts ev transition clock arcs).run := by
  induction hEdges with
  | nil => rfl
  | @cons ex a exs arcs hEdge _ ih =>
    obtain ⟨e, he, hArc⟩ := hEdge
    obtain ⟨p, hPlaceAt, hp, hId, hPlace⟩ := h.placeAt he
    rw [hArc] at hPlace
    have hTokens : net.toNet.tokensAt a.place = p.tokens := by
      rw [Net.tokensAt, show net.toNet.place? a.place = some p from hPlace]
      rfl
    have hText : (ExceptT.mk (some e.arc.evaluate) : ExceptT RunError Option String) =
        liftM (some a.evaluate) := by
      rw [hArc]
      rfl
    rw [IndexedNet.accepts, Net.accepts, he, hPlaceAt, lift_some_bind, lift_some_bind, hText]
    dsimp only
    rw [lift_some_bind, run_ask_some_bind, run_ask_bind, hTokens, hArc]
    cases ev.evaluate a.evaluate ⟨clock, transition, some p.tokens⟩ with
    | error cause => rfl
    | ok accepted =>
      dsimp only
      split
      · exact ih
      · rfl

theorem headroom {exs : List Nat} {arcs : List OutputArc}
    (hEdges : List.Forall₂ (fun ex a => ∃ e, net.edges[ex]? = some e ∧ e.arc = .output a) exs arcs) :
    net.headroom exs =
      some (arcs.all fun a => (net.toNet.place? a.place).all Place.headroom) := by
  induction hEdges with
  | nil => rfl
  | @cons ex a exs arcs hEdge _ ih =>
    obtain ⟨e, he, hArc⟩ := hEdge
    obtain ⟨p, hPlaceAt, hp, hId, hPlace⟩ := h.placeAt he
    rw [hArc] at hPlace
    have hHere : net.toNet.place? a.place = some p := hPlace
    rw [IndexedNet.headroom, hPlaceAt, List.all_cons, hHere, Option.all_some]
    change (if p.headroom then net.headroom exs else some false) = _
    rw [ih]
    cases p.headroom <;> rfl

/-- Whether a transition is enabled is decided by the same questions, with the same answer. -/
theorem enabled (ev : Evaluator Id) (transition : String) (clock : Time) :
    (net.enabled ev transition clock).run =
      some (net.toNet.enabled ev transition clock).run := by
  rw [IndexedNet.enabled, Net.enabled]
  cases hTransition : net.toNet.transition? transition with
  | none =>
    rw [run_option_bind, h.locate_of_none hTransition]
    rfl
  | some t =>
    obtain ⟨tx, hLocate, hTx, hNode⟩ := h.locate_of_some hTransition
    have hAt : net.transitionAt tx = some t := by
      simp [IndexedNet.transitionAt, hNode, Node.transition?]
    rw [run_option_bind, hLocate]
    dsimp only
    rw [hAt, lift_some_bind, run_ask_some_bind, run_ask_bind]
    cases ev.evaluate t.guard ⟨clock, transition, none⟩ with
    | error cause => rfl
    | ok holds =>
      cases holds with
      | false => rfl
      | true =>
        simp only [if_true]
        rw [run_option_bind, run_bind, h.accepts ev transition clock (h.inputsOf hTx)]
        cases (net.toNet.accepts ev transition clock (net.toNet.inputsOf transition)).run with
        | error cause => rfl
        | ok accepted =>
          cases accepted with
          | false => rfl
          | true =>
            simp only [if_true]
            rw [h.headroom (h.outputsOf hTx)]
            rfl

/-! ## Firing -/

theorem set_withTokens {transition : String} {tx : Nat} {t : Transition}
    (hTx : net.nodeTable[transition]? = some tx) (hNode : net.nodes[tx]? = some (.transition t))
    (μ : Marking) (clock : Time) :
    (net.nodes.map (Node.withTokens μ)).set tx (.transition { t with lastFired := clock }) =
      (settled net.toNet μ transition clock).nodes := by
  let noted : Node → Node
    | .place p => .place p
    | .transition t => .transition { t with lastFired := clock }
  have hAt : (net.nodes.map (Node.withTokens μ))[tx]? = some (.transition t) := by
    rw [List.getElem?_map, hNode]
    rfl
  have hId : Node.id ∘ Node.withTokens μ = Node.id := by
    funext n
    cases n <;> rfl
  have hOnce (j : Nat) :
      (net.nodes.map (Node.withTokens μ))[j]?.map Node.id = some transition ↔ j = tx := by
    rw [List.getElem?_map, Option.map_map, hId, h.once hTx]
  have hSet := set_eq_map Node.id noted hAt hOnce
  rw [show Node.transition { t with lastFired := clock } = noted (.transition t) from rfl, hSet,
    List.map_map]
  refine List.map_congr_left fun n _ => ?_
  cases n with
  | place p => by_cases hp : p.id = transition <;> simp [Node.withTokens, Node.id, hp, noted]
  | transition u => by_cases hu : u.id = transition <;> simp [Node.withTokens, Node.id, hu, noted]

theorem settledNodes {μ : Marking} {transition : String} {clock : Time}
    (hWell : (settled net.toNet μ transition clock).WellFormed) :
    InStep { net with nodes := (settled net.toNet μ transition clock).nodes } := by
  refine h.withNodes ?_ hWell
  rw [settled, List.map_map]
  refine List.map_congr_left fun n _ => ?_
  cases n with
  | place p => rfl
  | transition t =>
    rw [Function.comp_apply]
    dsimp only
    split <;> rfl

theorem mapM_transfer {plain : Net} {μ : Marking} {transition : String} {clock : Time}
    (hPlain : net.toNet = settled plain μ transition clock) {arcs : List Arc}
    {moved : List Movement} (hAlong : List.Forall₂ Along arcs moved)
    (hPlaces : ∀ a ∈ arcs, ∃ p, plain.place? a.place = some p) :
    moved.mapM net.transfer = some (moved.map (counted μ)) := by
  refine mapM_of_forall₂ (List.forall₂_map_right_iff.mpr (List.forall₂_same.mpr fun m hm => ?_))
  obtain ⟨a, ha, hOne⟩ := exists_left_of_forall₂ hAlong hm
  obtain ⟨p, hp⟩ := hPlaces a ha
  rw [← hOne.place] at hp
  have hPlace := place?_settled transition clock μ hp
  rw [← hPlain, Net.place?] at hPlace
  rw [IndexedNet.transfer, h.element?]
  change some _ = some _
  rw [hPlace]
  rfl

theorem commit {transition : String} {tx : Nat} {t : Transition} {clock : Time}
    {taken made : List Movement} {drafts : Drafts} {μ : Marking}
    (hTx : net.nodeTable[transition]? = some tx) (hNode : net.nodes[tx]? = some (.transition t))
    (hTaken : List.Forall₂ Along ((net.toNet.inputsOf transition).map .input) taken)
    (hMade : List.Forall₂ Along ((net.toNet.outputsOf transition).map .output) made)
    (hDrafts : net.Holds drafts μ) (hWell : (settled net.toNet μ transition clock).WellFormed) :
    (IndexedNet.commit transition clock tx taken made drafts).on net =
      some (.ok (record t transition clock taken made μ),
        { net with nodes := (settled net.toNet μ transition clock).nodes }) := by
  have hAfter := h.settledNodes hWell
  have hInputs : ∀ a ∈ (net.toNet.inputsOf transition).map Arc.input,
      ∃ p, net.toNet.place? a.place = some p :=
    List.forall_mem_map.mpr fun a ha => h.wellFormed.place_of_input ha
  have hOutputs : ∀ a ∈ (net.toNet.outputsOf transition).map Arc.output,
      ∃ p, net.toNet.place? a.place = some p :=
    List.forall_mem_map.mpr fun a ha => h.wellFormed.place_of_output ha
  have hTransition : (net.nodes.map (Node.withTokens μ))[tx]? = some (.transition t) := by
    rw [List.getElem?_map, hNode]
    rfl
  rw [IndexedNet.commit, look_lift_bind (giveBack_drafts hDrafts), modify_bind,
    look_lift_bind (a := t) (by simp [IndexedNet.transitionAt, hTransition, Node.transition?]),
    modify_bind]
  dsimp only
  rw [h.set_withTokens hTx hNode, look_lift_bind (hAfter.mapM_transfer rfl hTaken hInputs),
    look_lift_bind (hAfter.mapM_transfer rfl hMade hOutputs)]
  rfl

theorem fire (ev : Evaluator Id) (transition : String) (clock : Time) :
    net.Mirrors ((IndexedNet.fire ev transition clock).on net)
      (net.toNet.fire ev transition clock).run := by
  have hPlain := fires_of_fire transition clock ev h.wellFormed
  cases hRun : (net.toNet.fire ev transition clock).run with
  | error e =>
    rw [hRun] at hPlain
    cases hPlain with
    | unknown hTransition => exact look_bind_error (h.locate_of_none hTransition)
    | failsTaking hTransition hTaken =>
      obtain ⟨tx, hLocate, hTx, _⟩ := h.locate_of_some hTransition
      refine Eq.trans (look_bind_ok hLocate) (look_bind_error ?_)
      exact h.consume_follows (h.inputsOf hTx) h.holds_start hTaken
    | failsMaking hTransition hTaken hMade =>
      obtain ⟨tx, hLocate, hTx, _⟩ := h.locate_of_some hTransition
      obtain ⟨drafts, hConsume, hDrafts⟩ :=
        h.consume_follows (h.inputsOf hTx) h.holds_start hTaken
      refine Eq.trans (look_bind_ok hLocate) (Eq.trans (look_bind_ok hConsume) (look_bind_error ?_))
      exact h.produce_follows (h.outputsOf hTx) hDrafts hMade
  | ok pair =>
    obtain ⟨firing, after⟩ := pair
    have hWell := h.wellFormed.change (.fire ev transition clock hRun)
    rw [hRun] at hPlain
    obtain ⟨t, taken, made, μ, hTransition, hFires, rfl, rfl⟩ := hPlain
    cases hFires with
    | fires _ hTaken hMade =>
      obtain ⟨tx, hLocate, hTx, hNode⟩ := h.locate_of_some hTransition
      obtain ⟨drafts, hConsume, hDrafts⟩ :=
        h.consume_follows (h.inputsOf hTx) h.holds_start hTaken
      obtain ⟨drafts', hProduce, hDrafts'⟩ :=
        h.produce_follows (h.outputsOf hTx) hDrafts hMade
      refine ⟨_, Eq.trans (look_bind_ok hLocate) (Eq.trans (look_bind_ok hConsume)
        (Eq.trans (look_bind_ok hProduce) ?_)), h.settledNodes hWell, rfl⟩
      exact h.commit hTx hNode hTaken.along hMade.along hDrafts' hWell

end InStep
end IndexedNet
end Petri
