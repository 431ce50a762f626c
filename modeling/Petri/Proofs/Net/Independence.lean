import Petri.Proofs.Net.InPlace

/-! # Independent transitions

Whether a transition is enabled and what its firing does is settled by the transition itself, its arcs
and the places at their ends. Two transitions without a common place are therefore independent of each
other: neither notices that the other has fired, and the order of the two firings cannot be told from
the net.
-/
namespace Petri
set_option autoImplicit false

namespace InPlace

/-- Nets that are the same as far as a transition can see. -/
structure Around (transition : String) (net net' : Net) : Prop where
  node : net'.transition? transition = net.transition? transition
  inputs : net'.inputsOf transition = net.inputsOf transition
  outputs : net'.outputsOf transition = net.outputsOf transition
  places : ∀ q ∈ touched net transition, net'.place? q = net.place? q

theorem place_of_touched {net : Net} (hNet : net.WellFormed) {transition q : String}
    (hq : q ∈ touched net transition) : ∃ p, net.place? q = some p := by
  rcases List.mem_append.mp hq with hq | hq
  · obtain ⟨a, ha, rfl⟩ := List.mem_map.mp hq
    exact hNet.place_of_input ha
  · obtain ⟨a, ha, rfl⟩ := List.mem_map.mp hq
    exact hNet.place_of_output ha

theorem Around.tokensAt {transition : String} {net net' : Net} (h : Around transition net net')
    {q : String} (hq : q ∈ touched net transition) : net'.tokensAt q = net.tokensAt q := by
  rw [Net.tokensAt, Net.tokensAt, h.places q hq]

/-! ## What a transition sees -/

theorem accepts_congr {m : Type → Type} [Monad m] (ev : Evaluator m) {net net' : Net}
    (transition : String) (clock : Time) {arcs : List InputArc}
    (hSame : ∀ a ∈ arcs, net'.tokensAt a.place = net.tokensAt a.place) :
    net'.accepts ev transition clock arcs = net.accepts ev transition clock arcs := by
  induction arcs with
  | nil => rfl
  | cons a rest ih =>
    obtain ⟨hFirst, hRest⟩ := List.forall_mem_cons.mp hSame
    rw [Net.accepts, Net.accepts, hFirst, ih hRest]

theorem Around.enabled {transition : String} {net net' : Net} (h : Around transition net net')
    {m : Type → Type} [Monad m] (ev : Evaluator m) (clock : Time) :
    net'.enabled ev transition clock = net.enabled ev transition clock := by
  have hAccepts := accepts_congr ev transition clock fun a ha =>
    h.tokensAt (List.mem_append_left _ (List.mem_map_of_mem ha))
  have hHeadroom : net'.headroom transition = net.headroom transition := by
    rw [Bool.eq_iff_iff, Net.headroom, Net.headroom, h.outputs, List.all_eq_true, List.all_eq_true]
    refine forall₂_congr fun a ha => ?_
    rw [h.places _ (List.mem_append_right _ (List.mem_map_of_mem ha))]
  rw [Net.enabled, Net.enabled, h.node, h.inputs, hAccepts, hHeadroom]

/-! ## What a firing does -/

/-- The first marking at the places of a transition, and elsewhere the second. -/
def grafted (net : Net) (transition : String) (μ ν : Marking) : Marking :=
  (touched net transition).toFinset.piecewise μ ν

section Frame
variable {ev : Evaluator Id} {net net' : Net} {transition : String} {clock : Time}
  {places : Finset String}

theorem grafted_of_mem {μ ν : Marking} {q : String} (hq : q ∈ touched net transition) :
    grafted net transition μ ν q = μ q :=
  Finset.piecewise_eq_of_mem _ _ _ (List.mem_toFinset.mpr hq)

theorem grafted_of_not_mem {μ ν : Marking} {q : String} (hq : q ∉ touched net transition) :
    grafted net transition μ ν q = ν q :=
  Finset.piecewise_eq_of_notMem _ _ _ fun h => hq (List.mem_toFinset.mp h)

theorem Around.grafted_tokensAt (h : Around transition net net') :
    grafted net transition net.tokensAt net'.tokensAt = net'.tokensAt := by
  funext q
  by_cases hq : q ∈ touched net transition
  · rw [grafted_of_mem hq, h.tokensAt hq]
  · rw [grafted_of_not_mem hq]

/-- An arc works on its own place and nothing else. -/
theorem Moves.around {a : Arc} {μ : Marking} {r : Except RunError (Movement × Marking)}
    (h : Moves ev net transition clock a μ r) (ha : a.place ∈ places)
    (hPlace : net'.place? a.place = net.place? a.place) (ν : Marking) :
    Moves ev net' transition clock a (places.piecewise μ ν)
      (r.map (Prod.map id fun μ' => places.piecewise μ' ν)) := by
  have hTokens := Finset.piecewise_eq_of_mem places μ ν ha
  have hUpdate := Finset.update_piecewise_of_mem places μ ν ha
  cases a with
  | input a =>
    dsimp only [Arc.place] at hTokens hUpdate
    cases h with
    | take hRequest hTaken =>
      rw [← hTokens] at hRequest hTaken
      have hMoves : Moves ev net' _ _ _ _ _ := .take hRequest hTaken
      rw [hUpdate] at hMoves
      exact hMoves
    | badRequest hRequest =>
      rw [← hTokens] at hRequest
      exact .badRequest hRequest
    | tooFew hRequest hTaken =>
      rw [← hTokens] at hRequest hTaken
      exact .tooFew hRequest hTaken
  | output a =>
    dsimp only [Arc.place] at hTokens hUpdate hPlace
    cases h with
    | make hMade hFresh hThere hFits =>
      rw [← hPlace] at hThere
      rw [← hTokens] at hMade hFits
      have hMoves := Moves.make hMade hFresh hThere hFits
      rw [hUpdate, hTokens] at hMoves
      exact hMoves
    | badProduct hMade =>
      rw [← hTokens] at hMade
      exact .badProduct hMade
    | tooLate hMade hFresh =>
      rw [← hTokens] at hMade
      exact .tooLate hMade hFresh
    | tooMany hMade hFresh hThere hFits =>
      rw [← hPlace] at hThere
      rw [← hTokens] at hMade hFits
      exact .tooMany hMade hFresh hThere hFits

theorem MovesAll.around {arcs : List Arc} {μ : Marking}
    {r : Except RunError (List Movement × Marking)}
    (h : MovesAll ev net transition clock arcs μ r) (hArcs : ∀ a ∈ arcs, a.place ∈ places)
    (hPlaces : ∀ q ∈ places, net'.place? q = net.place? q) (ν : Marking) :
    MovesAll ev net' transition clock arcs (places.piecewise μ ν)
      (r.map (Prod.map id fun μ' => places.piecewise μ' ν)) := by
  induction h with
  | done => exact .done _
  | stop hFails =>
    have hFirst := hArcs _ List.mem_cons_self
    exact .stop (hFails.around hFirst (hPlaces _ hFirst) ν)
  | move hOne _ ih =>
    have hFirst := hArcs _ List.mem_cons_self
    exact .move (hOne.around hFirst (hPlaces _ hFirst) ν)
      (ih fun a ha => hArcs a (List.mem_cons_of_mem _ ha))
  | stopLater hOne _ ih =>
    have hFirst := hArcs _ List.mem_cons_self
    exact .stopLater (hOne.around hFirst (hPlaces _ hFirst) ν)
      (ih fun a ha => hArcs a (List.mem_cons_of_mem _ ha))

theorem Fires.around {r : Except RunError (List Movement × List Movement × Marking)}
    (hFires : Fires ev net transition clock r) (h : Around transition net net') :
    Fires ev net' transition clock (r.map fun (taken, made, μ) =>
      (taken, made, grafted net transition μ net'.tokensAt)) := by
  have hPlaces : ∀ q ∈ (touched net transition).toFinset, net'.place? q = net.place? q :=
    fun q hq => h.places q (List.mem_toFinset.mp hq)
  have hInputs : ∀ a ∈ (net.inputsOf transition).map Arc.input,
      a.place ∈ (touched net transition).toFinset := List.forall_mem_map.mpr fun a ha =>
    List.mem_toFinset.mpr (List.mem_append_left _ (List.mem_map_of_mem ha))
  have hOutputs : ∀ a ∈ (net.outputsOf transition).map Arc.output,
      a.place ∈ (touched net transition).toFinset := List.forall_mem_map.mpr fun a ha =>
    List.mem_toFinset.mpr (List.mem_append_right _ (List.mem_map_of_mem ha))
  have hTaking : ∀ {r}, MovesAll ev net transition clock ((net.inputsOf transition).map .input)
      net.tokensAt r → MovesAll ev net' transition clock ((net'.inputsOf transition).map .input)
      net'.tokensAt (r.map (Prod.map id fun μ => grafted net transition μ net'.tokensAt)) := by
    intro r hTaken
    have hAround := hTaken.around hInputs hPlaces net'.tokensAt
    rw [← grafted, h.grafted_tokensAt] at hAround
    rw [h.inputs]
    exact hAround
  have hMaking : ∀ {μ r}, MovesAll ev net transition clock
      ((net.outputsOf transition).map .output) μ r → MovesAll ev net' transition clock
      ((net'.outputsOf transition).map .output) (grafted net transition μ net'.tokensAt)
      (r.map (Prod.map id fun μ => grafted net transition μ net'.tokensAt)) := by
    intro μ r hMade
    rw [h.outputs]
    exact hMade.around hOutputs hPlaces net'.tokensAt
  cases hFires with
  | unknown hTransition => exact .unknown (h.node.trans hTransition)
  | failsTaking hTransition hTaken =>
    exact .failsTaking (h.node.trans hTransition) (hTaking hTaken)
  | failsMaking hTransition hTaken hMade =>
    exact .failsMaking (h.node.trans hTransition) (hTaking hTaken) (hMaking hMade)
  | fires hTransition hTaken hMade =>
    exact .fires (h.node.trans hTransition) (hTaking hTaken) (hMaking hMade)

theorem map_counted_congr {arcs : List Arc} {moved : List Movement}
    (hAlong : List.Forall₂ Along arcs moved) {μ μ' : Marking}
    (hSame : ∀ a ∈ arcs, μ' a.place = μ a.place) :
    moved.map (counted μ') = moved.map (counted μ) := by
  apply List.map_congr_left
  intro m hm
  obtain ⟨a, ha, hOne⟩ := exists_left_of_forall₂ hAlong hm
  rw [counted, counted, hOne.place, hSame a ha]

theorem Fires.record_grafted {taken made : List Movement} {μ : Marking}
    (h : Fires ev net transition clock (.ok (taken, made, μ))) (t : Transition) (ν : Marking) :
    record t transition clock taken made (grafted net transition μ ν) =
      record t transition clock taken made μ := by
  cases h with
  | fires _ hTaken hMade =>
    rw [record, record, map_counted_congr hTaken.along, map_counted_congr hMade.along]
    · exact List.forall_mem_map.mpr fun a ha =>
        grafted_of_mem (List.mem_append_right _ (List.mem_map_of_mem ha))
    · exact List.forall_mem_map.mpr fun a ha =>
        grafted_of_mem (List.mem_append_left _ (List.mem_map_of_mem ha))

theorem run_fire_of_fires (hNet : net.WellFormed) {taken made : List Movement} {μ : Marking}
    (h : Fires ev net transition clock (.ok (taken, made, μ))) {t : Transition}
    (ht : net.transition? transition = some t) :
    (net.fire ev transition clock).run =
      .ok (record t transition clock taken made μ, settled net μ transition clock) := by
  cases hRun : (net.fire ev transition clock).run with
  | error e => cases (fires_of_fails hNet hRun).unique h
  | ok pair =>
    obtain ⟨t', taken', made', μ', ht', h', hFiring, hAfter⟩ := exists_fires hNet hRun
    cases h'.unique h
    cases ht'.symm.trans ht
    rw [← hFiring, ← hAfter]

theorem run_fire_of_fails (hNet : net.WellFormed) {e : RunError}
    (h : Fires ev net transition clock (.error e)) :
    (net.fire ev transition clock).run = .error e := by
  cases hRun : (net.fire ev transition clock).run with
  | error e' =>
    cases (fires_of_fails hNet hRun).unique h
    rfl
  | ok pair =>
    obtain ⟨t, taken, made, μ, _, h', _⟩ := exists_fires hNet hRun
    cases h'.unique h

/-- A firing that succeeds does so, with the same record, wherever the transition sees the same. -/
theorem fire_around (hNet : net.WellFormed) {firing : Firing} {after : Net}
    (hFire : (net.fire ev transition clock).run = .ok (firing, after)) :
    ∃ μ, (∀ q ∉ touched net transition, μ q = net.tokensAt q) ∧
      after = settled net μ transition clock ∧
      ∀ net' : Net, net'.WellFormed → Around transition net net' →
        (net'.fire ev transition clock).run = .ok (firing,
          settled net' (grafted net transition μ net'.tokensAt) transition clock) := by
  obtain ⟨t, taken, made, μ, ht, hFires, rfl, rfl⟩ := exists_fires hNet hFire
  refine ⟨μ, fun q hq => hFires.untouched hq, rfl, fun net' hNet' h => ?_⟩
  rw [run_fire_of_fires hNet' (hFires.around h) (h.node.trans ht), hFires.record_grafted]

theorem Around.fails (h : Around transition net net') (hNet : net.WellFormed)
    (hNet' : net'.WellFormed) {e : RunError}
    (hFails : (net.fire ev transition clock).run = .error e) :
    (net'.fire ev transition clock).run = .error e :=
  run_fire_of_fails hNet' ((fires_of_fails hNet hFails).around h)

end Frame

/-! ## Two transitions -/

section Two
variable {net : Net} (hNet : net.WellFormed) {t u : String} (hDistinct : t ≠ u)
  (hDisjoint : List.Disjoint (touched net t) (touched net u)) {μ ν : Marking}
  (hTokens : ∀ q ∉ touched net t, μ q = net.tokensAt q)
include hNet hDistinct hDisjoint hTokens

/-- A transition does not see that the other has fired. -/
theorem around_settled (c : Time) : Around u net (settled net μ t c) where
  node := by
    rw [transition?_settled]
    cases hNode : net.transition? u with
    | none => rfl
    | some v =>
      obtain rfl : v.id = u := (Net.mem_of_transition? hNode).2
      rw [Option.map_some, if_neg hDistinct.symm]
  inputs := rfl
  outputs := rfl
  places q hq := by
    obtain ⟨p, hp⟩ := place_of_touched hNet hq
    have hSame : μ q = p.tokens := by
      rw [hTokens q fun hOther => hDisjoint hOther hq, Net.tokensAt, hp]
      rfl
    rw [place?_settled t c μ hp, hp, hSame]

theorem settled_comm (hTokens' : ∀ q ∉ touched net u, ν q = net.tokensAt q) (c d : Time) :
    settled (settled net μ t c) (grafted net u ν (settled net μ t c).tokensAt) u d =
      settled (settled net ν u d) (grafted net t μ (settled net ν u d).tokensAt) t c := by
  have hMarking : ∀ p ∈ net.places, grafted net u ν (settled net μ t c).tokensAt p.id =
      grafted net t μ (settled net ν u d).tokensAt p.id := by
    intro p hp
    have hPlace : ∃ p', net.place? p.id = some p' := ⟨p, Net.place?_of_mem hNet.nodup hp⟩
    -- the place is one of the first transition, of the second, or of neither
    by_cases hFirst : p.id ∈ touched net t
    · rw [grafted_of_mem hFirst, grafted_of_not_mem fun h => hDisjoint hFirst h,
        tokensAt_settled t c μ hPlace]
    · rw [grafted_of_not_mem hFirst, tokensAt_settled u d ν hPlace]
      by_cases hSecond : p.id ∈ touched net u
      · rw [grafted_of_mem hSecond]
      · rw [grafted_of_not_mem hSecond, tokensAt_settled t c μ hPlace, hTokens _ hFirst,
          hTokens' _ hSecond]
  simp only [settled, List.map_map] at hMarking ⊢
  congr 1
  apply List.map_congr_left
  intro n hn
  cases n with
  | place p =>
    have hp : p ∈ net.places := List.mem_filterMap.mpr ⟨.place p, hn, rfl⟩
    simp only [Function.comp_apply, hMarking p hp]
  | transition v =>
    by_cases hFirst : v.id = t
    · simp [hFirst, hDistinct]
    · by_cases hSecond : v.id = u <;> simp [hFirst, hSecond, hDistinct.symm]

end Two
end InPlace

namespace Net
open InPlace

/-- Of two transitions without a common place, neither notices that the other has fired: it is
enabled as before, and fires with the same record or fails with the same error. When both fire, the
net is the same whichever was first. -/
theorem independent_commute (ev : Evaluator Id) {net after : Net} (hNet : net.Reachable)
    {t u : String} (hDistinct : t ≠ u)
    (hDisjoint : List.Disjoint (touched net t) (touched net u)) {c : Time} {firing : Firing}
    (hFire : (net.fire ev t c).run = .ok (firing, after)) (d : Time) :
    (after.enabled ev u d).run = (net.enabled ev u d).run ∧
    (after.fire ev u d).run.map Prod.fst = (net.fire ev u d).run.map Prod.fst ∧
    ∀ firing' after', (net.fire ev u d).run = .ok (firing', after') →
      ∃ both, (after.fire ev u d).run = .ok (firing', both) ∧
        (after'.fire ev t c).run = .ok (firing, both) := by
  have hWell := hNet.wellFormed
  have hWellAfter := (hNet.change (.fire ev t c hFire)).wellFormed
  obtain ⟨μ, hTokens, rfl, hFires⟩ := fire_around hWell hFire
  have hAround := around_settled hWell hDistinct hDisjoint hTokens c
  refine ⟨by rw [hAround.enabled], ?_, ?_⟩
  · cases hOther : (net.fire ev u d).run with
    | error e => rw [hAround.fails hWell hWellAfter hOther]
    | ok pair =>
      obtain ⟨ν, _, _, hFires'⟩ := fire_around hWell hOther
      rw [hFires' _ hWellAfter hAround]
      rfl
  · intro firing' after' hOther
    have hWellAfter' := (hNet.change (.fire ev u d hOther)).wellFormed
    obtain ⟨ν, hTokens', rfl, hFires'⟩ := fire_around hWell hOther
    have hAround' := around_settled hWell hDistinct.symm hDisjoint.symm hTokens' d
    refine ⟨_, hFires' _ hWellAfter hAround, ?_⟩
    rw [hFires _ hWellAfter' hAround', settled_comm hWell hDistinct hDisjoint hTokens hTokens']

/-! ## Two lanes -/

/-- A transition takes from one place, another one takes from a second place and gives to a third. -/
def lanes : Net where
  id := "lanes"
  nodes := [.place { id := "p", tokens := [⟨.int 1, 0, none⟩, ⟨.int 2, 0, none⟩] },
    .place { id := "q", tokens := [⟨.int 3, 0, none⟩] }, .place { id := "r" },
    .transition { id := "t" }, .transition { id := "u" }]
  arcs := [.input { id := "i", place := "p", transition := "t" },
    .input { id := "j", place := "q", transition := "u" },
    .output { id := "o", transition := "u", place := "r" }]

theorem lanes_reachable : lanes.Reachable := by
  have hFirst := (Reachable.empty "lanes").change
    (.addPlace { id := "p", tokens := [⟨.int 1, 0, none⟩, ⟨.int 2, 0, none⟩] }
      (addPlace_eq_ok_iff.mpr ⟨by decide, rfl⟩))
  have hSecond := hFirst.change
    (.addPlace { id := "q", tokens := [⟨.int 3, 0, none⟩] }
      (addPlace_eq_ok_iff.mpr ⟨by decide, rfl⟩))
  have hThird := hSecond.change
    (.addPlace { id := "r" } (addPlace_eq_ok_iff.mpr ⟨by decide, rfl⟩))
  have hNodes := (hThird.change
    (.addTransition { id := "t" } (addTransition_eq_ok_iff.mpr ⟨by decide, rfl⟩))).change
    (.addTransition { id := "u" } (addTransition_eq_ok_iff.mpr ⟨by decide, rfl⟩))
  have hInput := hNodes.change (.addInput { id := "i", place := "p", transition := "t" }
    (addInput_eq_ok_iff.mpr ⟨by decide, ⟨_, rfl⟩, ⟨_, rfl⟩, rfl⟩))
  have hInputs := hInput.change (.addInput { id := "j", place := "q", transition := "u" }
    (addInput_eq_ok_iff.mpr ⟨by decide, ⟨_, rfl⟩, ⟨_, rfl⟩, rfl⟩))
  exact hInputs.change (.addOutput { id := "o", transition := "u", place := "r" }
    (addOutput_eq_ok_iff.mpr ⟨by decide, ⟨_, rfl⟩, ⟨_, rfl⟩, rfl⟩))

theorem independent_commute_lanes :
    lanes.Reachable ∧ "t" ≠ "u" ∧ List.Disjoint (touched lanes "t") (touched lanes "u") ∧
      ∃ firing after firing' after' both, (lanes.fire counting "t" 2).run = .ok (firing, after) ∧
        (lanes.fire counting "u" 5).run = .ok (firing', after') ∧
        (after.fire counting "u" 5).run = .ok (firing', both) ∧
        (after'.fire counting "t" 2).run = .ok (firing, both) ∧
        both.marking = [("p", [⟨.int 1, 0, none⟩]), ("q", []), ("r", [⟨.int 0, 6, none⟩])] := by
  have hDistinct : "t" ≠ "u" := by decide
  have hDisjoint : List.Disjoint ["p"] ["q", "r"] := List.singleton_disjoint.mpr (by decide)
  obtain ⟨firing, after, hFire⟩ : ∃ firing after,
      (lanes.fire counting "t" 2).run = .ok (firing, after) := ⟨_, _, rfl⟩
  obtain ⟨firing', after', hOther⟩ : ∃ firing' after',
      (lanes.fire counting "u" 5).run = .ok (firing', after') := ⟨_, _, rfl⟩
  have hCommute := independent_commute counting lanes_reachable hDistinct hDisjoint hFire 5
  obtain ⟨both, hAfter, hAfter'⟩ := hCommute.2.2 _ _ hOther
  refine ⟨lanes_reachable, hDistinct, hDisjoint, _, _, _, _, both, hFire, hOther, hAfter, hAfter',
    ?_⟩
  cases hFire
  cases hAfter
  rfl

end Net
end Petri
