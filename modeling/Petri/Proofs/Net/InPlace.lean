import Petri.Proofs.Net.Reachable

/-! # Firing in place

What a firing does, said without copies: one arc after another works on the tokens themselves, the
input arcs first, up to the first arc that fails. A firing on copies has the same outcome, error
or not, and the order in which it gives its copies back does not matter.
-/
namespace Petri
set_option autoImplicit false

abbrev Marking := String → TokenBag

namespace InPlace

inductive Moves (ev : Evaluator Id) (net : Net) (transition : String) (clock : Time) :
    Arc → Marking → Except RunError (Movement × Marking) → Prop where
  | take {a : InputArc} {μ : Marking} {request taken left : TokenBag}
      (hRequest : ev.execute a.execute ⟨clock, transition, some (μ a.place)⟩ = .ok request)
      (hTaken : TokenBag.withdraw request clock (μ a.place) = some (taken, left)) :
      Moves ev net transition clock (.input a) μ
        (.ok (⟨a.id, a.place, a.execute, taken⟩, Function.update μ a.place left))
  | badRequest {a : InputArc} {μ : Marking} {cause : EvalError}
      (hRequest : ev.execute a.execute ⟨clock, transition, some (μ a.place)⟩ = .error cause) :
      Moves ev net transition clock (.input a) μ
        (.error (.evaluation transition (some a.id) .consuming cause))
  | tooFew {a : InputArc} {μ : Marking} {request : TokenBag}
      (hRequest : ev.execute a.execute ⟨clock, transition, some (μ a.place)⟩ = .ok request)
      (hTaken : TokenBag.withdraw request clock (μ a.place) = none) :
      Moves ev net transition clock (.input a) μ
        (.error (.insufficientTokens transition a.place request.length clock))
  | make {a : OutputArc} {μ : Marking} {made fresh : TokenBag} {p : Place}
      (hMade : ev.execute a.execute ⟨clock, transition, some (μ a.place)⟩ = .ok made)
      (hFresh : TokenBag.shift clock made = some fresh)
      (hPlace : net.place? a.place = some p)
      (hFits : p.fits ((μ a.place).length + fresh.length) = true) :
      Moves ev net transition clock (.output a) μ
        (.ok (⟨a.id, a.place, a.execute, fresh⟩, Function.update μ a.place (μ a.place ++ fresh)))
  | badProduct {a : OutputArc} {μ : Marking} {cause : EvalError}
      (hMade : ev.execute a.execute ⟨clock, transition, some (μ a.place)⟩ = .error cause) :
      Moves ev net transition clock (.output a) μ
        (.error (.evaluation transition (some a.id) .producing cause))
  | tooLate {a : OutputArc} {μ : Marking} {made : TokenBag}
      (hMade : ev.execute a.execute ⟨clock, transition, some (μ a.place)⟩ = .ok made)
      (hFresh : TokenBag.shift clock made = none) :
      Moves ev net transition clock (.output a) μ (.error (.timeOverflow transition a.id))
  | tooMany {a : OutputArc} {μ : Marking} {made fresh : TokenBag} {p : Place}
      (hMade : ev.execute a.execute ⟨clock, transition, some (μ a.place)⟩ = .ok made)
      (hFresh : TokenBag.shift clock made = some fresh)
      (hPlace : net.place? a.place = some p)
      (hFits : p.fits ((μ a.place).length + fresh.length) = false) :
      Moves ev net transition clock (.output a) μ
        (.error (.capacityExceeded transition a.place p.capacity))

/-- Arcs one after another, up to the first that fails. -/
inductive MovesAll (ev : Evaluator Id) (net : Net) (transition : String) (clock : Time) :
    List Arc → Marking → Except RunError (List Movement × Marking) → Prop where
  | done (μ : Marking) : MovesAll ev net transition clock [] μ (.ok ([], μ))
  | stop {a : Arc} {rest : List Arc} {μ : Marking} {e : RunError}
      (hFails : Moves ev net transition clock a μ (.error e)) :
      MovesAll ev net transition clock (a :: rest) μ (.error e)
  | move {a : Arc} {rest : List Arc} {μ μ₁ μ₂ : Marking} {one : Movement} {others : List Movement}
      (hOne : Moves ev net transition clock a μ (.ok (one, μ₁)))
      (hOthers : MovesAll ev net transition clock rest μ₁ (.ok (others, μ₂))) :
      MovesAll ev net transition clock (a :: rest) μ (.ok (one :: others, μ₂))
  | stopLater {a : Arc} {rest : List Arc} {μ μ₁ : Marking} {one : Movement} {e : RunError}
      (hOne : Moves ev net transition clock a μ (.ok (one, μ₁)))
      (hFails : MovesAll ev net transition clock rest μ₁ (.error e)) :
      MovesAll ev net transition clock (a :: rest) μ (.error e)

/-- A whole firing from the tokens that the net has: what input arcs took, what output arcs made,
and the tokens in the end. -/
inductive Fires (ev : Evaluator Id) (net : Net) (transition : String) (clock : Time) :
    Except RunError (List Movement × List Movement × Marking) → Prop where
  | unknown (hTransition : net.transition? transition = none) :
      Fires ev net transition clock (.error (.unknownTransition transition))
  | failsTaking {t : Transition} {e : RunError} (hTransition : net.transition? transition = some t)
      (hTaken : MovesAll ev net transition clock ((net.inputsOf transition).map .input)
        net.tokensAt (.error e)) :
      Fires ev net transition clock (.error e)
  | failsMaking {t : Transition} {e : RunError} {taken : List Movement} {μ : Marking}
      (hTransition : net.transition? transition = some t)
      (hTaken : MovesAll ev net transition clock ((net.inputsOf transition).map .input)
        net.tokensAt (.ok (taken, μ)))
      (hMade : MovesAll ev net transition clock ((net.outputsOf transition).map .output)
        μ (.error e)) :
      Fires ev net transition clock (.error e)
  | fires {t : Transition} {taken made : List Movement} {μ μ₁ : Marking}
      (hTransition : net.transition? transition = some t)
      (hTaken : MovesAll ev net transition clock ((net.inputsOf transition).map .input)
        net.tokensAt (.ok (taken, μ)))
      (hMade : MovesAll ev net transition clock ((net.outputsOf transition).map .output)
        μ (.ok (made, μ₁))) :
      Fires ev net transition clock (.ok (taken, made, μ₁))

/-! ## One outcome -/

section Unique
variable {ev : Evaluator Id} {net : Net} {transition : String} {clock : Time}

theorem Moves.unique {a : Arc} {μ : Marking} {r r' : Except RunError (Movement × Marking)}
    (h : Moves ev net transition clock a μ r) (h' : Moves ev net transition clock a μ r') :
    r = r' := by
  cases h <;> cases h' <;> simp_all [Id]

theorem MovesAll.unique {arcs : List Arc} {μ : Marking}
    {r r' : Except RunError (List Movement × Marking)}
    (h : MovesAll ev net transition clock arcs μ r)
    (h' : MovesAll ev net transition clock arcs μ r') : r = r' := by
  induction h generalizing r' with
  | done μ =>
    cases h'
    rfl
  | stop hFails =>
    cases h' with
    | stop hFails' => exact congrArg _ (Except.error.inj (hFails.unique hFails'))
    | move hOne => cases hFails.unique hOne
    | stopLater hOne => cases hFails.unique hOne
  | move hOne _ ih =>
    cases h' with
    | stop hFails => cases hOne.unique hFails
    | move hOne' hOthers =>
      cases hOne.unique hOne'
      cases ih hOthers
      rfl
    | stopLater hOne' hFails =>
      cases hOne.unique hOne'
      cases ih hFails
  | stopLater hOne _ ih =>
    cases h' with
    | stop hFails => cases hOne.unique hFails
    | move hOne' hOthers =>
      cases hOne.unique hOne'
      cases ih hOthers
    | stopLater hOne' hFails =>
      cases hOne.unique hOne'
      cases ih hFails
      rfl

theorem Fires.unique {r r' : Except RunError (List Movement × List Movement × Marking)}
    (h : Fires ev net transition clock r) (h' : Fires ev net transition clock r') : r = r' := by
  cases h with
  | unknown hTransition => cases h' <;> simp_all
  | failsTaking hTransition hTaken =>
    cases h' with
    | unknown hNone => simp_all
    | failsTaking _ hTaken' => exact congrArg _ (Except.error.inj (hTaken.unique hTaken'))
    | failsMaking _ hTaken' => cases hTaken.unique hTaken'
    | fires _ hTaken' => cases hTaken.unique hTaken'
  | failsMaking hTransition hTaken hMade =>
    cases h' with
    | unknown hNone => simp_all
    | failsTaking _ hTaken' => cases hTaken.unique hTaken'
    | failsMaking _ hTaken' hMade' =>
      cases hTaken.unique hTaken'
      exact congrArg _ (Except.error.inj (hMade.unique hMade'))
    | fires _ hTaken' hMade' =>
      cases hTaken.unique hTaken'
      cases hMade.unique hMade'
  | fires hTransition hTaken hMade =>
    cases h' with
    | unknown hNone => simp_all
    | failsTaking _ hTaken' => cases hTaken.unique hTaken'
    | failsMaking _ hTaken' hMade' =>
      cases hTaken.unique hTaken'
      cases hMade.unique hMade'
    | fires _ hTaken' hMade' =>
      cases hTaken.unique hTaken'
      cases hMade.unique hMade'
      rfl

theorem MovesAll.frame {arcs : List Arc} {μ μ' : Marking} {moved : List Movement}
    (h : MovesAll ev net transition clock arcs μ (.ok (moved, μ'))) {q : String}
    (hq : ∀ a ∈ arcs, a.place ≠ q) : μ' q = μ q := by
  generalize hr : Except.ok (moved, μ') = r at h
  induction h generalizing moved μ' with
  | done μ =>
    cases hr
    rfl
  | stop => cases hr
  | stopLater => cases hr
  | move hOne _ ih =>
    cases hr
    rw [ih (fun a ha => hq a (List.mem_cons_of_mem _ ha)) rfl]
    have hne := hq _ List.mem_cons_self
    cases hOne with
    | take => exact Function.update_of_ne hne.symm _ _
    | make => exact Function.update_of_ne hne.symm _ _

structure Along (a : Arc) (m : Movement) : Prop where
  arc : m.arc = a.id
  place : m.place = a.place
  inscription : m.inscription = a.execute

theorem Moves.along {a : Arc} {μ μ' : Marking} {m : Movement}
    (h : Moves ev net transition clock a μ (.ok (m, μ'))) : Along a m := by
  cases h with
  | take => exact ⟨rfl, rfl, rfl⟩
  | make => exact ⟨rfl, rfl, rfl⟩

/-- There is one movement for each arc, in the order of the arcs. -/
theorem MovesAll.along {arcs : List Arc} {μ μ' : Marking} {moved : List Movement}
    (h : MovesAll ev net transition clock arcs μ (.ok (moved, μ'))) :
    List.Forall₂ Along arcs moved := by
  generalize hr : Except.ok (moved, μ') = r at h
  induction h generalizing moved μ' with
  | done μ =>
    cases hr
    exact .nil
  | stop => cases hr
  | stopLater => cases hr
  | move hOne _ ih =>
    cases hr
    exact .cons hOne.along (ih rfl)

end Unique

/-! ## Firing on copies -/

section Copies
variable (ev : Evaluator Id) (net : Net) (transition : String) (clock : Time)

theorem tokensAt_put (scratch : Scratch) (place : String) (tokens : TokenBag) :
    (scratch.put place tokens).tokensAt net =
      Function.update (scratch.tokensAt net) place tokens := by
  funext q
  by_cases h : q = place
  · subst h
    simp [Scratch.tokensAt, Scratch.put]
  · have hb : (q == place) = false := by simpa using h
    simp [Scratch.tokensAt, Scratch.put, List.lookup_cons, hb, h]

def onMarking (r : Except RunError (List Movement × Scratch)) :
    Except RunError (List Movement × Marking) :=
  r.map fun (moved, scratch) => (moved, scratch.tokensAt net)

theorem movesAll_consume (arcs : List InputArc) (scratch : Scratch) :
    MovesAll ev net transition clock (arcs.map .input) (scratch.tokensAt net)
      (onMarking net (net.consume ev transition clock arcs scratch).run) := by
  induction arcs generalizing scratch with
  | nil => exact .done _
  | cons a rest ih =>
    rw [Net.run_consume_cons, List.map_cons]
    cases hRequest :
      ev.execute a.execute ⟨clock, transition, some (scratch.tokensAt net a.place)⟩ with
    | error cause => exact .stop (.badRequest hRequest)
    | ok request =>
      dsimp only
      cases hTaken : TokenBag.withdraw request clock (scratch.tokensAt net a.place) with
      | none => exact .stop (.tooFew hRequest hTaken)
      | some pair =>
        obtain ⟨taken, left⟩ := pair
        dsimp only
        have hOne : Moves ev net transition clock (.input a) (scratch.tokensAt net)
            (.ok (⟨a.id, a.place, a.execute, taken⟩,
              Function.update (scratch.tokensAt net) a.place left)) := .take hRequest hTaken
        have hOthers := ih (scratch.put a.place left)
        rw [tokensAt_put] at hOthers
        cases hRun : (net.consume ev transition clock rest (scratch.put a.place left)).run with
        | error e =>
          rw [hRun] at hOthers
          exact .stopLater hOne hOthers
        | ok pair =>
          rw [hRun] at hOthers
          exact .move hOne hOthers

theorem movesAll_produce (arcs : List OutputArc) (scratch : Scratch)
    (hPlaces : ∀ a ∈ arcs, ∃ p, net.place? a.place = some p) :
    MovesAll ev net transition clock (arcs.map .output) (scratch.tokensAt net)
      (onMarking net (net.produce ev transition clock arcs scratch).run) := by
  induction arcs generalizing scratch with
  | nil => exact .done _
  | cons a rest ih =>
    rw [Net.run_produce_cons, List.map_cons]
    obtain ⟨p, hPlace⟩ := hPlaces a List.mem_cons_self
    cases hMade : ev.execute a.execute ⟨clock, transition, some (scratch.tokensAt net a.place)⟩ with
    | error cause => exact .stop (.badProduct hMade)
    | ok made =>
      dsimp only
      cases hFresh : TokenBag.shift clock made with
      | none => exact .stop (.tooLate hMade hFresh)
      | some fresh =>
        simp only [hPlace, Option.all_some, Option.map_some, Option.getD_some]
        split
        · rename_i hFits
          have hOne := Moves.make hMade hFresh hPlace hFits
          have hOthers := ih (scratch.put a.place (scratch.tokensAt net a.place ++ fresh))
            fun b hb => hPlaces b (List.mem_cons_of_mem _ hb)
          rw [tokensAt_put] at hOthers
          cases hRun : (net.produce ev transition clock rest
              (scratch.put a.place (scratch.tokensAt net a.place ++ fresh))).run with
          | error e =>
            rw [hRun] at hOthers
            exact .stopLater hOne hOthers
          | ok pair =>
            rw [hRun] at hOthers
            exact .move hOne hOthers
        · rename_i hFits
          exact .stop (.tooMany hMade hFresh hPlace (Bool.eq_false_iff.mpr hFits))

end Copies

/-- The net after a firing that has left these tokens: places hold them, the transition has noted
the clock, and all else is as before. -/
def settled (net : Net) (μ : Marking) (transition : String) (clock : Time) : Net :=
  { net with nodes := net.nodes.map fun
      | .place p => .place { p with tokens := μ p.id }
      | .transition t =>
        .transition (if t.id = transition then { t with lastFired := clock } else t) }

def counted (μ : Marking) (m : Movement) : Transfer := { m with marking := (μ m.place).length }

def record (t : Transition) (transition : String) (clock : Time) (taken made : List Movement)
    (μ : Marking) : Firing where
  transition := transition
  label := t.shown
  clock := clock
  consumed := taken.map (counted μ)
  produced := made.map (counted μ)

section Settled
variable {net : Net} (transition : String) (clock : Time)

theorem commit_eq_settled (hNet : net.WellFormed) (scratch : Scratch) :
    net.commit scratch transition clock =
      settled net (scratch.tokensAt net) transition clock := by
  simp only [Net.commit, Net.mapPlaces, Net.updateTransition, Net.mapTransitions, settled,
    List.map_map]
  congr 1
  apply List.map_congr_left
  intro n hn
  cases n with
  | transition t => rfl
  | place p =>
    have hp : p ∈ net.places := List.mem_filterMap.mpr ⟨.place p, hn, rfl⟩
    simp only [Function.comp_apply, Scratch.tokensAt, hNet.tokensAt_of_mem hp]

theorem place?_settled (μ : Marking) {q : String} {p : Place} (hp : net.place? q = some p) :
    (settled net μ transition clock).place? q = some { p with tokens := μ q } := by
  obtain ⟨n, hn, hPlace⟩ := Option.bind_eq_some_iff.mp hp
  have hId : n.id = q := Net.id_of_node? hn
  rw [Net.place?, settled, Net.node?_map_nodes, hn]
  · cases n with
    | transition t => cases hPlace
    | place p' =>
      cases hPlace
      simp [Node.place?, ← hId, Node.id]
  · intro n
    cases n with
    | place p => rfl
    | transition t => simp only [Node.id]; split <;> rfl

theorem transition?_settled (μ : Marking) (id : String) :
    (settled net μ transition clock).transition? id = (net.transition? id).map fun t =>
      if t.id = transition then { t with lastFired := clock } else t := by
  rw [Net.transition?, settled, Net.node?_map_nodes, Net.transition?]
  · cases net.node? id with
    | none => rfl
    | some n => cases n <;> rfl
  · intro n
    cases n with
    | place p => rfl
    | transition t => simp only [Node.id]; split <;> rfl

theorem places_settled (μ : Marking) : (settled net μ transition clock).places =
    net.places.map fun p => { p with tokens := μ p.id } := by
  simp only [Net.places, settled, List.filterMap_map, List.map_filterMap]
  congr 1
  funext n
  cases n <;> rfl

theorem transitions_settled (μ : Marking) : (settled net μ transition clock).transitions =
    net.transitions.map fun t => if t.id = transition then { t with lastFired := clock } else t := by
  rw [Net.transitions, settled, List.filterMap_map, Net.transitions, List.map_filterMap]
  congr 1
  funext n
  cases n with
  | place p => rfl
  | transition t => simp only [Function.comp_apply, Node.transition?, Option.map_some]

theorem transition_ids_settled (μ : Marking) :
    (settled net μ transition clock).transitions.map Transition.id =
      net.transitions.map Transition.id := by
  rw [transitions_settled, List.map_map]
  refine List.map_congr_left fun t _ => ?_
  rw [Function.comp_apply, apply_ite Transition.id, ite_self]

theorem ids_settled (μ : Marking) : (settled net μ transition clock).ids = net.ids :=
  net.ids_map_nodes fun n => by
    cases n with
    | place p => rfl
    | transition t => simp only [Node.id]; split <;> rfl

theorem tokensAt_settled (μ : Marking) {q : String} (hq : ∃ p, net.place? q = some p) :
    (settled net μ transition clock).tokensAt q = μ q := by
  obtain ⟨p, hp⟩ := hq
  rw [Net.tokensAt, place?_settled transition clock μ hp]
  rfl

/-- The movements of a phase are recorded with the tokens that the copies have in the end. -/
theorem map_transfer_commit (hNet : net.WellFormed) (scratch : Scratch) {arcs : List Arc}
    {moved : List Movement} (hAlong : List.Forall₂ Along arcs moved)
    (hPlaces : ∀ a ∈ arcs, ∃ p, net.place? a.place = some p) :
    moved.map (net.commit scratch transition clock).transfer =
      moved.map (counted (scratch.tokensAt net)) := by
  apply List.map_congr_left
  intro m hm
  obtain ⟨a, ha, hOne⟩ := exists_left_of_forall₂ hAlong hm
  have hPlace : ∃ p, net.place? m.place = some p := hOne.place ▸ hPlaces a ha
  rw [commit_eq_settled transition clock hNet, Net.transfer, counted,
    tokensAt_settled transition clock _ hPlace]

/-- A firing on copies does what the firing in place does. -/
theorem fires_of_fire (ev : Evaluator Id) (hNet : net.WellFormed) :
    match (net.fire ev transition clock).run with
    | .error e => Fires ev net transition clock (.error e)
    | .ok (firing, after) => ∃ t taken made μ, net.transition? transition = some t ∧
        Fires ev net transition clock (.ok (taken, made, μ)) ∧
        firing = record t transition clock taken made μ ∧
        after = settled net μ transition clock := by
  rw [Net.run_fire]
  cases hTransition : net.transition? transition with
  | none => exact .unknown hTransition
  | some t =>
    have hTaken := movesAll_consume ev net transition clock (net.inputsOf transition) []
    cases hConsume : (net.consume ev transition clock (net.inputsOf transition) []).run with
    | error e =>
      rw [hConsume] at hTaken
      exact .failsTaking hTransition hTaken
    | ok pair =>
      obtain ⟨taken, scratch⟩ := pair
      rw [hConsume] at hTaken
      have hInputs : ∀ a ∈ (net.inputsOf transition).map Arc.input,
          ∃ p, net.place? a.place = some p :=
        List.forall_mem_map.mpr fun a ha => hNet.place_of_input ha
      have hOutputs : ∀ a ∈ net.outputsOf transition, ∃ p, net.place? a.place = some p :=
        fun a ha => hNet.place_of_output ha
      have hMade := movesAll_produce ev net transition clock (net.outputsOf transition) scratch
        hOutputs
      dsimp only
      cases hProduce : (net.produce ev transition clock (net.outputsOf transition) scratch).run with
      | error e =>
        rw [hProduce] at hMade
        exact .failsMaking hTransition hTaken hMade
      | ok pair =>
        obtain ⟨made, scratch'⟩ := pair
        rw [hProduce] at hMade
        -- both phases have succeeded, so the copies are given back
        refine ⟨t, taken, made, scratch'.tokensAt net, rfl, .fires hTransition hTaken hMade, ?_,
          commit_eq_settled transition clock hNet scratch'⟩
        rw [record, ← map_transfer_commit transition clock hNet scratch' hTaken.along hInputs,
          ← map_transfer_commit transition clock hNet scratch' hMade.along
            (List.forall_mem_map.mpr hOutputs)]

variable {transition clock}

theorem exists_fires {ev : Evaluator Id} (hNet : net.WellFormed) {firing : Firing} {after : Net}
    (hFire : (net.fire ev transition clock).run = .ok (firing, after)) :
    ∃ t taken made μ, net.transition? transition = some t ∧
      Fires ev net transition clock (.ok (taken, made, μ)) ∧
      firing = record t transition clock taken made μ ∧
      after = settled net μ transition clock := by
  have hOutcome := fires_of_fire transition clock ev hNet
  rwa [hFire] at hOutcome

theorem fires_of_fails {ev : Evaluator Id} (hNet : net.WellFormed) {e : RunError}
    (hFails : (net.fire ev transition clock).run = .error e) :
    Fires ev net transition clock (.error e) := by
  have hOutcome := fires_of_fire transition clock ev hNet
  rwa [hFails] at hOutcome

end Settled

/-! ## Giving the copies back -/

def touched (net : Net) (transition : String) : List String :=
  (net.inputsOf transition).map InputArc.place ++ (net.outputsOf transition).map OutputArc.place

/-- The copies of a firing, in whatever order. -/
def Drains (net : Net) (transition : String) (μ : Marking)
    (copies : List (String × TokenBag)) : Prop :=
  ∀ place tokens, (place, tokens) ∈ copies ↔ place ∈ touched net transition ∧ tokens = μ place

/-- Gives one copy after another to its place, then notes the clock. -/
def giveBack (net : Net) (transition : String) (clock : Time)
    (copies : List (String × TokenBag)) : Net :=
  (copies.foldl (fun net copy => net.updatePlace copy.1 fun p => { p with tokens := copy.2 })
    net).updateTransition transition fun t => { t with lastFired := clock }

theorem Fires.untouched {ev : Evaluator Id} {net : Net} {transition : String} {clock : Time}
    {taken made : List Movement} {μ : Marking}
    (h : Fires ev net transition clock (.ok (taken, made, μ))) {q : String}
    (hq : q ∉ touched net transition) : μ q = net.tokensAt q := by
  cases h with
  | fires _ hTaken hMade =>
    rw [touched, List.mem_append, not_or] at hq
    rw [hMade.frame, hTaken.frame]
    · intro a ha hPlace
      obtain ⟨b, hb, rfl⟩ := List.mem_map.mp ha
      exact hq.1 (hPlace ▸ List.mem_map_of_mem hb)
    · intro a ha hPlace
      obtain ⟨b, hb, rfl⟩ := List.mem_map.mp ha
      exact hq.2 (hPlace ▸ List.mem_map_of_mem hb)

theorem foldl_updatePlace (net : Net) (μ : Marking) (copies : List (String × TokenBag))
    (hCopies : ∀ copy ∈ copies, copy.2 = μ copy.1) :
    copies.foldl (fun net copy => net.updatePlace copy.1 fun p => { p with tokens := copy.2 }) net =
      net.mapPlaces fun p =>
        if p.id ∈ copies.map Prod.fst then { p with tokens := μ p.id } else p := by
  induction copies generalizing net with
  | nil =>
    simp [Net.mapPlaces_self]
  | cons copy rest ih =>
    rw [List.foldl_cons, ih _ fun c hc => hCopies c (List.mem_cons_of_mem _ hc)]
    simp only [Net.updatePlace, Net.mapPlaces, List.map_map]
    congr 1
    apply List.map_congr_left
    intro n _
    cases n with
    | transition t => rfl
    | place p =>
      have hCopy : copy.2 = μ copy.1 := hCopies copy List.mem_cons_self
      by_cases hId : p.id = copy.1
      · by_cases hMem : p.id ∈ rest.map Prod.fst <;> simp_all
      · by_cases hMem : p.id ∈ rest.map Prod.fst <;> simp_all

theorem giveBack_eq_settled {ev : Evaluator Id} {net : Net} (hNet : net.WellFormed)
    {transition : String} {clock : Time} {taken made : List Movement} {μ : Marking}
    (h : Fires ev net transition clock (.ok (taken, made, μ)))
    {copies : List (String × TokenBag)} (hCopies : Drains net transition μ copies) :
    giveBack net transition clock copies = settled net μ transition clock := by
  have hKeys : ∀ q, q ∈ copies.map Prod.fst ↔ q ∈ touched net transition := by
    intro q
    constructor
    · intro hq
      obtain ⟨⟨place, tokens⟩, hMem, rfl⟩ := List.mem_map.mp hq
      exact ((hCopies place tokens).mp hMem).1
    · intro hq
      exact List.mem_map.mpr ⟨(q, μ q), (hCopies q (μ q)).mpr ⟨hq, rfl⟩, rfl⟩
  rw [giveBack, foldl_updatePlace net μ copies fun copy hMem => ((hCopies _ _).mp hMem).2]
  simp only [Net.mapPlaces, Net.updateTransition, Net.mapTransitions, settled, List.map_map, hKeys]
  congr 1
  apply List.map_congr_left
  intro n hn
  cases n with
  | transition t => rfl
  | place p =>
    have hp : p ∈ net.places := List.mem_filterMap.mpr ⟨.place p, hn, rfl⟩
    by_cases hTouched : p.id ∈ touched net transition
    · simp [hTouched]
    · simp [hTouched, h.untouched hTouched, hNet.tokensAt_of_mem hp]

/-- A firing has exactly the outcome of the firing in place: it succeeds with the same tokens and
the same record, or fails with the error of the first arc that fails. Nothing but the tokens of
the transition's places and its clock changes, in whatever order the copies are given back. -/
theorem fire_iff_inPlace (ev : Evaluator Id) {net : Net} (hNet : net.Reachable)
    (transition : String) (clock : Time) :
    (∀ firing after, (net.fire ev transition clock).run = .ok (firing, after) ↔
      ∃ t taken made μ, net.transition? transition = some t ∧
        Fires ev net transition clock (.ok (taken, made, μ)) ∧
        firing = record t transition clock taken made μ ∧
        after = settled net μ transition clock) ∧
    (∀ e, (net.fire ev transition clock).run = .error e ↔
      Fires ev net transition clock (.error e)) ∧
    (∀ taken made μ, Fires ev net transition clock (.ok (taken, made, μ)) →
      (∀ p ∈ net.places, p.id ∉ touched net transition → μ p.id = p.tokens) ∧
      (∀ p ∈ net.places, (settled net μ transition clock).tokensAt p.id = μ p.id) ∧
      ∀ copies, Drains net transition μ copies →
        giveBack net transition clock copies = settled net μ transition clock) := by
  have hWell := hNet.wellFormed
  have hFires := fires_of_fire transition clock ev hWell
  refine ⟨fun firing after => ?_, fun e => ?_, fun taken made μ h => ⟨?_, ?_, ?_⟩⟩
  · constructor
    · intro hRun
      rw [hRun] at hFires
      exact hFires
    · rintro ⟨t, taken, made, μ, hTransition, h, rfl, rfl⟩
      -- the firing on copies has some outcome, and there is only one
      cases hRun : (net.fire ev transition clock).run with
      | error e =>
        rw [hRun] at hFires
        cases hFires.unique h
      | ok pair =>
        rw [hRun] at hFires
        obtain ⟨t', taken', made', μ', hTransition', h', hFiring, hAfter⟩ := hFires
        cases h.unique h'
        cases hTransition.symm.trans hTransition'
        rw [← hFiring, ← hAfter]
  · constructor
    · intro hRun
      rw [hRun] at hFires
      exact hFires
    · intro h
      cases hRun : (net.fire ev transition clock).run with
      | error e' =>
        rw [hRun] at hFires
        cases hFires.unique h
        rfl
      | ok pair =>
        rw [hRun] at hFires
        obtain ⟨t', taken', made', μ', _, h', _, _⟩ := hFires
        cases h.unique h'
  · intro p hp hUntouched
    rw [h.untouched hUntouched, hWell.tokensAt_of_mem hp]
  · intro p hp
    exact tokensAt_settled transition clock μ ⟨p, Net.place?_of_mem hWell.nodup hp⟩
  · intro copies hCopies
    exact giveBack_eq_settled hWell h hCopies

/-- Answers with the number of tokens in scope, one time unit later. -/
def counting : Evaluator Id where
  evaluate _ _ := .ok true
  execute _ context := .ok [⟨.int ((context.tokens.getD []).length), 1, none⟩]

/-- The first arc of the loop takes a token although none has the payload it asks for, the second
the one that it asks for; the token that is too late stays. -/
theorem fire_iff_inPlace_loop :
    Net.loop.Reachable ∧
      ∃ taken made μ, Fires counting Net.loop "t" 5 (.ok (taken, made, μ)) ∧
        (settled Net.loop μ "t" 5).tokensAt "p" = [⟨.int 3, 9, none⟩, ⟨.int 1, 6, none⟩] ∧
        giveBack Net.loop "t" 5 [("p", μ "p")] = settled Net.loop μ "t" 5 := by
  have hFire := fire_iff_inPlace counting Net.loop_reachable "t" 5
  obtain ⟨t, taken, made, μ, _, hFires, _, hAfter⟩ := (hFire.1 _ _).mp rfl
  refine ⟨Net.loop_reachable, taken, made, μ, hFires, ?_, ?_⟩
  · rw [← hAfter]
    rfl
  · apply (hFire.2.2 taken made μ hFires).2.2
    intro place tokens
    have hTouched : touched Net.loop "t" = ["p", "p", "p"] := rfl
    rw [hTouched]
    constructor
    · rintro h
      cases List.mem_singleton.mp h
      exact ⟨by decide, rfl⟩
    · rintro ⟨hPlace, rfl⟩
      obtain rfl : place = "p" := by simpa using hPlace
      exact List.mem_singleton_self _

end InPlace
end Petri
