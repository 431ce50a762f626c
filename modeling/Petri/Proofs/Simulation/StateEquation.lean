import Petri.Proofs.Net.Ordinary
import Petri.Proofs.Simulation.EventStream

/-! # The state equation

Where every inscription is the default one, a firing takes one token along each input arc and makes
one along each output arc. So whatever is called, a place holds in the end what it held at first and,
for each firing, as many more as the transition has arcs to it than from it. A weighting of the places
that every transition balances has the same sum all along.
-/
namespace Petri
set_option autoImplicit false

/-! ## Transitions that have fired -/

def Event.firedTransition? : Event → Option String
  | .fired _ _ transition _ => some transition
  | _ => none

/-- These transitions have fired, one after another. -/
inductive Net.FiresInTurn (ev : Evaluator Id) (net : Net) : List String → Net → Prop where
  | nothing : FiresInTurn ev net [] net
  | fired {names : List String} {now after : Net} {transition : String} {clock : Time}
      {firing : Firing} (h : FiresInTurn ev net names now)
      (hFire : (now.fire ev transition clock).run = .ok (firing, after)) :
      FiresInTurn ev net (names ++ [transition]) after

theorem Net.FiresInTurn.trans {ev : Evaluator Id} {net middle after : Net}
    {names names' : List String} (h : net.FiresInTurn ev names middle)
    (h' : middle.FiresInTurn ev names' after) : net.FiresInTurn ev (names ++ names') after := by
  induction h' with
  | nothing => rwa [List.append_nil]
  | fired _ hFire ih =>
    rw [← List.append_assoc]
    exact .fired ih hFire

theorem firedTransitions_ofFiring (number : Nat) (f : Firing) :
    (Event.ofFiring number f).filterMap Event.firedTransition? = [f.transition] := by
  simp [Event.ofFiring, Event.firedTransition?, Function.comp_def]

theorem Quiet.firedTransitions {first last : Standing} {told : List Event}
    (h : Quiet first told last) : told.filterMap Event.firedTransition? = [] := by
  cases h with
  | still => rfl
  | moved => rfl

namespace Simulation
variable {ev : Evaluator Id} {s s' : Simulation}

/-- The events reported on the way say which transitions have fired. -/
def Records (ev : Evaluator Id) (s s' : Simulation) : Prop :=
  ∃ told, s'.events = s.events ++ told ∧
    s.net.FiresInTurn ev (told.filterMap Event.firedTransition?) s'.net

theorem Records.refl (s : Simulation) : Records ev s s :=
  ⟨[], (List.append_nil _).symm, .nothing⟩

theorem Records.trans {s'' : Simulation} (h : Records ev s s') (h' : Records ev s' s'') :
    Records ev s s'' := by
  obtain ⟨told, hEvents, hFires⟩ := h
  obtain ⟨told', hEvents', hFires'⟩ := h'
  refine ⟨told ++ told', ?_, ?_⟩
  · rw [hEvents', hEvents, List.append_assoc]
  · rw [List.filterMap_append]
    exact hFires.trans hFires'

theorem records_finished (s : Simulation) (outcome : Outcome) :
    Records ev s (s.report [.finished s.clock s.firings outcome]) :=
  ⟨_, events_report _ _, .nothing⟩

theorem records_of_isFinished {answer : Except RunError Bool}
    (h : s.isFinished ev = (answer, s')) : Records ev s s' := by
  obtain ⟨told, hEvents, hQuiet⟩ := quiet_of_isFinished h
  refine ⟨told, hEvents, ?_⟩
  rw [hQuiet.firedTransitions, net_of_isFinished h]
  exact .nothing

theorem records_of_fireRandom {answer : Except RunError (Option Firing)}
    (h : s.fireRandom ev = (answer, s')) : Records ev s s' := by
  cases firesRandom_of_eq h with
  | fails | nothing => exact .refl s
  | refused => exact ⟨[], (List.append_nil _).symm, .nothing⟩
  | fired _ _ hFire =>
    refine ⟨_, events_report _ _, ?_⟩
    rw [firedTransitions_ofFiring, (Net.transition_of_fire hFire).1]
    exact .fired .nothing hFire

theorem records_of_step {answer : Except RunError (Option Firing)}
    (h : s.step ev = (answer, s')) : Records ev s s' := by
  rcases step_cases h with ⟨_, hCheck, _⟩ | ⟨hCheck, _⟩ | ⟨checked, hCheck, hFire⟩
  · exact records_of_isFinished hCheck
  · exact records_of_isFinished hCheck
  · exact (records_of_isFinished hCheck).trans (records_of_fireRandom hFire)

theorem records_of_goes {react : Reaction} {r after : Run} (h : Run.Goes react ev r after) :
    Records ev r.simulation after.simulation := by
  cases h with
  | begins | enters | pauses | parks | resumes => exact .refl _
  | halts | limited | leaves => exact records_finished _ _
  | checkFails _ _ hCheck | lives _ _ hCheck => exact records_of_isFinished hCheck
  | dies _ _ hCheck => exact (records_of_isFinished hCheck).trans (records_finished _ _)
  | fireFails _ hFire | fires _ hFire => exact records_of_fireRandom hFire

theorem records_of_drives {react : Reaction} {r after : Run} {n : Nat}
    (h : Run.Drives react ev r n after) : Records ev r.simulation after.simulation := by
  induction h with
  | start => exact .refl _
  | next _ hGoes ih => exact ih.trans (records_of_goes (Run.goes react ev hGoes))
  | command _ _ ih => exact ih

theorem Called.records (h : s.Called ev s') : Records ev s s' := by
  cases h with
  | randomTransition =>
    rw [Simulation.randomTransition]
    split <;> exact ⟨[], (List.append_nil _).symm, .nothing⟩
  | advanceClock =>
    rw [Simulation.advanceClock]
    split
    · exact .refl s
    · exact ⟨_, events_report _ _, .nothing⟩
  | isFinished => exact records_of_isFinished rfl
  | fireRandom => exact records_of_fireRandom rfl
  | step => exact records_of_step rfl
  | run hRun => exact records_of_drives hRun

end Simulation

namespace Net

/-- Calls on a net and of drivers that have it, failing ones included, and the transitions that they
have fired. What a driver has fired is read off its events. -/
inductive Evolves (net : Net) : List String → Net → Prop where
  | start : Evolves net [] net
  | fire {names : List String} {now after : Net} {transition : String} {clock : Time}
      {firing : Firing} (h : Evolves net names now)
      (hFire : (now.fire Petri.interpreter transition clock).run = .ok (firing, after)) :
      Evolves net (names ++ [transition]) after
  | fireFails {names : List String} {now : Net} {transition : String} {clock : Time} {e : RunError}
      (h : Evolves net names now)
      (hFire : (now.fire Petri.interpreter transition clock).run = .error e) :
      Evolves net names now
  | driver {names : List String} {s s' : Simulation} {told : List Event}
      (h : Evolves net names s.net) (hCall : s.Called Petri.interpreter s')
      (hTold : s'.events = s.events ++ told) :
      Evolves net (names ++ told.filterMap Event.firedTransition?) s'.net

theorem Evolves.firesInTurn {net after : Net} {names : List String} (h : net.Evolves names after) :
    net.FiresInTurn Petri.interpreter names after := by
  induction h with
  | start => exact .nothing
  | fire _ hFire ih => exact .fired ih hFire
  | fireFails _ _ ih => exact ih
  | driver _ hCall hTold ih =>
    obtain ⟨told, hEvents, hFires⟩ := hCall.records
    obtain rfl := List.append_cancel_left (hTold.symm.trans hEvents)
    exact ih.trans hFires

end Net

/-! ## Counting tokens -/

namespace InPlace
variable {net : Net} {transition : String} {clock : Time}

theorem Moves.length_tokens {a : Arc} {μ μ' : Marking} {m : Movement}
    (hText : a.execute = defaultExecute)
    (h : Moves Petri.interpreter net transition clock a μ (.ok (m, μ'))) : m.tokens.length = 1 := by
  have hExecute (context : Context) :
      Petri.interpreter.execute a.execute context = .ok [{ value := .int 1 }] :=
    hText ▸ Interpreter.execute_defaultExecute context
  cases h with
  | take hRequest hTaken =>
    cases (hExecute _).symm.trans hRequest
    exact TokenBag.length_of_withdraw hTaken
  | make hMade hFresh =>
    cases (hExecute _).symm.trans hMade
    cases hFresh
    rfl

theorem MovesAll.length_carried {arcs : List Arc} {μ μ' : Marking} {moved : List Movement}
    (hTexts : ∀ a ∈ arcs, a.execute = defaultExecute)
    (h : MovesAll Petri.interpreter net transition clock arcs μ (.ok (moved, μ'))) (q : String) :
    (carried q moved).length = arcs.countP fun a => a.place == q := by
  induction arcs generalizing μ moved with
  | nil =>
    cases h
    rfl
  | cons a rest ih =>
    rw [List.forall_mem_cons] at hTexts
    cases h with
    | move hOne hOthers =>
      have hLater := ih hTexts.2 hOthers
      rw [carried_cons, hOne.along.place, List.countP_cons]
      by_cases hPlace : a.place = q
      · simp [hPlace, hLater, hOne.length_tokens hTexts.1, Nat.add_comm]
      · simp [hPlace, hLater]

end InPlace

namespace Net
open InPlace
variable {net after : Net}

/-- Each arc takes one token or makes one. -/
def Unitary (net : Net) : Prop := ∀ a ∈ net.arcs, a.execute = defaultExecute

instance (net : Net) : Decidable net.Unitary :=
  inferInstanceAs (Decidable (∀ a ∈ net.arcs, _))

/-- How many more arcs the transition has to the place than from it. -/
def effect (net : Net) (place transition : String) : Int :=
  ((net.outputsOf transition).countP fun a => a.place == place : Nat) -
    ((net.inputsOf transition).countP fun a => a.place == place : Nat)

/-- Every place holds so many tokens more. Only tokens and clocks have changed. -/
structure Gains (net : Net) (gain : String → Int) (after : Net) : Prop where
  arcs : after.arcs = net.arcs
  transitions : after.transitions.map Transition.id = net.transitions.map Transition.id
  places : ∃ μ : Marking, after.places = net.places.map (fun p => { p with tokens := μ p.id }) ∧
    ∀ p ∈ net.places, ((μ p.id).length : Int) = p.tokens.length + gain p.id

theorem Gains.refl (hNet : net.WellFormed) : net.Gains (fun _ => 0) net where
  arcs := rfl
  transitions := rfl
  places := by
    have hTokens : ∀ p ∈ net.places, net.tokensAt p.id = p.tokens :=
      fun p hp => hNet.tokensAt_of_mem hp
    refine ⟨net.tokensAt, ?_, ?_⟩
    · refine (List.map_id' net.places).symm.trans (List.map_congr_left ?_)
      intro p hp
      rw [hTokens p hp]
    · intro p hp
      rw [hTokens p hp, Int.add_zero]

theorem Gains.trans {final : Net} {gain gain' : String → Int} (h : net.Gains gain after)
    (h' : after.Gains gain' final) : net.Gains (fun place => gain place + gain' place) final where
  arcs := h'.arcs.trans h.arcs
  transitions := h'.transitions.trans h.transitions
  places := by
    obtain ⟨μ, hPlaces, hCounts⟩ := h.places
    obtain ⟨μ', hPlaces', hCounts'⟩ := h'.places
    rw [hPlaces] at hPlaces' hCounts'
    refine ⟨μ', ?_, ?_⟩
    · rw [hPlaces', List.map_map]
      rfl
    · intro p hp
      have hFirst := hCounts p hp
      have hThen := hCounts' _ (List.mem_map_of_mem hp)
      dsimp only at hThen
      omega

theorem Gains.effect_eq {gain : String → Int} (h : net.Gains gain after) :
    after.effect = net.effect := by
  funext place transition
  simp only [effect, inputsOf, outputsOf, h.arcs]

theorem gains_of_fire (hNet : net.WellFormed) (hUnitary : net.Unitary) {transition : String}
    {clock : Time} {firing : Firing}
    (h : (net.fire Petri.interpreter transition clock).run = .ok (firing, after)) :
    net.Gains (fun place => net.effect place transition) after ∧
      transition ∈ net.transitions.map Transition.id := by
  obtain ⟨t, taken, made, μ, hTransition, hFires, _, rfl⟩ := exists_fires hNet h
  have hInputs : ∀ a ∈ (net.inputsOf transition).map Arc.input, a.execute = defaultExecute :=
    List.forall_mem_map.mpr fun a ha =>
      hUnitary _ (mem_arcs_of_input (mem_inputArcs_of_inputsOf ha))
  have hOutputs : ∀ a ∈ (net.outputsOf transition).map Arc.output, a.execute = defaultExecute :=
    List.forall_mem_map.mpr fun a ha =>
      hUnitary _ (mem_arcs_of_output (mem_outputArcs_of_outputsOf ha))
  constructor
  · refine ⟨rfl, transition_ids_settled transition clock μ, μ, places_settled transition clock μ,
      fun p hp => ?_⟩
    cases hFires with
    | fires _ hTaken hMade =>
      have hLeft := (hTaken.taken p.id).2.1.length_eq
      rw [List.length_append, hTaken.length_carried hInputs, List.countP_map,
        hNet.tokensAt_of_mem hp] at hLeft
      rw [(hMade.made p.id).1, List.length_append, hMade.length_carried hOutputs,
        List.countP_map, effect, hLeft]
      simp only [Function.comp_def, Arc.place]
      omega
  · obtain ⟨ht, rfl⟩ := mem_of_transition? hTransition
    exact List.mem_map_of_mem ht

theorem FiresInTurn.gains {names : List String} (hNet : net.Reachable) (hUnitary : net.Unitary)
    (h : net.FiresInTurn Petri.interpreter names after) :
    after.Reachable ∧ net.Gains (fun place => (names.map (net.effect place)).sum) after ∧
      ∀ name ∈ names, name ∈ net.transitions.map Transition.id := by
  induction h with
  | nothing => exact ⟨hNet, .refl hNet.wellFormed, List.forall_mem_nil _⟩
  | @fired names now after transition clock firing _ hFire ih =>
    obtain ⟨hNow, hGains, hNames⟩ := ih
    have hUnitary' : now.Unitary := by
      intro a ha
      rw [hGains.arcs] at ha
      exact hUnitary a ha
    obtain ⟨hOne, hName⟩ := gains_of_fire hNow.wellFormed hUnitary' hFire
    refine ⟨hNow.change (.fire _ _ _ hFire), ?_, ?_⟩
    · have hBoth := hGains.trans hOne
      rw [hGains.effect_eq] at hBoth
      simpa only [List.map_append, List.map_cons, List.map_nil, List.sum_append, List.sum_cons,
        List.sum_nil, Int.add_zero] using hBoth
    · rw [hGains.transitions] at hName
      exact List.forall_mem_append.mpr ⟨hNames, List.forall_mem_singleton.mpr hName⟩

/-! ## Weightings of places -/

/-- The number of tokens, each counted by the weight of its place. -/
def weighted (net : Net) (weight : String → Int) : Int :=
  (net.places.map fun p => weight p.id * p.tokens.length).sum

/-- No transition changes the weighted number of tokens. -/
def Balanced (net : Net) (weight : String → Int) : Prop :=
  ∀ t ∈ net.transitions, (net.places.map fun p => weight p.id * net.effect p.id t.id).sum = 0

instance (net : Net) (weight : String → Int) : Decidable (net.Balanced weight) :=
  inferInstanceAs (Decidable (∀ t ∈ net.transitions, _))

theorem Gains.weighted_eq {gain : String → Int} (h : net.Gains gain after)
    (weight : String → Int) :
    after.weighted weight =
      net.weighted weight + (net.places.map fun p => weight p.id * gain p.id).sum := by
  obtain ⟨μ, hPlaces, hCounts⟩ := h.places
  rw [weighted, weighted, hPlaces, List.map_map, ← List.sum_map_add]
  refine congrArg List.sum (List.map_congr_left ?_)
  intro p hp
  rw [Function.comp_apply, ← mul_add, ← hCounts p hp]

theorem Balanced.sum_effects {weight : String → Int} (h : net.Balanced weight)
    {names : List String} (hNames : ∀ name ∈ names, name ∈ net.transitions.map Transition.id) :
    (net.places.map fun p => weight p.id * (names.map (net.effect p.id)).sum).sum = 0 := by
  induction names with
  | nil => simp
  | cons name rest ih =>
    rw [List.forall_mem_cons] at hNames
    obtain ⟨t, ht, rfl⟩ := List.mem_map.mp hNames.1
    simp only [List.map_cons, List.sum_cons, mul_add, List.sum_map_add]
    rw [h t ht, ih hNames.2, Int.add_zero]

/-- In a net whose arcs carry one token each, the number of tokens at every place follows from how
often which transition has fired, whatever calls there were. A weighting that every transition
balances has the same sum in every net that calls lead to. -/
theorem state_equation (hNet : net.Reachable) (hUnitary : net.Unitary) {names : List String}
    (hCalls : net.Evolves names after) :
    net.Gains (fun place => (names.map (net.effect place)).sum) after ∧
      ∀ weight, net.Balanced weight → after.weighted weight = net.weighted weight := by
  obtain ⟨_, hGains, hNames⟩ := hCalls.firesInTurn.gains hNet hUnitary
  refine ⟨hGains, ?_⟩
  intro weight hBalanced
  rw [hGains.weighted_eq, hBalanced.sum_effects hNames, Int.add_zero]

/-- The loop without a bound, with one more arc that fills a second place. -/
def cellar : Net where
  id := "cellar"
  nodes := [.place { loopPlace with capacity := 0 }, .place { id := "q" }, .transition { id := "t" }]
  arcs := loop.arcs ++ [.output { id := "u", transition := "t", place := "q" }]

theorem cellar_reachable : cellar.Reachable := by
  have hFirst := (Reachable.empty "cellar").change
    (.addPlace { loopPlace with capacity := 0 } (addPlace_eq_ok_iff.mpr ⟨by decide, rfl⟩))
  have hSecond := hFirst.change
    (.addPlace { id := "q" } (addPlace_eq_ok_iff.mpr ⟨by decide, rfl⟩))
  have hTransition := hSecond.change
    (.addTransition { id := "t" } (addTransition_eq_ok_iff.mpr ⟨by decide, rfl⟩))
  have hTake := hTransition.change
    (.addInput (loopInput "i") (addInput_eq_ok_iff.mpr ⟨by decide, ⟨_, rfl⟩, ⟨_, rfl⟩, rfl⟩))
  have hTakeToo := hTake.change
    (.addInput (loopInput "j") (addInput_eq_ok_iff.mpr ⟨by decide, ⟨_, rfl⟩, ⟨_, rfl⟩, rfl⟩))
  have hBack := hTakeToo.change (.addOutput { id := "o", transition := "t", place := "p" }
    (addOutput_eq_ok_iff.mpr ⟨by decide, ⟨_, rfl⟩, ⟨_, rfl⟩, rfl⟩))
  exact hBack.change (.addOutput { id := "u", transition := "t", place := "q" }
    (addOutput_eq_ok_iff.mpr ⟨by decide, ⟨_, rfl⟩, ⟨_, rfl⟩, rfl⟩))

def cellarStart : Simulation :=
  { Simulation.start cellar { mode := .timed } 7 with clock := 5 }

/-- After a call that fails, a driver fires once and the transition is fired once more. -/
theorem state_equation_cellar :
    cellar.Reachable ∧ cellar.Unitary ∧ cellar.Balanced (fun _ => 1) ∧
      cellar.effect "p" "t" = -1 ∧ cellar.effect "q" "t" = 1 ∧
      ∃ after, cellar.Evolves ["t", "t"] after ∧
        cellar.Gains (fun place => (["t", "t"].map (cellar.effect place)).sum) after ∧
        after.weighted (fun _ => 1) = 3 := by
  have hUnitary : cellar.Unitary := by decide
  have hBalanced : cellar.Balanced (fun _ => 1) := by decide
  have hFails : (cellar.fire Petri.interpreter "u" 5).run = .error (.unknownTransition "u") := rfl
  have hRefused : cellar.Evolves [] cellar := .fireFails .start hFails
  have hTold : (cellarStart.step Petri.interpreter).2.events.filterMap
      Event.firedTransition? = ["t"] := by cbv
  have hDriver : cellar.Evolves ([] ++ (cellarStart.step Petri.interpreter).2.events.filterMap
      Event.firedTransition?) (cellarStart.step Petri.interpreter).2.net :=
    .driver (s := cellarStart) hRefused (.step cellarStart) (List.nil_append _).symm
  rw [hTold, List.nil_append] at hDriver
  obtain ⟨firing, after, hFire⟩ : ∃ firing after,
      ((cellarStart.step Petri.interpreter).2.net.fire Petri.interpreter "t" 9).run =
        .ok (firing, after) :=
    ⟨_, _, by cbv⟩
  have hCalls : cellar.Evolves ["t", "t"] after := .fire hDriver hFire
  obtain ⟨hGains, hWeighted⟩ := state_equation cellar_reachable hUnitary hCalls
  exact ⟨cellar_reachable, hUnitary, hBalanced, by decide, by decide, after, hCalls, hGains,
    hWeighted _ hBalanced⟩

end Net
end Petri
