import Petri.Proofs.Simulation.EventStream

/-! # Accounts

The events are a full account of a net. What they report as taken and made gives the number of tokens
at every place, the last firing that they report of a transition gives its clock, and the number that
is noted beside a movement is the one that the place has once the whole firing is over.
-/
namespace Petri
set_option autoImplicit false

namespace Event

def number? : Event → Option Nat
  | .consumed number .. | .fired number .. | .produced number .. => some number
  | .clockAdvanced .. | .finished .. => none

def consumed? : Event → Option TransferReport
  | .consumed _ _ _ transfer => some transfer
  | _ => none

def produced? : Event → Option TransferReport
  | .produced _ _ _ transfer => some transfer
  | _ => none

/-- The clock, if the event says that this transition has fired. -/
def firingOf? (transition : String) : Event → Option Time
  | .fired _ clock t _ => if t = transition then some clock else none
  | _ => none

end Event

/-- How many tokens are reported at a place. -/
def tokensIn (place : String) (reports : List TransferReport) : Nat :=
  ((reports.filter fun x => x.place == place).map fun x => x.tokens.length).sum

def lastFiring? (log : List Event) (transition : String) : Option Time :=
  (log.filterMap (Event.firingOf? transition)).getLast?

/-- A log accounts for what has become of the tokens and the clocks of a net. -/
structure Net.Balances (net : Net) (log : List Event) (after : Net) : Prop where
  ids : after.ids = net.ids
  places : ∀ p ∈ net.places, ∃ tokens, after.place? p.id = some { p with tokens := tokens } ∧
    tokens.length + tokensIn p.id (log.filterMap Event.consumed?) =
      p.tokens.length + tokensIn p.id (log.filterMap Event.produced?)
  transitions : ∀ t ∈ net.transitions,
    after.transition? t.id = some { t with lastFired := (lastFiring? log t.id).getD t.lastFired }

/-! ## Reading logs -/

theorem tokensIn_append (place : String) (reports reports' : List TransferReport) :
    tokensIn place (reports ++ reports') = tokensIn place reports + tokensIn place reports' := by
  simp [tokensIn]

theorem tokensIn_report (place : String) (xs : List Transfer) :
    tokensIn place (xs.map Transfer.report) =
      (carried place (xs.map Transfer.toMovement)).length := by
  simp [tokensIn, carried, List.filter_map, List.length_flatMap, Function.comp_def,
    Transfer.report]

theorem lastFiring?_append (log log' : List Event) (transition : String) :
    lastFiring? (log ++ log') transition =
      (lastFiring? log' transition).or (lastFiring? log transition) := by
  simp [lastFiring?, List.getLast?_append]

namespace Block
variable {net : Net} {number : Nat} {f : Firing} {events : List Event}
  (h : Block net number f events)
include h

theorem consumed_eq : events.filterMap Event.consumed? = f.consumed.map Transfer.report := by
  rw [h.events_eq]
  simp [List.filterMap_cons, Event.consumed?, Function.comp_def]

theorem produced_eq : events.filterMap Event.produced? = f.produced.map Transfer.report := by
  rw [h.events_eq]
  simp [List.filterMap_cons, Event.produced?, Function.comp_def]

theorem lastFiring?_eq (transition : String) :
    lastFiring? events transition = if f.transition = transition then some f.clock else none := by
  rw [lastFiring?, h.events_eq]
  by_cases hFired : f.transition = transition <;>
    simp [Event.firingOf?, Function.comp_def, hFired]

theorem number_eq {e : Event} (he : e ∈ events) : e.number? = some number := by
  rw [h.events_eq, List.mem_append, List.mem_cons] at he
  rcases he with he | rfl | he
  · obtain ⟨x, _, rfl⟩ := List.mem_map.mp he
    rfl
  · rfl
  · obtain ⟨x, _, rfl⟩ := List.mem_map.mp he
    rfl

end Block

theorem Protocol.numbers {mode : TimeMode} {first last : Standing} {log : List Event}
    (h : Protocol mode first log last) :
    first.firings ≤ last.firings ∧
      ∀ e ∈ log, ∀ n, e.number? = some n → first.firings < n ∧ n ≤ last.firings := by
  induction h with
  | nothing => exact ⟨le_rfl, List.forall_mem_nil _⟩
  | advanced _ _ ih | finished _ _ ih =>
    refine ⟨ih.1, List.forall_mem_append.mpr ⟨ih.2, List.forall_mem_singleton.mpr ?_⟩⟩
    intro n hn
    cases hn
  | fired _ hFires ih =>
    obtain ⟨hMono, hNumbers⟩ := ih
    have hCount := hFires.firings
    refine ⟨by omega, List.forall_mem_append.mpr ⟨fun e he n hn => ?_, fun e he n hn => ?_⟩⟩
    · have hEarlier := hNumbers e he n hn
      omega
    · rw [hFires.block.number_eq he] at hn
      cases hn
      omega

/-! ## Balances -/

namespace Net
open InPlace

theorem Balances.refl {net : Net} (hNet : net.WellFormed) : net.Balances [] net where
  ids := rfl
  places p hp := ⟨p.tokens, place?_of_mem hNet.nodup hp, rfl⟩
  transitions _ ht := transition?_of_mem hNet.nodup ht

theorem Balances.trans {net middle after : Net} {log log' : List Event}
    (h : net.Balances log middle) (h' : middle.Balances log' after) :
    net.Balances (log ++ log') after where
  ids := h'.ids.trans h.ids
  places p hp := by
    obtain ⟨tokens, hPlace, hCount⟩ := h.places p hp
    obtain ⟨tokens', hPlace', hCount'⟩ := h'.places _ (mem_of_place? hPlace).1
    refine ⟨tokens', hPlace', ?_⟩
    simp only [List.filterMap_append, tokensIn_append]
    dsimp only at hCount'
    omega
  transitions t ht := by
    have hMiddle := h.transitions t ht
    rw [h'.transitions _ (mem_of_transition? hMiddle).1, lastFiring?_append]
    cases lastFiring? log' t.id <;> rfl

/-- What is not numbered is no firing, and nothing is counted for it. -/
theorem Balances.concat {net after : Net} {log : List Event} (h : net.Balances log after) {e : Event}
    (hUnnumbered : e.number? = none) : net.Balances (log ++ [e]) after where
  ids := h.ids
  places p hp := by
    obtain ⟨tokens, hPlace, hCount⟩ := h.places p hp
    refine ⟨tokens, hPlace, ?_⟩
    rw [List.filterMap_append, List.filterMap_append, tokensIn_append, tokensIn_append]
    cases e with
    | clockAdvanced | finished => exact hCount
    | consumed | fired | produced => cases hUnnumbered
  transitions t ht := by
    rw [h.transitions t ht, lastFiring?_append]
    cases e with
    | clockAdvanced | finished => rfl
    | consumed | fired | produced => cases hUnnumbered

theorem balances_of_fires {mode : TimeMode} {now after : Standing} {f : Firing}
    {events : List Event} (hNet : now.net.WellFormed) (h : now.Fires mode f events after) :
    now.net.Balances events after.net := by
  obtain ⟨ev, hFire⟩ := h.fire
  obtain ⟨t, taken, made, μ, _, hFires, hRecord, hAfter⟩ := exists_fires hNet hFire
  rw [hAfter]
  refine ⟨?_, ?_, ?_⟩
  · exact ids_settled _ _ μ
  · intro p hp
    refine ⟨μ p.id, place?_settled _ _ μ (place?_of_mem hNet.nodup hp), ?_⟩
    rw [h.block.consumed_eq, h.block.produced_eq, tokensIn_report, tokensIn_report, hRecord]
    simp only [record, map_toMovement_counted]
    cases hFires with
    | @fires _ _ _ μ₀ _ _ hTaken hMade =>
      have hLeft := (hTaken.taken p.id).2.1.length_eq
      rw [hNet.tokensAt_of_mem hp, List.length_append] at hLeft
      rw [(hMade.made p.id).1, List.length_append]
      omega
  · intro u hu
    rw [transition?_settled, transition?_of_mem hNet.nodup hu, h.block.lastFiring?_eq]
    by_cases hFired : f.transition = u.id
    · simp [hFired]
    · simp [hFired, Ne.symm hFired]

end Net

theorem Protocol.balances {mode : TimeMode} {first last : Standing} {log : List Event}
    (h : Protocol mode first log last) (hNet : first.net.Reachable) :
    first.net.Balances log last.net := by
  induction h with
  | nothing => exact .refl hNet.wellFormed
  | advanced _ _ ih | finished _ _ ih => exact ih.concat rfl
  | fired h hFires ih => exact ih.trans (Net.balances_of_fires (h.reachable hNet).wellFormed hFires)

/-! ## Markings -/

/-- The marking that is noted for each movement is what its place holds in this net. -/
def MarkedIn (net : Net) (events : List Event) : Prop :=
  ∀ e ∈ events, ∀ x, e.consumed? = some x ∨ e.produced? = some x →
    ∃ p, net.place? x.place = some p ∧ x.marking = p.tokens.length

theorem InPlace.marked_of_along {net : Net} {transition : String} {clock : Time} {μ : Marking}
    {arcs : List Arc} {moved : List Movement} (hAlong : List.Forall₂ Along arcs moved)
    (hPlaces : ∀ a ∈ arcs, ∃ p, net.place? a.place = some p) {x : TransferReport}
    (hx : x ∈ (moved.map (counted μ)).map Transfer.report) :
    ∃ p, (settled net μ transition clock).place? x.place = some p ∧
      x.marking = p.tokens.length := by
  rw [List.map_map] at hx
  obtain ⟨m, hm, rfl⟩ := List.mem_map.mp hx
  obtain ⟨a, ha, hOne⟩ := exists_left_of_forall₂ hAlong hm
  obtain ⟨p, hp⟩ := hPlaces a ha
  rw [← hOne.place] at hp
  exact ⟨_, place?_settled transition clock μ hp, rfl⟩

theorem markedIn_of_fires {mode : TimeMode} {now after : Standing} {f : Firing}
    {events : List Event} (hNet : now.net.WellFormed) (h : now.Fires mode f events after) :
    MarkedIn after.net events := by
  obtain ⟨ev, hFire⟩ := h.fire
  obtain ⟨t, taken, made, μ, _, hFires, hRecord, hAfter⟩ := InPlace.exists_fires hNet hFire
  intro e he x hx
  cases hFires with
  | fires _ hTaken hMade =>
    rw [hAfter]
    rcases hx with hx | hx
    · have hConsumed := List.mem_filterMap.mpr ⟨e, he, hx⟩
      rw [h.block.consumed_eq, hRecord] at hConsumed
      exact InPlace.marked_of_along hTaken.along
        (List.forall_mem_map.mpr fun _ ha => hNet.place_of_input ha) hConsumed
    · have hProduced := List.mem_filterMap.mpr ⟨e, he, hx⟩
      rw [h.block.produced_eq, hRecord] at hProduced
      exact InPlace.marked_of_along hMade.along
        (List.forall_mem_map.mpr fun _ ha => hNet.place_of_output ha) hProduced

/-- The events of a log that belong to one firing. -/
def eventsOf (number : Nat) (log : List Event) : List Event :=
  log.filter fun e => e.number? == some number

theorem mem_eventsOf {number : Nat} {log : List Event} {e : Event} :
    e ∈ eventsOf number log ↔ e ∈ log ∧ e.number? = some number := by
  rw [eventsOf, List.mem_filter, beq_iff_eq]

theorem eventsOf_append (number : Nat) (log log' : List Event) :
    eventsOf number (log ++ log') = eventsOf number log ++ eventsOf number log' :=
  List.filter_append ..

theorem eventsOf_eq_nil {number : Nat} {log : List Event}
    (h : ∀ e ∈ log, e.number? ≠ some number) : eventsOf number log = [] :=
  List.filter_eq_nil_iff.mpr fun e he hOf => h e he (beq_iff_eq.mp hOf)

theorem eventsOf_concat (number : Nat) (log : List Event) {e : Event} (h : e.number? = none) :
    eventsOf number (log ++ [e]) = eventsOf number log := by
  have hNone : eventsOf number [e] = [] :=
    eventsOf_eq_nil (List.forall_mem_singleton.mpr fun hOf => nomatch h.symm.trans hOf)
  rw [eventsOf_append, hNone, List.append_nil]

theorem Block.eventsOf_eq {net : Net} {number : Nat} {f : Firing} {events : List Event}
    (h : Block net number f events) : eventsOf number events = events :=
  List.filter_eq_self.mpr fun _ he => beq_iff_eq.mpr (h.number_eq he)

/-- A log, cut right after one of its firings. -/
inductive Protocol.Cut (mode : TimeMode) (first : Standing) (number : Nat) :
    List Event → List Event → Standing → Prop where
  | cut {told events rest : List Event} {now after : Standing} {f : Firing}
      (h : Protocol mode first told now) (hFires : now.Fires mode f events after)
      (hNumber : after.firings = number)
      (hRest : ∀ e ∈ rest, ∀ n, e.number? = some n → number < n) :
      Protocol.Cut mode first number (told ++ events) rest after

namespace Protocol
variable {mode : TimeMode} {first last : Standing} {log : List Event}

theorem Cut.append {number : Nat} {before rest rest' : List Event} {now : Standing}
    (h : Cut mode first number before rest now)
    (hRest : ∀ e ∈ rest', ∀ n, e.number? = some n → number < n) :
    Cut mode first number before (rest ++ rest') now := by
  cases h with
  | cut hTold hFires hNumber hFirst =>
    exact .cut hTold hFires hNumber (List.forall_mem_append.mpr ⟨hFirst, hRest⟩)

theorem Cut.protocol {number : Nat} {before rest : List Event} {now : Standing}
    (h : Cut mode first number before rest now) : Protocol mode first before now := by
  cases h with
  | cut hTold hFires => exact .fired hTold hFires

theorem later_of_unnumbered {e : Event} (hUnnumbered : e.number? = none) (number : Nat) :
    ∀ e' ∈ [e], ∀ n, e'.number? = some n → number < n :=
  List.forall_mem_singleton.mpr fun n hn => by
    rw [hUnnumbered] at hn
    cases hn

/-- A log can be cut right after each of its firings, and what it has noted for the firing is what
the net holds there. -/
theorem cuts (h : Protocol mode first log last) (hNet : first.net.Reachable) {number : Nat}
    (hFirst : first.firings < number) (hLast : number ≤ last.firings) :
    ∃ before rest now, log = before ++ rest ∧ Cut mode first number before rest now ∧
      MarkedIn now.net (eventsOf number log) := by
  induction h with
  | nothing => omega
  | @advanced told now next hTold _ ih | @finished told now hTold _ ih =>
    obtain ⟨before, rest, cut, rfl, hCut, hMarked⟩ := ih hLast
    refine ⟨before, _, cut, List.append_assoc _ _ _, hCut.append (later_of_unnumbered rfl number), ?_⟩
    rwa [eventsOf_concat _ _ rfl]
  | @fired told events now after f hTold hFires ih =>
    rcases Nat.lt_or_ge now.firings number with hLater | hEarlier
    · -- the firing is this one, and none of the events before it is numbered so
      have hNumber : after.firings = number := by
        have hCount := hFires.firings
        omega
      refine ⟨_, [], after, (List.append_nil _).symm,
        .cut hTold hFires hNumber (List.forall_mem_nil _), ?_⟩
      have hMarked := markedIn_of_fires (hTold.reachable hNet).wellFormed hFires
      intro e he
      obtain ⟨he, hOf⟩ := mem_eventsOf.mp he
      rcases List.mem_append.mp he with he | he
      · have hBefore := hTold.numbers.2 e he number hOf
        omega
      · exact hMarked e he
    · obtain ⟨before, rest, cut, rfl, hCut, hMarked⟩ := ih hEarlier
      have hNumbers : ∀ e ∈ events, e.number? = some (now.firings + 1) :=
        fun e he => hFires.block.number_eq he
      refine ⟨before, _, cut, List.append_assoc _ _ _, hCut.append fun e he n hn => ?_, ?_⟩
      · cases (hNumbers e he).symm.trans hn
        omega
      · intro e he
        obtain ⟨he, hOf⟩ := mem_eventsOf.mp he
        rcases List.mem_append.mp he with he | he
        · exact hMarked e (mem_eventsOf.mpr ⟨he, hOf⟩)
        · cases (hNumbers e he).symm.trans hOf
          omega

end Protocol

namespace Simulation

/-- Whatever is called on a simulation, what it reports meanwhile accounts for its net: for the number
of tokens at every place and the clock of every transition, in the end and right after each of the
firings, where each place has as many tokens as the events of this firing say. -/
theorem log_accounts {s after : Simulation} (hNet : s.net.Reachable) (hCalls : s.Reaches after) :
    ∃ log, after.events = s.events ++ log ∧ s.net.Balances log after.net ∧
      (∀ e ∈ log, ∀ n, e.number? = some n → s.firings < n ∧ n ≤ after.firings) ∧
      ∀ n, s.firings < n → n ≤ after.firings →
        ∃ before rest now, log = before ++ rest ∧
          Protocol.Cut s.config.mode s.standing n before rest now ∧
          s.net.Balances before now.net ∧ MarkedIn now.net (eventsOf n log) := by
  obtain ⟨log, hTells⟩ := hCalls.tells hNet
  have hProtocol := hTells.protocol
  refine ⟨log, hTells.events, hProtocol.balances hNet, hProtocol.numbers.2, fun n hFirst hLast => ?_⟩
  obtain ⟨before, rest, now, hLog, hCut, hMarked⟩ := hProtocol.cuts hNet hFirst hLast
  exact ⟨before, rest, now, hLog, hCut, hCut.protocol.balances hNet, hMarked⟩

/-- A step moves the clock and fires once: of the four events, three are of the firing. -/
theorem log_accounts_relay :
    relay.Reachable ∧ ∃ after log, relayStart.Reaches after ∧ after.firings = 1 ∧
      after.events = relayStart.events ++ log ∧ log.length = 4 ∧ relay.Balances log after.net ∧
      (eventsOf 1 log).length = 3 ∧ tokensIn "q" (log.filterMap Event.produced?) = 1 ∧
      ∃ before rest now, log = before ++ rest ∧
        Protocol.Cut .timed relayStart.standing 1 before rest now ∧
        relay.Balances before now.net ∧ MarkedIn now.net (eventsOf 1 log) := by
  obtain ⟨log, hLog, hBalances, _, hCuts⟩ := log_accounts relay_reachable relayStart_reaches
  obtain rfl : relayDone.events = log := hLog
  exact ⟨relay_reachable, _, _, relayStart_reaches, rfl, rfl, rfl, hBalances, rfl, rfl,
    hCuts 1 (by decide) le_rfl⟩

end Simulation
end Petri
