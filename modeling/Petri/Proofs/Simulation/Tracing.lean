import Petri.Proofs.Report.Waveform
import Petri.Proofs.Simulation.Accounting

/-! # Traces

A waveform that has watched a simulation is a true picture of it. After every firing the wires of
places are high where there are tokens, and the dump shows the firings one after another, each as a
pulse of its transition.
-/
namespace Petri
set_option autoImplicit false

/-! ## Changes by firing -/

namespace Waveform

theorem number_of_mem_changesOf {e : Event} {c : WireChange} (h : c ∈ changesOf e) :
    e.number? = some c.firing := by
  cases e with
  | consumed | fired | produced =>
    cases List.mem_singleton.mp h
    rfl
  | clockAdvanced | finished => cases h

theorem forall_mem_changesOf {log : List Event} {P : Nat → Prop}
    (h : ∀ e ∈ log, ∀ n, e.number? = some n → P n) : ∀ c ∈ log.flatMap changesOf, P c.firing := by
  intro c hc
  obtain ⟨e, he, hChange⟩ := List.mem_flatMap.mp hc
  exact h e he _ (number_of_mem_changesOf hChange)

theorem changes_record_ofNet (net : Net) (log : List Event) :
    ((ofNet net).record log).changes = log.flatMap changesOf := List.nil_append _

theorem wires_ofNet (net : Net) :
    (ofNet net).wires = net.places.map Place.id ++ net.transitions.map Transition.id :=
  congrArg (· ++ _) List.map_map

theorem filter_changesOf (firing : Nat) (log : List Event) :
    (log.flatMap changesOf).filter (fun c => c.firing == firing) =
      (eventsOf firing log).flatMap changesOf := by
  induction log with
  | nil => rfl
  | cons e rest ih =>
    rw [List.flatMap_cons, List.filter_append, ih]
    by_cases hOf : e.number? = some firing
    · have hAll : (changesOf e).filter (fun c => c.firing == firing) = changesOf e :=
        List.filter_eq_self.mpr fun c hc => beq_iff_eq.mpr <|
          Option.some.inj ((number_of_mem_changesOf hc).symm.trans hOf)
      have hEvents : eventsOf firing (e :: rest) = e :: eventsOf firing rest :=
        List.filter_cons_of_pos (beq_iff_eq.mpr hOf)
      rw [hAll, hEvents, List.flatMap_cons]
    · have hNone : (changesOf e).filter (fun c => c.firing == firing) = [] :=
        List.filter_eq_nil_iff.mpr fun c hc hSame => hOf <| by
          rw [number_of_mem_changesOf hc, beq_iff_eq.mp hSame]
      have hEvents : eventsOf firing (e :: rest) = eventsOf firing rest :=
        List.filter_cons_of_neg (mt beq_iff_eq.mp hOf)
      rw [hNone, hEvents, List.nil_append]

theorem changesAt_record_ofNet (net : Net) (log : List Event) (firing : Nat) :
    ((ofNet net).record log).changesAt firing = (eventsOf firing log).flatMap changesOf := by
  rw [changesAt, changes_record_ofNet, filter_changesOf]

end Waveform

/-- The change that a transfer makes to the wire of its place. -/
def Transfer.change (number : Nat) (x : Transfer) : WireChange :=
  ⟨number, x.place, decide (0 < x.marking)⟩

/-- All the changes that a firing makes, in the order in which it is reported. -/
def Firing.changes (number : Nat) (f : Firing) : List WireChange :=
  f.consumed.map (Transfer.change number) ++
    ⟨number, f.transition, true⟩ :: f.produced.map (Transfer.change number)

theorem Firing.mem_changes {number : Nat} {f : Firing} {c : WireChange} :
    c ∈ f.changes number ↔ c = ⟨number, f.transition, true⟩ ∨
      ∃ x, (x ∈ f.consumed ∨ x ∈ f.produced) ∧ x.change number = c := by
  rw [changes, List.mem_append, List.mem_cons, List.mem_map, List.mem_map, or_left_comm]
  simp only [or_and_right, exists_or]

theorem Block.changes_eq {net : Net} {number : Nat} {f : Firing} {events : List Event}
    (h : Block net number f events) : events.flatMap Waveform.changesOf = f.changes number := by
  have hNoted (event : Transfer → Event)
      (hEvent : ∀ x, Waveform.changesOf (event x) = [x.change number]) (xs : List Transfer) :
      (xs.map event).flatMap Waveform.changesOf = xs.map (Transfer.change number) := by
    rw [List.flatMap_map, funext hEvent, ← List.map_eq_flatMap]
  rw [h.events_eq, List.flatMap_append, List.flatMap_cons, hNoted _ fun _ => rfl,
    hNoted _ fun _ => rfl]
  rfl

namespace Protocol
variable {mode : TimeMode} {first last : Standing} {log : List Event}

theorem Cut.eventsOf_eq {number : Nat} {before rest : List Event} {now : Standing}
    (h : Cut mode first number before rest now) :
    ∃ told earlier f, Protocol mode first told earlier ∧
      earlier.Fires mode f (eventsOf number (before ++ rest)) now ∧ now.firings = number := by
  cases h with
  | @cut told events _ earlier _ f hTold hFires hNumber hRest =>
    refine ⟨told, earlier, f, hTold, ?_, hNumber⟩
    have hCount := hFires.firings
    have hTaken : eventsOf number told = [] := eventsOf_eq_nil fun e he hOf => by
      have hEarlier := hTold.numbers.2 e he number hOf
      omega
    have hLater : eventsOf number rest = [] := eventsOf_eq_nil fun e he hOf =>
      absurd (hRest e he number hOf) (Nat.lt_irrefl number)
    rw [eventsOf_append, eventsOf_append, hTaken, hLater, List.nil_append, List.append_nil]
    obtain rfl : earlier.firings + 1 = number := hCount.symm.trans hNumber
    rwa [hFires.block.eventsOf_eq]

end Protocol

/-- What a log notes comes firing by firing. -/
def Grouped (log : List Event) : Prop :=
  log.flatMap Waveform.changesOf = (log.filterMap Event.firedNumber?).flatMap fun n =>
    (eventsOf n log).flatMap Waveform.changesOf

theorem Event.number_of_firedNumber {e : Event} {n : Nat} (h : e.firedNumber? = some n) :
    e.number? = some n := by
  cases e with
  | fired => exact h
  | consumed | produced | clockAdvanced | finished => cases h

theorem Grouped.concat {log : List Event} (h : Grouped log) {e : Event}
    (hUnnumbered : e.number? = none) : Grouped (log ++ [e]) := by
  have hNoted : Waveform.changesOf e = [] := List.eq_nil_iff_forall_not_mem.mpr fun c hc =>
    nomatch hUnnumbered.symm.trans (Waveform.number_of_mem_changesOf hc)
  have hFired : e.firedNumber? = none := Option.eq_none_iff_forall_ne_some.mpr fun n hn =>
    nomatch hUnnumbered.symm.trans (Event.number_of_firedNumber hn)
  rw [Grouped, List.flatMap_append, List.filterMap_append, List.flatMap_singleton, hNoted,
    List.append_nil, List.filterMap_cons_none hFired, List.filterMap_nil, List.append_nil, h]
  exact List.flatMap_congr fun n _ => by rw [eventsOf_concat n log hUnnumbered]

theorem Grouped.append_block {log events : List Event} {net : Net} {number : Nat} {f : Firing}
    (h : Grouped log) (hBlock : Block net number f events)
    (hEarlier : ∀ e ∈ log, ∀ n, e.number? = some n → n < number) : Grouped (log ++ events) := by
  have hBefore : ∀ n ∈ log.filterMap Event.firedNumber?,
      eventsOf n (log ++ events) = eventsOf n log := by
    intro n hn
    obtain ⟨e, he, hFired⟩ := List.mem_filterMap.mp hn
    have hLess := hEarlier e he n (Event.number_of_firedNumber hFired)
    have hOthers : eventsOf n events = [] := eventsOf_eq_nil fun e' he' hOf => by
      cases (hBlock.number_eq he').symm.trans hOf
      exact Nat.lt_irrefl _ hLess
    rw [eventsOf_append, hOthers, List.append_nil]
  have hNew : eventsOf number (log ++ events) = events := by
    have hNone : eventsOf number log = [] := eventsOf_eq_nil fun e he hOf =>
      Nat.lt_irrefl _ (hEarlier e he number hOf)
    rw [eventsOf_append, hNone, hBlock.eventsOf_eq, List.nil_append]
  calc (log ++ events).flatMap Waveform.changesOf
    _ = (log.filterMap Event.firedNumber?).flatMap (fun n =>
          (eventsOf n log).flatMap Waveform.changesOf) ++ events.flatMap Waveform.changesOf := by
      rw [List.flatMap_append, h]
    _ = ((log ++ events).filterMap Event.firedNumber?).flatMap fun n =>
          (eventsOf n (log ++ events)).flatMap Waveform.changesOf := by
      rw [List.filterMap_append, hBlock.firedNumbers, List.flatMap_append, List.flatMap_singleton,
        hNew]
      exact congrArg (· ++ _) (List.flatMap_congr fun n hn => by rw [hBefore n hn])

theorem Protocol.grouped {mode : TimeMode} {first last : Standing} {log : List Event}
    (h : Protocol mode first log last) : Grouped log := by
  induction h with
  | nothing => rfl
  | advanced _ _ ih | finished _ _ ih => exact ih.concat rfl
  | fired hTold hFires ih =>
    exact ih.append_block hFires.block fun e he n hn =>
      Nat.lt_succ_of_le (hTold.numbers.2 e he n hn).2

/-! ## Places -/

def Net.marked (net : Net) (place : String) : Bool := !(net.tokensAt place).isEmpty

theorem Net.marked_eq (net : Net) (place : String) :
    net.marked place = decide (0 < (net.tokensAt place).length) := by
  rw [marked]
  cases net.tokensAt place <;> rfl

theorem lookup_map_key {α β : Type} {key : α → String} {g : α → β} {l : List α}
    (h : (l.map key).Nodup) {a : α} (ha : a ∈ l) :
    (l.map fun b => (key b, g b)).lookup (key a) = some (g a) := by
  induction l with
  | nil => cases ha
  | cons b rest ih =>
    rw [List.map_cons, List.nodup_cons] at h
    rw [List.map_cons, List.lookup_cons]
    rcases List.mem_cons.mp ha with rfl | ha
    · rw [beq_self_eq_true]
    · have hne : (key a == key b) = false :=
        beq_eq_false_iff_ne.mpr fun he => h.1 (he ▸ List.mem_map_of_mem ha)
      rw [hne]
      exact ih h.2 ha

theorem Waveform.initial_ofNet {net : Net} (hNet : net.WellFormed) {p : Place}
    (hp : p ∈ net.places) : (ofNet net).initial p.id = net.marked p.id := by
  have hIds := (List.nodup_append.mp (List.nodup_append.mp hNet.nodup_by_kind).1).1
  have hLookup : (ofNet net).places.lookup p.id = some (!p.tokens.isEmpty) :=
    lookup_map_key (g := fun q : Place => !q.tokens.isEmpty) hIds hp
  rw [initial, hLookup, Net.marked, hNet.tokensAt_of_mem hp]
  rfl

namespace Standing.Fires
variable {mode : TimeMode} {now after : Standing} {f : Firing} {events : List Event}
  (hNet : now.net.WellFormed) (h : now.Fires mode f events after)
include hNet h

theorem marking_eq {x : Transfer} (hx : x ∈ f.consumed ∨ x ∈ f.produced) :
    ∃ p, after.net.place? x.place = some p ∧ x.marking = p.tokens.length := by
  have hReports := markedIn_of_fires hNet h
  rcases hx with hx | hx
  · refine hReports (.consumed (now.firings + 1) f.clock f.transition x.report) ?_ _ (.inl rfl)
    rw [h.block.events_eq]
    exact List.mem_append_left _ (List.mem_map_of_mem hx)
  · refine hReports (.produced (now.firings + 1) f.clock f.transition x.report) ?_ _ (.inr rfl)
    rw [h.block.events_eq]
    exact List.mem_append_right _ (List.mem_cons_of_mem _ (List.mem_map_of_mem hx))

theorem sameWires : after.net.places.map Place.id = now.net.places.map Place.id ∧
    after.net.transitions.map Transition.id = now.net.transitions.map Transition.id ∧
    f.transition ∈ now.net.transitions.map Transition.id := by
  obtain ⟨ev, hFire⟩ := h.fire
  obtain ⟨t, taken, made, μ, hTransition, _, _, hAfter⟩ := InPlace.exists_fires hNet hFire
  obtain ⟨ht, hId⟩ := Net.mem_of_transition? hTransition
  rw [hAfter, InPlace.places_settled, List.map_map]
  exact ⟨rfl, InPlace.transition_ids_settled _ _ μ, hId ▸ List.mem_map_of_mem ht⟩

theorem change_wire {x : Transfer} (hx : x ∈ f.consumed ∨ x ∈ f.produced) (number : Nat) :
    (x.change number).wire ∈ now.net.places.map Place.id := by
  obtain ⟨p, hPlace, _⟩ := h.marking_eq hNet hx
  obtain ⟨hp, hId⟩ := Net.mem_of_place? hPlace
  rw [← (h.sameWires hNet).1]
  exact List.mem_map.mpr ⟨p, hp, hId⟩

theorem change_high {x : Transfer} (hx : x ∈ f.consumed ∨ x ∈ f.produced) (number : Nat) :
    (x.change number).high = after.net.marked x.place := by
  obtain ⟨p, hPlace, hMarking⟩ := h.marking_eq hNet hx
  rw [Net.marked_eq, Net.tokensAt, hPlace, Transfer.change, hMarking]
  rfl

/-- A place that no transfer is about holds as many tokens as before. -/
theorem marked_of_untouched {p : Place} (hp : p ∈ now.net.places)
    (hUntouched : ∀ x, x ∈ f.consumed ∨ x ∈ f.produced → x.place ≠ p.id) :
    after.net.marked p.id = now.net.marked p.id := by
  have hNone {xs : List Transfer} (hxs : ∀ x ∈ xs, x.place ≠ p.id) :
      tokensIn p.id (xs.map Transfer.report) = 0 := by
    have hFilter : (xs.map Transfer.report).filter (fun x => x.place == p.id) = [] :=
      List.filter_eq_nil_iff.mpr (List.forall_mem_map.mpr fun x hx hSame =>
        hxs x hx (beq_iff_eq.mp hSame))
    rw [tokensIn, hFilter]
    rfl
  obtain ⟨tokens, hPlace, hCount⟩ := (Net.balances_of_fires hNet h).places p hp
  rw [h.block.consumed_eq, h.block.produced_eq, hNone fun x hx => hUntouched x (.inl hx),
    hNone fun x hx => hUntouched x (.inr hx)] at hCount
  have hAfter : (after.net.tokensAt p.id).length = p.tokens.length := by
    rw [Net.tokensAt, hPlace]
    exact hCount
  rw [Net.marked_eq, Net.marked_eq, hAfter, hNet.tokensAt_of_mem hp]

/-- What the firing notes of a place is what the place has come to. -/
theorem lastValue_eq {p : Place} (hp : p ∈ now.net.places) :
    (Waveform.lastValue (events.flatMap Waveform.changesOf) p.id).getD (now.net.marked p.id) =
      after.net.marked p.id := by
  rw [h.block.changes_eq]
  cases hLast : Waveform.lastValue _ p.id with
  | none =>
    rw [Waveform.lastValue_eq_none_iff] at hLast
    exact (h.marked_of_untouched hNet hp fun x hx =>
      hLast _ (Firing.mem_changes.mpr (.inr ⟨x, hx, rfl⟩))).symm
  | some high =>
    obtain ⟨c, hc, hWire, rfl⟩ := Waveform.mem_of_lastValue hLast
    rcases Firing.mem_changes.mp hc with rfl | ⟨x, hx, rfl⟩
    · -- a transition has no identifier in common with a place
      have hPlace : f.transition ∈ now.net.places.map Place.id :=
        List.mem_map.mpr ⟨p, hp, hWire.symm⟩
      exact absurd (h.sameWires hNet).2.2 (hNet.not_transition_of_place hPlace)
    · exact (h.change_high hNet hx _).trans (congrArg after.net.marked hWire)

end Standing.Fires

namespace Protocol
variable {mode : TimeMode} {first last : Standing} {log : List Event}

theorem sameWires (h : Protocol mode first log last) (hNet : first.net.Reachable) :
    last.net.places.map Place.id = first.net.places.map Place.id ∧
      last.net.transitions.map Transition.id = first.net.transitions.map Transition.id := by
  induction h with
  | nothing => exact ⟨rfl, rfl⟩
  | advanced _ _ ih | finished _ _ ih => exact ih
  | fired hTold hFires ih =>
    obtain ⟨hPlaces, hTransitions, _⟩ := hFires.sameWires (hTold.reachable hNet).wellFormed
    exact ⟨hPlaces.trans ih.1, hTransitions.trans ih.2⟩

/-- What was noted last of a place is what the place has come to. -/
theorem lastValue_eq (h : Protocol mode first log last) (hNet : first.net.Reachable) {p : Place}
    (hp : p ∈ first.net.places) :
    (Waveform.lastValue (log.flatMap Waveform.changesOf) p.id).getD (first.net.marked p.id) =
      last.net.marked p.id := by
  induction h with
  | nothing => rfl
  | @advanced told _ _ _ _ ih | @finished told _ _ _ ih =>
    rw [List.flatMap_append]
    exact (congrArg (fun changes => (Waveform.lastValue changes p.id).getD _)
      (List.append_nil (told.flatMap Waveform.changesOf))).trans ih
  | @fired told events now after f hTold hFires ih =>
    obtain ⟨tokens, hPlace, _⟩ := (hTold.balances hNet).places p hp
    have hFired := hFires.lastValue_eq (hTold.reachable hNet).wellFormed (Net.mem_of_place? hPlace).1
    rw [List.flatMap_append, Waveform.lastValue_append, Option.getD_or, ih]
    exact hFired

/-- What has been noted of each firing. -/
theorem exists_noted (h : Protocol mode first log last) (hNet : first.net.Reachable) {n : Nat}
    (hFirst : first.firings < n) (hLast : n ≤ last.firings) :
    ∃ f : Firing, .fired n f.clock f.transition f.label ∈ log ∧
      ((Waveform.ofNet first.net).record log).changesAt n = f.changes n ∧
      f.transition ∈ first.net.transitions.map Transition.id ∧
      ∀ x, x ∈ f.consumed ∨ x ∈ f.produced →
        (x.change n).wire ∈ first.net.places.map Place.id := by
  obtain ⟨before, rest, now, rfl, hCut, _⟩ := h.cuts hNet hFirst hLast
  obtain ⟨told, earlier, f, hTold, hFires, hNumber⟩ := hCut.eventsOf_eq
  have hCount := hFires.firings
  obtain rfl : earlier.firings + 1 = n := hCount.symm.trans hNumber
  have hEarlier := (hTold.reachable hNet).wellFormed
  obtain ⟨hPlaces, hTransitions⟩ := hTold.sameWires hNet
  refine ⟨f, ?_, ?_, ?_, fun x hx => ?_⟩
  · have hEvent : Event.fired (earlier.firings + 1) f.clock f.transition f.label ∈
        eventsOf (earlier.firings + 1) (before ++ rest) := by
      rw [hFires.block.events_eq]
      exact List.mem_append_right _ (List.mem_cons_self ..)
    exact (mem_eventsOf.mp hEvent).1
  · rw [Waveform.changesAt_record_ofNet, hFires.block.changes_eq]
  · exact hTransitions ▸ (hFires.sameWires hEarlier).2.2
  · exact hPlaces ▸ hFires.change_wire hEarlier hx _

theorem notes (h : Protocol mode first log last) (hNet : first.net.Reachable) :
    ((Waveform.ofNet first.net).record log).Notes
      (List.range' (first.firings + 1) (last.firings - first.firings)) where
  ordered := List.pairwise_lt_range' 1
  changes := by
    obtain ⟨count, hCount, hNumbers⟩ := h.firedNumbers
    have hRange : last.firings - first.firings = count := by omega
    have hGrouped := h.grouped
    rw [Grouped, hNumbers] at hGrouped
    rw [Waveform.changes_record_ofNet, hRange, hGrouped]
    exact List.flatMap_congr fun n _ => (Waveform.changesAt_record_ofNet first.net log n).symm
  noted n hn := by
    rw [List.mem_range'_1] at hn
    obtain ⟨f, _, hChanges, _⟩ := h.exists_noted hNet (n := n) (by omega) (by omega)
    rw [hChanges]
    exact List.append_ne_nil_of_right_ne_nil _ (List.cons_ne_nil _ _)

theorem declared (h : Protocol mode first log last) (hNet : first.net.Reachable) :
    ∀ c ∈ ((Waveform.ofNet first.net).record log).changes,
      c.wire ∈ (Waveform.ofNet first.net).wires := by
  intro c hc
  rw [Waveform.changes_record_ofNet] at hc
  obtain ⟨hFirst, hLast⟩ := Waveform.forall_mem_changesOf h.numbers.2 c hc
  obtain ⟨f, _, hChanges, hTransition, hPlaces⟩ := h.exists_noted hNet hFirst hLast
  have hMem : c ∈ ((Waveform.ofNet first.net).record log).changesAt c.firing := by
    rw [Waveform.changesAt, Waveform.changes_record_ofNet]
    exact List.mem_filter.mpr ⟨hc, beq_self_eq_true _⟩
  rw [Waveform.wires_ofNet, List.mem_append]
  rw [hChanges] at hMem
  rcases Firing.mem_changes.mp hMem with hChange | ⟨x, hx, hChange⟩
  · rw [hChange]
    exact .inr hTransition
  · exact .inl (hChange ▸ hPlaces x hx)

theorem pulses (h : Protocol mode first log last) (hNet : first.net.Reachable) {n : Nat}
    (hFirst : first.firings < n) (hLast : n ≤ last.firings) :
    ∃ clock transition label, .fired n clock transition label ∈ log ∧
      ((Waveform.ofNet first.net).record log).Pulses n transition := by
  obtain ⟨f, hFired, hChanges, hTransition, hPlaces⟩ := h.exists_noted hNet hFirst hLast
  refine ⟨_, _, _, hFired, (h.notes hNet).pulses ?_ hChanges hTransition ?_⟩
  · rw [List.mem_range'_1]
    omega
  · have hOut {x : Transfer} (hx : x ∈ f.consumed ∨ x ∈ f.produced) :
        (x.change n).wire ∉ first.net.transitions.map Transition.id :=
      hNet.wellFormed.not_transition_of_place (hPlaces x hx)
    exact List.forall_mem_append.mpr ⟨List.forall_mem_map.mpr fun x hx => hOut (.inl hx),
      List.forall_mem_map.mpr fun x hx => hOut (.inr hx)⟩

/-- A log passes through a standing when it tells how things have come to it, and afterwards of later
firings only. -/
inductive Passes (mode : TimeMode) (first : Standing) : List Event → Standing → Prop where
  | passes {before rest : List Event} {now : Standing} (h : Protocol mode first before now)
      (hRest : ∀ e ∈ rest, ∀ n, e.number? = some n → now.firings < n) :
      Passes mode first (before ++ rest) now

theorem exists_passes (h : Protocol mode first log last) (hNet : first.net.Reachable) {n : Nat}
    (hFirst : first.firings ≤ n) (hLast : n ≤ last.firings) :
    ∃ now, Passes mode first log now ∧ now.firings = n := by
  rcases hFirst.eq_or_lt with rfl | hFirst
  · exact ⟨first, .passes .nothing fun e he n hn => (h.numbers.2 e he n hn).1, rfl⟩
  · obtain ⟨before, rest, now, rfl, hCut, _⟩ := h.cuts hNet hFirst hLast
    cases hCut with
    | cut hTold hFires hNumber hRest =>
      exact ⟨now, .passes (.fired hTold hFires) (hNumber ▸ hRest), hNumber⟩

/-- After a firing the wires of places show how the net stands then. -/
theorem Passes.level_eq {now : Standing} (h : Passes mode first log now)
    (hNet : first.net.Reachable) {p : Place} (hp : p ∈ first.net.places) :
    ((Waveform.ofNet first.net).record log).level now.firings p.id = now.net.marked p.id := by
  cases h with
  | @passes before rest _ h hRest =>
    have hBefore : (before.flatMap Waveform.changesOf).filter (fun c => c.firing ≤ now.firings) =
        before.flatMap Waveform.changesOf :=
      List.filter_eq_self.mpr fun c hc => decide_eq_true
        (Waveform.forall_mem_changesOf h.numbers.2 c hc).2
    have hLater : (rest.flatMap Waveform.changesOf).filter (fun c => c.firing ≤ now.firings) = [] :=
      List.filter_eq_nil_iff.mpr fun c hc hNow =>
        Nat.not_lt.mpr (of_decide_eq_true hNow) (Waveform.forall_mem_changesOf hRest c hc)
    rw [Waveform.level, Waveform.changes_record_ofNet, List.flatMap_append, List.filter_append,
      hBefore, hLater, List.append_nil, ← h.lastValue_eq hNet hp,
      ← Waveform.initial_ofNet hNet.wellFormed hp]
    rfl

end Protocol
/-- The waveform shows what the log tells. -/
structure Waveform.Faithful (w : Waveform) (mode : TimeMode) (first : Standing) (log : List Event)
    (last : Standing) : Prop where
  /-- After each firing the wires of places are high exactly where there are tokens. -/
  levels : ∀ now, Protocol.Passes mode first log now → ∀ p ∈ first.net.places,
    w.level now.firings p.id = now.net.marked p.id
  written : w.print = w.header ++ String.join (w.instants.map (Instant.text w))
  times : w.instants.map Instant.time = 0 ::
    (List.range' (first.firings + 1) (last.firings - first.firings)).flatMap fun n =>
      [2 * n, 2 * n + 1]
  times_increase : (w.instants.map Instant.time).Pairwise (· < ·)
  pulses : ∀ n, first.firings < n → n ≤ last.firings → ∃ clock transition label,
    .fired n clock transition label ∈ log ∧ w.Pulses n transition
  declared : ∀ c ∈ w.changes, c.wire ∈ w.wires
  told_apart : ∀ wire ∈ w.wires, ∀ wire', w.codeOf wire = w.codeOf wire' → wire = wire'

theorem Protocol.faithful {mode : TimeMode} {first last : Standing} {log : List Event}
    (h : Protocol mode first log last) (hNet : first.net.Reachable) :
    ((Waveform.ofNet first.net).record log).Faithful mode first log last where
  levels _ hNow _ hp := hNow.level_eq hNet hp
  written := Waveform.print_eq _
  times := (h.notes hNet).times_eq
  times_increase := (h.notes hNet).times_increase fun n hn => by
    rw [List.mem_range'_1] at hn
    omega
  pulses _ hFirst hLast := h.pulses hNet hFirst hLast
  declared := h.declared hNet
  told_apart _ hWire _ := Waveform.codeOf_injective hWire

namespace Simulation
open Protocol

/-- A waveform that is attached to a simulation shows truly whatever is called from then on: at every
firing, and wherever a call has come back, its wires are high for the places with tokens, and its dump
gives each firing an even time, at which its transition rises, and an odd one, at which it falls. -/
theorem trace_is_faithful {s after : Simulation} (hNet : s.net.Reachable)
    (hCalls : s.Reaches after) :
    ∃ log, after.events = s.events ++ log ∧
      ((Waveform.ofNet s.net).record log).Faithful s.config.mode s.standing log after.standing ∧
      (∀ n, s.firings ≤ n → n ≤ after.firings →
        ∃ now, Passes s.config.mode s.standing log now ∧ now.firings = n) ∧
      ∀ between, s.Reaches between → between.Reaches after →
        Passes s.config.mode s.standing log between.standing := by
  obtain ⟨log, hTells⟩ := hCalls.tells hNet
  refine ⟨log, hTells.events, hTells.protocol.faithful hNet,
    fun n => hTells.protocol.exists_passes hNet, fun between hBefore hAfter => ?_⟩
  obtain ⟨told, hTold⟩ := hBefore.tells hNet
  obtain ⟨rest, hRest⟩ := hAfter.tells (hTold.protocol.reachable hNet)
  have hLog : log = told ++ rest := by
    have hEvents := hTells.events.symm.trans hRest.events
    rw [hTold.events, List.append_assoc] at hEvents
    exact List.append_cancel_left hEvents
  exact hLog ▸ .passes hTold.protocol fun e he n hn => (hRest.protocol.numbers.2 e he n hn).1

/-- The token of a relay leaves its place in the only firing, which the dump shows at 2 and 3. -/
theorem trace_is_faithful_relay :
    relay.Reachable ∧ ∃ after log, relayStart.Reaches after ∧
      after.events = relayStart.events ++ log ∧
      ((Waveform.ofNet relay).record log).Faithful .timed relayStart.standing log after.standing ∧
      ["p", "q"].map (((Waveform.ofNet relay).record log).level 0) = [true, false] ∧
      ["p", "q"].map (((Waveform.ofNet relay).record log).level 1) = [false, true] ∧
      ((Waveform.ofNet relay).record log).instants.map Waveform.Instant.time = [0, 2, 3] ∧
      ∃ now, Passes .timed relayStart.standing log now ∧ now.firings = 1 := by
  obtain ⟨log, hLog, hFaithful, hPasses, _⟩ := trace_is_faithful relay_reachable relayStart_reaches
  obtain rfl : relayDone.events = log := hLog
  exact ⟨relay_reachable, _, _, relayStart_reaches, rfl, hFaithful, by decide, by decide,
    hFaithful.times, hPasses 1 (by decide) le_rfl⟩

end Simulation
end Petri
