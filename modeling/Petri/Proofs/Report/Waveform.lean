import Mathlib.Data.List.SplitBy
import Petri.Report.Waveform

/-! # Waveforms and their dumps

A dump says from one time to the next which values wires take. Its codes tell the wires apart. Where a
waveform has noted the changes of one firing after another, every firing has two times of its own: one
for all that changes and one at which its transition falls back.
-/
namespace Petri.Waveform
set_option autoImplicit false

/-! ## Codes -/

theorem codeFrom_ne_nil {fuel n : Nat} (h : n < fuel) : codeFrom fuel n ≠ [] := by
  cases fuel with
  | zero => cases h
  | succ fuel => exact List.cons_ne_nil _ _

theorem digit_injective {n n' : Nat} (h : n < codeBase) (h' : n' < codeBase)
    (hSame : Char.ofNat (33 + n) = Char.ofNat (33 + n')) : n = n' := by
  have hValue : ∀ m < codeBase, (Char.ofNat (33 + m)).toNat = 33 + m := by decide
  have hValues := congrArg Char.toNat hSame
  rw [hValue n h, hValue n' h'] at hValues
  exact Nat.add_left_cancel hValues

theorem codeFrom_injective {fuel fuel' n n' : Nat} (hFuel : n < fuel) (hFuel' : n' < fuel')
    (h : codeFrom fuel n = codeFrom fuel' n') : n = n' := by
  induction fuel generalizing fuel' n n' with
  | zero => cases hFuel
  | succ fuel ih =>
    cases fuel' with
    | zero => cases hFuel'
    | succ fuel' =>
      rw [codeFrom, codeFrom] at h
      obtain ⟨hHead, hTail⟩ := List.cons.inj h
      have hPositive : 0 < codeBase := by decide
      have hDigit : n % codeBase = n' % codeBase :=
        digit_injective (Nat.mod_lt _ hPositive) (Nat.mod_lt _ hPositive) hHead
      -- with one digit the number is the digit, and with more the others give the rest of it
      simp only [codeBase] at hDigit hTail
      by_cases hLast : n < 94 <;> by_cases hLast' : n' < 94 <;>
        simp only [hLast, hLast', if_true, if_false] at hTail
      · omega
      · exact absurd hTail.symm (codeFrom_ne_nil (by omega))
      · exact absurd hTail (codeFrom_ne_nil (by omega))
      · have hRest := ih (by omega) (by omega) hTail
        omega

theorem code_injective {n n' : Nat} (h : code n = code n') : n = n' :=
  codeFrom_injective (Nat.lt_succ_self n) (Nat.lt_succ_self n') (String.ofList_injective h)

/-- Of two wires that have a code in common one is not in the dump. -/
theorem codeOf_injective {w : Waveform} {wire wire' : String} (hWire : wire ∈ w.wires)
    (h : w.codeOf wire = w.codeOf wire') : wire = wire' :=
  (List.idxOf_inj hWire).mp (code_injective h)

/-! ## Levels -/

def initial (w : Waveform) (wire : String) : Bool := (w.places.lookup wire).getD false

def lastValue (changes : List WireChange) (wire : String) : Option Bool :=
  (changes.filter fun c => c.wire == wire).getLast?.map WireChange.high

/-- The value of a wire when all that is noted up to a firing has taken place. -/
def level (w : Waveform) (firing : Nat) (wire : String) : Bool :=
  (lastValue (w.changes.filter fun c => c.firing ≤ firing) wire).getD (w.initial wire)

theorem lastValue_append (changes changes' : List WireChange) (wire : String) :
    lastValue (changes ++ changes') wire =
      (lastValue changes' wire).or (lastValue changes wire) := by
  simp only [lastValue, List.filter_append, List.getLast?_append, Option.map_or]

theorem lastValue_eq_none_iff {changes : List WireChange} {wire : String} :
    lastValue changes wire = none ↔ ∀ c ∈ changes, c.wire ≠ wire := by
  simp [lastValue]

theorem mem_of_lastValue {changes : List WireChange} {wire : String} {high : Bool}
    (h : lastValue changes wire = some high) :
    ∃ c ∈ changes, c.wire = wire ∧ c.high = high := by
  obtain ⟨c, hLast, rfl⟩ := Option.map_eq_some_iff.mp h
  obtain ⟨hMem, hWire⟩ := List.mem_filter.mp (List.mem_of_getLast? hLast)
  exact ⟨c, hMem, beq_iff_eq.mp hWire, rfl⟩

/-! ## Dumps -/

/-- A time of a dump and the values that wires take then. -/
structure Instant where
  time : Nat
  values : List (String × Bool)

def Instant.text (w : Waveform) (i : Instant) : String :=
  s!"#{i.time}\n" ++ String.join (i.values.map fun value => w.valueLine value.1 value.2)

def opening (w : Waveform) : Instant :=
  ⟨0, w.places ++ w.transitions.map fun t => (t, false)⟩

def rise (firing : Nat) (changes : List WireChange) : Instant :=
  ⟨firing * 2, changes.map fun c => (c.wire, c.high)⟩

def fall (w : Waveform) (firing : Nat) (changes : List WireChange) : Instant :=
  ⟨firing * 2 + 1,
    (changes.filter fun c => w.transitions.contains c.wire).map fun c => (c.wire, false)⟩

def pulse (w : Waveform) (firing : Nat) (changes : List WireChange) : List Instant :=
  [rise firing changes, w.fall firing changes]

/-- What a dump says, one time after another. -/
def instants (w : Waveform) : List Instant :=
  w.opening :: w.groups.flatMap fun changes =>
    w.pulse ((changes.head?.map WireChange.firing).getD 0) changes

/-- The text of a dump is what it declares and then the times one after another. -/
theorem print_eq (w : Waveform) :
    w.print = w.header ++ String.join (w.instants.map (Instant.text w)) := by
  have hOpening : w.initialValues = w.opening.text w := by
    simp only [initialValues, opening, Instant.text, List.map_append, String.join_append,
      List.map_map, Function.comp_def, String.append_assoc]
    rfl
  have hGroup (firing : Nat) (changes : List WireChange) : w.groupText firing changes =
      String.join ((w.pulse firing changes).map (Instant.text w)) := by
    simp only [groupText, pulse, rise, fall, Instant.text, List.map_cons, List.map_nil,
      String.join_cons, String.join_nil, List.map_map, Function.comp_def, String.append_assoc,
      String.append_empty]
  have hGroups (groups : List (List WireChange)) : String.join (groups.map fun changes =>
        w.groupText ((changes.head?.map WireChange.firing).getD 0) changes) =
      String.join ((groups.flatMap fun changes =>
        w.pulse ((changes.head?.map WireChange.firing).getD 0) changes).map (Instant.text w)) := by
    induction groups with
    | nil => rfl
    | cons changes rest ih =>
      rw [List.map_cons, String.join_cons, ih, hGroup, List.flatMap_cons, List.map_append,
        String.join_append]
  rw [print, hOpening, hGroups, instants, List.map_cons, String.join_cons, String.append_assoc]

/-! ## One firing after another -/

def changesAt (w : Waveform) (firing : Nat) : List WireChange :=
  w.changes.filter fun c => c.firing == firing

theorem firing_of_mem_changesAt {w : Waveform} {firing : Nat} {c : WireChange}
    (h : c ∈ w.changesAt firing) : c.firing = firing :=
  beq_iff_eq.mp (List.mem_filter.mp h).2

/-- In the dump a firing is a pulse: at its even time the wire of the transition rises, and no wire of
another one changes, and all that happens at its odd time is that the wire falls back. -/
structure Pulses (w : Waveform) (firing : Nat) (transition : String) : Prop where
  rises : ∃ values, ⟨2 * firing, values⟩ ∈ w.instants ∧
    values.filter (fun value => w.transitions.contains value.1) = [(transition, true)]
  falls : ⟨2 * firing + 1, [(transition, false)]⟩ ∈ w.instants

/-- The waveform has noted something for each of these firings, and nothing else. -/
structure Notes (w : Waveform) (firings : List Nat) : Prop where
  ordered : firings.Pairwise (· < ·)
  changes : w.changes = firings.flatMap w.changesAt
  noted : ∀ n ∈ firings, w.changesAt n ≠ []

namespace Notes
variable {w : Waveform} {firings : List Nat} (h : w.Notes firings)
include h

theorem groups_eq : w.groups = firings.map w.changesAt := by
  have hSame : ∀ group ∈ firings.map w.changesAt,
      group.IsChain fun a b => (a.firing == b.firing) = true := by
    rw [List.forall_mem_map]
    intro n _
    refine (List.pairwise_iff_forall_sublist.mpr fun {a b} hPair => ?_).isChain
    have hMem := hPair.subset
    rw [beq_iff_eq, firing_of_mem_changesAt (hMem (List.mem_cons_self ..)),
      firing_of_mem_changesAt (hMem (List.mem_cons_of_mem _ (List.mem_singleton_self b)))]
  have hApart : (firings.map w.changesAt).IsChain fun a b =>
      ∃ ha hb, ((a.getLast ha).firing == (b.head hb).firing) = false := by
    rw [List.isChain_map]
    refine (h.ordered.imp_of_mem fun {n m} hn hm hLess => ?_).isChain
    refine ⟨h.noted n hn, h.noted m hm, ?_⟩
    rw [firing_of_mem_changesAt (List.getLast_mem _), firing_of_mem_changesAt (List.head_mem _)]
    exact beq_eq_false_iff_ne.mpr hLess.ne
  have hNoted : [] ∉ firings.map w.changesAt := fun hMem => by
    obtain ⟨n, hn, hEmpty⟩ := List.mem_map.mp hMem
    exact h.noted n hn hEmpty
  calc w.groups
    _ = (firings.map w.changesAt).flatten.splitBy fun a b => a.firing == b.firing := by
      rw [groups, h.changes, List.flatMap_def]
    _ = firings.map w.changesAt := List.splitBy_flatten hNoted hSame hApart

theorem instants_eq :
    w.instants = w.opening :: firings.flatMap fun n => w.pulse n (w.changesAt n) := by
  rw [instants, h.groups_eq, List.flatMap_map]
  congr 1
  refine List.flatMap_congr fun n hn => ?_
  have hHead : (w.changesAt n).head?.map WireChange.firing = some n := by
    rw [List.head?_eq_some_head (h.noted n hn), Option.map_some,
      firing_of_mem_changesAt (List.head_mem _)]
  rw [hHead, Option.getD_some]

theorem times_eq :
    w.instants.map Instant.time = 0 :: firings.flatMap fun n => [2 * n, 2 * n + 1] := by
  rw [h.instants_eq, List.map_cons, List.map_flatMap]
  simp only [pulse, rise, fall, List.map_cons, List.map_nil, Nat.mul_comm]
  rfl

theorem times_increase (hPositive : ∀ n ∈ firings, 0 < n) :
    (w.instants.map Instant.time).Pairwise (· < ·) := by
  rw [h.times_eq, List.pairwise_cons, List.pairwise_flatMap]
  refine ⟨fun time hTime => ?_, fun n _ => by simp, h.ordered.imp fun {n m} hLess => ?_⟩
  · obtain ⟨n, hn, hOne⟩ := List.mem_flatMap.mp hTime
    have hLater := hPositive n hn
    simp only [List.mem_cons, List.not_mem_nil, or_false] at hOne
    omega
  · simp only [List.mem_cons, List.not_mem_nil, or_false, forall_eq_or_imp, forall_eq]
    omega

theorem pulses {n : Nat} (hn : n ∈ firings) {transition : String} {taken made : List WireChange}
    (hChanges : w.changesAt n = taken ++ ⟨n, transition, true⟩ :: made)
    (hTransition : transition ∈ w.transitions)
    (hPlaces : ∀ c ∈ taken ++ made, c.wire ∉ w.transitions) : w.Pulses n transition := by
  have hPulse : ∀ i ∈ w.pulse n (w.changesAt n), i ∈ w.instants := fun i hi => by
    rw [h.instants_eq]
    exact List.mem_cons_of_mem _ (List.mem_flatMap.mpr ⟨n, hn, hi⟩)
  have hOnly : (w.changesAt n).filter (fun c => w.transitions.contains c.wire) =
      [⟨n, transition, true⟩] := by
    rw [List.forall_mem_append] at hPlaces
    have hNone {changes : List WireChange} (hOut : ∀ c ∈ changes, c.wire ∉ w.transitions) :
        changes.filter (fun c => w.transitions.contains c.wire) = [] :=
      List.filter_eq_nil_iff.mpr fun c hc hIn => hOut c hc (List.contains_iff_mem.mp hIn)
    have hOne : [(⟨n, transition, true⟩ : WireChange)].filter
        (fun c => w.transitions.contains c.wire) = [⟨n, transition, true⟩] :=
      List.filter_cons_of_pos (List.contains_iff_mem.mpr hTransition)
    rw [hChanges, ← List.singleton_append, List.filter_append, List.filter_append,
      hNone hPlaces.1, hOne, hNone hPlaces.2]
    rfl
  have hRise := hPulse _ (List.mem_cons_self ..)
  have hFall := hPulse _ (List.mem_cons_of_mem _ (List.mem_cons_self ..))
  rw [rise, Nat.mul_comm] at hRise
  rw [fall, hOnly, Nat.mul_comm] at hFall
  refine ⟨⟨_, hRise, ?_⟩, hFall⟩
  rw [List.filter_map]
  exact congrArg (List.map _) hOnly

end Notes
end Petri.Waveform
