import Petri.Simulation.Event

/-! # Waveforms

A waveform has a wire for each place, which is high while the place holds a token, and one for each
transition, which is high while it fires. The time axis counts firings, two units for each. Waveforms
are written as value change dumps.
-/
namespace Petri
set_option autoImplicit false

structure WireChange where
  firing : Nat
  wire : String
  high : Bool
  deriving DecidableEq

structure Waveform where
  /-- The places with their values at the start. -/
  places : List (String × Bool)
  transitions : List String
  changes : List WireChange := []
  deriving DecidableEq

namespace Waveform

def ofNet (net : Net) : Waveform where
  places := net.places.map fun p => (p.id, !p.tokens.isEmpty)
  transitions := net.transitions.map Transition.id

def changesOf : Event → List WireChange
  | .consumed firing _ _ transfer => [⟨firing, transfer.place, decide (0 < transfer.marking)⟩]
  | .fired firing _ transition _ => [⟨firing, transition, true⟩]
  | .produced firing _ _ transfer => [⟨firing, transfer.place, decide (0 < transfer.marking)⟩]
  | .clockAdvanced .. => []
  | .finished .. => []

def record (w : Waveform) (events : List Event) : Waveform :=
  { w with changes := w.changes ++ events.flatMap changesOf }

/-- The identifiers of the wires, in the order in which they are declared. -/
def wires (w : Waveform) : List String := w.places.map Prod.fst ++ w.transitions

/-! ## Writing -/

/-- Wire names keep letters, digits and underscores of ASCII. -/
def wireName (id : String) : String :=
  id.map fun c => if c.isAlphanum || c == '_' then c else '_'

/-- The least and the greatest character of wire codes, and their number. -/
def codeBase : Nat := 94

/-- The code of wire `n`: a numeral whose digits start at `!`, the least first. The second argument
bounds the number of digits. -/
def codeFrom : Nat → Nat → List Char
  | 0, _ => []
  | fuel + 1, n =>
    Char.ofNat (33 + n % codeBase) :: if n < codeBase then [] else codeFrom fuel (n / codeBase - 1)

def code (n : Nat) : String := String.ofList (codeFrom (n + 1) n)

def codeOf (w : Waveform) (wire : String) : String := code (w.wires.idxOf wire)

def declaration (n : Nat) (id : String) : String :=
  "$var wire 1 " ++ code n ++ " " ++ wireName id ++ " $end\n"

def header (w : Waveform) : String :=
  "$timescale 1 ns $end\n$scope module net $end\n" ++
    String.join (w.wires.mapIdx declaration) ++ "$upscope $end\n$enddefinitions $end\n"

def valueLine (w : Waveform) (wire : String) (high : Bool) : String :=
  (if high then "1" else "0") ++ w.codeOf wire ++ "\n"

def initialValues (w : Waveform) : String :=
  "#0\n" ++ String.join (w.places.map fun p => w.valueLine p.1 p.2) ++
    String.join (w.transitions.map fun t => w.valueLine t false)

/-- The changes of one firing: at the even time all of them, at the odd time the end of the pulses
of transitions. -/
def groupText (w : Waveform) (firing : Nat) (changes : List WireChange) : String :=
  s!"#{firing * 2}\n" ++ String.join (changes.map fun c => w.valueLine c.wire c.high) ++
    s!"#{firing * 2 + 1}\n" ++
    String.join ((changes.filter fun c => w.transitions.contains c.wire).map fun c =>
      w.valueLine c.wire false)

/-- Consecutive changes of the same firing. -/
def groups (w : Waveform) : List (List WireChange) :=
  w.changes.splitBy fun a b => a.firing == b.firing

def print (w : Waveform) : String :=
  w.header ++ w.initialValues ++ String.join (w.groups.map fun changes =>
    w.groupText ((changes.head?.map WireChange.firing).getD 0) changes)

end Waveform
end Petri
