import Petri.TokenBag

/-! # Elements of a net

Places, transitions and the two kinds of arcs, and the numbering that names elements without an
identifier of their own.
-/
namespace Petri
set_option autoImplicit false

inductive ElementKind where
  | place | transition | inputArc | outputArc
  deriving DecidableEq

namespace ElementKind

def name : ElementKind → String
  | place => "place"
  | transition => "transition"
  | inputArc => "input arc"
  | outputArc => "output arc"

def initial : ElementKind → String
  | place => "p"
  | transition => "t"
  | inputArc => "i"
  | outputArc => "o"

end ElementKind

/-- Numbers for identifiers. All kinds share one sequence. -/
structure Numbering where
  /-- The last number given out, `0` at the start. -/
  last : Nat := 0
  deriving DecidableEq

namespace Numbering

def numbered (kind : ElementKind) (n : Nat) : String := kind.initial ++ toString n

/-- The next number whose identifier is not taken. Different numbers make different identifiers, so
one more number than there are taken ones is enough to look at. -/
def next (numbering : Numbering) (kind : ElementKind) (taken : List String) : Numbering :=
  let candidates := List.range' (numbering.last + 1) (taken.length + 1)
  ⟨(candidates.find? fun n => !taken.contains (numbered kind n)).getD (numbering.last + 1)⟩

end Numbering

structure Place where
  id : String
  label : Option String := none
  tokens : TokenBag := []
  /-- The most tokens that the place holds; `0` stands for no bound. -/
  capacity : Nat := 0
  deriving DecidableEq

namespace Place

def shown (p : Place) : String := p.label.getD p.id

def bounded (p : Place) : Bool := decide (0 < p.capacity)

def fits (p : Place) (count : Nat) : Bool := !p.bounded || decide (count ≤ p.capacity)

def headroom (p : Place) : Bool := p.fits (p.tokens.length + 1)

def count (p : Place) : String :=
  if p.bounded then s!"{p.tokens.length}/{p.capacity}" else toString p.tokens.length

end Place

def defaultGuard : String := "true"

structure Transition where
  id : String
  label : Option String := none
  guard : String := defaultGuard
  /-- The clock of the last firing. -/
  lastFired : Time := 0
  deriving DecidableEq

def Transition.shown (t : Transition) : String := t.label.getD t.id

def defaultEvaluate : String := "size() > 0"

def defaultExecute : String := "1"

/-- An arc from a place: a predicate on the tokens of the place, and an inscription that says which
tokens to take. -/
structure InputArc where
  id : String
  label : Option String := none
  place : String
  transition : String
  evaluate : String := defaultEvaluate
  execute : String := defaultExecute
  deriving DecidableEq

/-- An arc to a place; its inscription says which tokens to make. -/
structure OutputArc where
  id : String
  label : Option String := none
  transition : String
  place : String
  execute : String := defaultExecute
  deriving DecidableEq

inductive Arc where
  | input (a : InputArc)
  | output (a : OutputArc)
  deriving DecidableEq

namespace Arc

def id : Arc → String
  | input a => a.id
  | output a => a.id

def label : Arc → Option String
  | input a => a.label
  | output a => a.label

def shown (a : Arc) : String := a.label.getD a.id

def place : Arc → String
  | input a => a.place
  | output a => a.place

def transition : Arc → String
  | input a => a.transition
  | output a => a.transition

def execute : Arc → String
  | input a => a.execute
  | output a => a.execute

def input? : Arc → Option InputArc
  | input a => some a
  | output _ => none

def output? : Arc → Option OutputArc
  | input _ => none
  | output a => some a

end Arc

inductive Node where
  | place (p : Place)
  | transition (t : Transition)
  deriving DecidableEq

namespace Node

def id : Node → String
  | place p => p.id
  | transition t => t.id

def kind : Node → ElementKind
  | place _ => .place
  | transition _ => .transition

def shown : Node → String
  | place p => p.shown
  | transition t => t.shown

def place? : Node → Option Place
  | place p => some p
  | transition _ => none

def transition? : Node → Option Transition
  | place _ => none
  | transition t => some t

def caption : Node → String
  | place p => p.shown ++ " " ++ p.count
  | transition t => t.shown

end Node
end Petri
