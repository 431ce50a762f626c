import Petri.Net.Error

/-! # Nets

A net lists its nodes and its arcs in the order in which they were added; every other view of it is
read off these two lists. No two elements have the same identifier, and an arc can only be added
between a place and a transition that are there.
-/
namespace Petri
set_option autoImplicit false

structure Net where
  id : String
  label : Option String := none
  /-- Free texts that are kept for others to use. -/
  declarations : String := ""
  imports : String := ""
  implements : String := ""
  nodes : List Node := []
  arcs : List Arc := []
  numbering : Numbering := {}
  deriving DecidableEq

namespace Net

def places (net : Net) : List Place := net.nodes.filterMap Node.place?

def transitions (net : Net) : List Transition := net.nodes.filterMap Node.transition?

def inputArcs (net : Net) : List InputArc := net.arcs.filterMap Arc.input?

def outputArcs (net : Net) : List OutputArc := net.arcs.filterMap Arc.output?

def ids (net : Net) : List String := net.nodes.map Node.id ++ net.arcs.map Arc.id

def node? (net : Net) (id : String) : Option Node := net.nodes.find? fun n => n.id == id

def arc? (net : Net) (id : String) : Option Arc := net.arcs.find? fun a => a.id == id

def place? (net : Net) (id : String) : Option Place := (net.node? id).bind Node.place?

def transition? (net : Net) (id : String) : Option Transition :=
  (net.node? id).bind Node.transition?

def predicates (net : Net) : List String :=
  net.transitions.map Transition.guard ++ net.inputArcs.map InputArc.evaluate

def inscriptions (net : Net) : List String := net.arcs.map Arc.execute

/-- The input arcs of a transition, in the order in which they were added. -/
def inputsOf (net : Net) (transition : String) : List InputArc :=
  net.arcs.filterMap fun
    | .input a => if a.transition == transition then some a else none
    | .output _ => none

theorem inputsOf_eq_filter (net : Net) (transition : String) :
    net.inputsOf transition = net.inputArcs.filter fun a => a.transition == transition := by
  simp only [inputsOf, inputArcs, List.filter_filterMap]
  congr 1
  funext a
  cases a <;> simp [Arc.input?, Option.filter]

/-- The output arcs of a transition, in the order in which they were added. -/
def outputsOf (net : Net) (transition : String) : List OutputArc :=
  net.arcs.filterMap fun
    | .input _ => none
    | .output a => if a.transition == transition then some a else none

theorem outputsOf_eq_filter (net : Net) (transition : String) :
    net.outputsOf transition = net.outputArcs.filter fun a => a.transition == transition := by
  simp only [outputsOf, outputArcs, List.filter_filterMap]
  congr 1
  funext a
  cases a <;> simp [Arc.output?, Option.filter]

/-! ## Building -/

def requireFresh (net : Net) (id : String) : Except ConstructionError Unit :=
  if id ∈ net.ids then .error (.duplicateId id) else .ok ()

def requireNode (net : Net) (id : String) (kind : ElementKind) : Except ConstructionError Unit :=
  match net.node? id with
  | none => .error (.unknownElement id)
  | some n => if n.kind = kind then .ok () else .error (.wrongKind id kind)

def addPlace (net : Net) (p : Place) : Except ConstructionError Net := do
  net.requireFresh p.id
  return { net with nodes := net.nodes ++ [.place p] }

def addTransition (net : Net) (t : Transition) : Except ConstructionError Net := do
  net.requireFresh t.id
  return { net with nodes := net.nodes ++ [.transition t] }

def addInput (net : Net) (a : InputArc) : Except ConstructionError Net := do
  net.requireFresh a.id
  net.requireNode a.place .place
  net.requireNode a.transition .transition
  return { net with arcs := net.arcs ++ [.input a] }

def addOutput (net : Net) (a : OutputArc) : Except ConstructionError Net := do
  net.requireFresh a.id
  net.requireNode a.transition .transition
  net.requireNode a.place .place
  return { net with arcs := net.arcs ++ [.output a] }

/-- An identifier that no element has, nor any of `reserved`. -/
def freshId (net : Net) (kind : ElementKind) (reserved : List String := []) : String × Net :=
  let numbering := net.numbering.next kind (net.ids ++ reserved)
  (Numbering.numbered kind numbering.last, { net with numbering := numbering })

def restartNumbering (net : Net) : Net := { net with numbering := {} }

/-! ## Editing -/

def mapPlaces (net : Net) (f : Place → Place) : Net :=
  { net with nodes := net.nodes.map fun
      | .place p => .place (f p)
      | .transition t => .transition t }

def mapTransitions (net : Net) (f : Transition → Transition) : Net :=
  { net with nodes := net.nodes.map fun
      | .place p => .place p
      | .transition t => .transition (f t) }

def updatePlace (net : Net) (id : String) (f : Place → Place) : Net :=
  net.mapPlaces fun p => if p.id = id then f p else p

def updateTransition (net : Net) (id : String) (f : Transition → Transition) : Net :=
  net.mapTransitions fun t => if t.id = id then f t else t

def updateArc (net : Net) (id : String) (f : Arc → Arc) : Net :=
  { net with arcs := net.arcs.map fun a => if a.id = id then f a else a }

/-! ## Markings -/

def marking (net : Net) : List (String × TokenBag) := net.places.map fun p => (p.id, p.tokens)

def tokensAt (net : Net) (place : String) : TokenBag :=
  ((net.place? place).map Place.tokens).getD []

/-- The least time beyond `after` that a token of the net carries. -/
def earliestPending (net : Net) (after : Time) : Option Time :=
  (net.places.filterMap fun p => TokenBag.earliestPending after p.tokens).min?

end Net
end Petri
