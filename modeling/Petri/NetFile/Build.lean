import Petri.Net.Basic
import Petri.NetFile.Entry

/-! # The net that a file describes

Places and transitions are added in the order of their entries, then the arcs in theirs, so an arc
may stand before its ends. An arc without an identifier gets a numbered one that no element has and
that no arc of the file names.
-/
namespace Petri.NetFile
open Text
set_option autoImplicit false

inductive FileError where
  | malformed (reason : SyntaxError)
  | construction (cause : ConstructionError)
  | marking (place inscription : String) (cause : EvalError)
  | invalidAttribute (element name : String)
  deriving DecidableEq

def FileError.message : FileError → String
  | .malformed reason => reason.message
  | .construction cause => cause.message
  | .marking place inscription cause =>
    "Invalid initial marking `" ++ inscription ++ "` of place " ++ place ++ ": " ++ cause.message
  | .invalidAttribute element name =>
    "Output arc " ++ element ++ " cannot have an " ++ name ++ " attribute"

def constructed {α : Type} : Except ConstructionError α → Except FileError α
  | .ok a => .ok a
  | .error cause => .error (.construction cause)

variable (ev : Evaluator Id)

/-- The tokens of one initial-marking text. A token that is alone keeps the text. -/
def initialTokens (place text : String) : Except FileError TokenBag :=
  match ev.execute text ⟨0, place, some []⟩ with
  | .error cause => .error (.marking place text cause)
  | .ok [t] => .ok [{ t with text := some text }]
  | .ok tokens => .ok tokens

def addInitialTokens (p : Place) (inscriptions : List String) : Except FileError Place := do
  let made ← inscriptions.mapM (initialTokens ev p.id)
  return { p with tokens := p.tokens ++ made.flatten }

def addPlaceAttribute (p : Place) : PlaceAttribute → Except FileError Place
  | .label text => .ok { p with label := some text }
  | .capacity n => .ok { p with capacity := n }
  | .tokens inscriptions => addInitialTokens ev p inscriptions

def addTransitionAttribute (t : Transition) : TransitionAttribute → Transition
  | .label text => { t with label := some text }
  | .guard text => { t with guard := text }

def addInputAttribute (a : InputArc) : ArcAttribute → InputArc
  | .label text => { a with label := some text }
  | .evaluate text => { a with evaluate := text }
  | .execute text => { a with execute := text }

def addOutputAttribute (a : OutputArc) : ArcAttribute → Except FileError OutputArc
  | .label text => .ok { a with label := some text }
  | .execute text => .ok { a with execute := text }
  | .evaluate _ => .error (.invalidAttribute a.id "evaluate")

def addNode (net : Net) : Entry → Except FileError Net
  | .net id label => .ok { net with id := id, label := label }
  | .declarations text => .ok { net with declarations := text }
  | .imports text => .ok { net with imports := text }
  | .implements text => .ok { net with implements := text }
  | .place id attributes => do
    let p ← attributes.foldlM (addPlaceAttribute ev) { id := id }
    constructed (net.addPlace p)
  | .transition id attributes =>
    constructed (net.addTransition (attributes.foldl addTransitionAttribute { id := id }))
  | .input .. => .ok net
  | .output .. => .ok net

/-- The identifier that the entry of an arc gives it. -/
def Entry.arcId? : Entry → Option String
  | .input id .. => id
  | .output id .. => id
  | _ => none

/-- The identifier of an arc, made up if it has none. -/
def arcId (reserved : List String) (net : Net) (kind : ElementKind) :
    Option String → String × Net
  | some id => (id, net)
  | none => net.freshId kind reserved

def addArc (reserved : List String) (net : Net) : Entry → Except FileError Net
  | .input id place transition attributes =>
    let (id, net) := arcId reserved net .inputArc id
    constructed (net.addInput (attributes.foldl addInputAttribute
      { id := id, place := place, transition := transition }))
  | .output id transition place attributes => do
    let (id, net) := arcId reserved net .outputArc id
    let a ← attributes.foldlM addOutputAttribute
      { id := id, transition := transition, place := place }
    constructed (net.addOutput a)
  | _ => .ok net

def defaultName : String := "untitled"

def netOf (entries : List Entry) : Except FileError Net := do
  let nodes ← entries.foldlM (addNode ev) { id := defaultName }
  entries.foldlM (addArc (entries.filterMap Entry.arcId?)) nodes

def parse (text : String) : Except FileError Net :=
  match entriesOf text with
  | .error reason => .error (.malformed reason)
  | .ok entries => netOf ev entries

end Petri.NetFile
