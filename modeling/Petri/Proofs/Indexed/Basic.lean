import Mathlib
import Petri.Net.Firing

/-! # Nets with indexes

A net as it is kept for fast access. Nodes and edges are known by their positions: lists of positions
keep the order in which elements were added, each transition knows the edges at it, and tables find
the position of an identifier. No structure is derived from another, so every operation has to write
all that it concerns. An operation breaks off where a position leads nowhere or to a node of the
wrong kind; whether this ever happens is for proofs to say.
-/
namespace Petri
set_option autoImplicit false

structure Edge where
  source : Nat
  target : Nat
  arc : Arc

namespace Edge

/-- The end at which the place is. -/
def place (e : Edge) : Nat :=
  match e.arc with
  | .input _ => e.source
  | .output _ => e.target

def transition (e : Edge) : Nat :=
  match e.arc with
  | .input _ => e.target
  | .output _ => e.source

end Edge

/-- The edges at a transition. -/
structure Wiring where
  inputs : List Nat := []
  outputs : List Nat := []

structure IndexedNet where
  id : String
  label : Option String := none
  declarations : String := ""
  imports : String := ""
  implements : String := ""
  nodes : List Node := []
  edges : List Edge := []
  placeOrder : List Nat := []
  transitionOrder : List Nat := []
  inputOrder : List Nat := []
  outputOrder : List Nat := []
  wiring : Std.HashMap Nat Wiring := {}
  nodeTable : Std.HashMap String Nat := {}
  edgeTable : Std.HashMap String Nat := {}
  numbering : Numbering := {}

/-- What is done to a net with indexes: with an error or without, unless it breaks off. -/
abbrev Operation (ε : Type) : Type → Type := ExceptT ε (StateT IndexedNet Option)

namespace Operation
variable {ε α β : Type}

def on (op : Operation ε α) (net : IndexedNet) : Option (Except ε α × IndexedNet) :=
  op.run.run net

def look (f : IndexedNet → ExceptT ε Option α) : Operation ε α :=
  ExceptT.mk fun net => (f net).run.map fun answer => (answer, net)

theorem on_look (f : IndexedNet → ExceptT ε Option α) (net : IndexedNet) :
    (look f).on net = (f net).run.map fun answer => (answer, net) := rfl

theorem on_bind (op : Operation ε α) (f : α → Operation ε β) (net : IndexedNet) :
    (op >>= f).on net =
      match op.on net with
      | none => none
      | some (.error e, net) => some (.error e, net)
      | some (.ok a, net) => (f a).on net := by
  change Option.bind (op.on net) _ = _
  rcases op.on net with _ | ⟨_ | _, _⟩ <;> rfl

section LookFirst
variable {f : IndexedNet → ExceptT ε Option α} {rest : α → Operation ε β} {net : IndexedNet}

theorem look_bind_ok {a : α} (h : (f net).run = some (.ok a)) :
    (look f >>= rest).on net = (rest a).on net := by
  rw [on_bind, on_look, h]
  rfl

theorem look_bind_error {e : ε} (h : (f net).run = some (.error e)) :
    (look f >>= rest).on net = some (.error e, net) := by
  rw [on_bind, on_look, h]
  rfl

theorem look_lift_bind {g : IndexedNet → Option α} {a : α} (h : g net = some a) :
    (look (fun net => liftM (g net)) >>= rest).on net = (rest a).on net :=
  look_bind_ok (by rw [h]; rfl)

end LookFirst

theorem modify_bind (f : IndexedNet → IndexedNet) (rest : PUnit → Operation ε β)
    (net : IndexedNet) : ((modify f : Operation ε PUnit) >>= rest).on net = (rest ⟨⟩).on (f net) :=
  rfl

end Operation

namespace IndexedNet
open Operation

/-! ## Looking -/

section Looking
variable (net : IndexedNet)

/-- The net without its indexes. -/
def toNet : Net where
  id := net.id
  label := net.label
  declarations := net.declarations
  imports := net.imports
  implements := net.implements
  nodes := net.nodes
  arcs := net.edges.map Edge.arc
  numbering := net.numbering

@[simp] theorem toNet_nodes : net.toNet.nodes = net.nodes := rfl

@[simp] theorem toNet_arcs : net.toNet.arcs = net.edges.map Edge.arc := rfl

def element? (id : String) : Option (Option Node) :=
  match net.nodeTable[id]? with
  | none => some none
  | some ix => net.nodes[ix]?.map some

def arc? (id : String) : Option (Option Arc) :=
  match net.edgeTable[id]? with
  | none => some none
  | some ex => net.edges[ex]?.map fun e => some e.arc

def places : Option (List Place) :=
  (net.placeOrder.mapM fun ix => net.nodes[ix]?).map (List.filterMap Node.place?)

def transitions : Option (List Transition) :=
  (net.transitionOrder.mapM fun ix => net.nodes[ix]?).map (List.filterMap Node.transition?)

def arcsAt (edges : List Nat) : Option (List Arc) :=
  edges.mapM fun ex => net.edges[ex]?.map Edge.arc

def inputArcs : Option (List InputArc) :=
  (net.arcsAt net.inputOrder).map (List.filterMap Arc.input?)

def outputArcs : Option (List OutputArc) :=
  (net.arcsAt net.outputOrder).map (List.filterMap Arc.output?)

def wiringOf (transition : Nat) : Wiring := net.wiring[transition]?.getD {}

def placeAt (ex : Nat) : Option (Nat × Place) := do
  let e ← net.edges[ex]?
  let n ← net.nodes[e.place]?
  let p ← n.place?
  return (e.place, p)

def transitionAt (ix : Nat) : Option Transition := net.nodes[ix]?.bind Node.transition?

def locate (id : String) : ExceptT RunError Option Nat := do
  match net.nodeTable[id]? with
  | none => throw (.unknownTransition id)
  | some ix =>
    match ← (net.nodes[ix]? : Option Node) with
    | .place _ => throw (.unknownTransition id)
    | .transition _ => return ix

end Looking

/-! ## Building -/

def requireFresh (net : IndexedNet) (id : String) : ExceptT ConstructionError Option Unit :=
  if net.nodeTable.contains id || net.edgeTable.contains id then throw (.duplicateId id)
  else return ()

def requireNode (net : IndexedNet) (id : String) (kind : ElementKind) :
    ExceptT ConstructionError Option Nat := do
  match net.nodeTable[id]? with
  | none => throw (.unknownElement id)
  | some ix =>
    let n ← (net.nodes[ix]? : Option Node)
    if n.kind = kind then return ix else throw (.wrongKind id kind)

def addNode (n : Node) : Operation ConstructionError Nat :=
  modifyGet fun net => (net.nodes.length, { net with nodes := net.nodes ++ [n] })

def addEdge (e : Edge) : Operation ConstructionError Nat :=
  modifyGet fun net => (net.edges.length, { net with edges := net.edges ++ [e] })

def addPlace (p : Place) : Operation ConstructionError Nat := do
  look fun net => net.requireFresh p.id
  let ix ← addNode (.place p)
  modify fun net => { net with placeOrder := net.placeOrder ++ [ix] }
  modify fun net => { net with nodeTable := net.nodeTable.insert p.id ix }
  return ix

def addTransition (t : Transition) : Operation ConstructionError Nat := do
  look fun net => net.requireFresh t.id
  let ix ← addNode (.transition t)
  modify fun net => { net with transitionOrder := net.transitionOrder ++ [ix] }
  modify fun net => { net with wiring := net.wiring.insert ix {} }
  modify fun net => { net with nodeTable := net.nodeTable.insert t.id ix }
  return ix

def wire (net : IndexedNet) (transition : Nat) (f : Wiring → Wiring) : IndexedNet :=
  { net with wiring := net.wiring.insert transition (f (net.wiringOf transition)) }

def addInput (a : InputArc) : Operation ConstructionError Nat := do
  look fun net => net.requireFresh a.id
  let place ← look fun net => net.requireNode a.place .place
  let transition ← look fun net => net.requireNode a.transition .transition
  let ex ← addEdge ⟨place, transition, .input a⟩
  modify fun net => { net with inputOrder := net.inputOrder ++ [ex] }
  modify fun net => net.wire transition fun w => { w with inputs := w.inputs ++ [ex] }
  modify fun net => { net with edgeTable := net.edgeTable.insert a.id ex }
  return ex

def addOutput (a : OutputArc) : Operation ConstructionError Nat := do
  look fun net => net.requireFresh a.id
  let transition ← look fun net => net.requireNode a.transition .transition
  let place ← look fun net => net.requireNode a.place .place
  let ex ← addEdge ⟨transition, place, .output a⟩
  modify fun net => { net with outputOrder := net.outputOrder ++ [ex] }
  modify fun net => net.wire transition fun w => { w with outputs := w.outputs ++ [ex] }
  modify fun net => { net with edgeTable := net.edgeTable.insert a.id ex }
  return ex

def drawId (net : IndexedNet) (kind : ElementKind) : String × IndexedNet :=
  let numbering := net.numbering.next kind (net.nodeTable.keys ++ net.edgeTable.keys)
  (Numbering.numbered kind numbering.last, { net with numbering := numbering })

def restartNumbering (net : IndexedNet) : IndexedNet := { net with numbering := {} }

/-! ## Editing -/

/-- Edits a node of the right kind and says whether there is one. -/
def editNode (net : IndexedNet) (id : String) (f : Node → Option Node) :
    Option (Bool × IndexedNet) :=
  match net.nodeTable[id]? with
  | none => some (false, net)
  | some ix =>
    net.nodes[ix]?.map fun n =>
      match f n with
      | none => (false, net)
      | some n => (true, { net with nodes := net.nodes.set ix n })

def editPlace (net : IndexedNet) (id : String) (f : Place → Place) : Option (Bool × IndexedNet) :=
  net.editNode id fun n => n.place?.map fun p => .place (f p)

def editTransition (net : IndexedNet) (id : String) (f : Transition → Transition) :
    Option (Bool × IndexedNet) :=
  net.editNode id fun n => n.transition?.map fun t => .transition (f t)

def editArc (net : IndexedNet) (id : String) (f : Arc → Arc) : Option (Bool × IndexedNet) :=
  match net.edgeTable[id]? with
  | none => some (false, net)
  | some ex =>
    net.edges[ex]?.map fun e =>
      (true, { net with edges := net.edges.set ex { e with arc := f e.arc } })

/-! ## Enabled transitions -/

section Running
variable (ev : Evaluator Id) (net : IndexedNet) (transition : String) (clock : Time)

def accepts : List Nat → ExceptT RunError Option Bool
  | [] => return true
  | ex :: rest => do
    let e ← (net.edges[ex]? : Option Edge)
    let (_, place) ← net.placeAt ex
    let text ← ExceptT.mk (some e.arc.evaluate)
    let accepted ← Evaluator.ask transition (some e.arc.id) .evaluating
      (some (ev.evaluate text ⟨clock, transition, some place.tokens⟩))
    if accepted && TokenBag.ready clock place.tokens then accepts rest else return false

def headroom : List Nat → Option Bool
  | [] => return true
  | ex :: rest => do
    let (_, place) ← net.placeAt ex
    if place.headroom then headroom rest else return false

def enabled : ExceptT RunError Option Bool := do
  let tx ← net.locate transition
  let t ← net.transitionAt tx
  let holds ← Evaluator.ask transition none .evaluating
    (some (ev.evaluate t.guard ⟨clock, transition, none⟩))
  if holds then
    if ← net.accepts ev transition clock (net.wiringOf tx).inputs then
      net.headroom (net.wiringOf tx).outputs
    else return false
  else return false

/-! ## Firing -/

/-- Copies of the tokens at places. -/
abbrev Drafts := Std.HashMap Nat TokenBag

def consume : List Nat → Drafts → ExceptT RunError Option (List Movement × Drafts)
  | [], drafts => return ([], drafts)
  | ex :: rest, drafts => do
    let e ← (net.edges[ex]? : Option Edge)
    let (px, place) ← net.placeAt ex
    let tokens := drafts[px]?.getD place.tokens
    let request ← Evaluator.ask transition (some e.arc.id) .consuming
      (some (ev.execute e.arc.execute ⟨clock, transition, some tokens⟩))
    match TokenBag.withdraw request clock tokens with
    | none => throw (.insufficientTokens transition place.id request.length clock)
    | some (taken, left) =>
      let (moved, drafts) ← consume rest (drafts.insert px left)
      return (⟨e.arc.id, place.id, e.arc.execute, taken⟩ :: moved, drafts)

def produce : List Nat → Drafts → ExceptT RunError Option (List Movement × Drafts)
  | [], drafts => return ([], drafts)
  | ex :: rest, drafts => do
    let e ← (net.edges[ex]? : Option Edge)
    let (px, place) ← net.placeAt ex
    let tokens := drafts[px]?.getD place.tokens
    let made ← Evaluator.ask transition (some e.arc.id) .producing
      (some (ev.execute e.arc.execute ⟨clock, transition, some tokens⟩))
    match TokenBag.shift clock made with
    | none => throw (.timeOverflow transition e.arc.id)
    | some fresh =>
      if place.fits (tokens.length + fresh.length) then
        let (moved, drafts) ← produce rest (drafts.insert px (tokens ++ fresh))
        return (⟨e.arc.id, place.id, e.arc.execute, fresh⟩ :: moved, drafts)
      else throw (.capacityExceeded transition place.id place.capacity)

/-- Gives places the tokens of their copies. -/
def giveBack : List (Nat × TokenBag) → List Node → Option (List Node)
  | [], nodes => some nodes
  | (px, tokens) :: rest, nodes => do
    match ← nodes[px]? with
    | .place p => giveBack rest (nodes.set px (.place { p with tokens := tokens }))
    | .transition _ => giveBack rest nodes

def transfer (moved : Movement) : Option Transfer := do
  let n ← net.element? moved.place
  return { moved with marking := ((n.bind Node.place?).map fun p => p.tokens.length).getD 0 }

/-- Gives the copies back, notes the clock and reports what was moved. -/
def commit (tx : Nat) (consumed produced : List Movement) (drafts : Drafts) :
    Operation RunError Firing := do
  let nodes ← look fun net => liftM (giveBack drafts.toList net.nodes)
  modify fun net => { net with nodes := nodes }
  let t ← look fun net => liftM (net.transitionAt tx)
  modify fun net => { net with
    nodes := net.nodes.set tx (.transition { t with lastFired := clock }) }
  let consumed ← look fun net => liftM (List.mapM net.transfer consumed)
  let produced ← look fun net => liftM (List.mapM net.transfer produced)
  return {
    transition := transition
    label := t.shown
    clock := clock
    consumed := consumed
    produced := produced }

def fire : Operation RunError Firing := do
  let tx ← look fun net => net.locate transition
  let (consumed, drafts) ← look fun net =>
    net.consume ev transition clock (net.wiringOf tx).inputs ∅
  let (produced, drafts) ← look fun net =>
    net.produce ev transition clock (net.wiringOf tx).outputs drafts
  commit transition clock tx consumed produced drafts

end Running
end IndexedNet
end Petri
