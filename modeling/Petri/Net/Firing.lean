import Petri.Net.Enabling

/-! # Firing

Firing a transition first takes tokens along each of its input arcs and then makes tokens along each
of its output arcs, on copies of the places concerned. The net changes only when every step has
succeeded.
-/
namespace Petri
set_option autoImplicit false

structure Movement where
  arc : String
  place : String
  inscription : String
  tokens : TokenBag
  deriving DecidableEq

structure Transfer extends Movement where
  /-- The number of tokens at the place after the firing. -/
  marking : Nat
  deriving DecidableEq

structure Firing where
  transition : String
  label : String
  clock : Time
  consumed : List Transfer
  produced : List Transfer
  deriving DecidableEq

/-- Copies of the places that a firing has touched, by identifier. -/
abbrev Scratch := List (String × TokenBag)

namespace Scratch

/-- The tokens at a place as the firing has left them so far. -/
def tokensAt (scratch : Scratch) (net : Net) (place : String) : TokenBag :=
  (scratch.lookup place).getD (net.tokensAt place)

def put (scratch : Scratch) (place : String) (tokens : TokenBag) : Scratch :=
  (place, tokens) :: scratch

end Scratch

namespace Net
variable {m : Type → Type} [Monad m]

def consume (ev : Evaluator m) (net : Net) (transition : String) (clock : Time) :
    List InputArc → Scratch → ExceptT RunError m (List Movement × Scratch)
  | [], scratch => return ([], scratch)
  | a :: rest, scratch => do
    let tokens := scratch.tokensAt net a.place
    let request ← Evaluator.ask transition (some a.id) .consuming
      (ev.execute a.execute ⟨clock, transition, some tokens⟩)
    match TokenBag.withdraw request clock tokens with
    | none => throw (.insufficientTokens transition a.place request.length clock)
    | some (taken, left) =>
      let (moved, scratch) ← consume ev net transition clock rest (scratch.put a.place left)
      return (⟨a.id, a.place, a.execute, taken⟩ :: moved, scratch)

def produce (ev : Evaluator m) (net : Net) (transition : String) (clock : Time) :
    List OutputArc → Scratch → ExceptT RunError m (List Movement × Scratch)
  | [], scratch => return ([], scratch)
  | a :: rest, scratch => do
    let tokens := scratch.tokensAt net a.place
    let made ← Evaluator.ask transition (some a.id) .producing
      (ev.execute a.execute ⟨clock, transition, some tokens⟩)
    match TokenBag.shift clock made with
    | none => throw (.timeOverflow transition a.id)
    | some fresh =>
      if (net.place? a.place).all fun p => p.fits (tokens.length + fresh.length) then
        let (moved, scratch) ← produce ev net transition clock rest
          (scratch.put a.place (tokens ++ fresh))
        return (⟨a.id, a.place, a.execute, fresh⟩ :: moved, scratch)
      else
        throw (.capacityExceeded transition a.place
          (((net.place? a.place).map Place.capacity).getD 0))

/-- Gives each copied place the tokens of its copy and notes when the transition fired. -/
def commit (net : Net) (scratch : Scratch) (transition : String) (clock : Time) : Net :=
  (net.mapPlaces fun p => { p with tokens := (scratch.lookup p.id).getD p.tokens }).updateTransition
    transition fun t => { t with lastFired := clock }

def transfer (net : Net) (moved : Movement) : Transfer :=
  { moved with marking := (net.tokensAt moved.place).length }

def fire (ev : Evaluator m) (net : Net) (transition : String) (clock : Time) :
    ExceptT RunError m (Firing × Net) := do
  match net.transition? transition with
  | none => throw (.unknownTransition transition)
  | some t =>
    let (consumed, scratch) ← net.consume ev transition clock (net.inputsOf transition) []
    let (produced, scratch) ← net.produce ev transition clock (net.outputsOf transition) scratch
    let after := net.commit scratch transition clock
    return ({
      transition := transition
      label := t.shown
      clock := clock
      consumed := consumed.map after.transfer
      produced := produced.map after.transfer }, after)

end Net
end Petri
