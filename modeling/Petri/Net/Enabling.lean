import Petri.Net.Basic

/-! # Enabled transitions

A transition is enabled when its guard holds, when the tokens of each input place pass the time gate
and the predicate of the arc, and when each output place has room for one more token. The questions
go to the evaluator in this order, and none is asked after the first that fails.
-/
namespace Petri
set_option autoImplicit false

variable {m : Type → Type} [Monad m]

/-- The answer to a question, its error attributed to a transition and an arc. -/
def Evaluator.ask {α : Type} (transition : String) (arc : Option String) (phase : Phase)
    (answer : m (Except EvalError α)) : ExceptT RunError m α :=
  ExceptT.mk do
    match ← answer with
    | .ok a => return .ok a
    | .error cause => return .error (.evaluation transition arc phase cause)

namespace Net

def accepts (ev : Evaluator m) (net : Net) (transition : String) (clock : Time) :
    List InputArc → ExceptT RunError m Bool
  | [] => return true
  | a :: rest => do
    let tokens := net.tokensAt a.place
    let accepted ← Evaluator.ask transition (some a.id) .evaluating
      (ev.evaluate a.evaluate ⟨clock, transition, some tokens⟩)
    if accepted && TokenBag.ready clock tokens then accepts ev net transition clock rest
    else return false

/-- Whether each output place of a transition has room for one more token. -/
def headroom (net : Net) (transition : String) : Bool :=
  (net.outputsOf transition).all fun a => (net.place? a.place).all Place.headroom

def enabled (ev : Evaluator m) (net : Net) (transition : String) (clock : Time) :
    ExceptT RunError m Bool := do
  match net.transition? transition with
  | none => throw (.unknownTransition transition)
  | some t =>
    let holds ← Evaluator.ask transition none .evaluating
      (ev.evaluate t.guard ⟨clock, transition, none⟩)
    if holds then
      let accepted ← net.accepts ev transition clock (net.inputsOf transition)
      return accepted && net.headroom transition
    else return false

def selectEnabled (ev : Evaluator m) (net : Net) (clock : Time) :
    List Transition → ExceptT RunError m (List String)
  | [] => return []
  | t :: rest => do
    let isEnabled ← net.enabled ev t.id clock
    let others ← selectEnabled ev net clock rest
    return if isEnabled then t.id :: others else others

def enabledTransitions (ev : Evaluator m) (net : Net) (clock : Time) :
    ExceptT RunError m (List String) :=
  net.selectEnabled ev clock net.transitions

/-- Whether none of some transitions is enabled at clock 0. The first that is ends the search. -/
def noneEnabled (ev : Evaluator m) (net : Net) : List Transition → ExceptT RunError m Bool
  | [] => return true
  | t :: rest => do
    if ← net.enabled ev t.id 0 then return false else noneEnabled ev net rest

def isDead (ev : Evaluator m) (net : Net) : ExceptT RunError m Bool :=
  net.noneEnabled ev net.transitions

end Net
end Petri
