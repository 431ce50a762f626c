import Petri.Net.Firing

/-! # Events

What a simulation reports. A firing is reported by the tokens it took, that it took place, and the
tokens it made, all under one firing number.
-/
namespace Petri
set_option autoImplicit false

inductive Outcome where
  /-- Nothing is enabled, even after the clock has moved once. -/
  | dead
  | stopped
  | firingLimit
  deriving DecidableEq

namespace Outcome

def name : Outcome → String
  | dead => "Dead"
  | stopped => "Stopped"
  | firingLimit => "FiringLimit"

def message : Outcome → String
  | dead => "Deadlock."
  | stopped => "Stopped."
  | firingLimit => "Firing limit reached."

end Outcome

/-- A transfer as it is reported, its tokens by what people read. -/
structure TransferReport where
  arc : String
  place : String
  inscription : String
  tokens : List String
  marking : Nat
  deriving DecidableEq

def Transfer.report (t : Transfer) : TransferReport :=
  ⟨t.arc, t.place, t.inscription, t.tokens.map Token.display, t.marking⟩

inductive Event where
  | consumed (firing : Nat) (clock : Time) (transition : String) (transfer : TransferReport)
  | fired (firing : Nat) (clock : Time) (transition label : String)
  | produced (firing : Nat) (clock : Time) (transition : String) (transfer : TransferReport)
  | clockAdvanced (start stop : Time)
  | finished (clock : Time) (firings : Nat) (outcome : Outcome)
  deriving DecidableEq

namespace Event

def ofFiring (number : Nat) (f : Firing) : List Event :=
  f.consumed.map (fun t => consumed number f.clock f.transition t.report) ++
    [fired number f.clock f.transition f.label] ++
    f.produced.map (fun t => produced number f.clock f.transition t.report)

end Event
end Petri
