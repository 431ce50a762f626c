import Petri.Value

/-! # Tokens

A token is a payload with a logical time. Time `0` marks an untimed token, which is there at every
clock value; any other token becomes available when the clock reaches its time.
-/
namespace Petri
set_option autoImplicit false

/-- Logical time. `0` on a token means that the token is untimed. -/
abbrev Time := Nat

/-- Every clock and token time lies below this bound. -/
def Time.limit : Nat := 0x10000000000000000

structure Token where
  value : Value
  time : Time := 0
  /-- The initial-marking text that the token was made from. -/
  text : Option String := none
  deriving DecidableEq, Inhabited

namespace Token

def timed (t : Token) : Bool := t.time != 0

def available (clock : Time) (t : Token) : Bool := decide (t.time ≤ clock)

/-- Payload and time agree; the text does not count. -/
def Interchangeable (a b : Token) : Prop := a.value = b.value ∧ a.time = b.time

instance (a b : Token) : Decidable (Interchangeable a b) :=
  inferInstanceAs (Decidable (_ ∧ _))

/-- What people read: a text other than `""` stands for the token, else the payload does, followed
by the time of a timed token. -/
def display (t : Token) : String :=
  match t.text with
  | some text => if text = "" then bare else text
  | none => bare
where
  bare : String := if t.timed then t.value.plain ++ " " ++ toString t.time else t.value.plain

end Token
end Petri
