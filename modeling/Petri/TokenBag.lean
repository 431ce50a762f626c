import Petri.Token

/-! # Bags of tokens

The tokens of a place, in the order in which they arrived. Everything that the firing rule asks of a
place's tokens is here: the gate of timed arcs, shifting in time, and payload-guided withdrawal.
-/
namespace Petri
set_option autoImplicit false

abbrev TokenBag := List Token

namespace TokenBag

/-- The gate of input arcs: all tokens are untimed, or one of them is available. An empty bag
passes. -/
def ready (clock : Time) (bag : TokenBag) : Bool :=
  bag.all (fun t => !t.timed) || bag.any (Token.available clock)

def available (clock : Time) (bag : TokenBag) : Nat :=
  bag.countP (Token.available clock)

/-- The least time beyond `after` that a token of the bag carries. -/
def earliestPending (after : Time) (bag : TokenBag) : Option Time :=
  ((bag.map Token.time).filter (fun time => decide (after < time))).min?

/-- Moves every timed token `delta` later; there is no result when one of them would reach the time
limit. -/
def shift (delta : Time) (bag : TokenBag) : Option TokenBag :=
  if bag.all (fun t => !t.timed || decide (t.time + delta < Time.limit)) then
    some (bag.map fun t => if t.timed then { t with time := t.time + delta } else t)
  else none

/-- Where the token stands that is taken for a wanted payload: the first available token with that
payload, or else the first available token. -/
def choose (clock : Time) (wanted : Value) (bag : TokenBag) : Option Nat :=
  (bag.findIdx? fun t => t.available clock && t.value == wanted).or
    (bag.findIdx? (Token.available clock))

/-- Takes one available token for each payload of the request, in order. The result is what was
taken and what is left; there is none when the available tokens do not last. -/
def withdraw (request : TokenBag) (clock : Time) (bag : TokenBag) :
    Option (TokenBag × TokenBag) :=
  go request bag []
where
  /-- The second argument is what is left so far, the third what was taken, latest first. -/
  go : TokenBag → TokenBag → TokenBag → Option (TokenBag × TokenBag)
    | [], left, taken => some (taken.reverse, left)
    | wanted :: rest, left, taken =>
      match choose clock wanted.value left with
      | none => none
      | some i => go rest (left.eraseIdx i) (left[i]?.toList ++ taken)

def display (bag : TokenBag) : String :=
  "[" ++ String.intercalate ", " (bag.map Token.display) ++ "]"

end TokenBag
end Petri
