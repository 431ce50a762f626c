import Petri.Text.Sequence

/-! # Width

How many columns of a terminal a text takes. A colour sequence begins with an escape character and a
bracket and ends with the next `m`; what stands in it is not shown, but its escape character counts.
-/
namespace Petri.Text
set_option autoImplicit false

/-- Where a text stands with respect to colour sequences. -/
inductive ColourState where
  | outside
  | escaped
  | inside
  deriving DecidableEq

/-- Whether a character in a colour sequence would take columns outside of it. -/
def isHidden (c : Char) : Bool := !isControl c && decide (0 < columns c)

/-- The columns of the characters in colour sequences, each counted as one. -/
def hiddenFrom : ColourState → List Char → Nat
  | _, [] => 0
  | .outside, c :: cs => hiddenFrom (if c = '\x1b' then .escaped else .outside) cs
  | .escaped, c :: cs => if c = '[' then 1 + hiddenFrom .inside cs else hiddenFrom .outside cs
  | .inside, c :: cs =>
    (if isHidden c then 1 else 0) + hiddenFrom (if c = 'm' then .outside else .inside) cs

def width (text : String) : Nat :=
  sequenceColumns text.toList - hiddenFrom .outside text.toList

end Petri.Text
