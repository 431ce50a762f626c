import Petri.Text.Classes
import Petri.Text.MarkRanges
import Petri.Text.WideRanges

/-! # Columns

How many columns of a terminal a character takes by itself: wide ones two, marks none, all others
one, control characters too.
-/
namespace Petri.Text
set_option autoImplicit false

def isWide (c : Char) : Bool := isWithin wideRanges c

def isMark (c : Char) : Bool := isWithin markRanges c

/-- The characters below the blank, and those from the delete character on up to `0x9F`. -/
def isControl (c : Char) : Bool := isWithin [(0x00, 0x1F), (0x7F, 0x9F)] c

/-- The one character that takes three columns is a sign of Khmer. -/
def columns (c : Char) : Nat :=
  if isWide c then 2 else if isMark c then 0 else if c = '\u17d8' then 3 else 1

end Petri.Text
