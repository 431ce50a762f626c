/-! # Lines

A text is cut into lines at its line feeds; a carriage return right before a line feed belongs to
it. What stands after the last line feed is a line unless it is empty.
-/
namespace Petri.Text
set_option autoImplicit false

def dropReturn (cs : List Char) : List Char :=
  if cs.getLast? = some '\r' then cs.dropLast else cs

/-- The lines of a text whose first line has begun with `start`, latest character first. -/
def linesFrom (start : List Char) : List Char → List (List Char)
  | [] => if start.isEmpty then [] else [start.reverse]
  | c :: cs =>
    if c = '\n' then dropReturn start.reverse :: linesFrom [] cs else linesFrom (c :: start) cs

def lines (text : String) : List String := (linesFrom [] text.toList).map String.ofList

end Petri.Text
