import Petri.Text.Lines
import Petri.Text.Width

/-! # Tables

A table has a row of titles and rows of cells, all between rules. A column is as wide as its widest
line, and a row as high as its highest cell.
-/
namespace Petri
open Text
set_option autoImplicit false

inductive Alignment where
  | left | right
  deriving DecidableEq

structure Cell where
  text : String
  alignment : Alignment := .left
  deriving DecidableEq

structure Table where
  titles : List String
  rows : List (List Cell)
  deriving DecidableEq

namespace Cell

def right (text : String) : Cell := ⟨text, .right⟩

def left (text : String) : Cell := ⟨text, .left⟩

def lines (c : Cell) : List String := Text.lines c.text

def width (c : Cell) : Nat := (c.lines.map Text.width).foldl max 0

/-- A line of the cell in a column of this width; there are blanks below its last line. -/
def lineAt (c : Cell) (columnWidth n : Nat) : String :=
  let line := c.lines.getD n ""
  let blanks := String.ofList (List.replicate (columnWidth - Text.width line) ' ')
  match c.alignment with
  | .left => line ++ blanks
  | .right => blanks ++ line

end Cell

namespace Table

def titleCells (t : Table) : List Cell := t.titles.map Cell.left

def columnWidths (t : Table) : List Nat :=
  (List.range t.titles.length).map fun column =>
    ((t.titleCells :: t.rows).map fun row => ((row[column]?).map Cell.width).getD 0).foldl max 0

def rule (widths : List Nat) : String :=
  "+" ++ String.join (widths.map fun w => String.ofList (List.replicate (w + 2) '-') ++ "+") ++ "\n"

def rowHeight (row : List Cell) : Nat := (row.map fun c => c.lines.length).foldl max 1

def rowLine (widths : List Nat) (row : List Cell) (n : Nat) : String :=
  "|" ++ String.join (List.zipWith (fun w c => " " ++ Cell.lineAt c w n ++ " |") widths row) ++ "\n"

def rowText (widths : List Nat) (row : List Cell) : String :=
  String.join ((List.range (rowHeight row)).map (rowLine widths row))

def print (t : Table) : String :=
  let widths := t.columnWidths
  rule widths ++ rowText widths t.titleCells ++ rule widths ++
    String.join (t.rows.map (rowText widths)) ++ rule widths

end Table
end Petri
