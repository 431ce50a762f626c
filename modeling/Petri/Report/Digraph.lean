import Petri.Net.Basic

/-! # Drawings

The graph of a net in the language of graph drawing programs. Nodes have the numbers in which they
were added; an edge goes from a place to a transition along an input arc and back along an output
arc.
-/
namespace Petri.Digraph
set_option autoImplicit false

/-- Quotes and backslashes are escaped, and a line feed ends a line that is set to the left. -/
def escapeChar (c : Char) : List Char :=
  if c = '"' ∨ c = '\\' then ['\\', c]
  else if c = '\n' then ['\\', 'l']
  else [c]

def label (text : String) : String :=
  " [ label = \"" ++ String.ofList (text.toList.flatMap escapeChar) ++ "\" ]\n"

def nodeNumber (net : Net) (id : String) : Nat := net.nodes.findIdx fun n => n.id == id

def nodeLine (number : Nat) (n : Node) : String := s!"    {number}" ++ label n.caption

def edgeLine (net : Net) (a : Arc) : String :=
  let place := nodeNumber net a.place
  let transition := nodeNumber net a.transition
  match a with
  | .input _ => s!"    {place} -> {transition}" ++ label a.execute
  | .output _ => s!"    {transition} -> {place}" ++ label a.execute

def print (net : Net) : String :=
  "digraph \x7b\n" ++ String.join (net.nodes.mapIdx nodeLine) ++
    String.join (net.arcs.map (edgeLine net)) ++ "\x7d\n"

end Petri.Digraph
