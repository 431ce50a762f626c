import Petri.Net.Basic
import Petri.Text.Quoted

/-! # Writing net files

The text of a net: its name and free texts, then places, transitions, input arcs and output arcs,
one on a line. What is as it would be by default is left out. The tokens of a place are written as
initial-marking texts, so a net is written with its marking.
-/
namespace Petri.NetFile
open Text
set_option autoImplicit false

/-- A keyword and a quoted text behind a blank. -/
def attributeText (keyword text : String) : String :=
  " " ++ keyword ++ " " ++ Quoted.quote text

def labelText (label : Option String) : String :=
  (label.map (attributeText "label")).getD ""

/-- An attribute that is left out when it has its default. -/
def attributeUnless (default keyword text : String) : String :=
  if text = default then "" else attributeText keyword text

/-- An inscription that makes the token. -/
def tokenText (t : Token) : String :=
  match t.text with
  | some text => text
  | none => if t.timed then t.value.literal ++ s!"@{t.time}" else t.value.literal

def placeLine (p : Place) : String :=
  "place " ++ p.id ++ labelText p.label ++
    (if p.bounded then s!" capacity {p.capacity}" else "") ++
    (if p.tokens.isEmpty then ""
      else " tokens [" ++
        String.intercalate ", " (p.tokens.map fun t => Quoted.quote (tokenText t)) ++ "]") ++
    ";\n"

def transitionLine (t : Transition) : String :=
  "transition " ++ t.id ++ labelText t.label ++ attributeUnless defaultGuard "guard" t.guard ++
    ";\n"

def inputLine (a : InputArc) : String :=
  "input " ++ a.id ++ " " ++ a.place ++ " -> " ++ a.transition ++ labelText a.label ++
    attributeUnless defaultEvaluate "evaluate" a.evaluate ++
    attributeUnless defaultExecute "execute" a.execute ++ ";\n"

def outputLine (a : OutputArc) : String :=
  "output " ++ a.id ++ " " ++ a.transition ++ " -> " ++ a.place ++ labelText a.label ++
    attributeUnless defaultExecute "execute" a.execute ++ ";\n"

def freeTextLine (keyword text : String) : String :=
  if text = "" then "" else keyword ++ " " ++ Quoted.quote text ++ ";\n"

def lines (net : Net) : List String :=
  ["net " ++ net.id ++ labelText net.label ++ ";\n",
   freeTextLine "declarations" net.declarations,
   freeTextLine "imports" net.imports,
   freeTextLine "implements" net.implements] ++
  net.places.map placeLine ++ net.transitions.map transitionLine ++
  net.inputArcs.map inputLine ++ net.outputArcs.map outputLine

def print (net : Net) : String := String.join (lines net)

end Petri.NetFile
