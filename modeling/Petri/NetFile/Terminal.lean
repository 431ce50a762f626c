import Petri.Text.Classes
import Petri.Text.Lexeme
import Petri.Text.Quoted

/-! # Terminals of net files -/
namespace Petri.NetFile
open Text
set_option autoImplicit false

inductive Keyword where
  | net | declarations | imports | implements
  | place | transition | input | output
  | label | capacity | tokens | guard | evaluate | execute
  deriving DecidableEq

namespace Keyword

def all : List Keyword :=
  [net, declarations, imports, implements, place, transition, input, output,
   label, capacity, tokens, guard, evaluate, execute]

def spelling : Keyword → String
  | net => "net"
  | declarations => "declarations"
  | imports => "imports"
  | implements => "implements"
  | place => "place"
  | transition => "transition"
  | input => "input"
  | output => "output"
  | label => "label"
  | capacity => "capacity"
  | tokens => "tokens"
  | guard => "guard"
  | evaluate => "evaluate"
  | execute => "execute"

def ofWord (word : List Char) : Option Keyword :=
  all.find? fun k => k.spelling.toList == word

end Keyword

inductive Terminal where
  | keyword (k : Keyword)
  | semicolon | arrow | openBracket | closeBracket | comma
  | numeral (digits : List Char)
  /-- A string; `body` is what stands between the quotes. -/
  | quoted (body : List Char)
  | name (word : List Char)
  deriving DecidableEq

namespace Terminal

def spelling : Terminal → List Char
  | keyword k => k.spelling.toList
  | semicolon => [';']
  | arrow => ['-', '>']
  | openBracket => ['[']
  | closeBracket => [']']
  | comma => [',']
  | numeral digits => digits
  | quoted body => '"' :: body ++ ['"']
  | name word => word

/-- Names may have dots in them. -/
def isNamePart (c : Char) : Bool := isWordPart c || c == '.'

/-- A word is a name unless it is a keyword. -/
def ofWord (word : List Char) : Terminal :=
  match Keyword.ofWord word with
  | some k => keyword k
  | none => name word

def read : List Char → Option Terminal
  | [] => none
  | c :: cs =>
    match c, cs with
    | ';', _ => some semicolon
    | '-', '>' :: _ => some arrow
    | '[', _ => some openBracket
    | ']', _ => some closeBracket
    | ',', _ => some comma
    | '"', _ => (Quoted.body cs).map quoted
    | _, _ =>
      if c.isDigit then some (numeral (c :: cs.takeWhile Char.isDigit))
      else if isWordStart c then some (ofWord (c :: cs.takeWhile isNamePart))
      else none

end Terminal

/-- White space and comments at the head of a text. A comment goes from `#` to the end of its
line. -/
def gap (inComment : Bool) : List Char → List Char
  | [] => []
  | c :: cs =>
    if inComment then c :: gap (c != '\n' && c != '\r') cs
    else if isBlank c then c :: gap false cs
    else if c = '#' then c :: gap true cs
    else []

def lexicon : Lexicon Terminal where
  gap := gap false
  read := Terminal.read
  spelling := Terminal.spelling

end Petri.NetFile
