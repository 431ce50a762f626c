import Petri.NetFile.Terminal

/-! # Entries of net files

A net file is a sequence of entries, each ended by a semicolon. This module holds the entries and
reads them; what net they describe is decided elsewhere.
-/
namespace Petri.NetFile
open Text
set_option autoImplicit false

inductive PlaceAttribute where
  | label (text : String)
  | capacity (n : Nat)
  | tokens (inscriptions : List String)
  deriving DecidableEq

inductive TransitionAttribute where
  | label (text : String)
  | guard (text : String)
  deriving DecidableEq

inductive ArcAttribute where
  | label (text : String)
  | evaluate (text : String)
  | execute (text : String)
  deriving DecidableEq

inductive Entry where
  | net (id : String) (label : Option String)
  | declarations (text : String)
  | imports (text : String)
  | implements (text : String)
  | place (id : String) (attributes : List PlaceAttribute)
  | transition (id : String) (attributes : List TransitionAttribute)
  | input (id : Option String) (place transition : String) (attributes : List ArcAttribute)
  | output (id : Option String) (transition place : String) (attributes : List ArcAttribute)
  deriving DecidableEq

abbrev Lexemes := List (Lexeme Terminal)

/-- Reads something from the head of the lexemes and leaves the rest. -/
abbrev Reader := StateT Lexemes (Except SyntaxError)

variable (ending : Ending)

/-- Cannot go on with the lexemes that are left. -/
def refuse {α : Type} : Reader α := fun ls => .error (unexpected ending ls)

def readTerminal (t : Terminal) : Reader Unit
  | [] => .error ending.error
  | l :: ls => if l.terminal = t then .ok ((), ls) else refuse ending (l :: ls)

def readName : Reader String
  | ⟨.name word, _, _⟩ :: ls => .ok (String.ofList word, ls)
  | ls => refuse ending ls

def readText : Reader String
  | ⟨.quoted body, _, _⟩ :: ls => .ok (String.ofList (Quoted.unescape body), ls)
  | ls => refuse ending ls

/-- Capacities have 64 bits. -/
def capacityLimit : Nat := 0x10000000000000000

def closesCapacity : Terminal → Bool
  | .semicolon | .keyword .label | .keyword .capacity | .keyword .tokens => true
  | _ => false

/-- The error of a capacity that is too large. Its range is looked at only when what follows can
follow a capacity. -/
def capacityError : Lexemes → SyntaxError
  | [] => ending.error
  | l :: ls =>
    if closesCapacity l.terminal then .outOfRange "capacity" else unexpected ending (l :: ls)

def readCapacity : Reader Nat
  | ⟨.numeral digits, _, _⟩ :: ls =>
    let n := Nat.ofDigitChars 10 digits 0
    if n < capacityLimit then .ok (n, ls) else .error (capacityError ending ls)
  | ls => refuse ending ls

/-- Strings between commas up to a closing bracket; one comma may stand before it. -/
def readTexts : Reader (List String)
  | ⟨.closeBracket, _, _⟩ :: ls => .ok ([], ls)
  | ⟨.quoted body, _, _⟩ :: ⟨.closeBracket, _, _⟩ :: ls =>
    .ok ([String.ofList (Quoted.unescape body)], ls)
  | ⟨.quoted body, _, _⟩ :: ⟨.comma, _, _⟩ :: ls => do
    let (texts, rest) ← readTexts ls
    return (String.ofList (Quoted.unescape body) :: texts, rest)
  | ⟨.quoted _, _, _⟩ :: ls => refuse ending ls
  | ls => refuse ending ls

/-- Attributes up to a semicolon. `readOne` reads what follows the keyword of an attribute. Each
attribute takes a lexeme at least. -/
def readAttributesFrom {α : Type} (readOne : Keyword → Option (Reader α)) : Nat → Reader (List α)
  | 0, ls => refuse ending ls
  | _ + 1, ⟨.semicolon, _, _⟩ :: ls => .ok ([], ls)
  | fuel + 1, ⟨.keyword k, spelling, start⟩ :: ls =>
    match readOne k with
    | none => refuse ending (⟨.keyword k, spelling, start⟩ :: ls)
    | some read => do
      let (one, rest) ← read ls
      let (others, rest) ← readAttributesFrom readOne fuel rest
      return (one :: others, rest)
  | _ + 1, ls => refuse ending ls

def readAttributes {α : Type} (readOne : Keyword → Option (Reader α)) : Reader (List α) :=
  fun ls => readAttributesFrom ending readOne (ls.length + 1) ls

def placeAttribute : Keyword → Option (Reader PlaceAttribute)
  | .label => some (.label <$> readText ending)
  | .capacity => some (.capacity <$> readCapacity ending)
  | .tokens => some do
    readTerminal ending .openBracket
    .tokens <$> readTexts ending
  | _ => none

def transitionAttribute : Keyword → Option (Reader TransitionAttribute)
  | .label => some (.label <$> readText ending)
  | .guard => some (.guard <$> readText ending)
  | _ => none

def arcAttribute : Keyword → Option (Reader ArcAttribute)
  | .label => some (.label <$> readText ending)
  | .evaluate => some (.evaluate <$> readText ending)
  | .execute => some (.execute <$> readText ending)
  | _ => none

def readLabel : Reader (Option String)
  | ⟨.keyword .label, _, _⟩ :: ls => (some <$> readText ending) ls
  | ls => .ok (none, ls)

/-- The name after which an arc goes on with its ends, if the first name is its identifier. -/
def readSource (first : String) : Reader (Option String × String)
  | ⟨.name word, _, _⟩ :: ls => .ok ((some first, String.ofList word), ls)
  | ls => .ok ((none, first), ls)

/-- The identifier of an arc, if it has one, and its ends around the arrow. -/
def readEnds : Reader (Option String × String × String) := do
  let first ← readName ending
  let (id, source) ← readSource first
  readTerminal ending .arrow
  let target ← readName ending
  return (id, source, target)

def readFreeText : Reader String := do
  let text ← readText ending
  readTerminal ending .semicolon
  return text

def readEntry : Keyword → Option (Reader Entry)
  | .net => some do
    let id ← readName ending
    let label ← readLabel ending
    readTerminal ending .semicolon
    return .net id label
  | .declarations => some (.declarations <$> readFreeText ending)
  | .imports => some (.imports <$> readFreeText ending)
  | .implements => some (.implements <$> readFreeText ending)
  | .place => some do
    let id ← readName ending
    .place id <$> readAttributes ending (placeAttribute ending)
  | .transition => some do
    let id ← readName ending
    .transition id <$> readAttributes ending (transitionAttribute ending)
  | .input => some do
    let (id, place, transition) ← readEnds ending
    .input id place transition <$> readAttributes ending (arcAttribute ending)
  | .output => some do
    let (id, transition, place) ← readEnds ending
    .output id transition place <$> readAttributes ending (arcAttribute ending)
  | _ => none

/-- Entries up to the end of the text. Each takes a lexeme at least. -/
def readEntries : Nat → Lexemes → Except SyntaxError (List Entry)
  | _, [] =>
    match ending with
    | .text _ => .ok []
    | .invalid offset => .error (.invalid offset)
  | fuel + 1, ⟨.keyword k, spelling, start⟩ :: ls =>
    match readEntry ending k with
    | none => .error (unexpected ending (⟨.keyword k, spelling, start⟩ :: ls))
    | some read => do
      let (entry, rest) ← read ls
      let entries ← readEntries fuel rest
      return entry :: entries
  | _, ls => .error (unexpected ending ls)

def entriesOf (text : String) : Except SyntaxError (List Entry) :=
  let lexed := lexicon.scan text.toList
  readEntries lexed.ending lexed.lexemes.length lexed.lexemes

end Petri.NetFile
