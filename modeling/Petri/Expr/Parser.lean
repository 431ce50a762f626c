import Petri.Expr.Syntax
import Petri.Expr.Terminal

/-! # Reading expressions

From loosest to tightest the levels are `||`, `&&`, one comparison, `+ -`, `* / %`, prefix `! -` and
the terms. Operators of one level associate to the left; comparisons do not chain. Reading stops at
the first lexeme that continues no sentence.
-/
namespace Petri.Expr
open Text
set_option autoImplicit false

/-- The levels of operators; `unary` also reads the terms. -/
inductive Level where
  | or | and | comparison | sum | product | unary
  deriving DecidableEq

namespace Level

def tighter : Level → Level
  | or => and
  | and => comparison
  | comparison => sum
  | sum => product
  | product => unary
  | unary => unary

def operator : Level → Terminal → Option Operator
  | or, .orOr => some .or
  | and, .andAnd => some .and
  | comparison, .equal => some (.strict .eq)
  | comparison, .notEqual => some (.strict .ne)
  | comparison, .less => some (.strict .lt)
  | comparison, .lessEqual => some (.strict .le)
  | comparison, .greater => some (.strict .gt)
  | comparison, .greaterEqual => some (.strict .ge)
  | sum, .plus => some (.strict .add)
  | sum, .minus => some (.strict .sub)
  | product, .star => some (.strict .mul)
  | product, .slash => some (.strict .div)
  | product, .percent => some (.strict .rem)
  | _, _ => none

end Level

abbrev Lexemes := List (Lexeme Terminal)

/-- What reading depends on beside the lexemes: what follows the last one, and whether delays are
written here. -/
structure Reading where
  ending : Ending
  delays : Bool

/-- Integers have 64 bits. -/
def numeralLimit : Nat := 0x8000000000000000

def Reading.closesNumeral (reading : Reading) : Terminal → Bool
  | .closeParen | .closeBracket | .comma => true
  | .plus | .minus | .star | .slash | .percent => true
  | .equal | .notEqual | .less | .lessEqual | .greater | .greaterEqual => true
  | .andAnd | .orOr => true
  | .atSign => reading.delays
  | _ => false

/-- The error of a numeral that is too large. Its range is looked at only when what follows can
follow a numeral. -/
def Reading.numeralError (reading : Reading) : Lexemes → SyntaxError
  | [] =>
    match reading.ending with
    | .text _ => .outOfRange "integer literal"
    | .invalid offset => .invalid offset
  | l :: ls =>
    if reading.closesNumeral l.terminal then .outOfRange "integer literal"
    else unexpected reading.ending (l :: ls)

mutual

def parseLevel (reading : Reading) : Nat → Level → Lexemes → Except SyntaxError (Expr × Lexemes)
  | 0, _, ls => .error (unexpected reading.ending ls)
  | fuel + 1, .unary, ls =>
    match ls with
    | ⟨.bang, _, _⟩ :: rest => do
      let (operand, rest) ← parseLevel reading fuel .unary rest
      return (.unary .not operand, rest)
    | ⟨.minus, _, _⟩ :: rest => do
      let (operand, rest) ← parseLevel reading fuel .unary rest
      return (.unary .neg operand, rest)
    | ls => parseTerm reading fuel ls
  | fuel + 1, level, ls => do
    let (lhs, rest) ← parseLevel reading fuel level.tighter ls
    parseChain reading fuel level lhs rest

def parseChain (reading : Reading) :
    Nat → Level → Expr → Lexemes → Except SyntaxError (Expr × Lexemes)
  | 0, _, _, ls => .error (unexpected reading.ending ls)
  | _ + 1, _, lhs, [] => .ok (lhs, [])
  | fuel + 1, level, lhs, l :: ls =>
    match level.operator l.terminal with
    | none => .ok (lhs, l :: ls)
    | some op => do
      let (rhs, rest) ← parseLevel reading fuel level.tighter ls
      if level = .comparison then return (.binary op lhs rhs, rest)
      else parseChain reading fuel level (.binary op lhs rhs) rest

def parseTerm (reading : Reading) : Nat → Lexemes → Except SyntaxError (Expr × Lexemes)
  | 0, ls => .error (unexpected reading.ending ls)
  | fuel + 1, ls =>
    match ls with
    | ⟨.numeral digits, _, _⟩ :: rest =>
      let n := Nat.ofDigitChars 10 digits 0
      if n < numeralLimit then .ok (.literal (.int n), rest) else .error (reading.numeralError rest)
    | ⟨.quoted body, _, _⟩ :: rest =>
      .ok (.literal (.str (String.ofList (Quoted.unescape body))), rest)
    | ⟨.trueWord, _, _⟩ :: rest => .ok (.literal (.bool true), rest)
    | ⟨.falseWord, _, _⟩ :: rest => .ok (.literal (.bool false), rest)
    | ⟨.name word, _, _⟩ :: ⟨.openParen, _, _⟩ :: rest => do
      let (args, rest) ← parseItems reading .closeParen fuel rest
      return (.call (String.ofList word) args, rest)
    | ⟨.name _, _, _⟩ :: rest => .error (unexpected reading.ending rest)
    | ⟨.openParen, _, _⟩ :: ⟨.closeParen, _, _⟩ :: rest => .ok (.literal .unit, rest)
    | ⟨.openParen, _, _⟩ :: rest => do
      let (first, rest) ← parseLevel reading fuel .or rest
      match rest with
      | ⟨.closeParen, _, _⟩ :: rest => return (first, rest)
      | ⟨.comma, _, _⟩ :: rest =>
        let (items, rest) ← parseItems reading .closeParen fuel rest
        return (.tuple (first :: items), rest)
      | rest => .error (unexpected reading.ending rest)
    | ⟨.openBracket, _, _⟩ :: rest => do
      let (items, rest) ← parseItems reading .closeBracket fuel rest
      return (.list items, rest)
    | ls => .error (unexpected reading.ending ls)

/-- Reads expressions between commas up to the closing bracket; one comma may stand before it. -/
def parseItems (reading : Reading) (close : Terminal) :
    Nat → Lexemes → Except SyntaxError (List Expr × Lexemes)
  | 0, ls => .error (unexpected reading.ending ls)
  | _ + 1, [] => .error reading.ending.error
  | fuel + 1, l :: ls =>
    if l.terminal = close then .ok ([], ls)
    else do
      let (item, rest) ← parseLevel reading fuel .or (l :: ls)
      match rest with
      | [] => .error reading.ending.error
      | next :: rest =>
        if next.terminal = close then return ([item], rest)
        else if next.terminal = .comma then
          let (items, rest) ← parseItems reading close fuel rest
          return (item :: items, rest)
        else .error (unexpected reading.ending (next :: rest))

end

/-- Reading an expression of `n` lexemes never nests deeper. -/
def fuelFor (ls : Lexemes) : Nat := 8 * ls.length + 8

/-- Accepts when no lexeme is left and the text ends there. -/
def Reading.finish (reading : Reading) : Lexemes → Except SyntaxError Unit
  | [] =>
    match reading.ending with
    | .text _ => .ok ()
    | .invalid offset => .error (.invalid offset)
  | l :: ls => .error (unexpected reading.ending (l :: ls))

def parseExpression (reading : Reading) (ls : Lexemes) : Except SyntaxError Expr := do
  let (e, rest) ← parseLevel reading (fuelFor ls) .or ls
  reading.finish rest
  return e

/-- Reads all lexemes as an inscription: a value, then perhaps `@` and a delay. -/
def parseInscription (reading : Reading) (ls : Lexemes) : Except SyntaxError Inscription := do
  let (value, rest) ← parseLevel reading (fuelFor ls) .or ls
  match rest with
  | ⟨.atSign, _, _⟩ :: rest => return ⟨value, some (← parseExpression reading rest)⟩
  | rest =>
    reading.finish rest
    return ⟨value, none⟩

def ofText (text : String) : Except SyntaxError Expr :=
  let lexed := lexicon.scan text.toList
  parseExpression ⟨lexed.ending, false⟩ lexed.lexemes

end Petri.Expr

namespace Petri.Inscription
open Text
set_option autoImplicit false

def ofText (text : String) : Except SyntaxError Inscription :=
  let lexed := Expr.lexicon.scan text.toList
  Expr.parseInscription ⟨lexed.ending, true⟩ lexed.lexemes

end Petri.Inscription
