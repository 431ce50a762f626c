import Petri.Text.Classes
import Petri.Text.Lexeme
import Petri.Text.Quoted

/-! # Terminals of the expression language -/
namespace Petri.Expr
open Text
set_option autoImplicit false

inductive Terminal where
  | orOr | andAnd
  | equal | notEqual | less | lessEqual | greater | greaterEqual
  | plus | minus | star | slash | percent | bang
  | openParen | closeParen | openBracket | closeBracket | comma | atSign
  | trueWord | falseWord
  | numeral (digits : List Char)
  /-- A string; `body` is what stands between the quotes. -/
  | quoted (body : List Char)
  | name (word : List Char)
  deriving DecidableEq

namespace Terminal

def spelling : Terminal → List Char
  | orOr => ['|', '|']
  | andAnd => ['&', '&']
  | equal => ['=', '=']
  | notEqual => ['!', '=']
  | less => ['<']
  | lessEqual => ['<', '=']
  | greater => ['>']
  | greaterEqual => ['>', '=']
  | plus => ['+']
  | minus => ['-']
  | star => ['*']
  | slash => ['/']
  | percent => ['%']
  | bang => ['!']
  | openParen => ['(']
  | closeParen => [')']
  | openBracket => ['[']
  | closeBracket => [']']
  | comma => [',']
  | atSign => ['@']
  | trueWord => ['t', 'r', 'u', 'e']
  | falseWord => ['f', 'a', 'l', 's', 'e']
  | numeral digits => digits
  | quoted body => '"' :: body ++ ['"']
  | name word => word

/-- A word is a name unless it is one of the two truth values. -/
def ofWord (word : List Char) : Terminal :=
  if word = trueWord.spelling then trueWord
  else if word = falseWord.spelling then falseWord
  else name word

def read : List Char → Option Terminal
  | [] => none
  | c :: cs =>
    match c, cs with
    | '|', '|' :: _ => some orOr
    | '&', '&' :: _ => some andAnd
    | '=', '=' :: _ => some equal
    | '!', '=' :: _ => some notEqual
    | '<', '=' :: _ => some lessEqual
    | '>', '=' :: _ => some greaterEqual
    | '!', _ => some bang
    | '<', _ => some less
    | '>', _ => some greater
    | '+', _ => some plus
    | '-', _ => some minus
    | '*', _ => some star
    | '/', _ => some slash
    | '%', _ => some percent
    | '(', _ => some openParen
    | ')', _ => some closeParen
    | '[', _ => some openBracket
    | ']', _ => some closeBracket
    | ',', _ => some comma
    | '@', _ => some atSign
    | '"', _ => (Quoted.body cs).map quoted
    | _, _ =>
      if c.isDigit then some (numeral (c :: cs.takeWhile Char.isDigit))
      else if isWordStart c then some (ofWord (c :: cs.takeWhile isWordPart))
      else none

end Terminal

/-- Expressions have white space between their terminals. -/
def lexicon : Lexicon Terminal where
  gap := List.takeWhile isBlank
  read := Terminal.read
  spelling := Terminal.spelling

end Petri.Expr
