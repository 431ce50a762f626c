/-! # Lexemes and syntax errors

A lexicon says which characters a text may have between its terminals and which terminal stands at
the head of a text; it always takes the longest one. Scanning cuts a text into lexemes up to the
first place where no terminal stands. Offsets count bytes of the UTF-8 encoding.
-/
namespace Petri.Text
set_option autoImplicit false

def byteLength (cs : List Char) : Nat :=
  cs.foldr (fun c length => c.utf8Size + length) 0

structure Lexicon (τ : Type) where
  /-- The skipped characters at the head of a text. -/
  gap : List Char → List Char
  read : List Char → Option τ
  spelling : τ → List Char

structure Lexeme (τ : Type) where
  terminal : τ
  spelling : List Char
  start : Nat

def Lexeme.stop {τ : Type} (l : Lexeme τ) : Nat := l.start + byteLength l.spelling

/-- A text after scanning. `invalid` is where no terminal stands, if scanning ended there. -/
structure Lexed (τ : Type) where
  lexemes : List (Lexeme τ)
  invalid : Option Nat

namespace Lexicon
variable {τ : Type}

/-- Each lexeme takes a character of the text at least, so its length is fuel enough. -/
def scanFrom (lexicon : Lexicon τ) : Nat → Nat → List Char → Lexed τ
  | 0, _, _ => ⟨[], none⟩
  | fuel + 1, offset, cs =>
    let gap := lexicon.gap cs
    let start := offset + byteLength gap
    match cs.drop gap.length with
    | [] => ⟨[], none⟩
    | c :: rest =>
      match lexicon.read (c :: rest) with
      | none => ⟨[], some start⟩
      | some terminal =>
        let spelling := lexicon.spelling terminal
        let tail := scanFrom lexicon fuel (start + byteLength spelling)
          ((c :: rest).drop spelling.length)
        ⟨⟨terminal, spelling, start⟩ :: tail.lexemes, tail.invalid⟩

def scan (lexicon : Lexicon τ) (cs : List Char) : Lexed τ :=
  lexicon.scanFrom cs.length 0 cs

end Lexicon

inductive SyntaxError where
  /-- No terminal stands at this offset. -/
  | invalid (offset : Nat)
  /-- A lexeme that no sentence continues with. -/
  | unrecognized (spelling : String) (start stop : Nat)
  /-- The text ends, at this offset, where no sentence ends. -/
  | ended (offset : Nat)
  /-- A numeral beyond the range of what it denotes. -/
  | outOfRange (what : String)
  deriving DecidableEq

def SyntaxError.message : SyntaxError → String
  | .invalid offset => s!"Invalid token at {offset}"
  | .unrecognized spelling start stop =>
    "Unrecognized token `" ++ spelling ++ s!"` found at {start}:{stop}"
  | .ended offset => s!"Unrecognized EOF found at {offset}"
  | .outOfRange what => what ++ " out of range"

/-- What comes after the last lexeme of a text. -/
inductive Ending where
  /-- The end of the text; the offset is that of the end of the last lexeme. -/
  | text (offset : Nat)
  /-- Characters that form no terminal. -/
  | invalid (offset : Nat)

def Ending.error : Ending → SyntaxError
  | .text offset => .ended offset
  | .invalid offset => .invalid offset

namespace Lexed
variable {τ : Type}

def ending (text : Lexed τ) : Ending :=
  match text.invalid with
  | some offset => .invalid offset
  | none => .text ((text.lexemes.getLast?.map Lexeme.stop).getD 0)

end Lexed

/-- The error of a parser that cannot go on with these lexemes. -/
def unexpected {τ : Type} (ending : Ending) : List (Lexeme τ) → SyntaxError
  | [] => ending.error
  | l :: _ => .unrecognized (String.ofList l.spelling) l.start l.stop

end Petri.Text
