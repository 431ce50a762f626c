/-! # Quoted text

Inside double quotes a double quote and a backslash are written behind a backslash.
Reading is more liberal than writing: a backslash before `n` or `t` denotes a line feed or a
tabulator, and before any other character it denotes that character.
-/
namespace Petri.Text.Quoted
set_option autoImplicit false

def escape : List Char → List Char
  | [] => []
  | c :: cs => if c = '\\' ∨ c = '"' then '\\' :: c :: escape cs else c :: escape cs

/-- A backslash that ends the text denotes itself. -/
def unescape : List Char → List Char
  | [] => []
  | ['\\'] => ['\\']
  | '\\' :: c :: cs =>
    (if c = 'n' then '\n' else if c = 't' then '\t' else c) :: unescape cs
  | c :: cs => c :: unescape cs

def quote (text : String) : String :=
  String.ofList ('"' :: escape text.toList ++ ['"'])

/-- Reads up to the closing quote. What stands before it are characters other than quotes and
backslashes, and pairs of a backslash and a character other than a line feed. -/
def body : List Char → Option (List Char)
  | [] => none
  | ['\\'] => none
  | '\\' :: c :: cs => if c = '\n' then none else (body cs).map fun rest => '\\' :: c :: rest
  | c :: cs => if c = '"' then some [] else (body cs).map (c :: ·)

theorem unescape_escape (cs : List Char) : unescape (escape cs) = cs := by
  induction cs with
  | nil => rfl
  | cons c cs ih =>
    by_cases hBackslash : c = '\\'
    · subst hBackslash
      simp [escape, unescape, ih]
    · by_cases hQuote : c = '"'
      · subst hQuote
        simp [escape, unescape, ih]
      · simp [escape, hBackslash, hQuote, unescape, ih]

end Petri.Text.Quoted
