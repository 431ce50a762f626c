/-! # Options

Reading the words of a command line. An option has a long name behind two dashes, perhaps a letter
behind one, and takes nothing, a number or a path. A value may be attached or be the next word, but
a next word that looks like an option is none. Values are looked at when the next option, or the end
of the line, shows that they are complete.
-/
namespace Petri.Cli
set_option autoImplicit false

inductive UsageError where
  | nothingGiven
  | helpRequested
  | unknownCommand
  | missingInput
  | unknownArgument
  | badNumber
  | missingValue
  | repeated
  | unexpectedValue
  deriving DecidableEq

inductive Taking where
  | nothing | number | path
  deriving DecidableEq

structure OptionSpec where
  long : String
  short : Option Char := none
  takes : Taking := .nothing
  deriving DecidableEq

/-- Numbers have 64 bits; a plus sign may stand before the digits. -/
def number? (text : String) : Option Nat :=
  let digits := match text.toList with
    | '+' :: cs => cs
    | cs => cs
  if digits.isEmpty || !digits.all Char.isDigit then none
  else
    let n := Nat.ofDigitChars 10 digits 0
    if n < 0x10000000000000000 then some n else none

inductive Pending where
  | nothing
  | input (path : String)
  | option (spec : OptionSpec) (value : Option String)

structure Given where
  input : Option String := none
  /-- Long names and values; the value of an option that takes nothing is empty. -/
  options : List (String × String) := []
  pending : Pending := .nothing

namespace Given

def has (g : Given) (long : String) : Bool := g.options.any fun o => o.1 == long

def text? (g : Given) (long : String) : Option String := g.options.lookup long

def number? (g : Given) (long : String) : Option Nat := (g.text? long).bind Cli.number?

def add (g : Given) (spec : OptionSpec) (value : String) : Except UsageError Given :=
  if g.has spec.long then .error .repeated
  else
    let added := { g with options := g.options ++ [(spec.long, value)] }
    match spec.takes with
    | .nothing => .ok added
    | .number => if (Cli.number? value).isSome then .ok added else .error .badNumber
    | .path => if value = "" then .error .missingValue else .ok added

def settle (g : Given) : Except UsageError Given :=
  let settled := { g with pending := .nothing }
  match g.pending with
  | .nothing => .ok g
  | .input path => if path = "" then .error .missingValue else .ok { settled with input := some path }
  | .option _ none => .error .missingValue
  | .option spec (some value) => settled.add spec value

def hasInput (g : Given) : Bool :=
  match g.pending with
  | .input _ => true
  | _ => g.input.isSome

def addWord (g : Given) (word : String) : Except UsageError Given :=
  if g.hasInput then .error .unknownArgument
  else do return { ← g.settle with pending := .input word }

def addOption (g : Given) (spec : OptionSpec) (attached : Option String) :
    Except UsageError Given := do
  let g ← g.settle
  match spec.takes, attached with
  | .nothing, _ => g.add spec ""
  | _, some value => g.add spec value
  | _, none => return { g with pending := .option spec none }

end Given

/-- The name and the attached value of a word behind two dashes. -/
def splitLong (cs : List Char) : String × Option String :=
  let name := cs.takeWhile (· != '=')
  match cs.drop name.length with
  | [] => (String.ofList name, none)
  | _ :: value => (String.ofList name, some (String.ofList value))

def help (g : Given) : Except UsageError Given := do
  let _ ← g.settle
  .error .helpRequested

variable (specs : List OptionSpec)

def addLong (g : Given) (cs : List Char) : Except UsageError Given :=
  let (name, value) := splitLong cs
  match specs.find? fun spec => spec.long == name, value with
  | some spec, value =>
    if spec.takes = .nothing ∧ value.isSome then .error .unexpectedValue else g.addOption spec value
  | none, some _ => if name = "help" then .error .unexpectedValue else .error .unknownArgument
  | none, none => if name = "help" then help g else .error .unknownArgument

/-- Takes the letters behind one dash. What follows the letter of an option that takes a value is
its value, an equals sign before it left out. -/
def addShort (g : Given) : List Char → Except UsageError Given
  | [] => .ok g
  | c :: cs =>
    match specs.find? fun spec => spec.short == some c with
    | none => if c = 'h' then help g else .error .unknownArgument
    | some spec =>
      if spec.takes = .nothing then do addShort (← g.addOption spec none) cs
      else
        match cs with
        | [] => g.addOption spec none
        | '=' :: value => g.addOption spec (some (String.ofList value))
        | value => g.addOption spec (some (String.ofList value))

/-- Takes all words. Behind `--` no word is an option. -/
def addWords (onlyWords : Bool) (g : Given) : List String → Except UsageError Given
  | [] => g.settle
  | word :: rest =>
    match onlyWords, word.toList, g.pending with
    | false, ['-', '-'], _ => addWords true g rest
    | false, '-' :: '-' :: cs, _ => do addWords false (← addLong specs g cs) rest
    | false, '-' :: c :: cs, _ => do addWords false (← addShort specs g (c :: cs)) rest
    | false, _, .option spec none =>
      addWords false { g with pending := .option spec (some word) } rest
    | onlyWords, _, _ => do addWords onlyWords (← g.addWord word) rest

def readOptions (words : List String) : Except UsageError (String × Given) := do
  let g ← addWords specs false {} words
  match g.input with
  | some input => return (input, g)
  | none => .error .missingInput

end Petri.Cli
