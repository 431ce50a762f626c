import Petri.Simulation.Event

/-! # Event logs

One event on a line, each as a JSON object without blanks whose first member is its type.
-/
namespace Petri.EventLog
set_option autoImplicit false

def hexDigit (n : Nat) : Char := if n < 10 then Char.ofNat (48 + n) else Char.ofNat (87 + n)

/-- Quotes, backslashes and the characters below the blank are escaped, by a letter if they have
one; all else stands as it is. -/
def escapeChar (c : Char) : List Char :=
  if c = '"' then ['\\', '"']
  else if c = '\\' then ['\\', '\\']
  else if c = '\n' then ['\\', 'n']
  else if c = '\r' then ['\\', 'r']
  else if c = '\t' then ['\\', 't']
  else if c = '\x08' then ['\\', 'b']
  else if c = '\x0c' then ['\\', 'f']
  else if c.toNat < 32 then
    ['\\', 'u', '0', '0', hexDigit (c.toNat / 16), hexDigit (c.toNat % 16)]
  else [c]

def quoted (text : String) : String :=
  String.ofList ('"' :: text.toList.flatMap escapeChar ++ ['"'])

def texts (items : List String) : String :=
  "[" ++ String.intercalate "," (items.map quoted) ++ "]"

/-- An object with members whose values are written already. -/
def object (members : List (String × String)) : String :=
  "\x7b" ++ String.intercalate "," (members.map fun m => quoted m.1 ++ ":" ++ m.2) ++ "\x7d"

def transferMembers (t : TransferReport) : List (String × String) :=
  [("arc", quoted t.arc), ("place", quoted t.place), ("inscription", quoted t.inscription),
   ("tokens", texts t.tokens), ("marking", toString t.marking)]

def members : Event → List (String × String)
  | .consumed firing clock transition transfer =>
    [("type", quoted "Consumed"), ("firing", toString firing), ("clock", toString clock),
     ("transition", quoted transition)] ++ transferMembers transfer
  | .fired firing clock transition label =>
    [("type", quoted "Fired"), ("firing", toString firing), ("clock", toString clock),
     ("transition", quoted transition), ("label", quoted label)]
  | .produced firing clock transition transfer =>
    [("type", quoted "Produced"), ("firing", toString firing), ("clock", toString clock),
     ("transition", quoted transition)] ++ transferMembers transfer
  | .clockAdvanced start stop =>
    [("type", quoted "ClockAdvanced"), ("from", toString start), ("to", toString stop)]
  | .finished clock firings outcome =>
    [("type", quoted "Finished"), ("clock", toString clock), ("firings", toString firings),
     ("outcome", quoted outcome.name)]

def line (e : Event) : String := object (members e)

def print (events : List Event) : String :=
  String.join (events.map fun e => line e ++ "\n")

end Petri.EventLog
