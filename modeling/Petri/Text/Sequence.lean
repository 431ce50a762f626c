import Petri.Text.Columns
import Petri.Text.EmojiRanges

/-! # Sequences of characters that are shown as one

A sequence may take fewer columns than its characters by themselves, or more: a picture with a skin
tone, pictures between joiners, a character whose look a variation selector decides, and ligatures
of some scripts. The columns of a text are counted from its end: what a character adds depends on
what follows it.
-/
namespace Petri.Text
set_option autoImplicit false

/-- Letters that join an earlier letter across a joiner. -/
inductive JoiningLetter where
  | lamed | ya | consonant | orkhon
  deriving DecidableEq

/-- What follows a place in a text, as far as the character before it may join with it. -/
inductive Following where
  | other
  | skinTone
  | regional
  | regionals
  | picture
  | joinedPicture
  | joinedKeycap
  | joinedRegional
  /-- An even number of regional letters before a joiner and a picture, and an odd one. -/
  | joinedEven
  | joinedOdd
  /-- So many tag letters, or tag digits, before the end of the tags, a joiner and a picture. -/
  | tagLetters (n : Nat)
  | tagDigits (n : Nat)
  | alef
  | letter (l : JoiningLetter) (joined : Bool)
  | signYa
  | joinerConsonant
  | toneLetter
  | coengLetter
  deriving DecidableEq

/-- What follows a place, behind variation selectors. -/
structure Head where
  following : Following := .other
  /-- A selector of the look of a picture stands before it. -/
  asPicture : Bool := false
  /-- A selector of the look of a letter stands before it. -/
  asText : Bool := false
  deriving DecidableEq

namespace Following

/-- Whether selectors leave intact what follows. -/
def endures : Following → Bool
  | alef | letter .. | signYa | joinerConsonant | toneLetter | coengLetter => true
  | _ => false

/-- Whether marks that are not shown leave intact what follows. -/
def seesThrough (f : Following) : Bool := f.endures && f != alef

def isJoined : Following → Bool
  | joinedPicture | joinedKeycap => true
  | _ => false

def join : Following → Following
  | letter l _ => letter l true
  | f => f

end Following

namespace Head

def selectPicture (h : Head) : Head :=
  if h.following.endures || h.following.isJoined then { h with asPicture := true }
  else { asPicture := true }

def selectText (h : Head) : Head :=
  if h.following.endures then { h with asText := true } else { asText := true }

/-- What follows when the selector of a picture has met no fitting character. -/
def dropPicture (h : Head) : Head :=
  if h.following.endures then { h with asPicture := false } else {}

def dropText (h : Head) : Head := { h with asText := false }

end Head

/-! ## Classes -/

def isPicture (c : Char) : Bool := isWithin pictureRanges c

def isSelectable (c : Char) : Bool := isWithin selectableRanges c

def isTextual (c : Char) : Bool :=
  isSelectable c && isPicture c && !isWithin [(0x1F200, 0x1F2FF)] c

def takesSkinTone (c : Char) : Bool := isWithin skinRanges c

def isSkinTone (c : Char) : Bool := isWithin [(0x1F3FB, 0x1F3FF)] c

def isRegional (c : Char) : Bool := isWithin [(0x1F1E6, 0x1F1FF)] c

def isTagLetter (c : Char) : Bool := isWithin [(0xE0061, 0xE007A)] c

def isTagDigit (c : Char) : Bool := isWithin [(0xE0030, 0xE0039)] c

/-- Marks that are not shown and interrupt no ligature. -/
def isHiddenMark (c : Char) : Bool :=
  isWithin [(0x034F, 0x034F), (0x17B4, 0x17B5), (0x180B, 0x180D), (0x180F, 0x180F),
    (0xFE00, 0xFE0F), (0xE0100, 0xE01EF)] c

def isJoiner (c : Char) : Bool := c == '\u200d'

def isLam (c : Char) : Bool :=
  isWithin [(0x0644, 0x0644), (0x06B5, 0x06B8), (0x076A, 0x076A), (0x08A6, 0x08A6),
    (0x08C7, 0x08C7)] c

def isAlef (c : Char) : Bool :=
  isWithin [(0x0622, 0x0623), (0x0625, 0x0625), (0x0627, 0x0627), (0x0671, 0x0673),
    (0x0675, 0x0675), (0x0773, 0x0774), (0x0870, 0x0882)] c

/-- Marks across which lam joins alef. -/
def isTransparent (c : Char) : Bool := isMark c && !isWithin boundMarkRanges c

def isTifinagh (c : Char) : Bool := isWithin [(0x2D31, 0x2D65), (0x2D6F, 0x2D6F)] c

/-- Letters of Khmer that are written below another behind the sign coeng. -/
def isBelow (c : Char) : Bool :=
  isWithin [(0x1780, 0x1782), (0x1784, 0x1787), (0x1789, 0x178C), (0x178E, 0x1793),
    (0x1795, 0x1798), (0x179B, 0x179D), (0x17A0, 0x17A0), (0x17A2, 0x17A2), (0x17A7, 0x17A7),
    (0x17AB, 0x17AC), (0x17AF, 0x17AF)] c

/-! ## Counting -/

def roleOf (c : Char) : Following :=
  if isSkinTone c then .skinTone
  else if isRegional c then .regional
  else if isPicture c then .picture
  else if isAlef c then .alef
  else if c = '\u05dc' then .letter .lamed false
  else if c = '\u1a10' then .letter .ya false
  else if isTifinagh c then .letter .consonant false
  else if c = '\ua4fc' ∨ c = '\ua4fd' then .toneLetter
  else if c.toNat = 0x10C03 then .letter .orkhon false
  else if isBelow c then .coengLetter
  else .other

/-- The columns that a character adds before what it joins with, and what it is itself then. -/
def joined? (c : Char) : Following → Option (Int × Following)
  | .alef =>
    if isLam c then some (0, .other) else if isTransparent c then some (0, .alef) else none
  | .letter .lamed true => if c = '\u05d0' then some (0, .other) else none
  | .coengLetter => if c = '\u17d2' then some (-1, .other) else none
  | .letter .ya true => if c = '\u1a17' then some (0, .signYa) else none
  | .signYa => if c = '\u1a15' then some (0, .other) else none
  | .letter .consonant joined =>
    if c = '\u2d7f' then some (1, .joinerConsonant)
    else if joined && isTifinagh c then some (0, .other)
    else none
  | .joinerConsonant => if isTifinagh c then some (-1, .other) else none
  | .toneLetter => if isWithin [(0xA4F8, 0xA4FB)] c then some (0, .other) else none
  | .letter .orkhon true => if c.toNat = 0x10C32 then some (0, .other) else none
  | .skinTone =>
    if takesSkinTone c then some (0, .picture)
    else if isJoiner c then some (0, .joinedPicture)
    else none
  | .regional => if isRegional c then some (1, .regionals) else none
  | .regionals =>
    if isRegional c then some (1, .regionals)
    else if isJoiner c then some (0, .joinedPicture)
    else none
  | .picture => if isJoiner c then some (0, .joinedPicture) else none
  | .joinedPicture =>
    if c = '\u20e3' then some (0, .joinedKeycap)
    else if isRegional c then some (1, .joinedRegional)
    else if isSkinTone c then some (0, .skinTone)
    else if c.toNat = 0xE007F then some (0, .tagLetters 0)
    else if isPicture c then some (0, .picture)
    else none
  | .joinedRegional => if isRegional c then some (-1, .joinedEven) else none
  | .joinedOdd =>
    if isRegional c then some (-1, .joinedEven)
    else if isJoiner c then some (0, .joinedPicture)
    else none
  | .joinedEven =>
    if isRegional c then some (3, .joinedOdd)
    else if isJoiner c then some (0, .joinedPicture)
    else none
  | .tagLetters n =>
    if isTagLetter c && decide (n < 6) then some (0, .tagLetters (n + 1))
    else if isTagDigit c && decide (n ≤ 4) then some (0, .tagDigits 1)
    else if c.toNat = 0x1F3F4 && decide (3 ≤ n) then some (0, .picture)
    else none
  | .tagDigits n =>
    if isTagDigit c && decide (n < 3) then some (0, .tagDigits (n + 1))
    else if c.toNat = 0x1F3F4 && decide (n = 3) then some (0, .picture)
    else none
  | _ => none

/-- Counts a character that no selector of a picture follows. -/
def countPlain (c : Char) (h : Head) : Int × Head :=
  if c.toNat ≤ 0xA0 then (1, {})
  else if c = '\ufe0f' then (0, h.selectPicture)
  else if c = '\ufe0e' then (0, h.selectText)
  else if h.asText && isTextual c then (1, {})
  else if h.following.seesThrough && isJoiner c then
    (0, { h.dropText with following := h.following.join })
  else if h.following.seesThrough && isHiddenMark c then (0, h.dropText)
  else
    match joined? c h.following with
    | some (added, following) => (added, { following := following })
    | none => (columns c, { following := roleOf c })

/-- The columns that a character adds before what follows, and what it is to the one before it. -/
def count (c : Char) (h : Head) : Int × Head :=
  if h.asPicture then
    if isSelectable c then (if h.following.isJoined then 0 else 2, { following := .picture })
    else countPlain c h.dropPicture
  else countPlain c h

def sequenceColumns (cs : List Char) : Nat :=
  (cs.foldr (fun c (sum, head) => let (added, head) := count c head; (sum + added, head))
    ((0 : Int), ({} : Head))).1.toNat

end Petri.Text
