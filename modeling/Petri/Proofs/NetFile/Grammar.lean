import Mathlib
import Petri.NetFile.Entry

/-! # The grammar of net files

Which terminals derive which entries, production by production. A capacity has 64 bits, so a numeral
beyond them derives none. The identifier of an arc is optional; its arrow shows whether it is there.
-/
namespace Petri.NetFile
open Text
set_option autoImplicit false

/-! ## Productions -/

/-- Strings with a comma behind each, which the last one may lack. -/
inductive DerivesTexts : List Terminal → List String → Prop where
  | nil : DerivesTexts [] []
  | last {body : List Char} :
    DerivesTexts [.quoted body] [String.ofList (Quoted.unescape body)]
  | cons {body : List Char} {ts : List Terminal} {texts : List String} (h : DerivesTexts ts texts) :
    DerivesTexts (.quoted body :: .comma :: ts) (String.ofList (Quoted.unescape body) :: texts)

inductive DerivesPlaceAttribute : List Terminal → PlaceAttribute → Prop where
  | label {body : List Char} : DerivesPlaceAttribute [.keyword .label, .quoted body]
      (.label (String.ofList (Quoted.unescape body)))
  | capacity {digits : List Char} (hRange : Nat.ofDigitChars 10 digits 0 < capacityLimit) :
    DerivesPlaceAttribute [.keyword .capacity, .numeral digits]
      (.capacity (Nat.ofDigitChars 10 digits 0))
  | tokens {ts : List Terminal} {texts : List String} (h : DerivesTexts ts texts) :
    DerivesPlaceAttribute (.keyword .tokens :: .openBracket :: ts ++ [.closeBracket]) (.tokens texts)

inductive DerivesTransitionAttribute : List Terminal → TransitionAttribute → Prop where
  | label {body : List Char} : DerivesTransitionAttribute [.keyword .label, .quoted body]
      (.label (String.ofList (Quoted.unescape body)))
  | guard {body : List Char} : DerivesTransitionAttribute [.keyword .guard, .quoted body]
      (.guard (String.ofList (Quoted.unescape body)))

inductive DerivesArcAttribute : List Terminal → ArcAttribute → Prop where
  | label {body : List Char} : DerivesArcAttribute [.keyword .label, .quoted body]
      (.label (String.ofList (Quoted.unescape body)))
  | evaluate {body : List Char} : DerivesArcAttribute [.keyword .evaluate, .quoted body]
      (.evaluate (String.ofList (Quoted.unescape body)))
  | execute {body : List Char} : DerivesArcAttribute [.keyword .execute, .quoted body]
      (.execute (String.ofList (Quoted.unescape body)))

/-- Any number of one thing after another. -/
inductive DerivesAll {α : Type} (D : List Terminal → α → Prop) : List Terminal → List α → Prop where
  | nil : DerivesAll D [] []
  | cons {ts us : List Terminal} {a : α} {others : List α} (h : D ts a)
    (hOthers : DerivesAll D us others) : DerivesAll D (ts ++ us) (a :: others)

inductive DerivesLabel : List Terminal → Option String → Prop where
  | absent : DerivesLabel [] none
  | present {body : List Char} : DerivesLabel [.keyword .label, .quoted body]
      (some (String.ofList (Quoted.unescape body)))

/-- The ends of an arc around its arrow, perhaps behind its identifier. -/
inductive DerivesEnds : List Terminal → Option String × String × String → Prop where
  | named {id source target : List Char} :
    DerivesEnds [.name id, .name source, .arrow, .name target]
      (some (String.ofList id), String.ofList source, String.ofList target)
  | unnamed {source target : List Char} : DerivesEnds [.name source, .arrow, .name target]
      (none, String.ofList source, String.ofList target)

inductive DerivesEntry : List Terminal → Entry → Prop where
  | net {id : List Char} {ts : List Terminal} {label : Option String} (h : DerivesLabel ts label) :
    DerivesEntry (.keyword .net :: .name id :: ts ++ [.semicolon]) (.net (String.ofList id) label)
  | declarations {body : List Char} :
    DerivesEntry [.keyword .declarations, .quoted body, .semicolon]
      (.declarations (String.ofList (Quoted.unescape body)))
  | imports {body : List Char} : DerivesEntry [.keyword .imports, .quoted body, .semicolon]
      (.imports (String.ofList (Quoted.unescape body)))
  | implements {body : List Char} : DerivesEntry [.keyword .implements, .quoted body, .semicolon]
      (.implements (String.ofList (Quoted.unescape body)))
  | place {id : List Char} {ts : List Terminal} {attributes : List PlaceAttribute}
    (h : DerivesAll DerivesPlaceAttribute ts attributes) :
    DerivesEntry (.keyword .place :: .name id :: ts ++ [.semicolon])
      (.place (String.ofList id) attributes)
  | transition {id : List Char} {ts : List Terminal} {attributes : List TransitionAttribute}
    (h : DerivesAll DerivesTransitionAttribute ts attributes) :
    DerivesEntry (.keyword .transition :: .name id :: ts ++ [.semicolon])
      (.transition (String.ofList id) attributes)
  | input {ends ts : List Terminal} {id : Option String} {place transition : String}
    {attributes : List ArcAttribute} (hEnds : DerivesEnds ends (id, place, transition))
    (h : DerivesAll DerivesArcAttribute ts attributes) :
    DerivesEntry (.keyword .input :: ends ++ ts ++ [.semicolon])
      (.input id place transition attributes)
  | output {ends ts : List Terminal} {id : Option String} {transition place : String}
    {attributes : List ArcAttribute} (hEnds : DerivesEnds ends (id, transition, place))
    (h : DerivesAll DerivesArcAttribute ts attributes) :
    DerivesEntry (.keyword .output :: ends ++ ts ++ [.semicolon])
      (.output id transition place attributes)

abbrev DerivesFile : List Terminal → List Entry → Prop := DerivesAll DerivesEntry

/-! ## Identifiers of arcs -/

/-- The arrow of an arc stands two names behind its keyword, or one when it has no identifier. -/
theorem arrow_of_derivesEntry {ts : List Terminal} {id : Option String} {source target : String}
    {attributes : List ArcAttribute} (h : DerivesEntry ts (.input id source target attributes) ∨
      DerivesEntry ts (.output id source target attributes)) :
    (id = none ↔ ts[2]? = some .arrow) ∧ (id.isSome ↔ ts[3]? = some .arrow) := by
  rcases h with h | h
  · cases h with
    | input hEnds => cases hEnds <;> simp
  · cases h with
    | output hEnds => cases hEnds <;> simp

end Petri.NetFile
