import Petri.Text.Quoted

/-! # Token payloads

A payload is a dynamically typed value. This module holds the type with its equality and its total
order, and two texts of a value: the plain one that people read and the literal one that an
expression is written with.
-/
namespace Petri
set_option autoImplicit false

inductive Value where
  | unit
  | bool (b : Bool)
  | int (n : Int)
  | str (s : String)
  /-- A compound payload, always carried by one token. -/
  | tuple (items : List Value)
  /-- A collection of payloads; an inscription that yields one makes a token per element. -/
  | list (items : List Value)
  deriving Inhabited

namespace Value

/-- The types of values, in the order in which values of different types compare. -/
inductive Kind where
  | unit | bool | int | str | tuple | list
  deriving DecidableEq

def Kind.name : Kind → String
  | .unit => "unit"
  | .bool => "bool"
  | .int => "int"
  | .str => "string"
  | .tuple => "tuple"
  | .list => "list"

def Kind.rank : Kind → Nat
  | .unit => 0
  | .bool => 1
  | .int => 2
  | .str => 3
  | .tuple => 4
  | .list => 5

def kind : Value → Kind
  | unit => .unit
  | bool _ => .bool
  | int _ => .int
  | str _ => .str
  | tuple _ => .tuple
  | list _ => .list

mutual

def same : Value → Value → Bool
  | unit, unit => true
  | bool a, bool b => a == b
  | int a, int b => a == b
  | str a, str b => a == b
  | tuple as, tuple bs => sameItems as bs
  | list as, list bs => sameItems as bs
  | _, _ => false

def sameItems : List Value → List Value → Bool
  | [], [] => true
  | a :: as, b :: bs => same a b && sameItems as bs
  | _, _ => false

end

mutual

theorem same_eq_true_iff : ∀ a b : Value, same a b = true ↔ a = b
  | unit, b => by cases b <;> simp [same]
  | bool a, b => by cases b <;> simp [same]
  | int a, b => by cases b <;> simp [same]
  | str a, b => by cases b <;> simp [same]
  | tuple as, b => by cases b <;> simp [same, sameItems_eq_true_iff as]
  | list as, b => by cases b <;> simp [same, sameItems_eq_true_iff as]

theorem sameItems_eq_true_iff : ∀ as bs : List Value, sameItems as bs = true ↔ as = bs
  | [], bs => by cases bs <;> simp [sameItems]
  | a :: as, bs => by
    cases bs <;> simp [sameItems, same_eq_true_iff a, sameItems_eq_true_iff as]

end

instance : DecidableEq Value := fun a b => decidable_of_iff _ (same_eq_true_iff a b)

mutual

/-- Values of one type compare by content, sequences lexicographically and texts by code point;
values of different types compare by type. -/
def order : Value → Value → Ordering
  | bool a, bool b => compare a b
  | int a, int b => compare a b
  | str a, str b => compare a b
  | tuple as, tuple bs => orderItems as bs
  | list as, list bs => orderItems as bs
  | a, b => compare a.kind.rank b.kind.rank

def orderItems : List Value → List Value → Ordering
  | [], [] => .eq
  | [], _ :: _ => .lt
  | _ :: _, [] => .gt
  | a :: as, b :: bs => (order a b).then (orderItems as bs)

end

mutual

/-- The plain text: strings stand as they are. -/
def plain : Value → String
  | unit => "()"
  | bool b => if b then "true" else "false"
  | int n => toString n
  | str s => s
  | tuple items => "(" ++ String.intercalate ", " (plainItems items) ++ ")"
  | list items => "[" ++ String.intercalate ", " (plainItems items) ++ "]"

def plainItems : List Value → List String
  | [] => []
  | v :: vs => plain v :: plainItems vs

end

mutual

/-- The text of an expression that denotes the value: strings are quoted, and a tuple of one
component keeps its comma. -/
def literal : Value → String
  | unit => "()"
  | bool b => if b then "true" else "false"
  | int n => toString n
  | str s => Text.Quoted.quote s
  | tuple [item] => "(" ++ literal item ++ ",)"
  | tuple items => "(" ++ String.intercalate ", " (literalItems items) ++ ")"
  | list items => "[" ++ String.intercalate ", " (literalItems items) ++ "]"

def literalItems : List Value → List String
  | [] => []
  | v :: vs => literal v :: literalItems vs

end

end Value
end Petri
