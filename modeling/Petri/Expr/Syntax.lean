import Petri.Value

/-! # Expressions and inscriptions -/
namespace Petri
set_option autoImplicit false

inductive BinaryOp where
  | eq | ne | lt | le | gt | ge
  | add | sub | mul | div | rem
  deriving DecidableEq

inductive Operator where
  | or | and
  | strict (op : BinaryOp)
  deriving DecidableEq

inductive UnaryOp where
  | not | neg
  deriving DecidableEq

inductive Expr where
  | literal (value : Value)
  | call (function : String) (args : List Expr)
  | unary (op : UnaryOp) (operand : Expr)
  | binary (op : Operator) (lhs rhs : Expr)
  | tuple (items : List Expr)
  | list (items : List Expr)
  deriving Inhabited

/-- What an arc produces or asks for: a value and, after `@`, its delay. -/
structure Inscription where
  value : Expr
  delay : Option Expr := none

end Petri
