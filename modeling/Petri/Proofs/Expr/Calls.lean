import Petri.Interpreter

/-! # What an expression calls

An expression learns about its context only from the functions that it calls. Where these answer
alike in two contexts, so does the expression.
-/
namespace Petri
set_option autoImplicit false

/-- The function is called somewhere in the expression. -/
inductive Expr.Calls (function : String) : Expr → Prop where
  | self {args : List Expr} : Calls function (.call function args)
  | argument {other : String} {e : Expr} {args : List Expr} (hMem : e ∈ args)
    (h : Calls function e) : Calls function (.call other args)
  | operand {op : UnaryOp} {e : Expr} (h : Calls function e) : Calls function (.unary op e)
  | left {op : Operator} {lhs rhs : Expr} (h : Calls function lhs) :
    Calls function (.binary op lhs rhs)
  | right {op : Operator} {lhs rhs : Expr} (h : Calls function rhs) :
    Calls function (.binary op lhs rhs)
  | tuple {e : Expr} {items : List Expr} (hMem : e ∈ items) (h : Calls function e) :
    Calls function (.tuple items)
  | list {e : Expr} {items : List Expr} (hMem : e ∈ items) (h : Calls function e) :
    Calls function (.list items)

namespace Expr
variable {function : String}

@[simp] theorem calls_literal (v : Value) : ¬ (literal v).Calls function := nofun

@[simp] theorem calls_call {other : String} {args : List Expr} :
    (call other args).Calls function ↔ function = other ∨ ∃ e ∈ args, e.Calls function := by
  constructor
  · rintro (_ | ⟨hMem, h⟩)
    · exact .inl rfl
    · exact .inr ⟨_, hMem, h⟩
  · rintro (rfl | ⟨e, hMem, h⟩)
    · exact .self
    · exact .argument hMem h

@[simp] theorem calls_unary {op : UnaryOp} {e : Expr} :
    (unary op e).Calls function ↔ e.Calls function :=
  ⟨fun | .operand h => h, .operand⟩

@[simp] theorem calls_binary {op : Operator} {lhs rhs : Expr} :
    (binary op lhs rhs).Calls function ↔ lhs.Calls function ∨ rhs.Calls function :=
  ⟨fun | .left h => .inl h | .right h => .inr h, fun | .inl h => .left h | .inr h => .right h⟩

@[simp] theorem calls_tuple {items : List Expr} :
    (tuple items).Calls function ↔ ∃ e ∈ items, e.Calls function :=
  ⟨fun | .tuple hMem h => ⟨_, hMem, h⟩, fun ⟨_, hMem, h⟩ => .tuple hMem h⟩

@[simp] theorem calls_list {items : List Expr} :
    (list items).Calls function ↔ ∃ e ∈ items, e.Calls function :=
  ⟨fun | .list hMem h => ⟨_, hMem, h⟩, fun ⟨_, hMem, h⟩ => .list hMem h⟩

end Expr

/-- The function answers alike in two contexts, if there is such a function. -/
def Builtin.Alike (context context' : Context) (function : String) : Prop :=
  ∀ f, Builtin.ofName function = some f → ∀ args, f.apply context args = f.apply context' args

theorem Builtin.name_of_ofName {function : String} {f : Builtin} (h : ofName function = some f) :
    f.name = function := by
  simpa using List.find?_some h

variable {context context' : Context}

namespace Expr

mutual

theorem eval_congr : ∀ e : Expr,
    (∀ function, e.Calls function → Builtin.Alike context context' function) →
    e.eval context = e.eval context'
  | .literal _, _ => by rw [eval, eval]
  | .tuple items, h => by
    rw [eval, eval, evalItems_congr items fun e hMem f hCall => h f (.tuple hMem hCall)]
  | .list items, h => by
    rw [eval, eval, evalItems_congr items fun e hMem f hCall => h f (.list hMem hCall)]
  | .unary op operand, h => by
    rw [eval, eval, eval_congr operand fun f hCall => h f (.operand hCall)]
  | .binary .and lhs rhs, h | .binary .or lhs rhs, h | .binary (.strict op) lhs rhs, h => by
    rw [eval, eval, eval_congr lhs fun f hCall => h f (.left hCall),
      eval_congr rhs fun f hCall => h f (.right hCall)]
  | .call function args, h => by
    rw [eval, eval, evalItems_congr args fun e hMem f hCall => h f (.argument hMem hCall)]
    cases hName : Builtin.ofName function with
    | none => rfl
    | some f => simp only [h function .self f hName]

theorem evalItems_congr : ∀ es : List Expr,
    (∀ e ∈ es, ∀ function, e.Calls function → Builtin.Alike context context' function) →
    evalItems context es = evalItems context' es
  | [], _ => by rw [evalItems, evalItems]
  | e :: es, h => by
    rw [evalItems, evalItems, eval_congr e (h e List.mem_cons_self),
      evalItems_congr es fun e' hMem => h e' (List.mem_cons_of_mem _ hMem)]

end

end Expr

/-- The function is called in the value or in the delay. -/
inductive Inscription.Calls (function : String) (i : Inscription) : Prop where
  | value (h : i.value.Calls function)
  | delay {delay : Expr} (hDelay : i.delay = some delay) (h : delay.Calls function)

@[simp] theorem Inscription.calls_iff {function : String} {i : Inscription} :
    i.Calls function ↔ i.value.Calls function ∨ ∃ delay ∈ i.delay, delay.Calls function :=
  ⟨fun | .value h => .inl h | .delay hDelay h => .inr ⟨_, hDelay, h⟩,
    fun | .inl h => .value h | .inr ⟨_, hDelay, h⟩ => .delay hDelay h⟩

theorem Inscription.tokens_congr (i : Inscription)
    (h : ∀ function, i.Calls function → Builtin.Alike context context' function) :
    i.tokens context = i.tokens context' := by
  have hDelay : i.delayTime context = i.delayTime context' := by
    rw [delayTime, delayTime]
    cases hSome : i.delay with
    | none => rfl
    | some delay =>
      dsimp only
      rw [Expr.eval_congr delay fun f hCall => h f (.delay hSome hCall)]
  rw [tokens, tokens, hDelay, Expr.eval_congr i.value fun f hCall => h f (.value hCall)]

end Petri
