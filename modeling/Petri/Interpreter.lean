import Petri.Expr.Eval
import Petri.Expr.Parser

/-! # The interpreter

The evaluator of the expression language, the same evaluator with some texts read beforehand, and
the same evaluator with a cache of the texts that it has read.
-/
namespace Petri
set_option autoImplicit false

namespace Expr

def readText (text : String) : Except EvalError Expr :=
  match ofText text with
  | .ok e => .ok e
  | .error reason => .error (.malformed text reason)

def holds (context : Context) (e : Expr) : Except EvalError Bool := do
  (← eval context e).truth

end Expr

namespace Inscription

def readText (text : String) : Except EvalError Inscription :=
  match ofText text with
  | .ok i => .ok i
  | .error reason => .error (.malformed text reason)

/-- The time that the delay gives to each token. -/
def delayTime (context : Context) (i : Inscription) : Except EvalError Time :=
  match i.delay with
  | none => .ok 0
  | some delay => do
    let n ← (← delay.eval context).integer
    if n < 0 then .error (.negativeDelay n) else return n.toNat

/-- The delay is evaluated before the value. A list makes one token per element. -/
def tokens (context : Context) (i : Inscription) : Except EvalError TokenBag := do
  let time ← i.delayTime context
  match ← i.value.eval context with
  | .list items => return items.map fun v => { value := v, time := time }
  | v => return [{ value := v, time := time }]

end Inscription

namespace Interpreter

def evaluate (text : String) (context : Context) : Except EvalError Bool := do
  (← Expr.readText text).holds context

def execute (text : String) (context : Context) : Except EvalError TokenBag := do
  (← Inscription.readText text).tokens context

end Interpreter

def interpreter : Evaluator Id where
  evaluate := Interpreter.evaluate
  execute := Interpreter.execute

/-- What some texts denote, read beforehand. -/
structure Prepared where
  expressions : List (String × Except EvalError Expr)
  inscriptions : List (String × Except EvalError Inscription)

namespace Prepared

def ofTexts (expressions inscriptions : List String) : Prepared where
  expressions := expressions.eraseDups.map fun text => (text, Expr.readText text)
  inscriptions := inscriptions.eraseDups.map fun text => (text, Inscription.readText text)

def expression (prepared : Prepared) (text : String) : Except EvalError Expr :=
  match prepared.expressions.lookup text with
  | some read => read
  | none => Expr.readText text

def inscription (prepared : Prepared) (text : String) : Except EvalError Inscription :=
  match prepared.inscriptions.lookup text with
  | some read => read
  | none => Inscription.readText text

/-- The interpreter, which does not read the prepared texts again. -/
def evaluator (prepared : Prepared) : Evaluator Id where
  evaluate text context := (prepared.expression text).bind (Expr.holds context)
  execute text context := (prepared.inscription text).bind (Inscription.tokens context)

theorem lookup_map {α : Type} (read : String → α) (texts : List String) (text : String) :
    (texts.map fun t => (t, read t)).lookup text = if text ∈ texts then some (read text) else none := by
  induction texts with
  | nil => simp
  | cons t ts ih =>
    by_cases h : text = t
    · subst h; simp
    · have hb : (text == t) = false := by simpa using h
      simp [List.lookup_cons, hb, ih, h]

theorem expression_ofTexts (expressions inscriptions : List String) (text : String) :
    (ofTexts expressions inscriptions).expression text = Expr.readText text := by
  simp only [expression, ofTexts, lookup_map]
  split <;> rename_i h
  · split at h <;> simp_all
  · rfl

theorem inscription_ofTexts (expressions inscriptions : List String) (text : String) :
    (ofTexts expressions inscriptions).inscription text = Inscription.readText text := by
  simp only [inscription, ofTexts, lookup_map]
  split <;> rename_i h
  · split at h <;> simp_all
  · rfl

/-- Preparing changes no answer. -/
theorem evaluator_ofTexts (expressions inscriptions : List String) :
    (ofTexts expressions inscriptions).evaluator = interpreter := by
  simp only [evaluator, interpreter, expression_ofTexts, inscription_ofTexts]
  rfl

end Prepared

/-- What has been read, by text. Texts that could not be read are not kept. -/
structure Cache where
  expressions : List (String × Expr) := []
  inscriptions : List (String × Inscription) := []

namespace Cache

def expression (text : String) : StateM Cache (Except EvalError Expr) := fun cache =>
  match cache.expressions.lookup text with
  | some e => (.ok e, cache)
  | none =>
    match Expr.readText text with
    | .ok e => (.ok e, { cache with expressions := (text, e) :: cache.expressions })
    | .error err => (.error err, cache)

def inscription (text : String) : StateM Cache (Except EvalError Inscription) := fun cache =>
  match cache.inscriptions.lookup text with
  | some i => (.ok i, cache)
  | none =>
    match Inscription.readText text with
    | .ok i => (.ok i, { cache with inscriptions := (text, i) :: cache.inscriptions })
    | .error err => (.error err, cache)

end Cache

/-- Reads each text once. -/
def cachedInterpreter : Evaluator (StateM Cache) where
  evaluate text context := do return (← Cache.expression text).bind (Expr.holds context)
  execute text context := do return (← Cache.inscription text).bind (Inscription.tokens context)

end Petri
