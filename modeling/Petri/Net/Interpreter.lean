import Petri.Interpreter
import Petri.Net.Basic

/-! # The interpreter for a net

A run asks for the same texts again and again, so those of the net are read once, before it starts.
-/
namespace Petri.Net
set_option autoImplicit false

/-- The interpreter, with the texts of a net read beforehand. -/
def interpreter (net : Net) : Evaluator Id :=
  (Prepared.ofTexts net.predicates net.inscriptions).evaluator

theorem interpreter_eq (net : Net) : net.interpreter = Petri.interpreter :=
  Prepared.evaluator_ofTexts _ _

end Petri.Net
