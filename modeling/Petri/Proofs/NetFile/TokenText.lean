import Petri.Interpreter
import Petri.NetFile.Printer
import Petri.Proofs.Expr.Completeness
import Petri.Proofs.Expr.Readback

/-! # The texts of tokens

A token without a text is written as a literal with its time as the delay. The interpreter reads
this text exactly when its numerals are in range, and what it makes of it is known then.
-/
namespace Petri
open Text Petri.Expr
set_option autoImplicit false

namespace Value

theorem signed_of_natAbs_lt {n : Int} (h : n.natAbs < numeralLimit) : Signed n := by
  rw [numeralLimit] at h
  refine ⟨⟨?_, ?_⟩, ?_⟩ <;> omega

mutual

/-- Every integer in a value leaves a numeral in its literal. -/
theorem numeral_mem_terminals {n : Int} : ∀ v : Value, .int n ∈ v.parts →
    .numeral (toString n.natAbs).toList ∈ v.terminals
  | unit, h | bool _, h | str _, h => by simp [parts] at h
  | int (.ofNat m), h => by
    cases List.mem_singleton.mp h
    simp [terminals]
  | int (.negSucc m), h => by
    cases List.mem_singleton.mp h
    simp [terminals]
  | tuple [], h => by simp [parts, itemParts] at h
  | tuple (v :: vs), h => by
    simp only [parts, itemParts, List.mem_cons, List.mem_append, reduceCtorEq, false_or] at h
    rcases h with h | h
    · simp only [terminals, List.mem_cons, List.mem_append, numeral_mem_terminals v h, true_or,
        or_true]
    · simp only [terminals, List.mem_cons, List.mem_append, numeral_mem_itemTerminals vs h, true_or,
        or_true]
  | list vs, h => by
    simp only [parts, List.mem_cons, reduceCtorEq, false_or] at h
    simp only [terminals, List.mem_cons, List.mem_append, numeral_mem_itemTerminals vs h, true_or,
        or_true]

theorem numeral_mem_itemTerminals {n : Int} : ∀ vs : List Value, .int n ∈ itemParts vs →
    .numeral (toString n.natAbs).toList ∈ itemTerminals vs
  | [], h => by simp [itemParts] at h
  | [v], h => by
    simp only [itemParts, List.append_nil] at h
    exact numeral_mem_terminals v h
  | v :: w :: vs, h => by
    rw [itemParts, List.mem_append] at h
    rcases h with h | h
    · simp only [itemTerminals, List.mem_cons, List.mem_append, numeral_mem_terminals v h, true_or]
    · simp only [itemTerminals, List.mem_cons, List.mem_append,
        numeral_mem_itemTerminals (w :: vs) h, or_true]

end

end Value

namespace Token

/-- The numerals of the token's text are in range. -/
structure Legible (t : Token) : Prop where
  time : t.time < numeralLimit
  signed : ∀ n, .int n ∈ t.value.parts → Value.Signed n

/-- The token can be made by an inscription that is written for it. -/
structure Savable (t : Token) : Prop extends t.Legible where
  single : t.value.kind ≠ .list
  solid : .tuple [] ∉ t.value.parts

/-- The terminals of the token's text when it has none of its own. -/
def terminals (t : Token) : List Terminal :=
  t.value.terminals ++ if t.timed then [.atSign, .numeral (toString t.time).toList] else []

def reread (t : Token) : TokenBag :=
  match t.value with
  | .list items => (Value.rereadItems items).map fun v => { value := v, time := t.time }
  | v => [{ value := v.reread, time := t.time }]

theorem time_eq_zero_of_not_timed {t : Token} (h : ¬ t.timed = true) : t.time = 0 := by
  simpa [timed] using h

end Token

namespace NetFile
open Token
variable {t : Token}

theorem scans_tokenText (hText : t.text = none) :
    Expr.lexicon.Scans (tokenText t).toList t.terminals := by
  have hValue := t.value.chunk_literal
  rw [tokenText, hText, Token.terminals]
  dsimp only
  split
  · have hDelay : Expr.lexicon.Piece isWordPart ('@' :: (toString t.time).toList)
        [.atSign, .numeral (toString t.time).toList] :=
      ⟨Expr.symbol_atSign.cons (Expr.chunk_numeral t.time), fun _ _ => ends_cons (by decide) _⟩
    have hChars : s!"@{t.time}".toList = '@' :: (toString t.time).toList := String.toList_append
    rw [String.toList_append, hChars]
    exact (hValue.append hDelay).whole
  · rw [List.append_nil]
    exact hValue.whole

/-- The terminals of a token's text are an inscription of the grammar. -/
theorem derives_terminals (hLegible : t.Legible) :
    DerivesInscription t.terminals
      ⟨t.value.expr, if t.timed then some (.literal (.int t.time)) else none⟩ := by
  have hValue := t.value.derives_literal hLegible.signed
  rw [Token.terminals]
  split
  · exact .delayed hValue (.of_term (derivesTerm_natural hLegible.time))
  · rw [List.append_nil]
    exact .plain hValue

/-- A token's text is read as an inscription with the value and the time of the token. -/
theorem ofText_tokenText (hText : t.text = none) (hLegible : t.Legible) :
    Inscription.ofText (tokenText t) =
      .ok ⟨t.value.expr, if t.timed then some (.literal (.int t.time)) else none⟩ := by
  obtain ⟨hTerminals, offset, hEnding⟩ := (scans_tokenText hText).scan
  rw [Inscription.ofText, hEnding]
  refine parseInscription_of_derives ?_
  rw [hTerminals]
  exact derives_terminals hLegible

/-- What cannot be written with numerals in range is not read back. -/
theorem legible_of_ofText (hText : t.text = none) {i : Inscription}
    (h : Inscription.ofText (tokenText t) = .ok i) : t.Legible := by
  obtain ⟨hTerminals, _, _⟩ := (scans_tokenText hText).scan
  have hModerate := (derives_of_parseInscription h).moderate
  rw [hTerminals] at hModerate
  have hNumeral : ∀ n : Nat, .numeral (toString n).toList ∈ t.terminals → n < numeralLimit := by
    intro n hn
    have hRange := hModerate _ hn _ rfl
    rw [ofDigitChars_toString] at hRange
    exact inRange_iff_lt.mp hRange
  constructor
  · by_cases hTimed : t.timed = true
    · exact hNumeral t.time (by rw [Token.terminals, if_pos hTimed]; simp)
    · rw [time_eq_zero_of_not_timed hTimed]
      decide
  · intro n hn
    refine Value.signed_of_natAbs_lt (hNumeral _ ?_)
    exact List.mem_append_left _ (Value.numeral_mem_terminals t.value hn)

theorem execute_tokenText (hText : t.text = none) (hLegible : t.Legible) (context : Context) :
    interpreter.execute (tokenText t) context = .ok t.reread := by
  have hRead : Inscription.readText (tokenText t) =
      .ok ⟨t.value.expr, if t.timed then some (.literal (.int t.time)) else none⟩ := by
    rw [Inscription.readText, ofText_tokenText hText hLegible]
  have hValue := Value.eval_expr t.value hLegible.signed context
  have hDelay : Inscription.delayTime context
      ⟨t.value.expr, if t.timed then some (.literal (.int t.time)) else none⟩ = .ok t.time := by
    rw [Inscription.delayTime]
    by_cases hTimed : t.timed = true
    · rw [if_pos hTimed]
      exact rfl
    · simp [hTimed, time_eq_zero_of_not_timed hTimed]
  change Interpreter.execute (tokenText t) context = _
  rw [Interpreter.execute, hRead]
  simp only [bind, Except.bind, Inscription.tokens, hDelay, hValue, Token.reread]
  cases t.value with
  | unit | bool b | int n | str s | list vs => rfl
  | tuple vs => cases vs <;> rfl

theorem legible_of_execute (hText : t.text = none) {context : Context} {made : TokenBag}
    (h : interpreter.execute (tokenText t) context = .ok made) : t.Legible := by
  obtain ⟨i, hRead, _⟩ := bind_eq_ok_iff.mp h
  rw [Inscription.readText] at hRead
  split at hRead
  · rename_i hOfText
    exact legible_of_ofText hText hOfText
  · cases hRead

end NetFile

/-! ## Literals in brackets -/

namespace Value

/-- The literal between brackets is the text of a token that carries a list of this one value. -/
theorem tokenText_singleton (v : Value) :
    NetFile.tokenText { value := .list [v] } = "[" ++ v.literal ++ "]" := by
  rw [← String.toList_inj]
  simp [NetFile.tokenText, Token.timed, literal, literalItems]

theorem legible_singleton_iff {v : Value} :
    Token.Legible { value := .list [v] } ↔ ∀ n, .int n ∈ v.parts → Signed n := by
  have hParts : ∀ n, .int n ∈ (list [v]).parts ↔ .int n ∈ v.parts := by simp [parts, itemParts]
  refine ⟨fun h n hn => h.signed n ((hParts n).mpr hn), fun h => ⟨?_, fun n hn => ?_⟩⟩
  · exact (by decide : 0 < numeralLimit)
  · exact h n ((hParts n).mp hn)

/-- A value without empty tuples has a literal that evaluates back to it, in every context and as one
untimed token, unless the least integer stands somewhere in the value. The literal of such a value
cannot be read at all, since no numeral denotes the absolute value of that integer. -/
theorem literal_evaluates_back_iff {v : Value} (hRange : ∀ n, .int n ∈ v.parts → InRange n)
    (hSolid : .tuple [] ∉ v.parts) :
    let text := "[" ++ v.literal ++ "]"
    (.int (-0x8000000000000000) ∉ v.parts →
      ∀ context, interpreter.execute text context = .ok [{ value := v }]) ∧
    (.int (-0x8000000000000000) ∈ v.parts → ∃ reason, Inscription.ofText text = .error reason ∧
      ∀ context, interpreter.execute text context = .error (.malformed text reason)) := by
  rw [← tokenText_singleton]
  constructor
  · intro hLeast context
    have hSigned : ∀ n, .int n ∈ v.parts → Signed n :=
      fun n hn => ⟨hRange n hn, fun hMin => hLeast (hMin ▸ hn)⟩
    rw [NetFile.execute_tokenText rfl (legible_singleton_iff.mpr hSigned)]
    simp [Token.reread, rereadItems, reread_eq_self v hSolid]
  · intro hLeast
    cases hText : Inscription.ofText (NetFile.tokenText { value := .list [v] }) with
    | ok i =>
      have hSigned := legible_singleton_iff.mp (NetFile.legible_of_ofText rfl hText)
      exact absurd rfl (hSigned _ hLeast).2
    | error reason =>
      refine ⟨reason, rfl, fun context => ?_⟩
      change Interpreter.execute _ context = _
      rw [Interpreter.execute, Inscription.readText, hText]
      rfl

/-- The greatest integer, the one after the least and an odd string come back from deep within a
value, and the least integer does not. -/
theorem literal_evaluates_back_iff_corners :
    (∀ context, interpreter.execute
      ("[" ++ (tuple [list [int 0x7fffffffffffffff, str "\"\\\n"], tuple [int (-0x7fffffffffffffff)],
        unit]).literal ++ "]") context =
      .ok [{ value := tuple [list [int 0x7fffffffffffffff, str "\"\\\n"],
        tuple [int (-0x7fffffffffffffff)], unit] }]) ∧
    ∃ reason, ∀ context, interpreter.execute
      ("[" ++ (list [int (-0x8000000000000000)]).literal ++ "]") context =
        .error (.malformed ("[" ++ (list [int (-0x8000000000000000)]).literal ++ "]") reason) := by
  constructor
  · refine (literal_evaluates_back_iff ?_ ?_).1 ?_
    · simp [parts, itemParts, InRange]
    · simp [parts, itemParts]
    · simp [parts, itemParts]
  · obtain ⟨reason, _, hExecute⟩ := (@literal_evaluates_back_iff (list [int (-0x8000000000000000)])
      (by simp [parts, itemParts, InRange]) (by simp [parts, itemParts])).2
        (by simp [parts, itemParts])
    exact ⟨reason, hExecute⟩

end Value
end Petri
