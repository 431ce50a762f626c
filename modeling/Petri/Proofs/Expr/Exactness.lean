import Petri.Proofs.Expr.Completeness

/-! # The parser and the grammar

Reading returns an expression exactly when the terminals derive it. So a sentence has one
expression, and a numeral out of range stands in no sentence.
-/
namespace Petri.Expr
open Text
set_option autoImplicit false

variable {ts : List Terminal} {ls : Lexemes} {offset : Nat} {delays : Bool}

theorem parseExpression_eq_ok_iff {e : Expr} :
    parseExpression ⟨.text offset, delays⟩ ls = .ok e ↔ Derives .or (ls.map Lexeme.terminal) e :=
  ⟨derives_of_parseExpression, parseExpression_of_derives⟩

theorem parseInscription_eq_ok_iff {i : Inscription} :
    parseInscription ⟨.text offset, true⟩ ls = .ok i ↔
      DerivesInscription (ls.map Lexeme.terminal) i :=
  ⟨derives_of_parseInscription, parseInscription_of_derives⟩

/-! ## One expression for each sentence -/

/-- Lexemes with these terminals. -/
def bare (ts : List Terminal) : Lexemes := ts.map fun t => ⟨t, t.spelling, 0⟩

theorem terminals_bare (ts : List Terminal) : (bare ts).map Lexeme.terminal = ts := by
  rw [bare, List.map_map]
  exact List.map_id' ts

theorem Derives.unique {e e' : Expr} (h : Derives .or ts e) (h' : Derives .or ts e') : e = e' := by
  rw [← terminals_bare ts] at h h'
  have hRead : parseExpression ⟨.text 0, false⟩ (bare ts) = .ok e := parseExpression_of_derives h
  rw [parseExpression_of_derives h'] at hRead
  exact (Except.ok.inj hRead).symm

theorem DerivesInscription.unique {i i' : Inscription} (h : DerivesInscription ts i)
    (h' : DerivesInscription ts i') : i = i' := by
  rw [← terminals_bare ts] at h h'
  have hRead : parseInscription ⟨.text 0, true⟩ (bare ts) = .ok i := parseInscription_of_derives h
  rw [parseInscription_of_derives h'] at hRead
  exact (Except.ok.inj hRead).symm

/-! ## Rejection -/

theorem exists_error {ε α : Type} {x : Except ε α} (h : ∀ a, x ≠ .ok a) : ∃ e, x = .error e := by
  cases x with
  | ok a => exact absurd rfl (h a)
  | error e => exact ⟨e, rfl⟩

theorem parseExpression_rejects (h : ∀ e, ¬ Derives .or (ls.map Lexeme.terminal) e) :
    ∃ reason, parseExpression ⟨.text offset, delays⟩ ls = .error reason :=
  exists_error fun e hRead => h e (derives_of_parseExpression hRead)

theorem parseInscription_rejects (h : ∀ i, ¬ DerivesInscription (ls.map Lexeme.terminal) i) :
    ∃ reason, parseInscription ⟨.text offset, true⟩ ls = .error reason :=
  exists_error fun i hRead => h i (derives_of_parseInscription hRead)

/-- The parsers of expressions and of inscriptions read what the grammar derives and nothing else.
Lexemes with a numeral out of range are rejected, and no terminals have two readings. -/
theorem parse_exact :
    (∀ (ls : Lexemes) (offset : Nat),
      (∀ e, parseExpression ⟨.text offset, false⟩ ls = .ok e ↔
        Derives .or (ls.map Lexeme.terminal) e) ∧
      (∀ i, parseInscription ⟨.text offset, true⟩ ls = .ok i ↔
        DerivesInscription (ls.map Lexeme.terminal) i) ∧
      ((∀ e, ¬ Derives .or (ls.map Lexeme.terminal) e) →
        ∃ reason, parseExpression ⟨.text offset, false⟩ ls = .error reason) ∧
      ((∀ i, ¬ DerivesInscription (ls.map Lexeme.terminal) i) →
        ∃ reason, parseInscription ⟨.text offset, true⟩ ls = .error reason) ∧
      ((∃ l ∈ ls, ¬ Moderate l.terminal) →
        (∃ reason, parseExpression ⟨.text offset, false⟩ ls = .error reason) ∧
        ∃ reason, parseInscription ⟨.text offset, true⟩ ls = .error reason)) ∧
    (∀ ts e e', Derives .or ts e → Derives .or ts e' → e = e') ∧
    ∀ ts i i', DerivesInscription ts i → DerivesInscription ts i' → i = i' := by
  refine ⟨fun ls offset => ⟨fun e => parseExpression_eq_ok_iff, fun i => parseInscription_eq_ok_iff,
    parseExpression_rejects, parseInscription_rejects, ?_⟩, fun _ _ _ => Derives.unique,
    fun _ _ _ => DerivesInscription.unique⟩
  rintro ⟨l, hl, hLarge⟩
  have hMem := List.mem_map_of_mem (f := Lexeme.terminal) hl
  constructor
  · exact parseExpression_rejects fun e h => hLarge (h.moderate _ hMem)
  · exact parseInscription_rejects fun i h => hLarge (h.moderate _ hMem)

/-- A pair with a comma behind it and a delay. -/
def delayedPair : List Terminal :=
  [.openParen, .numeral ['1'], .comma, .numeral ['2'], .comma, .closeParen, .atSign, .numeral ['3']]

/-- Two comparisons in a row. -/
def chained : List Terminal := [.numeral ['1'], .less, .numeral ['2'], .less, .numeral ['3']]

/-- The least numeral out of range. -/
def tooLarge : List Terminal := [.numeral (toString 0x8000000000000000).toList]

theorem parse_exact_delayedPair :
    (∃ i, parseInscription ⟨.text 0, true⟩ (bare delayedPair) = .ok i ∧
      DerivesInscription delayedPair i) ∧
      (∀ e, ¬ Derives .or chained e) ∧
      ∃ reason, parseExpression ⟨.text 0, false⟩ (bare tooLarge) = .error reason := by
  obtain ⟨hAll, _⟩ := parse_exact
  refine ⟨?_, ?_, ?_⟩
  · obtain ⟨_, hInscription, _⟩ := hAll (bare delayedPair) 0
    refine ⟨_, by rfl, ?_⟩
    exact (hInscription _).mp (by rfl)
  · obtain ⟨hExpression, _⟩ := hAll (bare chained) 0
    intro e h
    have hRead := (hExpression e).mpr h
    obtain ⟨reason, hError⟩ :
        ∃ reason, parseExpression ⟨.text 0, false⟩ (bare chained) = .error reason := ⟨_, by rfl⟩
    rw [hError] at hRead
    cases hRead
  · obtain ⟨_, _, _, _, hReject⟩ := hAll (bare tooLarge) 0
    exact (hReject ⟨_, List.mem_singleton.mpr rfl, fun h => absurd (h _ rfl) (by decide)⟩).1

end Petri.Expr
