import Petri.Proofs.Except
import Petri.Proofs.Expr.Grammar

/-! # What is read is derived

Whatever reading returns, the lexemes that it has gone over derive it.
-/
namespace Petri.Expr
open Text
set_option autoImplicit false

/-- The lexemes before `rest` have terminals with this property. -/
def Reads (ls rest : Lexemes) (P : List Terminal → Prop) : Prop :=
  ∃ front, ls = front ++ rest ∧ P (front.map Lexeme.terminal)

namespace Reads
variable {ls others rest : Lexemes} {P Q : List Terminal → Prop}

theorem done (h : P []) : Reads ls ls P := ⟨[], rfl, h⟩

theorem cons {l : Lexeme Terminal} (h : Reads ls rest fun ts => P (l.terminal :: ts)) :
    Reads (l :: ls) rest P := by
  obtain ⟨front, rfl, hFront⟩ := h
  exact ⟨l :: front, rfl, hFront⟩

theorem bind (hFirst : Reads ls others P)
    (hSecond : ∀ ts, P ts → Reads others rest fun us => Q (ts ++ us)) : Reads ls rest Q := by
  obtain ⟨front, rfl, hFront⟩ := hFirst
  obtain ⟨back, rfl, hBack⟩ := hSecond _ hFront
  refine ⟨front ++ back, by rw [List.append_assoc], ?_⟩
  rwa [List.map_append]

theorem imp (hPQ : ∀ ts, P ts → Q ts) (h : Reads ls rest P) : Reads ls rest Q := by
  obtain ⟨front, hLs, hFront⟩ := h
  exact ⟨front, hLs, hPQ _ hFront⟩

end Reads

/-- With this much fuel, whatever is read is derived. -/
structure Sound (reading : Reading) (fuel : Nat) : Prop where
  level : ∀ {level ls e rest}, parseLevel reading fuel level ls = .ok (e, rest) →
    Reads ls rest fun ts => Derives level ts e
  chain : ∀ {level lhs ls e rest ts}, Derives level.left ts lhs →
    parseChain reading fuel level lhs ls = .ok (e, rest) →
      Reads ls rest fun us => Derives level (ts ++ us) e
  term : ∀ {ls e rest}, parseTerm reading fuel ls = .ok (e, rest) →
    Reads ls rest fun ts => DerivesTerm ts e
  items : ∀ {close ls items rest}, parseItems reading close fuel ls = .ok (items, rest) →
    Reads ls rest fun ts => ∃ us, ts = us ++ [close] ∧ DerivesItems us items

namespace Sound
variable {reading : Reading} {fuel : Nat}

theorem zero : Sound reading 0 where
  level h := by simp [parseLevel] at h
  chain _ h := by simp [parseChain] at h
  term h := by simp [parseTerm] at h
  items h := by simp [parseItems] at h

theorem level_succ (hFuel : Sound reading fuel) {level : Level} {ls rest : Lexemes} {e : Expr}
    (h : parseLevel reading (fuel + 1) level ls = .ok (e, rest)) :
    Reads ls rest fun ts => Derives level ts e := by
  by_cases hLevel : level = .unary
  · subst hLevel
    unfold parseLevel at h
    dsimp only at h
    split at h
    · obtain ⟨⟨operand, others⟩, hOperand, hRest⟩ := bind_eq_ok_iff.mp h
      cases hRest
      exact .cons ((hFuel.level hOperand).imp fun ts => .not)
    · obtain ⟨⟨operand, others⟩, hOperand, hRest⟩ := bind_eq_ok_iff.mp h
      cases hRest
      exact .cons ((hFuel.level hOperand).imp fun ts => .neg)
    · exact (hFuel.term h).imp fun ts => .ofTerm
  · rw [parseLevel] at h
    · obtain ⟨⟨lhs, others⟩, hOperand, hChain⟩ := bind_eq_ok_iff.mp h
      exact (hFuel.level hOperand).bind fun ts hts => hFuel.chain hts.left_of_tighter hChain
    · exact hLevel

theorem chain_succ (hFuel : Sound reading fuel) {level : Level} {lhs e : Expr} {ls rest : Lexemes}
    {ts : List Terminal} (hLhs : Derives level.left ts lhs)
    (h : parseChain reading (fuel + 1) level lhs ls = .ok (e, rest)) :
    Reads ls rest fun us => Derives level (ts ++ us) e := by
  have hDone : Derives level (ts ++ []) lhs := by
    rw [List.append_nil]
    exact hLhs.of_left
  cases ls with
  | nil =>
    cases h
    exact .done hDone
  | cons l ls =>
    rw [parseChain] at h
    split at h
    · cases h
      exact .done hDone
    · rename_i op hOperator
      obtain ⟨⟨rhs, others⟩, hOperand, hRest⟩ := bind_eq_ok_iff.mp h
      refine .cons ((hFuel.level hOperand).bind ?_)
      intro us hRhs
      have hBoth := hLhs.binary hOperator hRhs
      dsimp only at hRest
      split at hRest
      · cases hRest
        refine .done ?_
        rwa [List.append_nil]
      · rename_i hComparison
        rw [← Level.left_eq_self hComparison] at hBoth
        refine (hFuel.chain hBoth hRest).imp ?_
        intro vs hAll
        rwa [List.append_assoc] at hAll

theorem term_succ (hFuel : Sound reading fuel) {ls rest : Lexemes} {e : Expr}
    (h : parseTerm reading (fuel + 1) ls = .ok (e, rest)) :
    Reads ls rest fun ts => DerivesTerm ts e := by
  unfold parseTerm at h
  dsimp only at h
  split at h
  · split at h
    · rename_i hLimit
      cases h
      exact .cons (.done (.numeral (inRange_iff_lt.mpr hLimit)))
    · cases h
  · cases h
    exact .cons (.done .quoted)
  · cases h
    exact .cons (.done .trueWord)
  · cases h
    exact .cons (.done .falseWord)
  · obtain ⟨⟨args, others⟩, hArgs, hRest⟩ := bind_eq_ok_iff.mp h
    cases hRest
    refine .cons (.cons ((hFuel.items hArgs).imp ?_))
    rintro _ ⟨us, rfl, hItems⟩
    exact .call hItems
  · cases h
  · cases h
    exact .cons (.cons (.done .unit))
  · obtain ⟨⟨first, others⟩, hFirst, hRest⟩ := bind_eq_ok_iff.mp h
    refine .cons ((hFuel.level hFirst).bind ?_)
    intro ts hts
    dsimp only at hRest
    split at hRest
    · cases hRest
      exact .cons (.done (.paren hts))
    · obtain ⟨⟨items, others⟩, hItems, hRest⟩ := bind_eq_ok_iff.mp hRest
      cases hRest
      refine .cons ((hFuel.items hItems).imp ?_)
      rintro _ ⟨us, rfl, hItems⟩
      have hTuple := DerivesTerm.tuple hts hItems
      rwa [List.append_assoc] at hTuple
    · cases hRest
  · obtain ⟨⟨items, others⟩, hItems, hRest⟩ := bind_eq_ok_iff.mp h
    cases hRest
    refine .cons ((hFuel.items hItems).imp ?_)
    rintro _ ⟨us, rfl, hItems⟩
    exact .list hItems
  · cases h

theorem items_succ (hFuel : Sound reading fuel) {close : Terminal} {ls rest : Lexemes}
    {items : List Expr} (h : parseItems reading close (fuel + 1) ls = .ok (items, rest)) :
    Reads ls rest fun ts => ∃ us, ts = us ++ [close] ∧ DerivesItems us items := by
  cases ls with
  | nil => cases h
  | cons l ls =>
    rw [parseItems] at h
    split at h
    · rename_i hEnd
      cases h
      exact .cons (.done ⟨[], by rw [hEnd]; rfl, .nil⟩)
    · obtain ⟨⟨item, others⟩, hItem, hRest⟩ := bind_eq_ok_iff.mp h
      refine (hFuel.level hItem).bind ?_
      intro ts hts
      cases others with
      | nil => cases hRest
      | cons next others =>
        dsimp only at hRest
        split at hRest
        · rename_i hEnd
          cases hRest
          exact .cons (.done ⟨ts, by rw [hEnd], .last hts⟩)
        · split at hRest
          · rename_i hComma
            obtain ⟨⟨items, others⟩, hItems, hRest⟩ := bind_eq_ok_iff.mp hRest
            cases hRest
            refine .cons ((hFuel.items hItems).imp ?_)
            rintro _ ⟨us, rfl, hOthers⟩
            refine ⟨ts ++ .comma :: us, ?_, .cons hts hOthers⟩
            rw [hComma, List.append_assoc, List.cons_append]
          · cases hRest

theorem of_fuel (reading : Reading) (fuel : Nat) : Sound reading fuel := by
  induction fuel with
  | zero => exact zero
  | succ fuel ih => exact ⟨ih.level_succ, ih.chain_succ, ih.term_succ, ih.items_succ⟩

end Sound

theorem eq_nil_of_finish {reading : Reading} {ls : Lexemes} {u : Unit}
    (h : reading.finish ls = .ok u) : ls = [] := by
  cases ls with
  | nil => rfl
  | cons l ls => cases h

theorem derives_of_parseExpression {reading : Reading} {ls : Lexemes} {e : Expr}
    (h : parseExpression reading ls = .ok e) : Derives .or (ls.map Lexeme.terminal) e := by
  obtain ⟨⟨value, rest⟩, hValue, hRest⟩ := bind_eq_ok_iff.mp h
  obtain ⟨_, hFinish, hEnd⟩ := bind_eq_ok_iff.mp hRest
  cases hEnd
  obtain ⟨front, rfl, hFront⟩ := (Sound.of_fuel _ _).level hValue
  cases eq_nil_of_finish hFinish
  rwa [List.append_nil]

theorem derives_of_parseInscription {reading : Reading} {ls : Lexemes} {i : Inscription}
    (h : parseInscription reading ls = .ok i) :
    DerivesInscription (ls.map Lexeme.terminal) i := by
  obtain ⟨⟨value, rest⟩, hValue, hRest⟩ := bind_eq_ok_iff.mp h
  obtain ⟨front, rfl, hFront⟩ := (Sound.of_fuel _ _).level hValue
  dsimp only at hRest
  split at hRest
  · obtain ⟨delay, hDelay, hEnd⟩ := bind_eq_ok_iff.mp hRest
    cases hEnd
    rw [List.map_append]
    exact .delayed hFront (derives_of_parseExpression hDelay)
  · obtain ⟨_, hFinish, hEnd⟩ := bind_eq_ok_iff.mp hRest
    cases hEnd
    cases eq_nil_of_finish hFinish
    rw [List.append_nil]
    exact .plain hFront

end Petri.Expr
