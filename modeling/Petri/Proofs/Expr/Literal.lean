import Petri.Expr.Parser
import Petri.Proofs.Text.Scanning

/-! # The terminals of a literal

The literal of a value scans as a fixed list of terminals, whatever characters the strings in it
have, when no letter, digit or underscore follows it.
-/
namespace Petri
open Text
set_option autoImplicit false

namespace Expr

theorem Terminal.read_of_isDigit {c : Char} (hDigit : c.isDigit = true) (cs : List Char) :
    Terminal.read (c :: cs) = some (.numeral (c :: cs.takeWhile Char.isDigit)) := by
  unfold Terminal.read
  dsimp only
  split <;> first | simp at hDigit | simp_all

theorem Terminal.read_of_isWordStart {c : Char} (hStart : isWordStart c = true)
    (cs : List Char) :
    Terminal.read (c :: cs) = some (Terminal.ofWord (c :: cs.takeWhile isWordPart)) := by
  have hDigit := isDigit_of_isWordStart hStart
  unfold Terminal.read
  dsimp only
  split <;> first | (simp [isWordStart] at hStart; done) | simp_all

theorem gap_eq_nil {c : Char} (hBlank : isBlank c = false) (cs : List Char) :
    lexicon.gap (c :: cs) = [] := by
  simp [lexicon, hBlank]

theorem gap_space (cs : List Char) : lexicon.gap (' ' :: cs) = ' ' :: lexicon.gap cs := by
  simp [lexicon, show isBlank ' ' = true from by decide]

theorem symbol_of_read {t : Terminal} {c : Char} (hSpelling : t.spelling = [c])
    (hBlank : isBlank c = false) (hRead : ∀ rest, Terminal.read (c :: rest) = some t) :
    lexicon.Symbol c [] t :=
  ⟨hSpelling, gap_eq_nil hBlank, hRead⟩

theorem symbol_openParen : lexicon.Symbol '(' [] .openParen :=
  symbol_of_read rfl (by decide) fun _ => rfl

theorem symbol_closeParen : lexicon.Symbol ')' [] .closeParen :=
  symbol_of_read rfl (by decide) fun _ => rfl

theorem symbol_openBracket : lexicon.Symbol '[' [] .openBracket :=
  symbol_of_read rfl (by decide) fun _ => rfl

theorem symbol_closeBracket : lexicon.Symbol ']' [] .closeBracket :=
  symbol_of_read rfl (by decide) fun _ => rfl

theorem symbol_comma : lexicon.Symbol ',' [] .comma :=
  symbol_of_read rfl (by decide) fun _ => rfl

theorem symbol_atSign : lexicon.Symbol '@' [] .atSign :=
  symbol_of_read rfl (by decide) fun _ => rfl

theorem symbol_minus : lexicon.Symbol '-' [] .minus :=
  symbol_of_read rfl (by decide) fun cs => by unfold Terminal.read; rfl

theorem chunk_numeral (n : Nat) :
    lexicon.Chunk isWordPart (toString n).toList [.numeral (toString n).toList] := by
  obtain ⟨c, cs, hDigits, hDigit, hAll⟩ := exists_digits n
  rw [hDigits]
  exact .run rfl (gap_eq_nil (isBlank_of_isWordPart (isWordPart_of_isDigit hDigit)))
    (Terminal.read_of_isDigit hDigit) hAll fun _ => isWordPart_of_isDigit

theorem Terminal.spelling_ofWord (word : List Char) : (Terminal.ofWord word).spelling = word := by
  unfold Terminal.ofWord
  split
  · simp_all
  · split <;> simp_all [Terminal.spelling]

theorem chunk_word {c : Char} {cs : List Char} (hStart : isWordStart c = true)
    (hAll : cs.all isWordPart = true) :
    lexicon.Chunk isWordPart (c :: cs) [Terminal.ofWord (c :: cs)] :=
  .run (Terminal.spelling_ofWord _)
    (gap_eq_nil (isBlank_of_isWordPart (isWordPart_of_isWordStart hStart)))
    (Terminal.read_of_isWordStart hStart) (List.all_eq_true.mp hAll) fun _ hPart => hPart

theorem chunk_quote (text : String) :
    lexicon.Chunk isWordPart (Quoted.quote text).toList
      [.quoted (Quoted.escape text.toList)] := by
  rw [Quoted.toList_quote]
  refine .terminal rfl (gap_eq_nil (by decide)) fun rest _ => ?_
  simp [lexicon, Terminal.read, Quoted.body_escape]

end Expr

namespace Value
open Petri.Expr

mutual

def terminals : Value → List Terminal
  | unit => [.openParen, .closeParen]
  | bool b => [if b then .trueWord else .falseWord]
  | int (.ofNat n) => [.numeral (toString n).toList]
  | int (.negSucc n) => [.minus, .numeral (toString (n + 1)).toList]
  | str s => [.quoted (Quoted.escape s.toList)]
  | tuple [] => [.openParen, .closeParen]
  | tuple (v :: vs) => .openParen :: (terminals v ++ .comma :: (itemTerminals vs ++ [.closeParen]))
  | list vs => .openBracket :: (itemTerminals vs ++ [.closeBracket])

def itemTerminals : List Value → List Terminal
  | [] => []
  | [v] => terminals v
  | v :: w :: vs => terminals v ++ .comma :: itemTerminals (w :: vs)

end

theorem toList_intercalate_cons (v w : Value) (vs : List Value) :
    (String.intercalate ", " (literalItems (v :: w :: vs))).toList =
      v.literal.toList ++ ',' :: ' ' ::
        (String.intercalate ", " (literalItems (w :: vs))).toList := by
  simp [literalItems, String.toList_intercalate]

theorem toList_literal_negSucc (n : Nat) :
    (int (.negSucc n)).literal.toList = '-' :: (toString (n + 1)).toList := by
  rw [literal, Int.toString_eq_repr, Nat.toString_eq_repr, Int.repr, String.toList_append]
  rfl

theorem piece_closeParen : lexicon.Piece isWordPart [')'] [.closeParen] :=
  symbol_closeParen.piece (by decide)

theorem piece_closeBracket : lexicon.Piece isWordPart [']'] [.closeBracket] :=
  symbol_closeBracket.piece (by decide)

theorem piece_comma : lexicon.Piece isWordPart [','] [.comma] :=
  symbol_comma.piece (by decide)

mutual

theorem chunk_literal : ∀ v : Value, lexicon.Chunk isWordPart v.literal.toList v.terminals
  | unit => symbol_openParen.cons piece_closeParen.chunk
  | bool true => chunk_word (by decide) (by decide)
  | bool false => chunk_word (by decide) (by decide)
  | int (.ofNat n) => chunk_numeral n
  | int (.negSucc n) => by
    rw [toList_literal_negSucc]
    exact symbol_minus.cons (chunk_numeral (n + 1))
  | str s => chunk_quote s
  | tuple [] => symbol_openParen.cons piece_closeParen.chunk
  | tuple [v] => by
    have hItem := symbol_openParen.cons
      ((chunk_literal v).append (piece_comma.append piece_closeParen))
    simpa [literal, terminals, itemTerminals] using hItem
  | tuple (v :: w :: vs) => by
    have hItems := symbol_openParen.cons ((chunk_items (v :: w :: vs)).append piece_closeParen)
    simpa [literal, terminals, itemTerminals] using hItems
  | list vs => by
    have hItems := symbol_openBracket.cons ((chunk_items vs).append piece_closeBracket)
    simpa [literal, terminals] using hItems

theorem chunk_items : ∀ vs : List Value, lexicon.Chunk isWordPart
    (String.intercalate ", " (literalItems vs)).toList (itemTerminals vs)
  | [] => .nil
  | [v] => by simpa [literalItems, itemTerminals] using chunk_literal v
  | v :: w :: vs => by
    have hOthers := (chunk_items (w :: vs)).skip (c := ' ') (by decide) gap_space
    rw [toList_intercalate_cons]
    simpa [itemTerminals] using (chunk_literal v).append (piece_comma.append hOthers)

end

end Value
end Petri
