import Petri.Proofs.Expr.Literal
import Petri.Proofs.NetFile.Lexing

/-! # Quoted texts

A quoted text is one string wherever it stands: the lexer of net files and that of expressions cut it
off at its closing quote, whatever follows, and unescaping gives the text back. Unescaping a string
never comes to a backslash with nothing behind it.
-/
namespace Petri.Text
open NetFile (IsBody isBody_of_body)
set_option autoImplicit false

/-! ## Strings at the head of a text -/

def inQuotes (body : List Char) : List Char := '"' :: (body ++ ['"'])

theorem body_eq_some_iff {cs body : List Char} :
    Quoted.body cs = some body ↔ IsBody body ∧ body ++ ['"'] <+: cs := by
  constructor
  · intro h
    obtain ⟨hBody, rest, rfl⟩ := isBody_of_body h
    exact ⟨hBody, rest, by simp⟩
  · rintro ⟨hBody, rest, rfl⟩
    rw [List.append_assoc]
    exact hBody.body_append rest

theorem body_closed {body : List Char} (h : IsBody body) (rest : List Char) :
    Quoted.body (body ++ ['"'] ++ rest) = some body :=
  body_eq_some_iff.mpr ⟨h, List.prefix_append _ rest⟩

namespace Lexicon
variable {τ : Type} (lexicon : Lexicon τ)

/-- Scanning finds one lexeme at the head of a text, which ends where `cs` does, and goes on with what
follows. -/
def Cuts (cs rest : List Char) (t : τ) : Prop :=
  ∀ fuel offset, lexicon.scanFrom (fuel + 1) offset (cs ++ rest) =
    let tail := lexicon.scanFrom fuel (offset + byteLength cs) rest
    ⟨⟨t, cs, offset⟩ :: tail.lexemes, tail.invalid⟩

/-- What the lexicon reads as a string is what matches the pattern of strings. -/
structure ReadsStrings (quoted : List Char → τ) : Prop where
  gap : ∀ cs, lexicon.gap ('"' :: cs) = []
  read_eq_some_iff : ∀ {text body},
    lexicon.read text = some (quoted body) ↔ IsBody body ∧ inQuotes body <+: text
  spelling : ∀ body, lexicon.spelling (quoted body) = inQuotes body

variable {lexicon} {quoted : List Char → τ}

theorem ReadsStrings.cuts (h : lexicon.ReadsStrings quoted) {body : List Char} (hBody : IsBody body)
    (rest : List Char) : lexicon.Cuts (inQuotes body) rest (quoted body) := by
  intro fuel offset
  have hGap : lexicon.gap (inQuotes body ++ rest) = [] := h.gap _
  have hRead : lexicon.read (inQuotes body ++ rest) = some (quoted body) :=
    h.read_eq_some_iff.mpr ⟨hBody, List.prefix_append _ rest⟩
  have hSpelling := h.spelling body
  have hDrop : (inQuotes body ++ rest).drop (inQuotes body).length = rest := List.drop_left
  have hStart : offset + byteLength [] = offset := rfl
  obtain ⟨c, cs, hText⟩ : ∃ c cs, inQuotes body ++ rest = c :: cs := ⟨_, _, rfl⟩
  rw [hText] at hGap hRead hDrop ⊢
  simp only [Lexicon.scanFrom, hGap, List.length_nil, List.drop_zero, hRead, hSpelling, hDrop,
    hStart]

end Lexicon

theorem isBody_of_matches {cs body : List Char}
    (h : NetFile.Matches cs (some (.quoted body))) : IsBody body := by
  cases h with
  | quoted hBody => exact hBody

theorem readsStrings_netFile : NetFile.lexicon.ReadsStrings .quoted where
  gap := NetFile.gap_eq_nil (by decide) (by decide)
  read_eq_some_iff {text body} := by
    constructor
    · intro h
      obtain ⟨hPrefix, hMatches⟩ := NetFile.matches_of_read h
      exact ⟨isBody_of_matches hMatches, hPrefix⟩
    · rintro ⟨hBody, rest, rfl⟩
      change (Quoted.body (body ++ ['"'] ++ rest)).map NetFile.Terminal.quoted = _
      rw [body_closed hBody, Option.map_some]
  spelling _ := rfl

theorem expr_read_quote (cs : List Char) :
    Expr.Terminal.read ('"' :: cs) = (Quoted.body cs).map .quoted := by
  unfold Expr.Terminal.read
  rfl

theorem head_of_expr_read {c : Char} {cs body : List Char}
    (h : Expr.Terminal.read (c :: cs) = some (.quoted body)) : c = '"' := by
  have hWord (word : List Char) : Expr.Terminal.ofWord word ≠ .quoted body := by
    unfold Expr.Terminal.ofWord
    split
    · nofun
    · split <;> nofun
  unfold Expr.Terminal.read at h
  dsimp only at h
  split at h
  any_goals first | rfl | cases h
  split at h
  · cases h
  · split at h
    · exact absurd (Option.some.inj h) (hWord _)
    · cases h

theorem readsStrings_expr : Expr.lexicon.ReadsStrings .quoted where
  gap := Expr.gap_eq_nil (by decide)
  read_eq_some_iff {text body} := by
    constructor
    · intro h
      obtain _ | ⟨c, cs⟩ := text
      · cases h
      obtain rfl := head_of_expr_read h
      change Expr.Terminal.read ('"' :: cs) = _ at h
      rw [expr_read_quote] at h
      obtain ⟨_, hInside, hSame⟩ := Option.map_eq_some_iff.mp h
      cases hSame
      obtain ⟨hBody, hPrefix⟩ := body_eq_some_iff.mp hInside
      exact ⟨hBody, List.cons_prefix_cons.mpr ⟨rfl, hPrefix⟩⟩
    · rintro ⟨hBody, rest, rfl⟩
      change Expr.Terminal.read ('"' :: (body ++ ['"'] ++ rest)) = _
      rw [expr_read_quote, body_closed hBody, Option.map_some]
  spelling _ := rfl

namespace Quoted

/-! ## Escaping -/

theorem isBody_escape (cs : List Char) : IsBody (escape cs) := by
  induction cs with
  | nil => exact .nil
  | cons c cs ih =>
    by_cases hSpecial : c = '\\' ∨ c = '"'
    · rw [escape, if_pos hSpecial]
      refine .escaped ?_ ih
      rcases hSpecial with rfl | rfl <;> decide
    · rw [escape, if_neg hSpecial]
      rw [not_or] at hSpecial
      exact .plain hSpecial.2 hSpecial.1 ih

/-- Puts a text in the place of a character wherever that stands. -/
def replace (old : Char) (new cs : List Char) : List Char :=
  cs.flatMap fun c => if c = old then new else [c]

/-- Escaping does at once what can be done for backslashes first and for quotes after them. -/
theorem escape_eq_replace (cs : List Char) :
    escape cs = replace '"' ['\\', '"'] (replace '\\' ['\\', '\\'] cs) := by
  induction cs with
  | nil => rfl
  | cons c cs ih =>
    have hAppend (ds es : List Char) :
        replace '"' ['\\', '"'] (ds ++ es) =
          replace '"' ['\\', '"'] ds ++ replace '"' ['\\', '"'] es :=
      List.flatMap_append
    have hCons : replace '\\' ['\\', '\\'] (c :: cs) =
        (if c = '\\' then ['\\', '\\'] else [c]) ++ replace '\\' ['\\', '\\'] cs :=
      List.flatMap_cons
    rw [hCons, hAppend, ← ih, escape]
    by_cases hBackslash : c = '\\'
    · subst hBackslash
      rfl
    · by_cases hQuote : c = '"'
      · subst hQuote
        rfl
      · simp [replace, hBackslash, hQuote]

/-! ## Unescaping step by step -/

/-- What a pair of a backslash and a character denotes. -/
def denoted (c : Char) : Char := if c = 'n' then '\n' else if c = 't' then '\t' else c

/-- Unescaping has written `out` and has `left` before it. A lone backslash is not gone past. -/
inductive Unescaping (body : List Char) : List Char → List Char → Prop where
  | start : Unescaping body [] body
  | pair {c : Char} {out cs : List Char} (h : Unescaping body out ('\\' :: c :: cs)) :
    Unescaping body (out ++ [denoted c]) cs
  | plain {c : Char} {out cs : List Char} (hBackslash : c ≠ '\\') (h : Unescaping body out (c :: cs)) :
    Unescaping body (out ++ [c]) cs

theorem unescape_pair (c : Char) (cs : List Char) :
    unescape ('\\' :: c :: cs) = denoted c :: unescape cs := rfl

theorem unescape_plain {c : Char} (hBackslash : c ≠ '\\') (cs : List Char) :
    unescape (c :: cs) = c :: unescape cs := by
  rw [unescape]
  · exact fun h => absurd h hBackslash
  · exact fun _ _ h => absurd h hBackslash

namespace Unescaping
variable {body out left : List Char}

theorem unescape_eq (h : Unescaping body out left) : unescape body = out ++ unescape left := by
  induction h with
  | start => rfl
  | pair _ ih => rw [ih, unescape_pair, List.append_assoc, List.singleton_append]
  | plain hBackslash _ ih =>
    rw [ih, unescape_plain hBackslash, List.append_assoc, List.singleton_append]

theorem isBody (h : Unescaping body out left) (hBody : IsBody body) : IsBody left := by
  induction h with
  | start => exact hBody
  | pair _ ih =>
    cases ih with
    | plain _ hBackslash => exact absurd rfl hBackslash
    | escaped _ hRest => exact hRest
  | plain hBackslash _ ih =>
    cases ih with
    | plain _ _ hRest => exact hRest
    | escaped => exact absurd rfl hBackslash

theorem left_ne_backslash (h : Unescaping body out left) (hBody : IsBody body) : left ≠ ['\\'] := by
  rintro rfl
  cases h.isBody hBody with
  | plain _ hBackslash => exact hBackslash rfl

theorem exists_finished (h : Unescaping body out left) (hBody : IsBody left) :
    ∃ whole, Unescaping body whole [] := by
  induction hBody generalizing out with
  | nil => exact ⟨out, h⟩
  | plain _ hBackslash _ ih => exact ih (h.plain hBackslash)
  | escaped _ _ ih => exact ih h.pair

end Unescaping

theorem unescaping_of_isBody {body : List Char} (h : IsBody body) :
    Unescaping body (unescape body) [] := by
  obtain ⟨whole, hWhole⟩ := Unescaping.start.exists_finished h
  have hUnescape : unescape body = whole := by rw [hWhole.unescape_eq, unescape, List.append_nil]
  rwa [hUnescape]

/-- Whatever follows a quoted text, both lexers read it as one string that ends where it does, and the
text is what its body denotes; and unescaping goes through the body of every string without meeting a
lone backslash. Quoting escapes the backslashes and then the quotes. -/
theorem quoting_is_undone (text : String) (rest : List Char) :
    (∃ body, (quote text).toList = inQuotes body ∧
      body = replace '"' ['\\', '"'] (replace '\\' ['\\', '\\'] text.toList) ∧
      NetFile.lexicon.Cuts (quote text).toList rest (.quoted body) ∧
      Expr.lexicon.Cuts (quote text).toList rest (.quoted body) ∧
      String.ofList (unescape body) = text) ∧
    (∀ cs body, (NetFile.lexicon.read cs = some (.quoted body) ↔ IsBody body ∧ inQuotes body <+: cs) ∧
      (Expr.lexicon.read cs = some (.quoted body) ↔ IsBody body ∧ inQuotes body <+: cs)) ∧
    ∀ body, IsBody body → Unescaping body (unescape body) [] ∧
      ∀ out left, Unescaping body out left → left ≠ ['\\'] := by
  refine ⟨⟨escape text.toList, toList_quote text, escape_eq_replace _, ?_, ?_,
    ofList_unescape_escape text⟩, fun cs body => ?_, fun body hBody => ?_⟩
  · rw [toList_quote]
    exact readsStrings_netFile.cuts (isBody_escape _) rest
  · rw [toList_quote]
    exact readsStrings_expr.cuts (isBody_escape _) rest
  · exact ⟨readsStrings_netFile.read_eq_some_iff, readsStrings_expr.read_eq_some_iff⟩
  · exact ⟨unescaping_of_isBody hBody, fun _ _ hStep => hStep.left_ne_backslash hBody⟩

/-- A backslash before a line feed and a quote, and behind the quoted text another quote. -/
theorem quoting_is_undone_corners :
    NetFile.lexicon.Cuts (quote "\\\n\"").toList ['"', 'x']
        (.quoted ['\\', '\\', '\n', '\\', '"']) ∧
      Expr.lexicon.Cuts (quote "\\\n\"").toList ['"', 'x']
        (.quoted ['\\', '\\', '\n', '\\', '"']) ∧
      IsBody ['\\', 'n', '\\', '\\'] ∧
      Unescaping ['\\', 'n', '\\', '\\'] ['\n', '\\'] [] ∧
      ∀ out left, Unescaping ['\\', 'n', '\\', '\\'] out left → left ≠ ['\\'] := by
  obtain ⟨⟨_, _, rfl, hNetFile, hExpr, _⟩, _, hBodies⟩ := quoting_is_undone "\\\n\"" ['"', 'x']
  have hBody : IsBody ['\\', 'n', '\\', '\\'] :=
    .escaped (by decide) (.escaped (by decide) .nil)
  obtain ⟨hWhole, hNever⟩ := hBodies _ hBody
  exact ⟨hNetFile, hExpr, hBody, hWhole, hNever⟩

end Quoted
end Petri.Text
