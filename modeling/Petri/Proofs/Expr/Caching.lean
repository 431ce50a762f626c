import Petri.Interpreter

/-! # The cache of the interpreter

Whatever an interpreter has been asked before, it answers as if it were asked for the first time. Its
tables hold what those texts read to that it was asked about, as far as they read to anything.
-/
namespace Petri
set_option autoImplicit false

/-! ## One table -/

section Tables
variable {α : Type} (read : String → Except EvalError α)

/-- Looks a text up, or else reads it and keeps what it reads to. -/
def remember (text : String) (table : List (String × α)) :
    Except EvalError α × List (String × α) :=
  match table.lookup text with
  | some a => (.ok a, table)
  | none =>
    match read text with
    | .ok a => (.ok a, (text, a) :: table)
    | .error e => (.error e, table)

/-- The table holds what these texts read to, where they read to something, each text once. -/
structure Remembers (texts : List String) (table : List (String × α)) : Prop where
  lookup : ∀ text a, table.lookup text = some a ↔ text ∈ texts ∧ read text = .ok a
  nodup : (table.map Prod.fst).Nodup

theorem Remembers.nil : Remembers read [] [] where
  lookup text a := by simp
  nodup := List.nodup_nil

variable {read} {texts : List String} {table : List (String × α)} {text : String}

/-- A text that cannot be read, or that was asked about before, changes nothing. -/
theorem Remembers.again (h : Remembers read texts table)
    (hKnown : ∀ a, read text = .ok a → text ∈ texts) : Remembers read (texts ++ [text]) table where
  lookup other a := by
    rw [h.lookup, List.mem_append, List.mem_singleton]
    constructor
    · rintro ⟨hOther, hRead⟩
      exact ⟨.inl hOther, hRead⟩
    · rintro ⟨hOther | rfl, hRead⟩
      · exact ⟨hOther, hRead⟩
      · exact ⟨hKnown a hRead, hRead⟩
  nodup := h.nodup

theorem Remembers.insert (h : Remembers read texts table) (hNew : table.lookup text = none) {a : α}
    (hRead : read text = .ok a) : Remembers read (texts ++ [text]) ((text, a) :: table) where
  lookup other b := by
    rw [List.lookup_cons, List.mem_append, List.mem_singleton]
    by_cases hSame : other = text
    · subst hSame
      rw [beq_self_eq_true, hRead]
      simp
    · rw [beq_eq_false_iff_ne.mpr hSame, or_iff_left hSame]
      exact h.lookup other b
  nodup := by
    rw [List.map_cons, List.nodup_cons]
    refine ⟨?_, h.nodup⟩
    intro hMem
    obtain ⟨entry, hEntry, rfl⟩ := List.mem_map.mp hMem
    simpa using List.lookup_eq_none_iff.mp hNew entry hEntry

theorem Remembers.remember (h : Remembers read texts table) (text : String) :
    (remember read text table).1 = read text ∧
      Remembers read (texts ++ [text]) (remember read text table).2 := by
  rw [Petri.remember]
  cases hLookup : table.lookup text with
  | some a =>
    obtain ⟨hMem, hRead⟩ := (h.lookup text a).mp hLookup
    exact ⟨hRead.symm, h.again fun _ _ => hMem⟩
  | none =>
    cases hRead : read text with
    | ok a => exact ⟨rfl, h.insert hLookup hRead⟩
    | error e => exact ⟨rfl, h.again fun a hOk => nomatch hRead.symm.trans hOk⟩

end Tables

/-! ## Both tables -/

namespace Query

/-- The text that is asked about as an expression. -/
def expression? : Query → Option String
  | evaluate text _ => some text
  | execute .. => none

/-- The text that is asked about as an inscription. -/
def inscription? : Query → Option String
  | evaluate .. => none
  | execute text _ => some text

end Query

inductive Reply where
  | truth (answer : Except EvalError Bool)
  | tokens (answer : Except EvalError TokenBag)

def Evaluator.reply {m : Type → Type} [Monad m] (ev : Evaluator m) : Query → m Reply
  | .evaluate text context => Reply.truth <$> ev.evaluate text context
  | .execute text context => Reply.tokens <$> ev.execute text context

namespace Cache
variable {cache : Cache} {queries : List Query}

/-- What is in the cache after these queries. -/
def after (cache : Cache) (queries : List Query) : Cache :=
  queries.foldl (fun cache q => ((cachedInterpreter.reply q).run cache).2) cache

/-- Each table holds what the texts of its own kind read to. -/
structure Holds (cache : Cache) (queries : List Query) : Prop where
  expressions : Remembers Expr.readText (queries.filterMap Query.expression?) cache.expressions
  inscriptions :
    Remembers Inscription.readText (queries.filterMap Query.inscription?) cache.inscriptions

theorem Holds.nil : Holds {} [] := ⟨.nil _, .nil _⟩

theorem run_expression (text : String) (cache : Cache) :
    (expression text).run cache =
      let found := remember Expr.readText text cache.expressions
      (found.1, { cache with expressions := found.2 }) := by
  rw [remember]
  change expression text cache = _
  rw [expression]
  cases cache.expressions.lookup text with
  | some e => rfl
  | none => cases Expr.readText text <;> rfl

theorem run_inscription (text : String) (cache : Cache) :
    (inscription text).run cache =
      let found := remember Inscription.readText text cache.inscriptions
      (found.1, { cache with inscriptions := found.2 }) := by
  rw [remember]
  change inscription text cache = _
  rw [inscription]
  cases cache.inscriptions.lookup text with
  | some i => rfl
  | none => cases Inscription.readText text <;> rfl

/-- One query is answered as it is without a cache, and the tables stay in order. -/
theorem Holds.reply (h : cache.Holds queries) (q : Query) :
    ((cachedInterpreter.reply q).run cache).1 = (interpreter.reply q).run ∧
      ((cachedInterpreter.reply q).run cache).2.Holds (queries ++ [q]) := by
  cases q with
  | evaluate text context =>
    have hRun : (cachedInterpreter.reply (.evaluate text context)).run cache =
        let found := (expression text).run cache
        (.truth (found.1.bind (Expr.holds context)), found.2) := rfl
    obtain ⟨hAnswer, hTable⟩ := h.expressions.remember text
    rw [hRun, run_expression]
    dsimp only
    rw [hAnswer]
    refine ⟨rfl, ?_, ?_⟩
    · rw [List.filterMap_append]
      exact hTable
    · rw [List.filterMap_append]
      exact (List.append_nil _).symm ▸ h.inscriptions
  | execute text context =>
    have hRun : (cachedInterpreter.reply (.execute text context)).run cache =
        let found := (inscription text).run cache
        (.tokens (found.1.bind (Inscription.tokens context)), found.2) := rfl
    obtain ⟨hAnswer, hTable⟩ := h.inscriptions.remember text
    rw [hRun, run_inscription]
    dsimp only
    rw [hAnswer]
    refine ⟨rfl, ?_, ?_⟩
    · rw [List.filterMap_append]
      exact (List.append_nil _).symm ▸ h.expressions
    · rw [List.filterMap_append]
      exact hTable

theorem Holds.after {earlier : List Query} (h : cache.Holds earlier) (queries : List Query) :
    (queries.mapM cachedInterpreter.reply).run cache =
        (queries.map fun q => (interpreter.reply q).run, cache.after queries) ∧
      (cache.after queries).Holds (earlier ++ queries) := by
  induction queries generalizing cache earlier with
  | nil => exact ⟨rfl, (List.append_nil _).symm ▸ h⟩
  | cons q rest ih =>
    obtain ⟨hReply, hNext⟩ := h.reply q
    obtain ⟨hReplies, hRest⟩ := ih hNext
    rw [List.append_assoc] at hRest
    have hRun : ((q :: rest).mapM cachedInterpreter.reply).run cache =
        let first := (cachedInterpreter.reply q).run cache
        let others := (rest.mapM cachedInterpreter.reply).run first.2
        (first.1 :: others.1, others.2) := by
      rw [List.mapM_cons]
      rfl
    refine ⟨?_, hRest⟩
    rw [hRun]
    dsimp only
    rw [hReply, hReplies]
    rfl

end Cache

/-- The cache cannot be told from outside. After whatever queries it holds just what they have read, and
the next query is answered as by an interpreter that has not been asked anything; so all of them are,
and that is how they are answered without a cache. -/
theorem cache_transparent (queries : List Query) :
    (({} : Cache).after queries).Holds queries ∧
    (∀ q, ((cachedInterpreter.reply q).run (({} : Cache).after queries)).1 =
      ((cachedInterpreter.reply q).run {}).1) ∧
    (queries.mapM cachedInterpreter.reply).run {} =
      (queries.map fun q => ((cachedInterpreter.reply q).run {}).1, ({} : Cache).after queries) ∧
    ∀ q, ((cachedInterpreter.reply q).run {}).1 = (interpreter.reply q).run := by
  obtain ⟨hReplies, hHolds⟩ := Cache.Holds.nil.after queries
  have hFresh (q : Query) : ((cachedInterpreter.reply q).run {}).1 = (interpreter.reply q).run :=
    (Cache.Holds.nil.reply q).1
  refine ⟨hHolds, fun q => ?_, ?_, hFresh⟩
  · rw [hFresh, (hHolds.reply q).1]
  · simp only [hFresh]
    exact hReplies

end Petri
