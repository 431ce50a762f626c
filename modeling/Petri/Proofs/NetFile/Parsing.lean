import Petri.Proofs.Except
import Petri.Proofs.NetFile.Grammar
import Petri.Proofs.Text.Scanning

/-! # Reading what the grammar derives

Each reader takes the terminals that the grammar derives something from and nothing else, so entries
are read exactly where the grammar derives them. The terminals before what follows settle what is
read; only an optional part is looked at together with what closes it.
-/
namespace Petri.NetFile
open Text
set_option autoImplicit false

/-- What is read, and off which lexemes, is what the grammar derives from their terminals. -/
def Exact {α : Type} (read : Reader α) (D : List Terminal → α → Prop) : Prop :=
  ∀ ls a rest, read ls = .ok (a, rest) ↔ ∃ front, ls = front ++ rest ∧ D (front.map Lexeme.terminal) a

namespace Exact
variable {α β : Type} {read : Reader α} {D D' : List Terminal → α → Prop}

theorem imp (h : Exact read D) (hSame : ∀ ts a, D ts a ↔ D' ts a) : Exact read D' := by
  intro ls a rest
  rw [h]
  simp only [hSame]

theorem pure (a : α) : Exact (Pure.pure a) fun ts b => ts = [] ∧ b = a := by
  intro ls b rest
  constructor
  · rintro hRead
    cases hRead
    exact ⟨[], rfl, rfl, rfl⟩
  · rintro ⟨front, rfl, hNil, rfl⟩
    cases List.map_eq_nil_iff.mp hNil
    rfl

theorem bind {next : α → Reader β} {E : α → List Terminal → β → Prop} (hRead : Exact read D)
    (hNext : ∀ a, Exact (next a) (E a)) :
    Exact (read >>= next) fun ts b => ∃ us vs a, ts = us ++ vs ∧ D us a ∧ E a vs b := by
  intro ls b rest
  change (read ls >>= fun p => next p.1 p.2) = _ ↔ _
  constructor
  · intro h
    obtain ⟨⟨a, others⟩, hFirst, hSecond⟩ := bind_eq_ok_iff.mp h
    obtain ⟨front, rfl, hFront⟩ := (hRead _ _ _).mp hFirst
    obtain ⟨back, rfl, hBack⟩ := (hNext a _ _ _).mp hSecond
    refine ⟨front ++ back, (List.append_assoc _ _ _).symm, _, _, a, ?_, hFront, hBack⟩
    exact List.map_append
  · rintro ⟨all, rfl, us, vs, a, hTerminals, hFirst, hSecond⟩
    obtain ⟨front, back, rfl, rfl, rfl⟩ := List.map_eq_append_iff.mp hTerminals
    refine bind_eq_ok_iff.mpr ⟨(a, back ++ rest), (hRead _ _ _).mpr ⟨front, ?_, hFirst⟩,
      (hNext a _ _ _).mpr ⟨back, rfl, hSecond⟩⟩
    exact List.append_assoc _ _ _

theorem map (f : α → β) (hRead : Exact read D) :
    Exact (f <$> read) fun ts b => ∃ a, D ts a ∧ b = f a := by
  refine (hRead.bind fun a => Exact.pure (f a)).imp fun ts b => ?_
  constructor
  · rintro ⟨us, _, a, rfl, hD, rfl, rfl⟩
    exact ⟨a, by rwa [List.append_nil], rfl⟩
  · rintro ⟨a, hD, rfl⟩
    exact ⟨ts, [], a, (List.append_nil ts).symm, hD, rfl, rfl⟩

end Exact

/-! ## Single terminals -/

section Readers
variable (ending : Ending)

/-- A reader that looks at one lexeme. -/
theorem exact_of_one {α : Type} {read : Reader α} {D : List Terminal → α → Prop}
    (hNil : ∀ a rest, read [] ≠ .ok (a, rest))
    (hCons : ∀ l ls a rest, read (l :: ls) = .ok (a, rest) ↔ D [l.terminal] a ∧ ls = rest)
    (hOne : ∀ ts a, D ts a → ∃ t, ts = [t]) : Exact read D := by
  intro ls a rest
  constructor
  · intro hRead
    cases ls with
    | nil => exact absurd hRead (hNil a rest)
    | cons l ls =>
      obtain ⟨hD, rfl⟩ := (hCons l ls a rest).mp hRead
      exact ⟨[l], rfl, hD⟩
  · rintro ⟨front, rfl, hD⟩
    obtain ⟨t, hFront⟩ := hOne _ _ hD
    obtain ⟨l, rfl, _⟩ := List.map_eq_singleton_iff.mp hFront
    exact (hCons l rest a rest).mpr ⟨hD, rfl⟩

theorem exact_terminal (t : Terminal) : Exact (readTerminal ending t) fun ts _ => ts = [t] := by
  refine exact_of_one (fun _ _ => nofun) (fun l ls _ rest => ?_) fun _ _ h => ⟨t, h⟩
  rw [readTerminal]
  split <;> simp_all [refuse]

theorem exact_name :
    Exact (readName ending) fun ts id => ∃ word, ts = [.name word] ∧ String.ofList word = id := by
  refine exact_of_one (fun _ _ => nofun) (fun ⟨t, _, _⟩ ls id rest => ?_)
    fun _ _ ⟨word, h, _⟩ => ⟨_, h⟩
  cases t <;> simp [readName, refuse]

theorem exact_text : Exact (readText ending) fun ts text =>
    ∃ body, ts = [.quoted body] ∧ String.ofList (Quoted.unescape body) = text := by
  refine exact_of_one (fun _ _ => nofun) (fun ⟨t, _, _⟩ ls text rest => ?_)
    fun _ _ ⟨body, h, _⟩ => ⟨_, h⟩
  cases t <;> simp [readText, refuse]

theorem exact_capacity : Exact (readCapacity ending) fun ts n =>
    ∃ digits, ts = [.numeral digits] ∧ n < capacityLimit ∧ Nat.ofDigitChars 10 digits 0 = n := by
  refine exact_of_one (fun _ _ => nofun) (fun ⟨t, _, _⟩ ls n rest => ?_)
    fun _ _ ⟨digits, h, _⟩ => ⟨_, h⟩
  cases t with
  | numeral digits =>
    rw [readCapacity]
    dsimp only
    split
    · rename_i hLimit
      simp only [Except.ok.injEq, Prod.mk.injEq, List.cons.injEq, Terminal.numeral.injEq, and_true,
        exists_eq_left']
      constructor
      · rintro ⟨rfl, rfl⟩
        exact ⟨⟨hLimit, rfl⟩, rfl⟩
      · rintro ⟨⟨_, rfl⟩, rfl⟩
        exact ⟨rfl, rfl⟩
    · rename_i hLimit
      simp only [reduceCtorEq, List.cons.injEq, Terminal.numeral.injEq, and_true, exists_eq_left',
        false_iff]
      rintro ⟨⟨hRange, rfl⟩, _⟩
      exact hLimit hRange
  | _ => simp [readCapacity, refuse]

/-! ## Sequences -/

theorem exact_texts : Exact (readTexts ending) fun ts texts =>
    ∃ us, ts = us ++ [.closeBracket] ∧ DerivesTexts us texts := by
  intro ls texts rest
  constructor
  · intro hRead
    fun_induction readTexts ending ls generalizing texts with
    | case1 l _ ls =>
      cases hRead
      exact ⟨[⟨.closeBracket, _, _⟩], rfl, [], rfl, .nil⟩
    | case2 body _ _ _ _ ls =>
      cases hRead
      exact ⟨[⟨.quoted body, _, _⟩, ⟨.closeBracket, _, _⟩], rfl, [.quoted body], rfl, .last⟩
    | case3 body _ _ _ _ ls ih =>
      obtain ⟨⟨others, tail⟩, hOthers, hEnd⟩ := bind_eq_ok_iff.mp hRead
      cases hEnd
      obtain ⟨front, rfl, us, hFront, hUs⟩ := ih _ hOthers
      refine ⟨⟨.quoted body, _, _⟩ :: ⟨.comma, _, _⟩ :: front, rfl, .quoted body :: .comma :: us,
        ?_, .cons hUs⟩
      rw [List.map_cons, List.map_cons, hFront]
      rfl
    | case4 => cases hRead
    | case5 => cases hRead
  · rintro ⟨front, rfl, us, hFront, hDerives⟩
    induction hDerives generalizing front with
    | nil =>
      obtain ⟨_, _, others, rfl, hNil⟩ := exists_cons_of_terminals hFront
      cases List.map_eq_nil_iff.mp hNil
      rfl
    | last =>
      obtain ⟨_, _, others, rfl, hClose⟩ := exists_cons_of_terminals hFront
      obtain ⟨_, _, others, rfl, hNil⟩ := exists_cons_of_terminals hClose
      cases List.map_eq_nil_iff.mp hNil
      rfl
    | cons _ ih =>
      obtain ⟨_, _, others, rfl, hComma⟩ := exists_cons_of_terminals hFront
      obtain ⟨_, _, others, rfl, hOthers⟩ := exists_cons_of_terminals hComma
      rw [List.cons_append, List.cons_append, readTexts, ih others hOthers]
      rfl

/-- Behind its keyword each thing is read as the grammar derives it, and no other keyword begins
one. -/
structure ExactBehind {α : Type} (readOne : Keyword → Option (Reader α))
    (D : List Terminal → α → Prop) : Prop where
  read : ∀ {k read}, readOne k = some read → Exact read fun ts a => D (.keyword k :: ts) a
  keyword : ∀ {ts a}, D ts a → ∃ k us read, ts = .keyword k :: us ∧ readOne k = some read

section Attributes
variable {α : Type} {readOne : Keyword → Option (Reader α)} {D : List Terminal → α → Prop}

theorem derives_of_readAttributesFrom (h : ExactBehind readOne D) {fuel : Nat} {ls rest : Lexemes}
    {attributes : List α} (hRead : readAttributesFrom ending readOne fuel ls = .ok (attributes, rest)) :
    ∃ front us, ls = front ++ rest ∧ front.map Lexeme.terminal = us ++ [.semicolon] ∧
      DerivesAll D us attributes := by
  fun_induction readAttributesFrom ending readOne fuel ls generalizing attributes with
  | case1 => cases hRead
  | case2 =>
    cases hRead
    exact ⟨[⟨.semicolon, _, _⟩], [], rfl, rfl, .nil⟩
  | case3 => cases hRead
  | case4 fuel k spelling start ls read hOne ih =>
    obtain ⟨⟨one, others⟩, hFirst, hRest⟩ := bind_eq_ok_iff.mp hRead
    obtain ⟨⟨attributes, others⟩, hOthers, hEnd⟩ := bind_eq_ok_iff.mp hRest
    cases hEnd
    obtain ⟨front, rfl, hD⟩ := (h.read hOne _ _ _).mp hFirst
    obtain ⟨back, us, rfl, hBack, hAll⟩ := ih _ hOthers
    refine ⟨⟨.keyword k, spelling, start⟩ :: front ++ back, _, ?_, ?_, .cons hD hAll⟩
    · rw [List.append_assoc]
      rfl
    · rw [List.map_append, hBack, List.append_assoc]
      rfl
  | case5 => cases hRead

theorem readAttributesFrom_of_derives (h : ExactBehind readOne D) {us : List Terminal}
    {attributes : List α} (hAll : DerivesAll D us attributes) {fuel : Nat} {front rest : Lexemes}
    (hFront : front.map Lexeme.terminal = us ++ [.semicolon]) (hFuel : front.length ≤ fuel) :
    readAttributesFrom ending readOne fuel (front ++ rest) = .ok (attributes, rest) := by
  induction hAll generalizing fuel front with
  | nil =>
    obtain ⟨_, _, others, rfl, hNil⟩ := exists_cons_of_terminals hFront
    cases List.map_eq_nil_iff.mp hNil
    cases fuel with
    | zero => cases hFuel
    | succ fuel => rfl
  | cons hD _ ih =>
    obtain ⟨k, ts, read, rfl, hOne⟩ := h.keyword hD
    rw [List.append_assoc] at hFront
    obtain ⟨spelling, start, tail, rfl, hTail⟩ := exists_cons_of_terminals hFront
    obtain ⟨first, others, rfl, rfl, hOthers⟩ := List.map_eq_append_iff.mp hTail
    cases fuel with
    | zero => cases hFuel
    | succ fuel =>
      have hFuel' : others.length ≤ fuel := by
        simp only [List.length_cons, List.length_append] at hFuel
        omega
      have hFirst : read (first ++ (others ++ rest)) = .ok (_, others ++ rest) :=
        (h.read hOne _ _ _).mpr ⟨first, rfl, hD⟩
      rw [List.cons_append, List.append_assoc, readAttributesFrom, hOne]
      simp only [hFirst, ih hOthers hFuel', bind, Except.bind]
      rfl

theorem exact_attributes (h : ExactBehind readOne D) :
    Exact (readAttributes ending readOne) fun ts attributes =>
      ∃ us, ts = us ++ [.semicolon] ∧ DerivesAll D us attributes := by
  intro ls attributes rest
  constructor
  · intro hRead
    obtain ⟨front, us, hLs, hFront, hAll⟩ := derives_of_readAttributesFrom ending h hRead
    exact ⟨front, hLs, us, hFront, hAll⟩
  · rintro ⟨front, rfl, us, hFront, hAll⟩
    refine readAttributesFrom_of_derives ending h hAll hFront ?_
    rw [List.length_append]
    omega

end Attributes

/-- What is a keyword with a string behind it. -/
theorem exact_map_text {α : Type} {D : List Terminal → α → Prop} {k : Keyword} {make : String → α}
    (hD : ∀ ts a, D (.keyword k :: ts) a ↔
      ∃ body, ts = [.quoted body] ∧ a = make (String.ofList (Quoted.unescape body))) :
    Exact (make <$> readText ending) fun ts a => D (.keyword k :: ts) a := by
  refine ((exact_text ending).map make).imp fun ts a => ?_
  rw [hD]
  constructor
  · rintro ⟨_, ⟨body, rfl, rfl⟩, rfl⟩
    exact ⟨body, rfl, rfl⟩
  · rintro ⟨body, rfl, rfl⟩
    exact ⟨_, ⟨body, rfl, rfl⟩, rfl⟩

theorem exact_placeAttribute : ExactBehind (placeAttribute ending) DerivesPlaceAttribute where
  read {k _} hOne := by
    cases k with
    | label =>
      cases hOne
      refine exact_map_text ending fun ts a => ⟨fun h => ?_, ?_⟩
      · cases h
        exact ⟨_, rfl, rfl⟩
      · rintro ⟨_, rfl, rfl⟩
        exact .label
    | capacity =>
      cases hOne
      refine ((exact_capacity ending).map _).imp fun ts a => ⟨?_, fun h => ?_⟩
      · rintro ⟨_, ⟨_, rfl, hRange, rfl⟩, rfl⟩
        exact .capacity hRange
      · cases h with
        | capacity hRange => exact ⟨_, ⟨_, rfl, hRange, rfl⟩, rfl⟩
    | tokens =>
      cases hOne
      refine ((exact_terminal ending _).bind fun _ => (exact_texts ending).map _).imp
        fun ts a => ⟨?_, fun h => ?_⟩
      · rintro ⟨_, _, _, rfl, rfl, _, ⟨us, rfl, hTexts⟩, rfl⟩
        exact .tokens hTexts
      · cases h with
        | tokens hTexts => exact ⟨[.openBracket], _, (), rfl, rfl, _, ⟨_, rfl, hTexts⟩, rfl⟩
    | _ => cases hOne
  keyword h := by cases h <;> exact ⟨_, _, _, rfl, rfl⟩

theorem exact_transitionAttribute :
    ExactBehind (transitionAttribute ending) DerivesTransitionAttribute where
  read {k _} hOne := by
    cases k with
    | label | guard =>
      cases hOne
      refine exact_map_text ending fun ts a => ⟨fun h => ?_, ?_⟩
      · cases h
        exact ⟨_, rfl, rfl⟩
      · rintro ⟨_, rfl, rfl⟩
        constructor
    | _ => cases hOne
  keyword h := by cases h <;> exact ⟨_, _, _, rfl, rfl⟩

theorem exact_arcAttribute : ExactBehind (arcAttribute ending) DerivesArcAttribute where
  read {k _} hOne := by
    cases k with
    | label | evaluate | execute =>
      cases hOne
      refine exact_map_text ending fun ts a => ⟨fun h => ?_, ?_⟩
      · cases h
        exact ⟨_, rfl, rfl⟩
      · rintro ⟨_, rfl, rfl⟩
        constructor
    | _ => cases hOne
  keyword h := by cases h <;> exact ⟨_, _, _, rfl, rfl⟩

/-! ## Optional parts -/

/-- A part that is there when a terminal begins it. What follows is looked at to see that it is
not, so the part is read exactly only together with it. -/
theorem exact_of_optional {α β : Type} (begins : Terminal → Option β) (read : Reader α)
    (present : β → Reader α) (absent : Reader α) {D : β → List Terminal → α → Prop}
    {E : List Terminal → α → Prop}
    (hTaken : ∀ {l b} ls, begins l.terminal = some b → read (l :: ls) = present b ls)
    (hLeft : ∀ {ls : Lexemes}, (∀ l ∈ ls.head?, begins l.terminal = none) → read ls = absent ls)
    (hPresent : ∀ b, Exact (present b) (D b)) (hAbsent : Exact absent E)
    (hBegins : ∀ {ts a}, E ts a → ∃ t us, ts = t :: us ∧ begins t = none) :
    Exact read fun ts a =>
      (∃ t us b, ts = t :: us ∧ begins t = some b ∧ D b us a) ∨ E ts a := by
  intro ls a rest
  constructor
  · intro hRead
    by_cases hHead : ∀ l ∈ ls.head?, begins l.terminal = none
    · rw [hLeft hHead] at hRead
      obtain ⟨front, rfl, hE⟩ := (hAbsent _ _ _).mp hRead
      exact ⟨front, rfl, .inr hE⟩
    · obtain _ | ⟨l, ls⟩ := ls
      · exact absurd (fun l hl => nomatch hl) hHead
      cases hBegin : begins l.terminal with
      | none => exact absurd (fun _ hl => by cases hl; exact hBegin) hHead
      | some b =>
        rw [hTaken ls hBegin] at hRead
        obtain ⟨front, rfl, hD⟩ := (hPresent b _ _ _).mp hRead
        exact ⟨l :: front, rfl, .inl ⟨_, _, b, rfl, hBegin, hD⟩⟩
  · rintro ⟨front, rfl, ⟨t, us, b, hFront, hBegin, hD⟩ | hE⟩
    · obtain ⟨spelling, start, others, rfl, rfl⟩ := exists_cons_of_terminals hFront
      rw [List.cons_append, hTaken _ hBegin]
      exact (hPresent b _ _ _).mpr ⟨others, rfl, hD⟩
    · rw [hLeft, hAbsent]
      · exact ⟨front, rfl, hE⟩
      · obtain ⟨t, us, hFront, hBegin⟩ := hBegins hE
        obtain ⟨spelling, start, others, rfl, rfl⟩ := exists_cons_of_terminals hFront
        intro l hl
        cases hl
        exact hBegin

/-- An arc from its arrow on, after the name of the arc and where it starts. -/
def readTarget (start : Option String × String) : Reader (Option String × String × String) := do
  readTerminal ending .arrow
  let target ← readName ending
  return (start.1, start.2, target)

theorem exact_target (id : Option String) (source : String) :
    Exact (readTarget ending (id, source)) fun ts ends =>
        ∃ target, ts = [.arrow, .name target] ∧ ends = (id, source, String.ofList target) := by
  refine ((exact_terminal ending _).bind fun _ => (exact_name ending).bind fun target =>
    Exact.pure _).imp fun ts ends => ?_
  constructor
  · rintro ⟨_, _, _, rfl, rfl, _, _, _, rfl, ⟨target, rfl, rfl⟩, rfl, rfl⟩
    exact ⟨target, rfl, rfl⟩
  · rintro ⟨target, rfl, rfl⟩
    exact ⟨_, _, (), rfl, rfl, _, _, _, rfl, ⟨target, rfl, rfl⟩, rfl, rfl⟩

def spelledName : Terminal → Option (List Char)
  | .name word => some word
  | _ => none

theorem exact_ends : Exact (readEnds ending) DerivesEnds := by
  have hSource := fun first : String => exact_of_optional spelledName
    (readSource first >>= readTarget ending) _ _
    (fun {l b} ls hBegin => by
      obtain ⟨t, _, _⟩ := l
      cases t <;> cases hBegin
      rfl)
    (fun {ls} hHead => by
      obtain _ | ⟨⟨t, _, _⟩, ls⟩ := ls
      · rfl
      cases t with
      | name word => cases hHead _ rfl
      | _ => rfl)
    (fun word => exact_target ending (some first) (String.ofList word))
    (exact_target ending none first)
    (by
      rintro ts a ⟨target, rfl, _⟩
      exact ⟨_, _, rfl, rfl⟩)
  refine ((exact_name ending).bind hSource).imp fun ts ends => ?_
  constructor
  · rintro ⟨_, us, _, rfl, ⟨word, rfl, rfl⟩, ⟨t, _, source, rfl, hName, target, rfl, rfl⟩ |
      ⟨target, rfl, rfl⟩⟩
    · cases t <;> cases hName
      exact .named
    · exact .unnamed
  · intro h
    cases h with
    | named =>
      exact ⟨_, _, _, rfl, ⟨_, rfl, rfl⟩, .inl ⟨_, _, _, rfl, rfl, _, rfl, rfl⟩⟩
    | unnamed => exact ⟨_, _, _, rfl, ⟨_, rfl, rfl⟩, .inr ⟨_, rfl, rfl⟩⟩

theorem exact_labelEnd (id : String) (label : Option String) :
    Exact (do
      readTerminal ending .semicolon
      return Entry.net id label) fun ts entry => ts = [.semicolon] ∧ entry = .net id label := by
  refine ((exact_terminal ending _).bind fun _ => Exact.pure _).imp fun ts entry => ?_
  constructor
  · rintro ⟨_, _, _, rfl, rfl, rfl, rfl⟩
    exact ⟨rfl, rfl⟩
  · rintro ⟨rfl, rfl⟩
    exact ⟨_, _, (), rfl, rfl, rfl, rfl⟩

/-- The label of a net with the semicolon behind it. -/
theorem exact_label (id : String) :
    Exact (do
      let label ← readLabel ending
      readTerminal ending .semicolon
      return Entry.net id label) fun ts entry =>
        ∃ us label, ts = us ++ [.semicolon] ∧ DerivesLabel us label ∧ entry = .net id label := by
  refine (exact_of_optional (fun t => if t = .keyword .label then some () else none) _
    (fun _ => (some <$> readText ending) >>= fun label => do
      readTerminal ending .semicolon
      return Entry.net id label) _
    (fun {l b} ls hBegin => ?_) (fun {ls} hHead => ?_)
    (fun _ => ((exact_text ending).map some).bind (exact_labelEnd ending id))
    (exact_labelEnd ending id none) ?_).imp fun ts entry => ?_
  · obtain ⟨t, _, _⟩ := l
    split at hBegin
    · rename_i hLabel
      cases hLabel
      rfl
    · cases hBegin
  · obtain _ | ⟨⟨t, _, _⟩, ls⟩ := ls
    · rfl
    have hOther : t ≠ .keyword .label := by
      rintro rfl
      cases hHead _ rfl
    change (readLabel ending _ >>= _) = _
    rw [readLabel]
    · rfl
    · rintro _ _ _ hEq
      cases hEq
      exact hOther rfl
  · rintro ts a ⟨rfl, _⟩
    exact ⟨_, _, rfl, rfl⟩
  · constructor
    · rintro (⟨t, _, b, rfl, hLabel, _, _, _, rfl, ⟨_, ⟨body, rfl, rfl⟩, rfl⟩, rfl, rfl⟩ |
        ⟨rfl, rfl⟩)
      · split at hLabel
        · rename_i hKeyword
          cases hKeyword
          exact ⟨_, _, rfl, .present, rfl⟩
        · cases hLabel
      · exact ⟨_, _, rfl, .absent, rfl⟩
    · rintro ⟨_, _, rfl, hLabel, rfl⟩
      cases hLabel with
      | absent => exact .inr ⟨rfl, rfl⟩
      | present =>
        exact .inl ⟨_, _, (), rfl, rfl, _, _, _, rfl, ⟨_, ⟨_, rfl, rfl⟩, rfl⟩, rfl, rfl⟩

/-! ## Entries -/

theorem exact_freeText : Exact (readFreeText ending) fun ts text =>
    ∃ body, ts = [.quoted body, .semicolon] ∧ String.ofList (Quoted.unescape body) = text := by
  refine ((exact_text ending).bind fun _ => (exact_terminal ending _).bind fun _ =>
    Exact.pure _).imp fun ts text => ?_
  constructor
  · rintro ⟨_, _, _, rfl, ⟨body, rfl, rfl⟩, _, _, _, rfl, rfl, rfl, rfl⟩
    exact ⟨body, rfl, rfl⟩
  · rintro ⟨body, rfl, rfl⟩
    exact ⟨_, _, _, rfl, ⟨body, rfl, rfl⟩, _, _, (), rfl, rfl, rfl, rfl⟩

/-- What arcs of both directions have behind their keyword. -/
theorem exact_arc (make : Option String → String → String → List ArcAttribute → Entry) :
    Exact (do
      let (id, source, target) ← readEnds ending
      make id source target <$> readAttributes ending (arcAttribute ending)) fun ts entry =>
        ∃ ends us id source target attributes, ts = ends ++ us ++ [.semicolon] ∧
          DerivesEnds ends (id, source, target) ∧ DerivesAll DerivesArcAttribute us attributes ∧
          entry = make id source target attributes := by
  have hAttributes := fun ends : Option String × String × String =>
    (exact_attributes ending (exact_arcAttribute ending)).map (make ends.1 ends.2.1 ends.2.2)
  refine ((exact_ends ending).bind hAttributes).imp fun ts entry => ?_
  constructor
  · rintro ⟨ends, _, ⟨id, source, target⟩, rfl, hEnds, _, ⟨us, rfl, hAll⟩, rfl⟩
    exact ⟨ends, us, id, source, target, _, (List.append_assoc _ _ _).symm, hEnds, hAll, rfl⟩
  · rintro ⟨ends, us, id, source, target, _, rfl, hEnds, hAll, rfl⟩
    exact ⟨ends, _, _, List.append_assoc _ _ _, hEnds, _, ⟨us, rfl, hAll⟩, rfl⟩

theorem exact_entry : ExactBehind (readEntry ending) DerivesEntry where
  read {k _} hOne := by
    cases k with
    | net =>
      cases hOne
      refine ((exact_name ending).bind fun id => exact_label ending id).imp
        fun ts entry => ⟨?_, fun h => ?_⟩
      · rintro ⟨_, _, _, rfl, ⟨word, rfl, rfl⟩, _, _, rfl, hLabel, rfl⟩
        exact .net hLabel
      · cases h with
        | net hLabel => exact ⟨[.name _], _, _, rfl, ⟨_, rfl, rfl⟩, _, _, rfl, hLabel, rfl⟩
    | declarations | imports | implements =>
      cases hOne
      refine ((exact_freeText ending).map _).imp fun ts entry => ⟨?_, fun h => ?_⟩
      · rintro ⟨_, ⟨_, rfl, rfl⟩, rfl⟩
        constructor
      · cases h
        exact ⟨_, ⟨_, rfl, rfl⟩, rfl⟩
    | place =>
      cases hOne
      refine ((exact_name ending).bind fun id =>
        (exact_attributes ending (exact_placeAttribute ending)).map _).imp
          fun ts entry => ⟨?_, fun h => ?_⟩
      · rintro ⟨_, _, _, rfl, ⟨word, rfl, rfl⟩, _, ⟨_, rfl, hAll⟩, rfl⟩
        exact .place hAll
      · cases h with
        | place hAll => exact ⟨[.name _], _, _, rfl, ⟨_, rfl, rfl⟩, _, ⟨_, rfl, hAll⟩, rfl⟩
    | transition =>
      cases hOne
      refine ((exact_name ending).bind fun id =>
        (exact_attributes ending (exact_transitionAttribute ending)).map _).imp
          fun ts entry => ⟨?_, fun h => ?_⟩
      · rintro ⟨_, _, _, rfl, ⟨word, rfl, rfl⟩, _, ⟨_, rfl, hAll⟩, rfl⟩
        exact .transition hAll
      · cases h with
        | transition hAll => exact ⟨[.name _], _, _, rfl, ⟨_, rfl, rfl⟩, _, ⟨_, rfl, hAll⟩, rfl⟩
    | input | output =>
      cases hOne
      refine (exact_arc ending _).imp fun ts entry => ⟨?_, fun h => ?_⟩
      · rintro ⟨ends, us, _, _, _, _, rfl, hEnds, hAll, rfl⟩
        first | exact .input hEnds hAll | exact .output hEnds hAll
      · cases h
        rename_i hEnds hAll
        exact ⟨_, _, _, _, _, _, rfl, hEnds, hAll, rfl⟩
    | _ => cases hOne
  keyword h := by cases h <;> exact ⟨_, _, _, rfl, rfl⟩

end Readers

theorem derives_of_readEntries {ending : Ending} {fuel : Nat} {ls : Lexemes} {entries : List Entry}
    (hRead : readEntries ending fuel ls = .ok entries) :
    (∃ offset, ending = .text offset) ∧ DerivesFile (ls.map Lexeme.terminal) entries := by
  fun_induction readEntries ending fuel ls generalizing entries with
  | case1 _ offset =>
    cases hRead
    exact ⟨⟨offset, by assumption⟩, .nil⟩
  | case2 => cases hRead
  | case3 => cases hRead
  | case4 fuel k spelling start ls read hOne ih =>
    obtain ⟨⟨entry, others⟩, hEntry, hRest⟩ := bind_eq_ok_iff.mp hRead
    obtain ⟨entries, hEntries, hEnd⟩ := bind_eq_ok_iff.mp hRest
    cases hEnd
    obtain ⟨front, rfl, hD⟩ := ((exact_entry ending).read hOne _ _ _).mp hEntry
    obtain ⟨hEnding, hOthers⟩ := ih _ hEntries
    refine ⟨hEnding, ?_⟩
    rw [List.map_cons, List.map_append]
    exact .cons hD hOthers
  | case5 => cases hRead

theorem readEntries_of_derives {offset fuel : Nat} {ts : List Terminal} {entries : List Entry}
    (hDerives : DerivesFile ts entries) {ls : Lexemes} (hLexemes : ls.map Lexeme.terminal = ts)
    (hFuel : ls.length ≤ fuel) : readEntries (.text offset) fuel ls = .ok entries := by
  induction hDerives generalizing fuel ls with
  | nil =>
    cases List.map_eq_nil_iff.mp hLexemes
    cases fuel <;> rfl
  | cons hD _ ih =>
    obtain ⟨k, ts, read, rfl, hOne⟩ := (exact_entry (.text offset)).keyword hD
    obtain ⟨spelling, start, tail, rfl, hTail⟩ := exists_cons_of_terminals hLexemes
    obtain ⟨front, others, rfl, rfl, hOthers⟩ := List.map_eq_append_iff.mp hTail
    cases fuel with
    | zero => cases hFuel
    | succ fuel =>
      have hFuel' : others.length ≤ fuel := by
        simp only [List.length_cons, List.length_append] at hFuel
        omega
      have hEntry : read (front ++ others) = .ok (_, others) :=
        ((exact_entry _).read hOne _ _ _).mpr ⟨front, rfl, hD⟩
      rw [readEntries, hOne]
      simp only [hEntry, ih hOthers hFuel', bind, Except.bind]
      rfl

/-- The terminals of a text are read as the entries that they derive, in full. -/
theorem readEntries_eq_ok_iff {ending : Ending} {ls : Lexemes} {entries : List Entry} :
    readEntries ending ls.length ls = .ok entries ↔
      (∃ offset, ending = .text offset) ∧ DerivesFile (ls.map Lexeme.terminal) entries := by
  constructor
  · exact derives_of_readEntries
  · rintro ⟨⟨offset, rfl⟩, hDerives⟩
    exact readEntries_of_derives hDerives rfl (Nat.le_refl _)

theorem DerivesFile.unique {ts : List Terminal} {entries entries' : List Entry}
    (h : DerivesFile ts entries) (h' : DerivesFile ts entries') : entries = entries' := by
  have hBare : (ts.map fun t => ⟨t, t.spelling, 0⟩ : Lexemes).map Lexeme.terminal = ts := by
    rw [List.map_map]
    exact List.map_id' ts
  have hRead : readEntries (.text 0) _ _ = .ok entries :=
    readEntries_of_derives h hBare (Nat.le_refl _)
  rw [readEntries_of_derives h' hBare (Nat.le_refl _)] at hRead
  exact (Except.ok.inj hRead).symm

end Petri.NetFile
