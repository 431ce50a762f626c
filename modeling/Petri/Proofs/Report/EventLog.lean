import Petri.Proofs.Text.Json
import Petri.Proofs.Text.Lines
import Petri.Report.EventLog

/-! # Event logs and what they are read as

Each line of a log is what JSON writes for one event, so a log can be cut into lines and each line read
back as its event, whatever the texts in the events are.
-/
namespace Petri.EventLog
open Text NetFile
set_option autoImplicit false

/-! ## Strings -/

def IsPlain (c : Char) : Prop := c ≠ '"' ∧ c ≠ '\\' ∧ 32 ≤ c.toNat

instance (c : Char) : Decidable (IsPlain c) := inferInstanceAs (Decidable (_ ∧ _))

/-- The ways in which a character is written in a string. -/
inductive Escape (c : Char) : List Char → Prop where
  | plain (hPlain : IsPlain c) : Escape c [c]
  | lettered {letter : Char} (hDenoted : Json.lettered? letter = some c) (hLetter : letter ≠ 'u')
    (hInline : 32 ≤ letter.toNat) : Escape c ['\\', letter]
  | numbered {a b : Char} (hDenoted : Json.numbered? ['0', '0', a, b] = some c) (ha : IsPlain a)
    (hb : IsPlain b) : Escape c ['\\', 'u', '0', '0', a, b]

theorem escape_escapeChar (c : Char) : Escape c (escapeChar c) := by
  have hControl : ∀ n < 32,
      Json.numbered? ['0', '0', hexDigit (n / 16), hexDigit (n % 16)] = some (Char.ofNat n) ∧
        IsPlain (hexDigit (n / 16)) ∧ IsPlain (hexDigit (n % 16)) := by
    decide
  unfold escapeChar
  split_ifs with hQuote hBackslash hFeed hReturn hTab hBackspace hPage hLow
  -- the characters that a letter stands for
  iterate 7
    · subst_vars
      exact .lettered rfl (by decide) (by decide)
  · obtain ⟨hDenoted, ha, hb⟩ := hControl c.toNat hLow
    rw [Char.ofNat_toNat] at hDenoted
    exact .numbered hDenoted ha hb
  · exact .plain ⟨hQuote, hBackslash, Nat.le_of_not_lt hLow⟩

namespace Escape
variable {c : Char} {ds cs : List Char}

theorem unescape_append (h : Escape c ds) :
    Json.unescape (ds ++ cs) = (Json.unescape cs).map (c :: ·) := by
  cases h with
  | plain hPlain =>
    rw [List.singleton_append, Json.unescape, if_neg]
    · exact not_or.mpr ⟨hPlain.2.1, Nat.not_lt.mpr hPlain.2.2⟩
    · exact fun _ _ _ _ _ h => absurd h hPlain.2.1
    · exact fun _ _ h => absurd h hPlain.2.1
  | lettered hDenoted hLetter =>
    rw [List.cons_append, List.singleton_append, Json.unescape, hDenoted]
    · rfl
    · exact fun _ _ _ _ _ h => absurd h hLetter
  | numbered hDenoted =>
    change Option.map₂ List.cons _ (Json.unescape cs) = _
    rw [hDenoted]
    rfl

theorem isBody_append (h : Escape c ds) (hBody : IsBody cs) : IsBody (ds ++ cs) := by
  cases h with
  | plain hPlain => exact .plain hPlain.1 hPlain.2.1 hBody
  | lettered _ _ hInline =>
    refine .escaped ?_ hBody
    rintro rfl
    exact absurd hInline (by decide)
  | numbered _ ha hb =>
    refine .escaped (by decide) (.plain (by decide) (by decide) (.plain (by decide) (by decide) ?_))
    exact .plain ha.1 ha.2.1 (.plain hb.1 hb.2.1 hBody)

theorem inline (h : Escape c ds) : Json.Inline ds := by
  cases h with
  | plain hPlain => exact Json.inline_singleton hPlain.2.2
  | lettered _ _ hInline =>
    exact (Json.inline_singleton (by decide)).append (Json.inline_singleton hInline)
  | numbered _ ha hb =>
    simp only [Json.Inline, List.forall_mem_cons]
    exact ⟨by decide, by decide, by decide, by decide, ha.2.2, hb.2.2, nofun⟩

end Escape

theorem unescape_escaped (cs : List Char) : Json.unescape (cs.flatMap escapeChar) = some cs := by
  induction cs with
  | nil => rfl
  | cons c cs ih =>
    rw [List.flatMap_cons, (escape_escapeChar c).unescape_append, ih, Option.map_some]

theorem isBody_escaped (cs : List Char) : IsBody (cs.flatMap escapeChar) := by
  induction cs with
  | nil => exact .nil
  | cons c cs ih =>
    rw [List.flatMap_cons]
    exact (escape_escapeChar c).isBody_append ih

theorem inline_escaped (cs : List Char) : Json.Inline (cs.flatMap escapeChar) := by
  intro d hd
  obtain ⟨c, _, hc⟩ := List.mem_flatMap.mp hd
  exact (escape_escapeChar c).inline d hc

theorem writes_quoted (text : String) : Json.Writes Json.readValue (quoted text) (.text text) :=
  Json.writes_text (isBody_escaped _) (unescape_escaped _) (inline_escaped _)

theorem writes_texts (items : List String) :
    Json.Writes Json.readValue (texts items) (.list (items.map .text)) := by
  refine Json.writes_list ?_
  rw [List.forall₂_map_left_iff, List.forall₂_map_right_iff, List.forall₂_same]
  exact fun item _ => writes_quoted item

/-! ## Events -/

def firingFields (type : String) (firing : Nat) (clock : Time) (transition : String) :
    List (String × Json) :=
  [("type", .text type), ("firing", .number firing), ("clock", .number clock),
   ("transition", .text transition)]

def transferFields (t : TransferReport) : List (String × Json) :=
  [("arc", .text t.arc), ("place", .text t.place), ("inscription", .text t.inscription),
   ("tokens", .list (t.tokens.map .text)), ("marking", .number t.marking)]

/-- The members of the object for an event. Those of a transfer stand beside the others. -/
def fields : Event → List (String × Json)
  | .consumed firing clock transition transfer =>
    firingFields "Consumed" firing clock transition ++ transferFields transfer
  | .fired firing clock transition label =>
    firingFields "Fired" firing clock transition ++ [("label", .text label)]
  | .produced firing clock transition transfer =>
    firingFields "Produced" firing clock transition ++ transferFields transfer
  | .clockAdvanced start stop =>
    [("type", .text "ClockAdvanced"), ("from", .number start), ("to", .number stop)]
  | .finished clock firings outcome =>
    [("type", .text "Finished"), ("clock", .number clock), ("firings", .number firings),
     ("outcome", .text outcome.name)]

/-- A member as it is written and as it is read. -/
def Agree (member : String × String) (field : String × Json) : Prop :=
  member.1 = field.1 ∧ Json.Writes Json.readValue member.2 field.2

theorem members_agree (e : Event) : List.Forall₂ Agree (members e) (fields e) := by
  have hText (name text : String) : Agree (name, quoted text) (name, .text text) :=
    ⟨rfl, writes_quoted text⟩
  have hNumber (name : String) (n : Nat) : Agree (name, toString n) (name, .number n) :=
    ⟨rfl, Json.writes_number n⟩
  have hTexts (name : String) (items : List String) :
      Agree (name, texts items) (name, .list (items.map .text)) := ⟨rfl, writes_texts items⟩
  cases e <;>
    simp only [members, fields, transferMembers, firingFields, transferFields, List.cons_append, List.nil_append,
      List.forall₂_cons, List.Forall₂.nil, hText, hNumber, hTexts, and_self]

theorem writes_line (e : Event) : Json.Writes Json.readValue (line e) (.object (fields e)) := by
  refine Json.writes_object ?_
  rw [List.forall₂_map_left_iff]
  refine (members_agree e).imp ?_
  rintro ⟨name, value⟩ ⟨_, v⟩ ⟨rfl, hValue⟩
  exact Json.writes_member (writes_quoted name) hValue

/-! ## Reading events -/

def outcome? (name : String) : Option Outcome :=
  [Outcome.dead, .stopped, .firingLimit].find? fun outcome => outcome.name == name

theorem outcome?_name (outcome : Outcome) : outcome? outcome.name = some outcome := by
  cases outcome <;> rfl

section Reading
variable (v : Json)

def textAt (name : String) : Option String := (v.member? name).bind Json.text?

def numberAt (name : String) : Option Nat := (v.member? name).bind Json.number?

def transfer? : Option TransferReport := do
  let arc ← textAt v "arc"
  let place ← textAt v "place"
  let inscription ← textAt v "inscription"
  let tokens ← (v.member? "tokens").bind Json.texts?
  let marking ← numberAt v "marking"
  return ⟨arc, place, inscription, tokens, marking⟩

def event? : Option Event := do
  match ← textAt v "type" with
  | "Consumed" =>
    let firing ← numberAt v "firing"
    let clock ← numberAt v "clock"
    let transition ← textAt v "transition"
    return .consumed firing clock transition (← transfer? v)
  | "Fired" =>
    let firing ← numberAt v "firing"
    let clock ← numberAt v "clock"
    let transition ← textAt v "transition"
    return .fired firing clock transition (← textAt v "label")
  | "Produced" =>
    let firing ← numberAt v "firing"
    let clock ← numberAt v "clock"
    let transition ← textAt v "transition"
    return .produced firing clock transition (← transfer? v)
  | "ClockAdvanced" => return .clockAdvanced (← numberAt v "from") (← numberAt v "to")
  | "Finished" =>
    let clock ← numberAt v "clock"
    let firings ← numberAt v "firings"
    let outcome ← (← textAt v "outcome") |> outcome?
    return .finished clock firings outcome
  | _ => none

end Reading

def decode (row : String) : Option Event := (Json.parse row).bind event?

theorem transfer?_fields (type : String) (firing : Nat) (clock : Time) (transition : String)
    (t : TransferReport) :
    transfer? (.object (firingFields type firing clock transition ++ transferFields t)) = some t := by
  change (Json.list (t.tokens.map .text)).texts?.bind
    (fun tokens => some (⟨t.arc, t.place, t.inscription, tokens, t.marking⟩ : TransferReport)) = _
  rw [Json.texts?_list, Option.bind_some]

theorem event?_fields (e : Event) : event? (.object (fields e)) = some e := by
  cases e with
  | consumed firing clock transition transfer =>
    change (transfer? _).bind (fun t => some (Event.consumed firing clock transition t)) = _
    rw [fields, transfer?_fields, Option.bind_some]
  | fired firing clock transition label => rfl
  | produced firing clock transition transfer =>
    change (transfer? _).bind (fun t => some (Event.produced firing clock transition t)) = _
    rw [fields, transfer?_fields, Option.bind_some]
  | clockAdvanced start stop => rfl
  | finished clock firings outcome =>
    change (outcome? outcome.name).bind (fun o => some (Event.finished clock firings o)) = _
    rw [outcome?_name, Option.bind_some]

theorem parse_line (e : Event) : Json.parse (line e) = some (.object (fields e)) :=
  Json.parse_of_writes (writes_line e)

theorem decode_line (e : Event) : decode (line e) = some e := by
  rw [decode, parse_line, Option.bind_some, event?_fields]

/-! ## Logs -/

theorem isLine_line (e : Event) : IsLine (line e) where
  feed hFeed := absurd ((writes_line e).inline _ hFeed) (by decide)
  notReturn hReturn :=
    absurd ((writes_line e).inline _ (List.mem_of_getLast? hReturn)) (by decide)

theorem lines_print (events : List Event) : lines (print events) = events.map line := by
  have hPrint : print events = String.join ((events.map line).map (· ++ "\n")) := by
    rw [print, List.map_map]
    rfl
  rw [hPrint]
  exact lines_join (List.forall_mem_map.mpr fun e _ => isLine_line e)

/-- A log has one line for each event, which ends at the first line feed and is an object with the
fields of the event, and it is read as that event. So no two logs have the same text. -/
theorem log_is_decodable (events : List Event) :
    (∃ rows, print events = String.join (rows.map (· ++ "\n")) ∧ lines (print events) = rows ∧
      rows.length = events.length ∧ (∀ row ∈ rows, '\n' ∉ row.toList) ∧
      rows.map Json.parse = events.map (fun e => some (.object (fields e))) ∧
      rows.map decode = events.map some) ∧
    ∀ others, print events = print others ↔ events = others := by
  have hDecode (events : List Event) : (lines (print events)).map decode = events.map some := by
    rw [lines_print, List.map_map]
    exact List.map_congr_left fun e _ => decode_line e
  refine ⟨⟨events.map line, ?_, lines_print events, List.length_map .., ?_, ?_, ?_⟩,
    fun others => ⟨fun hSame => ?_, fun hSame => hSame ▸ rfl⟩⟩
  · rw [print, List.map_map]
    rfl
  · exact List.forall_mem_map.mpr fun e _ => (isLine_line e).feed
  · rw [List.map_map]
    exact List.map_congr_left fun e _ => parse_line e
  · rw [← lines_print]
    exact hDecode events
  · have hEvents := hDecode events
    rw [hSame, hDecode others] at hEvents
    exact (List.map_injective_iff.mpr (Option.some_injective _) hEvents).symm

example : line (.fired 2 0 "t" "\\\n\x01") = "\x7b\"type\":\"Fired\",\"firing\":2,\"clock\":0," ++
    "\"transition\":\"t\",\"label\":\"\\\\\\n\\u0001\"\x7d" := by
  cbv

end Petri.EventLog
