import Petri.NetFile.Entry
import Petri.NetFile.Printer
import Petri.Proofs.NetFile.Words
import Petri.Proofs.Net.WellFormed

/-! # The entries of a net

A printed net scans as the terminals of its entries, in which what is as it would be by default is
left out.
-/
namespace Petri.NetFile
open Text
set_option autoImplicit false

/-! ## Terminals of entries -/

def quoted (text : String) : Terminal := .quoted (Quoted.escape text.toList)

def textTerminals : List String → List Terminal
  | [] => []
  | [text] => [quoted text]
  | text :: next :: texts => quoted text :: .comma :: textTerminals (next :: texts)

def PlaceAttribute.terminals : PlaceAttribute → List Terminal
  | .label text => [.keyword .label, quoted text]
  | .capacity n => [.keyword .capacity, .numeral (toString n).toList]
  | .tokens texts =>
    .keyword .tokens :: .openBracket :: (textTerminals texts ++ [.closeBracket])

def TransitionAttribute.terminals : TransitionAttribute → List Terminal
  | .label text => [.keyword .label, quoted text]
  | .guard text => [.keyword .guard, quoted text]

def ArcAttribute.terminals : ArcAttribute → List Terminal
  | .label text => [.keyword .label, quoted text]
  | .evaluate text => [.keyword .evaluate, quoted text]
  | .execute text => [.keyword .execute, quoted text]

def labelTerminals (label : Option String) : List Terminal :=
  (label.map fun text => [.keyword .label, quoted text]).getD []

/-- The identifier of an arc, if it has one, and its ends around the arrow. -/
def endTerminals (id : Option String) (source target : String) : List Terminal :=
  (id.map fun id => Terminal.name id.toList).toList ++
    [.name source.toList, .arrow, .name target.toList]

def Entry.terminals : Entry → List Terminal
  | .net id label => .keyword .net :: .name id.toList :: (labelTerminals label ++ [.semicolon])
  | .declarations text => [.keyword .declarations, quoted text, .semicolon]
  | .imports text => [.keyword .imports, quoted text, .semicolon]
  | .implements text => [.keyword .implements, quoted text, .semicolon]
  | .place id attributes =>
    .keyword .place :: .name id.toList ::
      (attributes.flatMap PlaceAttribute.terminals ++ [.semicolon])
  | .transition id attributes =>
    .keyword .transition :: .name id.toList ::
      (attributes.flatMap TransitionAttribute.terminals ++ [.semicolon])
  | .input id source target attributes =>
    .keyword .input :: (endTerminals id source target ++
      (attributes.flatMap ArcAttribute.terminals ++ [.semicolon]))
  | .output id source target attributes =>
    .keyword .output :: (endTerminals id source target ++
      (attributes.flatMap ArcAttribute.terminals ++ [.semicolon]))

/-! ## Entries of a net -/

/-- What is made from a text, unless that is the default. -/
def unlessDefault {α : Type} (default : String) (make : String → α) (text : String) : List α :=
  if text = default then [] else [make text]

def labelAttribute {α : Type} (make : String → α) (label : Option String) : List α :=
  (label.map make).toList

def placeAttributes (p : Place) : List PlaceAttribute :=
  labelAttribute .label p.label ++ ((if p.bounded then [.capacity p.capacity] else []) ++
    if p.tokens.isEmpty then [] else [.tokens (p.tokens.map tokenText)])

def transitionAttributes (t : Transition) : List TransitionAttribute :=
  labelAttribute .label t.label ++ unlessDefault defaultGuard .guard t.guard

def inputAttributes (a : InputArc) : List ArcAttribute :=
  labelAttribute .label a.label ++ (unlessDefault defaultEvaluate .evaluate a.evaluate ++
    unlessDefault defaultExecute .execute a.execute)

def outputAttributes (a : OutputArc) : List ArcAttribute :=
  labelAttribute .label a.label ++ unlessDefault defaultExecute .execute a.execute

def placeEntry (p : Place) : Entry := .place p.id (placeAttributes p)

def transitionEntry (t : Transition) : Entry := .transition t.id (transitionAttributes t)

def inputEntry (a : InputArc) : Entry :=
  .input (some a.id) a.place a.transition (inputAttributes a)

def outputEntry (a : OutputArc) : Entry :=
  .output (some a.id) a.transition a.place (outputAttributes a)

/-- The entries that a net is printed as. -/
def entries (net : Net) : List Entry :=
  .net net.id net.label ::
    (unlessDefault "" .declarations net.declarations ++ unlessDefault "" .imports net.imports ++
      unlessDefault "" .implements net.implements ++ net.places.map placeEntry ++
      net.transitions.map transitionEntry ++ net.inputArcs.map inputEntry ++
      net.outputArcs.map outputEntry)

/-! ## Scanning a printed net -/

theorem piece_attributeText (k : Keyword) (text : String) :
    lexicon.Piece Terminal.isNamePart (attributeText k.spelling text).toList
      [.keyword k, quoted text] := by
  have hChars : (attributeText k.spelling text).toList =
      ' ' :: k.spelling.toList ++ ' ' :: (Quoted.quote text).toList := by
    simp [attributeText, String.toList_append]
  rw [hChars]
  exact (piece_space (chunk_keyword k)).append (piece_space (chunk_quote text))

theorem piece_labelText (label : Option String) :
    lexicon.Piece Terminal.isNamePart (labelText label).toList (labelTerminals label) := by
  cases label with
  | none => exact .nil
  | some text => exact piece_attributeText .label text

theorem piece_labelAttribute {α : Type} (make : String → α) (terminals : α → List Terminal)
    (hMake : ∀ text, terminals (make text) = [.keyword .label, quoted text])
    (label : Option String) :
    lexicon.Piece Terminal.isNamePart (labelText label).toList
      ((labelAttribute make label).flatMap terminals) := by
  have hTerminals : (labelAttribute make label).flatMap terminals = labelTerminals label := by
    cases label <;> simp [labelAttribute, labelTerminals, hMake]
  exact hTerminals ▸ piece_labelText label

theorem piece_attributeUnless {α : Type} (make : String → α) (terminals : α → List Terminal)
    (k : Keyword) (default text : String)
    (hMake : terminals (make text) = [.keyword k, quoted text]) :
    lexicon.Piece Terminal.isNamePart (attributeUnless default k.spelling text).toList
      ((unlessDefault default make text).flatMap terminals) := by
  rw [attributeUnless, unlessDefault]
  split
  · exact .nil
  · rw [List.flatMap_cons, hMake, List.flatMap_nil, List.append_nil]
    exact piece_attributeText k text

theorem piece_ends {id source target : String} (hId : IsName id) (hSource : IsName source)
    (hTarget : IsName target) :
    lexicon.Piece Terminal.isNamePart
      (' ' :: id.toList ++ ' ' :: source.toList ++ [' ', '-', '>'] ++ ' ' :: target.toList)
      (endTerminals (some id) source target) :=
  (((piece_space (chunk_name hId)).append (piece_space (chunk_name hSource))).append
    (piece_space (symbol_arrow.piece (by decide)).chunk)).append (piece_space (chunk_name hTarget))

theorem chunk_texts : ∀ texts : List String, lexicon.Chunk Terminal.isNamePart
    (String.intercalate ", " (texts.map Quoted.quote)).toList (textTerminals texts)
  | [] => .nil
  | [text] => by simpa [textTerminals, quoted] using chunk_quote text
  | text :: next :: texts => by
    have hComma : lexicon.Piece Terminal.isNamePart [','] [.comma] :=
      symbol_comma.piece (by decide)
    have hOthers := hComma.append (piece_space (chunk_texts (next :: texts)))
    simpa [String.toList_intercalate, textTerminals, quoted] using (chunk_quote text).append hOthers

theorem piece_capacity (n : Nat) :
    lexicon.Piece Terminal.isNamePart (s!" capacity {n}").toList
      (PlaceAttribute.capacity n).terminals := by
  have hChars : (s!" capacity {n}").toList =
      ' ' :: Keyword.capacity.spelling.toList ++ ' ' :: (toString n).toList := String.toList_append
  rw [hChars]
  exact (piece_space (chunk_keyword .capacity)).append (piece_space (chunk_numeral n))

theorem piece_tokens (texts : List String) :
    lexicon.Piece Terminal.isNamePart
      (" tokens [" ++ String.intercalate ", " (texts.map Quoted.quote) ++ "]").toList
      (PlaceAttribute.tokens texts).terminals := by
  have hClose : lexicon.Piece Terminal.isNamePart [']'] [.closeBracket] :=
    symbol_closeBracket.piece (by decide)
  have hList := piece_space (symbol_openBracket.cons ((chunk_texts texts).append hClose))
  simpa [String.toList_append, Keyword.spelling, PlaceAttribute.terminals] using
    (piece_space (chunk_keyword .tokens)).append hList

/-! ## Lines

The characters of each line are put in the order of its terminals first: the keyword, a blank before
each word, and the end of the line. Lines are opened by `delta`: their equations are slow to make.
-/

theorem toList_placeLine (p : Place) : (placeLine p).toList =
    Keyword.place.spelling.toList ++ (' ' :: p.id.toList ++ ((labelText p.label).toList ++
      ((if p.bounded then s!" capacity {p.capacity}" else "").toList ++
        (if p.tokens.isEmpty then ""
          else " tokens [" ++ String.intercalate ", "
            (p.tokens.map fun t => Quoted.quote (tokenText t)) ++ "]").toList)) ++
      [';', '\n']) := by
  delta placeLine
  simp only [String.toList_append, List.append_assoc]
  rfl

theorem toList_transitionLine (t : Transition) : (transitionLine t).toList =
    Keyword.transition.spelling.toList ++ (' ' :: t.id.toList ++ ((labelText t.label).toList ++
      (attributeUnless defaultGuard "guard" t.guard).toList) ++ [';', '\n']) := by
  delta transitionLine
  simp only [String.toList_append, List.append_assoc]
  rfl

theorem toList_inputLine (a : InputArc) : (inputLine a).toList =
    Keyword.input.spelling.toList ++ ((' ' :: a.id.toList ++ ' ' :: a.place.toList ++
      [' ', '-', '>'] ++ ' ' :: a.transition.toList) ++ ((labelText a.label).toList ++
        ((attributeUnless defaultEvaluate "evaluate" a.evaluate).toList ++
          (attributeUnless defaultExecute "execute" a.execute).toList)) ++ [';', '\n']) := by
  delta inputLine
  simp only [String.toList_append, List.append_assoc]
  rfl

theorem toList_outputLine (a : OutputArc) : (outputLine a).toList =
    Keyword.output.spelling.toList ++ ((' ' :: a.id.toList ++ ' ' :: a.transition.toList ++
      [' ', '-', '>'] ++ ' ' :: a.place.toList) ++ ((labelText a.label).toList ++
        (attributeUnless defaultExecute "execute" a.execute).toList) ++ [';', '\n']) := by
  delta outputLine
  simp only [String.toList_append, List.append_assoc]
  rfl

theorem closed_line (k : Keyword) {cs : List Char} {ts : List Terminal}
    (h : lexicon.Piece Terminal.isNamePart cs ts) :
    lexicon.Closed (k.spelling.toList ++ (cs ++ [';', '\n']))
      (.keyword k :: (ts ++ [.semicolon])) := by
  intro rest us hRest
  have hEnd : lexicon.Scans (';' :: '\n' :: rest) (.semicolon :: us) :=
    .read symbol_semicolon.spelling (symbol_semicolon.gap _) (symbol_semicolon.read _)
      (.skip (gap_of_isBlank (by decide) rest) hRest)
  have hLine := (chunk_keyword k).append h (ends_cons (by decide) _) hEnd
  simpa using hLine

theorem closed_placeLine {p : Place} (hId : IsName p.id) :
    lexicon.Closed (placeLine p).toList (placeEntry p).terminals := by
  have hLabel := piece_labelAttribute .label PlaceAttribute.terminals (fun _ => rfl) p.label
  have hCapacity : lexicon.Piece Terminal.isNamePart
      (if p.bounded then s!" capacity {p.capacity}" else "").toList
      ((if p.bounded then [.capacity p.capacity] else []).flatMap PlaceAttribute.terminals) := by
    split
    · simpa only [List.flatMap_singleton] using piece_capacity p.capacity
    · exact .nil
  have hTokens : lexicon.Piece Terminal.isNamePart
      (if p.tokens.isEmpty then ""
        else " tokens [" ++
          String.intercalate ", " (p.tokens.map fun t => Quoted.quote (tokenText t)) ++ "]").toList
      ((if p.tokens.isEmpty then [] else [.tokens (p.tokens.map tokenText)]).flatMap
        PlaceAttribute.terminals) := by
    split
    · exact .nil
    · have hPiece := piece_tokens (p.tokens.map tokenText)
      rw [List.map_map] at hPiece
      rw [List.flatMap_singleton]
      exact hPiece
  rw [toList_placeLine, placeEntry, Entry.terminals, placeAttributes, List.flatMap_append,
    List.flatMap_append]
  exact closed_line .place
    ((piece_space (chunk_name hId)).append (hLabel.append (hCapacity.append hTokens)))

theorem closed_transitionLine {t : Transition} (hId : IsName t.id) :
    lexicon.Closed (transitionLine t).toList (transitionEntry t).terminals := by
  have hLabel := piece_labelAttribute .label TransitionAttribute.terminals (fun _ => rfl) t.label
  have hGuard := piece_attributeUnless .guard TransitionAttribute.terminals .guard defaultGuard
    t.guard rfl
  rw [toList_transitionLine, transitionEntry, Entry.terminals, transitionAttributes,
    List.flatMap_append]
  exact closed_line .transition ((piece_space (chunk_name hId)).append (hLabel.append hGuard))

theorem closed_inputLine {a : InputArc} (hId : IsName a.id) (hPlace : IsName a.place)
    (hTransition : IsName a.transition) :
    lexicon.Closed (inputLine a).toList (inputEntry a).terminals := by
  have hLabel := piece_labelAttribute .label ArcAttribute.terminals (fun _ => rfl) a.label
  have hEvaluate := piece_attributeUnless .evaluate ArcAttribute.terminals .evaluate
    defaultEvaluate a.evaluate rfl
  have hExecute := piece_attributeUnless .execute ArcAttribute.terminals .execute
    defaultExecute a.execute rfl
  have hLine := closed_line .input
    ((piece_ends hId hPlace hTransition).append (hLabel.append (hEvaluate.append hExecute)))
  rw [List.append_assoc (endTerminals _ _ _)] at hLine
  rw [toList_inputLine, inputEntry, Entry.terminals, inputAttributes, List.flatMap_append,
    List.flatMap_append]
  exact hLine

theorem closed_outputLine {a : OutputArc} (hId : IsName a.id) (hTransition : IsName a.transition)
    (hPlace : IsName a.place) :
    lexicon.Closed (outputLine a).toList (outputEntry a).terminals := by
  have hLabel := piece_labelAttribute .label ArcAttribute.terminals (fun _ => rfl) a.label
  have hExecute := piece_attributeUnless .execute ArcAttribute.terminals .execute
    defaultExecute a.execute rfl
  have hLine := closed_line .output
    ((piece_ends hId hTransition hPlace).append (hLabel.append hExecute))
  rw [List.append_assoc (endTerminals _ _ _)] at hLine
  rw [toList_outputLine, outputEntry, Entry.terminals, outputAttributes, List.flatMap_append]
  exact hLine

theorem closed_netLine {net : Net} (hId : IsName net.id) :
    lexicon.Closed ("net " ++ net.id ++ labelText net.label ++ ";\n").toList
      (Entry.net net.id net.label).terminals := by
  have hLine := closed_line .net
    ((piece_space (chunk_name hId)).append (piece_labelText net.label))
  simpa [Entry.terminals, Keyword.spelling] using hLine

theorem closed_freeTextLine (make : String → Entry) (k : Keyword) (text : String)
    (hMake : (make text).terminals = [.keyword k, quoted text, .semicolon]) :
    lexicon.Closed (freeTextLine k.spelling text).toList
      ((unlessDefault "" make text).flatMap Entry.terminals) := by
  rw [freeTextLine, unlessDefault]
  split
  · exact .nil
  · rw [List.flatMap_cons, hMake, List.flatMap_nil, List.append_nil]
    simpa [quoted] using closed_line k (piece_space (chunk_quote text))

/-- The identifiers of the net and of its elements can be written. -/
structure Named (net : Net) : Prop where
  id : IsName net.id
  ids : ∀ id ∈ net.ids, IsName id

namespace Named
variable {net : Net}

theorem place_of_arc (h : Named net) (hNet : net.WellFormed) {a : Arc} (ha : a ∈ net.arcs) :
    IsName a.place := by
  obtain ⟨p, hp⟩ := hNet.place_of_arc a ha
  obtain ⟨hPlace, hId⟩ := Net.mem_of_place? hp
  exact hId ▸ h.ids _ (Net.id_mem_of_place hPlace)

theorem transition_of_arc (h : Named net) (hNet : net.WellFormed) {a : Arc} (ha : a ∈ net.arcs) :
    IsName a.transition := by
  obtain ⟨t, ht⟩ := hNet.transition_of_arc a ha
  obtain ⟨hTransition, hId⟩ := Net.mem_of_transition? ht
  exact hId ▸ h.ids _ (Net.id_mem_of_transition hTransition)

end Named

theorem scans_print {net : Net} (hNet : net.WellFormed) (hNamed : Named net) :
    lexicon.Scans (print net).toList ((entries net).flatMap Entry.terminals) := by
  have hPlaces : lexicon.Closed (net.places.flatMap fun p => (placeLine p).toList)
      (net.places.flatMap fun p => (placeEntry p).terminals) :=
    .flatMap fun p hp => closed_placeLine (hNamed.ids _ (Net.id_mem_of_place hp))
  have hTransitions : lexicon.Closed (net.transitions.flatMap fun t => (transitionLine t).toList)
      (net.transitions.flatMap fun t => (transitionEntry t).terminals) :=
    .flatMap fun t ht => closed_transitionLine (hNamed.ids _ (Net.id_mem_of_transition ht))
  have hInputs : lexicon.Closed (net.inputArcs.flatMap fun a => (inputLine a).toList)
      (net.inputArcs.flatMap fun a => (inputEntry a).terminals) :=
    .flatMap fun a ha => by
      have hArc := Net.mem_arcs_of_input ha
      exact closed_inputLine (hNamed.ids _ (Net.id_mem_of_arc hArc))
        (hNamed.place_of_arc hNet hArc) (hNamed.transition_of_arc hNet hArc)
  have hOutputs : lexicon.Closed (net.outputArcs.flatMap fun a => (outputLine a).toList)
      (net.outputArcs.flatMap fun a => (outputEntry a).terminals) :=
    .flatMap fun a ha => by
      have hArc := Net.mem_arcs_of_output ha
      exact closed_outputLine (hNamed.ids _ (Net.id_mem_of_arc hArc))
        (hNamed.transition_of_arc hNet hArc) (hNamed.place_of_arc hNet hArc)
  have hDeclarations := closed_freeTextLine .declarations .declarations net.declarations rfl
  have hImports := closed_freeTextLine .imports .imports net.imports rfl
  have hImplements := closed_freeTextLine .implements .implements net.implements rfl
  have hAll := ((((((closed_netLine hNamed.id).append hDeclarations).append hImports).append
    hImplements).append hPlaces).append hTransitions).append (hInputs.append hOutputs)
  have hScans := hAll.whole
  simpa [print, lines, entries, String.toList_join, List.flatMap_map, Keyword.spelling] using hScans

end Petri.NetFile
