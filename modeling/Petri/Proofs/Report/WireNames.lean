import Petri.Proofs.NetFile.Acceptance
import Petri.Proofs.NetFile.Accepted
import Petri.Proofs.Simulation.Tracing

/-! # The names of wires

The dump of a waveform declares every wire by a code and by a name. The codes tell the wires apart. The
names do unless identifiers differ only in dots against underscores, as nothing else in an identifier
of a file is changed in a name.
-/
namespace Petri.Waveform
open Text NetFile
set_option autoImplicit false

/-! ## Words -/

/-- What stands between the white space of a text. -/
def words (text : String) : List String :=
  ((text.toList.splitOnP isBlank).filter fun word => !word.isEmpty).map String.ofList

def EndsWord (text : String) : Prop := ∃ sep ∈ text.toList.getLast?, isBlank sep = true

theorem words_append {text : String} (h : EndsWord text) (rest : String) :
    words (text ++ rest) = words text ++ words rest := by
  obtain ⟨sep, hLast, hSep⟩ := h
  obtain ⟨start, hText⟩ := List.getLast?_eq_some_iff.mp hLast
  have hCut (rest : List Char) : ((start ++ sep :: rest).splitOnP isBlank) =
      start.splitOnP isBlank ++ rest.splitOnP isBlank := List.splitOnP_append_cons _ _ hSep
  have hWhole := hCut rest.toList
  have hAlone := hCut []
  simp only [words, String.toList_append, hText, List.append_assoc, List.singleton_append, hWhole,
    hAlone, List.filter_append, List.map_append]
  rfl

structure IsSolid (word : String) : Prop where
  nonempty : word.toList ≠ []
  solid : ∀ c ∈ word.toList, isBlank c = false

theorem IsSolid.words_append {word : String} (h : IsSolid word) (rest : String) :
    words (word ++ " " ++ rest) = word :: words rest := by
  have hEnds : EndsWord (word ++ " ") := ⟨' ', by simp, by decide⟩
  have hAlone : words (word ++ " ") = [word] := by
    have hCut : (word ++ " ").toList.splitOnP isBlank = [word.toList, []] := by
      have hBlank : isBlank ' ' = true := by decide
      rw [String.toList_append]
      exact (List.splitOnP_append_cons _ [] hBlank).trans
        (congrArg (· ++ _) (List.splitOnP_eq_singleton h.solid))
    rw [words, hCut, List.filter_cons_of_pos (by simpa using h.nonempty)]
    simp
  rw [Waveform.words_append hEnds, hAlone, List.singleton_append]

theorem IsSolid.ne_empty {word : String} (h : IsSolid word) : word ≠ "" := by
  rintro rfl
  exact h.nonempty rfl

theorem isBlank_codeFrom (fuel n : Nat) : ∀ c ∈ codeFrom fuel n, isBlank c = false := by
  have hDigit : ∀ m < codeBase, isBlank (Char.ofNat (33 + m)) = false := by decide
  induction fuel generalizing n with
  | zero => exact List.forall_mem_nil _
  | succ fuel ih =>
    rw [codeFrom, List.forall_mem_cons]
    refine ⟨hDigit _ (Nat.mod_lt _ (by decide)), ?_⟩
    split
    · exact List.forall_mem_nil _
    · exact ih _

theorem isSolid_code (n : Nat) : IsSolid (code n) := by
  constructor <;> rw [code, String.toList_ofList]
  · exact codeFrom_ne_nil (Nat.lt_succ_self n)
  · exact isBlank_codeFrom _ n

/-! ## Names -/

theorem isWordPart_eq (c : Char) : isWordPart c = (c.isAlphanum || c == '_') := by
  rw [isWordPart, isWordStart, Char.isAlphanum, Bool.or_right_comm]

theorem toList_wireName (id : String) :
    (wireName id).toList = id.toList.map fun c => if isWordPart c then c else '_' := by
  simp only [wireName, String.toList_map, isWordPart_eq]

theorem isWordPart_wireName (id : String) : ∀ c ∈ (wireName id).toList, isWordPart c = true := by
  rw [toList_wireName, List.forall_mem_map]
  intro c _
  split
  · assumption
  · rfl

theorem isSolid_wireName {id : String} (h : id ≠ "") : IsSolid (wireName id) where
  nonempty := by
    rw [toList_wireName, Ne, List.map_eq_nil_iff, String.toList_eq_nil_iff]
    exact h
  solid c hc := isBlank_of_isWordPart (isWordPart_wireName id c hc)

def undot (c : Char) : Char := if c = '.' then '_' else c

theorem isNamePart_of_isWord {word : List Char} (h : IsWord word) :
    ∀ c ∈ word, isWordPart c = true ∨ c = '.' := by
  cases word with
  | nil => exact List.forall_mem_nil _
  | cons d ds =>
    refine List.forall_mem_cons.mpr ⟨.inl (isWordPart_of_isWordStart h.1), fun c hc => ?_⟩
    have hPart := h.2 c hc
    rwa [Terminal.isNamePart, Bool.or_eq_true, beq_iff_eq] at hPart

/-- In the name of an identifier that a file can give, underscores stand for the dots, and all else is
as it was. -/
theorem wireName_of_isName {id : String} (h : IsName id) : wireName id = id.map undot := by
  rw [← String.toList_inj, toList_wireName, String.toList_map]
  refine List.map_congr_left fun c hc => ?_
  rcases isNamePart_of_isWord h.word c hc with hPart | rfl
  · rw [if_pos hPart, undot, if_neg]
    rintro rfl
    cases hPart
  · rfl

/-- The identifiers are the same but for dots in the place of underscores. -/
def Alike (id id' : String) : Prop :=
  List.Forall₂ (fun c c' => c = c' ∨ c ∈ ['.', '_'] ∧ c' ∈ ['.', '_']) id.toList id'.toList

theorem undot_eq_iff {c c' : Char} :
    undot c = undot c' ↔ c = c' ∨ c ∈ ['.', '_'] ∧ c' ∈ ['.', '_'] := by
  simp only [undot, List.mem_cons, List.not_mem_nil, or_false]
  grind

theorem wireName_eq_iff {id id' : String} (h : IsName id) (h' : IsName id') :
    wireName id = wireName id' ↔ Alike id id' := by
  rw [wireName_of_isName h, wireName_of_isName h', ← String.toList_inj, String.toList_map,
    String.toList_map, ← List.forall₂_eq_eq_eq, List.forall₂_map_left_iff, List.forall₂_map_right_iff]
  simp only [undot_eq_iff, Alike]

/-! ## Declarations -/

/-- The codes and names that the words of a dump declare. -/
def declared : List String → List (String × String)
  | "$var" :: _ :: _ :: code :: name :: rest => (code, name) :: declared rest
  | "$enddefinitions" :: _ => []
  | _ :: rest => declared rest
  | [] => []

theorem words_declaration (n : Nat) {id : String} (hId : id ≠ "") (rest : String) :
    words (declaration n id ++ rest) =
      "$var" :: "wire" :: "1" :: code n :: wireName id :: "$end" :: words rest := by
  have hText : declaration n id ++ rest =
      "$var wire 1 " ++ (code n ++ " " ++ (wireName id ++ " " ++ ("$end\n" ++ rest))) := by
    have hEnd : " $end\n" = " " ++ "$end\n" := rfl
    change "$var wire 1 " ++ code n ++ " " ++ wireName id ++ " $end\n" ++ rest = _
    rw [hEnd]
    simp only [String.append_assoc]
  have hStart : words "$var wire 1 " = ["$var", "wire", "1"] := by cbv
  have hStop : words "$end\n" = ["$end"] := by cbv
  rw [hText, words_append ⟨' ', by cbv, by decide⟩, (isSolid_code n).words_append,
    (isSolid_wireName hId).words_append, words_append ⟨'\n', by cbv, by decide⟩, hStart, hStop]
  rfl

theorem declared_declarations {ids : List String} (hIds : ∀ id ∈ ids, id ≠ "") (numbers : Nat → Nat)
    (rest : String) :
    declared (words (String.join (ids.mapIdx fun n id => declaration (numbers n) id) ++ rest)) =
      ids.mapIdx (fun n id => (code (numbers n), wireName id)) ++ declared (words rest) := by
  induction ids generalizing numbers with
  | nil => simp
  | cons id ids ih =>
    rw [List.forall_mem_cons] at hIds
    rw [List.mapIdx_cons, List.mapIdx_cons, String.join_cons, String.append_assoc,
      words_declaration _ hIds.1, List.cons_append, ← ih hIds.2 fun n => numbers (n + 1)]
    rfl

theorem declared_start (rest : String) :
    declared (words ("$timescale 1 ns $end\n$scope module net $end\n" ++ rest)) =
      declared (words rest) := by
  have hWords : words "$timescale 1 ns $end\n$scope module net $end\n" =
      ["$timescale", "1", "ns", "$end", "$scope", "module", "net", "$end"] := by cbv
  rw [words_append ⟨'\n', by cbv, by decide⟩, hWords]
  rfl

theorem declared_stop (rest : String) :
    declared (words ("$upscope $end\n$enddefinitions $end\n" ++ rest)) = [] := by
  have hWords : words "$upscope $end\n$enddefinitions $end\n" =
      ["$upscope", "$end", "$enddefinitions", "$end"] := by cbv
  rw [words_append ⟨'\n', by cbv, by decide⟩, hWords]
  rfl

theorem header_eq (w : Waveform) :
    w.header = "$timescale 1 ns $end\n$scope module net $end\n" ++
      (String.join (w.wires.mapIdx declaration) ++ "$upscope $end\n$enddefinitions $end\n") :=
  String.append_assoc ..

/-- What a dump declares is all that stands before the end of its definitions. -/
theorem declared_print {w : Waveform} (h : ∀ id ∈ w.wires, id ≠ "") :
    declared (words w.print) = w.wires.mapIdx fun n id => (code n, wireName id) := by
  have hDeclarations := declared_declarations h fun n => n
  rw [print_eq, header_eq, String.append_assoc, String.append_assoc, declared_start, hDeclarations,
    declared_stop, List.append_nil]

section Dump
variable {w : Waveform} (h : ∀ id ∈ w.wires, id ≠ "")
include h

theorem names_declared : (declared (words w.print)).map Prod.snd = w.wires.map wireName := by
  rw [declared_print h]
  exact List.ext_getElem (by simp) (by simp)

theorem codes_declared : (declared (words w.print)).map Prod.fst =
    (List.range w.wires.length).map code := by
  rw [declared_print h]
  exact List.ext_getElem (by simp) (by simp)

theorem nodup_codes_declared : ((declared (words w.print)).map Prod.fst).Nodup := by
  rw [codes_declared h]
  exact List.nodup_range.map fun _ _ => code_injective

end Dump

/-! ## Accepted files -/

section Accepted
variable (ev : Evaluator Id) {text : String} {net : Net}

theorem ids_of_parse (h : NetFile.parse ev text = .ok net) :
    (net.nodes.map Node.id).Nodup ∧ ∀ id ∈ net.nodes.map Node.id, IsName id := by
  unfold NetFile.parse at h
  split at h
  · cases h
  rename_i entries hEntries
  obtain ⟨hEvaluates, hDistinct, _⟩ := (netOf_eq_ok_iff ev).mp h
  obtain ⟨_, _, hNet, _⟩ := identified_of_netOf ev h
  have hIds : net.nodes.map Node.id = entries.filterMap Entry.nodeId? := by
    rw [hNet]
    exact ids_of_nodes ev (isSome_node?_of_evaluates ev hEvaluates)
  rw [hIds]
  refine ⟨hDistinct, fun id hId => ?_⟩
  obtain ⟨entry, hEntry, hGiven⟩ := List.mem_filterMap.mp hId
  have hProper := proper_of_entriesOf hEntries entry hEntry
  cases entry with
  | place =>
    cases hGiven
    exact hProper.1
  | transition =>
    cases hGiven
    exact hProper
  | _ => cases hGiven

theorem wires_of_parse (h : NetFile.parse ev text = .ok net) :
    (ofNet net).wires.Nodup ∧ ∀ id ∈ (ofNet net).wires, IsName id := by
  obtain ⟨hNodup, hNames⟩ := ids_of_parse ev h
  have hPerm := Net.node_ids_perm net.nodes
  rw [wires_ofNet]
  exact ⟨hPerm.nodup_iff.mpr hNodup, fun id hId => hNames id (hPerm.mem_iff.mp hId)⟩

theorem ids_ne_empty_of_parse (h : NetFile.parse ev text = .ok net) (log : List Event) :
    ∀ id ∈ ((ofNet net).record log).wires, id ≠ "" := by
  rintro _ hId rfl
  exact ((wires_of_parse ev h).2 "" hId).word

/-- The wires of a dump of a net that a file describes have distinct codes, whatever their names. -/
theorem codes_of_wires (h : NetFile.parse ev text = .ok net) (log : List Event) :
    ((declared (words ((ofNet net).record log).print)).map Prod.fst).Nodup :=
  nodup_codes_declared (ids_ne_empty_of_parse ev h log)

/-- A dump of a net that a file describes declares its places and then its transitions. Their names have
nothing but letters, digits and underscores in them: each is the identifier with underscores for the
dots. So wires have one name exactly if their identifiers are alike, and the names are distinct exactly
if no two identifiers are. -/
theorem names_of_wires (h : NetFile.parse ev text = .ok net) (log : List Event) :
    let ids := net.places.map Place.id ++ net.transitions.map Transition.id
    let wires := declared (words ((ofNet net).record log).print)
    wires.map Prod.snd = ids.map wireName ∧
      (∀ wire ∈ wires, wire.2 ≠ "" ∧ ∀ c ∈ wire.2.toList, isWordPart c = true) ∧
      (∀ id ∈ ids, wireName id = id.map undot ∧
        ∀ id' ∈ ids, wireName id = wireName id' ↔ Alike id id') ∧
      ((wires.map Prod.snd).Nodup ↔ ∀ id ∈ ids, ∀ id' ∈ ids, Alike id id' → id = id') := by
  obtain ⟨hNodup, hNames⟩ := wires_of_parse ev h
  have hNonempty := ids_ne_empty_of_parse ev h log
  have hDeclared := names_declared hNonempty
  have hWires : ((ofNet net).record log).wires =
      net.places.map Place.id ++ net.transitions.map Transition.id := wires_ofNet net
  rw [hWires] at hDeclared hNonempty
  rw [wires_ofNet] at hNodup hNames
  refine ⟨hDeclared, fun wire hWire => ?_, fun id hId => ⟨wireName_of_isName (hNames id hId),
    fun id' hId' => wireName_eq_iff (hNames id hId) (hNames id' hId')⟩, ?_⟩
  · have hName := List.mem_map_of_mem (f := Prod.snd) hWire
    rw [hDeclared] at hName
    obtain ⟨id, hId, hSame⟩ := List.mem_map.mp hName
    rw [← hSame]
    exact ⟨(isSolid_wireName (hNonempty id hId)).ne_empty, isWordPart_wireName id⟩
  · -- no identifier occurs twice, so names repeat only where two identifiers have one
    rw [hDeclared, List.nodup_map_iff_inj_on hNodup]
    refine forall₂_congr fun id hId => forall₂_congr fun id' hId' => ?_
    rw [wireName_eq_iff (hNames id hId) (hNames id' hId')]

end Accepted

/-- Two places whose identifiers are alike. -/
def twins : Net where
  id := defaultName
  nodes := [.place { id := "p.1" }, .place { id := "p_1" }]

theorem names_of_wires_collide :
    NetFile.parse interpreter "place p.1; place p_1;" = .ok twins ∧
      ¬ ((declared (words ((ofNet twins).record []).print)).map Prod.snd).Nodup := by
  have hParse : NetFile.parse interpreter "place p.1; place p_1;" = .ok twins := by cbv
  have hNames : ((ofNet twins).record []).wires.map wireName = ["p_1", "p_1"] := by cbv
  refine ⟨hParse, ?_⟩
  rw [names_declared (by decide), hNames]
  decide

/-- A place and a transition whose identifiers are not alike. -/
def mixed : Net where
  id := defaultName
  nodes := [.place { id := "p.1" }, .transition { id := "t_1" }]

theorem names_of_wires_mixed :
    NetFile.parse interpreter "place p.1; transition t_1;" = .ok mixed ∧
      (declared (words ((ofNet mixed).record []).print)).map Prod.snd = ["p_1", "t_1"] ∧
      ((declared (words ((ofNet mixed).record []).print)).map Prod.fst).Nodup ∧
      ((declared (words ((ofNet mixed).record []).print)).map Prod.snd).Nodup := by
  have hParse : NetFile.parse interpreter "place p.1; transition t_1;" = .ok mixed := by cbv
  obtain ⟨hNames, _⟩ := names_of_wires interpreter hParse []
  have hAll : (mixed.places.map Place.id ++ mixed.transitions.map Transition.id).map wireName =
      ["p_1", "t_1"] := by cbv
  rw [hAll] at hNames
  exact ⟨hParse, hNames, codes_of_wires interpreter hParse [], by rw [hNames]; decide⟩

end Petri.Waveform
