import Petri.Proofs.Indexed.Firing

/-! # Calls on a net with indexes

Whatever calls are made on a new net, failing ones included, the net with indexes never breaks off and
answers as the plain net does. Its elements are those that calls have added, and every index tells
of them what the plain net tells.
-/
namespace Petri
set_option autoImplicit false

/-- A call on a net. Edits leave alone what an element is known by. -/
inductive Call where
  | describe (id : String) (label : Option String) (declarations imports implements : String)
  | addPlace (p : Place)
  | addTransition (t : Transition)
  | addInput (a : InputArc)
  | addOutput (a : OutputArc)
  | drawId (kind : ElementKind)
  | restartNumbering
  | editPlace (id : String) (f : Place → Place) (hId : ∀ p, (f p).id = p.id)
  | editTransition (id : String) (f : Transition → Transition) (hId : ∀ t, (f t).id = t.id)
  | editArc (id : String) (f : Arc → Arc) (hSame : ∀ a, Net.SameArc a (f a))
  | enabled (ev : Evaluator Id) (transition : String) (clock : Time)
  | fire (ev : Evaluator Id) (transition : String) (clock : Time)

inductive Answer where
  | done
  /-- The position of what was added. -/
  | added (result : Except ConstructionError Nat)
  | drawn (id : String)
  | edited (found : Bool)
  | enabled (result : Except RunError Bool)
  | fired (result : Except RunError Firing)

namespace Call

def newId? : Call → Option String
  | addPlace p => some p.id
  | addTransition t => some t.id
  | addInput a => some a.id
  | addOutput a => some a.id
  | _ => none

def node? : Call → Answer → Option Node
  | addPlace p, .added (.ok _) => some (.place p)
  | addTransition t, .added (.ok _) => some (.transition t)
  | _, _ => none

def arc? : Call → Answer → Option Arc
  | addInput a, .added (.ok _) => some (.input a)
  | addOutput a, .added (.ok _) => some (.output a)
  | _, _ => none

/-- The nodes that calls have added, by their answers. -/
def addedNodes : List Call → List Answer → List Node
  | call :: calls, answer :: answers => (call.node? answer).toList ++ addedNodes calls answers
  | _, _ => []

def addedArcs : List Call → List Answer → List Arc
  | call :: calls, answer :: answers => (call.arc? answer).toList ++ addedArcs calls answers
  | _, _ => []

end Call

/-! ## Performing calls -/

namespace Net

/-- A call that fails leaves the net as it is. -/
def outcome {ε α : Type} (net : Net) (answer : Except ε α → Answer) :
    Except ε (α × Net) → Answer × Net
  | .error e => (answer (.error e), net)
  | .ok (a, after) => (answer (.ok a), after)

def perform (net : Net) : Call → Answer × Net
  | .describe id label declarations imports implements =>
    (.done, { net with
      id := id, label := label, declarations := declarations, imports := imports
      implements := implements })
  | .addPlace p =>
    net.outcome .added ((net.addPlace p).map fun after => (net.nodes.length, after))
  | .addTransition t =>
    net.outcome .added ((net.addTransition t).map fun after => (net.nodes.length, after))
  | .addInput a =>
    net.outcome .added ((net.addInput a).map fun after => (net.arcs.length, after))
  | .addOutput a =>
    net.outcome .added ((net.addOutput a).map fun after => (net.arcs.length, after))
  | .drawId kind => (.drawn (net.freshId kind).1, (net.freshId kind).2)
  | .restartNumbering => (.done, net.restartNumbering)
  | .editPlace id f _ => (.edited (net.place? id).isSome, net.updatePlace id f)
  | .editTransition id f _ => (.edited (net.transition? id).isSome, net.updateTransition id f)
  | .editArc id f _ => (.edited (net.arc? id).isSome, net.updateArc id f)
  | .enabled ev transition clock => (.enabled (net.enabled ev transition clock).run, net)
  | .fire ev transition clock => net.outcome .fired (net.fire ev transition clock).run

def performAll (net : Net) : List Call → List Answer × Net
  | [] => ([], net)
  | call :: rest =>
    let (answer, net) := net.perform call
    let (answers, net) := net.performAll rest
    (answer :: answers, net)

end Net

namespace IndexedNet
open Operation

def answer {α : Type} (f : α → Answer) : Option (α × IndexedNet) → Option (Answer × IndexedNet) :=
  Option.map fun (a, net) => (f a, net)

def perform (net : IndexedNet) : Call → Option (Answer × IndexedNet)
  | .describe id label declarations imports implements =>
    some (.done, { net with
      id := id, label := label, declarations := declarations, imports := imports
      implements := implements })
  | .addPlace p => answer .added ((addPlace p).on net)
  | .addTransition t => answer .added ((addTransition t).on net)
  | .addInput a => answer .added ((addInput a).on net)
  | .addOutput a => answer .added ((addOutput a).on net)
  | .drawId kind => some (.drawn (net.drawId kind).1, (net.drawId kind).2)
  | .restartNumbering => some (.done, net.restartNumbering)
  | .editPlace id f _ => answer .edited (net.editPlace id f)
  | .editTransition id f _ => answer .edited (net.editTransition id f)
  | .editArc id f _ => answer .edited (net.editArc id f)
  | .enabled ev transition clock =>
    (net.enabled ev transition clock).run.map fun result => (.enabled result, net)
  | .fire ev transition clock => answer .fired ((fire ev transition clock).on net)

def performAll (net : IndexedNet) : List Call → Option (List Answer × IndexedNet)
  | [] => some ([], net)
  | call :: rest => do
    let (answer, net) ← net.perform call
    let (answers, net) ← net.performAll rest
    return (answer :: answers, net)

/-- A call comes out as it does on the plain net. -/
def Answers (outcome : Option (Answer × IndexedNet)) (plain : Answer × Net) : Prop :=
  ∃ net', outcome = some (plain.1, net') ∧ net'.InStep ∧ net'.toNet = plain.2

theorem Mirrors.answers {ε α : Type} {net : IndexedNet} (hNet : net.InStep)
    {outcome : Option (Except ε α × IndexedNet)} {plain : Except ε (α × Net)}
    (h : net.Mirrors outcome plain) (answer : Except ε α → Answer) :
    Answers (IndexedNet.answer answer outcome) (net.toNet.outcome answer plain) := by
  cases plain with
  | error e =>
    rw [show outcome = some (.error e, net) from h]
    exact ⟨net, rfl, hNet, rfl⟩
  | ok pair =>
    obtain ⟨net', hOutcome, hAfter, hPlain⟩ := h
    rw [hOutcome]
    exact ⟨net', rfl, hAfter, hPlain⟩

theorem InStep.perform {net : IndexedNet} (h : net.InStep) (call : Call) :
    Answers (net.perform call) (net.toNet.perform call) := by
  have hLength : net.edges.length = net.toNet.arcs.length := (List.length_map _).symm
  cases call with
  | describe id label declarations imports implements =>
    have hWell := h.wellFormed.change
      (.describe net.toNet id label declarations imports implements)
    exact ⟨_, rfl, { h with wellFormed := hWell }, rfl⟩
  | addPlace p => exact Mirrors.answers h (h.addPlace p) .added
  | addTransition t => exact Mirrors.answers h (h.addTransition t) .added
  | addInput a =>
    rw [Net.perform, ← hLength]
    exact Mirrors.answers h (h.addInput a) .added
  | addOutput a =>
    rw [Net.perform, ← hLength]
    exact Mirrors.answers h (h.addOutput a) .added
  | drawId kind =>
    obtain ⟨hDrawn, hAfter, hPlain⟩ := h.drawId kind
    exact ⟨_, by rw [IndexedNet.perform, hDrawn]; rfl, hAfter, hPlain⟩
  | restartNumbering => exact ⟨_, rfl, h.restartNumbering, rfl⟩
  | editPlace id f hId =>
    obtain ⟨net', hEdit, hAfter, hPlain⟩ := h.editPlace id hId
    exact ⟨net', by rw [IndexedNet.perform, hEdit]; rfl, hAfter, hPlain⟩
  | editTransition id f hId =>
    obtain ⟨net', hEdit, hAfter, hPlain⟩ := h.editTransition id hId
    exact ⟨net', by rw [IndexedNet.perform, hEdit]; rfl, hAfter, hPlain⟩
  | editArc id f hSame =>
    obtain ⟨net', hEdit, hAfter, hPlain⟩ := h.editArc id hSame
    exact ⟨net', by rw [IndexedNet.perform, hEdit]; rfl, hAfter, hPlain⟩
  | enabled ev transition clock =>
    exact ⟨net, by rw [IndexedNet.perform, h.enabled]; rfl, h, rfl⟩
  | fire ev transition clock => exact Mirrors.answers h (h.fire ev transition clock) .fired

theorem InStep.performAll {net : IndexedNet} (h : net.InStep) (calls : List Call) :
    ∃ net', net.performAll calls = some ((net.toNet.performAll calls).1, net') ∧ net'.InStep ∧
      net'.toNet = (net.toNet.performAll calls).2 := by
  induction calls generalizing net with
  | nil => exact ⟨net, rfl, h, rfl⟩
  | cons call rest ih =>
    obtain ⟨next, hCall, hNext, hPlain⟩ := h.perform call
    obtain ⟨last, hRest, hLast, hPlain'⟩ := ih hNext
    rw [hPlain] at hRest hPlain'
    refine ⟨last, ?_, hLast, hPlain'⟩
    rw [IndexedNet.performAll, hCall]
    change (next.performAll rest >>= _) = _
    rw [hRest]
    rfl

end IndexedNet

/-! ## What was added -/

namespace Net

theorem signature_mapPlaces (net : Net) {f : Place → Place} (hId : ∀ p, (f p).id = p.id) :
    (net.mapPlaces f).nodes.map Node.signature = net.nodes.map Node.signature := by
  rw [mapPlaces, List.map_map]
  refine List.map_congr_left fun n _ => ?_
  cases n with
  | place p => exact Prod.ext (hId p) rfl
  | transition t => rfl

theorem signature_mapTransitions (net : Net) {f : Transition → Transition}
    (hId : ∀ t, (f t).id = t.id) :
    (net.mapTransitions f).nodes.map Node.signature = net.nodes.map Node.signature := by
  rw [mapTransitions, List.map_map]
  refine List.map_congr_left fun n _ => ?_
  cases n with
  | place p => rfl
  | transition t => exact Prod.ext (hId t) rfl

theorem signature_updateTransition (net : Net) (id : String) {f : Transition → Transition}
    (hId : ∀ t, (f t).id = t.id) :
    (net.updateTransition id f).nodes.map Node.signature = net.nodes.map Node.signature :=
  net.signature_mapTransitions fun t => by
    split
    · exact hId t
    · rfl

theorem signature_updateArc (net : Net) (id : String) {f : Arc → Arc}
    (hSame : ∀ a, SameArc a (f a)) :
    (net.updateArc id f).arcs.map Arc.signature = net.arcs.map Arc.signature := by
  rw [updateArc, List.map_map]
  refine List.map_congr_left fun a _ => ?_
  rw [Function.comp_apply]
  split
  · exact (hSame a).signature
  · rfl

/-- The other net has these elements more, and those that were there up to edits. -/
structure Grows (net after : Net) (nodes : List Node) (arcs : List Arc) : Prop where
  nodes : after.nodes.map Node.signature = (net.nodes ++ nodes).map Node.signature
  arcs : after.arcs.map Arc.signature = (net.arcs ++ arcs).map Arc.signature

theorem Grows.none {net after : Net}
    (hNodes : after.nodes.map Node.signature = net.nodes.map Node.signature)
    (hArcs : after.arcs.map Arc.signature = net.arcs.map Arc.signature) : Grows net after [] [] :=
  ⟨by rw [hNodes, List.append_nil], by rw [hArcs, List.append_nil]⟩

theorem Grows.trans {net middle after : Net} {nodes nodes' : List Node} {arcs arcs' : List Arc}
    (h : Grows net middle nodes arcs) (h' : Grows middle after nodes' arcs') :
    Grows net after (nodes ++ nodes') (arcs ++ arcs') where
  nodes := by rw [h'.nodes, List.map_append, h.nodes, ← List.map_append, List.append_assoc]
  arcs := by rw [h'.arcs, List.map_append, h.arcs, ← List.map_append, List.append_assoc]

theorem grows_perform (net : Net) (call : Call) :
    Grows net (net.perform call).2 (call.node? (net.perform call).1).toList
      (call.arc? (net.perform call).1).toList := by
  cases call with
  | describe | drawId | restartNumbering | enabled => exact .none rfl rfl
  | addPlace p =>
    rw [perform]
    cases hAdd : net.addPlace p with
    | error e => exact .none rfl rfl
    | ok after =>
      obtain ⟨_, rfl⟩ := addPlace_eq_ok_iff.mp hAdd
      exact ⟨rfl, congrArg _ (List.append_nil _).symm⟩
  | addTransition t =>
    rw [perform]
    cases hAdd : net.addTransition t with
    | error e => exact .none rfl rfl
    | ok after =>
      obtain ⟨_, rfl⟩ := addTransition_eq_ok_iff.mp hAdd
      exact ⟨rfl, congrArg _ (List.append_nil _).symm⟩
  | addInput a =>
    rw [perform]
    cases hAdd : net.addInput a with
    | error e => exact .none rfl rfl
    | ok after =>
      obtain ⟨_, _, _, rfl⟩ := addInput_eq_ok_iff.mp hAdd
      exact ⟨congrArg _ (List.append_nil _).symm, rfl⟩
  | addOutput a =>
    rw [perform]
    cases hAdd : net.addOutput a with
    | error e => exact .none rfl rfl
    | ok after =>
      obtain ⟨_, _, _, rfl⟩ := addOutput_eq_ok_iff.mp hAdd
      exact ⟨congrArg _ (List.append_nil _).symm, rfl⟩
  | editPlace id f hId =>
    refine .none (net.signature_mapPlaces fun p => ?_) rfl
    split
    · exact hId p
    · rfl
  | editTransition id f hId => exact .none (net.signature_updateTransition id hId) rfl
  | editArc id f hSame => exact .none rfl (net.signature_updateArc id hSame)
  | fire ev transition clock =>
    rw [perform]
    cases hFire : (net.fire ev transition clock).run with
    | error e => exact .none rfl rfl
    | ok pair =>
      obtain ⟨scratch, hCommit⟩ := eq_commit_of_fire ev net transition clock hFire
      obtain ⟨firing, after⟩ := pair
      cases hCommit
      refine .none ?_ rfl
      refine (signature_updateTransition _ transition ?_).trans (net.signature_mapPlaces ?_)
      · exact fun t => rfl
      · exact fun p => rfl

/-- Calls leave the elements that were there, and add those that they say they have added. -/
theorem grows_performAll (net : Net) (calls : List Call) :
    Grows net (net.performAll calls).2 (Call.addedNodes calls (net.performAll calls).1)
      (Call.addedArcs calls (net.performAll calls).1) := by
  induction calls generalizing net with
  | nil => exact .none rfl rfl
  | cons call rest ih => exact (net.grows_perform call).trans (ih (net.perform call).2)

end Net

/-! ## Every index tells the same -/

namespace IndexedNet

/-- No two elements share an identifier, lookups find what is there, orders list it, edges end at the
elements that their arcs name, and each transition has its edges in order. An identifier that is
taken is refused before anything else is asked, and what is refused changes nothing. -/
structure Sound (net : IndexedNet) : Prop where
  nodup : net.toNet.ids.Nodup
  element : ∀ id n, net.element? id = some (some n) ↔ n ∈ net.nodes ∧ n.id = id
  noElement : ∀ id, net.element? id = some none ↔ id ∉ net.nodes.map Node.id
  arc : ∀ id a, net.arc? id = some (some a) ↔ a ∈ net.toNet.arcs ∧ a.id = id
  noArc : ∀ id, net.arc? id = some none ↔ id ∉ net.toNet.arcs.map Arc.id
  places : net.places = some (net.nodes.filterMap Node.place?)
  transitions : net.transitions = some (net.nodes.filterMap Node.transition?)
  inputArcs : net.inputArcs = some (net.toNet.arcs.filterMap Arc.input?)
  outputArcs : net.outputArcs = some (net.toNet.arcs.filterMap Arc.output?)
  ends : ∀ ex (e : Edge), net.edges[ex]? = some e → ∃ p t,
    net.placeAt ex = some (e.place, p) ∧ p.id = e.arc.place ∧
      net.transitionAt e.transition = some t ∧ t.id = e.arc.transition
  wired : ∀ tx t, net.transitionAt tx = some t →
    net.arcsAt (net.wiringOf tx).inputs = some
      ((net.toNet.inputArcs.filter fun a => a.transition == t.id).map .input) ∧
    net.arcsAt (net.wiringOf tx).outputs = some
      ((net.toNet.outputArcs.filter fun a => a.transition == t.id).map .output)
  duplicate : ∀ call id, call.newId? = some id → id ∈ net.toNet.ids →
    net.perform call = some (.added (.error (.duplicateId id)), net)
  unchanged : ∀ call e net', net.perform call = some (.added (.error e), net') → net' = net

theorem Mirrors.unchanged {net net' : IndexedNet}
    {outcome : Option (Except ConstructionError Nat × IndexedNet)}
    {plain : Except ConstructionError (Nat × Net)} (h : net.Mirrors outcome plain)
    {e : ConstructionError} (hFails : answer .added outcome = some (.added (.error e), net')) :
    net' = net := by
  cases plain with
  | error cause =>
    rw [show outcome = some (.error cause, net) from h] at hFails
    cases hFails
    rfl
  | ok pair =>
    obtain ⟨after, hOutcome, _⟩ := h
    rw [hOutcome] at hFails
    cases hFails

theorem Mirrors.refused {net : IndexedNet}
    {outcome : Option (Except ConstructionError Nat × IndexedNet)} {e : ConstructionError}
    (h : net.Mirrors outcome (.error e)) :
    answer .added outcome = some (.added (.error e), net) := by
  rw [show outcome = some (.error e, net) from h]
  rfl

theorem InStep.duplicate {net : IndexedNet} (h : net.InStep) {call : Call} {id : String}
    (hNew : call.newId? = some id) (hTaken : id ∈ net.toNet.ids) :
    net.perform call = some (.added (.error (.duplicateId id)), net) := by
  have hFresh : net.toNet.requireFresh id = .error (.duplicateId id) := by
    rw [Net.requireFresh, if_pos hTaken]
  cases call with
  | addPlace p =>
    cases hNew
    have hMirrors := h.addPlace p
    rw [Net.addPlace, hFresh] at hMirrors
    exact hMirrors.refused
  | addTransition t =>
    cases hNew
    have hMirrors := h.addTransition t
    rw [Net.addTransition, hFresh] at hMirrors
    exact hMirrors.refused
  | addInput a =>
    cases hNew
    have hMirrors := h.addInput a
    rw [Net.addInput, hFresh] at hMirrors
    exact hMirrors.refused
  | addOutput a =>
    cases hNew
    have hMirrors := h.addOutput a
    rw [Net.addOutput, hFresh] at hMirrors
    exact hMirrors.refused
  | _ => cases hNew

theorem InStep.unchanged {net net' : IndexedNet} (h : net.InStep) {call : Call}
    {e : ConstructionError} (hFails : net.perform call = some (.added (.error e), net')) :
    net' = net := by
  cases call with
  | addPlace p => exact (h.addPlace p : Mirrors ..).unchanged hFails
  | addTransition t => exact (h.addTransition t : Mirrors ..).unchanged hFails
  | addInput a => exact (h.addInput a : Mirrors ..).unchanged hFails
  | addOutput a => exact (h.addOutput a : Mirrors ..).unchanged hFails
  | describe | drawId | restartNumbering => cases hFails
  | editPlace | editTransition | editArc | fire | enabled =>
    obtain ⟨_, _, hOther⟩ := Option.map_eq_some_iff.mp hFails
    cases hOther

theorem InStep.sound {net : IndexedNet} (h : net.InStep) : net.Sound where
  nodup := h.wellFormed.nodup
  element id n := by
    rw [h.element?, Option.some_inj]
    exact Net.find?_key_eq_some_iff (List.nodup_append.mp h.wellFormed.nodup).1
  noElement id := by
    rw [h.element?, Option.some_inj, Net.node?, List.find?_eq_none]
    simp
  arc id a := by
    rw [h.arc?, Option.some_inj]
    exact Net.find?_key_eq_some_iff (List.nodup_append.mp h.wellFormed.nodup).2.1
  noArc id := by
    rw [h.arc?, Option.some_inj, Net.arc?, List.find?_eq_none]
    simp
  places := h.places
  transitions := h.transitions
  inputArcs := h.inputArcs
  outputArcs := h.outputArcs
  ends ex e he := by
    obtain ⟨p, hPlaceAt, _, hPlace, _⟩ := h.placeAt he
    obtain ⟨t, ht, hTransition⟩ := h.transitionAt he
    refine ⟨p, t, hPlaceAt, hPlace, ?_, hTransition⟩
    rw [IndexedNet.transitionAt, ht]
    rfl
  wired tx t hAt := by
    have hTx : net.nodeTable[t.id]? = some tx := by
      obtain ⟨n, hn, ht⟩ := Option.bind_eq_some_iff.mp hAt
      cases n with
      | place p => cases ht
      | transition u =>
        cases ht
        rw [h.nodeTable, hn]
        rfl
    rw [← Net.inputsOf_eq_filter, ← Net.outputsOf_eq_filter]
    constructor
    · refine mapM_of_forall₂ (List.forall₂_map_right_iff.mpr ((h.inputsOf hTx).imp ?_))
      rintro ex a ⟨e, he, ha⟩
      rw [he, Option.map_some, ha]
    · refine mapM_of_forall₂ (List.forall₂_map_right_iff.mpr ((h.outputsOf hTx).imp ?_))
      rintro ex a ⟨e, he, ha⟩
      rw [he, Option.map_some, ha]
  duplicate _ _ := h.duplicate
  unchanged _ _ _ := h.unchanged

/-- Calls on a new net never break off, whatever they are and whether they fail or not. They are
answered as the plain net answers them, the elements are those that were added, in order, and every
index is sound. -/
theorem performAll_sound (id : String) (calls : List Call) :
    ∃ answers net, performAll { id := id } calls = some (answers, net) ∧
      Net.performAll { id := id } calls = (answers, net.toNet) ∧
      net.nodes.map Node.signature = (Call.addedNodes calls answers).map Node.signature ∧
      net.toNet.arcs.map Arc.signature = (Call.addedArcs calls answers).map Arc.signature ∧
      net.Sound := by
  obtain ⟨net, hRun, hNet, hPlain⟩ := (inStep_empty id).performAll calls
  obtain ⟨hNodes, hArcs⟩ := Net.grows_performAll { id := id } calls
  have hNew : ({ id := id } : IndexedNet).toNet = { id := id } := rfl
  rw [hNew] at hRun hPlain
  rw [← hPlain] at hNodes hArcs
  exact ⟨_, net, hRun, by rw [hPlain], hNodes, hArcs, hNet.sound⟩

end IndexedNet
end Petri
