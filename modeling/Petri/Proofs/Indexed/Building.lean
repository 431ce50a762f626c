import Petri.Proofs.Indexed.InStep
import Petri.Proofs.Net.Numbering

/-! # Building and editing with indexes

Adding elements, editing them and drawing identifiers keep the indexes in step. Each operation on the
indexed net does what the operation of that name does on the plain one, and never breaks off.
-/
namespace Petri
set_option autoImplicit false

/-- What stays when a node is edited. -/
def Node.signature (n : Node) : String × ElementKind := (n.id, n.kind)

def Arc.signature : Arc → String × ElementKind × String × String
  | .input a => (a.id, .inputArc, a.place, a.transition)
  | .output a => (a.id, .outputArc, a.place, a.transition)

namespace Net

theorem SameArc.signature {a b : Arc} (h : SameArc a b) : b.signature = a.signature := by
  cases a with
  | input a =>
    cases b with
    | input b => exact Prod.ext h.id (Prod.ext rfl (Prod.ext h.place h.transition))
    | output b => cases h.kind
  | output a =>
    cases b with
    | input b => cases h.kind
    | output b => exact Prod.ext h.id (Prod.ext rfl (Prod.ext h.place h.transition))

theorem SameArc.isSome_output? {a b : Arc} (h : SameArc a b) :
    b.output?.isSome = a.output?.isSome := by
  have hKind := h.kind
  cases a <;> cases b <;> first | rfl | cases hKind

theorem SameArc.refl (a : Arc) : SameArc a a := ⟨rfl, rfl, rfl, rfl⟩

variable {net : Net} {id : String}

/-- Editing one place, by what becomes of each node. -/
theorem updatePlace_eq {f : Place → Place} {g : Node → Node}
    (hPlace : ∀ p, g (.place p) = .place (if p.id = id then f p else p))
    (hTransition : ∀ t, g (.transition t) = .transition t) :
    net.updatePlace id f = { net with nodes := net.nodes.map g } := by
  have hNodes : (net.updatePlace id f).nodes = net.nodes.map g := by
    refine List.map_congr_left fun n _ => ?_
    cases n with
    | place p => exact (hPlace p).symm
    | transition t => exact (hTransition t).symm
  exact congrArg (fun nodes => ({ net with nodes := nodes } : Net)) hNodes

theorem updateTransition_eq {f : Transition → Transition} {g : Node → Node}
    (hPlace : ∀ p, g (.place p) = .place p)
    (hTransition : ∀ t, g (.transition t) = .transition (if t.id = id then f t else t)) :
    net.updateTransition id f = { net with nodes := net.nodes.map g } := by
  have hNodes : (net.updateTransition id f).nodes = net.nodes.map g := by
    refine List.map_congr_left fun n _ => ?_
    cases n with
    | place p => exact (hPlace p).symm
    | transition t => exact (hTransition t).symm
  exact congrArg (fun nodes => ({ net with nodes := nodes } : Net)) hNodes

end Net

/-- An edge whose arc is edited leads where it led. -/
structure SameEdge (e e' : Edge) : Prop where
  arc : Net.SameArc e.arc e'.arc
  place : e'.place = e.place
  transition : e'.transition = e.transition

theorem sameEdge_edit (e : Edge) {a : Arc} (h : Net.SameArc e.arc a) :
    SameEdge e { e with arc := a } := by
  obtain ⟨source, target, arc⟩ := e
  have hKind := h.kind
  refine ⟨h, ?_, ?_⟩ <;> cases arc <;> cases a <;> first | rfl | cases hKind

namespace IndexedNet
open Operation

/-- An operation on a net with indexes comes out as one on the plain net does, with an error and the
net as it was, or with a result and the indexes in step. -/
def Mirrors {ε α : Type} (net : IndexedNet) (outcome : Option (Except ε α × IndexedNet))
    (plain : Except ε (α × Net)) : Prop :=
  match plain with
  | .error e => outcome = some (.error e, net)
  | .ok (a, after) => ∃ net', outcome = some (.ok a, net') ∧ net'.InStep ∧ net'.toNet = after

/-- A look at the net comes out as a check of the plain net does. -/
def Checks {ε α : Type} (found : Option (Except ε α)) (plain : Except ε Unit) (Found : α → Prop) :
    Prop :=
  match plain with
  | .error e => found = some (.error e)
  | .ok () => ∃ a, found = some (.ok a) ∧ Found a

theorem Checks.mirrors {ε α β γ : Type} {net : IndexedNet} {f : IndexedNet → ExceptT ε Option α}
    {plain : Except ε Unit} {Found : α → Prop} (h : Checks (f net).run plain Found)
    {rest : α → Operation ε β} {plainRest : Except ε γ} {result : γ → β × Net}
    (hRest : plain = .ok () → ∀ a, Found a →
      net.Mirrors ((rest a).on net) (plainRest.map result)) :
    net.Mirrors ((look f >>= rest).on net) ((plain >>= fun _ => plainRest).map result) := by
  cases plain with
  | error e => exact look_bind_error h
  | ok u =>
    obtain ⟨a, hFound, ha⟩ := h
    rw [look_bind_ok hFound]
    exact hRest rfl a ha

theorem wiringOf_wire (net : IndexedNet) (transition : Nat) (f : Wiring → Wiring) (tx : Nat) :
    (net.wire transition f).wiringOf tx =
      if transition = tx then f (net.wiringOf transition) else net.wiringOf tx := by
  rw [wiringOf, wire, Std.HashMap.getElem?_insert]
  by_cases h : transition = tx <;> simp [h, wiringOf]

namespace InStep
variable {net : IndexedNet} (h : net.InStep)
include h

/-! ## Adding -/

theorem requireFresh_checks (id : String) :
    Checks (net.requireFresh id).run (net.toNet.requireFresh id) fun _ => id ∉ net.toNet.ids := by
  have hKnown := h.known_iff id
  rw [requireFresh, Net.requireFresh]
  simp only [hKnown]
  split
  · rfl
  · exact ⟨_, rfl, ‹_›⟩

theorem requireNode_checks (id : String) (kind : ElementKind) :
    Checks (net.requireNode id kind).run (net.toNet.requireNode id kind)
      fun ix => net.nodes[ix]?.map Node.id = some id := by
  rw [requireNode, Net.requireNode]
  cases hIx : net.nodeTable[id]? with
  | none =>
    rw [h.node?_of_no_table hIx]
    rfl
  | some ix =>
    obtain ⟨n, hn, hId, hNode⟩ := h.node?_of_table hIx
    rw [hNode]
    dsimp only
    by_cases hKind : n.kind = kind
    · simp only [hKind, if_true]
      refine ⟨ix, ?_, (h.nodeTable id ix).mp hIx⟩
      simp [hn, hKind]
    · simp [hn, hKind, Checks]

theorem wiringOf_length : net.wiringOf net.nodes.length = {} := by
  have hNowhere : ∀ e ∈ net.edges, e.transition ≠ net.nodes.length := by
    intro e he hEnd
    have hThere := h.transition e he
    rw [hEnd, List.getElem?_eq_none le_rfl] at hThere
    cases hThere
  have hInputs := h.inputs net.nodes.length
  have hOutputs := h.outputs net.nodes.length
  rw [List.findIdxs_eq_nil_iff.mpr fun e he => by simp [hNowhere e he]] at hInputs hOutputs
  exact congrArg₂ Wiring.mk hInputs hOutputs

theorem withNode {n : Node} {wiring : Std.HashMap Nat Wiring} {placeOrder transitionOrder : List Nat}
    (hFresh : n.id ∉ net.toNet.ids)
    (hPlaces : placeOrder =
      net.placeOrder ++ if n.place?.isSome then [net.nodes.length] else [])
    (hTransitions : transitionOrder =
      net.transitionOrder ++ if n.transition?.isSome then [net.nodes.length] else [])
    (hWiring : ∀ tx, wiring[tx]?.getD {} = net.wiringOf tx) :
    InStep { net with
      nodes := net.nodes ++ [n], placeOrder := placeOrder, transitionOrder := transitionOrder
      wiring := wiring, nodeTable := net.nodeTable.insert n.id net.nodes.length } where
  wellFormed := h.wellFormed.addNode hFresh
  nodeTable := table_insert Node.id h.nodeTable fun hn => hFresh (List.mem_append_left _ hn)
  edgeTable := h.edgeTable
  placeOrder := by rw [hPlaces, findIdxs_concat, ← h.placeOrder]
  transitionOrder := by rw [hTransitions, findIdxs_concat, ← h.transitionOrder]
  inputOrder := h.inputOrder
  outputOrder := h.outputOrder
  place e he := getElem?_concat_map_eq_some_iff.mpr (.inl (h.place e he))
  transition e he := getElem?_concat_map_eq_some_iff.mpr (.inl (h.transition e he))
  inputs tx := by rw [wiringOf, hWiring, h.inputs]
  outputs tx := by rw [wiringOf, hWiring, h.outputs]

theorem withEdge {e : Edge} {g : Wiring → Wiring} {inputOrder outputOrder : List Nat}
    (hFresh : e.arc.id ∉ net.toNet.ids)
    (hPlace : ∃ p, net.toNet.place? e.arc.place = some p)
    (hTransition : ∃ t, net.toNet.transition? e.arc.transition = some t)
    (hPlaceAt : net.nodes[e.place]?.map Node.id = some e.arc.place)
    (hTransitionAt : net.nodes[e.transition]?.map Node.id = some e.arc.transition)
    (hInputs : inputOrder =
      net.inputOrder ++ if e.arc.input?.isSome then [net.edges.length] else [])
    (hOutputs : outputOrder =
      net.outputOrder ++ if e.arc.output?.isSome then [net.edges.length] else [])
    (hGrow : ∀ w, g w = ⟨w.inputs ++ if e.arc.input?.isSome then [net.edges.length] else [],
      w.outputs ++ if e.arc.output?.isSome then [net.edges.length] else []⟩) :
    InStep { net with
      edges := net.edges ++ [e], inputOrder := inputOrder, outputOrder := outputOrder
      wiring := (net.wire e.transition g).wiring
      edgeTable := net.edgeTable.insert e.arc.id net.edges.length } where
  wellFormed := by
    have hNet := h.wellFormed.addArc hFresh hPlace hTransition
    simpa [toNet] using hNet
  nodeTable := h.nodeTable
  edgeTable := table_insert (fun e : Edge => e.arc.id) h.edgeTable fun he => by
    refine hFresh (List.mem_append_right _ ?_)
    simpa using he
  placeOrder := h.placeOrder
  transitionOrder := h.transitionOrder
  inputOrder := by rw [hInputs, findIdxs_concat, ← h.inputOrder]
  outputOrder := by rw [hOutputs, findIdxs_concat, ← h.outputOrder]
  place f hf := by
    rcases List.mem_append.mp hf with hf | hf
    · exact h.place f hf
    · exact List.mem_singleton.mp hf ▸ hPlaceAt
  transition f hf := by
    rcases List.mem_append.mp hf with hf | hf
    · exact h.transition f hf
    · exact List.mem_singleton.mp hf ▸ hTransitionAt
  inputs tx := by
    have hWiring := net.wiringOf_wire e.transition g tx
    rw [wiringOf] at hWiring
    rw [wiringOf, hWiring, findIdxs_concat, ← h.inputs]
    by_cases hTx : e.transition = tx <;> simp [hTx, hGrow]
  outputs tx := by
    have hWiring := net.wiringOf_wire e.transition g tx
    rw [wiringOf] at hWiring
    rw [wiringOf, hWiring, findIdxs_concat, ← h.outputs]
    by_cases hTx : e.transition = tx <;> simp [hTx, hGrow]

theorem addPlace (p : Place) : net.Mirrors ((IndexedNet.addPlace p).on net)
    ((net.toNet.addPlace p).map fun after => (net.nodes.length, after)) := by
  refine (h.requireFresh_checks p.id).mirrors fun _ _ hFresh => ?_
  exact ⟨_, rfl, h.withNode (n := .place p) hFresh rfl (List.append_nil _).symm fun _ => rfl, rfl⟩

theorem addTransition (t : Transition) : net.Mirrors ((IndexedNet.addTransition t).on net)
    ((net.toNet.addTransition t).map fun after => (net.nodes.length, after)) := by
  refine (h.requireFresh_checks t.id).mirrors fun _ _ hFresh => ?_
  refine ⟨_, rfl, h.withNode (n := .transition t) hFresh (List.append_nil _).symm rfl ?_, rfl⟩
  intro tx
  rw [Std.HashMap.getElem?_insert]
  by_cases hTx : net.nodes.length = tx
  · subst hTx
    simp [h.wiringOf_length]
  · simp [hTx, wiringOf]

theorem addInput (a : InputArc) : net.Mirrors ((IndexedNet.addInput a).on net)
    ((net.toNet.addInput a).map fun after => (net.edges.length, after)) := by
  refine (h.requireFresh_checks a.id).mirrors fun _ _ hFresh => ?_
  refine (h.requireNode_checks a.place .place).mirrors fun hPlace px hPlaceAt => ?_
  refine (h.requireNode_checks a.transition .transition).mirrors fun hTransition tx hTransitionAt => ?_
  refine ⟨_, rfl, h.withEdge (e := ⟨px, tx, .input a⟩)
    (g := fun w => { w with inputs := w.inputs ++ [net.edges.length] }) hFresh
    (Net.requireNode_place_eq_ok_iff.mp hPlace)
    (Net.requireNode_transition_eq_ok_iff.mp hTransition) hPlaceAt hTransitionAt rfl
    (List.append_nil _).symm fun w => congrArg (Wiring.mk _) (List.append_nil _).symm, ?_⟩
  simp [toNet, wire]

theorem addOutput (a : OutputArc) : net.Mirrors ((IndexedNet.addOutput a).on net)
    ((net.toNet.addOutput a).map fun after => (net.edges.length, after)) := by
  refine (h.requireFresh_checks a.id).mirrors fun _ _ hFresh => ?_
  refine (h.requireNode_checks a.transition .transition).mirrors fun hTransition tx hTransitionAt => ?_
  refine (h.requireNode_checks a.place .place).mirrors fun hPlace px hPlaceAt => ?_
  refine ⟨_, rfl, h.withEdge (e := ⟨tx, px, .output a⟩)
    (g := fun w => { w with outputs := w.outputs ++ [net.edges.length] }) hFresh
    (Net.requireNode_place_eq_ok_iff.mp hPlace)
    (Net.requireNode_transition_eq_ok_iff.mp hTransition) hPlaceAt hTransitionAt
    (List.append_nil _).symm rfl
    fun w => congrArg (Wiring.mk · _) (List.append_nil _).symm, ?_⟩
  simp [toNet, wire]

/-! ## Editing -/

theorem withNodes {nodes : List Node}
    (hSame : nodes.map Node.signature = net.nodes.map Node.signature)
    (hWell : Net.WellFormed { net.toNet with nodes := nodes }) :
    InStep { net with nodes := nodes } := by
  have hId (ix : Nat) : nodes[ix]?.map Node.id = net.nodes[ix]?.map Node.id := by
    have hHere := congrArg (·[ix]?.map Prod.fst) hSame
    simpa [Function.comp_def, Node.signature] using hHere
  have hKind (kind : ElementKind) : nodes.findIdxs (fun n => n.kind == kind) =
      net.nodes.findIdxs fun n => n.kind == kind := by
    have hAll := congrArg (List.findIdxs fun s : String × ElementKind => s.2 == kind) hSame
    simpa [List.findIdxs_map, Function.comp_def, Node.signature] using hAll
  have hPlaces : (fun n : Node => n.place?.isSome) = fun n => n.kind == .place := by
    funext n
    cases n <;> rfl
  have hTransitions : (fun n : Node => n.transition?.isSome) = fun n => n.kind == .transition := by
    funext n
    cases n <;> rfl
  exact {
    wellFormed := hWell
    nodeTable := fun id ix => (h.nodeTable id ix).trans (by rw [hId])
    edgeTable := h.edgeTable
    placeOrder := by rw [h.placeOrder, hPlaces, hKind]
    transitionOrder := by rw [h.transitionOrder, hTransitions, hKind]
    inputOrder := h.inputOrder
    outputOrder := h.outputOrder
    place := fun e he => (hId _).trans (h.place e he)
    transition := fun e he => (hId _).trans (h.transition e he)
    inputs := h.inputs
    outputs := h.outputs }

theorem withEdges {g : Edge → Edge} (hSame : ∀ e, SameEdge e (g e))
    (hWell : ({ net with edges := net.edges.map g } : IndexedNet).toNet.WellFormed) :
    InStep { net with edges := net.edges.map g } where
  wellFormed := hWell
  nodeTable := h.nodeTable
  edgeTable id ex := by
    rw [h.edgeTable, List.getElem?_map, Option.map_map]
    have hId : (fun e : Edge => e.arc.id) ∘ g = fun e => e.arc.id := funext fun e => (hSame e).arc.id
    rw [hId]
  placeOrder := h.placeOrder
  transitionOrder := h.transitionOrder
  inputOrder := by
    rw [h.inputOrder, List.findIdxs_map]
    exact congrArg (List.findIdxs · _) (funext fun e => (hSame e).arc.kind.symm)
  outputOrder := by
    rw [h.outputOrder, List.findIdxs_map]
    exact congrArg (List.findIdxs · _) (funext fun e => (hSame e).arc.isSome_output?.symm)
  place e' he' := by
    obtain ⟨e, he, rfl⟩ := List.mem_map.mp he'
    rw [(hSame e).place, (hSame e).arc.place]
    exact h.place e he
  transition e' he' := by
    obtain ⟨e, he, rfl⟩ := List.mem_map.mp he'
    rw [(hSame e).transition, (hSame e).arc.transition]
    exact h.transition e he
  inputs tx := by
    rw [List.findIdxs_map]
    refine (h.inputs tx).trans (congrArg (List.findIdxs · _) (funext fun e => ?_))
    rw [Function.comp_apply, (hSame e).arc.kind, (hSame e).transition]
  outputs tx := by
    rw [List.findIdxs_map]
    refine (h.outputs tx).trans (congrArg (List.findIdxs · _) (funext fun e => ?_))
    rw [Function.comp_apply, (hSame e).arc.isSome_output?, (hSame e).transition]

theorem once {id : String} {ix : Nat} (hIx : net.nodeTable[id]? = some ix) (j : Nat) :
    net.nodes[j]?.map Node.id = some id ↔ j = ix := by
  rw [← h.nodeTable, hIx, Option.some_inj, eq_comm]

theorem editNode_eq (id : String) (f : Node → Option Node) :
    net.editNode id f = some (((net.toNet.node? id).bind f).isSome,
      { net with nodes := net.nodes.map fun n => if n.id = id then (f n).getD n else n }) := by
  rw [IndexedNet.editNode]
  cases hIx : net.nodeTable[id]? with
  | none =>
    have hOther : ∀ n ∈ net.nodes, n.id ≠ id := fun n hn => by
      simpa using List.find?_eq_none.mp (h.node?_of_no_table hIx) n hn
    rw [h.node?_of_no_table hIx, map_edit_of_absent Node.id _ hOther]
    rfl
  | some ix =>
    obtain ⟨n, hn, _, hNode⟩ := h.node?_of_table hIx
    have hSet := set_eq_map Node.id (fun n => (f n).getD n) hn (h.once hIx)
    dsimp only
    rw [hNode, ← hSet, hn]
    simp only [Option.map_some, Option.bind_some]
    cases hf : f n with
    | some m => rfl
    | none =>
      -- a node of the wrong kind is written back as it is
      obtain ⟨hWithin, rfl⟩ := List.getElem?_eq_some_iff.mp hn
      rw [Option.getD_none, List.set_getElem_self]
      rfl

/-- Where a node keeps its identifier and its kind, the indexes need not be written. -/
theorem editNode (id : String) {f : Node → Option Node} {plain : Net}
    (hSame : ∀ n m, f n = some m → m.signature = n.signature)
    (hPlain : plain = { net.toNet with
      nodes := net.nodes.map fun n => if n.id = id then (f n).getD n else n })
    (hWell : plain.WellFormed) :
    ∃ net', net.editNode id f = some (((net.toNet.node? id).bind f).isSome, net') ∧
      net'.InStep ∧ net'.toNet = plain := by
  subst hPlain
  refine ⟨_, h.editNode_eq id f, h.withNodes ?_ hWell, rfl⟩
  rw [List.map_map]
  refine List.map_congr_left fun n _ => ?_
  rw [Function.comp_apply]
  split
  · cases hf : f n with
    | none => rfl
    | some m => exact hSame n m hf
  · rfl

theorem editPlace (id : String) {f : Place → Place} (hId : ∀ p, (f p).id = p.id) :
    ∃ net', net.editPlace id f = some ((net.toNet.place? id).isSome, net') ∧ net'.InStep ∧
      net'.toNet = net.toNet.updatePlace id f := by
  have hSame : ∀ n m : Node, n.place?.map (fun p => Node.place (f p)) = some m →
      m.signature = n.signature := by
    intro n m hm
    cases n with
    | place p =>
      cases hm
      exact Prod.ext (hId p) rfl
    | transition t => cases hm
  have hAnswer : (net.toNet.place? id).isSome =
      ((net.toNet.node? id).bind fun n => n.place?.map fun p => Node.place (f p)).isSome := by
    rw [Net.place?]
    cases net.toNet.node? id <;> simp
  rw [hAnswer]
  refine h.editNode id hSame (Net.updatePlace_eq (fun p => ?_) fun t => ?_)
    (h.wellFormed.updatePlace id hId)
  · by_cases hp : p.id = id <;> simp [Node.id, Node.place?, hp]
  · simp [Node.place?]

theorem editTransition (id : String) {f : Transition → Transition} (hId : ∀ t, (f t).id = t.id) :
    ∃ net', net.editTransition id f = some ((net.toNet.transition? id).isSome, net') ∧
      net'.InStep ∧ net'.toNet = net.toNet.updateTransition id f := by
  have hSame : ∀ n m : Node, n.transition?.map (fun t => Node.transition (f t)) = some m →
      m.signature = n.signature := by
    intro n m hm
    cases n with
    | place p => cases hm
    | transition t =>
      cases hm
      exact Prod.ext (hId t) rfl
  have hAnswer : (net.toNet.transition? id).isSome =
      ((net.toNet.node? id).bind fun n =>
        n.transition?.map fun t => Node.transition (f t)).isSome := by
    rw [Net.transition?]
    cases net.toNet.node? id <;> simp
  rw [hAnswer]
  refine h.editNode id hSame (Net.updateTransition_eq (fun p => ?_) fun t => ?_)
    (h.wellFormed.updateTransition id hId)
  · simp [Node.transition?]
  · by_cases ht : t.id = id <;> simp [Node.id, Node.transition?, ht]

theorem editArc (id : String) {f : Arc → Arc} (hSame : ∀ a, Net.SameArc a (f a)) :
    ∃ net', net.editArc id f = some ((net.toNet.arc? id).isSome, net') ∧ net'.InStep ∧
      net'.toNet = net.toNet.updateArc id f := by
  have hEdges : ∀ e, SameEdge e (if e.arc.id = id then { e with arc := f e.arc } else e) := by
    intro e
    split
    · exact sameEdge_edit e (hSame e.arc)
    · exact ⟨.refl _, rfl, rfl⟩
  have hPlain : ({ net with edges := net.edges.map fun e =>
      if e.arc.id = id then { e with arc := f e.arc } else e } : IndexedNet).toNet =
      net.toNet.updateArc id f := by
    simp only [toNet, Net.updateArc, List.map_map]
    refine congrArg (fun arcs => ({ net.toNet with arcs := arcs } : Net))
      (List.map_congr_left fun e _ => ?_)
    by_cases he : e.arc.id = id <;> simp [he]
  have hWell := h.wellFormed.change (.editArc net.toNet id f hSame)
  refine ⟨_, ?_, h.withEdges hEdges (hPlain ▸ hWell), hPlain⟩
  rw [IndexedNet.editArc]
  cases hEx : net.edgeTable[id]? with
  | none =>
    have hArcs := List.find?_eq_none.mp (h.arc?_of_no_table hEx)
    have hOther : ∀ e ∈ net.edges, e.arc.id ≠ id := fun e he => by
      simpa using hArcs e.arc (List.mem_map_of_mem he)
    rw [h.arc?_of_no_table hEx, map_edit_of_absent (fun e : Edge => e.arc.id) _ hOther]
    rfl
  | some ex =>
    obtain ⟨e, he, _, hArc⟩ := h.arc?_of_table hEx
    have hOnce (j : Nat) : net.edges[j]?.map (fun e : Edge => e.arc.id) = some id ↔ j = ex := by
      rw [← h.edgeTable, hEx, Option.some_inj, eq_comm]
    have hSet := set_eq_map (fun e : Edge => e.arc.id) (fun e => { e with arc := f e.arc }) he hOnce
    dsimp only
    rw [hArc, ← hSet, he]
    rfl

/-! ## Numbering -/

theorem keys_perm : (net.nodeTable.keys ++ net.edgeTable.keys).Perm net.toNet.ids := by
  -- the keys of a table come in any order, each of them once
  obtain ⟨hNodes, hArcs, _⟩ := List.nodup_append.mp h.wellFormed.nodup
  refine List.Perm.append ?_ ?_
  · refine (List.perm_ext_iff_of_nodup Std.HashMap.nodup_keys hNodes).mpr fun id => ?_
    rw [Std.HashMap.mem_keys, ← Std.HashMap.contains_iff_mem, h.contains_nodeTable]
    rfl
  · refine (List.perm_ext_iff_of_nodup Std.HashMap.nodup_keys hArcs).mpr fun id => ?_
    rw [Std.HashMap.mem_keys, ← Std.HashMap.contains_iff_mem, h.contains_edgeTable]

theorem drawId (kind : ElementKind) :
    (net.drawId kind).1 = (net.toNet.freshId kind).1 ∧ (net.drawId kind).2.InStep ∧
      (net.drawId kind).2.toNet = (net.toNet.freshId kind).2 := by
  have hNext : net.numbering.next kind (net.nodeTable.keys ++ net.edgeTable.keys) =
      net.toNet.numbering.next kind (net.toNet.ids ++ []) := by
    rw [List.append_nil]
    exact Numbering.next_congr _ _ fun _ => h.keys_perm.mem_iff
  rw [IndexedNet.drawId, Net.freshId, hNext]
  exact ⟨rfl, { h with wellFormed := h.wellFormed.change (.drawId net.toNet kind []) }, rfl⟩

theorem restartNumbering : net.restartNumbering.InStep :=
  { h with wellFormed := h.wellFormed.change (.restartNumbering net.toNet) }

end InStep
end IndexedNet
end Petri
