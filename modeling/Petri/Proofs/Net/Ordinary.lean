import Petri.Interpreter
import Petri.Proofs.Net.Conservation
import Petri.Proofs.Net.Enabling
import Petri.Proofs.Net.Queries

/-! # Ordinary nets

Nets without texts of their own: a transition is enabled when each of its input places has an
available token and none of its output places is full, and it then takes one token for each input arc
and makes an untimed one for each output arc. Where no two of its arcs of one kind share a place, that
is all it needs: what is enabled fires.
-/
namespace Petri
set_option autoImplicit false

/-! ## The default texts -/

namespace Interpreter

theorem readText_defaultGuard : Expr.readText defaultGuard = .ok (.literal (.bool true)) := by cbv

theorem readText_defaultEvaluate : Expr.readText defaultEvaluate =
    .ok (.binary (.strict .gt) (.call "size" []) (.literal (.int 0))) := by cbv

theorem readText_defaultExecute :
    Inscription.readText defaultExecute = .ok ⟨.literal (.int 1), none⟩ := by cbv

theorem evaluate_defaultGuard (context : Context) : evaluate defaultGuard context = .ok true := by
  rw [evaluate, readText_defaultGuard]
  rfl

theorem evaluate_defaultEvaluate (clock : Time) (transition : String) (bag : TokenBag) :
    evaluate defaultEvaluate ⟨clock, transition, some bag⟩ = .ok (!bag.isEmpty) := by
  have hSize : Builtin.ofName "size" = some .size := by decide
  calc evaluate defaultEvaluate ⟨clock, transition, some bag⟩
    _ = Expr.holds ⟨clock, transition, some bag⟩
        (.binary (.strict .gt) (.call "size" []) (.literal (.int 0))) := by
      rw [evaluate, readText_defaultEvaluate]
      rfl
    _ = .ok (compare (bag.length : Int) 0).isGT := by
      simp only [Expr.holds, Expr.eval, Expr.evalItems, hSize]
      rfl
    _ = .ok (!bag.isEmpty) := by
      cases bag with
      | nil => rfl
      | cons t rest =>
        have hMore : compare ((t :: rest).length : Int) 0 = .gt :=
          Int.compare_eq_gt.mpr (by simp)
        rw [hMore]
        rfl

theorem execute_defaultExecute (context : Context) :
    execute defaultExecute context = .ok [{ value := .int 1 }] := by
  rw [execute, readText_defaultExecute]
  rfl

end Interpreter

/-! ## Bags -/

namespace TokenBag

theorem available_of_untimed {t : Token} (clock : Time) (h : t.timed = false) :
    t.available clock = true := by
  have hTime : t.time = 0 := Token.timed_eq_false_iff.mp h
  simp [Token.available, hTime]

/-- The predicate and the time gate of an ordinary arc hold together when a token is available. -/
theorem holds_and_ready (clock : Time) (bag : TokenBag) :
    (!bag.isEmpty && ready clock bag) = bag.any (Token.available clock) := by
  cases bag with
  | nil => rfl
  | cons t rest =>
    rw [ready, List.isEmpty_cons, Bool.not_false, Bool.true_and, Bool.or_eq_right_iff_imp]
    intro hUntimed
    rw [List.all_cons, Bool.and_eq_true, Bool.not_eq_true'] at hUntimed
    rw [List.any_cons, available_of_untimed clock hUntimed.1, Bool.true_or]

theorem exists_withdraw {clock : Time} {bag : TokenBag} (wanted : Token)
    (h : bag.any (Token.available clock) = true) :
    ∃ taken left, withdraw [wanted] clock bag = some (taken, left) := by
  have hEnough : [wanted].length ≤ available clock bag :=
    List.countP_pos_iff.mpr (List.any_eq_true.mp h)
  obtain ⟨⟨taken, left⟩, hTaken⟩ := Option.isSome_iff_exists.mp (isSome_withdraw_iff.mpr hEnough)
  exact ⟨taken, left, hTaken⟩

end TokenBag

theorem Place.fits_of_le {p : Place} {m n : Nat} (h : p.fits n = true) (hLe : m ≤ n) :
    p.fits m = true := by
  rw [fits, Bool.or_eq_true, decide_eq_true_eq] at h ⊢
  exact h.imp_right hLe.trans

/-! ## Moving along ordinary arcs -/

namespace InPlace
variable {net : Net} {transition : String} {clock : Time}

theorem exists_movesAll_inputs {arcs : List InputArc} {μ : Marking}
    (hTexts : ∀ a ∈ arcs, a.execute = defaultExecute)
    (hDistinct : (arcs.map InputArc.place).Nodup)
    (hSupply : ∀ a ∈ arcs, (μ a.place).any (Token.available clock) = true) :
    ∃ taken μ', MovesAll Petri.interpreter net transition clock (arcs.map .input) μ
      (.ok (taken, μ')) := by
  induction arcs generalizing μ with
  | nil => exact ⟨[], μ, .done μ⟩
  | cons a rest ih =>
    rw [List.forall_mem_cons] at hTexts hSupply
    rw [List.map_cons, List.nodup_cons] at hDistinct
    obtain ⟨hText, hTexts⟩ := hTexts
    obtain ⟨hElsewhere, hDistinct⟩ := hDistinct
    have hRequest : Petri.interpreter.execute a.execute ⟨clock, transition, some (μ a.place)⟩ =
        .ok [{ value := .int 1 }] := hText ▸ Interpreter.execute_defaultExecute _
    obtain ⟨taken, left, hTaken⟩ := TokenBag.exists_withdraw { value := .int 1 } hSupply.1
    -- the other arcs find their places as they were
    have hOthers : ∀ b ∈ rest, ((Function.update μ a.place left) b.place).any
        (Token.available clock) = true := by
      intro b hb
      have hne : b.place ≠ a.place := fun hSame => hElsewhere (hSame ▸ List.mem_map_of_mem hb)
      rw [Function.update_of_ne hne]
      exact hSupply.2 b hb
    obtain ⟨others, μ', hMoves⟩ := ih hTexts hDistinct hOthers
    exact ⟨_, μ', .move (.take hRequest hTaken) hMoves⟩

theorem exists_movesAll_outputs {arcs : List OutputArc} {μ : Marking}
    (hTexts : ∀ a ∈ arcs, a.execute = defaultExecute)
    (hDistinct : (arcs.map OutputArc.place).Nodup)
    (hRoom : ∀ a ∈ arcs, ∃ p, net.place? a.place = some p ∧
      p.fits ((μ a.place).length + 1) = true) :
    ∃ made μ', MovesAll Petri.interpreter net transition clock (arcs.map .output) μ
      (.ok (made, μ')) := by
  induction arcs generalizing μ with
  | nil => exact ⟨[], μ, .done μ⟩
  | cons a rest ih =>
    rw [List.forall_mem_cons] at hTexts hRoom
    rw [List.map_cons, List.nodup_cons] at hDistinct
    obtain ⟨hText, hTexts⟩ := hTexts
    obtain ⟨hElsewhere, hDistinct⟩ := hDistinct
    obtain ⟨⟨p, hPlace, hFits⟩, hRoom⟩ := hRoom
    have hMade : Petri.interpreter.execute a.execute ⟨clock, transition, some (μ a.place)⟩ =
        .ok [{ value := .int 1 }] := hText ▸ Interpreter.execute_defaultExecute _
    -- an untimed token is not shifted, so it never comes too late
    have hFresh : TokenBag.shift clock [{ value := .int 1 }] = some [{ value := .int 1 }] := rfl
    have hOthers : ∀ b ∈ rest, ∃ p, net.place? b.place = some p ∧
        p.fits ((Function.update μ a.place (μ a.place ++ [{ value := .int 1 }])
          b.place).length + 1) = true := by
      intro b hb
      have hne : b.place ≠ a.place := fun hSame => hElsewhere (hSame ▸ List.mem_map_of_mem hb)
      rw [Function.update_of_ne hne]
      exact hRoom b hb
    obtain ⟨others, μ', hMoves⟩ := ih hTexts hDistinct hOthers
    exact ⟨_, μ', .move (.make hMade hFresh hPlace hFits) hMoves⟩

end InPlace

/-! ## Enabled and fired -/

namespace Net
open InPlace

/-- Every guard and every text of an arc is the default one, and no two arcs of one kind lead between
a transition and the same place. -/
structure Ordinary (net : Net) : Prop where
  guards : ∀ t ∈ net.transitions, t.guard = defaultGuard
  evaluates : ∀ a ∈ net.inputArcs, a.evaluate = defaultEvaluate
  requests : ∀ a ∈ net.inputArcs, a.execute = defaultExecute
  products : ∀ a ∈ net.outputArcs, a.execute = defaultExecute
  sources : ∀ t ∈ net.transitions, ((net.inputsOf t.id).map InputArc.place).Nodup
  targets : ∀ t ∈ net.transitions, ((net.outputsOf t.id).map OutputArc.place).Nodup

/-- Whether every input place of a transition has an available token. -/
def supplied (net : Net) (transition : String) (clock : Time) : Bool :=
  (net.inputsOf transition).all fun a => (net.tokensAt a.place).any (Token.available clock)

theorem run_accepts_default {net : Net} {transition : String} {clock : Time} {arcs : List InputArc}
    (h : ∀ a ∈ arcs, a.evaluate = defaultEvaluate) :
    (net.accepts Petri.interpreter transition clock arcs).run =
      .ok (arcs.all fun a => (net.tokensAt a.place).any (Token.available clock)) := by
  induction arcs with
  | nil => rfl
  | cons a rest ih =>
    rw [List.forall_mem_cons] at h
    have hAnswer : Petri.interpreter.evaluate a.evaluate
        ⟨clock, transition, some (net.tokensAt a.place)⟩ = .ok (!(net.tokensAt a.place).isEmpty) :=
      h.1 ▸ Interpreter.evaluate_defaultEvaluate _ _ _
    rw [run_accepts_cons, Inquiry.answer_ofArc, hAnswer, List.all_cons, ← TokenBag.holds_and_ready]
    dsimp only
    split
    · rename_i hHere
      rw [ih h.2, hHere, Bool.true_and]
    · rename_i hHere
      rw [Bool.not_eq_true] at hHere
      rw [hHere, Bool.false_and]

namespace Ordinary
variable {net : Net}

theorem run_enabled (h : net.Ordinary) {transition : String} {t : Transition}
    (ht : net.transition? transition = some t) (clock : Time) :
    (net.enabled Petri.interpreter transition clock).run =
      .ok (net.supplied transition clock && net.headroom transition) := by
  obtain ⟨hMem, rfl⟩ := mem_of_transition? ht
  have hGuard : Petri.interpreter.evaluate t.guard ⟨clock, t.id, none⟩ = .ok true :=
    h.guards t hMem ▸ Interpreter.evaluate_defaultGuard _
  have hAccepts : (net.accepts Petri.interpreter t.id clock (net.inputsOf t.id)).run =
      .ok (net.supplied t.id clock) :=
    run_accepts_default fun a ha => h.evaluates a (mem_inputArcs_of_inputsOf ha)
  rw [Net.run_enabled ht, Inquiry.answer_ofGuard, hGuard]
  dsimp only
  rw [hAccepts]

theorem run_selectEnabled (h : net.Ordinary) (hNet : net.WellFormed) (clock : Time)
    {ts : List Transition} (hts : ∀ t ∈ ts, t ∈ net.transitions) :
    (net.selectEnabled Petri.interpreter clock ts).run =
      .ok ((ts.filter fun t => net.supplied t.id clock && net.headroom t.id).map
        Transition.id) := by
  induction ts with
  | nil => rfl
  | cons t rest ih =>
    rw [List.forall_mem_cons] at hts
    rw [run_selectEnabled_cons, h.run_enabled (transition?_of_mem hNet.nodup hts.1), ih hts.2,
      List.filter_cons]
    dsimp only
    split <;> rfl

theorem run_enabledTransitions (h : net.Ordinary) (hNet : net.WellFormed) (clock : Time) :
    (net.enabledTransitions Petri.interpreter clock).run =
      .ok ((net.transitions.filter fun t => net.supplied t.id clock && net.headroom t.id).map
        Transition.id) :=
  h.run_selectEnabled hNet clock fun _ ht => ht

theorem exists_fire (h : net.Ordinary) (hNet : net.WellFormed) {transition : String} {clock : Time}
    (hEnabled : (net.enabled Petri.interpreter transition clock).run = .ok true) :
    ∃ firing after, (net.fire Petri.interpreter transition clock).run = .ok (firing, after) := by
  obtain ⟨t, hTransition⟩ := exists_transition_of_enabled hEnabled
  obtain ⟨ht, rfl⟩ := mem_of_transition? hTransition
  rw [h.run_enabled hTransition, Except.ok.injEq, Bool.and_eq_true] at hEnabled
  obtain ⟨hSupplied, hHeadroom⟩ := hEnabled
  obtain ⟨taken, μ, hTaken⟩ : ∃ taken μ, MovesAll Petri.interpreter net t.id clock
      ((net.inputsOf t.id).map .input) net.tokensAt (.ok (taken, μ)) := exists_movesAll_inputs
    (fun a ha => h.requests a (mem_inputArcs_of_inputsOf ha)) (h.sources t ht)
    (List.all_eq_true.mp hSupplied)
  -- no place has grown, so the room that was found is still there
  have hRoom : ∀ a ∈ net.outputsOf t.id, ∃ p, net.place? a.place = some p ∧
      p.fits ((μ a.place).length + 1) = true := by
    intro a ha
    obtain ⟨p, hPlace⟩ := hNet.place_of_output ha
    have hFits := List.all_eq_true.mp hHeadroom a ha
    rw [hPlace, Option.all_some, Place.headroom] at hFits
    have hTokens : net.tokensAt a.place = p.tokens := by
      rw [tokensAt, hPlace]
      rfl
    have hFewer := (hTaken.taken a.place).1.length_le
    rw [hTokens] at hFewer
    exact ⟨p, hPlace, Place.fits_of_le hFits (Nat.succ_le_succ hFewer)⟩
  obtain ⟨made, μ', hMade⟩ : ∃ made μ', MovesAll Petri.interpreter net t.id clock
      ((net.outputsOf t.id).map .output) μ (.ok (made, μ')) := exists_movesAll_outputs
    (fun a ha => h.products a (mem_outputArcs_of_outputsOf ha)) (h.targets t ht) hRoom
  have hFires : Fires Petri.interpreter net t.id clock (.ok (taken, made, μ')) :=
    .fires hTransition hTaken hMade
  cases hRun : (net.fire Petri.interpreter t.id clock).run with
  | ok pair => exact ⟨_, _, rfl⟩
  | error e => cases (fires_of_fails hNet hRun).unique hFires

/-! ## After a firing -/

/-- A firing changes no text, no arc and no identifier. -/
theorem settled (h : net.Ordinary) (μ : Marking) (transition : String) (clock : Time) :
    (settled net μ transition clock).Ordinary where
  guards := by
    rw [transitions_settled, List.forall_mem_map]
    intro t ht
    rw [apply_ite Transition.guard, ite_self]
    exact h.guards t ht
  evaluates := h.evaluates
  requests := h.requests
  products := h.products
  sources := by
    rw [transitions_settled, List.forall_mem_map]
    intro t ht
    rw [apply_ite Transition.id, ite_self]
    exact h.sources t ht
  targets := by
    rw [transitions_settled, List.forall_mem_map]
    intro t ht
    rw [apply_ite Transition.id, ite_self]
    exact h.targets t ht

end Ordinary
end Net
end Petri
