import Petri.Proofs.Later
import Petri.Proofs.Net.Firing
import Petri.Proofs.Net.Mapped

/-! # Relative time

Where no text asks for the clock, only the time between the clock and the tokens counts. With all
timed tokens and the clock later by the same time, the same transitions are enabled, the clock next
moves by as much, and a firing does the same, as long as what it makes does not come too late.
-/
namespace Petri
set_option autoImplicit false

variable (δ : Time)

/-! ## Texts -/

def Context.later (context : Context) : Context :=
  ⟨context.clock + δ, context.transition, context.tokens.map (TokenBag.later δ)⟩

/-- Of all functions only the clock tells how late it is. -/
theorem Builtin.alike_later (context : Context) {function : String} (h : function ≠ clock.name) :
    Alike (context.later δ) context function :=
  (Token.keeps_later δ context.clock).alike_map context.transition context.tokens
    fun hClock => absurd hClock h

/-- The text of an expression that does not call the clock, or of none. -/
def Expr.ClockFree (text : String) : Prop :=
  ∀ e, Expr.readText text = .ok e → ¬ e.Calls Builtin.clock.name

/-- The text of an inscription that does not call the clock, or of none. -/
def Inscription.ClockFree (text : String) : Prop :=
  ∀ i, Inscription.readText text = .ok i → ¬ i.Calls Builtin.clock.name

namespace Interpreter
variable {text : String}

theorem evaluate_later (h : Expr.ClockFree text) (context : Context) :
    evaluate text (context.later δ) = evaluate text context := by
  refine bind_congr_of_ok fun e hText => ?_
  rw [Expr.holds, Expr.holds, Expr.eval_congr e fun _ hCall =>
    Builtin.alike_later δ context fun hName => h e hText (hName ▸ hCall)]

theorem execute_later (h : Inscription.ClockFree text) (clock : Time) (transition : String)
    (bag : TokenBag) :
    Petri.interpreter.execute text ⟨clock + δ, transition, some (bag.later δ)⟩ =
      Petri.interpreter.execute text ⟨clock, transition, some bag⟩ :=
  bind_congr_of_ok fun i hText => Inscription.tokens_congr i fun _ hCall =>
    Builtin.alike_later δ ⟨clock, transition, some bag⟩ fun hName => h i hText (hName ▸ hCall)

end Interpreter

/-! ## Nets -/

def Place.later (p : Place) : Place := { p with tokens := p.tokens.later δ }

@[simp] theorem Place.tokens_later (p : Place) : (p.later δ).tokens = p.tokens.later δ := rfl

def Scratch.later (scratch : Scratch) : Scratch :=
  scratch.map fun entry => (entry.1, TokenBag.later δ entry.2)

def Movement.later (x : Movement) : Movement := { x with tokens := x.tokens.later δ }

def Transfer.later (x : Transfer) : Transfer := { x with tokens := x.tokens.later δ }

def Firing.later (f : Firing) : Firing :=
  { f with
    clock := f.clock + δ
    consumed := f.consumed.map (Transfer.later δ)
    produced := f.produced.map (Transfer.later δ) }

/-- The same error at a later clock. -/
def RunError.later : RunError → RunError
  | .insufficientTokens transition place requested clock =>
    .insufficientTokens transition place requested (clock + δ)
  | e => e

namespace Net

/-- The same net with all timed tokens later. -/
def later (net : Net) : Net := net.mapPlaces (Place.later δ)

/-- No guard and no text of an arc calls the clock. -/
structure ClockFree (net : Net) : Prop where
  guards : ∀ t ∈ net.transitions, Expr.ClockFree t.guard
  evaluates : ∀ a ∈ net.inputArcs, Expr.ClockFree a.evaluate
  executes : ∀ a ∈ net.arcs, Inscription.ClockFree a.execute

variable (net : Net) (place transition : String) (clock : Time)

theorem transition?_later : (net.later δ).transition? transition = net.transition? transition :=
  transition?_mapTokens (Token.later δ) net transition

theorem places_later : (net.later δ).places = net.places.map (Place.later δ) :=
  places_mapPlaces net _

theorem tokensAt_later : (net.later δ).tokensAt place = (net.tokensAt place).later δ :=
  tokensAt_mapTokens (Token.later δ) net place

theorem headroom_later : (net.later δ).headroom transition = net.headroom transition :=
  headroom_mapTokens (Token.later δ) net transition

theorem earliestPending_later : (net.later δ).earliestPending (clock + δ) =
    (net.earliestPending clock).map (· + δ) := by
  rw [earliestPending, earliestPending, places_later, List.filterMap_map, ← min?_map_add,
    List.map_filterMap]
  simp only [Function.comp_def, Place.tokens_later, TokenBag.earliestPending_later]

variable {net}

theorem accepts_later {arcs : List InputArc} (h : ∀ a ∈ arcs, Expr.ClockFree a.evaluate) :
    (net.later δ).accepts Petri.interpreter transition (clock + δ) arcs =
      net.accepts Petri.interpreter transition clock arcs := by
  induction arcs with
  | nil => rfl
  | cons a rest ih =>
    obtain ⟨hFirst, hRest⟩ := List.forall_mem_cons.mp h
    have hAnswer : Petri.interpreter.evaluate a.evaluate
        ⟨clock + δ, transition, some ((net.tokensAt a.place).later δ)⟩ =
          Petri.interpreter.evaluate a.evaluate
            ⟨clock, transition, some (net.tokensAt a.place)⟩ :=
      Interpreter.evaluate_later δ hFirst ⟨clock, transition, some (net.tokensAt a.place)⟩
    rw [accepts, accepts, tokensAt_later, TokenBag.ready_later, hAnswer, ih hRest]

theorem ClockFree.enabled_later (h : net.ClockFree) :
    (net.later δ).enabled Petri.interpreter transition (clock + δ) =
      net.enabled Petri.interpreter transition clock := by
  rw [enabled, enabled, transition?_later]
  cases hTransition : net.transition? transition with
  | none => rfl
  | some t =>
    have hGuard : Petri.interpreter.evaluate t.guard ⟨clock + δ, transition, none⟩ =
        Petri.interpreter.evaluate t.guard ⟨clock, transition, none⟩ :=
      Interpreter.evaluate_later δ (h.guards t (mem_of_transition? hTransition).1)
        ⟨clock, transition, none⟩
    have hAccepts : (net.later δ).accepts Petri.interpreter transition (clock + δ)
        ((net.later δ).inputsOf transition) =
          net.accepts Petri.interpreter transition clock (net.inputsOf transition) :=
      accepts_later δ transition clock fun a ha => h.evaluates a (mem_inputArcs_of_inputsOf ha)
    dsimp only
    rw [hGuard, hAccepts, headroom_later]

end Net

/-! ## Firings -/

/-- What a transition comes to later: the same error or a result that is later by as much, unless
what it makes would come too late. -/
inductive Follows {α β : Type} (transition : String) (move : α → β) :
    Except RunError α → Except RunError β → Prop where
  | fails (e : RunError) : Follows transition move (.error e) (.error (e.later δ))
  | succeeds (a : α) : Follows transition move (.ok a) (.ok (move a))
  | overflows (result : Except RunError α) (arc : String) :
    Follows transition move result (.error (.timeOverflow transition arc))

namespace Follows
variable {δ} {α β α' β' : Type} {transition : String} {move : α → β} {move' : α' → β'}

theorem bind {x : ExceptT RunError Id α} {y : ExceptT RunError Id β}
    {f : α → ExceptT RunError Id α'} {g : β → ExceptT RunError Id β'}
    (h : Follows δ transition move x.run y.run)
    (hNext : ∀ a, Follows δ transition move' (f a).run (g (move a)).run) :
    Follows δ transition move' (x >>= f).run (y >>= g).run := by
  rw [run_bind, run_bind]
  generalize x.run = first at h
  generalize y.run = second at h
  cases h with
  | fails e => exact .fails e
  | succeeds a => exact hNext a
  | overflows => exact .overflows ..

theorem ask {answer : Except EvalError α} (arc : Option String) (phase : Phase) :
    Follows δ transition id (Evaluator.ask (m := Id) transition arc phase answer).run
      (Evaluator.ask (m := Id) transition arc phase answer).run := by
  cases answer with
  | error cause => exact .fails (.evaluation transition arc phase cause)
  | ok a => exact .succeeds a

end Follows

theorem Scratch.tokensAt_later (scratch : Scratch) (net : Net) (place : String) :
    (scratch.later δ).tokensAt (net.later δ) place = (scratch.tokensAt net place).later δ :=
  tokensAt_mapTokens (Token.later δ) scratch net place

namespace Net
variable {net : Net} (transition : String) (clock : Time)

theorem consume_later {arcs : List InputArc} (h : ∀ a ∈ arcs, Inscription.ClockFree a.execute)
    (scratch : Scratch) :
    Follows δ transition (Prod.map (List.map (Movement.later δ)) (Scratch.later δ))
      (net.consume Petri.interpreter transition clock arcs scratch).run
      ((net.later δ).consume Petri.interpreter transition (clock + δ) arcs
        (scratch.later δ)).run := by
  induction arcs generalizing scratch with
  | nil => exact .succeeds ([], scratch)
  | cons a rest ih =>
    obtain ⟨hFirst, hRest⟩ := List.forall_mem_cons.mp h
    rw [consume, consume, Scratch.tokensAt_later, Interpreter.execute_later δ hFirst]
    refine (Follows.ask (some a.id) .consuming).bind fun request => ?_
    rw [id_eq, TokenBag.withdraw_later]
    cases TokenBag.withdraw request clock (scratch.tokensAt net a.place) with
    | none => exact .fails (.insufficientTokens transition a.place request.length clock)
    | some pair =>
      obtain ⟨taken, left⟩ := pair
      exact (ih hRest (scratch.put a.place left)).bind fun others =>
        .succeeds (⟨a.id, a.place, a.execute, taken⟩ :: others.1, others.2)

theorem produce_later {arcs : List OutputArc} (h : ∀ a ∈ arcs, Inscription.ClockFree a.execute)
    (scratch : Scratch) :
    Follows δ transition (Prod.map (List.map (Movement.later δ)) (Scratch.later δ))
      (net.produce Petri.interpreter transition clock arcs scratch).run
      ((net.later δ).produce Petri.interpreter transition (clock + δ) arcs
        (scratch.later δ)).run := by
  induction arcs generalizing scratch with
  | nil => exact .succeeds ([], scratch)
  | cons a rest ih =>
    obtain ⟨hFirst, hRest⟩ := List.forall_mem_cons.mp h
    rw [produce, produce, Scratch.tokensAt_later, Interpreter.execute_later δ hFirst]
    refine (Follows.ask (some a.id) .producing).bind fun made => ?_
    rw [id_eq]
    cases hLate : TokenBag.shift (clock + δ) made with
    -- at the earlier clock there may still be time for these tokens
    | none => exact .overflows ..
    | some late =>
      obtain ⟨fresh, hFresh, rfl⟩ := TokenBag.exists_shift_of_later δ clock hLate
      rw [hFresh]
      dsimp only
      have hFits (count : Nat) : ((net.later δ).place? a.place).all (fun p => p.fits count) =
          (net.place? a.place).all fun p => p.fits count := fits_mapTokens (Token.later δ) net _ count
      have hCapacity : ((net.later δ).place? a.place).map Place.capacity =
          (net.place? a.place).map Place.capacity := capacity_mapTokens (Token.later δ) net _
      rw [TokenBag.length_later, TokenBag.length_later, hFits, hCapacity]
      split
      · have hPut : (scratch.later δ).put a.place
            ((scratch.tokensAt net a.place).later δ ++ fresh.later δ) =
              (scratch.put a.place (scratch.tokensAt net a.place ++ fresh)).later δ := by
          rw [← TokenBag.later_append]
          rfl
        rw [hPut]
        exact (ih hRest _).bind fun others =>
          .succeeds (⟨a.id, a.place, a.execute, fresh⟩ :: others.1, others.2)
      · exact .fails (.capacityExceeded ..)

/-- Notes at which clock a transition has fired. -/
def firedAt (net : Net) (transition : String) (clock : Time) : Net :=
  net.updateTransition transition fun t => { t with lastFired := clock }

theorem places_firedAt : (net.firedAt transition clock).places = net.places :=
  places_mapTransitions net _

theorem tokensAt_firedAt (place : String) :
    (net.firedAt transition clock).tokensAt place = net.tokensAt place := by
  have hId (t : Transition) : (if t.id = transition then { t with lastFired := clock }
      else t).id = t.id := by
    split <;> rfl
  rw [tokensAt, tokensAt, firedAt, updateTransition, place?_mapTransitions net hId]

theorem commit_firedAt (scratch : Scratch) (clock' : Time) :
    (net.commit scratch transition clock).firedAt transition clock' =
      net.commit scratch transition clock' := by
  simp only [commit, firedAt, updateTransition, mapTransitions, mapPlaces, List.map_map]
  congr 1
  refine List.map_congr_left fun n _ => ?_
  cases n with
  | place p => rfl
  | transition t =>
    simp only [Function.comp_apply]
    split
    · simp_all
    · simp_all

theorem commit_later (scratch : Scratch) :
    (net.later δ).commit (scratch.later δ) transition (clock + δ) =
      ((net.commit scratch transition clock).later δ).firedAt transition (clock + δ) := by
  rw [← commit_firedAt transition clock]
  exact congrArg (firedAt · transition (clock + δ))
    (commit_mapTokens (Token.later δ) net scratch transition clock)

theorem transfers_later (after : Net) (moved : List Movement) :
    (moved.map (Movement.later δ)).map ((after.later δ).firedAt transition clock).transfer =
      (moved.map after.transfer).map (Transfer.later δ) := by
  rw [List.map_map, List.map_map]
  refine List.map_congr_left fun x _ => ?_
  simp only [Function.comp_apply, transfer, tokensAt_firedAt, tokensAt_later,
    Movement.later, Transfer.later, TokenBag.length_later]

theorem ClockFree.fire_later (h : net.ClockFree) :
    Follows δ transition
      (Prod.map (Firing.later δ) fun after => (after.later δ).firedAt transition (clock + δ))
      (net.fire Petri.interpreter transition clock).run
      ((net.later δ).fire Petri.interpreter transition (clock + δ)).run := by
  rw [fire, fire, transition?_later]
  cases net.transition? transition with
  | none => exact .fails (.unknownTransition transition)
  | some t =>
    have hRequests : ∀ a ∈ net.inputsOf transition, Inscription.ClockFree a.execute :=
      fun a ha => h.executes (.input a) (mem_arcs_of_input (mem_inputArcs_of_inputsOf ha))
    have hProducts : ∀ a ∈ net.outputsOf transition, Inscription.ClockFree a.execute :=
      fun a ha => h.executes (.output a) (mem_arcs_of_output (mem_outputArcs_of_outputsOf ha))
    refine (consume_later δ transition clock hRequests []).bind fun taken => ?_
    refine (produce_later δ transition clock hProducts taken.2).bind fun made => ?_
    dsimp only [Prod.map]
    rw [commit_later, transfers_later, transfers_later]
    exact .succeeds ((⟨transition, t.shown, clock, _, _⟩ : Firing), _)

/-- Only the time between the clock and the tokens counts. With all timed tokens and the clock later
by the same time, a transition is enabled as before, the next time to come is later by as much, and
a firing fails as before or leaves places that are later by as much; but what it makes may come too
late now. -/
theorem semantics_is_relative (h : net.ClockFree) :
    (∀ transition clock,
      ((net.later δ).enabled Petri.interpreter transition (clock + δ)).run =
        (net.enabled Petri.interpreter transition clock).run) ∧
    (∀ clock, (net.later δ).earliestPending (clock + δ) =
      (net.earliestPending clock).map (· + δ)) ∧
    ∀ transition clock,
      (∃ arc, ((net.later δ).fire Petri.interpreter transition (clock + δ)).run =
        .error (.timeOverflow transition arc)) ∨
      (∃ e, (net.fire Petri.interpreter transition clock).run = .error e ∧
        ((net.later δ).fire Petri.interpreter transition (clock + δ)).run =
          .error (e.later δ)) ∨
      ∃ firing after after', (net.fire Petri.interpreter transition clock).run =
          .ok (firing, after) ∧
        ((net.later δ).fire Petri.interpreter transition (clock + δ)).run =
          .ok (firing.later δ, after') ∧
        after'.places = after.places.map (Place.later δ) := by
  refine ⟨fun transition clock => ?_, fun clock => earliestPending_later δ net clock,
    fun transition clock => ?_⟩
  · rw [h.enabled_later]
  · have hFollows := h.fire_later δ transition clock
    generalize (net.fire Petri.interpreter transition clock).run = result at hFollows ⊢
    generalize ((net.later δ).fire Petri.interpreter transition (clock + δ)).run = later
      at hFollows ⊢
    cases hFollows with
    | overflows => exact .inl ⟨_, rfl⟩
    | fails e => exact .inr (.inl ⟨e, rfl, rfl⟩)
    | succeeds pair =>
      refine .inr (.inr ⟨pair.1, pair.2, _, rfl, rfl, ?_⟩)
      rw [places_firedAt, places_later]

/-- A transition hands a token on, which is there again three time units later. -/
def drip : Net where
  id := "drip"
  nodes := [.place { id := "p", tokens := [{ value := .int 1, time := 5 }, { value := .unit }] },
    .place { id := "q" }, .transition { id := "t" }]
  arcs := [.input { id := "i", place := "p", transition := "t", evaluate := "available() > 0"
                    execute := "first()" },
    .output { id := "o", transition := "t", place := "q", execute := "size() @ 3" }]

theorem drip_clockFree : drip.ClockFree := by
  have hGuard : Expr.ClockFree defaultGuard :=
    forall_of_eq_ok (b := .literal (.bool true)) (by cbv) (by simp)
  have hEvaluate : Expr.ClockFree "available() > 0" :=
    forall_of_eq_ok
      (b := .binary (.strict .gt) (.call "available" []) (.literal (.int 0))) (by cbv)
      (by simp [Builtin.name])
  have hTaken : Inscription.ClockFree "first()" :=
    forall_of_eq_ok (b := ⟨.call "first" [], none⟩) (by cbv)
      (by simp [Builtin.name])
  have hMade : Inscription.ClockFree "size() @ 3" :=
    forall_of_eq_ok (b := ⟨.call "size" [], some (.literal (.int 3))⟩) (by cbv)
      (by simp [Builtin.name])
  refine ⟨?_, ?_, ?_⟩
  · simpa [drip, transitions, Node.transition?] using hGuard
  · simpa [drip, inputArcs, Arc.input?] using hEvaluate
  · simpa [drip, Arc.execute] using ⟨hTaken, hMade⟩

/-- A hundred time units later a drip waits until 105 and fires then as it did at 5. -/
theorem semantics_is_relative_drip :
    drip.ClockFree ∧ (drip.later 100).earliestPending 100 = some 105 ∧
    ((drip.later 100).enabled Petri.interpreter "t" 105).run =
      (drip.enabled Petri.interpreter "t" 5).run ∧
    ((∃ arc, ((drip.later 100).fire Petri.interpreter "t" 105).run =
        .error (.timeOverflow "t" arc)) ∨
      (∃ e, (drip.fire Petri.interpreter "t" 5).run = .error e ∧
        ((drip.later 100).fire Petri.interpreter "t" 105).run = .error (e.later 100)) ∨
      ∃ firing after after', (drip.fire Petri.interpreter "t" 5).run = .ok (firing, after) ∧
        ((drip.later 100).fire Petri.interpreter "t" 105).run =
          .ok (firing.later 100, after') ∧
        after'.places = after.places.map (Place.later 100)) := by
  obtain ⟨hEnabled, hNext, hFire⟩ := semantics_is_relative 100 drip_clockFree
  exact ⟨drip_clockFree, (hNext 0).trans (by decide), hEnabled "t" 5, hFire "t" 5⟩

end Net
end Petri
