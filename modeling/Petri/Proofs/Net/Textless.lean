import Petri.Proofs.Later
import Petri.Proofs.Net.Firing
import Petri.Proofs.Net.Mapped

/-! # Tokens without their texts

The text that a token was made from is there to be shown and to be saved. Nothing that a net does
looks at it: without texts the same transitions are enabled, the clock next moves to the same time, and
firings fail alike or move the same tokens.
-/
namespace Petri
set_option autoImplicit false

/-! ## Bags -/

namespace Token

def textless (t : Token) : Token := { t with text := none }

theorem textless_of_none {t : Token} (h : t.text = none) : t.textless = t := by
  rw [textless, ← h]

theorem keeps_textless (clock : Time) : Keeps textless clock clock := ⟨fun _ => rfl, fun _ => rfl⟩

end Token

namespace TokenBag

def textless (bag : TokenBag) : TokenBag := bag.map Token.textless

theorem textless_of_none {bag : TokenBag} (h : ∀ t ∈ bag, t.text = none) : bag.textless = bag := by
  rw [textless, List.map_congr_left fun t ht => Token.textless_of_none (h t ht), List.map_id']

theorem length_textless (bag : TokenBag) : bag.textless.length = bag.length := List.length_map _

theorem textless_append (bag more : TokenBag) :
    TokenBag.textless (bag ++ more) = bag.textless ++ more.textless := List.map_append

theorem earliestPending_textless (after : Time) (bag : TokenBag) :
    earliestPending after bag.textless = earliestPending after bag := by
  rw [earliestPending, earliestPending, textless, List.map_map]
  rfl

theorem text_of_mem_shift {delta : Time} {bag fresh : TokenBag}
    (hBag : ∀ t ∈ bag, t.text = none) (h : shift delta bag = some fresh) :
    ∀ t ∈ fresh, t.text = none := by
  obtain ⟨_, rfl⟩ := (shift_eq_some_iff delta).mp h
  exact List.forall_mem_map.mpr fun t ht => (t.text_later delta).trans (hBag t ht)

end TokenBag

/-! ## Texts of guards and arcs -/

namespace Interpreter
variable (text : String) (clock : Time) (transition : String) (bag : TokenBag)

theorem alike_textless (function : String) :
    Builtin.Alike ⟨clock, transition, some bag.textless⟩ ⟨clock, transition, some bag⟩ function :=
  (Token.keeps_textless clock).alike_map transition (some bag) fun _ => rfl

theorem evaluate_textless :
    Petri.interpreter.evaluate text ⟨clock, transition, some bag.textless⟩ =
      Petri.interpreter.evaluate text ⟨clock, transition, some bag⟩ :=
  bind_congr_of_ok fun e _ => by
    rw [Expr.holds, Expr.holds,
      Expr.eval_congr e fun function _ => alike_textless clock transition bag function]

theorem execute_textless :
    Petri.interpreter.execute text ⟨clock, transition, some bag.textless⟩ =
      Petri.interpreter.execute text ⟨clock, transition, some bag⟩ :=
  bind_congr_of_ok fun i _ =>
    Inscription.tokens_congr i fun function _ => alike_textless clock transition bag function

variable {text}

/-- No inscription gives its tokens a text. -/
theorem text_of_execute {context : Context} {made : TokenBag}
    (h : Petri.interpreter.execute text context = .ok made) : ∀ t ∈ made, t.text = none := by
  obtain ⟨i, _, hTokens⟩ := bind_eq_ok_iff.mp h
  obtain ⟨time, _, hValue⟩ := bind_eq_ok_iff.mp hTokens
  obtain ⟨value, _, hMade⟩ := bind_eq_ok_iff.mp hValue
  intro t ht
  split at hMade
  · cases hMade
    obtain ⟨v, _, rfl⟩ := List.mem_map.mp ht
    rfl
  · cases hMade
    cases List.mem_singleton.mp ht
    rfl

end Interpreter

/-! ## Queries -/

namespace Net

/-- The same net with no text on any token. -/
def textless (net : Net) : Net := net.mapTokens Token.textless

variable (net : Net) (transition place : String) (clock : Time)

theorem textless_textless : net.textless.textless = net.textless := by
  simp only [textless, mapTokens, mapPlaces, List.map_map]
  congr 1
  refine List.map_congr_left fun n _ => ?_
  cases n with
  | place p =>
    simp only [Function.comp_apply, Place.mapTokens, List.map_map]
    rfl
  | transition t => rfl

theorem tokensAt_textless : net.textless.tokensAt place = (net.tokensAt place).textless :=
  tokensAt_mapTokens Token.textless net place

theorem earliestPending_textless (after : Time) :
    net.textless.earliestPending after = net.earliestPending after := by
  rw [earliestPending, earliestPending, textless, places_mapTokens, List.filterMap_map]
  simp only [Function.comp_def, Place.mapTokens]
  exact congrArg (fun pending => (net.places.filterMap pending).min?)
    (funext fun p => TokenBag.earliestPending_textless after p.tokens)

theorem accepts_textless (arcs : List InputArc) :
    net.textless.accepts Petri.interpreter transition clock arcs =
      net.accepts Petri.interpreter transition clock arcs := by
  induction arcs with
  | nil => rfl
  | cons a rest ih =>
    have hReady : TokenBag.ready clock (net.tokensAt a.place).textless =
        TokenBag.ready clock (net.tokensAt a.place) :=
      (Token.keeps_textless clock).ready_map _ fun _ => rfl
    rw [accepts, accepts, tokensAt_textless, Interpreter.evaluate_textless, hReady, ih]

theorem enabled_textless : net.textless.enabled Petri.interpreter transition clock =
    net.enabled Petri.interpreter transition clock := by
  rw [enabled, enabled, textless, transition?_mapTokens, headroom_mapTokens]
  cases net.transition? transition with
  | none => rfl
  | some t =>
    have hAccepts := net.accepts_textless transition clock (net.inputsOf transition)
    rw [textless] at hAccepts
    rw [← hAccepts]
    rfl

theorem enabledTransitions_textless : net.textless.enabledTransitions Petri.interpreter clock =
    net.enabledTransitions Petri.interpreter clock := by
  have hSelect (ts : List Transition) : net.textless.selectEnabled Petri.interpreter clock ts =
      net.selectEnabled Petri.interpreter clock ts := by
    induction ts with
    | nil => rfl
    | cons t rest ih => rw [selectEnabled, selectEnabled, enabled_textless, ih]
  rw [enabledTransitions, enabledTransitions, hSelect, textless, transitions_mapTokens]

theorem isDead_textless : net.textless.isDead Petri.interpreter = net.isDead Petri.interpreter := by
  have hNone (ts : List Transition) : net.textless.noneEnabled Petri.interpreter ts =
      net.noneEnabled Petri.interpreter ts := by
    induction ts with
    | nil => rfl
    | cons t rest ih => rw [noneEnabled, noneEnabled, enabled_textless, ih]
  rw [isDead, isDead, hNone, textless, transitions_mapTokens]

end Net

/-! ## Firings -/

def Scratch.textless (scratch : Scratch) : Scratch := scratch.mapTokens Token.textless

theorem Scratch.textless_put (scratch : Scratch) (place : String) (tokens : TokenBag) :
    (scratch.put place tokens).textless = scratch.textless.put place tokens.textless := rfl

def Movement.textless (x : Movement) : Movement := { x with tokens := x.tokens.textless }

def Transfer.textless (x : Transfer) : Transfer := { x with tokens := x.tokens.textless }

def Firing.textless (f : Firing) : Firing :=
  { f with
    consumed := f.consumed.map Transfer.textless
    produced := f.produced.map Transfer.textless }

theorem Transfer.textless_textless (x : Transfer) : x.textless.textless = x.textless := by
  simp only [textless, TokenBag.textless, List.map_map]
  rfl

theorem Firing.textless_textless (f : Firing) : f.textless.textless = f.textless := by
  simp only [textless, List.map_map, Function.comp_def, Transfer.textless_textless]

namespace Net
variable (net : Net) (transition : String) (clock : Time)

theorem consume_textless (arcs : List InputArc) (scratch : Scratch) :
    (net.textless.consume Petri.interpreter transition clock arcs scratch.textless).run =
      (net.consume Petri.interpreter transition clock arcs scratch).run.map
        (Prod.map (List.map Movement.textless) Scratch.textless) := by
  induction arcs generalizing scratch with
  | nil => rfl
  | cons a rest ih =>
    have hTokens : scratch.textless.tokensAt net.textless a.place =
        (scratch.tokensAt net a.place).textless :=
      Scratch.tokensAt_mapTokens Token.textless scratch net a.place
    have hWithdraw (request : TokenBag) :
        TokenBag.withdraw request clock (scratch.tokensAt net a.place).textless =
          (TokenBag.withdraw request clock (scratch.tokensAt net a.place)).map
            (Prod.map TokenBag.textless TokenBag.textless) :=
      (Token.keeps_textless clock).withdraw_map _ request
    rw [run_consume_cons, run_consume_cons, hTokens, Interpreter.execute_textless]
    cases Petri.interpreter.execute a.execute
      ⟨clock, transition, some (scratch.tokensAt net a.place)⟩ with
    | error cause => rfl
    | ok request =>
      dsimp only
      rw [hWithdraw]
      cases TokenBag.withdraw request clock (scratch.tokensAt net a.place) with
      | none => rfl
      | some pair =>
        obtain ⟨taken, left⟩ := pair
        simp only [Option.map_some, Prod.map, ← Scratch.textless_put, ih]
        cases (net.consume Petri.interpreter transition clock rest (scratch.put a.place left)).run <;>
          rfl

theorem produce_textless (arcs : List OutputArc) (scratch : Scratch) :
    (net.textless.produce Petri.interpreter transition clock arcs scratch.textless).run =
      (net.produce Petri.interpreter transition clock arcs scratch).run.map
        (Prod.map (List.map Movement.textless) Scratch.textless) := by
  induction arcs generalizing scratch with
  | nil => rfl
  | cons a rest ih =>
    have hTokens : scratch.textless.tokensAt net.textless a.place =
        (scratch.tokensAt net a.place).textless :=
      Scratch.tokensAt_mapTokens Token.textless scratch net a.place
    rw [run_produce_cons, run_produce_cons, hTokens, Interpreter.execute_textless]
    cases hMade : Petri.interpreter.execute a.execute
      ⟨clock, transition, some (scratch.tokensAt net a.place)⟩ with
    | error cause => rfl
    | ok made =>
      dsimp only
      cases hFresh : TokenBag.shift clock made with
      | none => rfl
      | some fresh =>
        -- what is made has no text, with or without texts on the tokens that are there
        have hMadeText := Interpreter.text_of_execute hMade
        have hKept : fresh.textless = fresh :=
          TokenBag.textless_of_none (TokenBag.text_of_mem_shift hMadeText hFresh)
        have hAppend : (scratch.tokensAt net a.place).textless ++ fresh =
            TokenBag.textless (scratch.tokensAt net a.place ++ fresh) := by
          rw [TokenBag.textless_append, hKept]
        have hFits (count : Nat) : (net.textless.place? a.place).all (fun p => p.fits count) =
            (net.place? a.place).all fun p => p.fits count :=
          fits_mapTokens Token.textless net a.place count
        have hCapacity : (net.textless.place? a.place).map Place.capacity =
            (net.place? a.place).map Place.capacity :=
          capacity_mapTokens Token.textless net a.place
        dsimp only
        rw [TokenBag.length_textless, hFits, hCapacity, hAppend, ← Scratch.textless_put, ih]
        split
        · cases (net.produce Petri.interpreter transition clock rest
              (scratch.put a.place (scratch.tokensAt net a.place ++ fresh))).run with
          | error e => rfl
          | ok others =>
            simp only [Except.map, Prod.map, List.map_cons, Movement.textless, hKept]
        · rfl

theorem transfer_textless (x : Movement) :
    net.textless.transfer x.textless = (net.transfer x).textless := by
  simp only [transfer, Movement.textless, Transfer.textless, tokensAt_textless,
    TokenBag.length_textless]

theorem fire_textless : (net.textless.fire Petri.interpreter transition clock).run =
    (net.fire Petri.interpreter transition clock).run.map
      (Prod.map Firing.textless Net.textless) := by
  have hTransition : net.textless.transition? transition = net.transition? transition :=
    transition?_mapTokens Token.textless net transition
  have hCommit (scratch : Scratch) : net.textless.commit scratch.textless transition clock =
      (net.commit scratch transition clock).textless :=
    commit_mapTokens Token.textless net scratch transition clock
  rw [run_fire, run_fire, hTransition]
  cases net.transition? transition with
  | none => rfl
  | some t =>
    have hConsume : (net.textless.consume Petri.interpreter transition clock
        (net.textless.inputsOf transition) []).run = _ :=
      net.consume_textless transition clock (net.inputsOf transition) []
    dsimp only
    rw [hConsume]
    cases (net.consume Petri.interpreter transition clock (net.inputsOf transition) []).run with
    | error e => rfl
    | ok taken =>
      have hProduce : (net.textless.produce Petri.interpreter transition clock
          (net.textless.outputsOf transition) taken.2.textless).run = _ :=
        net.produce_textless transition clock (net.outputsOf transition) taken.2
      simp only [Except.map, Prod.map, hProduce]
      cases (net.produce Petri.interpreter transition clock (net.outputsOf transition)
          taken.2).run with
      | error e => rfl
      | ok made =>
        simp only [hCommit, Firing.textless, List.map_map, Function.comp_def, transfer_textless]

end Net
end Petri
