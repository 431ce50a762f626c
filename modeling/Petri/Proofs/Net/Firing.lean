import Petri.Net.Firing
import Petri.Proofs.Except

/-! # Equations of a firing

With an evaluator that has no effects a firing is a plain recursion over the arcs.
-/
namespace Petri
set_option autoImplicit false

theorem run_ask_bind {α β : Type} (transition : String) (arc : Option String) (phase : Phase)
    (answer : Except EvalError α) (f : α → ExceptT RunError Id β) :
    (Evaluator.ask (m := Id) transition arc phase answer >>= f).run =
      match answer with
      | .ok a => (f a).run
      | .error cause => .error (.evaluation transition arc phase cause) := by
  cases answer <;> rfl

namespace Net
variable (ev : Evaluator Id) (net : Net) (transition : String) (clock : Time)

theorem run_consume_cons (a : InputArc) (rest : List InputArc) (scratch : Scratch) :
    (net.consume ev transition clock (a :: rest) scratch).run =
      match ev.execute a.execute ⟨clock, transition, some (scratch.tokensAt net a.place)⟩ with
      | .error cause => .error (.evaluation transition (some a.id) .consuming cause)
      | .ok request =>
        match TokenBag.withdraw request clock (scratch.tokensAt net a.place) with
        | none => .error (.insufficientTokens transition a.place request.length clock)
        | some (taken, left) =>
          match (net.consume ev transition clock rest (scratch.put a.place left)).run with
          | .error e => .error e
          | .ok (moved, after) => .ok (⟨a.id, a.place, a.execute, taken⟩ :: moved, after) := by
  rw [consume, run_ask_bind]
  cases ev.execute a.execute ⟨clock, transition, some (scratch.tokensAt net a.place)⟩ with
  | error cause => rfl
  | ok request =>
    cases h : TokenBag.withdraw request clock (scratch.tokensAt net a.place) with
    | none =>
      simp only [h]
      rfl
    | some pair =>
      simp only [h, run_bind]
      cases (net.consume ev transition clock rest (scratch.put a.place pair.2)).run <;> rfl

theorem run_produce_cons (a : OutputArc) (rest : List OutputArc) (scratch : Scratch) :
    (net.produce ev transition clock (a :: rest) scratch).run =
      match ev.execute a.execute ⟨clock, transition, some (scratch.tokensAt net a.place)⟩ with
      | .error cause => .error (.evaluation transition (some a.id) .producing cause)
      | .ok made =>
        match TokenBag.shift clock made with
        | none => .error (.timeOverflow transition a.id)
        | some fresh =>
          if (net.place? a.place).all fun p =>
              p.fits ((scratch.tokensAt net a.place).length + fresh.length) then
            match (net.produce ev transition clock rest
                (scratch.put a.place (scratch.tokensAt net a.place ++ fresh))).run with
            | .error e => .error e
            | .ok (moved, after) => .ok (⟨a.id, a.place, a.execute, fresh⟩ :: moved, after)
          else .error (.capacityExceeded transition a.place
            (((net.place? a.place).map Place.capacity).getD 0)) := by
  rw [produce, run_ask_bind]
  cases ev.execute a.execute ⟨clock, transition, some (scratch.tokensAt net a.place)⟩ with
  | error cause => rfl
  | ok made =>
    cases h : TokenBag.shift clock made with
    | none =>
      simp only [h]
      rfl
    | some fresh =>
      simp only [h]
      split
      · rw [run_bind]
        cases (net.produce ev transition clock rest
          (scratch.put a.place (scratch.tokensAt net a.place ++ fresh))).run <;> rfl
      · rfl

theorem run_fire :
    (net.fire ev transition clock).run =
      match net.transition? transition with
      | none => .error (.unknownTransition transition)
      | some t =>
        match (net.consume ev transition clock (net.inputsOf transition) []).run with
        | .error e => .error e
        | .ok (consumed, scratch) =>
          match (net.produce ev transition clock (net.outputsOf transition) scratch).run with
          | .error e => .error e
          | .ok (produced, scratch) =>
            let after := net.commit scratch transition clock
            .ok (⟨transition, t.shown, clock, consumed.map after.transfer,
              produced.map after.transfer⟩, after) := by
  rw [fire]
  cases net.transition? transition with
  | none => rfl
  | some t =>
    simp only [run_bind]
    cases (net.consume ev transition clock (net.inputsOf transition) []).run with
    | error e => rfl
    | ok pair =>
      obtain ⟨consumed, scratch⟩ := pair
      dsimp only
      cases (net.produce ev transition clock (net.outputsOf transition) scratch).run <;> rfl

/-- Whatever a firing does, it ends by giving copies back. -/
theorem eq_commit_of_fire {firing : Firing} {after : Net}
    (h : (net.fire ev transition clock).run = .ok (firing, after)) :
    ∃ scratch : Scratch, after = net.commit scratch transition clock := by
  rw [run_fire] at h
  split at h
  · cases h
  · split at h
    · cases h
    · split at h
      · cases h
      · rename_i scratch _
        cases h
        exact ⟨scratch, rfl⟩

end Net
end Petri
