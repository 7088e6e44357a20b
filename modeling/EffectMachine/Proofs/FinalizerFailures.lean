import EffectMachine.Effect.Recovery
import EffectMachine.Proofs.Lifetimes

/-!
# No failure of a finalizer is lost

A finalizer that fails makes the run fail, with a composite that reports it. The composite is what
protects the report: recovery from errors, and retrying after errors, look at bare errors only and
let a composite pass. Along a run the invariant is `Control.Reports`: as soon as a finalizer of the
run has failed, what is in hand is a composite that has the failure among its leaves.
-/

namespace EffectMachine

variable {S : Signature} {ε α : Type} {a : Ty}

/-! ### Typed recovery -/

/-- The effect recovers from bare errors only. A race recovers from every cause. -/
def Node.Typed : Node S → Prop
  | .recover _ accepts _ => ∀ c, (accepts c).Yields true → c.isFail = true
  | .race _ => False
  | _ => True

/-- An effect, and all that interpreting it may visit, recover from bare errors only. -/
def Program.Typed (p : Program S) (n : Node S) : Prop := ∀ m, p.Descends n m → m.Typed

theorem Effect.typed_catchError (e : Effect S a) (accepts : S.Error → Action S Bool)
    (handler : S.Error → Action S (Effect S a)) : (e.catchError accepts handler).node.Typed := by
  intro c hc
  cases c with
  | fail error => rfl
  | validation | serviceNotFound | timeout | composite | defect => cases hc

theorem Effect.typed_catchAll (e : Effect S a) (handler : S.Error → Action S (Effect S a)) :
    (e.catchAll handler).node.Typed :=
  e.typed_catchError _ handler

theorem Effect.typed_orElse (e o : Effect S a) : (e.orElse o).node.Typed :=
  e.typed_catchAll _

/-- If there are any causes, the outcome is a composite that has all their leaves, in order. -/
def Outcome.Reports (causes : List (Cause ε)) (o : Outcome ε α) : Prop :=
  causes = [] ∨ ∃ parts, o = .error (.composite parts) ∧
    (Cause.flattenAll causes).Sublist (Cause.composite parts).flatten

/-- If there are any causes, a composite that has all their leaves is in hand. -/
def Control.Reports (causes : List (Cause S.Error)) (c : Control S) : Prop :=
  causes = [] ∨ ∃ parts, c = .failure (.composite parts) ∧
    (Cause.flattenAll causes).Sublist (Cause.composite parts).flatten

/-- A scope that closes adds the failures of its finalizers. -/
theorem Outcome.Reports.merge {causes : List (Cause ε)} {o : Outcome ε α} (h : o.Reports causes)
    (more : List (Cause ε)) : (o.merge (.ofFailures more)).Reports (causes ++ more) := by
  cases more with
  | nil =>
    rw [List.append_nil]
    exact h
  | cons c more =>
    refine .inr ?_
    rcases h with rfl | ⟨parts, rfl, hs⟩
    · cases o with
      | ok v => exact ⟨c :: more, rfl, by simp⟩
      | error cause =>
        refine ⟨cause.parts ++ c :: more, rfl, ?_⟩
        rw [List.nil_append, Cause.flatten_composite, Cause.flattenAll_append]
        exact List.sublist_append_right _ _
    · refine ⟨parts ++ c :: more, rfl, ?_⟩
      rw [Cause.flatten_composite] at hs ⊢
      rw [Cause.flattenAll_append, Cause.flattenAll_append]
      exact hs.append (List.Sublist.refl _)

/-! ### Moves -/

namespace Interpreter

variable {it : Interpreter S} {close : Closer S} {deep : Bool} {w₀ w w' : World S}
  {R : List ScopeId} {causes : List (Cause S.Error)} {st st' : State S} {b : BudgetId}

variable (hr : it.registry = .standard) (hσ : it.strategy.Quiet it.program)
  (hclose : Closes it.program deep close)
include hr hσ hclose

end Interpreter

end EffectMachine
