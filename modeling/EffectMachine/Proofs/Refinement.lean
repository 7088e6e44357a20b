import EffectMachine.Proofs.Reflection
import EffectMachine.Proofs.Simulation

/-!
# The machine refines direct evaluation

Running the machine on an effect and evaluating the effect directly come to the same: one ends if
and only if the other does, with the same outcome and in the same world, the contents of step
budgets apart. The history of the world is part of it, so scopes and finalizers live through the
same events in the same order.

Each side covers the other over any stack (`covered_evaluate`, `followed`). What is left to do here
is to tie the knot between runs and the closing of scopes, which needs runs for release effects.
-/

namespace EffectMachine

variable {S : Signature}

/-- A computation bounded by fuel ends with an answer in a world: some fuel is enough for it. What
the world's budgets hold is left out. -/
def Ends {α : Type} (M : Nat → Machine S α) (w : World S) (x : Except Escape α) (w' : World S) :
    Prop :=
  x ≠ .error .exhausted ∧ ∃ fuel w₁, M fuel w = (x, w₁) ∧ w₁.uncounted = w'

section Runs

variable (p : Program S) (name : String) (traceSteps : Bool) {c : Closer S} {C : Nat → Closer S}

/-- The loop covers evaluation. -/
theorem covers_evaluate (hc : ∀ s, Covers (fun i _ ↦ C i s) (c s)) (fuel : Nat) (node : Node S)
    (context : Context) (scope : ScopeId) (b : BudgetId) :
    Covers (fun i n ↦ (Interpreter.plain p name traceSteps).rounds (C i) b n
      (.start node context scope b)) ((p.host c).evaluate b fuel node context scope) := by
  have h := covered_evaluate (Interpreter.isPlain_plain p name traceSteps) hc fuel node
    ⟨context, [], scope, .pending, b⟩ rfl pure fun o ↦
      (Covers.pure o).of_eq fun i n ↦ Interpreter.pursue_settled _ (C i) b n _ rfl o
  rw [bind_pure] at h
  exact h.rounds (Interpreter.isPlain_plain p name traceSteps)

/-- Evaluation covers the loop. -/
theorem evaluate_covers (hc : ∀ s, Covers (fun i _ ↦ C i s) (c s)) (fuel : Nat) (node : Node S)
    (context : Context) (scope : ScopeId) (b : BudgetId) :
    Covers (fun i n ↦ (p.host (C i)).evaluate b n node context scope)
      ((Interpreter.plain p name traceSteps).rounds c b fuel (.start node context scope b)) := by
  refine .of_rounds (Interpreter.isPlain_plain p name traceSteps) fun j _ ↦ ?_
  have h := followed (Interpreter.isPlain_plain p name traceSteps) hc j 0 node
    ⟨context, [], scope, .pending, b⟩ rfl (fun o _ _ ↦ pure o) fun i _ o ↦
      (Covers.pure o).trans_eq (Interpreter.pursue_settled _ c b i _ rfl o).symm
  simp only [bind_pure] at h
  exact h

/-- An interpretation in a fresh scope covers the evaluation in a fresh scope. -/
theorem covers_evaluateWith (hc : ∀ s, Covers (fun i _ ↦ C i s) (c s)) (fuel : Nat)
    (node : Node S) (context : Context) (b : BudgetId) :
    Covers (fun i n ↦ (Interpreter.plain p name traceSteps).interpretWith (C i) n node context b)
      (p.evaluateWith c fuel node context b) :=
  Covers.inScope hc fun root ↦ covers_evaluate p name traceSteps hc fuel node context root b

/-- The evaluation in a fresh scope covers an interpretation in a fresh scope. -/
theorem interpretWith_covered (hc : ∀ s, Covers (fun i _ ↦ C i s) (c s)) (fuel : Nat)
    (node : Node S) (context : Context) (b : BudgetId) :
    Covers (fun i n ↦ p.evaluateWith (C i) n node context b)
      ((Interpreter.plain p name traceSteps).interpretWith c fuel node context b) :=
  Covers.inScope hc fun root ↦ evaluate_covers p name traceSteps hc fuel node context root b

/-- Closing scopes, release effects being interpreted, covers closing them, release effects being
evaluated. -/
theorem covers_closeScope (depth : Nat) (s : ScopeId) :
    Covers (fun i _ ↦ (Interpreter.plain p name traceSteps).closeScope i s)
      (p.closeScope depth s) := by
  induction depth generalizing s with
  | zero => exact .exhausted _
  | succ depth ih =>
    exact (Covers.shut ih (covers_evaluateWith p name traceSteps ih depth) s).diagonal fun _ ↦ rfl

/-- Closing scopes, release effects being evaluated, covers closing them, release effects being
interpreted. -/
theorem closeScope_covered (depth : Nat) (s : ScopeId) :
    Covers (fun i _ ↦ p.closeScope i s)
      ((Interpreter.plain p name traceSteps).closeScope depth s) := by
  induction depth generalizing s with
  | zero => exact .exhausted _
  | succ depth ih =>
    exact (Covers.shut ih (interpretWith_covered p name traceSteps ih depth) s).diagonal
      fun _ ↦ rfl

/-- On a given budget, the machine ends where direct evaluation ends. -/
theorem interpretOn_ends_iff (node : Node S) (context : Context) (b : BudgetId) (w : World S)
    (x : Except Escape (Outcome S.Error Value)) (w' : World S) :
    Ends (fun fuel ↦ (Interpreter.plain p name traceSteps).interpretOn fuel node context b) w x w' ↔
      Ends (fun fuel ↦ p.evaluateWith (p.closeScope fuel) fuel node context b) w x w' := by
  constructor
  · rintro ⟨hx, fuel, w₁, heq, hw₁⟩
    obtain ⟨N, hN⟩ := interpretWith_covered p name traceSteps
      (closeScope_covered p name traceSteps fuel) fuel node context b heq hx
    obtain ⟨w₂, heq₂, hw₂⟩ := hN N (Nat.le_refl N) N (Nat.le_refl N) w rfl
    exact ⟨hx, N, w₂, heq₂, Eq.trans hw₂ hw₁⟩
  · rintro ⟨hx, fuel, w₁, heq, hw₁⟩
    obtain ⟨N, hN⟩ := covers_evaluateWith p name traceSteps
      (covers_closeScope p name traceSteps fuel) fuel node context b heq hx
    obtain ⟨w₂, heq₂, hw₂⟩ := hN N (Nat.le_refl N) N (Nat.le_refl N) w rfl
    exact ⟨hx, N, w₂, heq₂, Eq.trans hw₂ hw₁⟩

/-- The machine ends where direct evaluation ends, with the same answer and in the same world. -/
theorem interpret_ends_iff_evaluate_ends (node : Node S) (context : Context) (w : World S)
    (x : Except Escape (Outcome S.Error Value)) (w' : World S) :
    Ends (fun fuel ↦ (Interpreter.plain p name traceSteps).interpret fuel node context) w x w' ↔
      Ends (fun fuel ↦ p.evaluate fuel node context) w x w' :=
  interpretOn_ends_iff p name traceSteps node context (w.newBudget {}).1 (w.newBudget {}).2 x w'

end Runs

end EffectMachine
