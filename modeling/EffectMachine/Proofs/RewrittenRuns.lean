import EffectMachine.Proofs.Lifting
import EffectMachine.Proofs.Refinement
import EffectMachine.Proofs.Replacement

/-!
# Runs of effects with replaced parts

If every pair in `L` is a law, the machine does the same on effects that are the same up to parts
replaced by their partners.

* **As a whole**: where the one effect ends, the other one ends with the same answer
  (`Interpreter.endsRewritten`).
* **Wherever it is met** in a run: what the one effect hands to the frames below it, the other one
  hands to them, and with the context and the scope in force in which the effect was met
  (`Interpreter.handsRewritten`).

Neither says anything about the stacks in between, which differ. The machine computes what direct
evaluation computes, and evaluation is echoed. A scope that closes evaluates release effects, which
are related only, so closing is echoed by induction on its depth (`closeScope_echoes`).
-/

namespace EffectMachine

variable {S : Signature} {α β : Type} {L : Node S → Node S → Prop}

open Machine (Echoes)

/-! ### Closing scopes -/

/-- Evaluating release effects is echoed. -/
def Releaser.Echoes (L : Node S → Node S → Prop) (R : Nat → Nat → Releaser S)
    (release : Releaser S) : Prop :=
  ∀ ⦃n n' : Node S⦄ (context : Context) (b : BudgetId), n.Rewrites L n' →
    Machine.Echoes L (fun i k ↦ R i k n' context b) (release n context b)

section

variable {p p' : Program S} {C : Nat → Closer S} {c : Closer S} (hp : p.Rewrites L p')
  (hc : Closer.Echoes L C c)
include hp hc

section

variable {R : Nat → Nat → Releaser S} {release : Releaser S} (hr : Releaser.Echoes L R release)
include hr

theorem finalize_echoes {f f' : Finalizer S} (hf : f.Rewrites L f') :
    Echoes L (fun i k ↦ (p'.host (C i)).finalize (R i k) f')
      ((p.host c).finalize release f) := by
  cases hf with
  | cleanup d =>
    show Echoes L (fun i _ ↦ (p'.host (C i)).perform (p'.cleanup d))
      ((p.host c).perform (p.cleanup d))
    rw [hp.cleanup]
    exact Host.perform_echoes (h := p.host c) (H := fun i ↦ p'.host (C i)) hc (p.cleanup d)
  | release context b h =>
    simp only [Host.finalize_release]
    refine Host.call_echoes (h := p.host c) (H := fun i ↦ p'.host (C i)) hc h fun q q' hq ↦ ?_
    refine hq.build_echoes hp hc fun n n' hn ↦ ?_
    exact .bind (hr context b hn) fun _ ↦ .pure _

theorem invoke_echoes (s : ScopeId) {f f' : Finalizer S} (hf : f.Rewrites L f') :
    Echoes L (fun i k ↦ (p'.host (C i)).invoke (R i k) s f') ((p.host c).invoke release s f) := by
  refine .alter (fun _ _ hw ↦ hw.record (.invoked s hf)) ?_
  refine .bind (finalize_echoes hp hc hr hf).guard fun x ↦ ?_
  exact .alter (fun _ _ hw ↦ hw.record (.ended s hf _)) (.pure _)

theorem invokeAll_echoes (s : ScopeId) {fs fs' : List (Finalizer S)}
    (hfs : List.Forall₂ (Finalizer.Rewrites L) fs fs') :
    Echoes L (fun i k ↦ (p'.host (C i)).invokeAll (R i k) s fs')
      ((p.host c).invokeAll release s fs) := by
  induction hfs with
  | nil => exact .pure _
  | cons hf _ ih =>
    refine .bind (invoke_echoes hp hc hr s hf) fun o ↦ ?_
    rcases o with cause | ⟨⟩
    · exact .bind ih fun _ ↦ .pure _
    · exact ih

theorem shut_echoes (s : ScopeId) :
    Echoes L (fun i k ↦ (p'.host (C i)).shut (R i k) s) ((p.host c).shut release s) := by
  refine .look_related (R := fun scope scope' ↦ scope'.closed = scope.closed ∧
    List.Forall₂ (Finalizer.Rewrites L) scope.finalizers scope'.finalizers)
    (fun w w' hw ↦ ⟨hw.closed s, hw.finalizers s⟩) fun scope scope' hscope ↦ ?_
  obtain ⟨hclosed, hfinalizers⟩ := hscope
  simp only [hclosed]
  cases scope.closed with
  | true => exact .pure _
  | false =>
    refine .alter (fun _ _ hw ↦ hw.shutScope s) ?_
    refine .bind (invokeAll_echoes hp hc hr s hfinalizers) fun causes ↦ ?_
    refine .alter (fun _ _ hw ↦ hw.record (.refl _)) ?_
    cases causes with
    | nil => exact .pure _
    | cons cause causes => exact .pure _

end

/-- Evaluating related nodes in a fresh scope. -/
theorem evaluateWith_echoes (hL : ∀ n n', L n n' → n.Defers n') (fuel : Nat) {n n' : Node S}
    (h : n.Rewrites L n') (context : Context) (b : BudgetId) :
    Echoes L (fun i k ↦ p'.evaluateWith (C i) k n' context b)
      (p.evaluateWith c fuel n context b) :=
  .inScope hc fun root ↦ echoedUpTo hL hp hc b fuel (Nat.le_refl fuel) h context root

end

/-- Closing scopes is echoed, however deep closings nest. -/
theorem closeScope_echoes (hL : ∀ n n', L n n' → n.Defers n') {p p' : Program S}
    (hp : p.Rewrites L p') (depth : Nat) : Closer.Echoes L p'.closeScope (p.closeScope depth) := by
  induction depth with
  | zero => exact fun _ ↦ .exhausted _
  | succ depth ih =>
    intro s
    -- a release effect is run with scopes that close one level less deep
    have hr : Releaser.Echoes L (fun i k ↦ p'.evaluateWith (p'.closeScope i) k)
        (p.evaluateWith (p.closeScope depth) depth) :=
      fun _ _ context b hn ↦ evaluateWith_echoes hp ih hL depth hn context b
    exact (shut_echoes hp ih hr s).diagonal fun _ ↦ rfl

/-! ### Runs -/

/-- Wherever the first computation ends, the second one ends with the same answer. The worlds that
they end in are alike, their histories and the slept durations included; where a release effect is
told about on one side, a related one is told about on the other. -/
def EndsRewritten (L : Node S → Node S → Prop) (w : World S) (M M' : Nat → Machine S α) : Prop :=
  ∀ x w₁, Ends M w x w₁ → ∃ w₁', Ends M' w x w₁' ∧ w₁.Rewrites L w₁'

namespace Interpreter

variable {it it' : Interpreter S} {ground : Setting}

/-- An effect that is met in a setting hands an outcome to whatever waits below it, in the setting
in which it was met. -/
def Hands (it : Interpreter S) (depth : Nat) (ground : Setting) (n : Node S) (w : World S)
    (o : Outcome S.Error Value) (w' : World S) : Prop :=
  ∃ k, ∀ base j, it.rounds (it.closeScope depth) ground.budget (k + j)
      (ground.state base (.effect n)) w =
    it.pursue (it.closeScope depth) ground.budget j (ground.state base (.ofOutcome o)) w'

/-- Wherever the first effect is met, if it hands on an outcome, the second one hands on the same in
the same setting, given that scopes may close as deep as it needs. -/
def HandsRewritten (L : Node S → Node S → Prop) (it it' : Interpreter S) (ground : Setting)
    (w w' : World S) (n n' : Node S) : Prop :=
  ∀ depth o w₁, it.Hands depth ground n w o w₁ → ∃ N, ∀ depth', N ≤ depth' →
    ∃ w₁', it'.Hands depth' ground n' w' o w₁' ∧ w₁.Rewrites L w₁'

variable {p p' : Program S} (name : String) (traceSteps : Bool)

theorem hands_iff_settles {depth : Nat} {n : Node S} {w w' : World S}
    {o : Outcome S.Error Value} :
    (plain p name traceSteps).Hands depth ground n w o w' ↔
      (plain p name traceSteps).Settles ((plain p name traceSteps).closeScope depth) ground.budget
        (.start n ground.context ground.scope ground.budget) w o w' := by
  have hσ : (plain p name traceSteps).strategy.KeepsJobs := Strategy.keepsJobs_sync
  have hground : (State.start n ground.context ground.scope ground.budget).Grounded ground :=
    State.grounded_of_nil rfl
  exact (settles_iff_above rfl hσ rfl hground).symm

/-- What the machine hands on, direct evaluation comes to. -/
theorem Hands.evaluates {depth : Nat} {n : Node S} {w w' : World S} {o : Outcome S.Error Value}
    (h : (plain p name traceSteps).Hands depth ground n w o w') :
    ∃ N w₁, (p.host (p.closeScope N)).evaluate ground.budget N n ground.context ground.scope w =
      (.ok o, w₁) ∧ w₁.Alike w' := by
  obtain ⟨fuel, hfuel⟩ := (hands_iff_settles name traceSteps).mp h
  obtain ⟨N, hN⟩ := evaluate_covers p name traceSteps (closeScope_covered p name traceSteps depth)
    fuel n ground.context ground.scope ground.budget hfuel nofun
  obtain ⟨w₁, heq, hw₁⟩ := hN N (Nat.le_refl N) N (Nat.le_refl N) w rfl
  exact ⟨N, w₁, heq, hw₁⟩

/-- What direct evaluation comes to, the machine hands on if scopes may close deep enough. -/
theorem hands_of_evaluates {depth fuel : Nat} {n : Node S} {w w' : World S}
    {o : Outcome S.Error Value}
    (heq : (p.host (p.closeScope depth)).evaluate ground.budget fuel n ground.context ground.scope
      w = (.ok o, w')) :
    ∃ N, ∀ depth', N ≤ depth' →
      ∃ w₁, (plain p name traceSteps).Hands depth' ground n w o w₁ ∧ w₁.Alike w' := by
  obtain ⟨N, hN⟩ := covers_evaluate p name traceSteps (covers_closeScope p name traceSteps depth)
    fuel n ground.context ground.scope ground.budget heq nofun
  refine ⟨N, fun depth' hdepth ↦ ?_⟩
  obtain ⟨w₁, heq₁, hw₁⟩ := hN depth' hdepth N (Nat.le_refl N) w rfl
  exact ⟨w₁, (hands_iff_settles name traceSteps).mpr ⟨N, heq₁⟩, hw₁⟩

variable (hL : ∀ n n', L n n' → n.Defers n') (hp : p.Rewrites L p') {n n' : Node S}
  (hn : n.Rewrites L n')
include hL hp hn

/-- The machine hands on the same outcomes. -/
theorem handsRewritten (ground : Setting) {w w' : World S} (hw : w.Rewrites L w') :
    HandsRewritten L (plain p name traceSteps) (plain p' name traceSteps) ground w w' n n' := by
  intro depth o w₁ hands
  -- through evaluation on the one side, across, and back to the machine
  obtain ⟨N₁, w₂, heq₂, hw₂⟩ := hands.evaluates name traceSteps
  obtain ⟨w₂', N₂, hrewrites, hN₂⟩ := echoedUpTo hL hp (closeScope_echoes hL hp N₁) ground.budget N₁
    (Nat.le_refl N₁) hn ground.context ground.scope hw heq₂ nofun
  obtain ⟨N₃, hN₃⟩ := hands_of_evaluates name traceSteps
    (hN₂ N₂ (Nat.le_refl N₂) N₂ (Nat.le_refl N₂))
  refine ⟨N₃, fun depth' hdepth ↦ ?_⟩
  obtain ⟨w₃, hands', hw₃⟩ := hN₃ depth' hdepth
  exact ⟨w₃, hands', hrewrites.alike hw₂.symm hw₃⟩

/-- The machine ends alike. -/
theorem endsRewritten (context : Context) (w : World S) :
    EndsRewritten L w (fun fuel ↦ (plain p name traceSteps).interpret fuel n context)
      (fun fuel ↦ (plain p' name traceSteps).interpret fuel n' context) := by
  intro x w₁ hends
  obtain ⟨hx, fuel, v, heq, rfl⟩ :=
    (interpret_ends_iff_evaluate_ends p name traceSteps n context w x w₁).mp hends
  obtain ⟨v', N, hv, hN⟩ := evaluateWith_echoes hp (closeScope_echoes hL hp fuel) hL fuel hn context
    (w.newBudget {}).1 (.refl (w.newBudget {}).2) heq hx
  refine ⟨v'.uncounted, ?_, hv.withBudgets {} {}⟩
  refine (interpret_ends_iff_evaluate_ends p' name traceSteps n' context w x _).mpr ?_
  exact ⟨hx, N, v', hN N (Nat.le_refl N) N (Nat.le_refl N), rfl⟩

end Interpreter

end EffectMachine
