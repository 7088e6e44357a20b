import EffectMachine.Effect.Recovery
import EffectMachine.Effect.Resource
import EffectMachine.Proofs.RewrittenRuns
import EffectMachine.Proofs.Shadowing
import Mathlib.Data.List.Permutation

/-!
# A panic is the same as a returned failure

Where the call of a closure panics that builds an effect, the closure may as well return the effect
that fails with the panic (`Program.returning`): nothing outside can tell the difference. Any number
of closures may be replaced at once, since runs of effects are alike that are related by
`Plan.Restates` (`Interpreter.panics_restated`).

* **As a whole**: where the one effect ends, the other one ends with the same answer
  (`Interpreter.endsRestated`).
* **Wherever it is met** in a run: what the one effect hands to the frames below it, the other one
  hands to them (`Interpreter.handsRestated`).

The machine computes what direct evaluation computes, and evaluation is shadowed. A scope that
closes evaluates release effects, which are related only, so closing is shadowed by induction on its
depth (`closeScope_shadows`).

**The closure of a finalizer is the exception.** What it returns is run in a scope of its own, so a
returned failure takes one more scope than a panic, and scopes are numbered
(`Interpreter.returned_failure_takes_number`). `Program.stoppingApart` opens and closes such a scope
before the panic. It does nothing else that the closure does not do
(`Interpreter.build_stoppingApart`).
-/

namespace EffectMachine

variable {S : Signature} {α β : Type} {p p' : Program S}

open Machine (Shadows)

/-! ### Closures whose panics are restated -/

section

variable {p p' : Program S} {n n' : Node S}

theorem Node.Restates.suspend {x x' : Action S (Plan S)} (h : x.Restates p p' .panic x') :
    Node.Restates p p' (.suspend x) (.suspend x') := by
  obtain ⟨ι, z, l, r, hx, h⟩ := h
  exact Plan.Restates.suspend hx h

theorem Node.Restates.bind {x x' : Value → Action S (Step S)} (hs : n.Restates p p' n')
    (h : ∀ v, Step.Restates p p' (x v) (x' v)) :
    Node.Restates p p' (.bind n x) (.bind n' x') := by
  choose ι z l r hx h using h
  exact Plan.Restates.bind hs hx h

theorem Node.Restates.recover {x x' : Cause S.Error → Action S (Plan S)}
    (accepts : Cause S.Error → Action S Bool) (hs : n.Restates p p' n')
    (h : ∀ cause, (x cause).Restates p p' .panic (x' cause)) :
    Node.Restates p p' (.recover n accepts x) (.recover n' accepts x') := by
  choose ι z l r hx h using h
  exact Plan.Restates.recover accepts hs hx h

theorem Node.Restates.region {x x' : ScopeId → Action S (Plan S)}
    (h : ∀ s, (x s).Restates p p' .panic (x' s)) :
    Node.Restates p p' (.region x) (.region x') := by
  choose ι z l r hx h using h
  exact Plan.Restates.region hx h

theorem Node.Restates.finalizer {x x' : Action S (Plan S)}
    (h : x.Restates p p' .panicApart x') :
    Node.Restates p p' (.finalizer x) (.finalizer x') := by
  obtain ⟨ι, z, l, r, hx, h⟩ := h
  exact Plan.Restates.finalizer hx h

end

namespace Program

variable {t : Ty} (p : Program S)

/-- What a call of a closure does, up to its end: a node that it builds, or a panic. -/
def called (x : Action S (Effect S t)) : Action S (Except Panic (Node S)) :=
  (x.bind fun e ↦ p.build e.plan).surfaced

/-- What a call of a closure does, to be ended in another way where the call panics. -/
def stopping (stop : Panic → Action S (Effect S t)) (x : Action S (Effect S t)) :
    Action S (Effect S t) :=
  (p.called x).bind fun e ↦ .ending stop (e.map .ofNode)

/-- What a call of a closure does. Where the call panics, the effect is returned that fails with the
defect of the panic. -/
def returning (x : Action S (Effect S t)) : Action S (Effect S t) :=
  p.stopping (fun q ↦ .done (.die (.panic q.text))) x

/-- What a call of a closure does. Where the call panics, an empty scope is opened and closed before
the panic. -/
def stoppingApart (x : Action S (Effect S t)) : Action S (Effect S t) := p.stopping .panicApart x

theorem steady_returning (x : Action S (Effect S t)) : (p.returning x).Steady := by
  refine (Action.steady_surfaced _).bind fun e ↦ ?_
  cases e with
  | ok n => trivial
  | error q => trivial

/-- A closure that is called ends as its calls do. -/
theorem plan_bind_build (x : Action S (Effect S t)) :
    (x.bind fun e ↦ .done e.plan).bind p.build = (p.called x).bind (.ending .panic) := by
  rw [called, Action.surfaced_bind_ending, Action.bind_assoc]
  rfl

theorem stopping_bind_build (stop : Panic → Action S (Effect S t)) (x : Action S (Effect S t)) :
    ((p.stopping stop x).bind fun e ↦ .done e.plan).bind p.build =
      (p.called x).bind (.ending fun q ↦ (stop q).bind fun e ↦ p.build e.plan) := by
  simp only [stopping, Action.bind_assoc]
  congr 1
  funext e
  cases e <;> rfl

theorem stoppingApart_bind_build (x : Action S (Effect S t)) :
    ((p.stoppingApart x).bind fun e ↦ .done e.plan).bind p.build =
      (p.called x).bind (.ending .panicApart) :=
  p.stopping_bind_build .panicApart x

end Program

/-- A closure that returns the failure restates the panics of any closure whose calls do the same
otherwise. -/
theorem Action.Restates.returning {t : Ty} {stop : Panic → Action S (Plan S)}
    {y : Action S (Plan S)} (x : Action S (Effect S t))
    (hy : y.bind p.build = (p.called x).bind (.ending fun q ↦ (stop q).bind p.build)) :
    y.Restates p p stop ((p.returning x).bind fun e ↦ .done e.plan) := by
  refine ⟨_, p.called x, fun e ↦ e.map .node, fun e ↦ Panic.restate .dying (e.map .node),
    ⟨?_, ?_, fun e ↦ Panic.restated_restate (fun _ ↦ trivial) _⟩, fun e q q' hq hq' ↦ ?_⟩
  · rw [hy, Action.bind_assoc]
    congr 1
    funext e
    cases e <;> rfl
  · rw [Program.returning, Program.stopping_bind_build, Action.bind_assoc]
    congr 1
    funext e
    cases e <;> rfl
  · rw [Panic.eq_of_restate hq hq']
    exact .refl q

namespace Effect

variable {t u : Ty}

/-- Two effects are the same up to panics that are restated. -/
def Restates (p p' : Program S) (e e' : Effect S t) : Prop := e.node.Restates p p' e'.node

/-- A closure that builds an effect, and the failure in the place of its panics. -/
theorem restates_plan (p : Program S) (x : Action S (Effect S t)) :
    (x.bind fun e ↦ .done e.plan).Restates p p .panic
      ((p.returning x).bind fun e ↦ .done e.plan) :=
  .returning x (p.plan_bind_build x)

theorem stoppingApart_restates_plan (p : Program S) (x : Action S (Effect S t)) :
    ((p.stoppingApart x).bind fun e ↦ .done e.plan).Restates p p .panicApart
      ((p.returning x).bind fun e ↦ .done e.plan) :=
  .returning x (p.stoppingApart_bind_build x)

/-- A continuation that goes on with an effect, and the failure in the place of its panics. -/
theorem restates_step (p : Program S) (x : Action S (Effect S t)) :
    Step.Restates p p (x.bind fun e ↦ .done (.effect e.plan))
      ((p.returning x).bind fun e ↦ .done (.effect e.plan)) := by
  refine ⟨_, p.called x, fun e ↦ e.map fun n ↦ .effect (.node n), fun e ↦
    Panic.restate (fun q ↦ .effect (.dying q)) (e.map fun n ↦ .effect (.node n)),
    ⟨?_, ?_, fun e ↦ Panic.restated_restate Step.Alike.refl _⟩, fun e q q' hq hq' ↦ ?_⟩
  · have hcontrol : ((x.bind fun e ↦ .done (.effect e.plan)).bind p.control) =
        (x.bind fun e ↦ p.build e.plan).bind fun n ↦ .done (.effect n) := by
      rw [Action.bind_assoc, Action.bind_assoc]
      rfl
    rw [hcontrol, ← Action.surfaced_bind_ending (x.bind fun e ↦ p.build e.plan),
      Action.bind_assoc, Action.bind_assoc]
    congr 1
    funext e
    cases e <;> rfl
  · simp only [Program.returning, Program.stopping, Action.bind_assoc]
    congr 1
    funext e
    cases e <;> rfl
  · cases Panic.eq_of_restate hq hq'
    exact .refl q

variable {p : Program S}

theorem Restates.refl (e : Effect S t) : e.Restates p p e := Plan.Restates.refl _

theorem restates_suspend (x : Action S (Effect S t)) :
    (suspend x).Restates p p (suspend (p.returning x)) :=
  .suspend (restates_plan p x)

theorem Restates.flatMap {e e' : Effect S t} (h : e.Restates p p e')
    (f : t.El → Action S (Effect S u)) :
    (e.flatMap f).Restates p p (e'.flatMap fun y ↦ p.returning (f y)) := by
  refine Node.Restates.bind h fun v ↦ ?_
  rw [receive, receive]
  cases v.cast? t with
  | none => exact .refl _
  | some y => exact restates_step p (f y)

theorem Restates.catchCause {e e' : Effect S t} (h : e.Restates p p e')
    (accepts : Cause S.Error → Action S Bool) (handler : Cause S.Error → Action S (Effect S t)) :
    (e.catchCause accepts handler).Restates p p
      (e'.catchCause accepts fun cause ↦ p.returning (handler cause)) :=
  .recover accepts h fun cause ↦ restates_plan p (handler cause)

theorem restates_region (body : ScopeId → Action S (Effect S t)) :
    (region body).Restates p p (region fun s ↦ p.returning (body s)) :=
  .region fun s ↦ restates_plan p (body s)

theorem restates_addFinalizer (x : Action S (Effect S .unit)) :
    (addFinalizer (p.stoppingApart x)).Restates p p (addFinalizer (p.returning x)) :=
  .finalizer (stoppingApart_restates_plan p x)

end Effect

/-! ### Closing scopes -/

variable {c c' : Closer S}

/-- The world after a scope has been closed in which nothing waited. -/
def World.withSpent (w : World S) (s : ScopeId) : World S := (w.shutScope s).record (.closed s)

/-- The world after a call that stops apart, given how the call ends. -/
def World.afterCall (w : World S) : Except Defect α → World S
  | .ok _ => w
  | .error _ => w.openScope.2.withSpent w.openScope.1

/-- An empty scope closes without a report. -/
theorem Host.shut_fresh (h : Host S) (release : Releaser S) {w : World S} {s : ScopeId}
    (hs : w.scope s = .fresh) : h.shut release s w = (.ok (.ok ()), w.withSpent s) := by
  have hclosed : (w.scope s).closed = false := by rw [hs]; rfl
  have hfinalizers : (w.scope s).finalizers = [] := by rw [hs]; rfl
  simp only [shut, Machine.bind_apply, Machine.gets_apply, hclosed, hfinalizers]
  rfl

theorem Program.dismisses_closeScope (p : Program S) (depth : Nat) :
    (p.closeScope depth).Dismisses := by
  intro w s x w₁ hs heq
  cases depth with
  | zero =>
    cases heq
    exact .inl rfl
  | succ depth =>
    rw [closeScope, Host.shut_fresh _ _ hs] at heq
    exact .inr (Prod.mk.inj heq).1.symm

/-- A panic after an empty scope has been opened and closed. -/
theorem Host.call_panicApart {h : Host S} (hd : h.close.Dismisses) (q : Panic)
    (k : α → Machine S (Outcome S.Error β)) :
    h.call (.panicApart q) k = .modifyGet World.openScope >>= fun s ↦ h.close s >>= fun _ ↦
      pure (.error (.defect (.panic q.text))) := by
  funext w
  simp only [call, attempt, Action.panicApart, perform_openScope, perform_closeScope,
    perform_panic, Machine.bind_apply, Machine.guard_apply, Machine.modifyGet_apply]
  rcases hclose : h.close w.openScope.1 w.openScope.2 with ⟨x, w₁⟩
  obtain rfl | rfl := hd w.scope_openScope_self hclose
  · rfl
  · rfl

/-- Stopping apart at a panic leaves one more scope behind, and is the same otherwise. -/
theorem Host.attempt_ending_panicApart {h : Host S} {b : BudgetId} (hclose : Shuts b h.close)
    (hfresh : ∀ ⦃w s⦄, w.scope s = .fresh → h.close s w = (.ok (.ok ()), w.withSpent s))
    {z : Action S (Except Panic α)} (hz : z.Steady) {w w₁ : World S} {r : Except Defect α}
    (heq : h.attempt (z.bind (.ending .panic)) w = (.ok r, w₁)) :
    h.attempt (z.bind (.ending .panicApart)) w = (.ok r, w₁.afterCall r) := by
  rw [attempt_bind] at heq ⊢
  obtain ⟨y, w', hy, hr⟩ := Machine.bind_eq_ok heq
  rw [Machine.bind_ok hy]
  rcases y with d | q | a
  · -- the requests panic in no other place
    have hsteady := h.perform_along (Conducts.drift b) z (.inr hclose.along)
      (.inr Conducts.takeOutcome)
    rw [attempt, Machine.guard_apply] at hy
    rcases hz' : h.perform z w with ⟨(q | _) | a, w''⟩
    · exact absurd hz ((hsteady hz' (by simp)).2.2 q rfl)
    all_goals
      rw [hz'] at hy
      cases hy
  · cases hr
    show h.attempt (.panicApart q) w₁ = _
    simp only [attempt, Action.panicApart, perform_openScope, perform_closeScope, perform_panic,
      Machine.bind_apply, Machine.guard_apply, Machine.modifyGet_apply,
      hfresh w₁.scope_openScope_self]
    rfl
  · cases hr
    rfl

/-- A failure that is returned to be run in a scope of its own. -/
theorem Program.evaluateWith_fail (hd : c.Dismisses) (fuel : Nat) (cause : Cause S.Error)
    (context : Context) (b : BudgetId) :
    p.evaluateWith c (fuel + 1) (.fail cause) context b =
      .modifyGet World.enterScope >>= fun s ↦ c s >>= fun _ ↦ pure (.error cause) := by
  funext w
  simp only [evaluateWith, Machine.inScope, Host.evaluate, Machine.bind_apply,
    Machine.modifyGet_apply, Machine.pure_apply]
  rcases hclose : c w.enterScope.1 w.enterScope.2 with ⟨x, w₁⟩
  have hfresh : w.enterScope.2.scope w.enterScope.1 = .fresh := w.scope_openScope_self
  obtain rfl | rfl := hd hfresh hclose
  · rfl
  · rfl

section

variable (hc : Closer.Shadows (World.Restates p p') c c') (hd : c.Dismisses) (hd' : c'.Dismisses)
include hc hd hd'

/-- The scope that a failure is run in and the scope that is opened by hand are the same scope. -/
theorem panicApart_shadows (q : Panic) (k : α → Machine S (Outcome S.Error β)) (f : Value → β)
    (fuel : Nat) (context : Context) (b : BudgetId) :
    Shadows (World.Restates p p') ((p.host c).call (.panicApart q) k)
      (p'.evaluateWith c' (fuel + 1) (.fail (.defect (.panic q.text))) context b >>= fun o ↦
        pure (o.map f)) := by
  rw [Host.call_panicApart (h := p.host c) hd, Program.evaluateWith_fail hd']
  simp only [bind_assoc, pure_bind]
  exact .bind (.change fun _ _ hw ↦ hw.openScope_enterScope) fun s ↦ .bind (hc s) fun _ ↦ .pure _

theorem shadows_panicApart (q : Panic) (k : α → Machine S (Outcome S.Error β)) (f : Value → β)
    (fuel : Nat) (context : Context) (b : BudgetId) :
    Shadows (World.Restates p p')
      (p.evaluateWith c fuel (.fail (.defect (.panic q.text))) context b >>= fun o ↦
        pure (o.map f)) ((p'.host c').call (.panicApart q) k) := by
  cases fuel with
  | zero =>
    intro w w' x w₁ _ heq hx
    simp only [Program.evaluateWith, Machine.inScope, Host.evaluate_zero] at heq
    cases heq
    exact absurd rfl hx
  | succ fuel =>
    rw [Host.call_panicApart (h := p'.host c') hd', Program.evaluateWith_fail hd]
    simp only [bind_assoc, pure_bind]
    exact .bind (.change fun _ _ hw ↦ hw.enterScope_openScope) fun s ↦
      .bind (hc s) fun _ ↦ .pure _

end

section

variable (hp : p.Restates p') (hc : Closer.Shadows (World.Restates p p') c c')
include hp hc

/-- Evaluating related nodes in a fresh scope. -/
theorem evaluateWith_shadows (b : BudgetId) (fuel : Nat) {n n' : Node S} (h : n.Restates p p' n')
    (context : Context) : Shadows (World.Restates p p') (p.evaluateWith c fuel n context b)
      (p'.evaluateWith c' (fuel + 1) n' context b) :=
  .inScope hc fun root ↦ evaluate_shadows hp hc b fuel h context root

variable (hd : c.Dismisses) (hd' : c'.Dismisses) (fuel : Nat)
include hd hd'

/-- Finalizers of related closures report the same. -/
theorem finalize_shadows {f f' : Finalizer S} (hf : f.Restates p p' f') :
    Shadows (World.Restates p p') ((p.host c).finalize (p.evaluateWith c fuel) f)
      ((p'.host c').finalize (p'.evaluateWith c' (fuel + 1)) f') := by
  cases hf with
  | cleanup d =>
    show Shadows _ ((p.host c).perform (p.cleanup d)) ((p'.host c').perform (p'.cleanup d))
    rw [hp.cleanup]
    exact Host.perform_shadows (h := p.host c) (g := p'.host c') hc (p.cleanup d)
  | release context b h =>
    obtain ⟨ι, z, l, r, hx, hq⟩ := h
    simp only [Host.finalize_release]
    refine Action.Aligned.call_shadows hc hx (fun i q q' hl hr _ ↦ ?_) (fun q ↦ ?_) fun q ↦ ?_
    · refine (hq i q q' hl hr).build_shadows hp hc fun n n' hn ↦ ?_
      exact .bind (evaluateWith_shadows hp hc b fuel hn context) fun _ ↦ .pure _
    · exact panicApart_shadows hc hd hd' q _ _ fuel context b
    · exact shadows_panicApart hc hd hd' q _ _ fuel context b

theorem invoke_shadows (s : ScopeId) {f f' : Finalizer S} (hf : f.Restates p p' f') :
    Shadows (World.Restates p p') ((p.host c).invoke (p.evaluateWith c fuel) s f)
      ((p'.host c').invoke (p'.evaluateWith c' (fuel + 1)) s f') := by
  refine .bind (.alter fun _ _ hw ↦ hw.record (.invoked s hf)) fun _ ↦ ?_
  refine .bind (finalize_shadows hp hc hd hd' fuel hf).guard fun _ ↦ ?_
  exact .bind (.alter fun _ _ hw ↦ hw.record (.ended s hf _)) fun _ ↦ .pure _

theorem invokeAll_shadows (s : ScopeId) {fs fs' : List (Finalizer S)}
    (hfs : List.Forall₂ (Finalizer.Restates p p') fs fs') :
    Shadows (World.Restates p p') ((p.host c).invokeAll (p.evaluateWith c fuel) s fs)
      ((p'.host c').invokeAll (p'.evaluateWith c' (fuel + 1)) s fs') := by
  induction hfs with
  | nil => exact .pure _
  | cons hf _ ih =>
    refine .bind (invoke_shadows hp hc hd hd' fuel s hf) fun o ↦ ?_
    rcases o with cause | ⟨⟩
    · exact .bind ih fun _ ↦ .pure _
    · exact ih

theorem shut_shadows (s : ScopeId) :
    Shadows (World.Restates p p') ((p.host c).shut (p.evaluateWith c fuel) s)
      ((p'.host c').shut (p'.evaluateWith c' (fuel + 1)) s) := by
  refine .look_related (R := fun scope scope' ↦ scope'.closed = scope.closed ∧
    List.Forall₂ (Finalizer.Restates p p') scope.finalizers scope'.finalizers)
    (fun w w' hw ↦ ⟨hw.scopes.closed s, hw.scopes.finalizers s⟩) fun scope scope' hscope ↦ ?_
  obtain ⟨hclosed, hfinalizers⟩ := hscope
  simp only [hclosed]
  cases scope.closed with
  | true => exact .pure _
  | false =>
    refine .bind (.alter fun _ _ hw ↦ hw.shutScope s) fun _ ↦ ?_
    refine .bind (invokeAll_shadows hp hc hd hd' fuel s hfinalizers) fun causes ↦ ?_
    refine .bind (.alter fun _ _ hw ↦ hw.record (.refl _)) fun _ ↦ ?_
    cases causes with
    | nil => exact .pure _
    | cons cause causes => exact .pure _

end

/-- Closing scopes is shadowed, however deep closings nest. -/
theorem closeScope_shadows (hp : p.Restates p') (depth : Nat) :
    Closer.Shadows (World.Restates p p') (p.closeScope depth) (p'.closeScope (depth + 1)) := by
  induction depth with
  | zero => exact fun _ ↦ .exhausted _
  | succ depth ih =>
    exact shut_shadows hp ih (p.dismisses_closeScope depth) (p'.dismisses_closeScope (depth + 1))
      depth

/-! ### Runs -/

/-- Wherever the first computation ends, the second one ends with the same answer, and in a related
world. -/
def EndsRestated (p p' : Program S) (w : World S) (M M' : Nat → Machine S α) : Prop :=
  ∀ x w₁, Ends M w x w₁ → ∃ w₁', Ends M' w x w₁' ∧ w₁.Restates p p' w₁'

namespace Interpreter

/-- Wherever the first effect is met, if it hands on an outcome, the second one hands on the same in
the same setting, given that scopes may close as deep as it needs. -/
def HandsRestated (p p' : Program S) (it it' : Interpreter S) (ground : Setting) (w w' : World S)
    (n n' : Node S) : Prop :=
  ∀ depth o w₁, it.Hands depth ground n w o w₁ → ∃ N, ∀ depth', N ≤ depth' →
    ∃ w₁', it'.Hands depth' ground n' w' o w₁' ∧ w₁.Restates p p' w₁'

variable (name : String) (traceSteps : Bool)

section

variable (hp : p.Restates p') {n n' : Node S} (hn : n.Restates p p' n')
include hp hn

/-- The machine hands on the same outcomes. -/
theorem handsRestated (ground : Setting) {w w' : World S} (hw : w.Restates p p' w') :
    HandsRestated p p' (plain p name traceSteps) (plain p' name traceSteps) ground w w' n n' := by
  intro depth o w₁ hands
  -- through evaluation on the one side, across, and back to the machine
  obtain ⟨N₁, w₂, heq₂, hw₂⟩ := hands.evaluates name traceSteps
  obtain ⟨w₂', heq₂', hrestates⟩ := evaluate_shadows hp (closeScope_shadows hp N₁) ground.budget N₁
    hn ground.context ground.scope hw heq₂ nofun
  obtain ⟨N₃, hN₃⟩ := hands_of_evaluates name traceSteps heq₂'
  refine ⟨N₃, fun depth' hdepth ↦ ?_⟩
  obtain ⟨w₃, hands', hw₃⟩ := hN₃ depth' hdepth
  exact ⟨w₃, hands', hrestates.alike hw₂.symm hw₃⟩

/-- The machine ends alike. -/
theorem endsRestated (context : Context) (w : World S) :
    EndsRestated p p' w (fun fuel ↦ (plain p name traceSteps).interpret fuel n context)
      (fun fuel ↦ (plain p' name traceSteps).interpret fuel n' context) := by
  intro x w₁ hends
  obtain ⟨hx, fuel, v, heq, rfl⟩ :=
    (interpret_ends_iff_evaluate_ends p name traceSteps n context w x w₁).mp hends
  obtain ⟨v', heq', hv⟩ := evaluateWith_shadows hp (closeScope_shadows hp fuel)
    (w.newBudget {}).1 fuel hn context (.refl (w.newBudget {}).2) heq hx
  refine ⟨v'.uncounted, ?_, hv.withBudgets {} {}⟩
  refine (interpret_ends_iff_evaluate_ends p' name traceSteps n' context w x _).mpr ?_
  exact ⟨hx, fuel + 1, v', heq', rfl⟩

end

/-- A run ends in one way at most. -/
theorem interpret_ends_unique {n : Node S} {context : Context} {w w₁ w₂ : World S}
    {x y : Except Escape (Outcome S.Error Value)}
    (hx : EffectMachine.Ends (fun fuel ↦ (plain p name traceSteps).interpret fuel n context) w x w₁)
    (hy : EffectMachine.Ends (fun fuel ↦ (plain p name traceSteps).interpret fuel n context) w y
      w₂) : x = y ∧ w₁ = w₂ := by
  obtain ⟨hne, fuel, v, heq, rfl⟩ :=
    (interpret_ends_iff_evaluate_ends p name traceSteps n context w x w₁).mp hx
  obtain ⟨hne', fuel', v', heq', rfl⟩ :=
    (interpret_ends_iff_evaluate_ends p name traceSteps n context w y w₂).mp hy
  -- both converge, and where both have converged they are the same
  obtain ⟨N, hN⟩ := covers_evaluateWith p name traceSteps
    (covers_closeScope p name traceSteps fuel) fuel n context (w.newBudget {}).1 heq hne
  obtain ⟨N', hN'⟩ := covers_evaluateWith p name traceSteps
    (covers_closeScope p name traceSteps fuel') fuel' n context (w.newBudget {}).1 heq' hne'
  obtain ⟨v₁, hv, hv₁⟩ := hN (max N N') (by omega) (max N N') (by omega) _ rfl
  obtain ⟨v₂, hv', hv₂⟩ := hN' (max N N') (by omega) (max N N') (by omega) _ rfl
  cases hv.symm.trans hv'
  exact ⟨rfl, hv₁.symm.trans hv₂⟩

/-- A closure that stops apart does what it did before, except that where it panics there is one
more scope afterwards, which is empty and closed. -/
theorem build_stoppingApart {it : Interpreter S} (hr : it.registry = .standard) {t : Ty}
    (x : Action S (Effect S t)) (depth : Nat) {w w₁ : World S} {r : Except Defect (Node S)}
    (heq : (it.host (it.closeScope (depth + 1))).build (x.bind fun e ↦ .done e.plan) w =
      (.ok r, w₁)) :
    (it.host (it.closeScope (depth + 1))).build
      ((it.program.stoppingApart x).bind fun e ↦ .done e.plan) w = (.ok r, w₁.afterCall r) := by
  change (it.host (it.closeScope (depth + 1))).attempt
    ((x.bind fun e ↦ .done e.plan).bind it.program.build) w = (.ok r, w₁) at heq
  show (it.host (it.closeScope (depth + 1))).attempt
    (((it.program.stoppingApart x).bind fun e ↦ .done e.plan).bind it.program.build) w = _
  rw [it.program.plan_bind_build] at heq
  rw [it.program.stoppingApart_bind_build]
  exact Host.attempt_ending_panicApart (closeScope_shuts hr ⟨0⟩ (depth + 1))
    (fun _ _ hs ↦ Host.shut_fresh _ _ hs) (Action.steady_surfaced _) heq

/-- **A panic is the same as a returned failure.** Take a closure that builds an effect: that of a
suspension, of a continuation, of a handler or of a region. Where a call of it panics, it may as
well make the same requests and then return the effect that fails with the panic, so that no call of
it panics any more (`Program.returning`). For the closure of a finalizer this holds of a panic that
comes after an empty scope has been opened and closed. That is the scope in which the returned
failure is run, and all else that such a call does is what the call that panics does
(`World.afterCall`).

Any number of panics may be restated in this way, anywhere in an effect and in the effects that the
names of the program stand for, in either direction (`Plan.Restates`, `Program.Restates`). Wherever
the one effect ends, in whatever context and world, the other one ends with the same outcome, with
the same state of the application, after the same sleeps, with the same scopes open and closed, and
with the same finalizers offered, accepted, invoked and ended and the same scopes closed in the same
order. And wherever the one effect is met in a run, above whatever frames, if it hands an outcome to
them, so does the other one, with the context and the scope in force in which they were met. -/
theorem panics_restated (hp : p.Restates p') :
    (∀ {t} (x : Action S (Effect S t)), (p.returning x).Steady) ∧
    (∀ {t} (x : Action S (Effect S t)),
      (Effect.suspend x).Restates p p (Effect.suspend (p.returning x))) ∧
    (∀ {t u} (e : Effect S t) (f : t.El → Action S (Effect S u)),
      (e.flatMap f).Restates p p (e.flatMap fun y ↦ p.returning (f y))) ∧
    (∀ {t} (e : Effect S t) (accepts : Cause S.Error → Action S Bool)
      (handler : Cause S.Error → Action S (Effect S t)),
      (e.catchCause accepts handler).Restates p p
        (e.catchCause accepts fun cause ↦ p.returning (handler cause))) ∧
    (∀ {t} (body : ScopeId → Action S (Effect S t)),
      (Effect.region body).Restates p p (Effect.region fun s ↦ p.returning (body s))) ∧
    (∀ x : Action S (Effect S .unit),
      (Effect.addFinalizer (p.stoppingApart x)).Restates p p
        (Effect.addFinalizer (p.returning x)) ∧
      ∀ depth w r w₁,
        ((plain p name traceSteps).host ((plain p name traceSteps).closeScope (depth + 1))).build
          (x.bind fun e ↦ .done e.plan) w = (.ok r, w₁) →
        ((plain p name traceSteps).host ((plain p name traceSteps).closeScope (depth + 1))).build
          ((p.stoppingApart x).bind fun e ↦ .done e.plan) w = (.ok r, w₁.afterCall r)) ∧
    ∀ {t} (e e' : Effect S t), e.Restates p p' e' →
      (∀ context w,
        EndsRestated p p' w
          (fun fuel ↦ (plain p name traceSteps).interpret fuel e.node context)
          (fun fuel ↦ (plain p' name traceSteps).interpret fuel e'.node context) ∧
        EndsRestated p' p w
          (fun fuel ↦ (plain p' name traceSteps).interpret fuel e'.node context)
          (fun fuel ↦ (plain p name traceSteps).interpret fuel e.node context)) ∧
      ∀ ground (w w' : World S), w.Restates p p' w' →
        HandsRestated p p' (plain p name traceSteps) (plain p' name traceSteps) ground w w'
          e.node e'.node ∧
        HandsRestated p' p (plain p' name traceSteps) (plain p name traceSteps) ground w' w
          e'.node e.node := by
  refine ⟨p.steady_returning, Effect.restates_suspend, fun e f ↦ .flatMap (.refl e) f,
    fun e accepts handler ↦ .catchCause (.refl e) accepts handler, Effect.restates_region,
    fun x ↦ ⟨Effect.restates_addFinalizer x, fun depth w r w₁ ↦ ?_⟩, fun e e' he ↦ ⟨?_, ?_⟩⟩
  · have hr : (plain p name traceSteps).registry = .standard := rfl
    exact build_stoppingApart hr x depth
  · intro context w
    exact ⟨endsRestated name traceSteps hp he context w,
      endsRestated name traceSteps hp.symm he.symm context w⟩
  · intro ground w w' hw
    exact ⟨handsRestated name traceSteps hp he ground hw,
      handsRestated name traceSteps hp.symm he.symm ground hw.symm⟩

/-- Count up, then panic. -/
def stumble : Action Tally (Effect Tally .unit) :=
  .read fun k ↦ .write (k + 1) (.panic (.message "stumble"))

/-- A finalizer is registered whose closure panics, and then a continuation panics. -/
def panickingTwice : Effect Tally .unit :=
  (Effect.addFinalizer (tally.stoppingApart stumble)).flatMap fun _ ↦ stumble

/-- The same, with both closures returning the failure. -/
def failingTwice : Effect Tally .unit :=
  (Effect.addFinalizer (tally.returning stumble)).flatMap fun _ ↦ tally.returning stumble

/-- Both report two panics and count up to two. -/
theorem panics_restated_panickingTwice :
    tally.Restates tally ∧ panickingTwice.Restates tally tally failingTwice ∧
      (∃ cause w₁ w₂,
        EffectMachine.Ends
          (fun fuel ↦ (plain tally "panics" false).interpret fuel panickingTwice.node .empty)
          tallyWorld (.ok (.error cause)) w₁ ∧
        EffectMachine.Ends
          (fun fuel ↦ (plain tally "panics" false).interpret fuel failingTwice.node .empty)
          tallyWorld (.ok (.error cause)) w₂ ∧
        w₁.Restates tally tally w₂ ∧ w₁.state = 2) ∧
      tallyWorld.Restates tally tally tallyWorld ∧
      (∀ ground, HandsRestated tally tally (plain tally "panics" false)
        (plain tally "panics" false) ground tallyWorld tallyWorld panickingTwice.node
        failingTwice.node) ∧
      ∃ w₁,
        ((plain tally "panics" false).host ((plain tally "panics" false).closeScope 1)).build
          (stumble.bind fun e ↦ .done e.plan) tallyWorld =
          (.ok (.error (.panic "stumble")), w₁) ∧
        ((plain tally "panics" false).host ((plain tally "panics" false).closeScope 1)).build
          ((tally.stoppingApart stumble).bind fun e ↦ .done e.plan) tallyWorld =
          (.ok (.error (.panic "stumble")), w₁.openScope.2.withSpent w₁.openScope.1) := by
  have hp : tally.Restates tally := .refl tally
  have hw : tallyWorld.Restates tally tally tallyWorld := .refl tallyWorld
  obtain ⟨-, -, -, -, -, hfinalizer, hends⟩ := panics_restated "panics" false hp
  have hrestates : panickingTwice.Restates tally tally failingTwice :=
    .flatMap (hfinalizer stumble).1 fun _ ↦ stumble
  have hrun : ∃ cause w, (plain tally "panics" false).interpret 20 panickingTwice.node .empty
      tallyWorld = (.ok (.error cause), w) ∧ w.state = 2 := ⟨_, _, rfl, rfl⟩
  obtain ⟨cause, w₁, hrun, hstate⟩ := hrun
  have hpanics : EffectMachine.Ends
      (fun fuel ↦ (plain tally "panics" false).interpret fuel panickingTwice.node .empty)
      tallyWorld (.ok (.error cause)) w₁.uncounted := ⟨nofun, 20, w₁, hrun, rfl⟩
  obtain ⟨w₂, hfails, hworlds⟩ := ((hends _ _ hrestates).1 .empty tallyWorld).1 _ _ hpanics
  exact ⟨hp, hrestates, ⟨cause, w₁.uncounted, w₂, hpanics, hfails, hworlds, hstate⟩, hw,
    fun ground ↦ ((hends _ _ hrestates).2 ground _ _ hw).1, _, rfl,
    (hfinalizer stumble).2 0 tallyWorld _ _ rfl⟩

/-- A region whose finalizer is built by the closure, with all failures caught. After it, another
region closes its scope by hand and offers a finalizer to it. -/
def closingEarly (x : Action Tally (Effect Tally .unit)) : Effect Tally .unit :=
  ((Effect.region fun _ ↦ .done (.addFinalizer x)).catchCause (fun _ ↦ .done true)
    fun _ ↦ .done .unit).flatMap fun _ ↦
      .done (.region fun s ↦ .closeScope s fun _ ↦ .done (.addFinalizer (.done .unit)))

theorem interpret_closingEarly_panicking :
    ∃ w, (plain tally "panics" false).interpret 12 (closingEarly stumble).node .empty tallyWorld =
      (.ok (.error (.defect (.scopeClosed 3))), w) :=
  ⟨_, by cbv⟩

theorem interpret_closingEarly_returning :
    ∃ w, (plain tally "panics" false).interpret 12 (closingEarly (tally.returning stumble)).node
      .empty tallyWorld = (.ok (.error (.defect (.scopeClosed 4))), w) :=
  ⟨_, by cbv⟩

/-- **A failure that a finalizer's closure returns is run in a scope, and scopes are numbered.** The
scope that has been closed is the third one if the closure panics, and the fourth one if it returns
the failure. -/
theorem returned_failure_takes_number :
    (∃ w₁, EffectMachine.Ends (fun fuel ↦ (plain tally "panics" false).interpret fuel
      (closingEarly stumble).node .empty) tallyWorld
      (.ok (.error (.defect (.scopeClosed 3)))) w₁) ∧
    (∃ w₁, EffectMachine.Ends (fun fuel ↦ (plain tally "panics" false).interpret fuel
      (closingEarly (tally.returning stumble)).node .empty) tallyWorld
      (.ok (.error (.defect (.scopeClosed 4)))) w₁) ∧
    ¬∀ (x : Action Tally (Effect Tally .unit)) (context : Context) (w : World Tally) o w₁,
      EffectMachine.Ends (fun fuel ↦ (plain tally "panics" false).interpret fuel
        (closingEarly x).node context) w o w₁ →
      ∃ w₂, EffectMachine.Ends (fun fuel ↦ (plain tally "panics" false).interpret fuel
        (closingEarly (tally.returning x)).node context) w o w₂ := by
  obtain ⟨w₁, hthree⟩ := interpret_closingEarly_panicking
  obtain ⟨w₂, hfour⟩ := interpret_closingEarly_returning
  have hends : EffectMachine.Ends (fun fuel ↦ (plain tally "panics" false).interpret fuel
      (closingEarly stumble).node .empty) tallyWorld
      (.ok (.error (.defect (.scopeClosed 3)))) w₁.uncounted := ⟨nofun, 12, w₁, hthree, rfl⟩
  have hends' : EffectMachine.Ends (fun fuel ↦ (plain tally "panics" false).interpret fuel
      (closingEarly (tally.returning stumble)).node .empty) tallyWorld
      (.ok (.error (.defect (.scopeClosed 4)))) w₂.uncounted := ⟨nofun, 12, w₂, hfour, rfl⟩
  refine ⟨⟨_, hends⟩, ⟨_, hends'⟩, fun h ↦ ?_⟩
  obtain ⟨w₃, hsame⟩ := h stumble .empty tallyWorld _ _ hends
  cases (interpret_ends_unique "panics" false hsame hends').1

end Interpreter

end EffectMachine
