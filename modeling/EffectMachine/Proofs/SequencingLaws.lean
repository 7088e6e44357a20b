import EffectMachine.Proofs.Interchange
import EffectMachine.Proofs.Refinement
import EffectMachine.Proofs.Soundness

/-!
# Laws of sequencing

Wherever a law of sequencing is applied in an effect, the effect behaves as it did
(`Interpreter.sequencing_laws`). The stacks that the machine builds for the two sides of a law
differ from their first step on, so nothing is said about stacks here: the machine computes what
direct evaluation computes (`interpret_ends_iff_evaluate_ends`), and direct evaluation has no stack.

**From the laws to effects.** The three laws are equations between evaluations, up to fuel. That
evaluating related effects is tracked is shown by induction on the fuel, and for one amount of fuel
by induction on how the effects are related (`Plan.Congruent.interchanges`): the laws by their
equations, the other rules by the lemmas of `Interchange`.

**From effects to runs.** A closing scope evaluates its release effects, which are related only. So
closing is tracked by induction on how deep closings nest (`closeScope_tracks`), with evaluation
below that depth at hand, and evaluation takes a tracked closer as given.

**What is the same.** Outcomes are equal. So are the final states of the application, in which
closures can write down that they have been called, the clock with what has been slept, and the
slots. Histories agree in every event that is offered, accepted, invoked or ended, on both sides the
same named finalizer or release effects that are related.
-/

namespace EffectMachine

variable {S : Signature} {α β : Type}

open Machine (Tracks)

/-! ### The laws -/

section

variable {G : Regime S} {p p' : Program S} {c : Closer S} {C : Nat → Closer S} {b : BudgetId}
  {fuel : Nat} {Γ : List Ty} {s t u : Promise} {a a' a'' : Ty}

namespace Host

variable (h : Host S) (context : Context) (scope : ScopeId)

theorem evaluate_succeed_flatMap (x : a.El) (f : a.El → Action S (Effect S a')) :
    h.evaluate b (fuel + 2) ((Effect.succeed x).flatMap f).node context scope =
      h.call (f x) fun e ↦ h.visit b (fuel + 1) context scope e.plan := by
  rw [evaluate_flatMap, evaluate_succeed, Machine.onValue_pure_ok, Machine.onElement_mk]

theorem evaluate_flatMap_succeed (m : Effect S a) :
    h.evaluate b (fuel + 2) (m.flatMap fun x ↦ .done (.succeed x)).node context scope =
      (h.evaluate b (fuel + 1) m.node context scope).onValue
        (Machine.onElement a fun x ↦ pure (.ok ⟨a, x⟩)) := by
  rw [evaluate_flatMap]
  congr 2

/-- A sequence of three that is bracketed to the left. -/
theorem evaluate_flatMap_flatMap_left (m : Effect S a) (f : a.El → Action S (Effect S a'))
    (g : a'.El → Action S (Effect S a'')) :
    h.evaluate b (fuel + 2) ((m.flatMap f).flatMap g).node context scope =
      (h.evaluate b fuel m.node context scope).onValue (Machine.onElement a fun x ↦
        h.call (f x) fun e ↦ (h.visit b fuel context scope e.plan).onValue
          (Machine.onElement a' fun y ↦
            h.call (g y) fun e ↦ h.visit b (fuel + 1) context scope e.plan)) := by
  rw [evaluate_flatMap, evaluate_flatMap, Machine.onValue_assoc]
  congr 1
  funext v
  rw [Machine.onValue_onElement]
  congr 1
  funext x
  exact h.onValue_call (f x) _ _

/-- A sequence of three that is bracketed to the right. -/
theorem evaluate_flatMap_flatMap_right (m : Effect S a) (f : a.El → Action S (Effect S a'))
    (g : a'.El → Action S (Effect S a'')) :
    h.evaluate b (fuel + 2) (m.flatMap fun x ↦ do return (← f x).flatMap g).node context scope =
      (h.evaluate b (fuel + 1) m.node context scope).onValue (Machine.onElement a fun x ↦
        h.call (f x) fun e ↦ (h.evaluate b fuel e.node context scope).onValue
          (Machine.onElement a' fun y ↦
            h.call (g y) fun e ↦ h.visit b fuel context scope e.plan)) := by
  rw [evaluate_flatMap]
  congr 2
  funext x
  refine (h.call_bind (f x) (fun e ↦ .done (e.flatMap g)) _).trans ?_
  congr 1
  funext e
  exact h.evaluate_flatMap b fuel context scope e g

end Host

namespace Node.Tracked

section

variable (hp : p.Congruent G p') (hc : Closer.Tracks G C c)
  (ih : Node.TrackedUpTo G p p' C c b fuel)

section

variable {m : Effect S a} (hm : Node.Tracked G p p' C c b (fuel + 1) Γ (some a) m.node m.node)

include ih in
theorem flatMap_succeed (hm : Plan.Congruent G Γ (some a) (.node m.node) (.node m.node)) :
    Node.Tracked G p p' C c b (fuel + 1) Γ (some a)
      (m.flatMap fun x ↦ .done (.succeed x)).node m.node := by
  intro context scope hcontext
  cases fuel with
  | zero =>
    rw [Host.evaluate_flatMap, Host.evaluate_zero]
    exact .exhausted
  | succ f =>
    rw [Host.evaluate_flatMap_succeed]
    -- the second continuation hands on what it receives, a cast of which succeeds
    have h := (ih (Nat.le_refl _) hm context scope hcontext).onValue (u := some a)
      (K := fun v _ _ ↦ Pure.pure (.ok v)) (k := Machine.onElement a fun x ↦ Pure.pure (.ok ⟨a, x⟩))
      fun Γ' v _ hv ↦ by
        obtain ⟨x, rfl⟩ := hv.mk
        rw [Machine.onElement_mk]
        exact .pure hv
    simp only [Machine.onValue_ok] at h
    exact h

include hm in
theorem flatMap_succeed_symm :
    Node.Tracked G p p' C c b (fuel + 1) Γ (some a) m.node
      (m.flatMap fun x ↦ .done (.succeed x)).node := by
  intro context scope hcontext
  refine .of_tail (.of_tail ?_)
  simp only [Nat.add_assoc, Host.evaluate_flatMap_succeed]
  have h := ((hm context scope hcontext).ahead 1).onValue (u := some a)
    (k := fun v ↦ Pure.pure (.ok v))
    (K := fun v _ _ ↦ Machine.onElement a (fun x ↦ Pure.pure (.ok ⟨a, x⟩)) v)
    fun Γ' v _ hv ↦ by
      obtain ⟨x, rfl⟩ := hv.mk
      rw [Machine.onElement_mk]
      exact .pure hv
  rw [Machine.onValue_ok] at h
  exact h

end

include hp hc ih

theorem succeed_flatMap {x : a.El} {f : a.El → Action S (Effect S a')}
    (hf : Effect.Supplies G Γ t (f x)) :
    Node.Tracked G p p' C c b (fuel + 1) Γ t ((Effect.succeed x).flatMap f).node
      (Effect.suspend (f x)).node := by
  intro context scope hcontext
  cases fuel with
  | zero =>
    rw [Host.evaluate_flatMap, Host.evaluate_zero]
    exact .exhausted
  | succ f =>
    refine .of_tail ?_
    simp only [Host.evaluate_succeed_flatMap, Host.evaluate_suspended]
    exact Host.call_tracks hc hf (fun _ ho ↦ ho) fun Γ' e _ he ↦
      he.visit_tracks hp hc b ih (Nat.le_refl _) scope hcontext

theorem succeed_flatMap_symm {x : a.El} {f : a.El → Action S (Effect S a')}
    (hf : Effect.Supplies G Γ t (f x)) :
    Node.Tracked G p p' C c b (fuel + 1) Γ t (Effect.suspend (f x)).node
      ((Effect.succeed x).flatMap f).node := by
  intro context scope hcontext
  refine .of_tail (.of_tail ?_)
  simp only [Nat.add_assoc, Host.evaluate_succeed_flatMap, Host.evaluate_suspended]
  exact Host.call_tracks hc hf (fun _ ho ↦ ho) fun Γ' e _ he ↦
    (he.visit_tracks hp hc b ih (Nat.le_refl _) scope hcontext).ahead 1

/-- An effect that is visited, on the left only. -/
theorem visit_node {e : Effect S a} (he : e.plan.Congruent G Γ t e.plan) {f : Nat} (hf : f ≤ fuel)
    {context : Context} (scope : ScopeId) (hcontext : context.Suits G) :
    Tracks G Γ (fun i k ↦ (p'.host (C i)).evaluate b k e.node context scope)
      ((p.host c).visit b f context scope e.plan) fun _ o ↦ G.Keeps t o := by
  have hvisit := he.visit_tracks hp hc b ih hf scope hcontext
  obtain ⟨n | d⟩ := e
  · exact hvisit
  · refine .of_tail ?_
    simp only [Host.evaluate_named]
    exact hvisit

/-- An effect that is visited, on the right only. -/
theorem node_visit {e : Effect S a} (he : e.plan.Congruent G Γ t e.plan) {f : Nat} (hf : f ≤ fuel)
    {context : Context} (scope : ScopeId) (hcontext : context.Suits G) :
    Tracks G Γ (fun i k ↦ (p'.host (C i)).visit b k context scope e.plan)
      ((p.host c).evaluate b f e.node context scope) fun _ o ↦ G.Keeps t o := by
  obtain ⟨n | d⟩ := e
  · exact he.visit_tracks hp hc b ih hf scope hcontext
  · cases f with
    | zero =>
      rw [Host.evaluate_zero]
      exact .exhausted
    | succ f =>
      rw [Host.evaluate_named]
      exact he.visit_tracks hp hc b ih (Nat.le_of_succ_le hf) scope hcontext

section

variable {m : Effect S a} {f : a.El → Action S (Effect S a')} {g : a'.El → Action S (Effect S a'')}
  (ha : G.Takes s a) (ha' : G.Takes t a') (hm : Plan.Congruent G Γ s (.node m.node) (.node m.node))
  (hf : ∀ x, Effect.Supplies G Γ t (f x)) (hg : ∀ y, Effect.Supplies G Γ u (g y))
include ha ha' hm hf hg

theorem flatMap_flatMap :
    Node.Tracked G p p' C c b (fuel + 1) Γ u ((m.flatMap f).flatMap g).node
      (m.flatMap fun x ↦ do return (← f x).flatMap g).node := by
  intro context scope hcontext
  cases fuel with
  | zero =>
    rw [Host.evaluate_flatMap, Host.evaluate_zero]
    exact .exhausted
  | succ j =>
    -- on the left `m` is two nodes deep and what `g` builds is one, on the right it is the other
    -- way round; the family takes the fuel that it needs
    refine .of_tail (.of_tail ?_)
    simp only [Nat.add_assoc, Host.evaluate_flatMap_flatMap_left,
      Host.evaluate_flatMap_flatMap_right]
    refine ((ih (Nat.le_succ j) hm context scope hcontext).ahead 1).onValue fun Γ₁ v h₁ hv ↦ ?_
    refine .onElement ha hv fun x ↦ ?_
    refine Host.call_tracks hc ((hf x).mono h₁) (fun _ ho ↦ ho) fun Γ₂ e h₂ he ↦ ?_
    refine (visit_node hp hc ih he (Nat.le_succ j) scope hcontext).onValue fun Γ₃ v h₃ hv ↦ ?_
    refine .onElement ha' hv fun y ↦ ?_
    exact Host.call_tracks hc ((hg y).mono (h₁.trans (h₂.trans h₃))) (fun _ ho ↦ ho)
      fun Γ₄ e _ he ↦ he.visit_tracks hp hc b ih (Nat.le_refl _) scope hcontext

theorem flatMap_flatMap_symm :
    Node.Tracked G p p' C c b (fuel + 1) Γ u (m.flatMap fun x ↦ do return (← f x).flatMap g).node
      ((m.flatMap f).flatMap g).node := by
  intro context scope hcontext
  cases fuel with
  | zero =>
    rw [Host.evaluate_flatMap, Host.evaluate_zero]
    exact .exhausted
  | succ j =>
    refine .of_tail (.of_tail ?_)
    simp only [Nat.add_assoc, Host.evaluate_flatMap_flatMap_left,
      Host.evaluate_flatMap_flatMap_right]
    refine (ih (Nat.le_refl _) hm context scope hcontext).onValue fun Γ₁ v h₁ hv ↦ ?_
    refine .onElement ha hv fun x ↦ ?_
    refine Host.call_tracks hc ((hf x).mono h₁) (fun _ ho ↦ ho) fun Γ₂ e h₂ he ↦ ?_
    refine (node_visit hp hc ih he (Nat.le_succ j) scope hcontext).onValue fun Γ₃ v h₃ hv ↦ ?_
    refine .onElement ha' hv fun y ↦ ?_
    exact Host.call_tracks hc ((hg y).mono (h₁.trans (h₂.trans h₃))) (fun _ ho ↦ ho)
      fun Γ₄ e _ he ↦ (he.visit_tracks hp hc b ih (Nat.le_succ j) scope hcontext).ahead 1

end

end

end Node.Tracked

/-- Related effects are interchangeable, given that they are with less fuel. -/
theorem Plan.Congruent.interchanges (hp : p.Congruent G p') (hc : Closer.Tracks G C c)
    (ih : Node.TrackedUpTo G p p' C c b fuel) {q q' : Plan S} (h : q.Congruent G Γ t q') :
    q.Interchanges G p p' C c b (fuel + 1) Γ t q' := by
  induction h with
  | succeed_flatMap hx he =>
    have hf := Action.Ensures.intro hx he
    exact ⟨.succeed_flatMap hp hc ih hf, .succeed_flatMap_symm hp hc ih hf⟩
  | flatMap_succeed hm ihm => exact ⟨.flatMap_succeed ih hm, .flatMap_succeed_symm ihm.1⟩
  | flatMap_flatMap ha ha' hm hfx hfe hgx hge =>
    have hf := fun x ↦ Action.Ensures.intro (hfx · x) (hfe · · x)
    have hg := fun y ↦ Action.Ensures.intro (hgx · y) (hge · · y)
    exact ⟨.flatMap_flatMap hp hc ih ha ha' hm hf hg,
      .flatMap_flatMap_symm hp hc ih ha ha' hm hf hg⟩
  | @symm Γ t q q' h ihq =>
    -- names are told apart first, since there is nothing to interchange in a name
    obtain ⟨d, a, rfl, rfl, -⟩ | ⟨n, n', rfl, rfl⟩ := h.named_or_node
    · trivial
    · exact ⟨ihq.2, ihq.1⟩
  | @forget Γ t q q' h ihq =>
    obtain ⟨d, a, rfl, rfl, -⟩ | ⟨n, n', rfl, rfl⟩ := h.named_or_node
    · trivial
    · exact ⟨ihq.1.forget, ihq.2.forget⟩
  | named h => trivial
  | pure h => exact ⟨.pure hc b h, .pure hc b h⟩
  | fail h => exact ⟨.fail b h, .fail b h⟩
  | service k => exact ⟨.service b k, .service b k⟩
  | lookup k => exact ⟨.lookup b k, .lookup b k⟩
  | sleep d => exact ⟨.sleep b d, .sleep b d⟩
  | async h => exact ⟨.async hc b h, .async hc b h⟩
  | suspend hx he =>
    have hlr := Action.Ensures.intro hx he
    exact ⟨.suspend hp hc b ih hlr, .suspend hp hc b ih (.post hlr fun _ _ _ hi ↦ hi.symm)⟩
  | bind hs hx ha he =>
    have hlr := fun v hv ↦ Action.Ensures.intro (fun Γ₁ h₁ ↦ hx Γ₁ v h₁ hv) fun Γ₁ Γ₂ i h₁ hr ↦
      And.intro (ha Γ₁ Γ₂ v i h₁ hv hr) fun q q' ↦ he Γ₁ Γ₂ v i q q' h₁ hv hr
    exact ⟨.bind hp hc b ih hs hlr,
      .bind hp hc b ih hs.symm fun v hv ↦ .post (hlr v hv) fun _ _ _ hi ↦ Step.Congruent.symm hi⟩
  | provide hl hi => exact ⟨.provide hc b ih hl hi, .provide hc b ih hl hi.symm⟩
  | recover hs ha hx he =>
    have hlr := fun cause hcause ↦ Action.Ensures.intro (fun Γ₁ h₁ ↦ hx Γ₁ cause h₁ hcause)
      fun Γ₁ Γ₂ i h₁ ↦ he Γ₁ Γ₂ cause i h₁ hcause
    exact ⟨.recover hp hc b ih hs ha hlr, .recover hp hc b ih hs.symm ha fun cause hcause ↦
      .post (hlr cause hcause) fun _ _ _ hi ↦ hi.symm⟩
  | parallel hs hcollect =>
    exact ⟨.parallel hc b ih hs hcollect,
      .parallel hc b ih (fun i hi ↦ (hs i hi).symm) hcollect⟩
  | race hs => exact ⟨.race b ih hs, .race b ih fun i hi ↦ (hs i hi).symm⟩
  | retry hs hschedule =>
    exact ⟨.retry hc b ih hs hschedule, .retry hc b ih hs.symm hschedule⟩
  | region hx he =>
    have hlr := fun s ↦ Action.Ensures.intro (hx · s) (he · · s)
    exact ⟨.region hp hc b ih hlr,
      .region hp hc b ih fun s ↦ .post (hlr s) fun _ _ _ hi ↦ hi.symm⟩
  | finalizer hx he =>
    have hlr := Action.Ensures.intro hx he
    exact ⟨.finalizer b ⟨_, _, _, _, rfl, rfl, hlr⟩,
      .finalizer b ⟨_, _, _, _, rfl, rfl, .post hlr fun _ _ _ hi ↦ hi.symm⟩⟩
  | timeout hs limit => exact ⟨.timeout b ih hs limit, .timeout b ih hs.symm limit⟩

/-- Evaluation of related nodes is tracked, however much fuel there is. -/
theorem trackedUpTo (hp : p.Congruent G p') (hc : Closer.Tracks G C c) (b : BudgetId)
    (fuel : Nat) : Node.TrackedUpTo G p p' C c b fuel := by
  -- up to some fuel, and not with that much: a loop spends several units on one turn
  induction fuel with
  | zero =>
    intro f Γ t n n' hf _
    obtain rfl := Nat.le_zero.mp hf
    exact .zero b n n'
  | succ fuel ih =>
    intro f Γ t n n' hf h
    rcases Nat.le_or_eq_of_le_succ hf with hle | rfl
    · exact ih hle h
    · exact (h.interchanges hp hc ih).1

/-! ### Closing scopes -/

/-- Evaluating release effects is tracked. -/
def Releaser.Tracks (G : Regime S) (R : Nat → Nat → Releaser S) (release : Releaser S) : Prop :=
  ∀ {Γ n n' context} (b : BudgetId), Plan.Congruent G Γ none (.node n) (.node n') →
    context.Suits G → Machine.Tracks G Γ (fun i k ↦ R i k n' context b) (release n context b)
      fun _ o ↦ G.Keeps none o

section

variable (hp : p.Congruent G p') (hc : Closer.Tracks G C c) {R : Nat → Nat → Releaser S}
  {release : Releaser S} (hr : Releaser.Tracks G R release)
include hp hc hr

theorem finalize_tracks {f f' : Finalizer S} (hf : f.Congruent G Γ f') :
    Tracks G Γ (fun i k ↦ (p'.host (C i)).finalize (R i k) f') ((p.host c).finalize release f)
      fun _ o ↦ G.OwnsOutcome o := by
  cases hf with
  | @cleanup d h =>
    obtain ⟨heq, hensures⟩ := hp.cleanup h
    show Tracks G Γ (fun i _ ↦ (p'.host (C i)).perform (p'.cleanup d))
      ((p.host c).perform (p.cleanup d)) _
    rw [heq]
    exact (Host.perform_tracks (h := p.host c) (H := fun i ↦ p'.host (C i)) hc
      (hensures.proper List.prefix_rfl)).post fun _ o _ ho ↦ hensures.reaches List.prefix_rfl ho
  | @release build build' context b hcontext h =>
    obtain ⟨ι, z, l, r, rfl, rfl, hz⟩ := h
    have hown : ∀ cause : Cause S.Error, G.Owns cause →
        G.OwnsOutcome (.error cause : Outcome S.Error Unit) := by
      rintro cause hcause _ ⟨⟩
      exact hcause
    simp only [Host.finalize_release, Host.call_bind, Host.call_done]
    refine Host.call_tracks hc hz hown fun Γ₁ i _ hi ↦ ?_
    refine hi.build_tracks hp hc hown fun Γ₂ n n' _ hn ↦ ?_
    refine .bind (hr b hn hcontext) fun Γ₃ o _ ho ↦ .pure ?_
    rcases o with cause | v
    · exact hown cause ho
    · exact nofun

theorem invoke_tracks (s : ScopeId) {f f' : Finalizer S} (hf : f.Congruent G Γ f') :
    Tracks G Γ (fun i k ↦ (p'.host (C i)).invoke (R i k) s f') ((p.host c).invoke release s f)
      fun _ o ↦ G.OwnsOutcome o := by
  refine .alter (fun w w' hw ↦ hw.record (.invoked s hf)) ?_
  refine .bind (finalize_tracks hp hc hr hf).guard fun Γ' x hΓ hx ↦ ?_
  refine .alter (fun w w' hw ↦ hw.record (.ended s (hf.mono hΓ) _)) (.pure ?_)
  cases x with
  | ok o => exact hx.1 o rfl
  | error d =>
    rintro _ ⟨⟩
    exact hx.2 d rfl

theorem invokeAll_tracks (s : ScopeId) {fs fs' : List (Finalizer S)}
    (hfs : List.Forall₂ (Finalizer.Congruent G Γ) fs fs') :
    Tracks G Γ (fun i k ↦ (p'.host (C i)).invokeAll (R i k) s fs')
      ((p.host c).invokeAll release s fs) fun _ causes ↦ ∀ cause ∈ causes, G.Owns cause := by
  induction fs generalizing Γ fs' with
  | nil =>
    cases hfs
    exact .pure nofun
  | cons f fs ih =>
    cases hfs with
    | cons hf hfs =>
      refine .bind (invoke_tracks hp hc hr s hf) fun Γ' o hΓ ho ↦ ?_
      have hrest := ih (hfs.imp fun _ _ hf ↦ hf.mono hΓ)
      rcases o with cause | ⟨⟩
      · refine .bind hrest fun Γ'' causes _ hcauses ↦ .pure ?_
        exact List.forall_mem_cons.mpr ⟨ho cause rfl, hcauses⟩
      · exact hrest

theorem shut_tracks (s : ScopeId) :
    Tracks G Γ (fun i k ↦ (p'.host (C i)).shut (R i k) s) ((p.host c).shut release s)
      fun _ o ↦ G.OwnsOutcome o := by
  refine .look_related (R := fun scope scope' ↦ scope'.closed = scope.closed ∧
    List.Forall₂ (Finalizer.Congruent G Γ) scope.finalizers scope'.finalizers)
    (fun w w' hw ↦ ⟨hw.closed s, hw.finalizers s⟩) fun scope scope' hscope ↦ ?_
  obtain ⟨hclosed, hfinalizers⟩ := hscope
  simp only [hclosed]
  cases scope.closed with
  | true => exact .pure nofun
  | false =>
    refine .alter (fun w w' hw ↦ hw.shutScope s) ?_
    refine .bind (invokeAll_tracks hp hc hr s hfinalizers) fun Γ' causes _ hcauses ↦ ?_
    refine .alter (fun w w' hw ↦ hw.record (.refl _)) ?_
    cases causes with
    | nil => exact .pure nofun
    | cons cause causes =>
      refine .pure ?_
      rintro _ ⟨⟩
      exact Regime.owns_composite.mpr hcauses

omit hr in
/-- Evaluating related nodes in a fresh scope. -/
theorem evaluateWith_tracks (fuel : Nat) {n n' : Node S}
    (hn : Plan.Congruent G Γ t (.node n) (.node n')) {context : Context}
    (hcontext : context.Suits G) (b : BudgetId) :
    Tracks G Γ (fun i k ↦ p'.evaluateWith (C i) k n' context b)
      (p.evaluateWith c fuel n context b) fun _ o ↦ G.Keeps t o :=
  .inScope hc fun root ↦ trackedUpTo hp hc b fuel (Nat.le_refl fuel) hn context root hcontext

end

/-- Closing scopes is tracked, however deep closings nest. -/
theorem closeScope_tracks (hp : p.Congruent G p') (depth : Nat) :
    Closer.Tracks G p'.closeScope (p.closeScope depth) := by
  induction depth with
  | zero => exact fun _ _ ↦ .exhausted
  | succ depth ih =>
    intro Γ s
    -- a release effect is run with scopes that close one level less deep
    have hr : Releaser.Tracks G (fun i k ↦ p'.evaluateWith (p'.closeScope i) k)
        (p.evaluateWith (p.closeScope depth) depth) :=
      fun b hn hcontext ↦ evaluateWith_tracks hp ih depth hn hcontext b
    exact (shut_tracks hp ih hr s).diagonal fun _ ↦ rfl

end

/-! ### Worlds -/

section

variable {G : Regime S} {Γ : List Ty}

/-- What waits in a typed world is related to itself. -/
theorem Finalizer.Typed.congruent {f : Finalizer S} (h : f.Typed G Γ) : f.Congruent G Γ f := by
  cases f with
  | cleanup c => exact .cleanup h
  | release build context b =>
    refine .release h.1 ⟨_, build, id, id, (Action.bind_done _).symm, (Action.bind_done _).symm, ?_⟩
    exact h.2.post fun _ _ _ hp ↦ .forget hp.congruent

/-- A typed world is related to itself. -/
theorem World.Typed.congruent {w : World S} (h : w.Typed G Γ) : w.Congruent G Γ w where
  typed := ⟨h.state, h.size, h.slots, by rintro ⟨i⟩ f hf; cases hf⟩
  state := rfl
  clock := rfl
  noise := rfl
  slots := rfl
  forks := rfl
  size := rfl
  closed _ := rfl
  finalizers s := List.forall₂_same.mpr fun f hf ↦ (h.finalizers s f hf).congruent
  history := List.forall₂_same.mpr fun e _ ↦ .refl e

end

/-! ### Runs -/

/-- Wherever the first computation ends, the second one ends with the same answer. The worlds that
they end in are alike, their histories and the slept durations included; where a release effect is
told about on one side, a related one is told about on the other. -/
def EndsAlike (G : Regime S) (Γ : List Ty) (w : World S) (M M' : Nat → Machine S α) : Prop :=
  ∀ x w₁, Ends M w x w₁ → ∃ Γ' w₂, Γ <+: Γ' ∧ Ends M' w x w₂ ∧ w₁.Congruent G Γ' w₂

namespace Interpreter

variable {G : Regime S} {p p' : Program S}

/-- The machine ends alike on related effects. -/
theorem endsAlike (hp : p.Congruent G p') (name : String) (traceSteps : Bool) {Γ : List Ty}
    {t : Promise} {n n' : Node S} (hn : Plan.Congruent G Γ t (.node n) (.node n'))
    {context : Context} (hcontext : context.Suits G) {w : World S} (hw : w.Congruent G Γ w) :
    EndsAlike G Γ w (fun fuel ↦ (plain p name traceSteps).interpret fuel n context)
      (fun fuel ↦ (plain p' name traceSteps).interpret fuel n' context) := by
  intro x w₁ hends
  obtain ⟨hx, fuel, v, heq, rfl⟩ :=
    (interpret_ends_iff_evaluate_ends p name traceSteps n context w x w₁).mp hends
  have hbudget := hw.withBudgets (w.newBudget {}).2.budgets (w.newBudget {}).2.budgets
  obtain ⟨Γ', v', N, hΓ, hv, -, hN⟩ := evaluateWith_tracks hp (closeScope_tracks hp fuel) fuel hn
    hcontext (w.newBudget {}).1 hbudget heq hx
  refine ⟨Γ', v'.uncounted, hΓ, ?_, hv.withBudgets {} {}⟩
  refine (interpret_ends_iff_evaluate_ends p' name traceSteps n' context w x _).mpr ?_
  exact ⟨hx, N, v', hN N (Nat.le_refl N) N (Nat.le_refl N), rfl⟩

/-- **The laws of sequencing.** To hand an element to a function is to build the effect that the
function answers with; to hand the elements of a well-typed effect to `succeed` changes nothing; a
sequence of three may be bracketed either way. Each law may be applied anywhere in an effect and in
the effects that the names of the program stand for (`Plan.Congruent`, `Program.Congruent`):
wherever the one effect ends, in whatever context, the other one ends with the same outcome, after
the same sleeps and with the same finalizers offered, accepted, invoked and ended in the same order.

Closures may read and write the application's state whenever they are called, and the states are
the same, so that the closures have been called in the same order. They may also panic, run for
ever or settle slots, and the effects may fail, be retried, raced or run in scopes of their own.
Contexts may bind keys to services of other types, as far as the regime puts up with that; it may
do so altogether (`Context.suits_of_mistyped`). -/
theorem sequencing_laws (hp : p.Congruent G p') (name : String) (traceSteps : Bool) :
    (∀ {Γ t a b} (x : Ty.El a) (f : a.El → Action S (Effect S b)), Effect.Supplies G Γ t (f x) →
      ((Effect.succeed x).flatMap f).Congruent G Γ t (.suspend (f x))) ∧
    (∀ {Γ a} (m : Effect S a), m.Typed G Γ →
      (m.flatMap fun x ↦ .done (.succeed x)).Congruent G Γ (some a) m) ∧
    (∀ {Γ s t u a b c} (m : Effect S a) (f : a.El → Action S (Effect S b))
      (g : b.El → Action S (Effect S c)), G.Takes s a → G.Takes t b → m.Congruent G Γ s m →
      (∀ x, Effect.Supplies G Γ t (f x)) → (∀ y, Effect.Supplies G Γ u (g y)) →
      ((m.flatMap f).flatMap g).Congruent G Γ u (m.flatMap fun x ↦ do return (← f x).flatMap g)) ∧
    ∀ {Γ t a} (e e' : Effect S a), e.Congruent G Γ t e' →
      ∀ (context : Context) (w : World S), context.Suits G → w.Congruent G Γ w →
        EndsAlike G Γ w (fun fuel ↦ (plain p name traceSteps).interpret fuel e.node context)
          (fun fuel ↦ (plain p' name traceSteps).interpret fuel e'.node context) ∧
        EndsAlike G Γ w (fun fuel ↦ (plain p' name traceSteps).interpret fuel e'.node context)
          (fun fuel ↦ (plain p name traceSteps).interpret fuel e.node context) := by
  refine ⟨fun x f hf ↦ ?_, fun m hm ↦ ?_, fun m f g ha hb hm hf hg ↦ ?_, ?_⟩
  · exact .succeed_flatMap (fun Γ' hΓ ↦ hf.proper hΓ) fun Γ' Γ'' e hΓ he ↦ hf.reaches hΓ he
  · exact .flatMap_succeed hm.node.congruent
  · exact .flatMap_flatMap ha hb hm (fun Γ' x hΓ ↦ (hf x).proper hΓ)
      (fun Γ' Γ'' x e hΓ he ↦ (hf x).reaches hΓ he) (fun Γ' y hΓ ↦ (hg y).proper hΓ)
      fun Γ' Γ'' y e hΓ he ↦ (hg y).reaches hΓ he
  · intro Γ t a e e' he context w hcontext hw
    exact ⟨endsAlike hp name traceSteps he hcontext hw,
      endsAlike hp.symm name traceSteps he.symm hcontext hw⟩

/-- It fails with a number. -/
def setback (n : Nat) : Effect Tally .unit := .fail n

/-- It adds one to the state. -/
def increment : Effect Tally .unit := .sync (.read fun k ↦ .write (k + 1) (.done ()))

/-- It builds an effect that fails until the state has reached two. -/
def reluctant (_ : Unit) : Action Tally (Effect Tally .unit) :=
  .read fun k ↦ .done (if k < 2 then setback 7 else increment)

/-- It panics. -/
def hopeless (_ : Unit) : Action Tally (Effect Tally .unit) := .panic .payload

/-- An effect that is retried in a race, and an effect that is run when the race is over. -/
def surrounding (e last : Effect Tally .unit) : Effect Tally .unit :=
  (Effect.race [setback 1, e.retry .immediate]).ensuring last

theorem typed_setback {G : Regime Tally} {Γ : List Ty} (n : Nat) : (setback n).Typed G Γ :=
  Effect.typed_fail (S := Tally) n

theorem surrounding_congruent {G : Regime Tally} {e e' last last' : Effect Tally .unit}
    (h : e.Congruent G [] (some .unit) e') (hlast : last.Congruent G [] none last')
    (hplan : last.plan = .node last.node) (hplan' : last'.plan = .node last'.node) :
    (surrounding e last).Congruent G [] (some .unit) (surrounding e' last') := by
  have himmediate : (Schedule.immediate : Schedule Tally).Proper G [] :=
    Schedule.proper_of_rules fun accepts hmem ↦ by
      rw [Schedule.immediate, Schedule.ofBackoff, List.mem_singleton] at hmem
      cases hmem
  refine .ensuring ?_ (by rw [hplan, hplan']; exact hlast)
  refine Effect.Congruent.race
    [(setback 1, setback 1), (e.retry .immediate, e'.retry .immediate)] (l := Prod.fst)
    (r := Prod.snd) fun i hi ↦ ?_
  rcases List.mem_cons.mp hi with rfl | hi
  · exact (typed_setback 1).node.congruent
  · rw [List.mem_singleton.mp hi]
    exact h.retry himmediate

/-- Three in a row, bracketed to the left, in a race, and an element handed on when it is over. -/
def bracketedLeft : Effect Tally .unit :=
  surrounding ((increment.flatMap reluctant).flatMap hopeless)
    ((Effect.succeed (a := .unit) ()).flatMap fun _ ↦ .done increment)

/-- Three in a row, bracketed to the right, in a race, and an effect built when it is over. -/
def bracketedRight : Effect Tally .unit :=
  surrounding (increment.flatMap fun x ↦ do return (← reluctant x).flatMap hopeless)
    (.suspend (.done increment))

theorem typed_increment : increment.Typed tallyRegime [] :=
  Effect.typed_sync (.of_proper fun _ _ ↦ fun _ _ ↦ ⟨trivial, trivial⟩)

theorem supplies_reluctant (x : Unit) :
    Effect.Supplies tallyRegime [] (some .unit) (reluctant x) := by
  intro Γ _
  refine ⟨fun _ _ ↦ trivial, ?_⟩
  rintro _ _ ⟨k, -, rfl, rfl⟩
  split
  · exact (typed_setback 7).congruent
  · exact (typed_increment.mono List.nil_prefix).congruent

/-- The panic is reported after both branches have failed, and the state has been counted up to
four. -/
theorem interpret_bracketedLeft : ∃ c w,
    (plain tally "laws" false).interpret 28 bracketedLeft.node .empty tallyWorld =
      (.ok (.error c), w) ∧ w.state = 4 := by
  have hfails : ((plain tally "laws" false).interpret 28 bracketedLeft.node .empty
      tallyWorld).1.toOption.map Except.isOk = some false := by
    decide +kernel
  have hstate : ((plain tally "laws" false).interpret 28 bracketedLeft.node .empty
      tallyWorld).2.state = 4 := by
    decide +kernel
  rcases hrun : (plain tally "laws" false).interpret 28 bracketedLeft.node .empty tallyWorld with
    ⟨e | c | v, w⟩
  · rw [hrun] at hfails
    cases hfails
  · rw [hrun] at hstate
    exact ⟨c, w, rfl, hstate⟩
  · rw [hrun] at hfails
    cases hfails

/-- Both are retried once, panic, add one at the end and report both branches. -/
theorem sequencing_laws_bracketed :
    tally.Congruent tallyRegime tally ∧
      bracketedLeft.Congruent tallyRegime [] (some .unit) bracketedRight ∧
      ∃ c w₁ Γ w₂,
        EffectMachine.Ends
          (fun fuel ↦ (plain tally "laws" false).interpret fuel bracketedLeft.node .empty)
          tallyWorld (.ok (.error c)) w₁ ∧
        EffectMachine.Ends
          (fun fuel ↦ (plain tally "laws" false).interpret fuel bracketedRight.node .empty)
          tallyWorld (.ok (.error c)) w₂ ∧
        w₁.Congruent tallyRegime Γ w₂ ∧ w₁.state = 4 := by
  have hp : tally.Congruent tallyRegime tally := tally_respects.congruent
  obtain ⟨hsucceed, -, hassoc, hends⟩ := sequencing_laws hp "laws" false
  have hhopeless : ∀ x, Effect.Supplies tallyRegime [] (some .unit) (hopeless x) := fun _ ↦ .panic
  have hcongruent : bracketedLeft.Congruent tallyRegime [] (some .unit) bracketedRight := by
    refine surrounding_congruent ?_ ?_ rfl rfl
    · exact hassoc increment reluctant hopeless (.inl rfl) (.inl rfl)
        typed_increment.node.congruent supplies_reluctant hhopeless
    · exact .forget (hsucceed (a := .unit) () (fun _ ↦ .done increment)
        (.done fun _ hΓ ↦ (typed_increment.mono hΓ).congruent))
  obtain ⟨c, w₁, hrun, hstate⟩ := interpret_bracketedLeft
  have hleft : EffectMachine.Ends
      (fun fuel ↦ (plain tally "laws" false).interpret fuel bracketedLeft.node .empty)
      tallyWorld (.ok (.error c)) w₁.uncounted := ⟨nofun, 28, w₁, hrun, rfl⟩
  obtain ⟨Γ, w₂, -, hright, hw⟩ := (hends _ _ hcongruent .empty tallyWorld Context.suits_empty
    typed_tallyWorld.congruent).1 _ _ hleft
  exact ⟨hp, hcongruent, c, _, Γ, w₂, hleft, hright, hw, hstate⟩

end Interpreter

end EffectMachine
