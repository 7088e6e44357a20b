import EffectMachine.Proofs.Calls
import EffectMachine.Proofs.Restating

/-!
# Computations that shadow each other

Two effects that are the same up to restated panics spend different amounts of fuel, since a failure
that is returned is evaluated and a panic is not. But what is returned has no parts. So one more
unit of fuel, at the outset, makes up for all panics that the second effect restates, however many
there are and however deep they lie.

So it is enough to relate single computations. One computation *shadows* another one if from related
worlds it answers whatever the other one answers, and leads to a related world (`Machine.Shadows`).
Nothing is asked of it where the other one is out of fuel. Evaluation with one more unit of fuel
shadows evaluation (`evaluate_shadows`), and there is one lemma for each kind of node.

**Where the two sides differ** is in what follows the requests of a call: a panic on the one side, a
returned failure on the other. Everything else is a matter of shadowing part by part.
-/

namespace EffectMachine

variable {S : Signature} {α β γ : Type}

/-- Whatever the first computation answers, the second one answers the same from every related
world, and the worlds that they lead to are related. -/
def Machine.Shadows (W : World S → World S → Prop) (m m' : Machine S α) : Prop :=
  ∀ ⦃w w' x w₁⦄, W w w' → m w = (x, w₁) → x ≠ .error .exhausted →
    ∃ w₁', m' w' = (x, w₁') ∧ W w₁ w₁'

open Machine (Shadows)

namespace Machine.Shadows

variable {W : World S → World S → Prop} {m m' : Machine S α} {f f' : α → Machine S β}

theorem pure (a : α) : Shadows W (Pure.pure a) (Pure.pure a) := by
  rintro w w' _ _ hw ⟨⟩ -
  exact ⟨w', rfl, hw⟩

theorem panic (q : Panic) : Shadows W (escape (.panic q) : Machine S α) (escape (.panic q)) := by
  rintro w w' _ _ hw ⟨⟩ -
  exact ⟨w', rfl, hw⟩

/-- Nothing is asked where the first computation is out of fuel. -/
theorem exhausted (m' : Machine S α) : Shadows W (escape .exhausted) m' := by
  rintro w w' _ _ - ⟨⟩ hx
  exact absurd rfl hx

theorem bind (h : Shadows W m m') (hf : ∀ a, Shadows W (f a) (f' a)) :
    Shadows W (m >>= f) (m' >>= f') := by
  intro w w' y w₂ hw heq hy
  rcases bind_eq heq with ⟨a, w₁, hm, ha⟩ | ⟨e, hm, rfl⟩
  · obtain ⟨w₁', hm', hw₁⟩ := h hw hm nofun
    obtain ⟨w₂', ha', hw₂⟩ := hf a hw₁ ha hy
    exact ⟨w₂', (bind_ok hm' f').trans ha', hw₂⟩
  · obtain ⟨w₁', hm', hw₁⟩ := h hw hm (Escape.ne_exhausted hy)
    exact ⟨w₁', bind_error hm' f', hw₁⟩

/-- A change of both worlds that yields the same. -/
theorem change {g k : World S → α × World S}
    (hg : ∀ w w', W w w' → (k w').1 = (g w).1 ∧ W (g w).2 (k w').2) :
    Shadows W (modifyGet g) (modifyGet k) := by
  rintro w w' _ _ hw ⟨⟩ -
  obtain ⟨hyields, hw₁⟩ := hg w w' hw
  exact ⟨(k w').2, by rw [modifyGet_apply, hyields], hw₁⟩

/-- A look at both worlds, which shows the same. -/
theorem look {g : World S → α} (hg : ∀ w w', W w w' → g w' = g w) :
    Shadows W (gets g) (gets g) := by
  rintro w w' _ _ hw ⟨⟩ -
  exact ⟨w', by rw [gets_apply, hg w w' hw], hw⟩

/-- A look at both worlds, which shows what is related. -/
theorem look_related {g : World S → α} {R : α → α → Prop} (hg : ∀ w w', W w w' → R (g w) (g w'))
    (hf : ∀ a a', R a a' → Shadows W (f a) (f' a')) :
    Shadows W (gets g >>= f) (gets g >>= f') :=
  fun w w' _ _ hw heq hy ↦ hf _ _ (hg w w' hw) hw heq hy

/-- A change of both worlds without a result. -/
theorem alter {g k : World S → World S} (hg : ∀ w w', W w w' → W (g w) (k w')) :
    Shadows W (modify g) (modify k) := by
  rintro w w' _ _ hw ⟨⟩ -
  exact ⟨k w', rfl, hg w w' hw⟩

/-- A guard turns panics into the same defect. -/
theorem guard (h : Shadows W m m') : Shadows W m.guard m'.guard := by
  intro w w' y w₁ hw heq hy
  rw [guard_apply] at heq
  obtain ⟨rfl, rfl⟩ := Prod.mk.inj heq
  rcases hm : m w with ⟨x, w₁⟩
  rw [hm] at hy
  obtain ⟨w₁', hm', hw₁⟩ := h hw hm fun hx ↦ hy (by rw [hx]; rfl)
  exact ⟨w₁', by rw [guard_apply, hm'], hw₁⟩

/-- A failure skips what follows a value. -/
theorem onValue {m m' : Machine S (Outcome S.Error α)}
    {k k' : α → Machine S (Outcome S.Error β)} (h : Shadows W m m')
    (hk : ∀ a, Shadows W (k a) (k' a)) : Shadows W (m.onValue k) (m'.onValue k') := by
  refine .bind h fun o ↦ ?_
  cases o with
  | error c => exact .pure _
  | ok a => exact hk a

end Machine.Shadows

/-- A closer shadows another one. -/
def Closer.Shadows (W : World S → World S → Prop) (c c' : Closer S) : Prop :=
  ∀ s, Machine.Shadows W (c s) (c' s)

/-- A closer has nothing to report of a scope that is open and empty. -/
def Closer.Dismisses (c : Closer S) : Prop :=
  ∀ ⦃w : World S⦄ ⦃s x w₁⦄, w.scope s = .fresh → c s w = (x, w₁) →
    x = .error .exhausted ∨ x = .ok (.ok ())

variable {p p' : Program S} {c c' : Closer S}

/-- Doing something in a fresh scope. -/
theorem Machine.Shadows.inScope (hc : Closer.Shadows (World.Restates p p') c c')
    {body body' : ScopeId → Machine S (Outcome S.Error α)}
    (hb : ∀ s, Shadows (World.Restates p p') (body s) (body' s)) :
    Shadows (World.Restates p p') (Machine.inScope c body) (Machine.inScope c' body') :=
  .bind (.change fun _ _ hw ↦ hw.enterScope) fun s ↦
    .bind (hb s) fun _ ↦ .bind (hc s) fun _ ↦ .pure _

/-! ### Closures -/

namespace Host

/-- A closure is shadowed by itself. -/
theorem perform_shadows {h g : Host S}
    (hc : Closer.Shadows (World.Restates p p') h.close g.close) (x : Action S α) :
    Shadows (World.Restates p p') (h.perform x) (g.perform x) := by
  induction x with
  | done a => exact .pure a
  | panic q => exact .panic q
  | read k ih =>
    simp only [perform_read]
    exact .bind (.look fun _ _ hw ↦ hw.state) ih
  | write s k ih =>
    simp only [perform_write]
    exact .bind (.alter fun _ _ hw ↦ hw.withState s) fun _ ↦ ih
  | now k ih =>
    simp only [perform_now]
    exact .bind (.look fun _ _ hw ↦ by rw [hw.clock]) ih
  | advance d k ih =>
    simp only [perform_advance]
    exact .bind (.alter fun _ _ hw ↦ hw.withClock _) fun _ ↦ ih
  | sleep d k ih =>
    simp only [perform_sleep]
    exact .bind (.alter fun _ _ hw ↦ hw.withClock _) fun _ ↦ ih
  | draw k ih =>
    simp only [perform_draw]
    exact .bind (.change fun _ _ hw ↦ hw.draw) ih
  | openScope k ih =>
    simp only [perform_openScope]
    exact .bind (.change fun _ _ hw ↦ hw.openScope) ih
  | addCleanup s c k ih =>
    simp only [perform_addCleanup]
    exact .bind (.change fun _ _ hw ↦ hw.addFinalizer s (.cleanup c)) ih
  | closeScope s k ih =>
    simp only [perform_closeScope]
    exact .bind (hc s) ih
  | inspect s k ih =>
    simp only [perform_inspect]
    exact .bind (.look fun _ _ hw ↦ hw.scopes.status s) ih
  | settle s o k ih =>
    simp only [perform_settle]
    exact .bind (.change fun _ _ hw ↦ hw.settle s o) ih
  | take s k ih =>
    simp only [perform_take]
    exact .bind (.change fun _ _ hw ↦ hw.takeOutcome s) ih

theorem attempt_shadows {h g : Host S}
    (hc : Closer.Shadows (World.Restates p p') h.close g.close) (x : Action S α) :
    Shadows (World.Restates p p') (h.attempt x) (g.attempt x) :=
  (perform_shadows hc x).guard

/-- A closure is shadowed by itself, given that what follows is. -/
theorem call_shadows {h g : Host S}
    (hc : Closer.Shadows (World.Restates p p') h.close g.close) (x : Action S α)
    {k k' : α → Machine S (Outcome S.Error β)}
    (hk : ∀ a, Shadows (World.Restates p p') (k a) (k' a)) :
    Shadows (World.Restates p p') (h.call x k) (g.call x k') := by
  refine .bind (attempt_shadows hc x) fun r ↦ ?_
  cases r with
  | error d => exact .pure _
  | ok a => exact hk a

end Host

section

variable (hp : p.Restates p') (hc : Closer.Shadows (World.Restates p p') c c')

/-- A closure is shadowed by itself, on another host too. -/
theorem Program.attempt_shadows (hc : Closer.Shadows (World.Restates p p') c c')
    (x : Action S α) :
    Shadows (World.Restates p p') ((p.host c).attempt x) ((p'.host c').attempt x) :=
  Host.attempt_shadows (h := p.host c) (g := p'.host c') hc x

include hp hc

/-- Related effects are built by the same requests, and the nodes that are built are related. -/
theorem Plan.Restates.build_shadows {q q' : Plan S} (h : q.Restates p p' q')
    {k k' : Node S → Machine S (Outcome S.Error β)}
    (hk : ∀ n n', n.Restates p p' n' → Shadows (World.Restates p p') (k n) (k' n')) :
    Shadows (World.Restates p p') ((p.host c).call (p.build q) k)
      ((p'.host c').call (p'.build q') k') := by
  obtain ⟨d, rfl, rfl⟩ | ⟨n, n', rfl, rfl, hn⟩ := h.named_or_node
  · obtain ⟨ι, z, l, r, hl, hr, hlr⟩ := hp.effect d
    simp only [Program.build, hl, hr, Host.call_bind, Host.call_done]
    exact Host.call_shadows (h := p.host c) (g := p'.host c') hc z fun i ↦ hk _ _ (hlr i)
  · exact hk n n' hn

omit hp in
/-- Calls that make the same requests, given what comes of the different ways to end them. -/
theorem Action.Aligned.call_shadows {ι : Type} {build build' : α → Action S β}
    {stop : Panic → Action S α} {die : Panic → α} {like : α → α → Prop} {z : Action S ι}
    {l r : ι → Except Panic α} {x x' : Action S α}
    (h : Action.Aligned build build' stop die like z l r x x')
    {k k' : β → Machine S (Outcome S.Error γ)}
    (hk : ∀ i a a', l i = .ok a → r i = .ok a' → like a a' →
      Shadows (World.Restates p p') ((p.host c).call (build a) k)
        ((p'.host c').call (build' a') k'))
    (hdies : ∀ q, Shadows (World.Restates p p')
      ((p.host c).call (stop q) fun a ↦ (p.host c).call (build a) k)
      ((p'.host c').call (build' (die q)) k'))
    (hdied : ∀ q, Shadows (World.Restates p p') ((p.host c).call (build (die q)) k)
      ((p'.host c').call (stop q) fun a ↦ (p'.host c').call (build' a) k')) :
    Shadows (World.Restates p p') ((p.host c).call x fun a ↦ (p.host c).call (build a) k)
      ((p'.host c').call x' fun a ↦ (p'.host c').call (build' a) k') := by
  rw [← Host.call_bind, ← Host.call_bind, h.left, h.right]
  simp only [Host.call_bind]
  refine Host.call_shadows (h := p.host c) (g := p'.host c') hc z fun i ↦ ?_
  have hends := h.ends i
  have hki := hk i
  revert hends hki
  generalize l i = e
  generalize r i = e'
  intro hends hki
  cases hends with
  | ok hlike => exact hki _ _ rfl rfl hlike
  | dies q => exact hdies q
  | died q => exact hdied q

end

/-- A failure is shadowed by an effect that returns it, and evaluated with some fuel. -/
theorem shadows_fail (c' : Closer S) (b : BudgetId) (fuel : Nat) (cause : Cause S.Error)
    (context : Context) (scope : ScopeId) : Shadows (World.Restates p p') (pure (.error cause))
      ((p'.host c').evaluate b (fuel + 1) (.fail cause) context scope) := by
  simp only [Host.evaluate]
  exact .pure _

/-- An effect that returns a failure is shadowed by the failure. -/
theorem fail_shadows (c : Closer S) (b : BudgetId) (fuel : Nat) (cause : Cause S.Error)
    (context : Context) (scope : ScopeId) : Shadows (World.Restates p p')
      ((p.host c).evaluate b fuel (.fail cause) context scope) (pure (.error cause)) := by
  cases fuel with
  | zero =>
    rw [Host.evaluate_zero]
    exact .exhausted _
  | succ fuel =>
    simp only [Host.evaluate]
    exact .pure _

theorem Program.follow_eq_call (p : Program S) (c : Closer S) (b : BudgetId) (fuel : Nat)
    (context : Context) (scope : ScopeId) (s : Step S) :
    (p.host c).follow b fuel context scope s =
      (p.host c).call (p.control s) ((p.host c).proceed b fuel context scope) :=
  (p.host c).follow_eq_call b fuel context scope s

/-! ### Node by node -/

/-- Evaluating a node with this much fuel is shadowed by evaluating the other one with one more unit
of fuel. -/
def Node.Shadowed (p p' : Program S) (c c' : Closer S) (b : BudgetId) (fuel : Nat)
    (n n' : Node S) : Prop :=
  ∀ context scope, Shadows (World.Restates p p') ((p.host c).evaluate b fuel n context scope)
    ((p'.host c').evaluate b (fuel + 1) n' context scope)

/-- Related nodes are shadowed with this much fuel. -/
def Program.ShadowedWith (p p' : Program S) (c c' : Closer S) (b : BudgetId) (fuel : Nat) : Prop :=
  ∀ ⦃n n'⦄, Node.Restates p p' n n' → Node.Shadowed p p' c c' b fuel n n'

namespace Node.Shadowed

variable {b : BudgetId} {fuel : Nat} {n n' : Node S} {ns ns' : List (Node S)}
  (hp : p.Restates p') (hc : Closer.Shadows (World.Restates p p') c c')
  (ih : p.ShadowedWith p' c c' b fuel)

theorem fail (cause : Cause S.Error) :
    Node.Shadowed p p' c c' b (fuel + 1) (.fail cause) (.fail cause) := by
  intro context scope
  simp only [Host.evaluate]
  exact .pure _

theorem service (k : Key) :
    Node.Shadowed p p' c c' b (fuel + 1) (.service k) (.service k) := by
  intro context scope
  simp only [Host.evaluate_service]
  cases context.find? k with
  | none => exact .pure _
  | some s => exact .pure _

theorem sleep (d : Duration) : Node.Shadowed p p' c c' b (fuel + 1) (.sleep d) (.sleep d) := by
  intro context scope
  simp only [Host.evaluate]
  exact .bind (.alter fun _ _ hw ↦ hw.withClock _) fun _ ↦ .pure _

theorem finalizer {x x' : Action S (Plan S)} (h : x.Restates p p' .panicApart x') :
    Node.Shadowed p p' c c' b (fuel + 1) (.finalizer x) (.finalizer x') := by
  intro context scope
  simp only [Host.evaluate]
  refine .bind (.change fun _ _ hw ↦ hw.addFinalizer scope (.release context b h)) fun r ↦ ?_
  rcases r with d | ⟨⟩
  · exact .pure _
  · exact .pure _

section

include hc

theorem pure (make : Action S Value) :
    Node.Shadowed p p' c c' b (fuel + 1) (.pure make) (.pure make) := by
  intro context scope
  simp only [Host.evaluate]
  exact .bind (Program.attempt_shadows hc make) fun _ ↦ .pure _

theorem async (start : SlotId → Action S Unit) :
    Node.Shadowed p p' c c' b (fuel + 1) (.async start) (.async start) := by
  intro context scope
  simp only [Host.evaluate]
  refine .bind (.change fun _ _ hw ↦ hw.newSlot) fun slot ↦ ?_
  refine .bind (Program.attempt_shadows hc (start slot)) fun r ↦ ?_
  rcases r with d | ⟨⟩
  · exact .pure _
  · exact .bind (.change fun _ _ hw ↦ hw.takeOutcome slot) fun _ ↦ .pure _

end

section

include ih

theorem timeout (h : n.Restates p p' n') (limit : Duration) :
    Node.Shadowed p p' c c' b (fuel + 1) (.timeout n limit) (.timeout n' limit) := by
  intro context scope
  simp only [Host.evaluate]
  refine .bind (.look fun _ _ hw ↦ by rw [hw.clock]) fun startedAt ↦ ?_
  refine .bind (ih h context scope) fun o ↦ ?_
  cases o with
  | error cause => exact .pure _
  | ok v => exact .bind (.look fun _ _ hw ↦ by rw [hw.clock]) fun elapsed ↦ .pure _

theorem evaluateAll (h : List.Forall₂ (Node.Restates p p') ns ns') (context : Context)
    (scope : ScopeId) : Shadows (World.Restates p p')
      (Host.evaluateAll ((p.host c).evaluate b fuel · context scope) ns)
      (Host.evaluateAll ((p'.host c').evaluate b (fuel + 1) · context scope) ns') := by
  induction h with
  | nil => exact .pure _
  | cons hn _ ihs =>
    refine .bind (ih hn context scope) fun o ↦ ?_
    cases o with
    | error cause => exact .pure _
    | ok v => exact .bind ihs fun _ ↦ .pure _

theorem evaluateFirst (h : List.Forall₂ (Node.Restates p p') ns ns')
    (failures : List (Cause S.Error)) (context : Context) (scope : ScopeId) :
    Shadows (World.Restates p p')
      (Host.evaluateFirst ((p.host c).evaluate b fuel · context scope) ns failures)
      (Host.evaluateFirst ((p'.host c').evaluate b (fuel + 1) · context scope) ns' failures) := by
  induction h generalizing failures with
  | nil => exact .pure _
  | cons hn _ ihs =>
    refine .bind (ih hn context scope) fun o ↦ ?_
    cases o with
    | error cause => exact ihs (failures ++ [cause])
    | ok v => exact .pure _

theorem race (h : List.Forall₂ (Node.Restates p p') ns ns') :
    Node.Shadowed p p' c c' b (fuel + 1) (.race ns) (.race ns') := by
  intro context scope
  cases h with
  | nil =>
    simp only [Host.evaluate]
    exact .pure _
  | @cons n n' ns ns' hn hns =>
    simp only [Host.evaluate, List.length_cons, hns.length_eq]
    exact .bind (.alter fun _ _ hw ↦ hw.withForks _) fun _ ↦
      evaluateFirst ih (.cons hn hns) [] context scope

include hc

theorem parallel (collect : List Value → Action S (Except Defect Value))
    (h : List.Forall₂ (Node.Restates p p') ns ns') :
    Node.Shadowed p p' c c' b (fuel + 1) (.parallel ns collect) (.parallel ns' collect) := by
  intro context scope
  simp only [Host.evaluate, h.length_eq]
  refine .bind (.alter fun _ _ hw ↦ hw.withForks _) fun _ ↦ ?_
  refine .bind (evaluateAll ih h context scope) fun o ↦ ?_
  cases o with
  | error cause => exact .pure _
  | ok vs =>
    refine .bind (Program.attempt_shadows hc (collect vs)) fun r ↦ ?_
    rcases r with d | d | v
    · exact .pure _
    · exact .pure _
    · exact .pure _

theorem provide (layer : Layer S) (h : n.Restates p p' n') :
    Node.Shadowed p p' c c' b (fuel + 1) (.provide layer n) (.provide layer n') := by
  intro context scope
  simp only [Host.evaluate]
  refine .bind (Program.attempt_shadows hc (layer.build context)) fun r ↦ ?_
  rcases r with d | missing | context'
  · exact .pure _
  · exact .pure _
  · exact ih h context' scope

/-- The loop takes one more unit of fuel as well. -/
theorem evaluateRetry (schedule : Schedule S) (h : n.Restates p p' n') (context : Context)
    (scope : ScopeId) (startedAt rounds : Nat) (jitter : JitterSource) (attempt : Nat) :
    Shadows (World.Restates p p')
      ((p.host c).evaluateRetry ((p.host c).evaluate b fuel n context scope) schedule startedAt
        rounds jitter attempt)
      ((p'.host c').evaluateRetry ((p'.host c').evaluate b (fuel + 1) n' context scope) schedule
        startedAt (rounds + 1) jitter attempt) := by
  induction rounds generalizing jitter attempt with
  | zero => exact .exhausted _
  | succ rounds ihr =>
    rw [Host.evaluateRetry, Host.evaluateRetry]
    refine .bind (ih h context scope) fun o ↦ ?_
    -- only a bare error consults the schedule
    rcases o with (error | e | key | limit | causes | d) | v
    case error.fail =>
      refine .bind (.look fun _ _ hw ↦ by rw [hw.clock]) fun elapsed ↦ ?_
      refine .bind (Program.attempt_shadows hc _) fun r ↦ ?_
      rcases r with d | ⟨_ | delay, jitter⟩
      · exact .pure _
      · exact .pure _
      · exact .bind (.alter fun _ _ hw ↦ hw.withClock _) fun _ ↦ ihr jitter (attempt + 1)
    all_goals exact .pure _

theorem retry (schedule : Schedule S) (h : n.Restates p p' n') :
    Node.Shadowed p p' c c' b (fuel + 1) (.retry n schedule) (.retry n' schedule) := by
  intro context scope
  simp only [Host.evaluate]
  refine .bind (.look fun _ _ hw ↦ by rw [hw.clock]) fun startedAt ↦ ?_
  exact evaluateRetry hc ih schedule h context scope startedAt fuel schedule.source 0

end

include hp hc ih

/-- Calls of closures that build related effects, and visits of what is built. A panic is the
failure that a returned effect fails with in the end. -/
theorem call_visit {x x' : Action S (Plan S)} (h : x.Restates p p' .panic x')
    (context : Context) (scope : ScopeId) : Shadows (World.Restates p p')
      ((p.host c).call x ((p.host c).visit b fuel context scope))
      ((p'.host c').call x' ((p'.host c').visit b (fuel + 1) context scope)) := by
  obtain ⟨ι, z, l, r, hx, hq⟩ := h
  refine Action.Aligned.call_shadows hc hx (fun i q q' hl hr _ ↦ ?_) (fun q ↦ ?_) fun q ↦ ?_
  · exact (hq i q q' hl hr).build_shadows hp hc fun _ _ hn ↦ ih hn context scope
  · exact shadows_fail c' b fuel _ context scope
  · exact fail_shadows c b fuel _ context scope

theorem suspend {x x' : Action S (Plan S)} (h : x.Restates p p' .panic x') :
    Node.Shadowed p p' c c' b (fuel + 1) (.suspend x) (.suspend x') := by
  intro context scope
  simp only [Host.evaluate_suspend]
  exact call_visit hp hc ih h context scope

theorem recover (accepts : Cause S.Error → Action S Bool)
    {x x' : Cause S.Error → Action S (Plan S)} (hs : n.Restates p p' n')
    (h : ∀ cause, (x cause).Restates p p' .panic (x' cause)) :
    Node.Shadowed p p' c c' b (fuel + 1) (.recover n accepts x) (.recover n' accepts x') := by
  intro context scope
  simp only [Host.evaluate_recover]
  refine .bind (ih hs context scope) fun o ↦ ?_
  cases o with
  | ok v => exact .pure _
  | error cause =>
    refine .bind (Program.attempt_shadows hc (accepts cause)) fun r ↦ ?_
    rcases r with d | _ | _
    · exact .pure _
    · exact .pure _
    · exact call_visit hp hc ih (h cause) context scope

theorem region {x x' : ScopeId → Action S (Plan S)}
    (h : ∀ s, (x s).Restates p p' .panic (x' s)) :
    Node.Shadowed p p' c c' b (fuel + 1) (.region x) (.region x') := by
  intro context scope
  simp only [Host.evaluate_region]
  exact .inScope hc fun child ↦ call_visit hp hc ih (h child) context child

theorem bind {x x' : Value → Action S (Step S)} (hs : n.Restates p p' n')
    (h : ∀ v, Step.Restates p p' (x v) (x' v)) :
    Node.Shadowed p p' c c' b (fuel + 1) (.bind n x) (.bind n' x') := by
  intro context scope
  simp only [Host.evaluate_bind]
  refine (ih hs context scope).onValue fun v ↦ ?_
  obtain ⟨ι, z, l, r, hx, hq⟩ := h v
  rw [funext (p.follow_eq_call c b fuel context scope),
    funext (p'.follow_eq_call c' b (fuel + 1) context scope)]
  refine Action.Aligned.call_shadows hc hx (fun i s s' hl hr halike ↦ ?_) (fun q ↦ ?_) fun q ↦ ?_
  · -- the continuations answer alike, so that three of the nine cases are left
    cases s <;> cases s'
    case value.value =>
      obtain rfl := halike
      exact .pure _
    case failure.failure =>
      obtain rfl := halike
      exact .pure _
    case effect.effect q q' =>
      rw [← Program.follow_eq_call, ← Program.follow_eq_call]
      exact (hq i q q' hl hr).build_shadows hp hc fun _ _ hn ↦ ih hn context scope
    all_goals exact halike.elim
  · exact shadows_fail c' b fuel _ context scope
  · exact fail_shadows c b fuel _ context scope

/-- A node is shadowed by itself. -/
theorem self (n : Node S) : n.Shadowed p p' c c' b (fuel + 1) n := by
  have hplans : ∀ stop (x : Action S (Plan S)), x.Restates p p' stop x := .refl
  have hnodes : ∀ ns : List (Node S), List.Forall₂ (Node.Restates p p') ns ns :=
    fun ns ↦ List.forall₂_same.mpr fun _ _ ↦ .refl _
  cases n with
  | pure make => exact .pure hc make
  | fail cause => exact .fail cause
  | suspend x => exact .suspend hp hc ih (hplans _ x)
  | bind n x => exact .bind hp hc ih (.refl _) fun v ↦ .refl (x v)
  | service k => exact .service k
  | provide layer n => exact .provide hc ih layer (.refl _)
  | sleep d => exact .sleep d
  | async start => exact .async hc start
  | recover n accepts x => exact .recover hp hc ih accepts (.refl _) fun cause ↦ hplans _ (x cause)
  | parallel ns collect => exact .parallel hc ih collect (hnodes ns)
  | race ns => exact .race ih (hnodes ns)
  | retry n schedule => exact .retry hc ih schedule (.refl _)
  | region x => exact .region hp hc ih fun s ↦ hplans _ (x s)
  | finalizer x => exact .finalizer (hplans _ x)
  | timeout n limit => exact .timeout ih (.refl _) limit

end Node.Shadowed

/-- Lists made from the same indices by related functions are related. -/
theorem Node.restates_map {ι : Type} {l r : ι → Node S} (is : List ι)
    (h : ∀ i, (l i).Restates p p' (r i)) :
    List.Forall₂ (Node.Restates p p') (is.map l) (is.map r) := by
  rw [List.forall₂_map_left_iff, List.forall₂_map_right_iff]
  exact List.forall₂_same.mpr fun i _ ↦ h i

/-- Evaluation of related nodes is shadowed, however much fuel there is. -/
theorem evaluate_shadows (hp : p.Restates p') (hc : Closer.Shadows (World.Restates p p') c c')
    (b : BudgetId) (fuel : Nat) : p.ShadowedWith p' c c' b fuel := by
  induction fuel with
  | zero =>
    intro n n' _ context scope
    rw [Host.evaluate_zero]
    exact .exhausted _
  | succ fuel ih =>
    intro n n' h
    cases h with
    | refl => exact .self hp hc ih n
    | suspend hx h => exact .suspend hp hc ih ⟨_, _, _, _, hx, h⟩
    | bind hs hx h => exact .bind hp hc ih hs fun v ↦ ⟨_, _, _, _, hx v, h v⟩
    | provide layer h => exact .provide hc ih layer h
    | recover accepts hs hx h =>
      exact .recover hp hc ih accepts hs fun cause ↦ ⟨_, _, _, _, hx cause, h cause⟩
    | @parallel ι is l r collect h => exact .parallel hc ih collect (Node.restates_map is h)
    | @race ι is l r h => exact .race ih (Node.restates_map is h)
    | retry schedule h => exact .retry hc ih schedule h
    | region hx h => exact .region hp hc ih fun s ↦ ⟨_, _, _, _, hx s, h s⟩
    | finalizer hx h => exact .finalizer ⟨_, _, _, _, hx, h⟩
    | timeout limit h => exact .timeout ih h limit

end EffectMachine
