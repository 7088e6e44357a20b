import EffectMachine.Proofs.Discipline
import EffectMachine.Proofs.Refinement
import EffectMachine.Proofs.Scopes
import EffectMachine.Proofs.Termination

/-!
# Scopes that no closure is given

A closure may close any scope, and register named finalizers on any scope, that it has been given:
as the argument of a region's body, as the reply to opening one, or by way of the application's
state. Nothing is known about scopes that closures are given. But some scopes are given to nobody,
and these have to be left alone.

A `Custody` says which scopes are withheld, and what can then be said of states, named finalizers
and effects. `Action.Shuns` reads off the tree of requests that a closure addresses no withheld
scope, provided that it is given none.

`Machine.Spares` is what this means for computations: withheld scopes stay as open or as closed as
they were, and they lose no finalizer. One of them may be in force all the same, and then effects
register their release effects there, newest first; no other withheld scope gains a finalizer.

**Direct evaluation is looked at, not the machine.** It has no frames, and what it does the machine
does as well (`Covers.spares`).
-/

namespace EffectMachine

variable {S : Signature} {α β : Type}

/-! ### What shuns withheld scopes -/

/-- Scopes that closures are not given, and what that is said of. -/
structure Custody (S : Signature) where
  withheld : ScopeId → Prop
  /-- States that lead to no withheld scope. -/
  state : S.State → Prop
  /-- Named finalizers that closures register. -/
  cleanup : S.Cleanup → Prop
  /-- Effects that are interpreted. -/
  node : Node S → Prop

/-- The action addresses no withheld scope, unless a reply gives it one, and its results are as
said. -/
def Action.Shuns (K : Custody S) (Q : α → Prop) : Action S α → Prop
  | .done a => Q a
  | .panic _ => True
  | .read k => ∀ s, K.state s → (k s).Shuns K Q
  | .write s k => K.state s ∧ k.Shuns K Q
  | .now k => ∀ t, (k t).Shuns K Q
  | .advance _ k => k.Shuns K Q
  | .sleep _ k => k.Shuns K Q
  | .draw k => ∀ x, (k x).Shuns K Q
  | .openScope k => ∀ s, ¬K.withheld s → (k s).Shuns K Q
  | .addCleanup s c k => ¬K.withheld s ∧ K.cleanup c ∧ ∀ r, (k r).Shuns K Q
  | .closeScope s k => ¬K.withheld s ∧ ∀ o, (k o).Shuns K Q
  | .inspect _ k => ∀ st, (k st).Shuns K Q
  | .settle _ _ k => ∀ first, (k first).Shuns K Q
  | .take _ k => ∀ o, (k o).Shuns K Q

/-- The closures of an effect address no withheld scope, and the effects that they lead to are in
custody. -/
def Node.Shuns (K : Custody S) (p : Program S) : Node S → Prop
  | .pure make => make.Shuns K fun _ ↦ True
  | .suspend thunk => (p.building thunk).Shuns K K.node
  | .bind source next =>
    K.node source ∧ ∀ v, (p.continuing (next v)).Shuns K (Control.Holds K.node)
  | .provide layer inner => K.node inner ∧ ∀ c, (layer.build c).Shuns K fun _ ↦ True
  | .async start => ∀ s, (start s).Shuns K fun _ ↦ True
  | .recover source accepts handler => K.node source ∧ ∀ c,
    ((accepts c).Shuns K fun _ ↦ True) ∧ (p.building (handler c)).Shuns K K.node
  | .parallel branches collect =>
    (∀ n ∈ branches, K.node n) ∧ ∀ vs, (collect vs).Shuns K fun _ ↦ True
  | .race branches => ∀ n ∈ branches, K.node n
  | .retry source schedule => K.node source ∧
    ∀ jitter f, (schedule.decideFrom jitter f).Shuns K fun _ ↦ True
  | .region body => ∀ s, ¬K.withheld s → (p.building (body s)).Shuns K K.node
  | .finalizer release => (p.building release).Shuns K K.node
  | .timeout source _ => K.node source
  | .fail _ | .service _ | .sleep _ => True

/-- What a finalizer does when it is invoked addresses no withheld scope. -/
def Finalizer.Shuns (K : Custody S) (p : Program S) : Finalizer S → Prop
  | .cleanup c => K.cleanup c
  | .release build _ _ => (p.building build).Shuns K K.node

/-- Effects and named finalizers in custody address no withheld scope. -/
structure Custody.Binds (K : Custody S) (p : Program S) : Prop where
  node : ∀ n, K.node n → n.Shuns K p
  cleanup : ∀ c, K.cleanup c → (p.cleanup c).Shuns K fun _ ↦ True

/-- Nothing in the world leads to a withheld scope. All of them have been opened, so that no scope
that is opened from now on is withheld. -/
structure World.Guards (K : Custody S) (p : Program S) (w : World S) : Prop where
  state : K.state w.state
  awaits : w.Awaits (Finalizer.Shuns K p)
  opened : ∀ s, K.withheld s → s.index < w.scopes.size

/-- Withheld scopes are as open as before and lose no finalizer, and only those in `own` may gain
finalizers. -/
structure World.Spares (K : Custody S) (own : ScopeId → Prop) (w w' : World S) : Prop where
  closed : ∀ s, K.withheld s → (w'.scope s).closed = (w.scope s).closed
  finalizers : ∀ s, K.withheld s → ∃ more,
    (w'.scope s).finalizers = more ++ (w.scope s).finalizers ∧ (more = [] ∨ own s)

namespace World

theorem state_addFinalizer (w : World S) (s : ScopeId) (f : Finalizer S) :
    (w.addFinalizer s f).2.state = w.state := by
  unfold addFinalizer
  split <;> rfl

variable {K : Custody S} {p : Program S} {own : ScopeId → Prop} {w w₁ w' w'' : World S}

theorem Guards.congr (h : w.Guards K p) (hscopes : w'.scopes = w.scopes)
    (hstate : K.state w'.state) : w'.Guards K p where
  state := hstate
  awaits := h.awaits.congr hscopes
  opened s hs := by
    rw [hscopes]
    exact h.opened s hs

/-- A scope that is opened is not withheld. -/
theorem Guards.not_withheld (h : w.Guards K p) : ¬K.withheld w.openScope.1 := fun hs ↦
  Nat.lt_irrefl _ (h.opened _ hs)

namespace Spares

theorem of_scope (h : ∀ s, K.withheld s → w'.scope s = w.scope s) : w.Spares K own w' where
  closed s hs := by rw [h s hs]
  finalizers s hs := ⟨[], by rw [h s hs]; rfl, .inl rfl⟩

theorem of_scopes (h : w'.scopes = w.scopes) : w.Spares K own w' :=
  of_scope fun s _ ↦ scope_congr h s

theorem trans (h : w.Spares K own w') (h' : w'.Spares K own w'') : w.Spares K own w'' where
  closed s hs := (h'.closed s hs).trans (h.closed s hs)
  finalizers s hs := by
    obtain ⟨more, heq, hmore⟩ := h.finalizers s hs
    obtain ⟨more', heq', hmore'⟩ := h'.finalizers s hs
    refine ⟨more' ++ more, by rw [heq', heq, List.append_assoc], ?_⟩
    rcases hmore with rfl | hown
    · rcases hmore' with rfl | hown
      · exact .inl rfl
      · exact .inr hown
    · exact .inr hown

/-- A withheld scope that may not gain finalizers is what it was. -/
theorem scope_eq (h : w.Spares K own w') {s : ScopeId} (hs : K.withheld s) (hown : ¬own s) :
    w'.scope s = w.scope s := by
  have hclosed := h.closed s hs
  obtain ⟨more, heq, rfl | h'⟩ := h.finalizers s hs
  · rcases hw : w.scope s
    rcases hw' : w'.scope s
    rw [hw, hw'] at hclosed heq
    cases hclosed
    cases heq
    rfl
  · exact absurd h' hown

end Spares

/-- Opening a scope, for a run or a region or by a closure. -/
theorem Guards.openScope (h : w.Guards K p) : w.openScope.2.Guards K p where
  state := h.state
  awaits := h.awaits.openScope
  opened s hs := by
    rw [w.size_openScope]
    exact Nat.lt_succ_of_lt (h.opened s hs)

theorem Guards.spares_openScope (h : w.Guards K p) : w.Spares K own w.openScope.2 :=
  .of_scope fun s hs ↦ w.scope_openScope_of_lt (h.opened s hs)

/-- Offering a finalizer to a scope that is not withheld, or that may gain finalizers. -/
theorem Guards.addFinalizer (h : w.Guards K p) {s : ScopeId} (hs : K.withheld s → own s)
    {f : Finalizer S} (hf : f.Shuns K p) :
    (w.addFinalizer s f).2.Guards K p ∧ w.Spares K own (w.addFinalizer s f).2 := by
  refine ⟨⟨(w.state_addFinalizer s f).symm ▸ h.state, h.awaits.addFinalizer s hf,
    fun s' hs' ↦ ?_⟩, ?_⟩
  · rw [w.size_addFinalizer]
    exact h.opened s' hs'
  · cases hc : (w.scope s).closed with
    | true => exact .of_scope fun s' _ ↦ w.scope_addFinalizer_of_closed hc f s'
    | false =>
      have hself := w.scope_addFinalizer_self hc f
      refine ⟨fun s' _ ↦ ?_, fun s' hs' ↦ ?_⟩
      · by_cases heq : s' = s
        · rw [heq, hself]
          rfl
        · rw [w.scope_addFinalizer_of_ne heq]
      · by_cases heq : s' = s
        · rw [heq, hself]
          exact ⟨[f], rfl, .inr (hs (heq ▸ hs'))⟩
        · rw [w.scope_addFinalizer_of_ne heq]
          exact ⟨[], rfl, .inl rfl⟩

/-- Whether it is withheld or not, a scope that is shut leaves nothing that leads to withheld
scopes. -/
theorem Guards.shutScope (h : w.Guards K p) (s : ScopeId) : (w.shutScope s).Guards K p where
  state := h.state
  awaits := h.awaits.shutScope s
  opened s' hs' := by
    rw [w.size_shutScope]
    exact h.opened s' hs'

end World

/-! ### Computations that spare withheld scopes -/

/-- Begun in a world that leads to no withheld scope, the computation leaves such a world behind and
spares the withheld scopes, whether it yields a result or panics, and results are as said. Nothing
is said of a computation that runs out of fuel. -/
def Machine.Spares (K : Custody S) (p : Program S) (own : ScopeId → Prop) (m : Machine S α)
    (Q : α → Prop) : Prop :=
  ∀ ⦃w x w'⦄, m w = (x, w') → x ≠ .error .exhausted → w.Guards K p →
    w'.Guards K p ∧ w.Spares K own w' ∧ ∀ a, x = .ok a → Q a

open Machine (Spares)

namespace Machine.Spares

variable {K : Custody S} {p : Program S} {own : ScopeId → Prop} {m : Machine S α}
  {f : α → Machine S β} {Q Q' : α → Prop} {P : β → Prop}

theorem post (h : Spares K p own m Q) (hQ : ∀ a, Q a → Q' a) : Spares K p own m Q' :=
  fun _ _ _ heq hx hw ↦
    ⟨(h heq hx hw).1, (h heq hx hw).2.1, fun a ha ↦ hQ a ((h heq hx hw).2.2 a ha)⟩

theorem pure {a : α} (ha : Q a) : Spares K p own (Pure.pure a) Q := by
  rintro w _ _ ⟨⟩ - hw
  refine ⟨hw, .of_scopes rfl, ?_⟩
  rintro _ ⟨⟩
  exact ha

theorem escape {e : Escape} : Spares K p own (Machine.escape e) Q := by
  rintro w _ _ ⟨⟩ - hw
  exact ⟨hw, .of_scopes rfl, nofun⟩

theorem modifyGet {f : World S → α × World S}
    (hf : ∀ w, w.Guards K p → (f w).2.Guards K p ∧ w.Spares K own (f w).2) :
    Spares K p own (Machine.modifyGet f) fun a ↦ ∃ w : World S, w.Guards K p ∧ a = (f w).1 := by
  rintro w _ _ ⟨⟩ - hw
  refine ⟨(hf w hw).1, (hf w hw).2, ?_⟩
  rintro _ ⟨⟩
  exact ⟨w, hw, rfl⟩

/-- A change of the world that touches neither scopes nor the state. -/
theorem modify {f : World S → World S} (hscopes : ∀ w, (f w).scopes = w.scopes)
    (hstate : ∀ w, (f w).state = w.state) : Spares K p own (Machine.modify f) fun _ ↦ True :=
  (modifyGet (f := fun w ↦ ((), f w)) fun w hw ↦
    ⟨hw.congr (hscopes w) (hstate w ▸ hw.state), .of_scopes (hscopes w)⟩).post fun _ _ ↦ trivial

theorem gets (f : World S → α) :
    Spares K p own (Machine.gets f) fun a ↦ ∃ w : World S, w.Guards K p ∧ a = f w :=
  modifyGet (f := fun w ↦ (f w, w)) fun _ hw ↦ ⟨hw, .of_scopes rfl⟩

theorem openScope : Spares K p own (Machine.modifyGet World.openScope) fun s ↦ ¬K.withheld s := by
  refine (modifyGet fun w hw ↦ ⟨hw.openScope, hw.spares_openScope⟩).post ?_
  rintro _ ⟨w, hw, rfl⟩
  exact hw.not_withheld

theorem enterScope : Spares K p own (Machine.modifyGet World.enterScope) fun s ↦ ¬K.withheld s := by
  refine (modifyGet (f := World.enterScope) fun w hw ↦ ⟨hw.openScope.congr rfl hw.state,
    hw.spares_openScope.trans (.of_scopes rfl)⟩).post ?_
  rintro _ ⟨w, hw, rfl⟩
  exact hw.not_withheld

theorem bind (h : Spares K p own m Q) (hf : ∀ a, Q a → Spares K p own (f a) P) :
    Spares K p own (m >>= f) P := by
  intro w y w'' heq hy hw
  rcases bind_eq heq with ⟨a, w', hm, ha⟩ | ⟨e, hm, rfl⟩
  · obtain ⟨hw', hspares, hok⟩ := h hm nofun hw
    obtain ⟨hw'', hspares', hpost⟩ := hf a (hok a rfl) ha hy hw'
    exact ⟨hw'', hspares.trans hspares', hpost⟩
  · obtain ⟨hw', hspares, -⟩ := h hm (Escape.ne_exhausted hy) hw
    exact ⟨hw', hspares, nofun⟩

theorem guard (h : Spares K p own m Q) :
    Spares K p own m.guard fun x ↦ ∀ a, x = .ok a → Q a := by
  intro w y w' heq hy hw
  rw [guard_apply] at heq
  obtain ⟨rfl, rfl⟩ := Prod.mk.inj heq
  obtain ⟨hw', hspares, hok⟩ :=
    h (w := w) (x := (m w).1) rfl (fun hx ↦ hy (by rw [hx]; rfl)) hw
  refine ⟨hw', hspares, ?_⟩
  rintro x hx a rfl
  rcases hm : (m w).1 with (_ | _) | b <;> rw [hm] at hx <;> cases hx
  exact hok a hm

end Machine.Spares

/-- What a family does that covers a computation the computation does as well. -/
theorem Covers.spares {K : Custody S} {p : Program S} {own : ScopeId → Prop} {m : Machine S α}
    {M : Nat → Nat → Machine S α} {Q : α → Prop} (h : Covers M m)
    (hM : ∀ i n, Spares K p own (M i n) Q) : Spares K p own m Q := by
  intro w x w' heq hx hw
  obtain ⟨N, hN⟩ := h heq hx
  obtain ⟨w₁, heq₁, halike⟩ := hN N (Nat.le_refl N) N (Nat.le_refl N) w rfl
  obtain ⟨hw₁, hspares, hpost⟩ := hM N N heq₁ hx hw
  rw [halike.eq_with] at hw₁ hspares
  exact ⟨hw₁.congr rfl hw₁.state, hspares.trans (.of_scopes rfl), hpost⟩

/-! ### Closures -/

section Evaluation

variable {K : Custody S} {p : Program S} {own : ScopeId → Prop} {close : Closer S}
  (hclose : ∀ s, ¬K.withheld s → Spares K p own (close s) fun _ ↦ True)

section

include hclose

/-- A closure that addresses no withheld scope. -/
theorem perform_spares {a : Action S α} {Q : α → Prop} (ha : a.Shuns K Q) :
    Spares K p own ((p.host close).perform a) Q := by
  induction a with
  | done a => exact .pure ha
  | panic => exact .escape
  | read k ih =>
    rw [Host.perform_read]
    refine .bind (.gets _) fun s hs ↦ ?_
    obtain ⟨w, hw, rfl⟩ := hs
    exact ih _ (ha _ hw.state)
  | write s k ih =>
    rw [Host.perform_write]
    refine .bind (Q := fun _ ↦ True) ?_ fun _ _ ↦ ih ha.2
    exact (Spares.modifyGet (f := fun w ↦ ((), { w with state := s })) fun w hw ↦
      ⟨hw.congr rfl ha.1, .of_scopes rfl⟩).post fun _ _ ↦ trivial
  | now k ih =>
    rw [Host.perform_now]
    exact .bind (.gets _) fun t _ ↦ ih t (ha t)
  | advance d k ih =>
    rw [Host.perform_advance]
    exact .bind (.modify (fun _ ↦ rfl) fun _ ↦ rfl) fun _ _ ↦ ih ha
  | sleep d k ih =>
    rw [Host.perform_sleep]
    exact .bind (.modify (fun _ ↦ rfl) fun _ ↦ rfl) fun _ _ ↦ ih ha
  | draw k ih =>
    rw [Host.perform_draw]
    exact .bind (.modifyGet fun w hw ↦ ⟨hw.congr rfl hw.state, .of_scopes rfl⟩) fun x _ ↦
      ih x (ha x)
  | openScope k ih =>
    rw [Host.perform_openScope]
    exact .bind .openScope fun s hs ↦ ih s (ha s hs)
  | addCleanup s c k ih =>
    rw [Host.perform_addCleanup]
    exact .bind (.modifyGet fun w hw ↦
      hw.addFinalizer (f := .cleanup c) (fun hs ↦ absurd hs ha.1) ha.2.1) fun r _ ↦ ih r (ha.2.2 r)
  | closeScope s k ih =>
    rw [Host.perform_closeScope]
    exact .bind (hclose s ha.1) fun o _ ↦ ih o (ha.2 o)
  | inspect s k ih =>
    rw [Host.perform_inspect]
    exact .bind (.gets _) fun st _ ↦ ih st (ha st)
  | settle s o k ih =>
    rw [Host.perform_settle]
    exact .bind (.modifyGet fun w hw ↦ ⟨hw.congr rfl hw.state, .of_scopes rfl⟩) fun r _ ↦
      ih r (ha r)
  | take s k ih =>
    rw [Host.perform_take]
    exact .bind (.modifyGet fun w hw ↦ ⟨hw.congr rfl hw.state, .of_scopes rfl⟩) fun o _ ↦
      ih o (ha o)

theorem attempt_spares {a : Action S α} {Q : α → Prop} (ha : a.Shuns K Q) :
    Spares K p own ((p.host close).attempt a) fun x ↦ ∀ b, x = .ok b → Q b :=
  (perform_spares hclose ha).guard

theorem build_spares {a : Action S (Plan S)} (ha : (p.building a).Shuns K K.node) :
    Spares K p own ((p.host close).build a) (Built K.node) :=
  attempt_spares hclose ha

end

/-! ### Effects -/

section

variable {ev : Node S → Machine S (Outcome S.Error Value)}

theorem evaluateBuilt_spares (hev : ∀ n, K.node n → Spares K p own (ev n) fun _ ↦ True)
    {x : Except Defect (Node S)} (hx : Built K.node x) :
    Spares K p own (Host.evaluateBuilt ev x) fun _ ↦ True := by
  cases x with
  | ok n => exact hev n (hx n rfl)
  | error d => exact .pure trivial

theorem evaluateAll_spares {ns : List (Node S)}
    (hns : ∀ n ∈ ns, Spares K p own (ev n) fun _ ↦ True) :
    Spares K p own (Host.evaluateAll ev ns) fun _ ↦ True := by
  induction ns with
  | nil => exact .pure trivial
  | cons n ns ih =>
    obtain ⟨hn, hns⟩ := List.forall_mem_cons.1 hns
    refine .bind hn fun o _ ↦ ?_
    cases o with
    | error c => exact .pure trivial
    | ok v => exact .bind (ih hns) fun _ _ ↦ .pure trivial

theorem evaluateFirst_spares {ns : List (Node S)}
    (hns : ∀ n ∈ ns, Spares K p own (ev n) fun _ ↦ True) (failures : List (Cause S.Error)) :
    Spares K p own (Host.evaluateFirst ev ns failures) fun _ ↦ True := by
  induction ns generalizing failures with
  | nil => exact .pure trivial
  | cons n ns ih =>
    obtain ⟨hn, hns⟩ := List.forall_mem_cons.1 hns
    refine .bind hn fun o _ ↦ ?_
    cases o with
    | error c => exact ih hns _
    | ok v => exact .pure trivial

end

include hclose in
theorem evaluateRetry_spares {source : Machine S (Outcome S.Error Value)}
    (hsource : Spares K p own source fun _ ↦ True) {schedule : Schedule S}
    (hschedule : ∀ jitter f, (schedule.decideFrom jitter f).Shuns K fun _ ↦ True)
    (startedAt fuel : Nat) (jitter : JitterSource) (attempt : Nat) :
    Spares K p own ((p.host close).evaluateRetry source schedule startedAt fuel jitter attempt)
      fun _ ↦ True := by
  induction fuel generalizing jitter attempt with
  | zero => exact .escape
  | succ fuel ih =>
    simp only [Host.evaluateRetry]
    refine .bind hsource fun o _ ↦ ?_
    split
    · refine .bind (.gets _) fun elapsed _ ↦ ?_
      refine .bind (attempt_spares hclose (hschedule _ _)) fun x _ ↦ ?_
      rcases x with d | ⟨_ | delay, jitter⟩
      · exact .pure trivial
      · exact .pure trivial
      · exact .bind (.modify (fun _ ↦ rfl) fun _ ↦ rfl) fun _ _ ↦ ih _ _
    · exact .pure trivial

/-! ### Node by node -/

/-- In a scope that is not withheld, or that may gain finalizers, evaluating a node with this much
fuel spares the withheld scopes. -/
def Node.Spared (K : Custody S) (p : Program S) (own : ScopeId → Prop) (close : Closer S)
    (b : BudgetId) (fuel : Nat) (n : Node S) : Prop :=
  ∀ context {scope}, (K.withheld scope → own scope) →
    Spares K p own ((p.host close).evaluate b fuel n context scope) fun _ ↦ True

namespace Node.Spared

variable {b : BudgetId} {fuel : Nat} {n : Node S} {ns : List (Node S)}

theorem fail (cause : Cause S.Error) : Node.Spared K p own close b (fuel + 1) (.fail cause) := by
  intro context scope _
  simp only [Host.evaluate]
  exact .pure trivial

theorem service (key : Key) : Node.Spared K p own close b (fuel + 1) (.service key) := by
  intro context scope _
  simp only [Host.evaluate]
  split <;> exact .pure trivial

theorem sleep (d : Duration) : Node.Spared K p own close b (fuel + 1) (.sleep d) := by
  intro context scope _
  simp only [Host.evaluate]
  exact .bind (.modify (fun _ ↦ rfl) fun _ ↦ rfl) fun _ _ ↦ .pure trivial

/-- The only node that registers a finalizer on the scope in force. -/
theorem finalizer {release : Action S (Plan S)} (h : (Node.finalizer release).Shuns K p) :
    Node.Spared K p own close b (fuel + 1) (.finalizer release) := by
  intro context scope hscope
  simp only [Host.evaluate]
  refine .bind (.modifyGet fun w hw ↦
    hw.addFinalizer (f := .release release context b) hscope h) fun x _ ↦ ?_
  cases x <;> exact .pure trivial

theorem timeout (hn : n.Spared K p own close b fuel) (limit : Duration) :
    Node.Spared K p own close b (fuel + 1) (.timeout n limit) := by
  intro context scope hscope
  simp only [Host.evaluate]
  refine .bind (.gets _) fun startedAt _ ↦ ?_
  refine .bind (hn context hscope) fun o _ ↦ ?_
  cases o with
  | error c => exact .pure trivial
  | ok v => exact .bind (.gets _) fun _ _ ↦ .pure trivial

theorem race (hns : ∀ n ∈ ns, n.Spared K p own close b fuel) :
    Node.Spared K p own close b (fuel + 1) (.race ns) := by
  intro context scope hscope
  cases ns with
  | nil =>
    simp only [Host.evaluate]
    exact .pure trivial
  | cons n ns =>
    simp only [Host.evaluate]
    exact .bind (.modify (fun _ ↦ rfl) fun _ ↦ rfl) fun _ _ ↦
      evaluateFirst_spares (fun n hn ↦ hns n hn context hscope) _

include hclose

theorem pure {make : Action S Value} (h : (Node.pure make).Shuns K p) :
    Node.Spared K p own close b (fuel + 1) (.pure make) := by
  intro context scope _
  simp only [Host.evaluate]
  exact .bind (attempt_spares hclose h) fun _ _ ↦ .pure trivial

theorem async {start : SlotId → Action S Unit} (h : (Node.async start).Shuns K p) :
    Node.Spared K p own close b (fuel + 1) (.async start) := by
  intro context scope _
  simp only [Host.evaluate]
  refine .bind (.modifyGet fun w hw ↦ ⟨hw.congr rfl hw.state, .of_scopes rfl⟩) fun slot _ ↦ ?_
  refine .bind (attempt_spares hclose (h slot)) fun x _ ↦ ?_
  cases x with
  | error d => exact .pure trivial
  | ok u =>
    exact .bind (.modifyGet fun w hw ↦ ⟨hw.congr rfl hw.state, .of_scopes rfl⟩) fun _ _ ↦
      .pure trivial

theorem provide {layer : Layer S} (hn : n.Spared K p own close b fuel)
    (h : (Node.provide layer n).Shuns K p) :
    Node.Spared K p own close b (fuel + 1) (.provide layer n) := by
  intro context scope hscope
  simp only [Host.evaluate]
  refine .bind (attempt_spares hclose (h.2 context)) fun x _ ↦ ?_
  rcases x with d | missing | context'
  · exact .pure trivial
  · exact .pure trivial
  · exact hn context' hscope

theorem parallel {collect : List Value → Action S (Except Defect Value)}
    (hns : ∀ n ∈ ns, n.Spared K p own close b fuel) (h : (Node.parallel ns collect).Shuns K p) :
    Node.Spared K p own close b (fuel + 1) (.parallel ns collect) := by
  intro context scope hscope
  simp only [Host.evaluate]
  refine .bind (.modify (fun _ ↦ rfl) fun _ ↦ rfl) fun _ _ ↦ ?_
  refine .bind (evaluateAll_spares fun n hn ↦ hns n hn context hscope) fun o _ ↦ ?_
  cases o with
  | error c => exact .pure trivial
  | ok vs =>
    refine .bind (attempt_spares hclose (h.2 vs)) fun x _ ↦ ?_
    rcases x with d | d | v <;> exact .pure trivial

theorem retry {schedule : Schedule S} (hn : n.Spared K p own close b fuel)
    (h : (Node.retry n schedule).Shuns K p) :
    Node.Spared K p own close b (fuel + 1) (.retry n schedule) := by
  intro context scope hscope
  simp only [Host.evaluate]
  exact .bind (.gets _) fun startedAt _ ↦
    evaluateRetry_spares hclose (hn context hscope) h.2 _ _ _ _

/-! Closures that build effects: those effects are in custody. -/

variable (ih : ∀ n, K.node n → n.Spared K p own close b fuel)
include ih

/-- An effect that has been built is evaluated in the scope in force. -/
theorem visit {build : Action S (Plan S)} (h : (p.building build).Shuns K K.node)
    (context : Context) {scope : ScopeId} (hscope : K.withheld scope → own scope) :
    Spares K p own ((p.host close).build build >>=
      Host.evaluateBuilt ((p.host close).evaluate b fuel · context scope)) fun _ ↦ True :=
  .bind (build_spares hclose h) fun _ hx ↦
    evaluateBuilt_spares (fun n hn ↦ ih n hn context hscope) hx

theorem suspend {thunk : Action S (Plan S)} (h : (Node.suspend thunk).Shuns K p) :
    Node.Spared K p own close b (fuel + 1) (.suspend thunk) := by
  intro context scope hscope
  simp only [Host.evaluate]
  exact visit hclose ih h context hscope

theorem bind {next : Value → Action S (Step S)} (h : (Node.bind n next).Shuns K p) :
    Node.Spared K p own close b (fuel + 1) (.bind n next) := by
  intro context scope hscope
  simp only [Host.evaluate]
  refine .bind (ih n h.1 context hscope) fun o _ ↦ ?_
  cases o with
  | error c => exact .pure trivial
  | ok v =>
    refine .bind (attempt_spares hclose (h.2 v)) fun x hx ↦ ?_
    rcases x with d | m | v | c | _
    · exact .pure trivial
    · exact ih m (hx _ rfl m rfl) context hscope
    · exact .pure trivial
    · exact .pure trivial
    · exact .pure trivial

theorem recover {accepts : Cause S.Error → Action S Bool}
    {handler : Cause S.Error → Action S (Plan S)} (h : (Node.recover n accepts handler).Shuns K p) :
    Node.Spared K p own close b (fuel + 1) (.recover n accepts handler) := by
  intro context scope hscope
  simp only [Host.evaluate]
  refine .bind (ih n h.1 context hscope) fun o _ ↦ ?_
  cases o with
  | ok v => exact .pure trivial
  | error c =>
    refine .bind (attempt_spares hclose (h.2 c).1) fun x _ ↦ ?_
    rcases x with d | _ | _
    · exact .pure trivial
    · exact .pure trivial
    · exact visit hclose ih (h.2 c).2 context hscope

/-- The region's own scope has just been opened, so it is not withheld. -/
theorem region {body : ScopeId → Action S (Plan S)} (h : (Node.region body).Shuns K p) :
    Node.Spared K p own close b (fuel + 1) (.region body) := by
  intro context scope _
  simp only [Host.evaluate, Machine.inScope]
  refine .bind .enterScope fun child hchild ↦ ?_
  refine .bind (visit hclose ih (h child hchild) context fun hw ↦ absurd hw hchild) fun o _ ↦ ?_
  exact .bind (hclose child hchild) fun _ _ ↦ .pure trivial

end Node.Spared

variable (hK : K.Binds p)
include hK hclose

/-- Evaluating an effect in a scope that is not withheld, or that may gain finalizers. -/
theorem evaluate_spares (b : BudgetId) (fuel : Nat) {node : Node S} (hnode : K.node node) :
    node.Spared K p own close b fuel := by
  induction fuel generalizing node with
  | zero =>
    intro context scope _
    rw [Host.evaluate_zero]
    exact .escape
  | succ fuel ih =>
    have hshuns := hK.node node hnode
    have ih : ∀ n, K.node n → n.Spared K p own close b fuel := fun _ ↦ ih
    cases node with
    | pure make => exact .pure hclose hshuns
    | fail cause => exact .fail cause
    | suspend thunk => exact .suspend hclose ih hshuns
    | bind source next => exact .bind hclose ih hshuns
    | service key => exact .service key
    | provide layer inner => exact .provide hclose (ih inner hshuns.1) hshuns
    | sleep d => exact .sleep d
    | async start => exact .async hclose hshuns
    | recover source accepts handler => exact .recover hclose ih hshuns
    | parallel branches collect =>
      exact .parallel hclose (fun n hn ↦ ih n (hshuns.1 n hn)) hshuns
    | race branches => exact .race fun n hn ↦ ih n (hshuns n hn)
    | retry source schedule => exact .retry hclose (ih source hshuns.1) hshuns
    | region body => exact .region hclose ih hshuns
    | finalizer release => exact .finalizer hshuns
    | timeout source limit => exact .timeout (ih source hshuns) limit

/-! ### Scopes that close -/

/-- Evaluating an effect in a fresh scope. -/
theorem evaluateWith_spares (b : BudgetId) (fuel : Nat) {node : Node S} (hnode : K.node node)
    (context : Context) :
    Spares K p own (p.evaluateWith close fuel node context b) fun _ ↦ True := by
  simp only [Program.evaluateWith, Machine.inScope]
  refine .bind .enterScope fun root hroot ↦ ?_
  refine .bind (evaluate_spares hclose hK b fuel hnode context fun h ↦ absurd h hroot) fun o _ ↦ ?_
  exact .bind (hclose root hroot) fun _ _ ↦ .pure trivial

theorem invoke_spares (fuel : Nat) (s : ScopeId) {f : Finalizer S} (hf : f.Shuns K p) :
    Spares K p own ((p.host close).invoke (p.evaluateWith close fuel) s f) fun _ ↦ True := by
  have hfinalize : Spares K p own ((p.host close).finalize (p.evaluateWith close fuel) f)
      fun _ ↦ True := by
    cases f with
    | cleanup c => exact perform_spares hclose (hK.cleanup c hf)
    | release build context b =>
      refine .bind (build_spares hclose hf) fun x hx ↦ ?_
      cases x with
      | error d => exact .pure trivial
      | ok node =>
        exact .bind (evaluateWith_spares hclose hK b fuel (hx node rfl) context) fun _ _ ↦
          .pure trivial
  simp only [Host.invoke]
  exact .bind (.modify (fun _ ↦ rfl) fun _ ↦ rfl) fun _ _ ↦ .bind hfinalize.guard fun _ _ ↦
    .bind (.modify (fun _ ↦ rfl) fun _ ↦ rfl) fun _ _ ↦ .pure trivial

/-- Invoking finalizers, of a withheld scope or of another one. -/
theorem invokeAll_spares (fuel : Nat) (s : ScopeId) {fs : List (Finalizer S)}
    (hfs : ∀ f ∈ fs, f.Shuns K p) :
    Spares K p own ((p.host close).invokeAll (p.evaluateWith close fuel) s fs) fun _ ↦ True := by
  induction fs with
  | nil => exact .pure trivial
  | cons f fs ih =>
    obtain ⟨hf, hfs⟩ := List.forall_mem_cons.1 hfs
    refine .bind (invoke_spares hclose hK fuel s hf) fun o _ ↦ ?_
    rcases o with c | ⟨⟩
    · exact .bind (ih hfs) fun _ _ ↦ .pure trivial
    · exact ih hfs

end Evaluation

section Closing

variable {K : Custody S} {p : Program S} {own : ScopeId → Prop}

/-- Closing a scope that is not withheld, by induction on how deep scopes may close in each
other. -/
theorem closeScope_spares (hK : K.Binds p) (depth : Nat) {s : ScopeId} (hs : ¬K.withheld s) :
    Spares K p own (p.closeScope depth s) fun _ ↦ True := by
  induction depth generalizing s with
  | zero => exact .escape
  | succ depth ih =>
    simp only [Program.closeScope, Host.shut]
    refine .bind (.gets _) fun scope hscope ↦ ?_
    obtain ⟨w, hw, rfl⟩ := hscope
    split
    · exact .pure trivial
    · refine .bind (.modifyGet (f := fun w ↦ ((), w.shutScope s)) fun w' hw' ↦
        ⟨hw'.shutScope s, .of_scope fun s' hs' ↦ w'.scope_shutScope_of_ne ?_⟩) fun _ _ ↦ ?_
      · rintro rfl
        exact hs hs'
      refine .bind (invokeAll_spares (fun _ ↦ ih) hK depth s (hw.awaits s)) fun failures _ ↦ ?_
      refine .bind (.modify (fun _ ↦ rfl) fun _ ↦ rfl) fun _ _ ↦ ?_
      cases failures <;> exact .pure trivial

end Closing

/-! ### The machine -/

namespace Interpreter

variable {it : Interpreter S} (hp : it.IsPlain) {K : Custody S} (hK : K.Binds it.program)
  (own : ScopeId → Prop)
include hp hK

/-- A loop that begins with an effect spares withheld scopes. -/
theorem rounds_spares (depth fuel : Nat) {node : Node S} (hnode : K.node node) (context : Context)
    {scope : ScopeId} (hscope : K.withheld scope → own scope) (b : BudgetId) :
    Spares K it.program own
      (it.rounds (it.closeScope depth) b fuel (.start node context scope b)) fun _ ↦ True := by
  have hcovers := evaluate_covers it.program it.config.name it.config.traceSteps
    (hp.closeScope_covered depth) fuel node context scope b
  rw [← hp.eq_plain] at hcovers
  exact hcovers.spares fun i n ↦
    evaluate_spares (fun _ hs ↦ closeScope_spares hK i hs) hK b n hnode context hscope

/-- Building an effect spares withheld scopes. -/
theorem host_build_spares (depth : Nat) {a : Action S (Plan S)}
    (ha : (it.program.building a).Shuns K K.node) :
    Spares K it.program own ((it.host (it.closeScope depth)).build a) (Built K.node) := by
  have hcovers : Covers
      (fun i _ ↦ (it.program.host (it.program.closeScope i)).build a)
      ((it.host (it.closeScope depth)).build a) := by
    have h := Covers.build (h := it.host (it.closeScope depth)) (hp.closeScope_covered depth) a
    rw [host, hp.strategy] at h ⊢
    exact h
  exact hcovers.spares fun i _ ↦ build_spares (fun _ hs ↦ closeScope_spares hK i hs) ha

/-- Invoking the finalizers of a scope spares withheld scopes. -/
theorem host_invokeAll_spares (depth : Nat) (s : ScopeId) {fs : List (Finalizer S)}
    (hfs : ∀ f ∈ fs, f.Shuns K it.program) :
    Spares K it.program own ((it.host (it.closeScope depth)).invokeAll
      (it.interpretWith (it.closeScope depth) depth) s fs) fun _ ↦ True := by
  have hcovers : Covers
      (fun i n ↦ (it.program.host (it.program.closeScope i)).invokeAll
        (it.program.evaluateWith (it.program.closeScope i) n) s fs)
      ((it.host (it.closeScope depth)).invokeAll
        (it.interpretWith (it.closeScope depth) depth) s fs) := by
    have hrelease := interpretWith_covered it.program it.config.name it.config.traceSteps
      (hp.closeScope_covered depth) depth
    rw [← hp.eq_plain] at hrelease
    have h := Covers.invokeAll (h := it.host (it.closeScope depth)) (hp.closeScope_covered depth)
      hrelease s fs
    rw [host, hp.strategy] at h ⊢
    exact h
  exact hcovers.spares fun i n ↦
    invokeAll_spares (fun _ hs ↦ closeScope_spares hK i hs) hK n s hfs

end Interpreter

end EffectMachine
