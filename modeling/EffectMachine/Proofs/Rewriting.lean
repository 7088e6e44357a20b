import EffectMachine.Proofs.Convergence
import EffectMachine.Proofs.Scopes

/-!
# Effects with rewritten parts

Given pairs of effects `L`, `Plan.Rewrites L` relates two effects of which one is the other with
parts replaced: any number of parts, anywhere, each by the other member of a pair. Nothing is
assumed of the effects, in particular not that they are well typed, so there is one rule for each
kind of node with sub-effects or closures that build effects, and every effect is related to itself.

**Positions under closures** are given as in `Plan.Congruent`: a pair of related closures is one
closure that ends in some index, and two ways of making an effect from the index. Related closures
make the same requests.

**Where the pairs come from.** A pair can be replaced if evaluating the one effect is evaluating the
other with one more unit of fuel (`Node.Defers`). That covers laws by which a node of its own is
spared.

Runs of related effects leave release effects behind that are related only. `World.Rewrites` relates
two worlds that are alike except for these, and for the contents of budgets.
-/

namespace EffectMachine

variable {S : Signature}

/-! ### The relation -/

/-- Evaluating an effect is evaluating another one with one more unit of fuel. With a single unit,
whatever the effect comes to, the other one does too. -/
structure Node.Defers (n n' : Node S) : Prop where
  next : ∀ (h : Host S) (b : BudgetId) (fuel : Nat) (context : Context) (scope : ScopeId),
    h.evaluate b (fuel + 2) n context scope = h.evaluate b (fuel + 1) n' context scope
  first : ∀ (h : Host S) (b : BudgetId) (context : Context) (scope : ScopeId) {w w₁ : World S}
    {x : Except Escape (Outcome S.Error Value)}, h.evaluate b 1 n context scope w = (x, w₁) →
      x ≠ .error .exhausted → h.evaluate b 1 n' context scope w = (x, w₁)

/-- Two answers of a continuation are the same value, the same failure or both an effect. -/
def Step.Alike : Step S → Step S → Prop
  | .value v, .value v' => v' = v
  | .failure c, .failure c' => c' = c
  | .effect _, .effect _ => True
  | .value _, .failure _ | .value _, .effect _ | .failure _, .value _ | .failure _, .effect _
  | .effect _, .value _ | .effect _, .failure _ => False

theorem Step.Alike.refl (s : Step S) : s.Alike s := by
  cases s with
  | value | failure => rfl
  | effect => trivial

theorem Step.Alike.symm {s s' : Step S} (h : s.Alike s') : s'.Alike s := by
  cases s <;> cases s' <;> first | exact Eq.symm h | exact h

/-- Two effects are the same up to parts that are replaced by their partners. -/
inductive Plan.Rewrites (L : Node S → Node S → Prop) : Plan S → Plan S → Prop where
  | refl (q : Plan S) : Rewrites L q q
  | law {n n' : Node S} (h : L n n') : Rewrites L (.node n) (.node n')
  | lawSymm {n n' : Node S} (h : L n n') : Rewrites L (.node n') (.node n)
  | suspend {ι : Type} {x : Action S ι} {l r : ι → Plan S} (h : ∀ i, Rewrites L (l i) (r i)) :
      Rewrites L (.node (.suspend (x.bind fun i ↦ .done (l i))))
        (.node (.suspend (x.bind fun i ↦ .done (r i))))
  | bind {n n' : Node S} {ι : Type} {x : Value → Action S ι} {l r : Value → ι → Step S}
      (hs : Rewrites L (.node n) (.node n')) (halike : ∀ v i, (l v i).Alike (r v i))
      (h : ∀ v i q q', l v i = .effect q → r v i = .effect q' → Rewrites L q q') :
      Rewrites L (.node (.bind n fun v ↦ (x v).bind fun i ↦ .done (l v i)))
        (.node (.bind n' fun v ↦ (x v).bind fun i ↦ .done (r v i)))
  | provide {n n' : Node S} (layer : Layer S) (h : Rewrites L (.node n) (.node n')) :
      Rewrites L (.node (.provide layer n)) (.node (.provide layer n'))
  | recover {n n' : Node S} {ι : Type} {x : Cause S.Error → Action S ι}
      {l r : Cause S.Error → ι → Plan S} (accepts : Cause S.Error → Action S Bool)
      (hs : Rewrites L (.node n) (.node n')) (h : ∀ c i, Rewrites L (l c i) (r c i)) :
      Rewrites L (.node (.recover n accepts fun c ↦ (x c).bind fun i ↦ .done (l c i)))
        (.node (.recover n' accepts fun c ↦ (x c).bind fun i ↦ .done (r c i)))
  | parallel {ι : Type} {is : List ι} {l r : ι → Node S}
      (collect : List Value → Action S (Except Defect Value))
      (h : ∀ i, Rewrites L (.node (l i)) (.node (r i))) :
      Rewrites L (.node (.parallel (is.map l) collect)) (.node (.parallel (is.map r) collect))
  | race {ι : Type} {is : List ι} {l r : ι → Node S}
      (h : ∀ i, Rewrites L (.node (l i)) (.node (r i))) :
      Rewrites L (.node (.race (is.map l))) (.node (.race (is.map r)))
  | retry {n n' : Node S} (schedule : Schedule S) (h : Rewrites L (.node n) (.node n')) :
      Rewrites L (.node (.retry n schedule)) (.node (.retry n' schedule))
  | region {ι : Type} {x : ScopeId → Action S ι} {l r : ScopeId → ι → Plan S}
      (h : ∀ s i, Rewrites L (l s i) (r s i)) :
      Rewrites L (.node (.region fun s ↦ (x s).bind fun i ↦ .done (l s i)))
        (.node (.region fun s ↦ (x s).bind fun i ↦ .done (r s i)))
  | finalizer {ι : Type} {x : Action S ι} {l r : ι → Plan S} (h : ∀ i, Rewrites L (l i) (r i)) :
      Rewrites L (.node (.finalizer (x.bind fun i ↦ .done (l i))))
        (.node (.finalizer (x.bind fun i ↦ .done (r i))))
  | timeout {n n' : Node S} (limit : Duration) (h : Rewrites L (.node n) (.node n')) :
      Rewrites L (.node (.timeout n limit)) (.node (.timeout n' limit))

/-- Two answers of a continuation are alike, and related if they are effects. -/
structure Step.Rewrites (L : Node S → Node S → Prop) (s s' : Step S) : Prop where
  alike : s.Alike s'
  effect : ∀ q q', s = .effect q → s' = .effect q' → q.Rewrites L q'

/-- Two closures make the same requests and end in related results. -/
def Action.Paired {α : Type} (R : α → α → Prop) (x x' : Action S α) : Prop :=
  ∃ (ι : Type) (z : Action S ι) (l r : ι → α), x = (z.bind fun i ↦ .done (l i)) ∧
    x' = (z.bind fun i ↦ .done (r i)) ∧ ∀ i, R (l i) (r i)

/-- Two effects that are written out are related. -/
def Node.Rewrites (L : Node S → Node S → Prop) (n n' : Node S) : Prop :=
  Plan.Rewrites L (.node n) (.node n')

/-- Two programs name the same finalizers and related effects. -/
structure Program.Rewrites (L : Node S → Node S → Prop) (p p' : Program S) : Prop where
  effect : ∀ d, (p.effect d).Paired (Node.Rewrites L) (p'.effect d)
  cleanup : p'.cleanup = p.cleanup

variable {L : Node S → Node S → Prop}

theorem Plan.Rewrites.symm {q q' : Plan S} (h : q.Rewrites L q') : q'.Rewrites L q := by
  induction h with
  | refl q => exact .refl q
  | law h => exact .lawSymm h
  | lawSymm h => exact .law h
  | suspend _ ih => exact .suspend ih
  | bind _ halike _ ihs ih =>
    exact .bind ihs (fun v i ↦ (halike v i).symm) fun v i q q' hq hq' ↦ ih v i q' q hq' hq
  | provide layer _ ih => exact .provide layer ih
  | recover accepts _ _ ihs ih => exact .recover accepts ihs ih
  | parallel collect _ ih => exact .parallel collect ih
  | race _ ih => exact .race ih
  | retry schedule _ ih => exact .retry schedule ih
  | region _ ih => exact .region ih
  | finalizer _ ih => exact .finalizer ih
  | timeout limit _ ih => exact .timeout limit ih

/-- Related effects are both named, and then by the same name, or both written out. -/
theorem Plan.Rewrites.named_or_node {q q' : Plan S} (h : q.Rewrites L q') :
    (∃ d, q = .named d ∧ q' = .named d) ∨ ∃ n n', q = .node n ∧ q' = .node n' := by
  cases h with
  | refl q =>
    cases q with
    | node n => exact .inr ⟨n, n, rfl, rfl⟩
    | named d => exact .inl ⟨d, rfl, rfl⟩
  | law | lawSymm | suspend | bind | provide | recover | parallel | race | retry | region
  | finalizer | timeout => exact .inr ⟨_, _, rfl, rfl⟩

theorem Step.Rewrites.refl (s : Step S) : s.Rewrites L s where
  alike := .refl s
  effect q q' hq hq' := by
    rw [hq] at hq'
    cases hq'
    exact .refl q

theorem Action.Paired.refl {α : Type} {R : α → α → Prop} (hR : ∀ a, R a a) (x : Action S α) :
    x.Paired R x :=
  ⟨_, x, id, id, x.bind_done.symm, x.bind_done.symm, hR⟩

theorem Action.Paired.symm {α : Type} {R R' : α → α → Prop} {x x' : Action S α}
    (h : x.Paired R x') (hR : ∀ a a', R a a' → R' a' a) : x'.Paired R' x := by
  obtain ⟨ι, z, l, r, hl, hr, hi⟩ := h
  exact ⟨ι, z, r, l, hr, hl, fun i ↦ hR _ _ (hi i)⟩

theorem Program.Rewrites.refl (p : Program S) : p.Rewrites L p where
  effect d := .refl (fun _ ↦ .refl _) (p.effect d)
  cleanup := rfl

theorem Program.Rewrites.symm {p p' : Program S} (h : p.Rewrites L p') : p'.Rewrites L p where
  effect d := (h.effect d).symm fun _ _ hn ↦ Plan.Rewrites.symm hn
  cleanup := h.cleanup.symm

/-! ### Related worlds -/

/-- Two finalizers are the same, or release effects built by related closures. -/
inductive Finalizer.Rewrites (L : Node S → Node S → Prop) : Finalizer S → Finalizer S → Prop where
  | cleanup (c) : Rewrites L (.cleanup c) (.cleanup c)
  | release {build build'} (context) (b) (h : build.Paired (Plan.Rewrites L) build') :
      Rewrites L (.release build context b) (.release build' context b)

/-- Two events are the same, or tell the same about related finalizers. -/
inductive Event.Rewrites (L : Node S → Node S → Prop) : Event S → Event S → Prop where
  | refl (e) : Rewrites L e e
  | accepted (s) {f f'} (h : Finalizer.Rewrites L f f') :
      Rewrites L (.accepted s f) (.accepted s f')
  | refused (s) {f f'} (h : Finalizer.Rewrites L f f') : Rewrites L (.refused s f) (.refused s f')
  | invoked (s) {f f'} (h : Finalizer.Rewrites L f f') : Rewrites L (.invoked s f) (.invoked s f')
  | ended (s) {f f'} (h : Finalizer.Rewrites L f f') (o) :
      Rewrites L (.ended s f o) (.ended s f' o)

/-- Two worlds are alike up to related release effects. Budgets do not count. -/
structure World.Rewrites (L : Node S → Node S → Prop) (w w' : World S) : Prop where
  state : w'.state = w.state
  clock : w'.clock = w.clock
  noise : w'.noise = w.noise
  slots : w'.slots = w.slots
  forks : w'.forks = w.forks
  size : w'.scopes.size = w.scopes.size
  closed : ∀ s, (w'.scope s).closed = (w.scope s).closed
  finalizers : ∀ s,
    List.Forall₂ (Finalizer.Rewrites L) (w.scope s).finalizers (w'.scope s).finalizers
  history : List.Forall₂ (Event.Rewrites L) w.history w'.history

theorem Finalizer.Rewrites.refl (f : Finalizer S) : f.Rewrites L f := by
  cases f with
  | cleanup c => exact .cleanup c
  | release build context b => exact .release context b (.refl .refl build)

theorem Finalizer.Rewrites.symm {f f' : Finalizer S} (h : f.Rewrites L f') : f'.Rewrites L f := by
  cases h with
  | cleanup c => exact .cleanup c
  | release context b h => exact .release context b (h.symm fun _ _ hq ↦ hq.symm)

theorem Event.Rewrites.symm {e e' : Event S} (h : e.Rewrites L e') : e'.Rewrites L e := by
  cases h with
  | refl => exact .refl e
  | accepted s h => exact .accepted s h.symm
  | refused s h => exact .refused s h.symm
  | invoked s h => exact .invoked s h.symm
  | ended s h o => exact .ended s h.symm o

namespace World.Rewrites

variable {w w' : World S}

theorem refl (w : World S) : w.Rewrites L w where
  state := rfl
  clock := rfl
  noise := rfl
  slots := rfl
  forks := rfl
  size := rfl
  closed _ := rfl
  finalizers _ := List.forall₂_same.mpr fun f _ ↦ .refl f
  history := List.forall₂_same.mpr fun e _ ↦ .refl e

theorem symm (h : w.Rewrites L w') : w'.Rewrites L w where
  state := h.state.symm
  clock := h.clock.symm
  noise := h.noise.symm
  slots := h.slots.symm
  forks := h.forks.symm
  size := h.size.symm
  closed s := (h.closed s).symm
  finalizers s := (h.finalizers s).flip.imp fun _ _ hf ↦ hf.symm
  history := h.history.flip.imp fun _ _ he ↦ he.symm

/-- The scopes are the same, up to what waits in them. -/
theorem scopes (h : w.Rewrites L w') : w.Matches (Finalizer.Rewrites L) w' :=
  ⟨h.size, h.closed, h.finalizers⟩

/-- What is seen of a scope from outside is the same. -/
theorem status (h : w.Rewrites L w') (s : ScopeId) : (w'.scope s).status = (w.scope s).status :=
  h.scopes.status s

/-- What has nothing to do with scopes and the history may change in the same way. -/
theorem change (h : w.Rewrites L w') {v v' : World S} (hstate : v'.state = v.state)
    (hclock : v'.clock = v.clock) (hnoise : v'.noise = v.noise) (hslots : v'.slots = v.slots)
    (hforks : v'.forks = v.forks) (hv : v.scopes = w.scopes) (hv' : v'.scopes = w'.scopes)
    (he : v.history = w.history) (he' : v'.history = w'.history) : v.Rewrites L v' := by
  have hscopes := h.scopes.congr hv hv'
  refine ⟨hstate, hclock, hnoise, hslots, hforks, hscopes.size, hscopes.closed,
    hscopes.finalizers, ?_⟩
  rw [he, he']
  exact h.history

theorem withState (h : w.Rewrites L w') (s : S.State) :
    World.Rewrites L { w with state := s } { w' with state := s } :=
  h.change rfl h.clock h.noise h.slots h.forks rfl rfl rfl rfl

theorem withClock (h : w.Rewrites L w') (f : Clock → Clock) :
    (w.modifyClock f).Rewrites L (w'.modifyClock f) :=
  h.change h.state (congrArg f h.clock) h.noise h.slots h.forks rfl rfl rfl rfl

theorem draw (h : w.Rewrites L w') :
    w'.draw.1 = w.draw.1 ∧ w.draw.2.Rewrites L w'.draw.2 :=
  ⟨congrArg Noise.next h.noise,
    h.change h.state h.clock (congrArg Noise.advance h.noise) h.slots h.forks rfl rfl rfl rfl⟩

theorem withForks (h : w.Rewrites L w') (n : Nat) :
    World.Rewrites L { w with forks := w.forks + n } { w' with forks := w'.forks + n } :=
  h.change h.state h.clock h.noise h.slots (congrArg (· + n) h.forks) rfl rfl rfl rfl

theorem withSlots (h : w.Rewrites L w') (f : Heap (Slot S.Error) → Heap (Slot S.Error)) :
    World.Rewrites L { w with slots := f w.slots } { w' with slots := f w'.slots } :=
  h.change h.state h.clock h.noise (congrArg f h.slots) h.forks rfl rfl rfl rfl

theorem withBudgets (h : w.Rewrites L w') (budgets budgets' : Heap Budget) :
    World.Rewrites L { w with budgets } { w' with budgets := budgets' } :=
  h.change h.state h.clock h.noise h.slots h.forks rfl rfl rfl rfl

/-- Worlds that differ in their budgets only are interchangeable. -/
theorem alike (h : w.Rewrites L w') {v v' : World S} (hv : World.Alike v w)
    (hv' : World.Alike v' w') : v.Rewrites L v' := by
  rw [hv.eq_with, hv'.eq_with]
  exact h.withBudgets _ _

theorem record (h : w.Rewrites L w') {e e' : Event S} (he : e.Rewrites L e') :
    (w.record e).Rewrites L (w'.record e') where
  state := h.state
  clock := h.clock
  noise := h.noise
  slots := h.slots
  forks := h.forks
  size := h.size
  closed := h.closed
  finalizers := h.finalizers
  history := .cons he h.history

theorem slot (h : w.Rewrites L w') (s : SlotId) : w'.slot s = w.slot s := by
  rw [World.slot, World.slot, h.slots]

theorem settle (h : w.Rewrites L w') (s : SlotId) (o : Outcome S.Error Value) :
    (w'.settle s o).1 = (w.settle s o).1 ∧ (w.settle s o).2.Rewrites L (w'.settle s o).2 :=
  ⟨by rw [World.settle, World.settle, h.slot],
    h.withSlots fun c ↦ c.modify s.index fun c ↦ c.settle o⟩

theorem takeOutcome (h : w.Rewrites L w') (s : SlotId) :
    (w'.takeOutcome s).1 = (w.takeOutcome s).1 ∧
      (w.takeOutcome s).2.Rewrites L (w'.takeOutcome s).2 :=
  ⟨by rw [World.takeOutcome, World.takeOutcome, h.slot],
    h.withSlots fun c ↦ c.modify s.index Slot.take⟩

theorem newSlot (h : w.Rewrites L w') :
    w'.newSlot.1 = w.newSlot.1 ∧ w.newSlot.2.Rewrites L w'.newSlot.2 :=
  ⟨congrArg (fun c ↦ SlotId.mk c.size) h.slots, h.withSlots fun c ↦ c.alloc .fresh⟩

theorem openScope (h : w.Rewrites L w') :
    w'.openScope.1 = w.openScope.1 ∧ w.openScope.2.Rewrites L w'.openScope.2 :=
  have hscopes := h.scopes.openScope
  ⟨h.scopes.openScope_eq, h.state, h.clock, h.noise, h.slots, h.forks, hscopes.size, hscopes.closed,
    hscopes.finalizers, h.history⟩

theorem enterScope (h : w.Rewrites L w') :
    w'.enterScope.1 = w.enterScope.1 ∧ w.enterScope.2.Rewrites L w'.enterScope.2 := by
  obtain ⟨hid, hopen⟩ := h.openScope
  refine ⟨hid, hopen.record ?_⟩
  rw [show Event.opened (S := S) w'.openScope.1 = .opened w.openScope.1 from congrArg _ hid]
  exact .refl _

theorem addFinalizer (h : w.Rewrites L w') (s : ScopeId) {f f' : Finalizer S}
    (hf : f.Rewrites L f') : (w'.addFinalizer s f').1 = (w.addFinalizer s f).1 ∧
      (w.addFinalizer s f).2.Rewrites L (w'.addFinalizer s f').2 := by
  have hscopes := h.scopes.addFinalizer s hf
  refine ⟨h.scopes.addFinalizer_eq s f f', ?_⟩
  cases hc : (w.scope s).closed with
  | true =>
    rw [World.addFinalizer, if_pos hc, World.addFinalizer, if_pos ((h.closed s).trans hc)]
    exact h.record (.refused s hf)
  | false =>
    -- only the scopes and the history have changed
    simp only [World.addFinalizer, hc, (h.closed s).trans hc] at hscopes ⊢
    exact ⟨h.state, h.clock, h.noise, h.slots, h.forks, hscopes.size, hscopes.closed,
      hscopes.finalizers, .cons (.accepted s hf) h.history⟩

theorem shutScope (h : w.Rewrites L w') (s : ScopeId) :
    (w.shutScope s).Rewrites L (w'.shutScope s) :=
  have hscopes := h.scopes.shutScope s
  ⟨h.state, h.clock, h.noise, h.slots, h.forks, hscopes.size, hscopes.closed, hscopes.finalizers,
    .cons (.refl _) h.history⟩

end World.Rewrites

end EffectMachine
