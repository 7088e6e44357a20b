import EffectMachine.Proofs.Rewriting

/-!
# Panics restated as failures

A closure that builds an effect may panic. It may also return the effect that fails with the defect
that the panic is reported as, and then the panic is *restated*. `Plan.Restates` relates two effects
of which one is the other with panics restated: any number of them, anywhere, in either direction.
There is one rule for each kind of node with sub-effects or closures that build effects, and every
effect is related to itself. The effects need not be well typed.

**What a call does.** A closure may answer with the name of an effect, and the effect is built by
the same call. So closures count only up to what calls of them do (`Action.Aligned`), and a panic in
the building of a named effect is a panic of the call.

**Positions under closures** are given as in `Plan.Rewrites`: related closures make the same
requests and end in some index, and in two ways the index is made a result or a panic.

**Release effects are run apart.** What the closure of a finalizer returns is run in a scope of its
own, and a closure that panics opens none. What the returned failure restates there is a panic after
a scope has been opened and closed by hand (`Action.panicApart`).

Runs of related effects leave release effects behind that are related only, and a scope that is
opened by hand is not told about in the history. `World.Restates` relates two worlds that are alike
except for these, for the openings of scopes in the history, and for the contents of budgets.
-/

namespace EffectMachine

variable {S : Signature} {α β : Type}

/-! ### Panics of closures -/

namespace Action

/-- The same requests, with panics among the results. -/
def surfaced : Action S α → Action S (Except Panic α)
  | .done a => .done (.ok a)
  | .panic q => .done (.error q)
  | .read k => .read fun r ↦ (k r).surfaced
  | .write s k => .write s k.surfaced
  | .now k => .now fun r ↦ (k r).surfaced
  | .advance d k => .advance d k.surfaced
  | .sleep d k => .sleep d k.surfaced
  | .draw k => .draw fun x ↦ (k x).surfaced
  | .openScope k => .openScope fun r ↦ (k r).surfaced
  | .addCleanup s c k => .addCleanup s c fun r ↦ (k r).surfaced
  | .closeScope s k => .closeScope s fun r ↦ (k r).surfaced
  | .inspect s k => .inspect s fun r ↦ (k r).surfaced
  | .settle s o k => .settle s o fun r ↦ (k r).surfaced
  | .take s k => .take s fun r ↦ (k r).surfaced

/-- End in a result, or stop at a panic. -/
def ending (stop : Panic → Action S α) : Except Panic α → Action S α
  | .ok a => .done a
  | .error q => stop q

/-- Open and close an empty scope, then panic. -/
def panicApart (q : Panic) : Action S α := .openScope fun s ↦ .closeScope s fun _ ↦ .panic q

/-- Stopping at the panics that surface is panicking. -/
theorem surfaced_bind_ending (x : Action S α) : x.surfaced.bind (ending .panic) = x := by
  induction x with
  | done | panic => rfl
  | write _ _ ih | advance _ _ ih | sleep _ _ ih => rw [surfaced, bind, ih]
  | read _ ih | now _ ih | draw _ ih | openScope _ ih | addCleanup _ _ _ ih | closeScope _ _ ih
  | inspect _ _ ih | settle _ _ _ ih | take _ _ ih => rw [surfaced, bind, funext ih]

/-- A sequence of closures that do not panic does not panic. -/
theorem Steady.bind {x : Action S α} {f : α → Action S β} (hx : x.Steady)
    (hf : ∀ a, (f a).Steady) : (x.bind f).Steady := by
  induction x with
  | done a => exact hf a
  | panic q => exact hx.elim
  | write _ _ ih | advance _ _ ih | sleep _ _ ih => exact ih hx
  | read _ ih | now _ ih | draw _ ih | openScope _ ih | addCleanup _ _ _ ih | closeScope _ _ ih
  | inspect _ _ ih | settle _ _ _ ih | take _ _ ih => exact fun r ↦ ih r (hx r)

theorem steady_surfaced (x : Action S α) : x.surfaced.Steady := by
  induction x with
  | done | panic => trivial
  | write _ _ ih | advance _ _ ih | sleep _ _ ih => exact ih
  | read _ ih | now _ ih | draw _ ih | openScope _ ih | addCleanup _ _ _ ih | closeScope _ _ ih
  | inspect _ _ ih | settle _ _ _ ih | take _ _ ih => exact ih

end Action

/-- The effect that fails with the defect of a panic. -/
def Plan.dying (q : Panic) : Plan S := .node (.fail (.defect (.panic q.text)))

/-- How two calls end. Either both return something alike, or one of them panics and the other one
returns what fails with the panic. -/
inductive Panic.Restated (die : Panic → α) (like : α → α → Prop) :
    Except Panic α → Except Panic α → Prop where
  | ok {a a' : α} (h : like a a') : Restated die like (.ok a) (.ok a')
  | dies (q : Panic) : Restated die like (.error q) (.ok (die q))
  | died (q : Panic) : Restated die like (.ok (die q)) (.error q)

/-- The same end of a call, with what fails with the panic in the place of the panic. -/
def Panic.restate (die : Panic → α) : Except Panic α → Except Panic α
  | .ok a => .ok a
  | .error q => .ok (die q)

theorem Panic.restated_restate {die : Panic → α} {like : α → α → Prop}
    (hlike : ∀ a, like a a) (e : Except Panic α) :
    Panic.Restated die like e (Panic.restate die e) := by
  cases e with
  | ok a => exact .ok (hlike a)
  | error q => exact .dies q

/-- What is returned on both sides is the same. -/
theorem Panic.eq_of_restate {die : Panic → α} {e : Except Panic α} {a a' : α} (h : e = .ok a)
    (h' : Panic.restate die e = .ok a') : a' = a := by
  rw [h] at h'
  exact (Except.ok.inj h').symm

/-- Calls of two closures make the same requests, and then end as given. -/
structure Action.Aligned (build build' : α → Action S β) (stop : Panic → Action S α)
    (die : Panic → α) (like : α → α → Prop) {ι : Type} (z : Action S ι)
    (l r : ι → Except Panic α) (x x' : Action S α) : Prop where
  left : x.bind build = (z.bind fun i ↦ .ending stop (l i)).bind build
  right : x'.bind build' = (z.bind fun i ↦ .ending stop (r i)).bind build'
  ends : ∀ i, Panic.Restated die like (l i) (r i)

/-- Calls of two closures that build effects make the same requests, and then end as given. -/
def Plan.Aligned (p p' : Program S) (stop : Panic → Action S (Plan S)) {ι : Type}
    (z : Action S ι) (l r : ι → Except Panic (Plan S)) (x x' : Action S (Plan S)) : Prop :=
  Action.Aligned p.build p'.build stop Plan.dying (fun _ _ ↦ True) z l r x x'

/-- Calls of two continuations make the same requests, and then end as given. -/
def Step.Aligned (p p' : Program S) {ι : Type} (z : Action S ι)
    (l r : ι → Except Panic (Step S)) (x x' : Action S (Step S)) : Prop :=
  Action.Aligned p.control p'.control .panic (fun q ↦ .effect (.dying q)) Step.Alike z l r x x'

/-! ### The relation -/

/-- Two effects are the same up to panics that are restated. -/
inductive Plan.Restates (p p' : Program S) : Plan S → Plan S → Prop where
  | refl (q : Plan S) : Restates p p' q q
  | suspend {x x' : Action S (Plan S)} {ι : Type} {z : Action S ι}
      {l r : ι → Except Panic (Plan S)} (hx : Plan.Aligned p p' .panic z l r x x')
      (h : ∀ i q q', l i = .ok q → r i = .ok q' → Restates p p' q q') :
      Restates p p' (.node (.suspend x)) (.node (.suspend x'))
  | bind {n n' : Node S} {x x' : Value → Action S (Step S)} {ι : Value → Type}
      {z : ∀ v, Action S (ι v)} {l r : ∀ v, ι v → Except Panic (Step S)}
      (hs : Restates p p' (.node n) (.node n'))
      (hx : ∀ v, Step.Aligned p p' (z v) (l v) (r v) (x v) (x' v))
      (h : ∀ v i q q', l v i = .ok (.effect q) → r v i = .ok (.effect q') → Restates p p' q q') :
      Restates p p' (.node (.bind n x)) (.node (.bind n' x'))
  | provide {n n' : Node S} (layer : Layer S) (h : Restates p p' (.node n) (.node n')) :
      Restates p p' (.node (.provide layer n)) (.node (.provide layer n'))
  | recover {n n' : Node S} {x x' : Cause S.Error → Action S (Plan S)}
      {ι : Cause S.Error → Type} {z : ∀ c, Action S (ι c)}
      {l r : ∀ c, ι c → Except Panic (Plan S)}
      (accepts : Cause S.Error → Action S Bool) (hs : Restates p p' (.node n) (.node n'))
      (hx : ∀ c, Plan.Aligned p p' .panic (z c) (l c) (r c) (x c) (x' c))
      (h : ∀ c i q q', l c i = .ok q → r c i = .ok q' → Restates p p' q q') :
      Restates p p' (.node (.recover n accepts x)) (.node (.recover n' accepts x'))
  | parallel {ι : Type} {is : List ι} {l r : ι → Node S}
      (collect : List Value → Action S (Except Defect Value))
      (h : ∀ i, Restates p p' (.node (l i)) (.node (r i))) :
      Restates p p' (.node (.parallel (is.map l) collect)) (.node (.parallel (is.map r) collect))
  | race {ι : Type} {is : List ι} {l r : ι → Node S}
      (h : ∀ i, Restates p p' (.node (l i)) (.node (r i))) :
      Restates p p' (.node (.race (is.map l))) (.node (.race (is.map r)))
  | retry {n n' : Node S} (schedule : Schedule S) (h : Restates p p' (.node n) (.node n')) :
      Restates p p' (.node (.retry n schedule)) (.node (.retry n' schedule))
  | region {x x' : ScopeId → Action S (Plan S)} {ι : ScopeId → Type}
      {z : ∀ s, Action S (ι s)} {l r : ∀ s, ι s → Except Panic (Plan S)}
      (hx : ∀ s, Plan.Aligned p p' .panic (z s) (l s) (r s) (x s) (x' s))
      (h : ∀ s i q q', l s i = .ok q → r s i = .ok q' → Restates p p' q q') :
      Restates p p' (.node (.region x)) (.node (.region x'))
  | finalizer {x x' : Action S (Plan S)} {ι : Type} {z : Action S ι}
      {l r : ι → Except Panic (Plan S)} (hx : Plan.Aligned p p' .panicApart z l r x x')
      (h : ∀ i q q', l i = .ok q → r i = .ok q' → Restates p p' q q') :
      Restates p p' (.node (.finalizer x)) (.node (.finalizer x'))
  | timeout {n n' : Node S} (limit : Duration) (h : Restates p p' (.node n) (.node n')) :
      Restates p p' (.node (.timeout n limit)) (.node (.timeout n' limit))

/-- Two effects that are written out are the same up to panics that are restated. -/
def Node.Restates (p p' : Program S) (n n' : Node S) : Prop :=
  Plan.Restates p p' (.node n) (.node n')

/-- Calls of two closures that build effects make the same requests and return related effects, or
one of them stops at a panic and the other one restates it. -/
def Action.Restates (p p' : Program S) (stop : Panic → Action S (Plan S))
    (x x' : Action S (Plan S)) : Prop :=
  ∃ (ι : Type) (z : Action S ι) (l r : ι → Except Panic (Plan S)),
    Plan.Aligned p p' stop z l r x x' ∧
      ∀ i q q', l i = .ok q → r i = .ok q' → q.Restates p p' q'

/-- The same of continuations. -/
def Step.Restates (p p' : Program S) (x x' : Action S (Step S)) : Prop :=
  ∃ (ι : Type) (z : Action S ι) (l r : ι → Except Panic (Step S)), Step.Aligned p p' z l r x x' ∧
    ∀ i q q', l i = .ok (.effect q) → r i = .ok (.effect q') → q.Restates p p' q'

/-- Two programs name the same finalizers and related effects. -/
structure Program.Restates (p p' : Program S) : Prop where
  effect : ∀ d, (p.effect d).Paired (Node.Restates p p') (p'.effect d)
  cleanup : p'.cleanup = p.cleanup

variable {p p' : Program S}

theorem Panic.Restated.symm {die : Panic → α} {like like' : α → α → Prop}
    (hlike : ∀ a a', like a a' → like' a' a) {e e' : Except Panic α}
    (h : Panic.Restated die like e e') : Panic.Restated die like' e' e := by
  cases h with
  | ok h => exact .ok (hlike _ _ h)
  | dies q => exact .died q
  | died q => exact .dies q

theorem Plan.Aligned.symm {stop : Panic → Action S (Plan S)} {ι : Type} {z : Action S ι}
    {l r : ι → Except Panic (Plan S)} {x x' : Action S (Plan S)}
    (h : Plan.Aligned p p' stop z l r x x') : Plan.Aligned p' p stop z r l x' x where
  left := h.right
  right := h.left
  ends i := (h.ends i).symm fun _ _ ↦ id

theorem Step.Aligned.symm {ι : Type} {z : Action S ι} {l r : ι → Except Panic (Step S)}
    {x x' : Action S (Step S)} (h : Step.Aligned p p' z l r x x') :
    Step.Aligned p' p z r l x' x where
  left := h.right
  right := h.left
  ends i := (h.ends i).symm fun _ _ ↦ Step.Alike.symm

theorem Plan.Restates.symm {q q' : Plan S} (h : q.Restates p p' q') : q'.Restates p' p q := by
  induction h with
  | refl q => exact .refl q
  | suspend hx _ ih => exact .suspend hx.symm fun i q q' hq hq' ↦ ih i q' q hq' hq
  | bind _ hx _ ihs ih =>
    exact .bind ihs (fun v ↦ (hx v).symm) fun v i q q' hq hq' ↦ ih v i q' q hq' hq
  | provide layer _ ih => exact .provide layer ih
  | recover accepts _ hx _ ihs ih =>
    exact .recover accepts ihs (fun c ↦ (hx c).symm) fun c i q q' hq hq' ↦ ih c i q' q hq' hq
  | parallel collect _ ih => exact .parallel collect ih
  | race _ ih => exact .race ih
  | retry schedule _ ih => exact .retry schedule ih
  | region hx _ ih =>
    exact .region (fun s ↦ (hx s).symm) fun s i q q' hq hq' ↦ ih s i q' q hq' hq
  | finalizer hx _ ih => exact .finalizer hx.symm fun i q q' hq hq' ↦ ih i q' q hq' hq
  | timeout limit _ ih => exact .timeout limit ih

theorem Action.Restates.symm {stop : Panic → Action S (Plan S)} {x x' : Action S (Plan S)}
    (h : x.Restates p p' stop x') : x'.Restates p' p stop x := by
  obtain ⟨ι, z, l, r, hx, hq⟩ := h
  exact ⟨ι, z, r, l, hx.symm, fun i q q' hl hr ↦ (hq i q' q hr hl).symm⟩

theorem Program.Restates.symm (h : p.Restates p') : p'.Restates p where
  effect d := (h.effect d).symm fun _ _ hn ↦ Plan.Restates.symm hn
  cleanup := h.cleanup.symm

theorem Program.Restates.refl (p : Program S) : p.Restates p where
  effect d := .refl (fun _ ↦ .refl _) (p.effect d)
  cleanup := rfl

/-- A closure that is left as it is. -/
theorem Action.Restates.refl (stop : Panic → Action S (Plan S)) (x : Action S (Plan S)) :
    x.Restates p p' stop x := by
  have hending : (x.bind fun q ↦ .ending stop (.ok q)) = x := x.bind_done
  refine ⟨_, x, .ok, .ok, ⟨by rw [hending], by rw [hending], fun _ ↦ .ok trivial⟩, ?_⟩
  rintro i q q' ⟨⟩ ⟨⟩
  exact .refl i

/-- A continuation that is left as it is. -/
theorem Step.Restates.refl (x : Action S (Step S)) : Step.Restates p p' x x := by
  have hending : (x.bind fun s ↦ .ending .panic (.ok s)) = x := x.bind_done
  refine ⟨_, x, .ok, .ok, ⟨by rw [hending], by rw [hending], fun s ↦ .ok (.refl s)⟩, ?_⟩
  rintro i q q' ⟨⟩ ⟨⟩
  exact .refl q

/-- Related effects are both named, and then by the same name, or both written out. -/
theorem Plan.Restates.named_or_node {q q' : Plan S} (h : q.Restates p p' q') :
    (∃ d, q = .named d ∧ q' = .named d) ∨
      ∃ n n', q = .node n ∧ q' = .node n' ∧ n.Restates p p' n' := by
  cases q with
  | named d =>
    cases h
    exact .inl ⟨d, rfl, rfl⟩
  | node n =>
    cases q' with
    | named d => cases h
    | node n' => exact .inr ⟨n, n', rfl, rfl, h⟩

/-! ### Related worlds -/

/-- Two finalizers are the same, or release effects built by related closures. -/
inductive Finalizer.Restates (p p' : Program S) : Finalizer S → Finalizer S → Prop where
  | cleanup (c) : Restates p p' (.cleanup c) (.cleanup c)
  | release {build build'} (context) (b) (h : build.Restates p p' .panicApart build') :
      Restates p p' (.release build context b) (.release build' context b)

/-- Two events are the same, or tell the same about related finalizers. -/
inductive Event.Matches (F : Finalizer S → Finalizer S → Prop) : Event S → Event S → Prop where
  | refl (e) : Matches F e e
  | accepted (s) {f f'} (h : F f f') : Matches F (.accepted s f) (.accepted s f')
  | refused (s) {f f'} (h : F f f') : Matches F (.refused s f) (.refused s f')
  | invoked (s) {f f'} (h : F f f') : Matches F (.invoked s f) (.invoked s f')
  | ended (s) {f f'} (h : F f f') (o) : Matches F (.ended s f o) (.ended s f' o)

/-- Whether an event is the opening of a scope. -/
def Event.isOpening : Event S → Bool
  | .opened _ => true
  | _ => false

/-- What has happened so far, the opening of scopes apart, newest first. -/
def World.told (w : World S) : List (Event S) := w.history.filter fun e ↦ !e.isOpening

/-- Two worlds are alike up to related release effects. Budgets do not count, and neither do the
openings of scopes in the history. -/
structure World.Restates (p p' : Program S) (w w' : World S) : Prop where
  state : w'.state = w.state
  clock : w'.clock = w.clock
  noise : w'.noise = w.noise
  slots : w'.slots = w.slots
  forks : w'.forks = w.forks
  scopes : w.Matches (Finalizer.Restates p p') w'
  told : List.Forall₂ (Event.Matches (Finalizer.Restates p p')) w.told w'.told

theorem Finalizer.Restates.refl (f : Finalizer S) : f.Restates p p' f := by
  cases f with
  | cleanup c => exact .cleanup c
  | release build context b => exact .release context b (.refl .panicApart build)

theorem Finalizer.Restates.symm {f f' : Finalizer S} (h : f.Restates p p' f') :
    f'.Restates p' p f := by
  cases h with
  | cleanup c => exact .cleanup c
  | release context b h => exact .release context b h.symm

theorem Event.Matches.symm {F F' : Finalizer S → Finalizer S → Prop}
    (hF : ∀ f f', F f f' → F' f' f) {e e' : Event S} (h : e.Matches F e') : e'.Matches F' e := by
  cases h with
  | refl => exact .refl e
  | accepted s h => exact .accepted s (hF _ _ h)
  | refused s h => exact .refused s (hF _ _ h)
  | invoked s h => exact .invoked s (hF _ _ h)
  | ended s h o => exact .ended s (hF _ _ h) o

/-- Events that tell the same are both openings or neither is. -/
theorem Event.Matches.isOpening {F : Finalizer S → Finalizer S → Prop} {e e' : Event S}
    (h : e.Matches F e') : e'.isOpening = e.isOpening := by
  cases h <;> rfl

namespace World.Restates

variable {w w' v v' : World S}

theorem refl (w : World S) : w.Restates p p' w where
  state := rfl
  clock := rfl
  noise := rfl
  slots := rfl
  forks := rfl
  scopes := ⟨rfl, fun _ ↦ rfl, fun _ ↦ List.forall₂_same.mpr fun f _ ↦ .refl f⟩
  told := List.forall₂_same.mpr fun e _ ↦ .refl e

theorem symm (h : w.Restates p p' w') : w'.Restates p' p w where
  state := h.state.symm
  clock := h.clock.symm
  noise := h.noise.symm
  slots := h.slots.symm
  forks := h.forks.symm
  scopes := ⟨h.scopes.size.symm, fun s ↦ (h.scopes.closed s).symm,
    fun s ↦ (h.scopes.finalizers s).flip.imp fun _ _ hf ↦ hf.symm⟩
  told := h.told.flip.imp fun _ _ he ↦ he.symm fun _ _ hf ↦ hf.symm

/-- What has nothing to do with scopes and the history may change in the same way. -/
theorem change (h : w.Restates p p' w') (hstate : v'.state = v.state)
    (hclock : v'.clock = v.clock) (hnoise : v'.noise = v.noise) (hslots : v'.slots = v.slots)
    (hforks : v'.forks = v.forks) (hv : v.scopes = w.scopes) (hv' : v'.scopes = w'.scopes)
    (he : v.history = w.history) (he' : v'.history = w'.history) : v.Restates p p' v' := by
  refine ⟨hstate, hclock, hnoise, hslots, hforks, h.scopes.congr hv hv', ?_⟩
  rw [World.told, World.told, he, he']
  exact h.told

theorem withState (h : w.Restates p p' w') (s : S.State) :
    World.Restates p p' { w with state := s } { w' with state := s } :=
  h.change rfl h.clock h.noise h.slots h.forks rfl rfl rfl rfl

theorem withClock (h : w.Restates p p' w') (f : Clock → Clock) :
    (w.modifyClock f).Restates p p' (w'.modifyClock f) :=
  h.change h.state (congrArg f h.clock) h.noise h.slots h.forks rfl rfl rfl rfl

theorem draw (h : w.Restates p p' w') :
    w'.draw.1 = w.draw.1 ∧ w.draw.2.Restates p p' w'.draw.2 :=
  ⟨congrArg Noise.next h.noise,
    h.change h.state h.clock (congrArg Noise.advance h.noise) h.slots h.forks rfl rfl rfl rfl⟩

theorem withForks (h : w.Restates p p' w') (n : Nat) :
    World.Restates p p' { w with forks := w.forks + n } { w' with forks := w'.forks + n } :=
  h.change h.state h.clock h.noise h.slots (congrArg (· + n) h.forks) rfl rfl rfl rfl

theorem withSlots (h : w.Restates p p' w') (f : Heap (Slot S.Error) → Heap (Slot S.Error)) :
    World.Restates p p' { w with slots := f w.slots } { w' with slots := f w'.slots } :=
  h.change h.state h.clock h.noise (congrArg f h.slots) h.forks rfl rfl rfl rfl

theorem withBudgets (h : w.Restates p p' w') (budgets budgets' : Heap Budget) :
    World.Restates p p' { w with budgets } { w' with budgets := budgets' } :=
  h.change h.state h.clock h.noise h.slots h.forks rfl rfl rfl rfl

/-- Worlds that differ in their budgets only are interchangeable. -/
theorem alike (h : w.Restates p p' w') (hv : World.Alike v w) (hv' : World.Alike v' w') :
    v.Restates p p' v' := by
  rw [hv.eq_with, hv'.eq_with]
  exact h.withBudgets _ _

theorem record (h : w.Restates p p' w') {e e' : Event S}
    (he : e.Matches (Finalizer.Restates p p') e') :
    (w.record e).Restates p p' (w'.record e') where
  state := h.state
  clock := h.clock
  noise := h.noise
  slots := h.slots
  forks := h.forks
  scopes := h.scopes.congr rfl rfl
  told := by
    simp only [World.told, World.record, List.filter_cons, he.isOpening]
    cases e.isOpening with
    | true => exact h.told
    | false => exact .cons he h.told

/-- That a scope was opened does not count. -/
theorem record_opened (h : w.Restates p p' w') (s : ScopeId) :
    (w.record (.opened s)).Restates p p' w' where
  state := h.state
  clock := h.clock
  noise := h.noise
  slots := h.slots
  forks := h.forks
  scopes := h.scopes.congr rfl rfl
  told := h.told

theorem settle (h : w.Restates p p' w') (s : SlotId) (o : Outcome S.Error Value) :
    (w'.settle s o).1 = (w.settle s o).1 ∧ (w.settle s o).2.Restates p p' (w'.settle s o).2 :=
  ⟨by rw [World.settle, World.settle, World.slot, World.slot, h.slots],
    h.withSlots fun c ↦ c.modify s.index fun c ↦ c.settle o⟩

theorem takeOutcome (h : w.Restates p p' w') (s : SlotId) :
    (w'.takeOutcome s).1 = (w.takeOutcome s).1 ∧
      (w.takeOutcome s).2.Restates p p' (w'.takeOutcome s).2 :=
  ⟨by rw [World.takeOutcome, World.takeOutcome, World.slot, World.slot, h.slots],
    h.withSlots fun c ↦ c.modify s.index Slot.take⟩

theorem newSlot (h : w.Restates p p' w') :
    w'.newSlot.1 = w.newSlot.1 ∧ w.newSlot.2.Restates p p' w'.newSlot.2 :=
  ⟨congrArg (fun c ↦ SlotId.mk c.size) h.slots, h.withSlots fun c ↦ c.alloc .fresh⟩

theorem openScope (h : w.Restates p p' w') :
    w'.openScope.1 = w.openScope.1 ∧ w.openScope.2.Restates p p' w'.openScope.2 :=
  ⟨h.scopes.openScope_eq, h.state, h.clock, h.noise, h.slots, h.forks, h.scopes.openScope, h.told⟩

theorem enterScope (h : w.Restates p p' w') :
    w'.enterScope.1 = w.enterScope.1 ∧ w.enterScope.2.Restates p p' w'.enterScope.2 :=
  ⟨h.openScope.1, ((h.openScope.2.record_opened _).symm.record_opened _).symm⟩

/-- Whether a scope is opened by hand does not count. -/
theorem openScope_enterScope (h : w.Restates p p' w') :
    w'.enterScope.1 = w.openScope.1 ∧ w.openScope.2.Restates p p' w'.enterScope.2 :=
  ⟨h.openScope.1, (h.openScope.2.symm.record_opened _).symm⟩

theorem enterScope_openScope (h : w.Restates p p' w') :
    w'.openScope.1 = w.enterScope.1 ∧ w.enterScope.2.Restates p p' w'.openScope.2 :=
  ⟨h.openScope.1, h.openScope.2.record_opened _⟩

theorem addFinalizer (h : w.Restates p p' w') (s : ScopeId) {f f' : Finalizer S}
    (hf : f.Restates p p' f') : (w'.addFinalizer s f').1 = (w.addFinalizer s f).1 ∧
      (w.addFinalizer s f).2.Restates p p' (w'.addFinalizer s f').2 := by
  have hscopes := h.scopes.addFinalizer s hf
  refine ⟨h.scopes.addFinalizer_eq s f f', ?_⟩
  cases hc : (w.scope s).closed with
  | true =>
    rw [World.addFinalizer, if_pos hc, World.addFinalizer, if_pos ((h.scopes.closed s).trans hc)]
    exact h.record (.refused s hf)
  | false =>
    -- only the scopes and the history have changed
    simp only [World.addFinalizer, hc, (h.scopes.closed s).trans hc] at hscopes ⊢
    exact ⟨h.state, h.clock, h.noise, h.slots, h.forks, hscopes, .cons (.accepted s hf) h.told⟩

theorem shutScope (h : w.Restates p p' w') (s : ScopeId) :
    (w.shutScope s).Restates p p' (w'.shutScope s) :=
  ⟨h.state, h.clock, h.noise, h.slots, h.forks, h.scopes.shutScope s, .cons (.refl _) h.told⟩

end World.Restates

end EffectMachine
