import EffectMachine.Machine.Interpreter

/-!
# What closures may do

Statements about all runs of an effect have to speak about the closures inside it. An action is a
tree of requests, so what it may do is read off the tree: `Action.Yields` says which results it may
end in, `Action.Quiet` that it never closes a scope, `Action.SettlesOnly` that it never takes an
outcome out of a slot, `Action.Steady` that it never panics. A reply to a request may be anything;
no world is involved.

From an effect its closures lead to further effects. `Program.Child` is one such step and
`Program.Descends` any number of them: the effects that interpreting an effect may ever visit. An
effect is quiet (`Program.Quiet`) if no closure of any of these closes a scope, and it only settles
slots (`Program.SettlesOnly`) if none of them takes an outcome out of one.
-/

namespace EffectMachine

variable {S : Signature} {α β : Type}

namespace Action

/-- The results that an action may end in. -/
def Yields : Action S α → α → Prop
  | .done a, b => b = a
  | .panic _, _ => False
  | .read k, b => ∃ s, (k s).Yields b
  | .write _ k, b => k.Yields b
  | .now k, b => ∃ t, (k t).Yields b
  | .advance _ k, b => k.Yields b
  | .sleep _ k, b => k.Yields b
  | .draw k, b => ∃ x, (k x).Yields b
  | .openScope k, b => ∃ s, (k s).Yields b
  | .addCleanup _ _ k, b => ∃ r, (k r).Yields b
  | .closeScope _ k, b => ∃ o, (k o).Yields b
  | .inspect _ k, b => ∃ st, (k st).Yields b
  | .settle _ _ k, b => ∃ first, (k first).Yields b
  | .take _ k, b => ∃ o, (k o).Yields b

/-- The action closes no scope. -/
def Quiet : Action S α → Prop
  | .done _ => True
  | .panic _ => True
  | .read k => ∀ s, (k s).Quiet
  | .write _ k => k.Quiet
  | .now k => ∀ t, (k t).Quiet
  | .advance _ k => k.Quiet
  | .sleep _ k => k.Quiet
  | .draw k => ∀ x, (k x).Quiet
  | .openScope k => ∀ s, (k s).Quiet
  | .addCleanup _ _ k => ∀ r, (k r).Quiet
  | .closeScope _ _ => False
  | .inspect _ k => ∀ st, (k st).Quiet
  | .settle _ _ k => ∀ first, (k first).Quiet
  | .take _ k => ∀ o, (k o).Quiet

/-- The action takes no outcome out of a slot. The only thing that it may do to slots is to settle
them. -/
def SettlesOnly : Action S α → Prop
  | .done _ => True
  | .panic _ => True
  | .read k => ∀ s, (k s).SettlesOnly
  | .write _ k => k.SettlesOnly
  | .now k => ∀ t, (k t).SettlesOnly
  | .advance _ k => k.SettlesOnly
  | .sleep _ k => k.SettlesOnly
  | .draw k => ∀ x, (k x).SettlesOnly
  | .openScope k => ∀ s, (k s).SettlesOnly
  | .addCleanup _ _ k => ∀ r, (k r).SettlesOnly
  | .closeScope _ k => ∀ o, (k o).SettlesOnly
  | .inspect _ k => ∀ st, (k st).SettlesOnly
  | .settle _ _ k => ∀ first, (k first).SettlesOnly
  | .take _ _ => False

/-- The action does not panic. -/
def Steady : Action S α → Prop
  | .done _ => True
  | .panic _ => False
  | .read k => ∀ s, (k s).Steady
  | .write _ k => k.Steady
  | .now k => ∀ t, (k t).Steady
  | .advance _ k => k.Steady
  | .sleep _ k => k.Steady
  | .draw k => ∀ x, (k x).Steady
  | .openScope k => ∀ s, (k s).Steady
  | .addCleanup _ _ k => ∀ r, (k r).Steady
  | .closeScope _ k => ∀ o, (k o).Steady
  | .inspect _ k => ∀ st, (k st).Steady
  | .settle _ _ k => ∀ first, (k first).Steady
  | .take _ k => ∀ o, (k o).Steady

@[simp] theorem yields_done {a b : α} : (Action.done a : Action S α).Yields b ↔ b = a := Iff.rfl

@[simp] theorem quiet_done (a : α) : (Action.done a : Action S α).Quiet := trivial

@[simp] theorem steady_done (a : α) : (Action.done a : Action S α).Steady := trivial

/-- A sequence yields what its second part yields for a result of its first part. -/
theorem yields_bind {x : Action S α} {f : α → Action S β} {b : β} :
    (x.bind f).Yields b ↔ ∃ a, x.Yields a ∧ (f a).Yields b := by
  induction x with
  | done a => simp [Yields]
  | panic p => simp [Yields, bind]
  | write _ _ ih | advance _ _ ih | sleep _ _ ih => simpa [Yields, bind] using ih
  | read _ ih | now _ ih | draw _ ih | openScope _ ih | addCleanup _ _ _ ih | closeScope _ _ ih
  | inspect _ _ ih | settle _ _ _ ih | take _ _ ih =>
    simp only [Yields, bind, ih]
    constructor
    · rintro ⟨r, a, hr, ha⟩
      exact ⟨a, ⟨r, hr⟩, ha⟩
    · rintro ⟨a, ⟨r, hr⟩, ha⟩
      exact ⟨r, a, hr, ha⟩

end Action

/-! ### Descendants -/

namespace Program

variable (p : Program S)

/-- Build the effect that an action plans. -/
def building (a : Action S (Plan S)) : Action S (Node S) := a.bind p.build

/-- Run a continuation and build the effect that it may answer with. -/
def continuing (a : Action S (Step S)) : Action S (Control S) := a.bind p.control

/-- A sub-effect of an effect, or one that a closure of it builds. -/
def Child : Node S → Node S → Prop
  | .suspend thunk, m => (p.building thunk).Yields m
  | .bind source next, m => m = source ∨ ∃ v, (p.continuing (next v)).Yields (.effect m)
  | .provide _ inner, m => m = inner
  | .recover source _ handler, m => m = source ∨ ∃ c, (p.building (handler c)).Yields m
  | .parallel branches _, m => m ∈ branches
  | .race branches, m => m ∈ branches
  | .retry source _, m => m = source
  | .region body, m => ∃ s, (p.building (body s)).Yields m
  | .finalizer release, m => (p.building release).Yields m
  | .timeout source _, m => m = source
  | .pure _, _ | .fail _, _ | .service _, _ | .sleep _, _ | .async _, _ => False

/-- An effect that interpreting another one may visit, in it or in its release effects. -/
inductive Descends : Node S → Node S → Prop where
  | refl (n : Node S) : Descends n n
  | step {n m k : Node S} (h : p.Child n m) (h' : Descends m k) : Descends n k

/-- All closures of the effect itself are as said. -/
def Closures (P : ∀ ⦃α : Type⦄, Action S α → Prop) : Node S → Prop
  | .pure make => P make
  | .suspend thunk => P (p.building thunk)
  | .bind _ next => ∀ v, P (p.continuing (next v))
  | .provide layer _ => ∀ c, P (layer.build c)
  | .async start => ∀ s, P (start s)
  | .recover _ accepts handler => ∀ c, P (accepts c) ∧ P (p.building (handler c))
  | .parallel _ collect => ∀ vs, P (collect vs)
  | .retry _ schedule => ∀ jitter f, P (schedule.decideFrom jitter f)
  | .region body => ∀ s, P (p.building (body s))
  | .finalizer release => P (p.building release)
  | .fail _ | .service _ | .sleep _ | .race _ | .timeout _ _ => True

/-- No closure of the effect itself closes a scope. -/
def Gentle : Node S → Prop := p.Closures fun _ a ↦ a.Quiet

/-- No closure of an effect, or of one that interpreting it may visit, closes a scope. -/
def Quiet (n : Node S) : Prop := ∀ m, p.Descends n m → p.Gentle m

/-- No closure of an effect, or of one that interpreting it may visit, takes an outcome out of a
slot. -/
def SettlesOnly (n : Node S) : Prop :=
  ∀ m, p.Descends n m → p.Closures (fun _ a ↦ a.SettlesOnly) m

/-- No finalizer that the program names closes a scope. -/
def Tidy : Prop := ∀ c, (p.cleanup c).Quiet

/-- No finalizer that the program names takes an outcome out of a slot. -/
def CleanupsSettleOnly : Prop := ∀ c, (p.cleanup c).SettlesOnly

variable {p}

section

variable {P P' : ∀ ⦃α : Type⦄, Action S α → Prop}

theorem Closures.mono {n : Node S} (h : p.Closures P n)
    (hP : ∀ ⦃α : Type⦄ (a : Action S α), P a → P' a) : p.Closures P' n := by
  cases n with
  | fail | service | sleep | race | timeout => trivial
  | pure | suspend | finalizer => exact hP _ h
  | bind | provide | async | parallel | region => exact fun x ↦ hP _ (h x)
  | recover => exact fun c ↦ ⟨hP _ (h c).1, hP _ (h c).2⟩
  | retry => exact fun jitter f ↦ hP _ (h jitter f)

/-- What holds of all actions holds of the closures of an effect. -/
theorem closures_of_forall (hP : ∀ ⦃α : Type⦄ (a : Action S α), P a) (n : Node S) :
    p.Closures P n := by
  cases n with
  | fail | service | sleep | race | timeout => trivial
  | pure | suspend | finalizer => exact hP _
  | bind | provide | async | parallel | region => exact fun _ ↦ hP _
  | recover => exact fun _ ↦ ⟨hP _, hP _⟩
  | retry => exact fun _ _ ↦ hP _

end

/-- What is said of all effects that may be visited holds of the first. -/
theorem Descends.first {P : Node S → Prop} {n : Node S} (h : ∀ m, p.Descends n m → P m) : P n :=
  h n (.refl n)

/-- What is said of all effects that may be visited is said of those of a child. -/
theorem Child.all {P : Node S → Prop} {n m : Node S} (h : p.Child n m)
    (hn : ∀ k, p.Descends n k → P k) : ∀ k, p.Descends m k → P k :=
  fun k hk ↦ hn k (.step h hk)

/-- What is said of all effects that may be visited is said of those that one of them leads to. -/
theorem Descends.all {P : Node S → Prop} {n m : Node S} (h : p.Descends n m)
    (hn : ∀ k, p.Descends n k → P k) : ∀ k, p.Descends m k → P k := by
  induction h with
  | refl => exact hn
  | step hc _ ih => exact ih (hc.all hn)

/-- The property of effects implies that they are quiet, and passes on to all that they lead to. -/
structure Hereditary (p : Program S) (N : Node S → Prop) : Prop where
  quiet : ∀ {n}, N n → p.Quiet n
  passes : ∀ {n m}, N n → p.Descends n m → N m

theorem hereditary_quiet (p : Program S) : p.Hereditary p.Quiet where
  quiet := id
  passes hn h := h.all hn

/-- What holds of an effect, and of all that its children may visit, holds of all that it may
visit. -/
theorem all_of {P : Node S → Prop} {n : Node S} (hn : P n)
    (h : ∀ m, p.Child n m → ∀ k, p.Descends m k → P k) : ∀ k, p.Descends n k → P k := by
  rintro k (_ | ⟨hc, hk⟩)
  · exact hn
  · exact h _ hc k hk

end Program

/-! ### Strategies -/

/-- The strategy closes no scope, and puts off branches only as effects that the branch may
visit. -/
structure Strategy.Quiet (σ : Strategy S) (p : Program S) : Prop where
  fork : ∀ job, (σ.fork job).Quiet
  deferred : ∀ job job', (σ.fork job).Yields (.deferred job') → p.Descends job.node job'.node
  join : ∀ id handle, (σ.join id handle).Quiet
  await : ∀ slot, (σ.await slot).Quiet
  sleep : ∀ d, (σ.sleep d).Quiet

/-- The strategy does not panic. -/
structure Strategy.Steady (σ : Strategy S) : Prop where
  fork : ∀ job, (σ.fork job).Steady
  join : ∀ id handle, (σ.join id handle).Steady
  await : ∀ slot, (σ.await slot).Steady
  sleep : ∀ d, (σ.sleep d).Steady

/-- The strategy puts branches off as they are. -/
def Strategy.KeepsJobs (σ : Strategy S) : Prop :=
  ∀ job job', (σ.fork job).Yields (.deferred job') → job' = job

theorem Strategy.keepsJobs_sync : (Strategy.sync : Strategy S).KeepsJobs := by
  rintro job _ ⟨⟩
  rfl

theorem Strategy.quiet_sync (p : Program S) : (Strategy.sync : Strategy S).Quiet p where
  fork _ := trivial
  deferred job job' h := by
    obtain ⟨⟩ := h
    exact .refl _
  join _ _ := trivial
  await _ _ := trivial
  sleep _ := trivial

theorem Strategy.steady_sync : (Strategy.sync : Strategy S).Steady where
  fork _ := trivial
  join _ _ := trivial
  await _ _ := trivial
  sleep _ := trivial

/-! ### A small application -/

/-- Errors, the state and the names of finalizers are numbers. -/
abbrev Tally : Signature where
  Error := Nat
  State := Nat
  Name := Empty
  Cleanup := Nat

/-- A named finalizer adds its number to the state. -/
def tally : Program Tally where
  effect := nofun
  cleanup n := .read fun k ↦ .write (k + n) (.done (.ok ()))

/-- A world with one budget. -/
def tallyWorld : World Tally where
  state := 0
  clock := {}
  noise := .ofSeed 0
  budgets := ⟨#[{}]⟩

theorem tidy_tally : tally.Tidy := fun _ _ ↦ trivial

theorem cleanupsSettleOnly_tally : tally.CleanupsSettleOnly := fun _ _ ↦ trivial

/-- A region with two finalizers, the last of which fails, whose body fails. -/
def failingRegion : Node Tally :=
  .region fun s ↦ .addCleanup s 1 fun _ ↦ .done (.node
    (.bind (.finalizer (.done (.node (.fail (.fail 8))))) fun _ ↦ .done (.failure (.fail 7))))

/-- What the region may visit. -/
theorem failingRegion_all {P : Node Tally → Prop} (hregion : P failingRegion)
    (hbind : ∀ source next, (∀ v, next v = .done (.failure (.fail 7))) → P (.bind source next))
    (hfinalizer : P (.finalizer (.done (.node (.fail (.fail 8)))))) (hfail : P (.fail (.fail 8))) :
    ∀ m, tally.Descends failingRegion m → P m := by
  refine Program.all_of hregion ?_
  rintro m ⟨s, r, ⟨⟩⟩
  refine Program.all_of (hbind _ _ fun _ ↦ rfl) ?_
  rintro m (rfl | ⟨v, ⟨⟩⟩)
  refine Program.all_of hfinalizer ?_
  rintro m ⟨⟩
  exact Program.all_of hfail nofun

theorem quiet_failingRegion : tally.Quiet failingRegion :=
  failingRegion_all (fun _ _ ↦ trivial) (fun _ next h v ↦ by rw [h]; trivial) trivial trivial

end EffectMachine
