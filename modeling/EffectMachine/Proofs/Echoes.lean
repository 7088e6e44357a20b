import EffectMachine.Proofs.Calls
import EffectMachine.Proofs.Rewriting

/-!
# Computations that echo each other

Two runs of effects that are the same up to replaced parts lead to worlds that are the same up to
replaced parts of release effects (`World.Rewrites`). A family of computations *echoes* a
computation if, whenever the latter answers, the members of the family give the same answer from
some indices on, from every related world, and lead to a related world (`Machine.Echoes`). The
indices are the depth to which scopes may close and the fuel.

This is `Covers` for two programs. Nothing is said about what is answered, since any answer may be
handed to a closure: closures are the same on both sides, or are paired.
-/

namespace EffectMachine

variable {S : Signature} {α β : Type} {L : Node S → Node S → Prop}

/-- Whatever the computation answers, from some indices on the family answers the same from every
related world, and the worlds that they lead to are related. -/
def Machine.Echoes (L : Node S → Node S → Prop) (M : Nat → Nat → Machine S α) (m : Machine S α) :
    Prop :=
  ∀ ⦃w w' x w₁⦄, w.Rewrites L w' → m w = (x, w₁) → x ≠ .error .exhausted →
    ∃ w₁' N, w₁.Rewrites L w₁' ∧ ∀ i, N ≤ i → ∀ n, N ≤ n → M i n w' = (x, w₁')

open Machine (Echoes)

namespace Machine.Echoes

variable {M : Nat → Nat → Machine S α} {m : Machine S α} {F : α → Nat → Nat → Machine S β}
  {f : α → Machine S β}

theorem pure (a : α) : Echoes L (fun _ _ ↦ Pure.pure a) (Pure.pure a : Machine S α) := by
  rintro w w' _ _ hw ⟨⟩ -
  exact ⟨w', 0, hw, fun _ _ _ _ ↦ rfl⟩

theorem panic (p : Panic) :
    Echoes L (fun _ _ ↦ escape (.panic p)) (escape (.panic p) : Machine S α) := by
  rintro w w' _ _ hw ⟨⟩ -
  exact ⟨w', 0, hw, fun _ _ _ _ ↦ rfl⟩

/-- Nothing is asked of a computation that is out of fuel. -/
theorem exhausted (M : Nat → Nat → Machine S α) : Echoes L M (escape .exhausted) := by
  rintro w w' _ _ - ⟨⟩ hx
  exact absurd rfl hx

theorem bind (h : Echoes L M m) (hf : ∀ a, Echoes L (F a) (f a)) :
    Echoes L (fun i n ↦ M i n >>= fun a ↦ F a i n) (m >>= f) := by
  intro w w' y w₂ hw heq hy
  rcases bind_eq heq with ⟨a, w₁, hm, ha⟩ | ⟨e, hm, rfl⟩
  · obtain ⟨w₁', N, hw₁, hM⟩ := h hw hm nofun
    obtain ⟨w₂', N', hw₂, hF⟩ := hf a hw₁ ha hy
    refine ⟨w₂', max N N', hw₂, fun i hi n hn ↦ ?_⟩
    exact (bind_ok (hM i (by omega) n (by omega)) _).trans (hF i (by omega) n (by omega))
  · obtain ⟨w₁', N, hw₁, hM⟩ := h hw hm (Escape.ne_exhausted hy)
    exact ⟨w₁', N, hw₁, fun i hi n hn ↦ bind_error (hM i hi n hn) _⟩

/-- A change of both worlds that yields the same. -/
theorem change {g k : World S → α × World S}
    (hg : ∀ w w', w.Rewrites L w' → (k w').1 = (g w).1 ∧ (g w).2.Rewrites L (k w').2)
    (hf : ∀ a, Echoes L (F a) (f a)) :
    Echoes L (fun i n ↦ modifyGet k >>= fun a ↦ F a i n) (modifyGet g >>= f) := by
  intro w w' y w₂ hw heq hy
  obtain ⟨hyields, hw₁⟩ := hg w w' hw
  obtain ⟨w₂', N, hw₂, hF⟩ := hf _ hw₁ heq hy
  refine ⟨w₂', N, hw₂, fun i hi n hn ↦ ?_⟩
  show F (k w').1 i n (k w').2 = _
  rw [hyields]
  exact hF i hi n hn

/-- A look at both worlds, which shows the same. -/
theorem look {g : World S → α} (hg : ∀ w w', w.Rewrites L w' → g w' = g w)
    (hf : ∀ a, Echoes L (F a) (f a)) :
    Echoes L (fun i n ↦ gets g >>= fun a ↦ F a i n) (gets g >>= f) :=
  change (g := fun w ↦ (g w, w)) (k := fun w ↦ (g w, w)) (fun w w' hw ↦ ⟨hg w w' hw, hw⟩) hf

/-- A look at both worlds, which shows what is related. -/
theorem look_related {g : World S → α} {R : α → α → Prop}
    (hg : ∀ w w', w.Rewrites L w' → R (g w) (g w'))
    (hf : ∀ a a', R a a' → Echoes L (F a') (f a)) :
    Echoes L (fun i n ↦ gets g >>= fun a ↦ F a i n) (gets g >>= f) :=
  fun w w' _ _ hw heq hy ↦ hf _ _ (hg w w' hw) hw heq hy

/-- A change of both worlds without a result. -/
theorem alter {g k : World S → World S} {F : Nat → Nat → Machine S β} {f : Machine S β}
    (hg : ∀ w w', w.Rewrites L w' → (g w).Rewrites L (k w')) (hf : Echoes L F f) :
    Echoes L (fun i n ↦ modify k >>= fun _ ↦ F i n) (modify g >>= fun _ ↦ f) :=
  change (g := fun w ↦ ((), g w)) (k := fun w ↦ ((), k w)) (fun w w' hw ↦ ⟨rfl, hg w w' hw⟩)
    fun _ ↦ hf

/-- A guard turns panics into the same defect. -/
theorem guard (h : Echoes L M m) : Echoes L (fun i n ↦ (M i n).guard) m.guard := by
  intro w w' y w₁ hw heq hy
  rw [guard_apply] at heq
  obtain ⟨rfl, rfl⟩ := Prod.mk.inj heq
  rcases hm : m w with ⟨x, w₁⟩
  rw [hm] at hy
  obtain ⟨w₁', N, hw₁, hM⟩ := h hw hm fun hx ↦ hy (by rw [hx]; rfl)
  refine ⟨w₁', N, hw₁, fun i hi n hn ↦ ?_⟩
  show (M i n).guard w' = _
  rw [guard_apply, hM i hi n hn]

/-- Echoing is about large indices only. -/
theorem of_tail (h : Echoes L (fun i n ↦ M i (n + 1)) m) : Echoes L M m := by
  intro w w' x w₁ hw heq hx
  obtain ⟨w₁', N, hw₁, hM⟩ := h hw heq hx
  refine ⟨w₁', N + 1, hw₁, fun i hi n hn ↦ ?_⟩
  obtain ⟨k, rfl⟩ : ∃ k, n = k + 1 := ⟨n - 1, by omega⟩
  exact hM i (by omega) k (by omega)

/-- The fuel may run ahead. -/
theorem ahead (h : Echoes L M m) (a : Nat) : Echoes L (fun i n ↦ M i (n + a)) m := by
  intro w w' x w₁ hw heq hx
  obtain ⟨w₁', N, hw₁, hM⟩ := h hw heq hx
  exact ⟨w₁', N, hw₁, fun i hi n hn ↦ hM i hi (n + a) (by omega)⟩

/-- A family that is the diagonal of another one, one index later, echoes what the other does. -/
theorem diagonal {D : Nat → Machine S α} (h : Echoes L M m) (hD : ∀ k, D (k + 1) = M k k) :
    Echoes L (fun i _ ↦ D i) m := by
  intro w w' x w₁ hw heq hx
  obtain ⟨w₁', N, hw₁, hM⟩ := h hw heq hx
  refine ⟨w₁', N + 1, hw₁, fun i hi _ _ ↦ ?_⟩
  obtain ⟨k, rfl⟩ : ∃ k, i = k + 1 := ⟨i - 1, by omega⟩
  exact (congrFun (hD k) w').trans (hM k (by omega) k (by omega))

/-- A failure skips what follows a value. -/
theorem onValue {M : Nat → Nat → Machine S (Outcome S.Error α)}
    {m : Machine S (Outcome S.Error α)} {K : α → Nat → Nat → Machine S (Outcome S.Error β)}
    {k : α → Machine S (Outcome S.Error β)} (h : Echoes L M m)
    (hk : ∀ a, Echoes L (K a) (k a)) :
    Echoes L (fun i n ↦ (M i n).onValue fun a ↦ K a i n) (m.onValue k) := by
  refine .bind h fun o ↦ ?_
  cases o with
  | error c => exact .pure _
  | ok a => exact hk a

end Machine.Echoes

/-- Closing any scope is echoed. -/
def Closer.Echoes (L : Node S → Node S → Prop) (C : Nat → Closer S) (c : Closer S) : Prop :=
  ∀ s, Machine.Echoes L (fun i _ ↦ C i s) (c s)

/-- Doing something in a fresh scope. -/
theorem Machine.Echoes.inScope {c : Closer S} {C : Nat → Closer S} (hc : Closer.Echoes L C c)
    {B : ScopeId → Nat → Nat → Machine S (Outcome S.Error α)}
    {body : ScopeId → Machine S (Outcome S.Error α)} (hb : ∀ s, Echoes L (B s) (body s)) :
    Echoes L (fun i n ↦ Machine.inScope (C i) fun s ↦ B s i n) (Machine.inScope c body) :=
  .change (fun _ _ hw ↦ hw.enterScope) fun s ↦ .bind (hb s) fun _ ↦ .bind (hc s) fun _ ↦ .pure _

/-! ### Closures -/

namespace Host

variable {h : Host S} {H : Nat → Host S}
  (hclose : Closer.Echoes L (fun i ↦ (H i).close) h.close)
include hclose

/-- A closure is echoed by itself. -/
theorem perform_echoes (x : Action S α) :
    Echoes L (fun i _ ↦ (H i).perform x) (h.perform x) := by
  induction x with
  | done a => exact .pure a
  | panic p => exact .panic p
  | read k ih =>
    simp only [perform_read]
    exact .look (fun _ _ hw ↦ hw.state) ih
  | write s k ih =>
    simp only [perform_write]
    exact .alter (fun _ _ hw ↦ hw.withState s) ih
  | now k ih =>
    simp only [perform_now]
    exact .look (fun _ _ hw ↦ by rw [hw.clock]) ih
  | advance d k ih =>
    simp only [perform_advance]
    exact .alter (fun _ _ hw ↦ hw.withClock _) ih
  | sleep d k ih =>
    simp only [perform_sleep]
    exact .alter (fun _ _ hw ↦ hw.withClock _) ih
  | draw k ih =>
    simp only [perform_draw]
    exact .change (fun _ _ hw ↦ hw.draw) ih
  | openScope k ih =>
    simp only [perform_openScope]
    exact .change (fun _ _ hw ↦ hw.openScope) ih
  | addCleanup s c k ih =>
    simp only [perform_addCleanup]
    exact .change (fun _ _ hw ↦ hw.addFinalizer s (.cleanup c)) ih
  | closeScope s k ih =>
    simp only [perform_closeScope]
    exact .bind (hclose s) ih
  | inspect s k ih =>
    simp only [perform_inspect]
    exact .look (fun _ _ hw ↦ hw.status s) ih
  | settle s o k ih =>
    simp only [perform_settle]
    exact .change (fun _ _ hw ↦ hw.settle s o) ih
  | take s k ih =>
    simp only [perform_take]
    exact .change (fun _ _ hw ↦ hw.takeOutcome s) ih

theorem attempt_echoes (x : Action S α) :
    Echoes L (fun i _ ↦ (H i).attempt x) (h.attempt x) :=
  (perform_echoes hclose x).guard

/-- A call is echoed by a call of the closure that it is paired with. -/
theorem call_echoes {R : α → α → Prop} {x x' : Action S α} (hx : x.Paired R x')
    {K : α → Nat → Nat → Machine S (Outcome S.Error β)} {k : α → Machine S (Outcome S.Error β)}
    (hk : ∀ a a', R a a' → Echoes L (K a') (k a)) :
    Echoes L (fun i n ↦ (H i).call x' fun a ↦ K a i n) (h.call x k) := by
  obtain ⟨ι, z, l, r, rfl, rfl, hlr⟩ := hx
  simp only [call_bind, call_done]
  refine .bind (attempt_echoes hclose z) fun y ↦ ?_
  cases y with
  | error d => exact .pure _
  | ok i => exact hk (l i) (r i) (hlr i)

end Host

end EffectMachine
