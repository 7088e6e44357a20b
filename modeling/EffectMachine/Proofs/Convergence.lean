import EffectMachine.Proofs.Computation
import EffectMachine.Proofs.Evaluator

/-!
# Convergence

Two computations that are bounded by unrelated fuels cannot be compared fuel by fuel. A family of
computations, indexed by the depth to which scopes may close and by the fuel of the rounds,
*converges* on an answer in a world if all its members from some indices on give that answer. A
family *covers* a computation if it converges on whatever the computation yields; members that are
out of fuel yield nothing.

Answers are compared up to the budgets (`World.Alike`), which count the steps that one side makes
and the other does not. That the budgets are never looked at is part of covering: a family converges
from every world that is alike.
-/

namespace EffectMachine

variable {S : Signature} {α β : Type}

/-! ### Worlds up to their budgets -/

namespace World

/-- The world with its budgets forgotten. -/
def uncounted (w : World S) : World S := { w with budgets := {} }

/-- Worlds that differ in their budgets only. -/
def Alike (w₁ w₂ : World S) : Prop := w₁.uncounted = w₂.uncounted

namespace Alike

variable {w₁ w₂ w₃ : World S}

@[refl] theorem refl (w : World S) : Alike w w := rfl

@[symm] theorem symm (h : Alike w₁ w₂) : Alike w₂ w₁ := Eq.symm h

theorem trans (h : Alike w₁ w₂) (h' : Alike w₂ w₃) : Alike w₁ w₃ := Eq.trans h h'

/-- One world is the other with budgets of its own. -/
theorem eq_with (h : Alike w₁ w₂) : w₁ = { w₂ with budgets := w₁.budgets } := by
  cases w₁
  cases w₂
  simp only [Alike, uncounted, World.mk.injEq, true_and] at h ⊢
  exact h

end Alike

/-- A change that neither looks at the budgets nor touches them. -/
def Uncounting (f : World S → α × World S) : Prop :=
  ∀ w budgets, f { w with budgets } = ((f w).1, { (f w).2 with budgets })

theorem uncounting_addFinalizer (s : ScopeId) (f : Finalizer S) :
    Uncounting fun w ↦ w.addFinalizer s f := by
  intro w budgets
  by_cases h : (w.scope s).closed = true
  · have h' : (World.scope { w with budgets } s).closed = true := h
    simp only [addFinalizer, if_pos h, if_pos h']
    rfl
  · have h' : ¬(World.scope { w with budgets } s).closed = true := h
    simp only [addFinalizer, if_neg h, if_neg h']
    rfl

end World

open World (Alike Uncounting)

/-- From some indices on, the members of a family give one answer, from every world alike. -/
def Converges (M : Nat → Nat → Machine S α) (w : World S) (x : Except Escape α) (w' : World S) :
    Prop :=
  ∃ N, ∀ m, N ≤ m → ∀ n, N ≤ n → ∀ w₁, Alike w₁ w → ∃ w₁', M m n w₁ = (x, w₁') ∧ Alike w₁' w'

namespace Converges

variable {M : Nat → Nat → Machine S α} {F : α → Nat → Nat → Machine S β}
  {w w₁ w' w₁' w'' : World S} {x : Except Escape α} {y : Except Escape β} {a : α}

/-- The worlds on both ends matter up to their budgets only. -/
theorem congr (h : Converges M w x w') (hw : Alike w₁ w) (hw' : Alike w' w₁') :
    Converges M w₁ x w₁' := by
  obtain ⟨N, hN⟩ := h
  refine ⟨N, fun m hm n hn w₂ hw₂ ↦ ?_⟩
  obtain ⟨w₂', heq, hw₂'⟩ := hN m hm n hn w₂ (hw₂.trans hw)
  exact ⟨w₂', heq, hw₂'.trans hw'⟩

/-- A family that is another one with more fuel converges with it. -/
theorem succ {M' : Nat → Nat → Machine S α} (h : Converges M' w x w')
    (heq : ∀ m n, M m (n + 1) = M' m n) : Converges M w x w' := by
  obtain ⟨N, hN⟩ := h
  refine ⟨N + 1, fun m hm n hn ↦ ?_⟩
  obtain ⟨k, rfl⟩ : ∃ k, n = k + 1 := ⟨n - 1, by omega⟩
  rw [heq]
  exact hN m (by omega) k (by omega)

theorem pure (a : α) (w : World S) : Converges (fun _ _ ↦ Pure.pure a) w (.ok a) w :=
  ⟨0, fun _ _ _ _ w₁ hw₁ ↦ ⟨w₁, rfl, hw₁⟩⟩

/-- Convergence of what comes first and of what follows. -/
theorem bind (h : Converges M w (.ok a) w') (hF : Converges (F a) w' y w'') :
    Converges (fun m n ↦ M m n >>= fun a ↦ F a m n) w y w'' := by
  obtain ⟨N, hN⟩ := h
  obtain ⟨N', hN'⟩ := hF
  refine ⟨max N N', fun m hm n hn w₁ hw₁ ↦ ?_⟩
  obtain ⟨w₂, heq, hw₂⟩ := hN m (by omega) n (by omega) w₁ hw₁
  obtain ⟨w₃, heq', hw₃⟩ := hN' m (by omega) n (by omega) w₂ hw₂
  exact ⟨w₃, (Machine.bind_ok heq _).trans heq', hw₃⟩

/-- An escape skips what follows. -/
theorem bind_error {e : Escape} (h : Converges M w (.error e) w') :
    Converges (fun m n ↦ M m n >>= fun a ↦ F a m n) w (.error e) w' := by
  obtain ⟨N, hN⟩ := h
  refine ⟨N, fun m hm n hn w₁ hw₁ ↦ ?_⟩
  obtain ⟨w₂, heq, hw₂⟩ := hN m hm n hn w₁ hw₁
  exact ⟨w₂, Machine.bind_error heq _, hw₂⟩

/-- A change of the world that has nothing to do with budgets. -/
theorem modifyGet {f : World S → α × World S} (hf : Uncounting f) (w : World S) :
    Converges (fun _ _ ↦ Machine.modifyGet f) w (.ok (f w).1) (f w).2 := by
  refine ⟨0, fun _ _ _ _ w₁ hw₁ ↦ ⟨(f w₁).2, ?_, ?_⟩⟩
  · show (Except.ok (f w₁).1, (f w₁).2) = _
    rw [hw₁.eq_with, hf]
  · rw [hw₁.eq_with, hf]
    rfl

end Converges

/-! ### Covering -/

/-- A family converges on whatever a computation yields. -/
def Covers (M : Nat → Nat → Machine S α) (m : Machine S α) : Prop :=
  ∀ ⦃w x w'⦄, m w = (x, w') → x ≠ .error .exhausted → Converges M w x w'

namespace Covers

variable {M M' : Nat → Nat → Machine S α} {m m' : Machine S α}
  {F : α → Nat → Nat → Machine S β} {f : α → Machine S β}

theorem pure (a : α) : Covers (S := S) (fun _ _ ↦ Pure.pure a) (Pure.pure a) := by
  rintro w _ _ ⟨⟩ -
  exact .pure a w

/-- Nothing is asked of a computation that is out of fuel. -/
theorem exhausted (M : Nat → Nat → Machine S α) : Covers M (.escape .exhausted) := by
  rintro w _ _ ⟨⟩ h
  exact absurd rfl h

theorem bind (h : Covers M m) (hF : ∀ a, Covers (F a) (f a)) :
    Covers (fun i n ↦ M i n >>= fun a ↦ F a i n) (m >>= f) := by
  intro w y w'' heq hy
  rcases Machine.bind_eq heq with ⟨a, w', hm, hf⟩ | ⟨e, hm, rfl⟩
  · exact (h hm nofun).bind (hF a hf hy)
  · exact (h hm (Escape.ne_exhausted hy)).bind_error

/-- Panics are turned into the same defect. -/
theorem guard (h : Covers M m) : Covers (fun i n ↦ (M i n).guard) m.guard := by
  intro w y w' heq hy
  rw [Machine.guard_apply] at heq
  obtain ⟨rfl, rfl⟩ := Prod.mk.inj heq
  obtain ⟨N, hN⟩ := @h w (m w).1 (m w).2 rfl fun hx ↦ hy (by rw [hx]; rfl)
  refine ⟨N, fun i hi n hn w₁ hw₁ ↦ ?_⟩
  obtain ⟨w₁', heq, hw₁'⟩ := hN i hi n hn w₁ hw₁
  refine ⟨w₁', ?_, hw₁'⟩
  show (M i n).guard w₁ = _
  rw [Machine.guard_apply, heq]

theorem modifyGet {f : World S → α × World S} (hf : Uncounting f) :
    Covers (fun _ _ ↦ Machine.modifyGet f) (Machine.modifyGet f) := by
  rintro w _ _ ⟨⟩ -
  exact .modifyGet hf w

theorem modify {f : World S → World S}
    (hf : ∀ w budgets, f { w with budgets } = { f w with budgets }) :
    Covers (fun _ _ ↦ Machine.modify f) (Machine.modify f) :=
  modifyGet (f := fun w ↦ ((), f w)) fun w budgets ↦ Prod.ext rfl (hf w budgets)

theorem gets {f : World S → α} (hf : ∀ w budgets, f { w with budgets } = f w) :
    Covers (fun _ _ ↦ Machine.gets f) (Machine.gets f) :=
  modifyGet (f := fun w ↦ (f w, w)) fun w budgets ↦ Prod.ext (hf w budgets) rfl

theorem of_eq (h : Covers M' m) (heq : ∀ i n, M i n = M' i n) : Covers M m := by
  obtain rfl : M = M' := funext fun i ↦ funext (heq i)
  exact h

theorem trans_eq (h : Covers M m) (heq : m = m') : Covers M m' := heq ▸ h

/-- Covering is about large indices only. -/
theorem of_tail (h : Covers (fun i n ↦ M i (n + 1)) m) : Covers M m := by
  intro w x w' heq hx
  exact (h heq hx).succ fun _ _ ↦ rfl

theorem tail (h : Covers M m) : Covers (fun i n ↦ M i (n + 1)) m := by
  intro w x w' heq hx
  obtain ⟨N, hN⟩ := h heq hx
  exact ⟨N, fun i hi n hn ↦ hN i hi (n + 1) (by omega)⟩

/-- A family that is another one after counting a step covers what the other does. -/
theorem tick (h : Covers M' m) (b : BudgetId)
    (hM : ∀ i n, M i (n + 1) =
      .modify (fun w ↦ w.modifyBudget b Budget.tick) >>= fun _ ↦ M' i n) :
    Covers M m := by
  intro w x w' heq hx
  obtain ⟨N, hN⟩ := h heq hx
  have hcounted : Converges (fun i n ↦
      .modify (fun w ↦ w.modifyBudget b Budget.tick) >>= fun _ ↦ M' i n) w x w' :=
    ⟨N, fun i hi n hn w₁ hw₁ ↦ hN i hi n hn _ (Alike.trans rfl hw₁)⟩
  exact hcounted.succ hM

/-- A family may look at the world first if it does not matter what it sees. -/
theorem gets_left {M : β → Nat → Nat → Machine S α} {f : World S → β}
    (hf : ∀ w budgets, f { w with budgets } = f w) (h : ∀ b, Covers (M b) m) :
    Covers (fun i n ↦ .gets f >>= fun b ↦ M b i n) m := by
  intro w x w' heq hx
  exact (Converges.modifyGet (f := fun w ↦ (f w, w))
    (fun w budgets ↦ Prod.ext (hf w budgets) rfl) w).bind (h (f w) heq hx)

/-- A computation may look at the world first if it does not matter what it sees. -/
theorem gets_right {f : World S → β} {g : β → Machine S α} (h : ∀ b, Covers M (g b)) :
    Covers M (.gets f >>= g) :=
  fun w _ _ heq hx ↦ h (f w) heq hx

/-- A family that is the diagonal of another one, one index later, covers what the other does. -/
theorem diagonal {D : Nat → Machine S α} (h : Covers M m) (hD : ∀ k, D (k + 1) = M k k) :
    Covers (fun i _ ↦ D i) m := by
  intro w x w' heq hx
  obtain ⟨N, hN⟩ := h heq hx
  refine ⟨N + 1, fun i hi n _ ↦ ?_⟩
  obtain ⟨k, rfl⟩ : ∃ k, i = k + 1 := ⟨i - 1, by omega⟩
  show ∀ w₁, Alike w₁ w → ∃ w₁', D (k + 1) w₁ = (x, w₁') ∧ Alike w₁' w'
  rw [hD]
  exact hN k (by omega) k (by omega)

/-! ### Closures and closings -/

section Host

variable {h : Host S} {C : Nat → Closer S}

/-- A closure sees how scopes close through the answers only. -/
theorem perform (hc : ∀ s, Covers (fun i _ ↦ C i s) (h.close s)) (a : Action S α) :
    Covers (fun i _ ↦ Host.perform { h with close := C i } a) (h.perform a) := by
  induction a with
  | done a => exact pure a
  | panic p =>
    rintro w _ _ ⟨⟩ -
    exact ⟨0, fun _ _ _ _ w₁ hw₁ ↦ ⟨w₁, rfl, hw₁⟩⟩
  | read k ih =>
    simp only [Host.perform_read]
    exact (gets fun _ _ ↦ rfl).bind ih
  | write s k ih =>
    simp only [Host.perform_write]
    exact (modify fun _ _ ↦ rfl).bind fun _ ↦ ih
  | now k ih =>
    simp only [Host.perform_now]
    exact (gets fun _ _ ↦ rfl).bind ih
  | advance d k ih =>
    simp only [Host.perform_advance]
    exact (modify fun _ _ ↦ rfl).bind fun _ ↦ ih
  | sleep d k ih =>
    simp only [Host.perform_sleep]
    exact (modify fun _ _ ↦ rfl).bind fun _ ↦ ih
  | draw k ih =>
    simp only [Host.perform_draw]
    exact (modifyGet fun _ _ ↦ rfl).bind ih
  | openScope k ih =>
    simp only [Host.perform_openScope]
    exact (modifyGet fun _ _ ↦ rfl).bind ih
  | addCleanup s c k ih =>
    simp only [Host.perform_addCleanup]
    exact (modifyGet (World.uncounting_addFinalizer s (.cleanup c))).bind ih
  | closeScope s k ih =>
    simp only [Host.perform_closeScope]
    exact (hc s).bind ih
  | inspect s k ih =>
    simp only [Host.perform_inspect]
    exact (gets fun _ _ ↦ rfl).bind ih
  | settle s o k ih =>
    simp only [Host.perform_settle]
    exact (modifyGet fun _ _ ↦ rfl).bind ih
  | take s k ih =>
    simp only [Host.perform_take]
    exact (modifyGet fun _ _ ↦ rfl).bind ih

theorem attempt (hc : ∀ s, Covers (fun i _ ↦ C i s) (h.close s)) (a : Action S α) :
    Covers (fun i _ ↦ Host.attempt { h with close := C i } a) (h.attempt a) :=
  (perform hc a).guard

theorem build (hc : ∀ s, Covers (fun i _ ↦ C i s) (h.close s)) (a : Action S (Plan S)) :
    Covers (fun i _ ↦ Host.build { h with close := C i } a) (h.build a) :=
  attempt hc _

variable {R : Nat → Nat → Releaser S} {release : Releaser S}

theorem finalize (hc : ∀ s, Covers (fun i _ ↦ C i s) (h.close s))
    (hr : ∀ node context budget, Covers (fun i n ↦ R i n node context budget)
      (release node context budget)) (f : Finalizer S) :
    Covers (fun i n ↦ Host.finalize { h with close := C i } (R i n) f) (h.finalize release f) := by
  cases f with
  | cleanup c => exact perform hc _
  | release a context budget =>
    refine (build hc a).bind fun
      | .error d => pure _
      | .ok node => (hr node context budget).bind fun o ↦ pure _

theorem invoke (hc : ∀ s, Covers (fun i _ ↦ C i s) (h.close s))
    (hr : ∀ node context budget, Covers (fun i n ↦ R i n node context budget)
      (release node context budget)) (s : ScopeId) (f : Finalizer S) :
    Covers (fun i n ↦ Host.invoke { h with close := C i } (R i n) s f) (h.invoke release s f) :=
  (modify fun _ _ ↦ rfl).bind fun _ ↦ (finalize hc hr f).guard.bind fun _ ↦
    (modify fun _ _ ↦ rfl).bind fun _ ↦ pure _

theorem invokeAll (hc : ∀ s, Covers (fun i _ ↦ C i s) (h.close s))
    (hr : ∀ node context budget, Covers (fun i n ↦ R i n node context budget)
      (release node context budget)) (s : ScopeId) (fs : List (Finalizer S)) :
    Covers (fun i n ↦ Host.invokeAll { h with close := C i } (R i n) s fs)
      (h.invokeAll release s fs) := by
  induction fs with
  | nil => exact pure _
  | cons f fs ih =>
    exact (invoke hc hr s f).bind fun
      | .ok () => ih
      | .error cause => ih.bind fun _ ↦ pure _

/-- Closing a scope sees how release effects are interpreted through the answers only. -/
theorem shut (hc : ∀ s, Covers (fun i _ ↦ C i s) (h.close s))
    (hr : ∀ node context budget, Covers (fun i n ↦ R i n node context budget)
      (release node context budget)) (s : ScopeId) :
    Covers (fun i n ↦ Host.shut { h with close := C i } (R i n) s) (h.shut release s) := by
  refine (gets fun _ _ ↦ rfl).bind fun scope ↦ ?_
  cases scope.closed with
  | true => exact pure _
  | false =>
    exact (modify fun _ _ ↦ rfl).bind fun _ ↦
      (invokeAll hc hr s scope.finalizers).bind fun failures ↦
      (modify fun _ _ ↦ rfl).bind fun _ ↦ by cases failures <;> exact pure _

/-- Doing something in a fresh scope. -/
theorem inScope {c : Closer S} (hc : ∀ s, Covers (fun i _ ↦ C i s) (c s))
    {B : Nat → Nat → ScopeId → Machine S (Outcome S.Error α)}
    {body : ScopeId → Machine S (Outcome S.Error α)}
    (hb : ∀ s, Covers (fun i n ↦ B i n s) (body s)) :
    Covers (fun i n ↦ Machine.inScope (C i) (B i n)) (Machine.inScope c body) :=
  (modifyGet fun _ _ ↦ rfl).bind fun s ↦ (hb s).bind fun _ ↦ (hc s).bind fun _ ↦ pure _

end Host

end Covers

end EffectMachine
