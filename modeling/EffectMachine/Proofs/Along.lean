import EffectMachine.Proofs.Closures
import EffectMachine.Proofs.Computation

/-!
# Relations along computations

`Machine.Along R E m Q` says of a computation that the worlds before and after it are related by
`R`, whether it yields a result or panics; that results satisfy `Q`; and that it panics only if `E`
holds. Nothing is said of a computation that runs out of fuel. For a relation that is reflexive and
transitive this is closed under sequencing.

A `Drift` is such a relation that every request of a closure respects, other than closing a scope
and taking an outcome out of a slot. Closures that close scopes need the relation along these
closings, quiet ones do not; and closures that only settle slots may do without the relation when
outcomes are taken (`Host.perform_along`).

`Machine.Answers` says of the results alone that they are as said, whatever happens in the world. It
asks nothing of the way in which scopes are closed.
-/

namespace EffectMachine

variable {S : Signature} {α β : Type}

/-- The relation holds from the world before to the world after, results are as said, and panics
happen on a condition only. -/
def Machine.Along (R : World S → World S → Prop) (E : Prop) (m : Machine S α) (Q : α → Prop) :
    Prop :=
  ∀ ⦃w x w'⦄, m w = (x, w') → x ≠ .error .exhausted →
    R w w' ∧ (∀ a, x = .ok a → Q a) ∧ ∀ p, x = .error (.panic p) → E

/-- A relation between worlds that the requests of closures respect. -/
structure Drift (R : World S → World S → Prop) : Prop where
  refl : ∀ w, R w w
  trans : ∀ {w₁ w₂ w₃}, R w₁ w₂ → R w₂ w₃ → R w₁ w₃
  state : ∀ w state, R w { w with state }
  clock : ∀ w clock, R w { w with clock }
  noise : ∀ w noise, R w { w with noise }
  newSlot : ∀ w, R w w.newSlot.2
  settle : ∀ w s o, R w (w.settle s o).2
  forks : ∀ w forks, R w { w with forks }
  openScope : ∀ w, R w w.openScope.2
  addCleanup : ∀ w s c, R w (w.addFinalizer s (.cleanup c)).2

namespace Machine.Along

variable {R R' : World S → World S → Prop} {E E' : Prop} {m : Machine S α} {Q Q' : α → Prop}
  {f : α → Machine S β} {P : β → Prop}

theorem mono (h : Along R E m Q) (hR : ∀ {w w'}, R w w' → R' w w') (hE : E → E')
    (hQ : ∀ a, Q a → Q' a) : Along R' E' m Q' := by
  intro w x w' heq hx
  obtain ⟨hw, hok, hpanic⟩ := h heq hx
  exact ⟨hR hw, fun a ha ↦ hQ a (hok a ha), fun p hp ↦ hE (hpanic p hp)⟩

theorem post (h : Along R E m Q) (hQ : ∀ a, Q a → Q' a) : Along R E m Q' := h.mono id id hQ

theorem panics (h : Along R E m Q) (hE : E → E') : Along R E' m Q := h.mono id hE fun _ ↦ id

/-- What is said of the closure that a reply leads to, said of all of them. -/
theorem reply {ρ : Type} {k : ρ → Action S α} {r : ρ}
    (h : Along R (¬(k r).Steady) m (k r).Yields) :
    Along R (¬∀ r, (k r).Steady) m fun a ↦ ∃ r, (k r).Yields a :=
  h.mono id (fun hn hs ↦ hn (hs r)) fun _ ha ↦ ⟨r, ha⟩

theorem exhausted : Along R E (escape .exhausted : Machine S α) Q := by
  rintro w _ _ ⟨⟩ h
  exact absurd rfl h

section

variable (hR : Drift R)
include hR

theorem pure {a : α} (ha : Q a) : Along R E (Pure.pure a : Machine S α) Q := by
  rintro w _ _ ⟨⟩ -
  refine ⟨hR.refl w, ?_, nofun⟩
  rintro _ ⟨⟩
  exact ha

theorem bind (h : Along R E m Q) (hf : ∀ a, Q a → Along R E (f a) P) : Along R E (m >>= f) P := by
  intro w y w'' heq hy
  rcases bind_eq heq with ⟨a, w', hm, ha⟩ | ⟨e, hm, rfl⟩
  · obtain ⟨hw, hok, -⟩ := h hm nofun
    obtain ⟨hw', hpost⟩ := hf a (hok a rfl) ha hy
    exact ⟨hR.trans hw hw', hpost⟩
  · obtain ⟨hw, -, hpanic⟩ := h hm (Escape.ne_exhausted hy)
    exact ⟨hw, nofun, fun p hp ↦ hpanic p (by rw [Except.error.inj hp])⟩

theorem gets (f : World S → α) : Along R E (Machine.gets f) fun _ ↦ True := by
  rintro w _ _ ⟨⟩ -
  exact ⟨hR.refl w, fun _ _ ↦ trivial, nofun⟩

end

theorem modifyGet {f : World S → α × World S} (hf : ∀ w, R w (f w).2) :
    Along R E (Machine.modifyGet f) fun _ ↦ True := by
  rintro w _ _ ⟨⟩ -
  exact ⟨hf w, fun _ _ ↦ trivial, nofun⟩

theorem modify {f : World S → World S} (hf : ∀ w, R w (f w)) :
    Along R E (Machine.modify f) fun _ ↦ True :=
  modifyGet (f := fun w ↦ ((), f w)) hf

/-- A guarded computation does not panic. -/
theorem guard (h : Along R E m Q) : Along R E' m.guard fun x ↦ ∀ a, x = .ok a → Q a := by
  intro w y w' heq hy
  rw [guard_apply] at heq
  obtain ⟨rfl, rfl⟩ := Prod.mk.inj heq
  obtain ⟨hw, hok, -⟩ := h (w := w) (x := (m w).1) rfl fun hx ↦ hy (by rw [hx]; rfl)
  refine ⟨hw, ?_, fun p hp ↦ (guarded_ne_panic _ p hp).elim⟩
  rintro x hx a rfl
  refine hok a ?_
  generalize (m w).1 = x at hx
  rcases x with (p | _) | b
  · cases hx
  · cases hx
  · cases hx
    rfl

end Machine.Along

open Machine (Along)

namespace Host

variable {R : World S → World S → Prop} (hR : Drift R) (h : Host S)
include hR

/-- A closure respects a drift if the closings it asks for do, and the outcomes that it takes. It
ends in what it may yield. -/
theorem perform_along (a : Action S α)
    (ha : a.Quiet ∨ ∀ s, Along R False (h.close s) fun _ ↦ True)
    (htake : a.SettlesOnly ∨ ∀ w s, R w (w.takeOutcome s).2) :
    Along R (¬a.Steady) (h.perform a) a.Yields := by
  induction a with
  | done a => exact .pure hR rfl
  | panic p =>
    rintro w _ _ ⟨⟩ -
    exact ⟨hR.refl w, nofun, fun _ _ ↦ id⟩
  | read k ih =>
    rw [perform_read]
    refine .bind hR (.gets hR _) fun s _ ↦ ?_
    exact .reply (ih s (ha.imp_left fun ha ↦ ha s) (htake.imp_left fun ht ↦ ht s))
  | write s k ih =>
    rw [perform_write]
    exact .bind hR (.modify fun w ↦ hR.state w s) fun _ _ ↦ ih ha htake
  | now k ih =>
    rw [perform_now]
    refine .bind hR (.gets hR _) fun t _ ↦ ?_
    exact .reply (ih t (ha.imp_left fun ha ↦ ha t) (htake.imp_left fun ht ↦ ht t))
  | advance d k ih =>
    rw [perform_advance]
    exact .bind hR (.modify fun w ↦ hR.clock w _) fun _ _ ↦ ih ha htake
  | sleep d k ih =>
    rw [perform_sleep]
    exact .bind hR (.modify fun w ↦ hR.clock w _) fun _ _ ↦ ih ha htake
  | draw k ih =>
    rw [perform_draw]
    refine .bind hR (.modifyGet fun w ↦ hR.noise w _) fun x _ ↦ ?_
    exact .reply (ih x (ha.imp_left fun ha ↦ ha x) (htake.imp_left fun ht ↦ ht x))
  | openScope k ih =>
    rw [perform_openScope]
    refine .bind hR (.modifyGet hR.openScope) fun s _ ↦ ?_
    exact .reply (ih s (ha.imp_left fun ha ↦ ha s) (htake.imp_left fun ht ↦ ht s))
  | addCleanup s c k ih =>
    rw [perform_addCleanup]
    refine .bind hR (.modifyGet fun w ↦ hR.addCleanup w s c) fun r _ ↦ ?_
    exact .reply (ih r (ha.imp_left fun ha ↦ ha r) (htake.imp_left fun ht ↦ ht r))
  | closeScope s k ih =>
    have hclose := ha.resolve_left id
    rw [perform_closeScope]
    refine .bind hR ((hclose s).panics False.elim) fun o _ ↦ ?_
    exact .reply (ih o (.inr hclose) (htake.imp_left fun ht ↦ ht o))
  | inspect s k ih =>
    rw [perform_inspect]
    refine .bind hR (.gets hR _) fun st _ ↦ ?_
    exact .reply (ih st (ha.imp_left fun ha ↦ ha st) (htake.imp_left fun ht ↦ ht st))
  | settle s o k ih =>
    rw [perform_settle]
    refine .bind hR (.modifyGet fun w ↦ hR.settle w s o) fun r _ ↦ ?_
    exact .reply (ih r (ha.imp_left fun ha ↦ ha r) (htake.imp_left fun ht ↦ ht r))
  | take s k ih =>
    have htake := htake.resolve_left id
    rw [perform_take]
    refine .bind hR (.modifyGet fun w ↦ htake w s) fun o _ ↦ ?_
    exact .reply (ih o (ha.imp_left fun ha ↦ ha o) (.inr htake))

end Host

/-! ### Results alone -/

/-- Every result of a computation is as said. -/
def Machine.Answers (m : Machine S α) (Q : α → Prop) : Prop :=
  ∀ ⦃w a w'⦄, m w = (.ok a, w') → Q a

open Machine (Answers)

namespace Machine.Answers

variable {m : Machine S α} {f : α → Machine S β} {P : α → Prop} {Q : β → Prop}

theorem pure {a : α} (ha : P a) : Answers (Pure.pure a : Machine S α) P := by
  rintro w _ _ ⟨⟩
  exact ha

theorem escape {e : Escape} : Answers (Machine.escape e : Machine S α) P := nofun

theorem bind (hm : Answers m P) (hf : ∀ a, P a → Answers (f a) Q) : Answers (m >>= f) Q := by
  intro w b w'' heq
  obtain ⟨a, w', ha, hb⟩ := bind_eq_ok heq
  exact hf a (hm ha) hb

/-- A sequence answers as its second part does, whatever its first part answers. -/
theorem after (hf : ∀ a, Answers (f a) Q) : Answers (m >>= f) Q :=
  bind (P := fun _ ↦ True) (fun _ _ _ _ ↦ trivial) fun a _ ↦ hf a

theorem post {P' : α → Prop} (hm : Answers m P) (h : ∀ a, P a → P' a) : Answers m P' :=
  fun _ a _ heq ↦ h a (hm heq)

/-- What a guarded computation yields is as said, unless a panic was caught. -/
theorem guard (h : Answers m P) : Answers m.guard fun x ↦ ∀ a, x = .ok a → P a := by
  rintro w x w' heq a rfl
  rw [guard_apply] at heq
  obtain ⟨hx, -⟩ := Prod.mk.inj heq
  rcases hm : m w with ⟨y, w₁⟩
  rw [hm] at hx
  rcases y with (p | _) | b <;> cases hx
  exact h hm

end Machine.Answers

/-- A closure ends in what it may yield. -/
theorem Host.perform_answers (h : Host S) (a : Action S α) : Answers (h.perform a) a.Yields := by
  induction a with
  | done a => exact .pure rfl
  | panic p => exact .escape
  | write s k ih =>
    rw [perform_write]
    exact .after fun _ ↦ ih
  | advance d k ih =>
    rw [perform_advance]
    exact .after fun _ ↦ ih
  | sleep d k ih =>
    rw [perform_sleep]
    exact .after fun _ ↦ ih
  | read k ih =>
    rw [perform_read]
    exact .after fun s ↦ (ih s).post fun b hb ↦ ⟨s, hb⟩
  | now k ih =>
    rw [perform_now]
    exact .after fun t ↦ (ih t).post fun b hb ↦ ⟨t, hb⟩
  | draw k ih =>
    rw [perform_draw]
    exact .after fun x ↦ (ih x).post fun b hb ↦ ⟨x, hb⟩
  | openScope k ih =>
    rw [perform_openScope]
    exact .after fun s ↦ (ih s).post fun b hb ↦ ⟨s, hb⟩
  | addCleanup s c k ih =>
    rw [perform_addCleanup]
    exact .after fun r ↦ (ih r).post fun b hb ↦ ⟨r, hb⟩
  | closeScope s k ih =>
    rw [perform_closeScope]
    exact .after fun o ↦ (ih o).post fun b hb ↦ ⟨o, hb⟩
  | inspect s k ih =>
    rw [perform_inspect]
    exact .after fun st ↦ (ih st).post fun b hb ↦ ⟨st, hb⟩
  | settle s o k ih =>
    rw [perform_settle]
    exact .after fun r ↦ (ih r).post fun b hb ↦ ⟨r, hb⟩
  | take s k ih =>
    rw [perform_take]
    exact .after fun o ↦ (ih o).post fun b hb ↦ ⟨o, hb⟩

theorem Host.attempt_answers (h : Host S) (a : Action S α) :
    Answers (h.attempt a) fun x ↦ ∀ b, x = .ok b → a.Yields b :=
  (h.perform_answers a).guard

end EffectMachine
