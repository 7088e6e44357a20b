import EffectMachine.Proofs.Scopes
import EffectMachine.Proofs.Typing

/-!
# Typed worlds

A world is typed for the slots made so far (`World.Typed`) if the application's state is as agreed,
every slot holds an outcome of its type or none, and every finalizer that waits in a scope is typed.
Nothing is asked of the clock, the budgets and the history.

`Machine.Upholds` says of a computation that from typed worlds it leads to typed worlds, with the
same slots or more, whether it yields a result or panics, and that results are as said. A panic
leaves a typed world behind because requests are made one by one: each of them keeps the world
typed, so it makes no difference how many are made.

Closures uphold what they are proper for (`Host.perform_upholds`) as long as closing a scope does;
that closing a scope does is a statement about runs and comes later.
-/

namespace EffectMachine

variable {S : Signature} {α β : Type}

/-- A finalizer that may wait in a scope: one that the application registers by name, or a release
effect to be built in a context that suits. -/
def Finalizer.Typed (G : Regime S) (Γ : List Ty) : Finalizer S → Prop
  | .cleanup c => G.cleanup Γ c
  | .release build context _ =>
    context.Suits G ∧ build.Ensures G Γ fun Γ' p ↦ p.Typed G Γ' .unit

/-- A world in which everything that closures and runs rely on is as agreed. -/
structure World.Typed (G : Regime S) (Γ : List Ty) (w : World S) : Prop where
  state : G.state Γ w.state
  size : w.slots.size = Γ.length
  slots : ∀ s o, (w.slot s).outcome = some o → G.FitsSlot Γ s o
  finalizers : ∀ s, ∀ f ∈ (w.scope s).finalizers, f.Typed G Γ

theorem Finalizer.Typed.mono {G : Regime S} {Γ Γ' : List Ty} {f : Finalizer S}
    (h : f.Typed G Γ) (hΓ : Γ <+: Γ') : f.Typed G Γ' := by
  cases f with
  | cleanup c => exact G.cleanup_mono hΓ h
  | release build context b => exact ⟨h.1, h.2.mono hΓ⟩

namespace World.Typed

variable {G : Regime S} {Γ : List Ty} {w : World S}

/-- What is not looked at may change. -/
theorem congr {w' : World S} (h : w.Typed G Γ) (hstate : w'.state = w.state)
    (hslots : w'.slots = w.slots) (hscopes : w'.scopes = w.scopes) : w'.Typed G Γ where
  state := by rw [hstate]; exact h.state
  size := by rw [hslots]; exact h.size
  slots s o ho := h.slots s o (by rw [← ho, World.slot, World.slot, hslots])
  finalizers := World.Awaits.congr h.finalizers hscopes

theorem withState {s : S.State} (h : w.Typed G Γ) (hs : G.state Γ s) :
    World.Typed G Γ { w with state := s } where
  state := hs
  size := h.size
  slots := h.slots
  finalizers := h.finalizers

theorem withClock (h : w.Typed G Γ) (f : Clock → Clock) : (w.modifyClock f).Typed G Γ :=
  h.congr rfl rfl rfl

theorem withBudget (h : w.Typed G Γ) (b : BudgetId) (f : Budget → Budget) :
    (w.modifyBudget b f).Typed G Γ :=
  h.congr rfl rfl rfl

theorem record (h : w.Typed G Γ) (e : Event S) : (w.record e).Typed G Γ := h.congr rfl rfl rfl

theorem newFork (h : w.Typed G Γ) : w.newFork.2.Typed G Γ := h.congr rfl rfl rfl

theorem openScope (h : w.Typed G Γ) : w.openScope.2.Typed G Γ where
  state := h.state
  size := h.size
  slots := h.slots
  finalizers := World.Awaits.openScope h.finalizers

theorem enterScope (h : w.Typed G Γ) : w.enterScope.2.Typed G Γ := h.openScope.record _

theorem addFinalizer (h : w.Typed G Γ) (s : ScopeId) {f : Finalizer S} (hf : f.Typed G Γ) :
    (w.addFinalizer s f).2.Typed G Γ := by
  have hfinalizers : (w.addFinalizer s f).2.Awaits (Finalizer.Typed G Γ) :=
    World.Awaits.addFinalizer h.finalizers s hf
  cases hc : (w.scope s).closed with
  | true =>
    rw [World.addFinalizer, if_pos hc]
    exact h.record _
  | false =>
    simp only [World.addFinalizer, hc] at hfinalizers ⊢
    exact ⟨h.state, h.size, h.slots, hfinalizers⟩

theorem shutScope (h : w.Typed G Γ) (s : ScopeId) : (w.shutScope s).Typed G Γ where
  state := h.state
  size := h.size
  slots := h.slots
  finalizers := World.Awaits.shutScope h.finalizers s

/-! ### Slots -/

/-- Making a slot for values of a type. -/
theorem newSlot (h : w.Typed G Γ) {a : Ty} (hstate : G.state (Γ ++ [a]) w.state) :
    w.newSlot.2.Typed G (Γ ++ [a]) where
  state := hstate
  size := by
    show (w.slots.alloc .fresh).size = (Γ ++ [a]).length
    rw [Heap.size_alloc, h.size, List.length_append]
    rfl
  slots s o ho := by
    have hold : (w.slot s).outcome = some o := by
      rw [World.slot] at ho ⊢
      rcases Nat.lt_or_ge s.index w.slots.size with hlt | hge
      · rwa [show w.newSlot.2.slots.get? s.index = w.slots.get? s.index from
          w.slots.get?_alloc_of_lt .fresh hlt] at ho
      · -- the slot that was just made is empty, and so are those that were never made
        exfalso
        have hcells : w.newSlot.2.slots.get? s.index = some .fresh ∨
            w.newSlot.2.slots.get? s.index = none := by
          rcases Nat.eq_or_lt_of_le hge with heq | hlt
          · refine .inl ?_
            rw [← heq]
            exact w.slots.get?_alloc_self .fresh
          · refine .inr (Array.getElem?_eq_none ?_)
            show (w.slots.alloc .fresh).size ≤ s.index
            rw [Heap.size_alloc]
            exact hlt
        rcases hcells with hcell | hcell <;> rw [hcell] at ho <;> cases ho
    exact (h.slots s o hold).mono (List.prefix_append Γ [a])
  finalizers s f hf := (h.finalizers s f hf).mono (List.prefix_append Γ [a])

/-- Changing slots, so that each holds what fits it. -/
theorem withSlots (h : w.Typed G Γ) {s : SlotId} {f : Slot S.Error → Slot S.Error}
    (hf : ∀ c o, (f c).outcome = some o → c.outcome = some o ∨ G.FitsSlot Γ s o) :
    World.Typed G Γ { w with slots := w.slots.modify s.index f } where
  state := h.state
  size := (w.slots.size_modify s.index f).trans h.size
  slots s' o ho := by
    by_cases hs : s'.index = s.index
    · obtain ⟨i⟩ := s
      obtain ⟨i'⟩ := s'
      cases hs
      rw [World.slot] at ho
      have hcell : (w.slots.modify i f).get? i = (w.slots.get? i).map f :=
        w.slots.get?_modify_self i f
      change (((w.slots.modify i f).get? i).getD .fresh).outcome = some o at ho
      rw [hcell] at ho
      cases hc : w.slots.get? i with
      | none =>
        rw [hc] at ho
        cases ho
      | some c =>
        rw [hc] at ho
        rcases hf c o ho with hold | hnew
        · refine h.slots ⟨i⟩ o ?_
          rw [World.slot, hc]
          exact hold
        · exact hnew
    · refine h.slots s' o ?_
      rw [World.slot] at ho ⊢
      rwa [show (w.slots.modify s.index f).get? s'.index = w.slots.get? s'.index from
        w.slots.get?_modify_of_ne (Ne.symm hs) f] at ho
  finalizers := h.finalizers

theorem settle (h : w.Typed G Γ) {s : SlotId} {o : Outcome S.Error Value}
    (ho : G.FitsSlot Γ s o) : (w.settle s o).2.Typed G Γ := by
  refine h.withSlots fun c o' ho' ↦ ?_
  rw [Slot.settle] at ho'
  split at ho'
  · exact .inl ho'
  · cases ho'
    exact .inr ho

theorem takeOutcome (h : w.Typed G Γ) (s : SlotId) : (w.takeOutcome s).2.Typed G Γ :=
  h.withSlots fun _ _ ho ↦ by cases ho

end World.Typed

/-! ### Computations -/

/-- From typed worlds the computation leads to typed worlds, and results are as said. -/
def Machine.Upholds (G : Regime S) (Γ : List Ty) (m : Machine S α) (Q : List Ty → α → Prop) :
    Prop :=
  ∀ ⦃w x w'⦄, w.Typed G Γ → m w = (x, w') → x ≠ .error .exhausted →
    ∃ Γ', Γ <+: Γ' ∧ w'.Typed G Γ' ∧ ∀ a, x = .ok a → Q Γ' a

open Machine (Upholds)

namespace Machine.Upholds

variable {G : Regime S} {Γ : List Ty} {m : Machine S α} {f : α → Machine S β}
  {Q Q' : List Ty → α → Prop} {P : List Ty → β → Prop}

theorem pure {a : α} (ha : Q Γ a) : Upholds G Γ (Pure.pure a : Machine S α) Q := by
  rintro w _ _ hw ⟨⟩ -
  refine ⟨Γ, List.prefix_rfl, hw, ?_⟩
  rintro _ ⟨⟩
  exact ha

theorem exhausted : Upholds G Γ (escape .exhausted : Machine S α) Q := by
  rintro w _ _ - ⟨⟩ hx
  exact absurd rfl hx

theorem panic {p : Panic} : Upholds G Γ (escape (.panic p) : Machine S α) Q := by
  rintro w _ _ hw ⟨⟩ -
  exact ⟨Γ, List.prefix_rfl, hw, nofun⟩

theorem post (h : Upholds G Γ m Q) (hQ : ∀ Γ' a, Γ <+: Γ' → Q Γ' a → Q' Γ' a) :
    Upholds G Γ m Q' := by
  intro w x w' hw heq hx
  obtain ⟨Γ', hΓ, hw', ha⟩ := h hw heq hx
  exact ⟨Γ', hΓ, hw', fun a hx ↦ hQ Γ' a hΓ (ha a hx)⟩

theorem bind (h : Upholds G Γ m Q) (hf : ∀ Γ' a, Γ <+: Γ' → Q Γ' a → Upholds G Γ' (f a) P) :
    Upholds G Γ (m >>= f) P := by
  intro w y w'' hw heq hy
  rcases bind_eq heq with ⟨a, w', hm, ha⟩ | ⟨e, hm, rfl⟩
  · obtain ⟨Γ', hΓ, hw', hQ⟩ := h hw hm nofun
    obtain ⟨Γ'', hΓ', hw'', hP⟩ := hf Γ' a hΓ (hQ a rfl) hw' ha hy
    exact ⟨Γ'', hΓ.trans hΓ', hw'', hP⟩
  · obtain ⟨Γ', hΓ, hw', -⟩ := h hw hm (Escape.ne_exhausted hy)
    exact ⟨Γ', hΓ, hw', nofun⟩

theorem modifyGet {f : World S → α × World S}
    (hf : ∀ w, w.Typed G Γ → (f w).2.Typed G Γ ∧ Q Γ (f w).1) :
    Upholds G Γ (Machine.modifyGet f) Q := by
  rintro w _ _ hw ⟨⟩ -
  refine ⟨Γ, List.prefix_rfl, (hf w hw).1, ?_⟩
  rintro _ ⟨⟩
  exact (hf w hw).2

/-- A change of the world that makes no slot, and what follows it. -/
theorem change {f : World S → α × World S} {g : α → Machine S β} {R : α → Prop}
    (hf : ∀ w, w.Typed G Γ → (f w).2.Typed G Γ ∧ R (f w).1)
    (hg : ∀ a, R a → Upholds G Γ (g a) P) : Upholds G Γ (Machine.modifyGet f >>= g) P := by
  refine .bind (Q := fun Γ' a ↦ Γ' = Γ ∧ R a) (.modifyGet fun w hw ↦ ?_) ?_
  · exact ⟨(hf w hw).1, rfl, (hf w hw).2⟩
  · rintro _ a - ⟨rfl, ha⟩
    exact hg a ha

/-- A look at the world, and what follows it. -/
theorem look {f : World S → α} {g : α → Machine S β} {R : α → Prop}
    (hf : ∀ w, w.Typed G Γ → R (f w)) (hg : ∀ a, R a → Upholds G Γ (g a) P) :
    Upholds G Γ (Machine.gets f >>= g) P :=
  change (f := fun w ↦ (f w, w)) (fun w hw ↦ ⟨hw, hf w hw⟩) hg

/-- A change of the world without a result, and what follows it. -/
theorem alter {f : World S → World S} {g : Unit → Machine S β}
    (hf : ∀ w, w.Typed G Γ → (f w).Typed G Γ) (hg : Upholds G Γ (g ()) P) :
    Upholds G Γ (Machine.modify f >>= g) P :=
  change (f := fun w ↦ ((), f w)) (R := fun _ ↦ True) (fun w hw ↦ ⟨hf w hw, trivial⟩)
    fun _ _ ↦ hg

/-- A guard turns panics into defects that are not stray. -/
theorem guard (h : Upholds G Γ m Q) : Upholds G Γ m.guard fun Γ' x ↦
    (∀ a, x = .ok a → Q Γ' a) ∧ ∀ d, x = .error d → G.Owns (.defect d) := by
  intro w y w' hw heq hy
  rw [guard_apply] at heq
  obtain ⟨rfl, rfl⟩ := Prod.mk.inj heq
  rcases hm : m w with ⟨x, w'⟩
  rw [hm] at hy
  obtain ⟨Γ', hΓ, hw', hQ⟩ := h hw hm fun hx ↦ hy (by rw [hx]; rfl)
  refine ⟨Γ', hΓ, hw', fun z hz ↦ ?_⟩
  -- a panic is caught, a lack of fuel is not
  rcases x with (p | _) | a
  · cases hz
    refine ⟨nofun, ?_⟩
    rintro _ ⟨⟩
    exact Regime.owns_of_isStray rfl
  · cases hz
  · cases hz
    refine ⟨?_, nofun⟩
    rintro _ ⟨⟩
    exact hQ a rfl

end Machine.Upholds

/-! ### Closures -/

/-- Closing any scope upholds a regime. -/
def Closer.Upholds (G : Regime S) (close : Closer S) : Prop :=
  ∀ Γ s, Machine.Upholds G Γ (close s) fun _ o ↦ G.OwnsOutcome o

namespace Host

variable {G : Regime S} {Γ : List Ty} (h : Host S) (hclose : Closer.Upholds G h.close)
include hclose

/-- A proper closure upholds the regime and ends in what it reaches. -/
theorem perform_upholds {x : Action S α} (hx : x.Proper G Γ) :
    Upholds G Γ (h.perform x) fun Γ' a ↦ x.Reaches G Γ Γ' a := by
  induction x generalizing Γ with
  | done a => exact .pure ⟨rfl, rfl⟩
  | panic p => exact .panic
  | read k ih =>
    rw [perform_read]
    refine .look (fun w hw ↦ hw.state) fun s hs ↦ ?_
    exact (ih s (hx s hs)).post fun Γ' a _ ha ↦ ⟨s, hs, ha⟩
  | write s k ih =>
    rw [perform_write]
    exact .alter (fun w hw ↦ hw.withState hx.1) (ih hx.2)
  | now k ih =>
    rw [perform_now]
    refine .look (R := fun _ ↦ True) (fun _ _ ↦ trivial) fun t _ ↦ ?_
    exact (ih t (hx t)).post fun Γ' a _ ha ↦ ⟨t, ha⟩
  | advance d k ih =>
    rw [perform_advance]
    exact .alter (fun w hw ↦ hw.withClock _) (ih hx)
  | sleep d k ih =>
    rw [perform_sleep]
    exact .alter (fun w hw ↦ hw.withClock _) (ih hx)
  | draw k ih =>
    rw [perform_draw]
    refine .change (R := fun _ ↦ True) (fun w hw ↦ ⟨hw.congr rfl rfl rfl, trivial⟩) fun x _ ↦ ?_
    exact (ih x (hx x)).post fun Γ' a _ ha ↦ ⟨x, ha⟩
  | openScope k ih =>
    rw [perform_openScope]
    refine .change (R := fun _ ↦ True) (fun w hw ↦ ⟨hw.openScope, trivial⟩) fun s _ ↦ ?_
    exact (ih s (hx s)).post fun Γ' a _ ha ↦ ⟨s, ha⟩
  | addCleanup s c k ih =>
    rw [perform_addCleanup]
    refine .change (R := fun _ ↦ True) (fun w hw ↦ ⟨hw.addFinalizer s hx.1, trivial⟩) fun r _ ↦ ?_
    exact (ih r (hx.2 r)).post fun Γ' a _ ha ↦ ⟨r, ha⟩
  | closeScope s k ih =>
    rw [perform_closeScope]
    refine .bind (hclose Γ s) fun Γ₁ o hΓ ho ↦ ?_
    exact (ih o (hx Γ₁ o hΓ ho)).post fun Γ' a _ ha ↦ ⟨Γ₁, o, hΓ, ho, ha⟩
  | inspect s k ih =>
    rw [perform_inspect]
    refine .look (R := fun _ ↦ True) (fun _ _ ↦ trivial) fun st _ ↦ ?_
    exact (ih st (hx st)).post fun Γ' a _ ha ↦ ⟨st, ha⟩
  | settle s o k ih =>
    rw [perform_settle]
    refine .change (R := fun _ ↦ True) (fun w hw ↦ ⟨hw.settle hx.1, trivial⟩) fun r _ ↦ ?_
    exact (ih r (hx.2 r)).post fun Γ' a _ ha ↦ ⟨r, ha⟩
  | take s k ih =>
    rw [perform_take]
    refine .change (R := fun o ↦ ∀ x, o = some x → G.FitsSlot Γ s x)
      (fun w hw ↦ ⟨hw.takeOutcome s, hw.slots s⟩) fun o ho ↦ ?_
    exact (ih o (hx o ho)).post fun Γ' a _ ha ↦ ⟨o, ho, ha⟩

theorem attempt_upholds {x : Action S α} (hx : x.Proper G Γ) :
    Upholds G Γ (h.attempt x) fun Γ' r ↦
      (∀ a, r = .ok a → x.Reaches G Γ Γ' a) ∧ ∀ d, r = .error d → G.Owns (.defect d) :=
  (h.perform_upholds hclose hx).guard

/-- A guarded closure ends as it ensures. -/
theorem attempt_ensures {x : Action S α} {Q : List Ty → α → Prop} (hx : x.Ensures G Γ Q) :
    Upholds G Γ (h.attempt x) fun Γ' r ↦
      (∀ a, r = .ok a → Q Γ' a) ∧ ∀ d, r = .error d → G.Owns (.defect d) :=
  (h.attempt_upholds hclose (hx.proper List.prefix_rfl)).post fun _ _ _ hr ↦
    ⟨fun a ha ↦ hx.reaches List.prefix_rfl (hr.1 a ha), hr.2⟩

/-- A closure that builds typed effects yields the node of one. -/
theorem build_ensures (hp : h.program.Respects G) {x : Action S (Plan S)} {a : Ty}
    (hx : x.Ensures G Γ fun Γ' p ↦ p.Typed G Γ' a) :
    Upholds G Γ (h.build x) fun Γ' r ↦
      (∀ n, r = .ok n → Plan.Typed G Γ' a (.node n)) ∧ ∀ d, r = .error d → G.Owns (.defect d) := by
  refine h.attempt_ensures hclose (.bind hx fun Γ' p _ hpt ↦ ?_)
  cases p with
  | node n => exact .done fun _ hΓ ↦ hpt.mono hΓ
  | named d =>
    cases hpt with
    | named hd => exact hp.effect hd

end Host

end EffectMachine
