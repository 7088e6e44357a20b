import EffectMachine.Proofs.Congruence
import EffectMachine.Proofs.Convergence
import EffectMachine.Proofs.Upholding

/-!
# Worlds with related finalizers

Two runs of effects that are related by `Plan.Congruent` lead to worlds that are alike except for
the release effects that wait in scopes and are told about in the history: these are related too.
`World.Congruent` says so, and that the world is typed as far as state and slots go.

A family of computations *tracks* a computation if, whenever the latter answers, the members of the
family give the same answer from some indices on, from every related world, and lead to a world that
is related again (`Machine.Tracks`). The indices are the depth to which scopes may close and the
fuel. The rules are those of `Covers` and of `Machine.Upholds` at once.
-/

namespace EffectMachine

variable {S : Signature} {α β : Type}

/-! ### Related worlds -/

/-- Two closures make the same requests and build related effects. -/
def Action.Twins (G : Regime S) (Γ : List Ty) (t : Promise) (x x' : Action S (Plan S)) : Prop :=
  ∃ (ι : Type) (z : Action S ι) (l r : ι → Plan S),
    x = (z.bind fun i ↦ .done (l i)) ∧ x' = (z.bind fun i ↦ .done (r i)) ∧
      z.Ensures G Γ fun Γ' i ↦ (l i).Congruent G Γ' t (r i)

/-- Two finalizers are the same named one, or release effects built by related closures. -/
inductive Finalizer.Congruent (G : Regime S) (Γ : List Ty) : Finalizer S → Finalizer S → Prop where
  | cleanup {c} (h : G.cleanup Γ c) : Congruent G Γ (.cleanup c) (.cleanup c)
  | release {build build' context b} (hc : context.Suits G)
      (h : Action.Twins G Γ none build build') :
      Congruent G Γ (.release build context b) (.release build' context b)

/-- Two events are the same, or tell the same about related finalizers. -/
inductive Event.Congruent (G : Regime S) (Γ : List Ty) : Event S → Event S → Prop where
  | refl (e) : Congruent G Γ e e
  | accepted (s) {f f'} (h : Finalizer.Congruent G Γ f f') :
      Congruent G Γ (.accepted s f) (.accepted s f')
  | refused (s) {f f'} (h : Finalizer.Congruent G Γ f f') :
      Congruent G Γ (.refused s f) (.refused s f')
  | invoked (s) {f f'} (h : Finalizer.Congruent G Γ f f') :
      Congruent G Γ (.invoked s f) (.invoked s f')
  | ended (s) {f f'} (h : Finalizer.Congruent G Γ f f') (o) :
      Congruent G Γ (.ended s f o) (.ended s f' o)

/-- Two worlds are alike up to related finalizers. Budgets do not count. -/
structure World.Congruent (G : Regime S) (Γ : List Ty) (w w' : World S) : Prop where
  typed : World.Typed G Γ { w with scopes := {} }
  state : w'.state = w.state
  clock : w'.clock = w.clock
  noise : w'.noise = w.noise
  slots : w'.slots = w.slots
  forks : w'.forks = w.forks
  size : w'.scopes.size = w.scopes.size
  closed : ∀ s, (w'.scope s).closed = (w.scope s).closed
  finalizers : ∀ s,
    List.Forall₂ (Finalizer.Congruent G Γ) (w.scope s).finalizers (w'.scope s).finalizers
  history : List.Forall₂ (Event.Congruent G Γ) w.history w'.history

section

variable {G : Regime S} {Γ Γ' : List Ty}

theorem Action.Twins.mono {t : Promise} {x x' : Action S (Plan S)} (h : x.Twins G Γ t x')
    (hΓ : Γ <+: Γ') : x.Twins G Γ' t x' := by
  obtain ⟨ι, z, l, r, hx, hx', hz⟩ := h
  exact ⟨ι, z, l, r, hx, hx', hz.mono hΓ⟩

theorem Finalizer.Congruent.mono {f f' : Finalizer S} (h : f.Congruent G Γ f') (hΓ : Γ <+: Γ') :
    f.Congruent G Γ' f' := by
  cases h with
  | cleanup h => exact .cleanup (G.cleanup_mono hΓ h)
  | release hc h => exact .release hc (h.mono hΓ)

theorem Event.Congruent.mono {e e' : Event S} (h : e.Congruent G Γ e') (hΓ : Γ <+: Γ') :
    e.Congruent G Γ' e' := by
  cases h with
  | refl => exact .refl e
  | accepted s h => exact .accepted s (h.mono hΓ)
  | refused s h => exact .refused s (h.mono hΓ)
  | invoked s h => exact .invoked s (h.mono hΓ)
  | ended s h o => exact .ended s (h.mono hΓ) o

end

namespace World.Congruent

variable {G : Regime S} {Γ : List Ty} {w w' : World S}

/-- The scopes are the same, up to what waits in them. -/
theorem scopes (h : w.Congruent G Γ w') : w.Matches (Finalizer.Congruent G Γ) w' :=
  ⟨h.size, h.closed, h.finalizers⟩

/-- What is seen of a scope from outside is the same. -/
theorem status (h : w.Congruent G Γ w') (s : ScopeId) :
    (w'.scope s).status = (w.scope s).status :=
  h.scopes.status s

/-- What has nothing to do with scopes and the history may change in the same way. -/
theorem change (h : w.Congruent G Γ w') {v v' : World S}
    (htyped : World.Typed G Γ { v with scopes := {} }) (hstate : v'.state = v.state)
    (hclock : v'.clock = v.clock) (hnoise : v'.noise = v.noise) (hslots : v'.slots = v.slots)
    (hforks : v'.forks = v.forks) (hv : v.scopes = w.scopes) (hv' : v'.scopes = w'.scopes)
    (he : v.history = w.history) (he' : v'.history = w'.history) : v.Congruent G Γ v' := by
  have hscopes := h.scopes.congr hv hv'
  refine ⟨htyped, hstate, hclock, hnoise, hslots, hforks, hscopes.size, hscopes.closed,
    hscopes.finalizers, ?_⟩
  rw [he, he']
  exact h.history

theorem withState (h : w.Congruent G Γ w') {s : S.State} (hs : G.state Γ s) :
    World.Congruent G Γ { w with state := s } { w' with state := s } :=
  h.change (h.typed.withState hs) rfl h.clock h.noise h.slots h.forks rfl rfl rfl rfl

theorem withClock (h : w.Congruent G Γ w') (f : Clock → Clock) :
    (w.modifyClock f).Congruent G Γ (w'.modifyClock f) :=
  h.change (h.typed.withClock f) h.state (congrArg f h.clock) h.noise h.slots h.forks rfl rfl rfl
    rfl

theorem draw_eq (h : w.Congruent G Γ w') : w'.draw.1 = w.draw.1 := congrArg Noise.next h.noise

theorem draw (h : w.Congruent G Γ w') : w.draw.2.Congruent G Γ w'.draw.2 :=
  h.change (h.typed.congr rfl rfl rfl) h.state h.clock (congrArg Noise.advance h.noise) h.slots
    h.forks rfl rfl rfl rfl

theorem withForks (h : w.Congruent G Γ w') (n : Nat) :
    World.Congruent G Γ { w with forks := w.forks + n } { w' with forks := w'.forks + n } :=
  h.change (h.typed.congr rfl rfl rfl) h.state h.clock h.noise h.slots (congrArg (· + n) h.forks)
    rfl rfl rfl rfl

theorem withBudgets (h : w.Congruent G Γ w') (budgets budgets' : Heap Budget) :
    World.Congruent G Γ { w with budgets } { w' with budgets := budgets' } :=
  h.change (h.typed.congr rfl rfl rfl) h.state h.clock h.noise h.slots h.forks rfl rfl rfl rfl

theorem record (h : w.Congruent G Γ w') {e e' : Event S} (he : e.Congruent G Γ e') :
    (w.record e).Congruent G Γ (w'.record e') where
  typed := h.typed.record e
  state := h.state
  clock := h.clock
  noise := h.noise
  slots := h.slots
  forks := h.forks
  size := h.size
  closed := h.closed
  finalizers := h.finalizers
  history := .cons he h.history

theorem settle (h : w.Congruent G Γ w') {s : SlotId} {o : Outcome S.Error Value}
    (ho : G.FitsSlot Γ s o) : (w.settle s o).2.Congruent G Γ (w'.settle s o).2 :=
  h.change (h.typed.settle ho) h.state h.clock h.noise
    (congrArg (fun c : Heap (Slot S.Error) ↦ c.modify s.index fun c ↦ c.settle o) h.slots) h.forks
    rfl rfl rfl rfl

theorem takeOutcome (h : w.Congruent G Γ w') (s : SlotId) :
    (w.takeOutcome s).2.Congruent G Γ (w'.takeOutcome s).2 :=
  h.change (h.typed.takeOutcome s) h.state h.clock h.noise
    (congrArg (fun c : Heap (Slot S.Error) ↦ c.modify s.index Slot.take) h.slots) h.forks
    rfl rfl rfl rfl

/-- What was found in a slot fits it. -/
theorem fitsSlot (h : w.Congruent G Γ w') {s : SlotId} {o : Outcome S.Error Value}
    (ho : (w.slot s).outcome = some o) : G.FitsSlot Γ s o :=
  h.typed.slots s o ho

theorem newSlot (h : w.Congruent G Γ w') {a : Ty} (hstate : G.state (Γ ++ [a]) w.state) :
    w.newSlot.2.Congruent G (Γ ++ [a]) w'.newSlot.2 where
  typed := h.typed.newSlot hstate
  state := h.state
  clock := h.clock
  noise := h.noise
  slots := congrArg (fun c : Heap (Slot S.Error) ↦ c.alloc .fresh) h.slots
  forks := h.forks
  size := h.size
  closed := h.closed
  finalizers s := (h.finalizers s).imp fun _ _ hf ↦ hf.mono (List.prefix_append Γ [a])
  history := h.history.imp fun _ _ he ↦ he.mono (List.prefix_append Γ [a])

/-! ### Scopes -/

theorem openScope (h : w.Congruent G Γ w') : w.openScope.2.Congruent G Γ w'.openScope.2 :=
  have hscopes := h.scopes.openScope
  ⟨h.typed, h.state, h.clock, h.noise, h.slots, h.forks, hscopes.size, hscopes.closed,
    hscopes.finalizers, h.history⟩

theorem openScope_eq (h : w.Congruent G Γ w') : w'.openScope.1 = w.openScope.1 :=
  h.scopes.openScope_eq

theorem enterScope (h : w.Congruent G Γ w') : w.enterScope.2.Congruent G Γ w'.enterScope.2 := by
  have hevent : Event.opened (S := S) w'.openScope.1 = .opened w.openScope.1 :=
    congrArg Event.opened h.openScope_eq
  refine h.openScope.record ?_
  rw [hevent]
  exact .refl _

theorem addFinalizer_eq (h : w.Congruent G Γ w') (s : ScopeId) (f f' : Finalizer S) :
    (w'.addFinalizer s f').1 = (w.addFinalizer s f).1 :=
  h.scopes.addFinalizer_eq s f f'

theorem addFinalizer (h : w.Congruent G Γ w') (s : ScopeId) {f f' : Finalizer S}
    (hf : f.Congruent G Γ f') :
    (w.addFinalizer s f).2.Congruent G Γ (w'.addFinalizer s f').2 := by
  have hscopes := h.scopes.addFinalizer s hf
  cases hc : (w.scope s).closed with
  | true =>
    rw [World.addFinalizer, if_pos hc, World.addFinalizer, if_pos ((h.closed s).trans hc)]
    exact h.record (.refused s hf)
  | false =>
    -- only the scopes and the history have changed
    simp only [World.addFinalizer, hc, (h.closed s).trans hc] at hscopes ⊢
    exact ⟨h.typed.record _, h.state, h.clock, h.noise, h.slots, h.forks, hscopes.size,
      hscopes.closed, hscopes.finalizers, .cons (.accepted s hf) h.history⟩

theorem shutScope (h : w.Congruent G Γ w') (s : ScopeId) :
    (w.shutScope s).Congruent G Γ (w'.shutScope s) :=
  have hscopes := h.scopes.shutScope s
  ⟨h.typed.record _, h.state, h.clock, h.noise, h.slots, h.forks, hscopes.size, hscopes.closed,
    hscopes.finalizers, .cons (.refl _) h.history⟩

end World.Congruent

/-! ### Tracking -/

/-- Whatever the computation answers, from some indices on the family answers the same from every
related world; the worlds that they lead to are related, and results are as said. -/
def Machine.Tracks (G : Regime S) (Γ : List Ty) (M : Nat → Nat → Machine S α) (m : Machine S α)
    (Q : List Ty → α → Prop) : Prop :=
  ∀ ⦃w w' x w₁⦄, w.Congruent G Γ w' → m w = (x, w₁) → x ≠ .error .exhausted →
    ∃ Γ' w₁' N, Γ <+: Γ' ∧ w₁.Congruent G Γ' w₁' ∧ (∀ a, x = .ok a → Q Γ' a) ∧
      ∀ i, N ≤ i → ∀ n, N ≤ n → M i n w' = (x, w₁')

open Machine (Tracks)

namespace Machine.Tracks

variable {G : Regime S} {Γ : List Ty} {M M' : Nat → Nat → Machine S α} {m : Machine S α}
  {F : α → Nat → Nat → Machine S β} {f : α → Machine S β} {Q Q' : List Ty → α → Prop}
  {P : List Ty → β → Prop}

theorem pure {a : α} (ha : Q Γ a) : Tracks G Γ (fun _ _ ↦ Pure.pure a) (Pure.pure a) Q := by
  rintro w w' _ _ hw ⟨⟩ -
  refine ⟨Γ, w', 0, List.prefix_rfl, hw, ?_, fun _ _ _ _ ↦ rfl⟩
  rintro _ ⟨⟩
  exact ha

theorem panic {p : Panic} :
    Tracks G Γ (fun _ _ ↦ escape (.panic p)) (escape (.panic p) : Machine S α) Q := by
  rintro w w' _ _ hw ⟨⟩ -
  exact ⟨Γ, w', 0, List.prefix_rfl, hw, nofun, fun _ _ _ _ ↦ rfl⟩

/-- Nothing is asked of a computation that is out of fuel. -/
theorem exhausted : Tracks G Γ M (escape .exhausted) Q := by
  rintro w w' _ _ - ⟨⟩ hx
  exact absurd rfl hx

theorem post (h : Tracks G Γ M m Q) (hQ : ∀ Γ' a, Γ <+: Γ' → Q Γ' a → Q' Γ' a) :
    Tracks G Γ M m Q' := by
  intro w w' x w₁ hw heq hx
  obtain ⟨Γ', w₁', N, hΓ, hw₁, ha, hM⟩ := h hw heq hx
  exact ⟨Γ', w₁', N, hΓ, hw₁, fun a hx ↦ hQ Γ' a hΓ (ha a hx), hM⟩

theorem bind (h : Tracks G Γ M m Q)
    (hf : ∀ Γ' a, Γ <+: Γ' → Q Γ' a → Tracks G Γ' (F a) (f a) P) :
    Tracks G Γ (fun i n ↦ M i n >>= fun a ↦ F a i n) (m >>= f) P := by
  intro w w' y w₂ hw heq hy
  rcases bind_eq heq with ⟨a, w₁, hm, ha⟩ | ⟨e, hm, rfl⟩
  · obtain ⟨Γ₁, w₁', N, hΓ, hw₁, hQ, hM⟩ := h hw hm nofun
    obtain ⟨Γ₂, w₂', N', hΓ', hw₂, hP, hF⟩ := hf Γ₁ a hΓ (hQ a rfl) hw₁ ha hy
    refine ⟨Γ₂, w₂', max N N', hΓ.trans hΓ', hw₂, hP, fun i hi n hn ↦ ?_⟩
    exact (bind_ok (hM i (by omega) n (by omega)) _).trans (hF i (by omega) n (by omega))
  · obtain ⟨Γ₁, w₁', N, hΓ, hw₁, -, hM⟩ := h hw hm (Escape.ne_exhausted hy)
    exact ⟨Γ₁, w₁', N, hΓ, hw₁, nofun, fun i hi n hn ↦ bind_error (hM i hi n hn) _⟩

/-- A change of both worlds that makes no slot. -/
theorem change {g k : World S → α × World S} {R : α → Prop}
    (hg : ∀ w w', w.Congruent G Γ w' →
      (k w').1 = (g w).1 ∧ (g w).2.Congruent G Γ (k w').2 ∧ R (g w).1)
    (hf : ∀ a, R a → Tracks G Γ (F a) (f a) P) :
    Tracks G Γ (fun i n ↦ modifyGet k >>= fun a ↦ F a i n) (modifyGet g >>= f) P := by
  intro w w' y w₂ hw heq hy
  obtain ⟨heq₁, hw₁, hR⟩ := hg w w' hw
  obtain ⟨Γ₂, w₂', N, hΓ, hw₂, hP, hF⟩ := hf _ hR hw₁ heq hy
  refine ⟨Γ₂, w₂', N, hΓ, hw₂, hP, fun i hi n hn ↦ ?_⟩
  show F (k w').1 i n (k w').2 = _
  rw [heq₁]
  exact hF i hi n hn

/-- A look at both worlds, which shows the same. -/
theorem look {g : World S → α} {R : α → Prop}
    (hg : ∀ w w', w.Congruent G Γ w' → g w' = g w ∧ R (g w))
    (hf : ∀ a, R a → Tracks G Γ (F a) (f a) P) :
    Tracks G Γ (fun i n ↦ gets g >>= fun a ↦ F a i n) (gets g >>= f) P :=
  change (g := fun w ↦ (g w, w)) (k := fun w ↦ (g w, w))
    (fun w w' hw ↦ ⟨(hg w w' hw).1, hw, (hg w w' hw).2⟩) hf

/-- A look at both worlds, which shows what is related. -/
theorem look_related {γ : Type} {g : World S → γ} {R : γ → γ → Prop}
    {F : γ → Nat → Nat → Machine S β} {f : γ → Machine S β}
    (hg : ∀ w w', w.Congruent G Γ w' → R (g w) (g w'))
    (hf : ∀ a a', R a a' → Tracks G Γ (F a') (f a) P) :
    Tracks G Γ (fun i n ↦ gets g >>= fun a ↦ F a i n) (gets g >>= f) P :=
  fun w w' _ _ hw heq hy ↦ hf _ _ (hg w w' hw) hw heq hy

/-- A change of both worlds without a result. -/
theorem alter {g k : World S → World S} {F : Nat → Nat → Machine S β} {f : Machine S β}
    (hg : ∀ w w', w.Congruent G Γ w' → (g w).Congruent G Γ (k w'))
    (hf : Tracks G Γ F f P) :
    Tracks G Γ (fun i n ↦ modify k >>= fun _ ↦ F i n) (modify g >>= fun _ ↦ f) P :=
  change (g := fun w ↦ ((), g w)) (k := fun w ↦ ((), k w)) (R := fun _ ↦ True)
    (fun w w' hw ↦ ⟨rfl, hg w w' hw, trivial⟩) fun _ _ ↦ hf

/-- A guard turns panics into the same defect. -/
theorem guard (h : Tracks G Γ M m Q) : Tracks G Γ (fun i n ↦ (M i n).guard) m.guard fun Γ' x ↦
    (∀ a, x = .ok a → Q Γ' a) ∧ ∀ d, x = .error d → G.Owns (.defect d) := by
  intro w w' y w₁ hw heq hy
  rw [guard_apply] at heq
  obtain ⟨rfl, rfl⟩ := Prod.mk.inj heq
  rcases hm : m w with ⟨x, w₁⟩
  rw [hm] at hy
  obtain ⟨Γ', w₁', N, hΓ, hw₁, hQ, hM⟩ := h hw hm fun hx ↦ hy (by rw [hx]; rfl)
  refine ⟨Γ', w₁', N, hΓ, hw₁, fun z hz ↦ ?_, fun i hi n hn ↦ ?_⟩
  · -- a panic is caught, a lack of fuel is not
    rcases x with (p | _) | a
    · cases hz
      refine ⟨nofun, ?_⟩
      rintro _ ⟨⟩
      exact Regime.owns_of_isStray rfl
    · cases hz
    · cases hz
      refine ⟨?_, nofun⟩
      rintro _ ⟨⟩
      exact hQ a rfl
  · show (M i n).guard w' = _
    rw [guard_apply, hM i hi n hn]

/-- Tracking is about large indices only. -/
theorem of_tail (h : Tracks G Γ (fun i n ↦ M i (n + 1)) m Q) : Tracks G Γ M m Q := by
  intro w w' x w₁ hw heq hx
  obtain ⟨Γ', w₁', N, hΓ, hw₁, hQ, hM⟩ := h hw heq hx
  refine ⟨Γ', w₁', N + 1, hΓ, hw₁, hQ, fun i hi n hn ↦ ?_⟩
  obtain ⟨k, rfl⟩ : ∃ k, n = k + 1 := ⟨n - 1, by omega⟩
  exact hM i (by omega) k (by omega)

/-- The fuel may run ahead. -/
theorem ahead (h : Tracks G Γ M m Q) (a : Nat) : Tracks G Γ (fun i n ↦ M i (n + a)) m Q := by
  intro w w' x w₁ hw heq hx
  obtain ⟨Γ', w₁', N, hΓ, hw₁, hQ, hM⟩ := h hw heq hx
  exact ⟨Γ', w₁', N, hΓ, hw₁, hQ, fun i hi n hn ↦ hM i hi (n + a) (by omega)⟩

/-- A family that is the diagonal of another one, one index later, tracks what the other does. -/
theorem diagonal {D : Nat → Machine S α} (h : Tracks G Γ M m Q) (hD : ∀ k, D (k + 1) = M k k) :
    Tracks G Γ (fun i _ ↦ D i) m Q := by
  intro w w' x w₁ hw heq hx
  obtain ⟨Γ', w₁', N, hΓ, hw₁, hQ, hM⟩ := h hw heq hx
  refine ⟨Γ', w₁', N + 1, hΓ, hw₁, hQ, fun i hi _ _ ↦ ?_⟩
  obtain ⟨k, rfl⟩ : ∃ k, i = k + 1 := ⟨i - 1, by omega⟩
  exact (congrFun (hD k) w').trans (hM k (by omega) k (by omega))

end Machine.Tracks

/-! ### Closures -/

/-- Closing any scope is tracked. -/
def Closer.Tracks (G : Regime S) (C : Nat → Closer S) (c : Closer S) : Prop :=
  ∀ Γ s, Machine.Tracks G Γ (fun i _ ↦ C i s) (c s) fun _ o ↦ G.OwnsOutcome o

namespace Host

variable {G : Regime S} {Γ : List Ty} {h : Host S} {H : Nat → Host S}
  (hclose : Closer.Tracks G (fun i ↦ (H i).close) h.close)
include hclose

/-- A proper closure is tracked by itself. -/
theorem perform_tracks {x : Action S α} (hx : x.Proper G Γ) :
    Tracks G Γ (fun i _ ↦ (H i).perform x) (h.perform x) fun Γ' a ↦ x.Reaches G Γ Γ' a := by
  induction x generalizing Γ with
  | done a => exact .pure ⟨rfl, rfl⟩
  | panic p => exact .panic
  | read k ih =>
    simp only [perform_read]
    refine .look (fun w w' hw ↦ ⟨hw.state, hw.typed.state⟩) fun s hs ↦ ?_
    exact (ih s (hx s hs)).post fun Γ' a _ ha ↦ ⟨s, hs, ha⟩
  | write s k ih =>
    simp only [perform_write]
    exact .alter (fun w w' hw ↦ hw.withState hx.1) (ih hx.2)
  | now k ih =>
    simp only [perform_now]
    refine .look (R := fun _ ↦ True) (fun w w' hw ↦ ⟨by rw [hw.clock], trivial⟩) fun t _ ↦ ?_
    exact (ih t (hx t)).post fun Γ' a _ ha ↦ ⟨t, ha⟩
  | advance d k ih =>
    simp only [perform_advance]
    exact .alter (fun w w' hw ↦ hw.withClock _) (ih hx)
  | sleep d k ih =>
    simp only [perform_sleep]
    exact .alter (fun w w' hw ↦ hw.withClock _) (ih hx)
  | draw k ih =>
    simp only [perform_draw]
    refine .change (R := fun _ ↦ True) (fun w w' hw ↦ ⟨hw.draw_eq, hw.draw, trivial⟩)
      fun x _ ↦ ?_
    exact (ih x (hx x)).post fun Γ' a _ ha ↦ ⟨x, ha⟩
  | openScope k ih =>
    simp only [perform_openScope]
    refine .change (R := fun _ ↦ True) (fun w w' hw ↦ ⟨hw.openScope_eq, hw.openScope, trivial⟩)
      fun s _ ↦ ?_
    exact (ih s (hx s)).post fun Γ' a _ ha ↦ ⟨s, ha⟩
  | addCleanup s c k ih =>
    simp only [perform_addCleanup]
    refine .change (R := fun _ ↦ True) (fun w w' hw ↦
      ⟨hw.addFinalizer_eq s _ _, hw.addFinalizer s (.cleanup hx.1), trivial⟩) fun r _ ↦ ?_
    exact (ih r (hx.2 r)).post fun Γ' a _ ha ↦ ⟨r, ha⟩
  | closeScope s k ih =>
    simp only [perform_closeScope]
    refine .bind (hclose Γ s) fun Γ₁ o hΓ ho ↦ ?_
    exact (ih o (hx Γ₁ o hΓ ho)).post fun Γ' a _ ha ↦ ⟨Γ₁, o, hΓ, ho, ha⟩
  | inspect s k ih =>
    simp only [perform_inspect]
    refine .look (R := fun _ ↦ True) (fun w w' hw ↦ ⟨hw.status s, trivial⟩) fun st _ ↦ ?_
    exact (ih st (hx st)).post fun Γ' a _ ha ↦ ⟨st, ha⟩
  | settle s o k ih =>
    simp only [perform_settle]
    refine .change (R := fun _ ↦ True) (fun w w' hw ↦ ⟨?_, hw.settle hx.1, trivial⟩) fun r _ ↦ ?_
    · rw [World.settle, World.settle, World.slot, World.slot, hw.slots]
    · exact (ih r (hx.2 r)).post fun Γ' a _ ha ↦ ⟨r, ha⟩
  | take s k ih =>
    simp only [perform_take]
    refine .change (R := fun o ↦ ∀ x, o = some x → G.FitsSlot Γ s x)
      (fun w w' hw ↦ ⟨?_, hw.takeOutcome s, fun x ↦ hw.fitsSlot⟩) fun o ho ↦ ?_
    · rw [World.takeOutcome, World.takeOutcome, World.slot, World.slot, hw.slots]
    · exact (ih o (hx o ho)).post fun Γ' a _ ha ↦ ⟨o, ho, ha⟩

/-- A guarded closure ends as it ensures. -/
theorem attempt_tracks {x : Action S α} {Q : List Ty → α → Prop} (hx : x.Ensures G Γ Q) :
    Tracks G Γ (fun i _ ↦ (H i).attempt x) (h.attempt x) fun Γ' r ↦
      (∀ a, r = .ok a → Q Γ' a) ∧ ∀ d, r = .error d → G.Owns (.defect d) :=
  (perform_tracks hclose (hx.proper List.prefix_rfl)).guard.post fun _ _ _ hr ↦
    ⟨fun a ha ↦ hx.reaches List.prefix_rfl (hr.1 a ha), hr.2⟩

end Host

end EffectMachine
