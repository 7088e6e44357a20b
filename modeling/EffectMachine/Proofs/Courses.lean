import EffectMachine.Proofs.Discipline
import EffectMachine.Proofs.History

/-!
# Courses

The heap of a world says in which phase every scope is (`World.phase`). A `Course` is a list of
events that takes all scopes from the phases before to the phases after; it is what a computation
has to show for itself. Courses compose as computations do. Two more things are kept: only scopes
that were opened on the way begin to close, apart from some that are named, and finalizers that
were accepted are release effects without closures that close scopes.

Quiet closures do no more than offer finalizers to scopes (`Offers`), and so do the moves of a
quiet effect inside one region (`Discipline.quiet`).
-/

namespace EffectMachine

variable {S : Signature}

/-! ### Phases in a world -/

/-- The phase of a scope in a world. A scope that is closing counts as closed. -/
def World.phase (w : World S) (s : ScopeId) : Phase S :=
  match w.scopes.get? s.index with
  | none => .unborn
  | some c => if c.closed then .closed else .open c.finalizers

/-- The phases with that of one scope replaced. -/
def phasesWith (φ : ScopeId → Phase S) (s : ScopeId) (p : Phase S) : ScopeId → Phase S :=
  fun s' ↦ if s' = s then p else φ s'

section Phases

variable (φ : ScopeId → Phase S) (s : ScopeId) (p q : Phase S)

@[simp] theorem phasesWith_same : phasesWith φ s p s = p := if_pos rfl

@[simp] theorem phasesWith_self : phasesWith φ s (φ s) = φ := by
  funext s'
  unfold phasesWith
  split <;> simp_all

@[simp] theorem phasesWith_phasesWith : phasesWith (phasesWith φ s p) s q = phasesWith φ s q := by
  funext s'
  unfold phasesWith
  split <;> simp_all

theorem phasesWith_of_eq {φ : ScopeId → Phase S} {s : ScopeId} {p : Phase S} (h : φ s = p) :
    phasesWith φ s p = φ := by
  rw [← h, phasesWith_self]

end Phases

namespace World

variable (w : World S) {s : ScopeId} {fs : List (Finalizer S)}

/-- In a world no scope is half closed. -/
theorem phase_ne_closing (s : ScopeId) (fs : List (Finalizer S)) : w.phase s ≠ .closing fs := by
  unfold phase
  split
  · nofun
  · split <;> nofun

/-- The scope that is opened next has not been born. -/
theorem phase_next : w.phase w.openScope.1 = .unborn := by
  have h : w.scopes.get? w.scopes.size = none := Array.getElem?_eq_none (Nat.le_refl _)
  rw [phase, openScope, h]

theorem phase_openScope : w.openScope.2.phase = phasesWith w.phase w.openScope.1 (.open []) := by
  funext s
  unfold phasesWith
  split
  · subst s
    simp [phase, openScope, Scope.fresh]
  · rename_i hs
    have hs : s.index ≠ w.scopes.size := fun h ↦ hs (by cases s; cases h; rfl)
    simp only [phase, openScope, Heap.alloc, Heap.get?, Array.getElem?_push, Heap.size] at hs ⊢
    rw [if_neg hs]

variable {w}

theorem phase_eq_open : w.phase s = .open fs ↔ w.scope s = ⟨false, fs⟩ := by
  unfold phase scope
  rcases w.scopes.get? s.index with _ | ⟨_ | _, gs⟩ <;> simp [Scope.shut]

theorem phase_of_closed_eq_false (h : (w.scope s).closed = false) :
    w.phase s = .open (w.scope s).finalizers := by
  rw [phase_eq_open, ← h]

/-- Changing the cell of a scope that is open. -/
theorem phase_modify {w' : World S} (h : w.phase s = .open fs) {f : Scope S → Scope S}
    {p : Phase S} (hw : w'.scopes = w.scopes.modify s.index f)
    (hp : (if (f ⟨false, fs⟩).closed then .closed else .open (f ⟨false, fs⟩).finalizers) = p) :
    w'.phase = phasesWith w.phase s p := by
  have hcell : w.scopes.get? s.index = some ⟨false, fs⟩ := by
    unfold phase at h
    split at h
    · cases h
    · rename_i c hc
      rcases c with ⟨_ | _, gs⟩ <;> cases h
      exact hc
  funext s'
  unfold phasesWith
  split
  · subst s'
    rw [phase, hw, Heap.get?_modify_self, hcell, ← hp]
    rfl
  · rename_i hs
    have hs : s.index ≠ s'.index := fun h ↦ hs (by cases s; cases s'; cases h; rfl)
    rw [phase, phase, hw, Heap.get?_modify_of_ne _ hs]

/-- An open scope accepts a finalizer. -/
theorem addFinalizer_open (h : w.phase s = .open fs) (f : Finalizer S) :
    (w.addFinalizer s f).2.history = .accepted s f :: w.history ∧
      (w.addFinalizer s f).2.phase = phasesWith w.phase s (.open (f :: fs)) := by
  have hclosed : ¬(w.scope s).closed = true := by simp [phase_eq_open.1 h]
  rw [addFinalizer, if_neg hclosed]
  exact ⟨rfl, phase_modify h rfl rfl⟩

/-- Any other scope refuses it. -/
theorem addFinalizer_of_ne_open (h : ∀ fs, w.phase s ≠ .open fs) (f : Finalizer S) :
    (w.addFinalizer s f).2 = w.record (.refused s f) := by
  have hclosed : (w.scope s).closed = true := by
    cases hc : (w.scope s).closed with
    | true => rfl
    | false => exact absurd (phase_of_closed_eq_false hc) (h _)
  rw [addFinalizer, if_pos hclosed]

theorem phase_shutScope (h : w.phase s = .open fs) :
    (w.shutScope s).phase = phasesWith w.phase s .closed :=
  phase_modify h rfl rfl

end World

/-! ### Courses -/

/-- The closures of a release effect, and of what it leads to, close no scope. -/
def Finalizer.Quiet (p : Program S) : Finalizer S → Prop
  | .cleanup _ => True
  | .release build _ _ => p.Quiet (.finalizer build)

/-- Events that take all scopes from some phases to others. The named scopes may begin to close, and
so may those that are opened on the way. -/
structure Course (p : Program S) (c : List ScopeId) (φ : ScopeId → Phase S) (u : List (Event S))
    (ψ : ScopeId → Phase S) : Prop where
  lives : ∀ s, Lives s (φ s) u (ψ s)
  closings : ∀ s, .closing s ∈ u → .opened s ∈ u ∨ s ∈ c
  accepted : ∀ s f, .accepted s f ∈ u → f.Quiet p

namespace Course

variable {p : Program S} {c : List ScopeId} {φ ψ χ : ScopeId → Phase S} {u v : List (Event S)}
  {s : ScopeId}

theorem trans (hu : Course p c φ u ψ) (hv : Course p c ψ v χ) : Course p c φ (u ++ v) χ where
  lives s := (hu.lives s).append (hv.lives s)
  closings s hs := by
    rcases List.mem_append.1 hs with hs | hs
    · exact (hu.closings s hs).imp_left (List.mem_append_left v)
    · exact (hv.closings s hs).imp_left (List.mem_append_right u)
  accepted s f hf := (List.mem_append.1 hf).elim (hu.accepted s f) (hv.accepted s f)

theorem mono (h : Course p [] φ u ψ) : Course p c φ u ψ where
  lives := h.lives
  closings s hs := .inl ((h.closings s hs).resolve_right List.not_mem_nil)
  accepted := h.accepted

/-- A scope that was opened on the way need not be named. -/
theorem absorb (h : Course p [s] φ u ψ) (hs : .opened s ∈ u) : Course p [] φ u ψ where
  lives := h.lives
  closings s' hs' := by
    rcases h.closings s' hs' with h | h
    · exact .inl h
    · cases List.mem_singleton.1 h
      exact .inl hs
  accepted := h.accepted

/-- Events that concern no scope. -/
theorem idle (h : ∀ e ∈ u, ∀ s : ScopeId, ¬e.Concerns s) : Course p c φ u φ where
  lives s := .idle fun e he ↦ h e he s
  closings s hs := absurd rfl (h _ hs s)
  accepted s _ hf := absurd rfl (h _ hf s)

theorem nil : Course p c φ [] φ := idle nofun

/-- An event that concerns one scope. -/
theorem event {e : Event S} {a b : Phase S} (hs : Lives s a [e] b)
    (he : ∀ s' ≠ s, ¬e.Concerns s') (hc : ∀ s', e = .closing s' → s' ∈ c)
    (ha : ∀ s' f, e = .accepted s' f → f.Quiet p) :
    Course p c (phasesWith φ s a) [e] (phasesWith φ s b) where
  lives s' := by
    unfold phasesWith
    split
    · subst s'
      exact hs
    · rename_i hs'
      exact .other (he s' hs') (.done _)
  closings s' hs' := .inr (hc s' (List.mem_singleton.1 hs').symm)
  accepted s' f hf := ha s' f (List.mem_singleton.1 hf).symm

/-- While a scope is closing it counts as closed in the world, so no event inside the finalizers
concerns it. -/
theorem inside (h : Course p c φ u ψ) (hs : φ s = .closed) (a : Phase S) :
    Course p c (phasesWith φ s a) u (phasesWith ψ s a) where
  lives s' := by
    unfold phasesWith
    split
    · subst s'
      have hlives := h.lives s
      rw [hs] at hlives
      exact .idle hlives.of_closed.2
    · exact h.lives s'
  closings := h.closings
  accepted := h.accepted

theorem closed (h : Course p c φ u ψ) (hs : φ s = .closed) : ψ s = .closed := by
  have hlives := h.lives s
  rw [hs] at hlives
  exact hlives.of_closed.1

theorem born (h : Course p c φ u ψ) (hs : φ s ≠ .unborn) : ψ s ≠ .unborn := fun hψ ↦ by
  have hlives := h.lives s
  rw [hψ] at hlives
  exact hs hlives.to_unborn.1

/-- A scope that is open and is not named stays open. -/
theorem stays_open {fs : List (Finalizer S)} (h : Course p c φ u ψ) (hs : φ s = .open fs)
    (hc : s ∉ c) : ∃ gs, ψ s = .open gs := by
  have hlives := h.lives s
  rw [hs] at hlives
  refine hlives.stays_open fun hclosing ↦ ?_
  have hopened := (h.closings s hclosing).resolve_right hc
  exact hlives.not_opened nofun hopened

/-- No finalizer of a scope that was born before ends, unless the scope is named. -/
theorem endings_eq_nil (h : Course p [] φ u ψ) (hu : Balanced u) (hborn : φ s ≠ .unborn)
    (hs : ∀ fs, φ s ≠ .closing fs) : endings s u = [] := by
  have hclosing : .closing s ∉ u := fun hclosing ↦
    (h.lives s).not_opened hborn ((h.closings s hclosing).resolve_right List.not_mem_nil)
  have hinvoked := (h.lives s).no_invocations hs hclosing
  refine EffectMachine.endings_eq_nil fun f o he ↦ ?_
  have hnone := List.filterMap_eq_nil_iff.1 hinvoked _ (hu.mem_invoked he)
  simp [Event.invoked?] at hnone

end Course

/-! ### Offers -/

/-- No more happens than that finalizers are offered to scopes. -/
def Offers (p : Program S) (w w' : World S) : Prop :=
  ∃ u, (∀ e ∈ u, e.Plain) ∧ w'.history = u.reverse ++ w.history ∧ Course p [] w.phase u w'.phase

namespace Offers

variable {p : Program S} {w w' w'' : World S}

theorem silent (hh : w'.history = w.history) (hp : w'.phase = w.phase) : Offers p w w' :=
  ⟨[], nofun, hh, hp ▸ .nil⟩

theorem trans (h : Offers p w w') (h' : Offers p w' w'') : Offers p w w'' := by
  obtain ⟨u, hu, hh, hc⟩ := h
  obtain ⟨u', hu', hh', hc'⟩ := h'
  refine ⟨u ++ u', List.forall_mem_append.2 ⟨hu, hu'⟩, ?_, hc.trans hc'⟩
  rw [hh', hh, List.reverse_append, List.append_assoc]

/-- Offering a finalizer to a scope. -/
theorem addFinalizer (w : World S) (s : ScopeId) {f : Finalizer S} (hf : f.Quiet p) :
    Offers p w (w.addFinalizer s f).2 := by
  by_cases h : ∃ fs, w.phase s = .open fs
  · obtain ⟨fs, hs⟩ := h
    obtain ⟨hh, hp⟩ := World.addFinalizer_open hs f
    refine ⟨[.accepted s f], by simp [Event.Plain], hh, ?_⟩
    have hc : Course p [] (phasesWith w.phase s (.open fs)) [.accepted s f]
        (phasesWith w.phase s (.open (f :: fs))) :=
      .event (.accepted (.done _)) (fun s' hs' h ↦ hs' h.symm) nofun (by
        rintro _ _ ⟨⟩
        exact hf)
    rwa [phasesWith_of_eq hs, ← hp] at hc
  · rw [World.addFinalizer_of_ne_open (fun fs hs ↦ h ⟨fs, hs⟩)]
    exact ⟨[.refused s f], by simp [Event.Plain], rfl, .idle (by simp [Event.Concerns])⟩

theorem drift (p : Program S) : Drift (Offers p) where
  refl _ := silent rfl rfl
  trans := trans
  state _ _ := silent rfl rfl
  clock _ _ := silent rfl rfl
  noise _ _ := silent rfl rfl
  newSlot _ := silent rfl rfl
  settle _ _ _ := silent rfl rfl
  forks _ _ := silent rfl rfl
  openScope w := by
    refine ⟨[], nofun, rfl, ?_⟩
    rw [World.phase_openScope]
    exact {
      lives s := by
        unfold phasesWith
        split
        · subst s
          rw [w.phase_next]
          exact .born (.done _)
        · exact .done _
      closings := nofun
      accepted := nofun }
  addCleanup w s _ := addFinalizer w s trivial

theorem takeOutcome (w : World S) (s : SlotId) : Offers p w (w.takeOutcome s).2 := silent rfl rfl

/-- A sound state that holds a finalizer may register it. -/
theorem register {N : Node S → Prop} (hN : p.Hereditary N) {st : State S} (hst : st.Sound N)
    {build : Action S (Plan S)} (hc : st.control = .effect (.finalizer build)) (w : World S) :
    Offers p w (w.addFinalizer st.scope (.release build st.context st.budget)).2 := by
  have hquiet : p.Quiet (.finalizer build) := hN.quiet (hst.control _ hc)
  exact addFinalizer w st.scope hquiet

end Offers

/-! ### Quiet effects -/

/-- Quiet effects lead to quiet effects, and their closures keep to every drift that taking outcomes
out of slots keeps to. A move inside a region panics only if the strategy does. -/
theorem Discipline.quiet_of {R : World S → World S → Prop} (hR : Drift R)
    (htake : ∀ w s, R w (w.takeOutcome s).2) {h : Host S}
    (hσ : h.strategy.Quiet h.program) {N : Node S → Prop} (hN : h.program.Hereditary N) :
    Discipline R (¬h.strategy.Steady) h N := by
  have hperform : ∀ {β : Type} (a : Action S β), a.Quiet →
      Machine.Along R (¬a.Steady) (h.perform a) a.Yields :=
    fun a ha ↦ h.perform_along hR a (.inl ha) (.inr htake)
  exact {
    drift := hR
    obeys n hn := by
      have hgentle : h.program.Gentle n := Program.Descends.first (hN.quiet hn)
      exact Node.obeys_of_children (fun m hm ↦ hN.passes hn (.step hm (.refl m)))
        (hgentle.mono fun _ a ha ↦ (hperform a ha).panics fun _ ↦ trivial)
    fork job hjob := by
      refine (hperform _ (hσ.fork job)).mono id (fun hn hs ↦ hn (hs.fork job)) ?_
      rintro _ hf job' rfl
      exact hN.passes hjob (hσ.deferred job job' hf)
    join id v := (hperform _ (hσ.join id v)).mono (fun h ↦ h) (fun hn hs ↦ hn (hs.join id v))
      fun _ _ ↦ trivial
    await := hR.await fun slot ↦ (hperform _ (hσ.await slot)).mono id
      (fun hn hs ↦ hn (hs.await slot)) fun _ _ ↦ trivial
    sleep d := (hperform _ (hσ.sleep d)).mono id (fun hn hs ↦ hn (hs.sleep d)) fun _ _ ↦ trivial }

/-- Quiet effects offer finalizers that are quiet. -/
theorem Discipline.quiet {h : Host S} (hσ : h.strategy.Quiet h.program) {N : Node S → Prop}
    (hN : h.program.Hereditary N) :
    Discipline (Offers h.program) (¬h.strategy.Steady) h N :=
  .quiet_of (Offers.drift _) Offers.takeOutcome hσ hN

end EffectMachine
