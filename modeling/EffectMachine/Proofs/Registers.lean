import EffectMachine.Proofs.Composition
import EffectMachine.Proofs.Conduct
import EffectMachine.Proofs.Invocations
import EffectMachine.Proofs.Unwinding

/-!
# Scopes as registers of finalizers

Closures may do anything with scopes at any time: open them, offer them finalizers, close them and
look at them, also from inside a finalizer of a scope that is closing, and however finalizers end.
Nothing is assumed about closures here. What is said is said at every *instant*
(`World.Instant`): the events since some world take every scope from the phase that it was in to
the phase that it is in now, where a life leaves no freedom (`Lives`).

**What the theorem rests on.**

* A scope is marked closed, and its finalizers are taken away from it, before the first of them
  runs. So while they run no event concerns the scope (`World.Stage.step`), whatever they do, and
  the events of other scopes are those of complete lives or parts of lives.
* Every computation leads from one instant to another (`Host.shut_recounts` for closing, everything
  else is put together from operations on the world and closings). Computations that run out of
  fuel are left out: they stop half way.
* No call on a scope meets another one half way. Offers, looks at a scope and the taking away of its
  finalizers are single operations on the world, since no closure runs inside of them
  (`World.addFinalizer`, `World.scope`, `World.shutScope`); what a closing runs, it runs when it has
  taken everything away (`Host.shut`). So nothing has to be said about who holds the list of a
  scope, and a call from inside a finalizer, on the same scope or another one, is like any other.
* In a life every finalizer that was accepted waits or has been invoked, and the order is that of
  acceptance turned round (`Lives.account`).
-/

namespace EffectMachine

variable {S : Signature} {α : Type}

/-! ### Lives -/

/-- The finalizers that wait in a phase, newest first. -/
def Phase.waiting : Phase S → List (Finalizer S)
  | .unborn | .closed => []
  | .open fs | .closing fs => fs

/-- The phase that a world shows: a scope that is closing counts as closed. -/
def Phase.shown : Phase S → Phase S
  | .closing _ => .closed
  | p => p

namespace Lives

variable {s : ScopeId} {p q : Phase S} {u : List (Event S)}

/-- A scope that has begun to close accepts nothing. -/
theorem acceptances_eq_nil (h : Lives s p u q) (hp : 2 ≤ p.rank) : acceptances s u = [] := by
  induction h with
  | done => rfl
  | born | opened | accepted | closing => simp [Phase.rank] at hp
  | invoked _ ih | closed _ ih => simpa [Event.accepted?] using ih (by simp [Phase.rank])
  | other he _ ih => simpa [Event.accepted?_eq_none he] using ih hp

/-- **No finalizer is lost and none is invoked twice.** Those that were waiting or have been
accepted since have been invoked, the last first, or wait. -/
theorem account (h : Lives s p u q) :
    invocations s u ++ q.waiting = (acceptances s u).reverse ++ p.waiting := by
  induction h with
  | done => rfl
  | born _ ih => exact ih
  | opened _ ih | accepted _ ih | closing _ ih | closed _ ih =>
    simpa [Event.accepted?, Event.invoked?, Phase.waiting] using ih
  | invoked h ih =>
    have hnone := h.acceptances_eq_nil (Nat.le_refl 2)
    simpa [Event.accepted?, Event.invoked?, Phase.waiting, hnone] using ih
  | other he _ ih => simpa [Event.accepted?_eq_none he, Event.invoked?_eq_none he] using ih

/-- A scope that was not there or was open has begun to close if it is past that phase. -/
theorem closing_mem_iff (h : Lives s p u q) (hp : p.rank < 2) : .closing s ∈ u ↔ 2 ≤ q.rank := by
  induction h with
  | done p =>
    refine ⟨fun h ↦ absurd h List.not_mem_nil, fun hq ↦ ?_⟩
    omega
  | born _ ih => exact ih (by simp [Phase.rank])
  | opened _ ih | accepted _ ih => simpa using ih (by simp [Phase.rank])
  | closing h => exact ⟨fun _ ↦ h.rank_le, fun _ ↦ List.mem_cons_self⟩
  | invoked | closed => simp [Phase.rank] at hp
  | @other p q e t he _ ih =>
    rw [List.mem_cons, ih hp]
    refine or_iff_right ?_
    rintro rfl
    exact he rfl

/-- A scope that has closed stays closed. -/
theorem eq_closed (h : Lives s p u q) (hu : .closed s ∈ u) : q = .closed := by
  induction h with
  | done => cases hu
  | born _ ih => exact ih hu
  | opened _ ih | accepted _ ih | closing _ ih | invoked _ ih => exact ih (by simpa using hu)
  | closed h => exact h.of_closed.1
  | other he _ ih =>
    refine ih ((List.mem_cons.mp hu).resolve_left ?_)
    rintro rfl
    exact he rfl

end Lives

/-! ### Instants -/

namespace World

variable {w₀ w w' w'' : World S} {φ ψ : ScopeId → Phase S} {u v : List (Event S)} {s : ScopeId}

/-- The events since a world take its scopes to some phases, which another world shows. -/
structure Stage (w₀ : World S) (φ : ScopeId → Phase S) (u : List (Event S)) (w : World S) :
    Prop where
  history : w.history = u.reverse ++ w₀.history
  lives : ∀ s, Lives s (w₀.phase s) u (φ s)
  shown : ∀ s, w.phase s = (φ s).shown
  /-- No finalizer is left in a scope that is closed. -/
  emptied : ∀ s, ((w₀.scope s).closed = true → (w₀.scope s).finalizers = []) →
    (w.scope s).closed = true → (w.scope s).finalizers = []

/-- An instant in which some scopes may be closing, with the events since a world. -/
def Instant (w₀ : World S) (u : List (Event S)) (w : World S) : Prop := ∃ φ, Stage w₀ φ u w

/-- A computation that begins and ends in these worlds may have had these events. When it ends no
scope is closing that was not closing when it began. -/
def Recounts (w : World S) (u : List (Event S)) (w' : World S) : Prop := Stage w w'.phase u w'

theorem phase_shown (w : World S) (s : ScopeId) : (w.phase s).shown = w.phase s := by
  cases h : w.phase s with
  | closing fs => exact absurd h (w.phase_ne_closing s fs)
  | unborn | «open» | closed => rfl

namespace Stage

/-- **What a computation does to the scopes that are closing is nothing.** -/
theorem step (h : Stage w₀ φ u w) (h' : w.Recounts v w') :
    ∃ ψ, Stage w₀ ψ (u ++ v) w' ∧ (∀ s fs, φ s = .closing fs → ψ s = .closing fs) ∧
      (∀ s fs, ψ s = .closing fs → φ s = .closing fs) ∧
        ∀ s fs, φ s = .closing fs → ∀ e ∈ v, ¬e.Concerns s := by
  have hclosing : ∀ s fs, φ s = .closing fs → w'.phase s = .closed ∧ ∀ e ∈ v, ¬e.Concerns s := by
    intro s fs hs
    have hlives := h'.lives s
    rw [h.shown s, hs] at hlives
    exact hlives.of_closed
  have hother : ∀ s, (∀ fs, φ s ≠ .closing fs) → w.phase s = φ s := by
    intro s hs
    rw [h.shown]
    cases hφ : φ s with
    | closing fs => exact absurd hφ (hs fs)
    | unborn | «open» | closed => rfl
  refine ⟨fun s ↦ match φ s with | .closing fs => .closing fs | _ => w'.phase s,
    ⟨?_, fun s ↦ ?_, fun s ↦ ?_, fun s hs ↦ h'.emptied s (h.emptied s hs)⟩, fun s fs hs ↦ ?_,
    fun s fs hs ↦ ?_, fun s fs hs ↦ (hclosing s fs hs).2⟩
  · rw [h'.history, h.history, List.reverse_append, List.append_assoc]
  · refine (h.lives s).append ?_
    cases hφ : φ s with
    | closing fs => exact .idle (hclosing s fs hφ).2
    | unborn | «open» | closed =>
      have hlives := h'.lives s
      rw [hother s (by rw [hφ]; exact nofun), hφ] at hlives
      exact hlives
  · cases hφ : φ s with
    | closing fs => exact (hclosing s fs hφ).1
    | unborn | «open» | closed => exact (w'.phase_shown s).symm
  · simp only [hs]
  · cases hφ : φ s with
    | closing gs =>
      simp only [hφ] at hs
      exact hs
    | unborn | «open» | closed =>
      simp only [hφ] at hs
      exact absurd hs (w'.phase_ne_closing s fs)

end Stage

namespace Recounts

theorem silent (hh : w'.history = w.history) (hs : w'.scopes = w.scopes) : w.Recounts [] w' where
  history := hh
  lives s := by
    have hphase : w'.phase s = w.phase s := by rw [phase, phase, hs]
    rw [hphase]
    exact .done _
  shown s := (w'.phase_shown s).symm
  emptied s h := by
    rw [scope_congr hs]
    exact h

theorem trans (h : w.Recounts u w') (h' : w'.Recounts v w'') : w.Recounts (u ++ v) w'' where
  history := by rw [h'.history, h.history, List.reverse_append, List.append_assoc]
  lives s := (h.lives s).append (h'.lives s)
  shown s := (w''.phase_shown s).symm
  emptied s hs := h'.emptied s (h.emptied s hs)

theorem openScope (w : World S) : w.Recounts [] w.openScope.2 where
  history := rfl
  lives s := by
    rw [phase_openScope]
    unfold phasesWith
    split
    · subst s
      rw [w.phase_next]
      exact .born (.done _)
    · exact .done _
  shown s := (w.openScope.2.phase_shown s).symm
  emptied s hs hc := by
    rw [w.finalizers_openScope]
    cases hw : (w.scope s).closed with
    | true => exact hs hw
    | false =>
      rw [w.scope_openScope_of_lt (w.lt_size_of_closed_eq_false hw), hw] at hc
      cases hc

/-- An event that concerns no scope. -/
theorem record (w : World S) {e : Event S} (he : ∀ s : ScopeId, ¬e.Concerns s) :
    w.Recounts [e] (w.record e) where
  history := rfl
  lives s := .other (he s) (.done _)
  shown s := (w.phase_shown s).symm
  emptied _ h := h

theorem enterScope (w : World S) : w.Recounts [.opened w.openScope.1] w.enterScope.2 where
  history := rfl
  lives s := by
    show Lives s (w.phase s) _ (w.openScope.2.phase s)
    rw [phase_openScope]
    unfold phasesWith
    split
    · subst s
      rw [w.phase_next]
      exact .opened (.done _)
    · exact .other (fun h ↦ ‹¬_› h.symm) (.done _)
  shown s := (w.openScope.2.phase_shown s).symm
  emptied := (openScope w).emptied

theorem accepted {fs : List (Finalizer S)} (hs : w.phase s = .open fs) (f : Finalizer S) :
    w.Recounts [.accepted s f] (w.addFinalizer s f).2 where
  history := (addFinalizer_open hs f).1
  lives s' := by
    rw [(addFinalizer_open hs f).2]
    unfold phasesWith
    split
    · subst s'
      rw [hs]
      exact .accepted (.done _)
    · exact .other (fun h ↦ ‹¬_› h.symm) (.done _)
  shown s := ((w.addFinalizer _ f).2.phase_shown s).symm
  emptied s' h hc := by
    have hopen : (w.scope s).closed = false := by rw [phase_eq_open.1 hs]
    by_cases hs' : s' = s
    · rw [hs', w.scope_addFinalizer_self hopen] at hc
      rw [show ((w.scope s).add f).closed = (w.scope s).closed from rfl, hopen] at hc
      cases hc
    · rw [w.scope_addFinalizer_of_ne hs'] at hc ⊢
      exact h hc

theorem addFinalizer (w : World S) (s : ScopeId) (f : Finalizer S) :
    ∃ u, w.Recounts u (w.addFinalizer s f).2 := by
  by_cases h : ∃ fs, w.phase s = .open fs
  · obtain ⟨fs, hs⟩ := h
    exact ⟨_, accepted hs f⟩
  · rw [addFinalizer_of_ne_open fun fs hs ↦ h ⟨fs, hs⟩]
    exact ⟨_, record w fun _ ↦ id⟩

end Recounts

end World

/-! ### Computations -/

/-- The computation leads from instants to instants, unless it runs out of fuel. -/
def Machine.Recounted (m : Machine S α) : Prop :=
  ∀ ⦃w x w'⦄, m w = (x, w') → x ≠ .error .exhausted → ∃ u, World.Recounts w u w'

namespace Machine.Recounted

open World (Recounts)

theorem of_recounts {m : Machine S α} (h : ∀ w, ∃ u, Recounts w u (m w).2) : m.Recounted := by
  intro w x w' heq _
  have hw := h w
  rw [heq] at hw
  exact hw

/-- An operation that does nothing to scopes. -/
theorem silent {m : Machine S α} (hh : ∀ w, (m w).2.history = w.history)
    (hs : ∀ w, (m w).2.scopes = w.scopes) : m.Recounted :=
  of_recounts fun w ↦ ⟨[], .silent (hh w) (hs w)⟩

theorem bind {β : Type} {m : Machine S α} {f : α → Machine S β} (h : m.Recounted)
    (hf : ∀ a, (f a).Recounted) : (m >>= f).Recounted := by
  intro w x w' heq hx
  rcases bind_eq heq with ⟨a, w₁, hm, ha⟩ | ⟨e, hm, rfl⟩
  · obtain ⟨u, hu⟩ := h hm nofun
    obtain ⟨v, hv⟩ := hf a ha hx
    exact ⟨u ++ v, hu.trans hv⟩
  · exact h hm (Escape.ne_exhausted hx)

theorem guard {m : Machine S α} (h : m.Recounted) : m.guard.Recounted := by
  intro w x w' heq hx
  obtain ⟨y, a, hm, hy, -⟩ := guard_eq heq hx
  exact h hm hy

/-- Everything that is put together from operations on the world, and from closings that lead from
instants to instants, does so as well. -/
theorem compositional :
    Compositional (S := S) fun ⦃α⦄ (m : Machine S α) ↦ m.Recounted where
  pure _ := silent (fun _ ↦ rfl) fun _ ↦ rfl
  escape _ := silent (fun _ ↦ rfl) fun _ ↦ rfl
  bind := bind
  guard := guard
  gets _ _ := silent (fun _ ↦ rfl) fun _ ↦ rfl
  write _ := silent (fun _ ↦ rfl) fun _ ↦ rfl
  advance _ := silent (fun _ ↦ rfl) fun _ ↦ rfl
  sleep _ := silent (fun _ ↦ rfl) fun _ ↦ rfl
  draw := silent (fun _ ↦ rfl) fun _ ↦ rfl
  openScope := of_recounts fun w ↦ ⟨_, .openScope w⟩
  enterScope := of_recounts fun w ↦ ⟨_, .enterScope w⟩
  addFinalizer s f := of_recounts fun w ↦ Recounts.addFinalizer w s f
  newSlot := silent (fun _ ↦ rfl) fun _ ↦ rfl
  settle _ _ := silent (fun _ ↦ rfl) fun _ ↦ rfl
  takeOutcome _ := silent (fun _ ↦ rfl) fun _ ↦ rfl
  newFork := silent (fun _ ↦ rfl) fun _ ↦ rfl
  newBudget _ := silent (fun _ ↦ rfl) fun _ ↦ rfl
  modifyBudget _ _ := silent (fun _ ↦ rfl) fun _ ↦ rfl
  exceeded _ _ := of_recounts fun w ↦ ⟨_, .record w fun _ ↦ id⟩

end Machine.Recounted

/-! ### Closing a scope -/

namespace World.Stage

variable {w₀ w : World S} {φ : ScopeId → Phase S} {u : List (Event S)} {s : ScopeId}

/-- An event that concerns no scope. -/
theorem record (h : Stage w₀ φ u w) {e : Event S} (he : ∀ s : ScopeId, ¬e.Concerns s) :
    Stage w₀ φ (u ++ [e]) (w.record e) where
  history := by simp [World.record, h.history]
  lives s := (h.lives s).append (.other (he s) (.done _))
  shown := h.shown
  emptied := h.emptied

/-- An event in the life of one scope, which the scopes of the world show. -/
theorem event (h : Stage w₀ φ u w) {w' : World S} {e : Event S} {q : Phase S}
    (hh : w'.history = e :: w.history) (hs : Lives s (φ s) [e] q)
    (he : ∀ s' ≠ s, ¬e.Concerns s') (hphase : w'.phase = phasesWith w.phase s q.shown)
    (hemptied : ∀ s', ((w₀.scope s').closed = true → (w₀.scope s').finalizers = []) →
      (w'.scope s').closed = true → (w'.scope s').finalizers = []) :
    Stage w₀ (phasesWith φ s q) (u ++ [e]) w' where
  history := by simp [hh, h.history]
  lives s' := by
    refine (h.lives s').append ?_
    unfold phasesWith
    split
    · subst s'
      exact hs
    · exact .other (he s' ‹_›) (.done _)
  shown s' := by
    rw [hphase]
    unfold phasesWith
    split
    · rfl
    · exact h.shown s'
  emptied := hemptied

/-- A scope that was open begins to close. -/
theorem closing (h : Stage w₀ φ u w) {fs : List (Finalizer S)} (hs : φ s = .open fs) :
    Stage w₀ (phasesWith φ s (.closing fs)) (u ++ [.closing s]) (w.shutScope s) := by
  have hopen : w.phase s = .open fs := by rw [h.shown, hs]; rfl
  refine h.event rfl (hs ▸ .closing (.done _)) (fun s' hs' he ↦ hs' he.symm)
    (World.phase_shutScope hopen) fun s' hs' hc ↦ ?_
  by_cases hne : s' = s
  · rw [hne, w.scope_shutScope_self]
    rfl
  · rw [w.scope_shutScope_of_ne hne] at hc ⊢
    exact h.emptied s' hs' hc

/-- A scope that is closing invokes the finalizer that comes next. -/
theorem invoked (h : Stage w₀ φ u w) {f : Finalizer S} {fs : List (Finalizer S)}
    (hs : φ s = .closing (f :: fs)) :
    Stage w₀ (phasesWith φ s (.closing fs)) (u ++ [.invoked s f]) (w.record (.invoked s f)) := by
  have hclosed : w.phase s = .closed := by rw [h.shown, hs]; rfl
  exact h.event rfl (hs ▸ .invoked (.done _)) (fun s' hs' he ↦ hs' he.symm)
    (phasesWith_of_eq hclosed).symm h.emptied

/-- A scope that is closing and has run its finalizers has closed. -/
theorem closed (h : Stage w₀ φ u w) (hs : φ s = .closing []) :
    Stage w₀ (phasesWith φ s .closed) (u ++ [.closed s]) (w.record (.closed s)) := by
  have hclosed : w.phase s = .closed := by rw [h.shown, hs]; rfl
  exact h.event rfl (hs ▸ .closed (.done _)) (fun s' hs' he ↦ hs' he.symm)
    (phasesWith_of_eq hclosed).symm h.emptied

end World.Stage

/-- A closing scope invokes finalizers one after the other, with these outcomes. Each of them begins
and ends at an instant, and nothing concerns the scope while it runs. -/
inductive Host.Invokes (h : Host S) (release : Releaser S) (w₀ : World S) (s : ScopeId) :
    List (Event S) → World S → List (Finalizer S × Outcome S.Error Unit) → List (Event S) →
      World S → Prop where
  | nil (u : List (Event S)) (w : World S) : h.Invokes release w₀ s u w [] u w
  | cons {u v u' : List (Event S)} {w w₁ w' : World S} {f : Finalizer S}
      {y : Except Escape (Outcome S.Error Unit)} {o : Outcome S.Error Unit}
      {es : List (Finalizer S × Outcome S.Error Unit)}
      (hbegin : w₀.Instant (u ++ [.invoked s f]) (w.record (.invoked s f)))
      (hrun : h.finalize release f (w.record (.invoked s f)) = (y, w₁)) (ho : Reported y o)
      (hend : w₀.Instant (u ++ [.invoked s f] ++ v) w₁) (hown : ∀ e ∈ v, ¬e.Concerns s)
      (hrest : h.Invokes release w₀ s (u ++ [.invoked s f] ++ v ++ [.ended s f o])
        (w₁.record (.ended s f o)) es u' w') :
      h.Invokes release w₀ s u w ((f, o) :: es) u' w'

namespace Host

open World (Stage Recounts)

variable {h : Host S} {release : Releaser S} {w₀ w w₁ : World S} {s : ScopeId}
  {f : Finalizer S}

variable (hfinalize : ∀ f, (h.finalize release f).Recounted)
include hfinalize

/-- **A scope that is closing invokes its finalizers in order**, and comes to the end of them unless
one of them does not end. -/
theorem invokeAll_invokes {fs : List (Finalizer S)} {φ : ScopeId → Phase S} {u : List (Event S)}
    (hstage : Stage w₀ φ u w) (hs : φ s = .closing fs) :
    ∃ es u' w₁, h.Invokes release w₀ s u w es u' w₁ ∧
      (es.map Prod.fst = fs ∧ h.invokeAll release s fs w = (.ok (failuresOf es), w₁) ∧
          (∃ ψ, Stage w₀ ψ u' w₁ ∧ ψ s = .closing [] ∧
            ∀ s' ≠ s, ∀ gs, ψ s' = .closing gs → φ s' = .closing gs) ∨
        ∃ f rest w₂, es.map Prod.fst ++ f :: rest = fs ∧
          h.finalize release f (w₁.record (.invoked s f)) = (.error .exhausted, w₂) ∧
            h.invokeAll release s fs w = (.error .exhausted, w₂)) := by
  induction fs generalizing w φ u with
  | nil =>
    exact ⟨[], u, w, .nil u w, .inl ⟨rfl, rfl, φ, hstage, hs, fun _ _ _ h ↦ h⟩⟩
  | cons f fs ih =>
    have hbegin := hstage.invoked hs
    rcases hrun : h.finalize release f (w.record (.invoked s f)) with ⟨y, w₁⟩
    rcases invoke_cases hrun with ⟨rfl, hinvoke⟩ | ⟨o, ho, hinvoke⟩
    · refine ⟨[], u, w, .nil u w, .inr ⟨f, fs, w₁, rfl, hrun, ?_⟩⟩
      exact Machine.bind_error hinvoke _
    · obtain ⟨v, hv⟩ := hfinalize f hrun (by cases ho <;> nofun)
      obtain ⟨ψ, hend, hkept, hnew, hown⟩ := hbegin.step hv
      have hψ : ψ s = .closing fs := hkept s fs (phasesWith_same ..)
      have hnext := hend.record (e := .ended s f o) fun _ ↦ id
      obtain ⟨es, u', w₂, hes, hlast⟩ := ih hnext hψ
      refine ⟨(f, o) :: es, u', w₂, .cons ⟨_, hbegin⟩ hrun ho ⟨_, hend⟩
        (hown s fs (phasesWith_same ..)) hes, ?_⟩
      rcases hlast with ⟨hfs, hall, χ, hχ, hχs, hχne⟩ | ⟨g, rest, w₃, hfs, hg, hall⟩
      · refine .inl ⟨congrArg (f :: ·) hfs, ?_, χ, hχ, hχs, fun s' hs' gs hgs ↦ ?_⟩
        · show (h.invoke release s f >>= _) w = _
          rw [Machine.bind_ok hinvoke]
          cases o with
          | ok o => exact hall
          | error cause => exact Machine.bind_ok hall _
        · have hφ := hnew s' gs (hχne s' hs' gs hgs)
          rwa [phasesWith, if_neg hs'] at hφ
      · refine .inr ⟨g, rest, w₃, congrArg (f :: ·) hfs, hg, ?_⟩
        show (h.invoke release s f >>= _) w = _
        rw [Machine.bind_ok hinvoke]
        cases o with
        | ok o => exact hall
        | error cause => exact Machine.bind_error hall _

/-- **A scope that was open closes**: it invokes what waits in it, and reports what failed. -/
theorem shut_invokes {fs : List (Finalizer S)} {φ : ScopeId → Phase S} {u : List (Event S)}
    (hstage : Stage w₀ φ u w) (hs : φ s = .open fs) :
    ∃ es u' w₁, h.Invokes release w₀ s (u ++ [.closing s]) (w.shutScope s) es u' w₁ ∧
      (es.map Prod.fst = fs ∧
          h.shut release s w = (.ok (.ofFailures (failuresOf es)), w₁.record (.closed s)) ∧
          (∃ ψ, Stage w₀ ψ (u' ++ [.closed s]) (w₁.record (.closed s)) ∧
            ∀ s' gs, ψ s' = .closing gs → φ s' = .closing gs) ∨
        ∃ f rest w₂, es.map Prod.fst ++ f :: rest = fs ∧
          h.finalize release f (w₁.record (.invoked s f)) = (.error .exhausted, w₂) ∧
            h.shut release s w = (.error .exhausted, w₂)) := by
  have hscope : w.scope s = ⟨false, fs⟩ :=
    World.phase_eq_open.1 (by rw [hstage.shown, hs]; rfl)
  have hshut : h.shut release s w = (h.invokeAll release s fs >>= fun causes ↦
      Machine.modify (fun w ↦ w.record (.closed s)) >>= fun _ ↦
        pure (.ofFailures causes)) (w.shutScope s) := by
    rw [shut, Machine.bind_ok (Machine.gets_apply _ w), hscope]
    show (h.invokeAll release s fs >>= _) (w.shutScope s) = _
    refine congrFun (bind_congr fun causes ↦ bind_congr fun _ ↦ ?_) _
    cases causes <;> rfl
  have hclosing := hstage.closing hs
  obtain ⟨es, u', w₁, hes, hlast⟩ :=
    invokeAll_invokes hfinalize hclosing (phasesWith_same φ s (.closing fs))
  refine ⟨es, u', w₁, hes, ?_⟩
  rcases hlast with ⟨hfs, hall, ψ, hψ, hψs, hne⟩ | ⟨f, rest, w₂, hfs, hf, hall⟩
  · refine .inl ⟨hfs, by rw [hshut, Machine.bind_ok hall]; rfl, _, hψ.closed hψs, ?_⟩
    intro s' gs hgs
    unfold phasesWith at hgs
    split at hgs
    · cases hgs
    · have hφ := hne s' ‹_› gs hgs
      rwa [phasesWith, if_neg ‹_›] at hφ
  · exact .inr ⟨f, rest, w₂, hfs, hf, by rw [hshut, Machine.bind_error hall]⟩

/-- Closing a scope leads from one instant to another. -/
theorem shut_recounted (s : ScopeId) : (h.shut release s).Recounted := by
  intro w x w' heq hx
  have hstage : Stage w w.phase [] w := Recounts.silent rfl rfl
  cases hs : w.phase s with
  | «open» fs =>
    obtain ⟨es, u', w₁, -, hlast⟩ := shut_invokes hfinalize hstage hs
    rcases hlast with ⟨-, hshut, ψ, hψ, hne⟩ | ⟨_, _, w₂, -, -, hshut⟩
    · obtain ⟨rfl, rfl⟩ := Prod.mk.inj (heq.symm.trans hshut)
      refine ⟨_, hψ.history, fun s' ↦ ?_, fun s' ↦ (World.phase_shown _ s').symm, hψ.emptied⟩
      have hshown : (w₁.record (.closed s)).phase s' = ψ s' := by
        rw [hψ.shown]
        cases hψs : ψ s' with
        | closing gs => exact absurd (hne s' gs hψs) (w.phase_ne_closing s' gs)
        | unborn | «open» | closed => rfl
      rw [hshown]
      exact hψ.lives s'
    · exact absurd (congrArg Prod.fst (heq.symm.trans hshut)) hx
  | closing fs => exact absurd hs (w.phase_ne_closing s fs)
  | unborn | closed =>
    have hclosed : (w.scope s).closed = true := by
      cases hc : (w.scope s).closed with
      | true => rfl
      | false =>
        rw [World.phase_of_closed_eq_false hc] at hs
        cases hs
    rcases shut_eq heq with ⟨-, -, rfl⟩ | ⟨hc, -⟩
    · exact ⟨[], .silent rfl rfl⟩
    · rw [hclosed] at hc
      cases hc

end Host

/-- Closing a scope leads from one instant to another, whatever the finalizers do. -/
theorem Interpreter.closeScope_recounted {it : Interpreter S} (hr : it.registry.Composed)
    (fuel : Nat) (s : ScopeId) : (it.closeScope fuel s).Recounted := by
  have C := Machine.Recounted.compositional (S := S)
  induction fuel generalizing s with
  | zero =>
    rintro w x w' ⟨⟩ hx
    exact absurd rfl hx
  | succ fuel ih =>
    exact Host.shut_recounted (h := it.host (it.closeScope fuel))
      (Host.finalize_composed C ih (interpretWith_composed C hr ih fuel)) s

/-! ### The register -/

namespace World

variable {w₀ w : World S} {φ : ScopeId → Phase S} {u : List (Event S)} {s : ScopeId}

theorem phase_of_size_le (h : w.scopes.size ≤ s.index) : w.phase s = .unborn := by
  have hnone : w.scopes.get? s.index = none := Array.getElem?_eq_none h
  rw [phase, hnone]

theorem phase_ne_unborn (h : s.index < w.scopes.size) : w.phase s ≠ .unborn := by
  have hsome : w.scopes.get? s.index = some _ := Array.getElem?_eq_getElem h
  rw [phase, hsome]
  show (if _ then _ else _) ≠ _
  split <;> rintro ⟨⟩

namespace Stage

variable (h : Stage w₀ φ u w) (hold : w₀.scopes.size ≤ s.index)
include h hold

theorem lives_unborn : Lives s .unborn u (φ s) :=
  phase_of_size_le hold ▸ h.lives s

/-- A scope that has not begun to close holds what it has accepted, the last first. -/
theorem open_eq (hnew : s.index < w.scopes.size) (hclosing : .closing s ∉ u) :
    φ s = .open (acceptances s u).reverse := by
  have hlives := h.lives_unborn hold
  have hrank : ¬2 ≤ (φ s).rank := fun hr ↦ hclosing ((hlives.closing_mem_iff Nat.two_pos).mpr hr)
  have hinvoked := hlives.no_invocations nofun hclosing
  have hwaiting := hlives.account
  rw [hinvoked, List.nil_append] at hwaiting
  cases hφ : φ s with
  | unborn =>
    refine absurd ?_ (phase_ne_unborn hnew)
    rw [h.shown, hφ]
    rfl
  | «open» fs =>
    rw [hφ] at hwaiting
    exact congrArg Phase.open (hwaiting.trans (List.append_nil _))
  | closing fs => exact absurd (by rw [hφ]; exact Nat.le_refl 2) hrank
  | closed =>
    refine absurd ?_ hrank
    rw [hφ]
    exact Nat.le_succ 2

/-- A scope that has begun to close is closed and holds nothing. -/
theorem closed_eq (hclosing : .closing s ∈ u) : w.scope s = .shut := by
  have hrank := ((h.lives_unborn hold).closing_mem_iff Nat.two_pos).mp hclosing
  have hclosed : (w.scope s).closed = true := by
    cases hc : (w.scope s).closed with
    | true => rfl
    | false =>
      have hopen := h.shown s
      rw [phase_of_closed_eq_false hc] at hopen
      cases hφ : φ s <;> rw [hφ] at hopen hrank
      · simp [Phase.rank] at hrank
      · simp [Phase.rank] at hrank
      · cases hopen
      · cases hopen
  have hempty := h.emptied s (fun _ ↦ by rw [w₀.scope_of_size_le hold]; rfl) hclosed
  rcases hscope : w.scope s with ⟨c, fs⟩
  rw [hscope] at hclosed hempty
  cases hclosed
  cases hempty
  rfl

end Stage

end World

/-- The relation of all worlds. -/
theorem drift_true : Drift (S := S) fun _ _ ↦ True where
  refl _ := trivial
  trans _ _ := trivial
  state _ _ := trivial
  clock _ _ := trivial
  noise _ _ := trivial
  newSlot _ := trivial
  settle _ _ _ := trivial
  forks _ _ := trivial
  openScope _ := trivial
  addCleanup _ _ _ := trivial

namespace Interpreter

/-- The calls on a scope that has not begun to close. -/
structure CallsOpen (it : Interpreter S) (fuel : Nat) (w₀ : World S) (u : List (Event S))
    (w : World S) (s : ScopeId) : Prop where
  /-- All that it has accepted is pending. -/
  status : (w.scope s).status = ⟨(acceptances s u).length, false⟩
  /-- An offer is accepted. -/
  add : ∀ f, (w.addFinalizer s f).1 = .ok () ∧
    w₀.Instant (u ++ [.accepted s f]) (w.addFinalizer s f).2
  /-- **The first closing** invokes everything that was accepted, the last first, whatever comes of
  each, and reports the failures; unless one of the finalizers does not end. -/
  close : ∃ es u' w₁, (it.host (it.closeScope fuel)).Invokes
      (it.interpretWith (it.closeScope fuel) fuel) w₀ s (u ++ [.closing s]) (w.shutScope s) es u'
        w₁ ∧
    (es.map Prod.fst = (acceptances s u).reverse ∧
        it.closeScope (fuel + 1) s w =
          (.ok (.ofFailures (failuresOf es)), w₁.record (.closed s)) ∧
        w₀.Instant (u' ++ [.closed s]) (w₁.record (.closed s)) ∨
      ∃ f rest w₂, es.map Prod.fst ++ f :: rest = (acceptances s u).reverse ∧
        (it.host (it.closeScope fuel)).finalize (it.interpretWith (it.closeScope fuel) fuel) f
          (w₁.record (.invoked s f)) = (.error .exhausted, w₂) ∧
        it.closeScope (fuel + 1) s w = (.error .exhausted, w₂))

/-- The calls on a scope that has begun to close, which may be closing still. -/
structure CallsClosed (it : Interpreter S) (fuel : Nat) (w : World S) (s : ScopeId) : Prop where
  /-- Nothing is pending. -/
  status : (w.scope s).status = ⟨0, true⟩
  /-- An offer is refused. -/
  add : ∀ f, w.addFinalizer s f = (.error (.scopeClosed s.number), w.record (.refused s f))
  /-- Closing it again succeeds and does nothing. -/
  close : it.closeScope (fuel + 1) s w = (.ok (.ok ()), w)

/-- Scopes register finalizers, under whatever calls. The events `u` are those since some world,
`w` is the world at an instant since, and `s` a scope that has been opened in between. -/
structure Registers (it : Interpreter S) (fuel : Nat) : Prop where
  start : ∀ w₀ : World S, w₀.Instant [] w₀
  /-- Closures, rounds, runs and closings do nothing but operations on the world and closings, -/
  composed : it.Composes fuel
  /-- and all that does no more leads from instants to instants. -/
  instants : ∀ {α : Type} (m : Machine S α), m.Composed (it.closeScope fuel) →
    ∀ {w₀ w w' : World S} {u : List (Event S)} {x : Except Escape α}, w₀.Instant u w →
      m w = (x, w') → x ≠ .error .exhausted → ∃ v, w₀.Instant (u ++ v) w'
  calls_open : ∀ {w₀ w : World S} {u : List (Event S)} {s : ScopeId}, w₀.Instant u w →
    w₀.scopes.size ≤ s.index → s.index < w.scopes.size → .closing s ∉ u →
      it.CallsOpen fuel w₀ u w s
  calls_closed : ∀ {w₀ w : World S} {u : List (Event S)} {s : ScopeId}, w₀.Instant u w →
    w₀.scopes.size ≤ s.index → .closing s ∈ u → it.CallsClosed fuel w s
  /-- **Finalizers are invoked once at most**, in the order of acceptance turned round, and all of
  them have been when the scope has closed. -/
  once : ∀ {w₀ w : World S} {u : List (Event S)} {s : ScopeId}, w₀.Instant u w →
    w₀.scopes.size ≤ s.index → invocations s u <+: (acceptances s u).reverse ∧
      (.closed s ∈ u → invocations s u = (acceptances s u).reverse)
  /-- Closing a scope does not panic, also from inside another closing, -/
  closings_steady : ∀ s w p, (it.closeScope fuel s w).1 ≠ .error (.panic p)
  /-- and a closure does not unless it says so itself. -/
  closures_steady : ∀ {α : Type} (a : Action S α), a.Steady → ∀ w p,
    ((it.host (it.closeScope fuel)).perform a w).1 ≠ .error (.panic p)

/-- **Scopes are re-entrant registers of finalizers**: each is run exactly once, the last first. -/
theorem scopes_register {it : Interpreter S} (hr : it.registry.Composed) (fuel : Nat) :
    it.Registers fuel where
  start w₀ := ⟨w₀.phase, World.Recounts.silent rfl rfl⟩
  composed := composes hr fuel
  instants m hm w₀ w w' u x hw heq hx := by
    obtain ⟨φ, hφ⟩ := hw
    have hrecounted := hm Machine.Recounted.compositional (closeScope_recounted hr fuel)
    obtain ⟨v, hv⟩ := hrecounted heq hx
    obtain ⟨ψ, hψ, -⟩ := hφ.step hv
    exact ⟨v, ψ, hψ⟩
  calls_open {w₀ w u s} hw hold hnew hclosing := by
    obtain ⟨φ, hφ⟩ := hw
    have hs := hφ.open_eq hold hnew hclosing
    have hphase : w.phase s = .open (acceptances s u).reverse := by rw [hφ.shown, hs]; rfl
    have hscope := World.phase_eq_open.1 hphase
    refine ⟨?_, fun f ↦ ⟨?_, ?_⟩, ?_⟩
    · rw [hscope, Scope.status, List.length_reverse]
    · rw [World.addFinalizer, hscope]
      rfl
    · obtain ⟨ψ, hψ, -⟩ := hφ.step (.accepted hphase f)
      exact ⟨ψ, hψ⟩
    · have hfinalize : ∀ f, Machine.Recounted ((it.host (it.closeScope fuel)).finalize
          (it.interpretWith (it.closeScope fuel) fuel) f) := by
        have C := Machine.Recounted.compositional (S := S)
        have hclose := closeScope_recounted hr fuel
        exact Host.finalize_composed C (h := it.host (it.closeScope fuel)) hclose
          (interpretWith_composed C hr hclose fuel)
      obtain ⟨es, u', w₁, hes, hlast⟩ := Host.shut_invokes hfinalize hφ hs
      refine ⟨es, u', w₁, hes, hlast.imp_left ?_⟩
      rintro ⟨hfs, hshut, ψ, hψ, -⟩
      exact ⟨hfs, hshut, ψ, hψ⟩
  calls_closed {w₀ w u s} hw hold hclosing := by
    obtain ⟨φ, hφ⟩ := hw
    have hscope := hφ.closed_eq hold hclosing
    refine ⟨by rw [hscope]; rfl, fun f ↦ by rw [World.addFinalizer, hscope]; rfl, ?_⟩
    show (Machine.gets (fun w ↦ w.scope s) >>= _) w = _
    rw [Machine.bind_ok (Machine.gets_apply _ w), hscope]
    rfl
  once {w₀ w u s} hw hold := by
    obtain ⟨φ, hφ⟩ := hw
    have hlives := hφ.lives_unborn hold
    have haccount := hlives.account
    rw [show (Phase.unborn : Phase S).waiting = [] from rfl, List.append_nil] at haccount
    refine ⟨⟨_, haccount⟩, fun hclosed ↦ ?_⟩
    rw [hlives.eq_closed hclosed] at haccount
    exact (List.append_nil _).symm.trans haccount
  closings_steady s w p heq := by
    rcases hclose : it.closeScope fuel s w with ⟨x, w'⟩
    rw [hclose] at heq
    exact closeScope_ne_panic hclose heq
  closures_steady a ha w p heq := by
    have hclosings : ∀ s, Machine.Along (fun _ _ ↦ True) False (it.closeScope fuel s)
        fun _ ↦ True :=
      fun s w x w' hclose _ ↦
        ⟨trivial, fun _ _ ↦ trivial, fun p hx ↦ closeScope_ne_panic hclose hx⟩
    rcases hperform : (it.host (it.closeScope fuel)).perform a w with ⟨x, w'⟩
    rw [hperform] at heq
    have hx : x ≠ .error .exhausted := by
      rintro rfl
      cases heq
    have halong := Host.perform_along drift_true (it.host (it.closeScope fuel)) a (.inr hclosings)
      (.inr fun _ _ ↦ trivial)
    exact (halong hperform hx).2.2 p heq ha

/-- Every finalizer closes the first scope once more and offers it another finalizer. Then it panics
if its number is zero, or notes its number. -/
def meddling : Interpreter Tally where
  program := {
    effect := nofun
    cleanup n := .closeScope ⟨0⟩ fun _ ↦ .addCleanup ⟨0⟩ n fun _ ↦
      if n = 0 then .panic .payload else .read fun k ↦ .write (10 * k + n) (.done (.ok ())) }

/-- A closure that registers three such finalizers and closes the scope. -/
def meddle : Action Tally (Outcome Nat Unit) :=
  .openScope fun s ↦ .addCleanup s 1 fun _ ↦ .addCleanup s 0 fun _ ↦ .addCleanup s 2 fun _ ↦
    .closeScope s .done

/-- The finalizers run once each, the last first, and the panic of one is reported. -/
theorem meddling_registers :
    meddling.Registers 3 ∧
      (match (meddling.host (meddling.closeScope 3)).perform meddle tallyWorld with
        | (.ok (.error (.composite [.defect d])), w) =>
          d == .panic "unknown panic" && w.state == (21 : Nat)
        | _ => false) = true :=
  ⟨scopes_register Registry.composed_standard 3, by decide +kernel⟩

end Interpreter

end EffectMachine
