import EffectMachine.Proofs.Conduct
import EffectMachine.Proofs.Persistence
import Mathlib.Data.List.Forall2

/-!
# What waits in scopes

An invariant of worlds says what finalizers wait in scopes, a relation between worlds which wait in
the same place. Both have to be kept by the few changes that the world makes to its scopes: opening
one, offering it a finalizer, shutting it. `World.Awaits` and `World.Matches` keep a property of
finalizers and a relation between finalizers through them, whatever these are.

What a closing scope does depends on what waits in it. So a relation that rests on such an invariant
holds along closings as soon as it holds along the runs of finalizers as said
(`Interpreter.closeScope_along_of_awaits`).
-/

namespace EffectMachine

variable {S : Signature}

/-- All finalizers that wait in scopes are as said. -/
def World.Awaits (F : Finalizer S → Prop) (w : World S) : Prop :=
  ∀ s, ∀ f ∈ (w.scope s).finalizers, F f

namespace World.Awaits

variable {F : Finalizer S → Prop} {w w' : World S}

theorem congr (h : w.Awaits F) (hscopes : w'.scopes = w.scopes) : w'.Awaits F := fun s ↦ by
  rw [World.scope_congr hscopes]
  exact h s

theorem openScope (h : w.Awaits F) : w.openScope.2.Awaits F := fun s ↦ by
  rw [w.finalizers_openScope]
  exact h s

theorem addFinalizer (h : w.Awaits F) (s : ScopeId) {f : Finalizer S} (hf : F f) :
    (w.addFinalizer s f).2.Awaits F := by
  intro s'
  cases hc : (w.scope s).closed with
  | true =>
    rw [w.scope_addFinalizer_of_closed hc]
    exact h s'
  | false =>
    by_cases hs : s' = s
    · rw [hs, w.scope_addFinalizer_self hc]
      exact List.forall_mem_cons.mpr ⟨hf, h s⟩
    · rw [w.scope_addFinalizer_of_ne hs]
      exact h s'

theorem shutScope (h : w.Awaits F) (s : ScopeId) : (w.shutScope s).Awaits F := by
  intro s'
  by_cases hs : s' = s
  · rw [hs, w.scope_shutScope_self]
    exact nofun
  · rw [w.scope_shutScope_of_ne hs]
    exact h s'

end World.Awaits

open Machine (Along) in
/-- **Closing scopes keeps to a relation if finalizers as said do**, when the relation is about
worlds only in which all that waits is as said. -/
theorem Interpreter.closeScope_along_of_awaits {it : Interpreter S} (hr : it.registry = .standard)
    {F : Finalizer S → Prop} {R : World S → World S → Prop} (hR : Drift R)
    (hrecord : ∀ w e, R w (w.record e)) (hshut : ∀ w s, R w (w.shutScope s))
    (hawaits : ∀ {w w'}, (w.Awaits F → R w w') → R w w')
    (hfinalize : ∀ depth, (∀ s, Along R False (it.closeScope depth s) fun _ ↦ True) →
      ∀ f, F f → Along R True ((it.host (it.closeScope depth)).finalize (it.interpretOn depth) f)
        fun _ ↦ True)
    (depth : Nat) (s : ScopeId) : Along R False (it.closeScope depth s) fun _ ↦ True := by
  induction depth generalizing s with
  | zero => exact .exhausted
  | succ depth ih =>
    intro w x w' heq hx
    have hpanic := (closeScope_along persistent_extends hr (depth + 1) s heq hx).2.2
    refine ⟨hawaits fun hw ↦ ?_, fun _ _ ↦ trivial, hpanic⟩
    rcases Host.shut_eq heq with ⟨-, -, rfl⟩ | ⟨-, y, w₁, hinvoke, rfl, hw'⟩
    · exact hR.refl _
    · have hall := Host.invokeAll_along hR hrecord s (fun f hf ↦ hfinalize depth ih f (hw s f hf))
        hinvoke fun hy ↦ hx (by rw [hy]; rfl)
      rcases y with (pn | _) | causes
      · exact (hall.2.2 pn rfl).elim
      · exact absurd rfl hx
      · rw [hw' _ rfl]
        exact hR.trans (hshut w s) (hR.trans hall.1 (hrecord w₁ _))

/-- Two worlds have the same scopes, up to the finalizers that wait in them. -/
structure World.Matches (F : Finalizer S → Finalizer S → Prop) (w w' : World S) : Prop where
  size : w'.scopes.size = w.scopes.size
  closed : ∀ s, (w'.scope s).closed = (w.scope s).closed
  finalizers : ∀ s, List.Forall₂ F (w.scope s).finalizers (w'.scope s).finalizers

namespace World.Matches

variable {F : Finalizer S → Finalizer S → Prop} {w w' v v' : World S}

/-- What is seen of a scope from outside is the same. -/
theorem status (h : w.Matches F w') (s : ScopeId) : (w'.scope s).status = (w.scope s).status := by
  rw [Scope.status, Scope.status, h.closed, (h.finalizers s).length_eq]

theorem congr (h : w.Matches F w') (hv : v.scopes = w.scopes) (hv' : v'.scopes = w'.scopes) :
    v.Matches F v' where
  size := by rw [hv, hv', h.size]
  closed s := by rw [World.scope_congr hv, World.scope_congr hv', h.closed]
  finalizers s := by
    rw [World.scope_congr hv, World.scope_congr hv']
    exact h.finalizers s

/-- The next scope to be opened is the same. -/
theorem openScope_eq (h : w.Matches F w') : w'.openScope.1 = w.openScope.1 :=
  congrArg ScopeId.mk h.size

theorem openScope (h : w.Matches F w') : w.openScope.2.Matches F w'.openScope.2 where
  size := by rw [w.size_openScope, w'.size_openScope, h.size]
  closed s := by
    -- a scope that was there, the new one, or none
    rcases Nat.lt_trichotomy s.index w.scopes.size with hlt | heq | hgt
    · rw [w.scope_openScope_of_lt hlt, w'.scope_openScope_of_lt (h.size.symm ▸ hlt), h.closed]
    · have hs : s = w.openScope.1 := congrArg ScopeId.mk heq
      rw [hs, w.scope_openScope_self, ← h.openScope_eq, w'.scope_openScope_self]
    · have hsize : w.openScope.2.scopes.size ≤ s.index := by
        rw [w.size_openScope]
        exact hgt
      have hsize' : w'.openScope.2.scopes.size ≤ s.index := by
        rw [w'.size_openScope, h.size]
        exact hgt
      rw [w.openScope.2.scope_of_size_le hsize, w'.openScope.2.scope_of_size_le hsize']
  finalizers s := by
    rw [w.finalizers_openScope, w'.finalizers_openScope]
    exact h.finalizers s

/-- An offer is accepted by both or refused by both. -/
theorem addFinalizer_eq (h : w.Matches F w') (s : ScopeId) (f f' : Finalizer S) :
    (w'.addFinalizer s f').1 = (w.addFinalizer s f).1 := by
  rw [World.addFinalizer, World.addFinalizer, h.closed]
  split <;> rfl

theorem addFinalizer (h : w.Matches F w') (s : ScopeId) {f f' : Finalizer S} (hf : F f f') :
    (w.addFinalizer s f).2.Matches F (w'.addFinalizer s f').2 := by
  cases hc : (w.scope s).closed with
  | true =>
    rw [World.addFinalizer, if_pos hc, World.addFinalizer, if_pos ((h.closed s).trans hc)]
    exact h.congr rfl rfl
  | false =>
    have hscope := w.scope_addFinalizer_self hc f
    have hscope' := w'.scope_addFinalizer_self ((h.closed s).trans hc) f'
    refine ⟨?_, fun s' ↦ ?_, fun s' ↦ ?_⟩
    · rw [w.size_addFinalizer, w'.size_addFinalizer, h.size]
    · by_cases hs : s' = s
      · rw [hs, hscope, hscope']
        exact h.closed s
      · rw [w.scope_addFinalizer_of_ne hs, w'.scope_addFinalizer_of_ne hs, h.closed]
    · by_cases hs : s' = s
      · rw [hs, hscope, hscope']
        exact .cons hf (h.finalizers s)
      · rw [w.scope_addFinalizer_of_ne hs, w'.scope_addFinalizer_of_ne hs]
        exact h.finalizers s'

theorem shutScope (h : w.Matches F w') (s : ScopeId) :
    (w.shutScope s).Matches F (w'.shutScope s) where
  size := by rw [w.size_shutScope, w'.size_shutScope, h.size]
  closed s' := by
    by_cases hs : s' = s
    · rw [hs, w.scope_shutScope_self, w'.scope_shutScope_self]
    · rw [w.scope_shutScope_of_ne hs, w'.scope_shutScope_of_ne hs, h.closed]
  finalizers s' := by
    by_cases hs : s' = s
    · rw [hs, w.scope_shutScope_self, w'.scope_shutScope_self]
      exact .nil
    · rw [w.scope_shutScope_of_ne hs, w'.scope_shutScope_of_ne hs]
      exact h.finalizers s'

end World.Matches

end EffectMachine
