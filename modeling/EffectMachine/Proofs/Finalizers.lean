import EffectMachine.Proofs.Invocations

/-!
# Finalizers run once

Over a whole run every finalizer that a scope of the run accepted is invoked exactly once, the last
one first, and the scope is closed in the end. When an outcome meets a frame every region that was
left on the way has closed its scope: no frame sees an outcome before the finalizers inside it
have been invoked. And to be invoked is to be run, in the world of that moment
(`Interpreter.Performs`).
-/

namespace EffectMachine

variable {S : Signature}

theorem World.scope_closed {w : World S} {s : ScopeId} (h : w.phase s = .closed) :
    (w.scope s).closed = true := by
  cases hc : (w.scope s).closed with
  | true => rfl
  | false => cases h.symm.trans (phase_of_closed_eq_false hc)

namespace Running

variable {p : Program S} {deep : Bool} {w₀ w : World S} {O : List ScopeId} {u : List (Event S)}
  {s : ScopeId}

/-- A scope that has been opened has not begun to close or has lived its life. -/
theorem lifetime (h : Running p deep w₀ O u w) (hs : Opens deep s u) (hO : s ∉ O) :
    Lifetime deep s u ∧ (w.scope s).closed = true := by
  have hspans := (h.nested.spans hs).resolve_left hO
  obtain ⟨hlife, hclosed⟩ := hspans.lifetime (h.course.lives s)
  exact ⟨hlife, World.scope_closed hclosed⟩

theorem not_closing (h : Running p deep w₀ O u w) (hO : s ∈ O) : .closing s ∉ u := by
  obtain ⟨fs, hfs⟩ := h.live s hO
  have hlives := h.course.lives s
  rw [hfs] at hlives
  exact hlives.not_closing

theorem no_invocations (h : Running p deep w₀ O u w) (hs : .opened s ∉ u) :
    invocations s u = [] := by
  refine (h.course.lives s).no_invocations (w₀.phase_ne_closing s) fun hclosing ↦ ?_
  exact hs ((h.course.closings s hclosing).resolve_right List.not_mem_nil)

/-- What happened in a run is determined by the history. -/
theorem unique {deep' : Bool} {O' : List ScopeId} {u' : List (Event S)}
    (h : Running p deep w₀ O u w) (h' : Running p deep' w₀ O' u' w) : u' = u := by
  have heq := h'.history.symm.trans h.history
  exact List.reverse_inj.1 (List.append_cancel_right heq)

end Running

namespace Interpreter

variable {it : Interpreter S} {close : Closer S}

/-- A scope leaves the stack only when the outcome of what ran in it has come down to it. -/
theorem move_leaves {st st' : State S} {w w' : World S} (hr : it.registry = .standard)
    (hσ : it.strategy.Quiet it.program) (hst : st.Sound it.program.Quiet)
    (heq : it.move close st w = (.ok st', w')) {s : ScopeId} (hs : s ∈ openScopes st.stack)
    (hs' : s ∉ openScopes st'.stack) :
    ∃ parent rest o, st.stack = .closeScope s parent :: rest ∧ st.control = .ofOutcome o := by
  have D := Discipline.quiet (h := it.host close) hσ (Program.hereditary_quiet _)
  cases move_cases D hr hst heq nofun with
  | inside _ _ hok _ =>
    rw [(hok st' rfl).scopes] at hs'
    exact absurd hs hs'
  | registered _ hfollows =>
    rw [hfollows.scopes] at hs'
    exact absurd hs hs'
  | entered _ _ _ _ _ hregions =>
    rw [openScopes, hregions] at hs'
    exact absurd (List.mem_cons_of_mem _ hs) hs'
  | @left s₁ parent rest o _ y _ hstack hc _ hy _ =>
    rw [hstack] at hs
    rcases List.mem_cons.1 hs with rfl | hs
    · exact ⟨parent, rest, o, hstack, hc⟩
    · rcases y with e | r <;> cases hy
      exact absurd hs hs'

/-- What a run did about scopes and finalizers, where `t` is what happened in it. -/
structure RunsFinalizers (it : Interpreter S) (fuel : Nat) (node : Node S) (context : Context)
    (b : BudgetId) (w w' : World S) (t : List (Event S)) : Prop where
  history : w'.history = t.reverse ++ w.history
  /-- Every finalizer that was invoked was run. -/
  performed : it.Performs w w'
  /-- A scope of the run, its root or one of a region, has lived its life. -/
  own : ∀ s, Opens false s t → Lifetime false s t ∧ (w'.scope s).closed = true
  /-- So has every scope opened inside its finalizers, as long as the strategy does not panic. -/
  inner : it.strategy.Steady → ∀ s, Opens true s t → Lifetime true s t ∧ (w'.scope s).closed = true
  /-- No finalizer of any other scope has been invoked. -/
  others : ∀ s, .opened s ∉ t → invocations s t = []
  /-- At every moment the scopes of the run that are not on the stack have lived their lives, and
  those that are have not begun to close. -/
  moments : ∀ st₁ w₁,
    it.Moves (it.closeScope fuel) b (.start node context w.enterScope.1 b) w.enterScope.2 st₁ w₁ →
      ∃ u, w₁.history = u.reverse ++ w.history ∧
        ∀ s, Opens false s u →
          if s ∈ openScopes st₁.stack ++ [w.enterScope.1] then .closing s ∉ u
          else Lifetime false s u
  /-- A region is left only when its body has settled. -/
  leaving : ∀ st₁ w₁ st₂ w₂ s,
    it.Moves (it.closeScope fuel) b (.start node context w.enterScope.1 b) w.enterScope.2 st₁ w₁ →
      it.move (it.closeScope fuel) st₁ w₁ = (.ok st₂, w₂) →
        s ∈ openScopes st₁.stack → s ∉ openScopes st₂.stack →
          ∃ parent rest o, st₁.stack = .closeScope s parent :: rest ∧ st₁.control = .ofOutcome o

/-- **Finalizers run exactly once and in nested order.** Every run that ends, however it ends, has
closed all scopes that it opened, and each of them has invoked the finalizers that it accepted. -/
theorem interpretOn_runs_finalizers {fuel : Nat} {node : Node S} {context : Context} {b : BudgetId}
    {w w' : World S} {o : Outcome S.Error Value} (hr : it.registry = .standard)
    (hσ : it.strategy.Quiet it.program) (htidy : it.program.Tidy) (hnode : it.program.Quiet node)
    (hrun : it.interpretOn fuel node context b w = (.ok o, w')) :
    ∃ t, it.RunsFinalizers fuel node context b w w' t := by
  have hcloses : ∀ deep, (deep = true → it.strategy.Steady) →
      Closes it.program deep (it.closeScope fuel) :=
    fun deep hsteady ↦ closeScope_closes hr hσ htidy hsteady fuel
  have hended : ∀ deep, (deep = true → it.strategy.Steady) →
      ∃ u, Running it.program deep w [] u w' := by
    intro deep hsteady
    rcases interpretWith_reached hr hσ (hcloses deep hsteady) hnode context hrun nofun with
      ⟨_, _, -, u, hu, -⟩ | ⟨_, _, _, ⟨⟩, -⟩
    exact ⟨u, hu⟩
  have hmoment : ∀ {st₁ w₁}, it.Moves (it.closeScope fuel) b
      (.start node context w.enterScope.1 b) w.enterScope.2 st₁ w₁ →
        st₁.Sound it.program.Quiet ∧ ∃ causes, Reached it.program false w
          (openScopes st₁.stack ++ [w.enterScope.1]) causes w₁ := by
    intro st₁ w₁ hmoves
    have hstart : (State.start node context w.enterScope.1 b).Sound it.program.Quiet := by
      refine ⟨?_, nofun⟩
      rintro _ ⟨⟩
      exact hnode
    exact hmoves.reached hr hσ (hcloses false nofun) hstart (Reached.refl w).enter
  obtain ⟨t, ht⟩ := hended false nofun
  refine ⟨t, ht.history, interpretOn_performs hr hrun,
    fun s hs ↦ ht.lifetime hs List.not_mem_nil, fun hsteady s hs ↦ ?_,
    fun s hs ↦ ht.no_invocations hs, fun st₁ w₁ hmoves ↦ ?_, fun st₁ w₁ st₂ w₂ s hmoves hm ↦ ?_⟩
  · obtain ⟨u, hu⟩ := hended true fun _ ↦ hsteady
    obtain rfl := ht.unique hu
    exact hu.lifetime hs List.not_mem_nil
  · obtain ⟨-, causes, u, hu, -⟩ := hmoment hmoves
    refine ⟨u, hu.history, fun s hs ↦ ?_⟩
    split
    · exact hu.not_closing ‹_›
    · exact (hu.lifetime hs ‹_›).1
  · exact move_leaves hr hσ (hmoment hmoves).1 hm

/-- An interpreter that allows four steps. -/
def hastyTally : Interpreter Tally where
  program := tally
  config := { stepLimit := some 4 }

/-- The step limit is exceeded in the region, when both its finalizers wait. -/
theorem failingRegion_runs_finalizers :
    ∃ o w' t, hastyTally.interpretOn 9 failingRegion .empty ⟨0⟩ tallyWorld = (.ok o, w') ∧
      hastyTally.RunsFinalizers 9 failingRegion .empty ⟨0⟩ tallyWorld w' t ∧
      (invocations ⟨1⟩ t).length = 2 := by
  have hcount : (match hastyTally.interpretOn 9 failingRegion .empty ⟨0⟩ tallyWorld with
      | (.ok _, w') => (invocations ⟨1⟩ w'.history.reverse).length
      | (.error _, _) => 0) = 2 := by decide +kernel
  generalize hrun : hastyTally.interpretOn 9 failingRegion .empty ⟨0⟩ tallyWorld = x at hcount
  rcases x with ⟨e | o, w'⟩
  · cases hcount
  · have hr : hastyTally.registry = .standard := rfl
    obtain ⟨t, ht⟩ := interpretOn_runs_finalizers hr (Strategy.quiet_sync _) tidy_tally
      quiet_failingRegion hrun
    have hhistory : t = w'.history.reverse := by simp [ht.history, tallyWorld]
    refine ⟨o, w', t, rfl, ht, ?_⟩
    rw [hhistory]
    exact hcount

end Interpreter

end EffectMachine
