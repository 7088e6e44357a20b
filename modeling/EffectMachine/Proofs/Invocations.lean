import EffectMachine.Proofs.Lifetimes
import EffectMachine.Proofs.Persistence

/-!
# Invocations are runs of finalizers

The history tells which finalizers scopes have invoked. Here each of these events is tied to what it
stands for: `Interpreter.Ran` says that a scope closed, that it ran what waited on it one after the
other (`Host.Runs`), and that with this event began the run of the finalizer, in the world that the
finalizers before it had left. The run ends in what the history reports.

**Nothing else makes such an event.** From the beginning to the end of every run, and of everything
a run consists of, each invocation that has been added is a run of its finalizer
(`Interpreter.Performs`). That this holds along closings is proved by induction on the fuel; all
other changes of the world leave invocations alone, so that it is a lasting relation.
-/

namespace EffectMachine

variable {S : Signature}

open Machine (Along)

/-- How a finalizer that returns or panics is reported. -/
inductive Reported {ε : Type} : Except Escape (Outcome ε Unit) → Outcome ε Unit → Prop where
  | returned (o : Outcome ε Unit) : Reported (.ok o) o
  | panicked (p : Panic) : Reported (.error (.panic p)) (.error (.defect (.panic p.text)))

/-- The causes with which finalizers failed, in the order in which they ran. -/
def failuresOf (es : List (Finalizer S × Outcome S.Error Unit)) : List (Cause S.Error) :=
  es.filterMap fun e ↦ match e.2 with
    | .ok () => none
    | .error cause => some cause

/-- Running finalizers one after the other, with these outcomes. Each of them runs in the world that
the one before it has left, between the record that it is invoked and the record that it has
ended. -/
inductive Host.Runs (h : Host S) (release : Releaser S) (s : ScopeId) :
    World S → List (Finalizer S × Outcome S.Error Unit) → World S → Prop where
  | nil (w : World S) : h.Runs release s w [] w
  | cons {w w₁ w' : World S} {f : Finalizer S} {y : Except Escape (Outcome S.Error Unit)}
      {o : Outcome S.Error Unit} {es : List (Finalizer S × Outcome S.Error Unit)}
      (hrun : h.finalize release f (w.record (.invoked s f)) = (y, w₁)) (ho : Reported y o)
      (hrest : h.Runs release s (w₁.record (.ended s f o)) es w') :
      h.Runs release s w ((f, o) :: es) w'

namespace Host

variable {h : Host S} {release : Releaser S} {s : ScopeId} {f : Finalizer S} {w w₁ w' : World S}

theorem Runs.append {es es' : List (Finalizer S × Outcome S.Error Unit)}
    (hes : h.Runs release s w es w₁) (hes' : h.Runs release s w₁ es' w') :
    h.Runs release s w (es ++ es') w' := by
  induction hes with
  | nil => exact hes'
  | cons hrun ho _ ih => exact .cons hrun ho (ih hes')

/-- An invocation ends if the finalizer does. -/
theorem invoke_cases {y : Except Escape (Outcome S.Error Unit)}
    (hrun : h.finalize release f (w.record (.invoked s f)) = (y, w₁)) :
    y = .error .exhausted ∧ h.invoke release s f w = (.error .exhausted, w₁) ∨
      ∃ o, Reported y o ∧ h.invoke release s f w = (.ok o, w₁.record (.ended s f o)) := by
  have hguard : (h.finalize release f).guard (w.record (.invoked s f)) =
      (Machine.guarded y, w₁) := by
    rw [Machine.guard_apply, hrun]
  rw [invoke, Machine.bind_ok (Machine.modify_apply _ w)]
  rcases y with (p | _) | o
  · exact .inr ⟨_, .panicked p, by rw [Machine.bind_ok hguard]; rfl⟩
  · exact .inl ⟨rfl, Machine.bind_error hguard _⟩
  · exact .inr ⟨_, .returned o, by rw [Machine.bind_ok hguard]; rfl⟩

/-- Invoking finalizers is running them, and reports those that fail. -/
theorem invokeAll_runs {fs : List (Finalizer S)} {x : Except Escape (List (Cause S.Error))}
    (heq : h.invokeAll release s fs w = (x, w')) (hx : x ≠ .error .exhausted) :
    ∃ es, h.Runs release s w es w' ∧ es.map Prod.fst = fs ∧ x = .ok (failuresOf es) := by
  induction fs generalizing w x with
  | nil =>
    cases heq
    exact ⟨[], .nil _, rfl, rfl⟩
  | cons f fs ih =>
    rw [invokeAll_cons] at heq
    rcases hrun : h.finalize release f (w.record (.invoked s f)) with ⟨y, w₁⟩
    rcases invoke_cases hrun with ⟨-, hinvoke⟩ | ⟨o, ho, hinvoke⟩
    · rw [Machine.bind_error hinvoke] at heq
      cases heq
      exact absurd rfl hx
    · rw [Machine.bind_ok hinvoke] at heq
      rcases Machine.bind_eq heq with ⟨causes, w₂, hrest, heq⟩ | ⟨e, he, rfl⟩
      · cases heq
        obtain ⟨es, hes, hfs, ⟨⟩⟩ := ih hrest nofun
        refine ⟨(f, o) :: es, .cons hrun ho hes, congrArg (f :: ·) hfs, ?_⟩
        rcases o with cause | ⟨⟩ <;> rfl
      · obtain ⟨es, -, -, he⟩ := ih he (Escape.ne_exhausted hx)
        cases he

end Host

namespace Interpreter

variable {it : Interpreter S} {s : ScopeId} {f : Finalizer S} {w w' w'' : World S}

/-- **The invocation of a finalizer, after which history, was a run of it.** A scope closed and ran
what waited on it. When the history was `before` it was the turn of the finalizer. -/
inductive Ran (it : Interpreter S) (s : ScopeId) (f : Finalizer S)
    (before after : List (Event S)) : Prop where
  | intro {depth : Nat} {w w₁ w₂ w' : World S} {y : Except Escape (Outcome S.Error Unit)}
      {o : Outcome S.Error Unit} {earlier later : List (Finalizer S × Outcome S.Error Unit)}
      (hwaiting : (earlier ++ (f, o) :: later).map Prod.fst = (w.scope s).finalizers)
      (hearlier : (it.host (it.closeScope depth)).Runs
        (it.interpretWith (it.closeScope depth) depth) s (w.shutScope s) earlier w₁)
      (hbefore : w₁.history = before)
      (hrun : (it.host (it.closeScope depth)).finalize
        (it.interpretWith (it.closeScope depth) depth) f (w₁.record (.invoked s f)) = (y, w₂))
      (ho : Reported y o)
      (hlater : (it.host (it.closeScope depth)).Runs
        (it.interpretWith (it.closeScope depth) depth) s (w₂.record (.ended s f o)) later w')
      (hclose : it.closeScope (depth + 1) s w =
        (.ok (.ofFailures (failuresOf (earlier ++ (f, o) :: later))), w'.record (.closed s)))
      (hafter : (w'.record (.closed s)).history <:+ after)

theorem Ran.mono {before after after' : List (Event S)} (h : it.Ran s f before after)
    (hafter : after <:+ after') : it.Ran s f before after' := by
  obtain ⟨hwaiting, hearlier, hbefore, hrun, ho, hlater, hclose, h⟩ := h
  exact ⟨hwaiting, hearlier, hbefore, hrun, ho, hlater, hclose, h.trans hafter⟩

/-- The later world has the history of the earlier one, and the invocations that have been added to
it were runs of finalizers. -/
structure Performs (it : Interpreter S) (w w' : World S) : Prop where
  history : w.history <:+ w'.history
  invoked : ∀ s f before, .invoked s f :: before <:+ w'.history → w.history <:+ before →
    it.Ran s f before w'.history

namespace Performs

/-- What is not longer than a history does not begin with an event after it. -/
theorem not_suffix {e : Event S} {before after : List (Event S)} (h : after <:+ before) :
    ¬e :: before <:+ after := fun h' ↦
  Nat.not_succ_le_self _ (Nat.le_trans h'.length_le h.length_le)

theorem of_history (h : w'.history = w.history) : it.Performs w w' where
  history := h ▸ List.suffix_rfl
  invoked s f before hin hsince := by
    rw [h] at hin
    exact absurd hin (not_suffix hsince)

/-- An event that is no invocation. -/
theorem of_event {e : Event S} (h : w'.history = e :: w.history) (he : ∀ s f, e ≠ .invoked s f) :
    it.Performs w w' where
  history := by
    rw [h]
    exact List.suffix_cons e _
  invoked s f before hin hsince := by
    rw [h] at hin
    rcases List.suffix_cons_iff.1 hin with heq | hin
    · exact absurd (List.cons.inj heq).1.symm (he s f)
    · exact absurd hin (not_suffix hsince)

theorem trans (h : it.Performs w w') (h' : it.Performs w' w'') : it.Performs w w'' where
  history := h.history.trans h'.history
  invoked s f before hin hsince := by
    rcases List.suffix_or_suffix_of_suffix hin h'.history with hfirst | hsecond
    · exact (h.invoked s f before hfirst hsince).mono h'.history
    · rcases List.suffix_cons_iff.1 hsecond with heq | hsecond
      · exact (h.invoked s f before (heq ▸ List.suffix_rfl) hsince).mono h'.history
      · exact h'.invoked s f before hin hsecond

theorem addFinalizer (w : World S) (s : ScopeId) (f : Finalizer S) :
    it.Performs w (w.addFinalizer s f).2 := by
  unfold World.addFinalizer
  split
  · exact of_event rfl nofun
  · exact of_event rfl nofun

/-- All changes of the world but invocations leave them alone. -/
theorem lasting : Lasting it.Performs where
  refl _ := of_history rfl
  trans := trans
  state _ _ := of_history rfl
  clock _ _ := of_history rfl
  noise _ _ := of_history rfl
  newSlot _ := of_history rfl
  settle _ _ _ := of_history rfl
  take _ _ := of_history rfl
  forks _ _ := of_history rfl
  openScope _ := of_history rfl
  addCleanup w s c := addFinalizer w s (.cleanup c)
  event _ _ he := of_event rfl he
  offer := addFinalizer
  shutScope _ _ := of_event rfl nofun
  tick _ _ := of_history rfl
  abort _ h := ⟨h.history, h.invoked⟩

end Performs

/-! ### Closings -/

section Closing

variable {depth : Nat}
  (hfinalize : ∀ f, Along it.Performs True ((it.host (it.closeScope depth)).finalize
    (it.interpretWith (it.closeScope depth) depth) f) fun _ ↦ True)
include hfinalize

theorem runs_history {es : List (Finalizer S × Outcome S.Error Unit)}
    (h : (it.host (it.closeScope depth)).Runs (it.interpretWith (it.closeScope depth) depth) s w es
      w') : w.history <:+ w'.history := by
  induction h with
  | nil => exact List.suffix_rfl
  | cons hrun ho _ ih =>
    have hperforms := (hfinalize _ hrun (by cases ho <;> nofun)).1
    exact ((List.suffix_cons _ _).trans hperforms.history).trans ((List.suffix_cons _ _).trans ih)

/-- **Whatever was invoked while a scope closed ran.** What is invoked from a turn on is the
finalizer whose turn it is, or was invoked while that one ran, or from the next turn on. -/
theorem ran_of_runs {all earlier rest : List (Finalizer S × Outcome S.Error Unit)} {w₁ : World S}
    (hwaiting : all.map Prod.fst = (w.scope s).finalizers)
    (hclose : it.closeScope (depth + 1) s w =
      (.ok (.ofFailures (failuresOf all)), w'.record (.closed s)))
    (hall : earlier ++ rest = all)
    (hearlier : (it.host (it.closeScope depth)).Runs
      (it.interpretWith (it.closeScope depth) depth) s (w.shutScope s) earlier w₁)
    (hrest : (it.host (it.closeScope depth)).Runs
      (it.interpretWith (it.closeScope depth) depth) s w₁ rest w')
    {s' : ScopeId} {f' : Finalizer S} {before : List (Event S)}
    (hin : .invoked s' f' :: before <:+ w'.history) (hsince : w₁.history <:+ before) :
    it.Ran s' f' before (w'.record (.closed s)).history := by
  induction hrest generalizing earlier with
  | nil w₁ => exact absurd hin (Performs.not_suffix hsince)
  | @cons w₁ w₂ w' f y o rest hrun ho hrest ih =>
    subst hall
    have hended : (w₂.record (.ended s f o)).history <:+ w'.history := runs_history hfinalize hrest
    have hperforms := (hfinalize f hrun (by cases ho <;> nofun)).1
    have hown : .invoked s' f' :: before <:+ .invoked s f :: w₁.history →
        it.Ran s' f' before (w'.record (.closed s)).history := by
      intro hin
      rcases List.suffix_cons_iff.1 hin with heq | hin
      · cases heq
        exact ⟨hwaiting, hearlier, rfl, hrun, ho, hrest, hclose, List.suffix_rfl⟩
      · exact absurd hin (Performs.not_suffix hsince)
    rcases List.suffix_or_suffix_of_suffix hin hended with hin' | hlater
    · -- it was invoked before the finalizer ended
      have hinside : .invoked s' f' :: before <:+ w₂.history :=
        (List.suffix_cons_iff.1 hin').resolve_left nofun
      rcases List.suffix_or_suffix_of_suffix hinside hperforms.history with hin' | hlater
      · exact hown hin'
      · rcases List.suffix_cons_iff.1 hlater with heq | hlater
        · exact hown (heq ▸ List.suffix_rfl)
        · exact (hperforms.invoked s' f' before hinside hlater).mono
            (((List.suffix_cons _ _).trans hended).trans (List.suffix_cons _ _))
    · have hlater := (List.suffix_cons_iff.1 hlater).resolve_left nofun
      exact ih hclose (List.append_assoc ..) (hearlier.append (.cons hrun ho (.nil _))) hin hlater

/-- Closing a scope. -/
theorem closeScope_performs_succ (s : ScopeId) :
    Along it.Performs False (it.closeScope (depth + 1) s) fun _ ↦ True := by
  intro w x w'' heq hx
  rcases Host.shut_eq (h := it.host (it.closeScope depth)) heq with
    ⟨-, rfl, rfl⟩ | ⟨-, y, w', hinvoke, rfl, hw''⟩
  · exact ⟨.of_history rfl, fun _ _ ↦ trivial, nofun⟩
  · obtain ⟨es, hes, hwaiting, rfl⟩ :=
      Host.invokeAll_runs hinvoke fun hy ↦ hx (by rw [hy]; rfl)
    obtain rfl := hw'' _ rfl
    have hshut : it.Performs w (w.shutScope s) := .of_event rfl nofun
    have hhistory := runs_history hfinalize hes
    refine ⟨⟨hshut.history.trans (hhistory.trans (List.suffix_cons _ _)), ?_⟩, fun _ _ ↦ trivial,
      nofun⟩
    intro s' f' before hin hsince
    have hin : .invoked s' f' :: before <:+ w'.history :=
      (List.suffix_cons_iff.1 hin).resolve_left nofun
    rcases List.suffix_or_suffix_of_suffix hin hhistory with hfirst | hlater
    · exact ((hshut.invoked s' f' before hfirst hsince).mono hhistory).mono (List.suffix_cons _ _)
    · have hlater := (List.suffix_cons_iff.1 hlater).resolve_left nofun
      exact ran_of_runs hfinalize hwaiting heq rfl (.nil _) hes hin hlater

end Closing

/-- **Closing a scope runs what it invokes**, and so do the closings that this leads to. -/
theorem closeScope_performs (hr : it.registry = .standard) (fuel : Nat) (s : ScopeId) :
    Along it.Performs False (it.closeScope fuel s) fun _ ↦ True := by
  induction fuel generalizing s with
  | zero => exact .exhausted
  | succ fuel ih =>
    exact closeScope_performs_succ (Host.finalize_along (h := it.host (it.closeScope fuel))
      Performs.lasting ih (interpretWith_along Performs.lasting hr ih fuel)) s

/-- A run that ends has run every finalizer that was invoked in it. -/
theorem interpretOn_performs (hr : it.registry = .standard) {fuel : Nat} {node : Node S}
    {context : Context} {b : BudgetId} {o : Outcome S.Error Value}
    (hrun : it.interpretOn fuel node context b w = (.ok o, w')) : it.Performs w w' :=
  (interpretWith_along Performs.lasting hr (closeScope_performs hr fuel) fuel node context b hrun
    nofun).1

end Interpreter

end EffectMachine
