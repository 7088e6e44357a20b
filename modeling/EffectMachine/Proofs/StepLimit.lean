import EffectMachine.Proofs.Conduct
import EffectMachine.Proofs.Finalizers

/-!
# Exceeding the step limit

A run that exceeds its step limit aborts. During the abort its budget is exempt from the limit, so
the release effects that wait on the scopes of its stack are interpreted however many steps they
take. The root scope is not on the stack: it closes when the abort is over.

**By then the budget is spent.** No step is ever given back and no abort is in progress any more, so
the first step of whatever counts on the budget exceeds the limit again (`Spent.exceeds`). A release
effect that waits on the root scope is started and fails before it does anything
(`Interpreter.interpretWith_spent`).

All this rests on `Conduct` alone: it holds for any closures and any strategy.
-/

namespace EffectMachine

variable {S : Signature}

/-! ### Spent budgets -/

/-- More steps have been counted than a limit allows, and no abort is in progress. -/
structure Spent (b : BudgetId) (n : Nat) (w : World S) : Prop where
  exceeded : n < (w.budget b).used
  word : (w.budget b).used ≤ wordMax
  idle : (w.budget b).aborting = 0

namespace Spent

variable {b : BudgetId} {n : Nat} {w w' : World S}

/-- A step that exceeds a limit leaves the budget spent. -/
theorem of_exceeds {limit : Option Nat}
    (h : ((w.modifyBudget b Budget.tick).budget b).exceeds limit = some n) :
    Spent b n (w.modifyBudget b Budget.tick) := by
  obtain ⟨-, hover, hidle⟩ := Budget.exceeds_eq_some.1 h
  refine ⟨hover, ?_, hidle⟩
  rcases w.budget_modifyBudget b Budget.tick with hb | ⟨-, hb⟩
  · rw [hb]
    exact Nat.min_le_right _ _
  · rw [hb]
    exact Nat.zero_le _

/-- A spent budget stays spent. -/
theorem ages (h : Spent b n w) (hw : w.Ages b w') : Spent b n w' := by
  obtain ⟨hle, hword⟩ := hw.used h.word
  exact ⟨Nat.lt_of_lt_of_le h.exceeded hle, hword, hw.aborting.trans h.idle⟩

theorem conducts (h : Spent b n w) (hw : Conducts b w w') : Spent b n w' := by
  obtain ⟨u, hu⟩ := hw
  exact h.ages hu.ages

theorem of_budget (h : Spent b n w) (hb : w'.budget b = w.budget b) : Spent b n w' :=
  h.ages (.of_budget hb)

/-- The next step on a spent budget exceeds the limit. -/
theorem exceeds (h : Spent b n w) :
    ((w.modifyBudget b Budget.tick).budget b).exceeds (some n) = some n := by
  have hticked : Spent b n (w.modifyBudget b Budget.tick) := h.conducts ⟨[], .tick w b⟩
  exact Budget.exceeds_eq_some.2 ⟨rfl, hticked.exceeded, hticked.idle⟩

end Spent

namespace Interpreter

variable {it : Interpreter S} {close : Closer S} {b : BudgetId} {n : Nat} {st : State S}
  {w w' : World S}

/-- A loop whose next step exceeds the limit aborts. -/
theorem drive_exceeds {fuel : Nat} {x : Except Escape (Outcome S.Error Value)}
    (hl : ((w.modifyBudget b Budget.tick).budget b).exceeds it.config.stepLimit = some n)
    (heq : it.drive close b fuel st w = (x, w')) (hx : x ≠ .error .exhausted) :
    ∃ y, it.abort close n st ((w.modifyBudget b Budget.tick).record (.exceeded b n)) = (y, w') ∧
      x = y.map .error := by
  cases fuel with
  | zero =>
    cases heq
    exact absurd rfl hx
  | succ fuel =>
    have htick : it.tick b w = (.ok (some n), w.modifyBudget b Budget.tick) := by
      rw [← hl]
      rfl
    have hstep : it.step close b st w = (it.abort close n st >>= fun cause ↦
        pure (Progress.settled (.error cause)))
          ((w.modifyBudget b Budget.tick).record (.exceeded b n)) := by
      rw [step, Machine.bind_ok htick]
      rfl
    rcases habort : it.abort close n st
      ((w.modifyBudget b Budget.tick).record (.exceeded b n)) with ⟨e | cause, w₁⟩
    · rw [Machine.bind_error habort] at hstep
      rw [drive, hstep] at heq
      cases heq
      exact ⟨_, rfl, rfl⟩
    · rw [Machine.bind_ok habort] at hstep
      rw [drive, hstep] at heq
      cases heq
      exact ⟨_, rfl, rfl⟩

/-- Closing a scope on which nothing waits. -/
theorem closeScope_empty {fuel : Nat} {s : ScopeId} (hs : (w.scope s).finalizers = []) :
    (it.closeScope (fuel + 1) s w).1 = .ok (.ok ()) := by
  rcases heq : it.closeScope (fuel + 1) s w with ⟨x, w'⟩
  rcases Host.shut_eq heq with ⟨-, rfl, -⟩ | ⟨-, y, w₁, hy, rfl, -⟩
  · rfl
  · rw [hs] at hy
    cases hy
    rfl

theorem closeScope_idle {fuel : Nat} {s : ScopeId} (hs : (w.scope s).finalizers = [])
    {x : Except Escape (Outcome S.Error Unit)} (heq : it.closeScope fuel s w = (x, w'))
    (hx : x ≠ .error .exhausted) : x = .ok (.ok ()) := by
  cases fuel with
  | zero =>
    cases heq
    exact absurd rfl hx
  | succ fuel =>
    have hempty : (it.closeScope (fuel + 1) s w).1 = .ok (.ok ()) := closeScope_empty hs
    rw [heq] at hempty
    exact hempty

/-- Whatever is interpreted on a spent budget fails at its first step. -/
theorem interpretWith_spent {depth fuel : Nat} {node : Node S} {context : Context}
    (hl : it.config.stepLimit = some n) (h : Spent b n w)
    {x : Except Escape (Outcome S.Error Value)}
    (heq : it.interpretWith (it.closeScope depth) fuel node context b w = (x, w'))
    (hx : x ≠ .error .exhausted) : x = .ok (.error (.defect (.stepLimitExceeded n))) := by
  have hstart : Spent b n w.enterScope.2 := h.of_budget rfl
  have hexceeds : ((w.enterScope.2.modifyBudget b Budget.tick).budget b).exceeds
      it.config.stepLimit = some n := by
    rw [hl]
    exact hstart.exceeds
  rcases Machine.inScope_eq heq with ⟨o, w₁, ho, hclosed⟩ | ⟨e, he, rfl⟩
  · obtain ⟨y, habort, hy⟩ := drive_exceeds hexceeds ho nofun
    cases habort
    cases hy
    -- the abort has nothing to close, and nothing waits on the root scope
    have hroot : ∀ {w₁ : World S}, w₁.scopes = w.enterScope.2.scopes →
        (w₁.scope w.enterScope.1).finalizers = [] := by
      intro w₁ hw₁
      rw [World.scope_congr hw₁]
      exact congrArg Scope.finalizers w.scope_openScope_self
    rcases hclosed with ⟨r, hr, rfl⟩ | ⟨e, he, rfl⟩
    · cases closeScope_idle (hroot (by rfl)) hr nofun
      rfl
    · cases closeScope_idle (hroot (by rfl)) he (Escape.ne_exhausted hx)
  · obtain ⟨y, habort, hy⟩ := drive_exceeds hexceeds he (Escape.ne_exhausted hx)
    cases habort
    cases hy

/-! ### Releases on a spent budget -/

/-- The outcome of a release effect that failed at its first step, or whose building failed. -/
def CutShort (it : Interpreter S) (close : Closer S) (n : Nat) (build : Action S (Plan S)) :
    Outcome S.Error Unit → Prop :=
  fun o ↦ o = .error (.defect (.stepLimitExceeded n)) ∨
    ∃ d w w', (it.host close).build build w = (.ok (.error d), w') ∧ o = .error (.defect d)

theorem invoke_spent {fuel : Nat} {s : ScopeId} {build : Action S (Plan S)} {context : Context}
    {o : Outcome S.Error Unit} (hl : it.config.stepLimit = some n)
    (hclose : Shuts b (it.closeScope fuel)) (h : Spent b n w)
    (heq : (it.host (it.closeScope fuel)).invoke (it.interpretWith (it.closeScope fuel) fuel) s
      (.release build context b) w = (.ok o, w')) : it.CutShort (it.closeScope fuel) n build o := by
  obtain ⟨y, w₁, _, hy, hne, ho, ⟨⟩, rfl⟩ := Host.invoke_eq heq nofun
  have hbuilding := Discipline.any (h := it.host (it.closeScope fuel)) (Conducts.drift b)
    hclose.along Conducts.takeOutcome
  have hbuild := (Machine.Along.build (E := False)
    (hbuilding.obeys (.finalizer build) trivial))
  rcases Machine.bind_eq hy with ⟨z, w₂, hz, hy⟩ | ⟨e, he, rfl⟩
  · obtain ⟨hconducts, -⟩ := hbuild hz nofun
    have hspent : Spent b n w₂ := (h.of_budget rfl : Spent b n (w.record _)).conducts hconducts
    cases z with
    | error d =>
      cases hy
      exact .inr ⟨d, _, _, hz, ho _ rfl⟩
    | ok node =>
      rcases Machine.bind_eq hy with ⟨z, w₃, hz, hy⟩ | ⟨e, he, rfl⟩
      · cases interpretWith_spent hl hspent hz nofun
        cases hy
        exact .inl (ho _ rfl)
      · cases interpretWith_spent hl hspent he (Escape.ne_exhausted hne)
  · obtain ⟨-, -, hpanic⟩ := hbuild he (Escape.ne_exhausted hne)
    rcases e with p | _
    · exact (hpanic p rfl).elim
    · exact absurd rfl hne

/-! ### Runs that exceed their limit -/

/-- What an interpretation does that exceeds its limit in a state and a world: what happens until
the abort is over, and what happens from there. -/
structure Overrun (it : Interpreter S) (fuel : Nat) (b : BudgetId) (root : ScopeId) (n : Nat)
    (st : State S) (w : World S) (u v : List (Event S)) (w' : World S) : Prop where
  history : w'.history = v.reverse ++ (u.reverse ++ .exceeded b n :: w.history)
  /-- Release effects that wait on a scope of the interpretation count on its budget. -/
  budget : ∀ s ∈ openScopes st.stack ++ [root], ∀ build context b',
    .release build context b' ∈ (w.scope s).finalizers → b' = b
  /-- Finalizers that wait on a scope of the stack are invoked during the abort. -/
  during : ∀ s ∈ openScopes st.stack, ∀ f ∈ (w.scope s).finalizers, .invoked s f ∈ u
  /-- Nothing exceeds a limit on the budget during the abort. -/
  exempt : ∀ m, .exceeded b m ∉ u
  /-- Finalizers that wait on the root scope are invoked in the end. -/
  after : ∀ f ∈ (w.scope root).finalizers, .invoked root f ∈ u ∨ .invoked root f ∈ outer 0 v
  /-- Release effects that the root scope invokes after the abort do nothing. -/
  late : ∀ build context o, .ended root (.release build context b) o ∈ outer 0 v →
    it.CutShort (it.closeScope fuel) n build o

section

variable (hr : it.registry = .standard)
include hr

/-- A run counts on one budget. -/
theorem Moves.budget {b' : BudgetId} {st' : State S} (hclose : Shuts b close)
    (h : it.Moves close b' st w st' w') : st'.budget = st.budget := by
  have D := Discipline.any (h := it.host close) (Conducts.drift b) hclose.along Conducts.takeOutcome
  induction h with
  | refl => rfl
  | tick _ ih => exact ih
  | @move st₁ st₂ _ _ _ _ hm ih =>
    refine Eq.trans ?_ ih
    generalize hx : (Except.ok st₂ : Except Escape (State S)) = x at hm
    cases move_cases D hr st₁.sound_any hm (by rw [← hx]; nofun) with
    | inside _ _ hok _ => exact (hok _ hx.symm).budget
    | registered _ hst' =>
      cases hx
      exact hst'.budget
    | entered _ _ _ hbudget =>
      cases hx
      exact hbudget
    | @left _ _ _ _ _ y _ _ _ _ hmap =>
      rw [hmap] at hx
      rcases y with e | r <;> cases hx
      rfl

omit hr in
/-- An abort invokes what waits on the scopes of the stack, exempt from the limit. -/
theorem abort_exempt (hclose : Shuts b close) (h : Spent b n w) (hbudget : st.budget = b)
    (hborn : ∀ s ∈ openScopes st.stack, s.index < w.scopes.size)
    (hidle : ∀ s ∈ openScopes st.stack, (w.scope s).closed = true → (w.scope s).finalizers = [])
    {x : Except Escape (Cause S.Error)} (heq : it.abort close n st w = (x, w'))
    (hx : x ≠ .error .exhausted) :
    ∃ u cause, x = .ok cause ∧ Conduct b w u w' ∧ (∀ m, .exceeded b m ∉ u) ∧
      ∀ s ∈ openScopes st.stack, ∀ f ∈ (w.scope s).finalizers, .invoked s f ∈ u := by
  subst hbudget
  obtain ⟨u, cause, w₁, rfl, hu, rfl, hclosed⟩ := abort_conduct hclose heq hx
  have hbegun : 0 < ((w.modifyBudget st.budget Budget.beginAbort).budget st.budget).aborting := by
    rcases w.budget_modifyBudget st.budget Budget.beginAbort with hb | ⟨hb, -⟩
    · rw [hb]
      exact Nat.succ_pos _
    · have hover := h.exceeded
      rw [hb] at hover
      cases hover
  have haborted : Conduct st.budget w u (w₁.modifyBudget st.budget Budget.endAbort) := hu.aborted
  refine ⟨u, cause, rfl, haborted, hu.exempt hbegun, fun s hs f hf ↦ ?_⟩
  refine (haborted.tended.waiting s f hf).resolve_left fun hwaits ↦ ?_
  rw [haborted.tended.emptied s (hidle s hs) (hclosed s hs (hborn s hs))] at hwaits
  cases hwaits

/-- The root scope closes after an abort. -/
theorem closeScope_late {fuel : Nat} {s : ScopeId} (hl : it.config.stepLimit = some n)
    (h : Spent b n w) {x : Except Escape (Outcome S.Error Unit)}
    (hidle : (w.scope s).closed = true → (w.scope s).finalizers = [])
    (heq : it.closeScope (fuel + 1) s w = (x, w')) (hx : x ≠ .error .exhausted) :
    ∃ v, w'.history = v.reverse ++ w.history ∧
      (∀ f ∈ (w.scope s).finalizers, .invoked s f ∈ outer 0 v) ∧
        ∀ build context o, .ended s (.release build context b) o ∈ outer 0 v →
          it.CutShort (it.closeScope fuel) n build o := by
  have hclose : Shuts b (it.closeScope fuel) := closeScope_shuts hr b fuel
  have hrelease := interpretWith_conducts (b := b) hr hclose fuel
  rcases Host.shut_conduct (h := it.host (it.closeScope fuel)) hclose hrelease heq hx with
    ⟨hclosed, -, rfl⟩ | ⟨u, r, -, hu, hbalanced, hinvoked, -⟩
  · rw [hidle hclosed]
    exact ⟨[], rfl, nofun, nofun⟩
  · have houter : outer 0 (.closing s :: (u ++ [.closed s])) =
        .closing s :: (outer 0 u ++ [.closed s]) := by
      simp [outer, Event.depth, hbalanced.outer_append]
    refine ⟨_, hu.history, fun f hf ↦ ?_, fun build context o ho ↦ ?_⟩
    · rw [← hinvoked.invocations] at hf
      rw [houter]
      simp [mem_invocations hf]
    · have ho : .ended s (.release build context b) o ∈ outer 0 u := by simpa [houter] using ho
      obtain ⟨w₁, w₂, hw₁, hinvoke⟩ := hinvoked.ended _ _ ho
      have hshut : Spent b n (w.shutScope s) := h.of_budget rfl
      exact invoke_spent hl hclose (hshut.conducts hw₁) hinvoke

/-- **A run that exceeds its step limit.** The scopes on its stack close while its budget is exempt
from the limit, its root scope afterwards. -/
theorem interpretOn_overrun {fuel : Nat} {node : Node S} {context : Context} {w₁ : World S}
    {x : Except Escape (Outcome S.Error Value)}
    (harrives : it.Arrives (it.closeScope (fuel + 1)) b (.start node context w.enterScope.1 b)
      w.enterScope.2 st w₁)
    (hl : ((w₁.modifyBudget b Budget.tick).budget b).exceeds it.config.stepLimit = some n)
    (heq : it.interpretOn (fuel + 1) node context b w = (x, w')) (hx : x ≠ .error .exhausted) :
    ∃ u v, it.Overrun fuel b w.enterScope.1 n st w₁ u v w' := by
  have hclose : Shuts b (it.closeScope (fuel + 1)) := closeScope_shuts hr b (fuel + 1)
  have hhoused : Housed b w w.enterScope.1 st w₁ :=
    harrives.moves.housed hr hclose (start_housed b w node context b)
  have hbudget : st.budget = b := harrives.moves.budget hr hclose
  -- an own scope was not there before, so nothing waits on it once it is closed
  have hidle : ∀ s ∈ openScopes st.stack ++ [w.enterScope.1],
      (w₁.scope s).closed = true → (w₁.scope s).finalizers = [] := by
    intro s hs
    obtain ⟨t, ht⟩ := hhoused.conducts
    refine ht.tended.emptied s fun _ ↦ ?_
    rw [w.scope_of_size_le (hhoused.own s hs).fresh]
    rfl
  have hspent : Spent b n ((w₁.modifyBudget b Budget.tick).record (.exceeded b n)) :=
    (Spent.of_exceeds hl).of_budget rfl
  have hrootmem : w.enterScope.1 ∈ openScopes st.stack ++ [w.enterScope.1] :=
    List.mem_append_right _ (List.mem_singleton_self _)
  have hexempt {y w₂} (habort : it.abort (it.closeScope (fuel + 1)) n st
      ((w₁.modifyBudget b Budget.tick).record (.exceeded b n)) = (y, w₂))
    (hy : y ≠ .error .exhausted) :=
    abort_exempt hclose hspent hbudget
      (fun s hs ↦ (hhoused.own s (List.mem_append_left _ hs)).born)
      (fun s hs ↦ hidle s (List.mem_append_left _ hs)) habort hy
  change (it.drive (it.closeScope (fuel + 1)) b (fuel + 1) (.start node context w.enterScope.1 b)
    >>= fun o ↦ it.closeScope (fuel + 1) w.enterScope.1 >>= fun r ↦ pure (o.merge r))
      w.enterScope.2 = _ at heq
  rcases Machine.bind_eq heq with ⟨o, w₂, ho, heq⟩ | ⟨e, he, rfl⟩
  · obtain ⟨left, hleft⟩ := harrives.drive ho nofun
    obtain ⟨y, habort, hy⟩ := drive_exceeds hl hleft nofun
    obtain ⟨u, cause, rfl, hu, hnone, hduring⟩ := hexempt habort (by rintro rfl; cases hy)
    have hspent' : Spent b n w₂ := hspent.conducts ⟨u, hu⟩
    have hroot : ∃ r, it.closeScope (fuel + 1) w.enterScope.1 w₂ = (r, w') ∧
        r ≠ .error .exhausted := by
      rcases Machine.bind_eq heq with ⟨r, w₃, hr, heq⟩ | ⟨e, he, rfl⟩
      · cases heq
        exact ⟨_, hr, nofun⟩
      · exact ⟨_, he, fun he ↦ hx (by rw [Except.error.inj he])⟩
    obtain ⟨r, hr', hne⟩ := hroot
    have hlimit : it.config.stepLimit = some n := (Budget.exceeds_eq_some.1 hl).1
    obtain ⟨v, hv, hafter, hlate⟩ := closeScope_late hr hlimit hspent'
      (hu.tended.emptied _ (hidle _ hrootmem)) hr' hne
    refine ⟨u, v, ⟨by rw [hv, hu.history]; rfl, ?_, hduring, hnone, fun f hf ↦ ?_, hlate⟩⟩
    · rintro s hs build context b' hb'
      rw [← hbudget]
      exact (hhoused.own s hs).releases build context b' hb'
    · exact (hu.tended.waiting _ f hf).symm.imp_right (hafter f)
  · obtain ⟨left, hleft⟩ := harrives.drive he hx
    obtain ⟨y, habort, hy⟩ := drive_exceeds hl hleft hx
    obtain ⟨u, cause, rfl, -⟩ := hexempt habort (by rintro rfl; exact hx hy)
    cases hy

end

/-- A release effect on the root scope that would set the state to nine, and a step after it. -/
def lateRelease : Node Tally :=
  .bind (.finalizer (.done (.node (.pure (.write 9 (.done .unit)))))) fun _ ↦
    .done (.effect (.node .unit))

/-- The run settles in its fifth step, which exceeds the limit. -/
theorem lateRelease_overrun :
    ∃ st w₁ u v w' x, hastyTally.interpretOn 9 lateRelease .empty ⟨0⟩ tallyWorld = (x, w') ∧
      (w₁.scope ⟨0⟩).finalizers.length = 1 ∧ hastyTally.Overrun 8 ⟨0⟩ ⟨0⟩ 4 st w₁ u v w' := by
  have harrives : ∃ st w₁, hastyTally.Arrives (hastyTally.closeScope 9) ⟨0⟩
      (.start lateRelease .empty tallyWorld.enterScope.1 ⟨0⟩) tallyWorld.enterScope.2 st w₁ ∧
        ((w₁.modifyBudget ⟨0⟩ Budget.tick).budget ⟨0⟩).exceeds (some 4) = some 4 ∧
          (w₁.scope ⟨0⟩).finalizers.length = 1 :=
    ⟨_, _, .round rfl (.round rfl (.round rfl (.round rfl (.here _ _)))), rfl, rfl⟩
  obtain ⟨st, w₁, harrives, hl, hwaits⟩ := harrives
  obtain ⟨u, v, h⟩ := interpretOn_overrun rfl harrives hl rfl (by rintro ⟨⟩)
  exact ⟨st, w₁, u, v, _, _, rfl, hwaits, h⟩

/-- The release effect on the root scope fails at its first step, and the state is as before. -/
theorem lateRelease_cutShort :
    ∃ w', hastyTally.interpretOn 9 lateRelease .empty ⟨0⟩ tallyWorld =
        (.ok (.error (.composite [.defect (.stepLimitExceeded 4), .defect (.stepLimitExceeded 4)])),
          w') ∧
      endings ⟨0⟩ w'.history.reverse = [.error (.defect (.stepLimitExceeded 4))] ∧ w'.state = 0 :=
  ⟨_, rfl, rfl, rfl⟩

end Interpreter

end EffectMachine
