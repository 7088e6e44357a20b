import EffectMachine.Proofs.Forward
import EffectMachine.Proofs.Lockstep
import EffectMachine.Proofs.Sessions

/-!
# Running an effect again

A pure effect may be run any number of times, at any time. Two runs of it come to the same outcome
up to the numbers of scopes and forks, sleep for the same durations, move the clock by the same
amount and take the same number of steps, whatever has happened before either of them, provided that
no clock reaches the largest word.

## What the theorem rests on

* **Readings count only as differences.** Frames keep readings of the clock, and look at it again
  when they are taken off the stack: a retry session to tell its schedule how much time has passed,
  a timeout to compare that with its limit (`Pairing.InTime.since`). Everything else is in step
  without looking.
* **Where a clock stops, nothing is said.** The difference of two readings is the same in both runs
  only if neither clock was cut off at the largest word. That a clock which has not stopped in the
  end had not stopped on the way is because time does not run backwards (`Machine.Forward`).
-/

namespace EffectMachine

variable {S : Signature} {α β γ δ : Type}

open Machine (Forward)

namespace Interpreter.Pairing

variable {it : Interpreter S} (P : it.Pairing)

/-- From related worlds the two computations lead to related worlds and answer alike, unless one of
them stops its clock. -/
def InTime (R : α → β → Prop) (m : Machine S α) (m' : Machine S β) : Prop :=
  ∀ ⦃w w' : World S⦄, P.Worlds w w' → (m w).2.clock.nanos < wordMax →
    (m' w').2.clock.nanos < wordMax → Matches Eq R (m w).1 (m' w').1 ∧ P.Worlds (m w).2 (m' w').2

variable {P}

/-- If no clock has stopped, the same time has passed since readings that were taken together. -/
theorem Readings.since {c c' : Clock} (h : P.Readings c.nanos c'.nanos) (hc : c.nanos < wordMax)
    (hc' : c'.nanos < wordMax) {s s' : Nat} (hs : P.Readings s s') : c.since s = c'.since s' := by
  obtain ⟨t, ht, ht'⟩ := h
  obtain ⟨u, rfl, rfl⟩ := hs
  have helapsed : c.nanos - P.left.reading u = c'.nanos - P.right.reading u := by
    simp only [Origin.reading] at *
    omega
  rw [Clock.since, Clock.since, helapsed]

namespace InTime

variable {R : α → β → Prop} {Q : γ → δ → Prop} {m : Machine S α} {m' : Machine S β}
  {f : α → Machine S γ} {f' : β → Machine S δ}

theorem of_inStep (h : P.InStep R m m') : P.InTime R m m' := fun _ _ hw _ _ ↦ h hw

theorem pure {a : α} {b : β} (h : R a b) : P.InTime R (Pure.pure a) (Pure.pure b) :=
  .of_inStep (.pure h)

/-- What follows related answers in related worlds. -/
theorem follow {w w' : World S} (hx : Matches Eq R (m w).1 (m' w').1)
    (hw : P.Worlds (m w).2 (m' w').2) (hff : ∀ a b, R a b → P.InTime Q (f a) (f' b))
    (hlt : ((m >>= f) w).2.clock.nanos < wordMax)
    (hlt' : ((m' >>= f') w').2.clock.nanos < wordMax) :
    Matches Eq Q ((m >>= f) w).1 ((m' >>= f') w').1 ∧
      P.Worlds ((m >>= f) w).2 ((m' >>= f') w').2 := by
  rcases hm : m w with ⟨x, w₁⟩
  rcases hm' : m' w' with ⟨x', w₁'⟩
  rw [hm, hm'] at hx hw
  cases hx with
  | ok hab =>
    rw [Machine.bind_ok hm] at hlt ⊢
    rw [Machine.bind_ok hm'] at hlt' ⊢
    exact hff _ _ hab hw hlt hlt'
  | error he =>
    rw [Machine.bind_error hm, Machine.bind_error hm']
    exact ⟨.error he, hw⟩

/-- What is in step may come first whatever follows. -/
theorem after (h : P.InStep R m m') (hff : ∀ a b, R a b → P.InTime Q (f a) (f' b)) :
    P.InTime Q (m >>= f) (m' >>= f') :=
  fun _ _ hw ↦ follow (h hw).1 (h hw).2 hff

/-- What follows must not turn the clock back: that the clocks have not stopped in the end has to
say that they had not stopped before. -/
theorem bind (h : P.InTime R m m') (hf : ∀ a, (f a).Forward) (hf' : ∀ b, (f' b).Forward)
    (hff : ∀ a b, R a b → P.InTime Q (f a) (f' b)) : P.InTime Q (m >>= f) (m' >>= f') := by
  intro w w' hw hlt hlt'
  obtain ⟨hx, hw₁⟩ := h hw (Forward.lt_of_bind hf hlt) (Forward.lt_of_bind hf' hlt')
  exact follow hx hw₁ hff hlt hlt'

theorem guard (h : P.InTime R m m') : P.InTime (Matches Eq R) m.guard m'.guard := by
  intro w w' hw hlt hlt'
  rw [Machine.guard_apply] at hlt hlt' ⊢
  rw [Machine.guard_apply]
  obtain ⟨hx, hw₁⟩ := h hw hlt hlt'
  exact ⟨InStep.guarded hx, hw₁⟩

/-- Both runs find that the same time has passed, if what they do about it does not turn the clock
back. -/
theorem since {f : Duration → Machine S γ} {f' : Duration → Machine S δ} {s s' : Nat}
    (hs : P.Readings s s') (hf : ∀ d, (f d).Forward) (hf' : ∀ d, (f' d).Forward)
    (hff : ∀ d, P.InTime Q (f d) (f' d)) :
    P.InTime Q (.gets (fun w ↦ w.clock.since s) >>= f)
      (.gets (fun w ↦ w.clock.since s') >>= f') := by
  intro w w' hw hlt hlt'
  have heq : w.clock.since s = w'.clock.since s' :=
    hw.nanos.since ((hf _ w).lt_of_lt hlt) ((hf' _ w').lt_of_lt hlt') hs
  have happly : (Machine.gets (fun w ↦ w.clock.since s') >>= f') w' = f' (w.clock.since s) w' := by
    rw [heq]
    rfl
  rw [happly] at hlt' ⊢
  exact hff _ hw hlt hlt'

end InTime

/-! ### Frames -/

/-- Closing a scope that both runs have opened is in time. -/
def Closes (P : it.Pairing) (close : Closer S) : Prop :=
  ∀ s s', P.Ids s s' → P.InTime Outcome.Like (close s) (close s')

/-- What becomes of a retry session is the same in both runs. -/
inductive Verdicts (P : it.Pairing) : RetryVerdict S → RetryVerdict S → Prop where
  | giveUp {c c'} (h : c.Like c') : Verdicts P (.giveUp c) (.giveUp c')
  | again {r r'} (h : P.Sessions r r') : Verdicts P (.again r) (.again r')

/-- What becomes of a failure at a frame is the same in both runs. -/
inductive Falls (P : it.Pairing) : Fall S → Fall S → Prop where
  | on {c c' st st'} (h : c.Like c') (hst : P.States st st') : Falls P (.on c st) (.on c' st')
  | caught {st st'} (hst : P.States st st') : Falls P (.caught st) (.caught st')

section

variable {close : Closer S}

/-- What the schedule says to the same error after the same time is the same. -/
theorem judge_inStep {r r' : RetrySession S} (hr : P.Sessions r r') (e : S.Error)
    (elapsed : Duration) :
    P.InStep P.Verdicts ((it.host close).judge r e elapsed)
      ((it.host close).judge r' e elapsed) := by
  have hx := hr.decides r.jitter ⟨r.attempt, elapsed, e⟩ hr.stream
  have hanswers := (it.host close).perform_answers
    (r.schedule.decideFrom r.jitter ⟨r.attempt, elapsed, e⟩)
  rw [Host.judge, Host.judge, ← hr.jitter, ← hr.attempt]
  refine .bind ((perform_inStep hx).answers hanswers).guard fun x x' hx ↦ ?_
  cases hx with
  | error hd =>
    obtain rfl := hd
    exact .pure (.giveUp (.refl _))
  | @ok x _ h =>
    obtain ⟨rfl, hyields⟩ := h
    obtain ⟨_ | delay, jitter⟩ := x
    · exact .pure (.giveUp (.refl _))
    · have hstream := (Schedule.sameStream_of_yields hyields).trans hr.stream
      exact .bind (sleep_inStep delay) fun _ _ _ ↦ .pure (.again
        ⟨hr.source, hr.decides, hstream, rfl, rfl, hr.startedAt⟩)

variable (hforward : ∀ s, (close s).Forward) (hclose : P.Closes close)

include hclose in
theorem resume_inTime {f f' : Frame S} (hf : P.Frames f f') (v : Value) {st st' : State S}
    (hst : P.States st st') :
    P.InTime P.States ((it.host close).resume f v st) ((it.host close).resume f' v st') := by
  cases hf with
  | resume h =>
    refine .of_inStep (.bind (attempt_inStep (h v)) fun x x' hx ↦ ?_)
    cases hx with
    | ok hc => exact .pure (hst.holding hc)
    | error hd =>
      subst hd
      exact .pure (hst.die _)
  | recover | retry | race => exact .pure (hst.succeed v)
  | parallel hrest hc => exact .of_inStep (nextParallel_inStep hc hrest _ hst)
  | restoreContext context => exact .pure ((hst.withContext context).succeed v)
  | closeScope hs hp =>
    refine .bind (hclose _ _ hs) (fun r ↦ ?_) (fun r ↦ ?_) fun r r' hr ↦ ?_
    · rcases r with failures | ⟨⟩ <;> exact .pure _
    · rcases r with failures | ⟨⟩ <;> exact .pure _
    · cases hr with
      | ok => exact .pure ((hst.withScope hp).succeed v)
      | error h => exact .pure ((hst.withScope hp).fail h)
  | timeout limit hs =>
    refine .since hs (fun _ ↦ .pure _) (fun _ ↦ .pure _) fun elapsed ↦ .pure ?_
    split
    · exact hst.fail (.refl _)
    · exact hst.succeed v

include hclose in
theorem closing_inTime {s s' : ScopeId} (hs : P.Ids s s') {c c' : Cause S.Error}
    (hc : c.Like c') :
    P.InTime Cause.Like ((it.host close).closing s c) ((it.host close).closing s' c') := by
  refine .bind (hclose _ _ hs) (fun r ↦ ?_) (fun r ↦ ?_) fun r r' hr ↦ ?_
  · rcases r with failures | ⟨⟩ <;> exact .pure _
  · rcases r with failures | ⟨⟩ <;> exact .pure _
  · cases hr with
    | ok => exact .pure hc
    | error h => exact .pure (hc.combine h)

include hforward in
theorem consult_inTime {r r' : RetrySession S} (hr : P.Sessions r r') {c c' : Cause S.Error}
    (hc : c.Like c') :
    P.InTime P.Verdicts ((it.host close).consult r c) ((it.host close).consult r' c') := by
  cases hfail : c.isFail with
  | false =>
    rw [Host.consult_of_not_fail _ _ hfail, Host.consult_of_not_fail _ _ (hc.isFail ▸ hfail)]
    exact .pure (.giveUp hc)
  | true =>
    obtain ⟨e, rfl⟩ := Cause.exists_of_isFail hfail
    obtain rfl := hc.fail
    rw [Host.consult_fail, Host.consult_fail]
    exact .since hr.startedAt (Host.judge_forward hforward r e) (Host.judge_forward hforward r' e)
      fun elapsed ↦ .of_inStep (judge_inStep hr e elapsed)

include hforward hclose

theorem fall_inTime {f f' : Frame S} (hf : P.Frames f f') {c c' : Cause S.Error} (hc : c.Like c')
    {st st' : State S} (hst : P.States st st') :
    P.InTime P.Falls ((it.host close).fall f c st) ((it.host close).fall f' c' st') := by
  cases hf with
  | resume | timeout | parallel => exact .pure (.on hc hst)
  | restoreContext context => exact .pure (.on hc (hst.withContext context))
  | closeScope hs hp =>
    exact .bind (closing_inTime hclose hs hc) (fun _ ↦ .pure _) (fun _ ↦ .pure _) fun _ _ hc ↦
      .pure (.on hc (hst.withScope hp))
  | race hrest hf =>
    exact .of_inStep (.bind (nextRace_inStep hrest (.cons hc hf) hst) fun _ _ hst ↦
      .pure (.caught hst))
  | recover ha h =>
    refine .of_inStep (.bind (attempt_inStep (ha c c' hc)) fun x x' hx ↦ ?_)
    obtain rfl := hx.eq
    rcases x with d | _ | _
    · exact .pure (.on (hc.combine (.refl _)) hst)
    · exact .pure (.on hc hst)
    · exact .bind (attempt_inStep (h c c' hc)) fun _ _ hx ↦ .pure (.caught (hst.continueBuilt hx))
  | retry hr =>
    refine .bind (consult_inTime hforward hr hc) (fun x ↦ ?_) (fun x ↦ ?_) fun x x' hx ↦ ?_
    · cases x <;> exact .pure _
    · cases x <;> exact .pure _
    · cases hx with
      | giveUp h => exact .pure (.on h hst)
      | again h => exact .pure (.caught ((hst.push (.retry h)).continueWith h.source))

theorem unwind_inTime {stack stack' : List (Frame S)} (hs : List.Forall₂ P.Frames stack stack')
    {c c' : Cause S.Error} (hc : c.Like c') {st st' : State S} (hst : P.States st st') :
    P.InTime (Matches Cause.Like P.States) ((it.host close).unwind stack c st)
      ((it.host close).unwind stack' c' st') := by
  induction hs generalizing c c' st st' with
  | nil => exact .pure (.error hc)
  | cons hf hrest ih =>
    refine .bind (fall_inTime hforward hclose hf hc (hst.withStack hrest)) (fun x ↦ ?_)
      (fun x ↦ ?_) fun x x' hx ↦ ?_
    · cases x with
      | caught st => exact .pure _
      | on cause st => exact Host.unwind_forward hforward _ cause st
    · cases x with
      | caught st => exact .pure _
      | on cause st => exact Host.unwind_forward hforward _ cause st
    · cases hx with
      | caught hst => exact .pure (.ok hst)
      | on hc hst => exact ih hc hst

theorem abort_inTime {stack stack' : List (Frame S)} (hs : List.Forall₂ P.Frames stack stack')
    {c c' : Cause S.Error} (hc : c.Like c') :
    P.InTime Cause.Like ((it.host close).abort stack c) ((it.host close).abort stack' c') := by
  induction hs generalizing c c' with
  | nil => exact .pure hc
  | cons hf hrest ih =>
    cases hf with
    | closeScope hs hp =>
      exact .bind (closing_inTime hclose hs hc) (Host.abort_forward hforward _)
        (Host.abort_forward hforward _) fun _ _ hc ↦ ih hc
    | resume | recover | restoreContext | retry | timeout | parallel | race => exact ih hc

end

/-! ### Scopes that close -/

/-- Interpreting related release effects of the runs is in time. -/
def Releases (P : it.Pairing) (release : Releaser S) : Prop :=
  ∀ n n', P.related n n' → ∀ context, P.InTime Outcome.Like (release n context P.left.budget)
    (release n' context P.right.budget)

section

variable {close : Closer S} (hforward : ∀ s, (close s).Forward) {release : Releaser S}
  (hback : ∀ node context b, (release node context b).Forward) (hrelease : P.Releases release)

include hrelease

theorem invoke_inTime (s s' : ScopeId) {f f' : Finalizer S} (hf : P.Finalizers f f') :
    P.InTime Outcome.Like ((it.host close).invoke release s f)
      ((it.host close).invoke release s' f') := by
  have hfinalize : P.InTime Outcome.Like ((it.host close).finalize release f)
      ((it.host close).finalize release f') := by
    cases hf with
    | @release build build' context h =>
      refine .after (attempt_inStep h) fun x x' hx ↦ ?_
      cases hx with
      | error hd =>
        subst hd
        exact .pure (.error (.refl _))
      | ok hn =>
        refine .bind (hrelease _ _ hn context) (fun _ ↦ .pure _) (fun _ ↦ .pure _) fun o o' ho ↦ ?_
        cases ho with
        | ok => exact .pure (.ok rfl)
        | error h => exact .pure (.error h)
  have hend : ∀ (s : ScopeId) (f : Finalizer S) (x : Except Defect (Outcome S.Error Unit)),
      (Machine.modify (fun w ↦ w.record (.ended s f (Outcome.ofGuarded x))) >>= fun _ ↦
        Pure.pure (Outcome.ofGuarded x) : Machine S (Outcome S.Error Unit)).Forward :=
    fun s f x ↦ .bind (.modify fun _ ↦ .of_clock rfl) fun _ ↦ .pure _
  refine .after (.modify fun _ _ hw ↦ hw.record _ _) fun _ _ _ ↦
    .bind hfinalize.guard (hend s f) (hend s' f') fun x x' hx ↦
    .after (.modify fun _ _ hw ↦ hw.record _ _) fun _ _ _ ↦ .pure ?_
  cases hx with
  | ok h => exact h
  | error hd =>
    subst hd
    exact .error (.refl _)

include hforward hback

theorem invokeAll_inTime (s s' : ScopeId) {fs fs' : List (Finalizer S)}
    (hfs : List.Forall₂ P.Finalizers fs fs') :
    P.InTime (List.Forall₂ Cause.Like) ((it.host close).invokeAll release s fs)
      ((it.host close).invokeAll release s' fs') := by
  induction hfs with
  | nil => exact .pure .nil
  | @cons f f' fs fs' hf hrest ih =>
    have hgo := Host.invokeAll_forward (h := it.host close) hforward hback
    refine .bind (invoke_inTime hrelease s s' hf) (fun o ↦ ?_) (fun o ↦ ?_) fun o o' ho ↦ ?_
    · rcases o with cause | ⟨⟩
      · exact .bind (hgo s fs) fun _ ↦ .pure _
      · exact hgo s fs
    · rcases o with cause | ⟨⟩
      · exact .bind (hgo s' fs') fun _ ↦ .pure _
      · exact hgo s' fs'
    · cases ho with
      | ok => exact ih
      | error h =>
        exact .bind ih (fun _ ↦ .pure _) (fun _ ↦ .pure _) fun _ _ hcs ↦ .pure (.cons h hcs)

theorem shut_inTime {s s' : ScopeId} (hs : P.Ids s s') :
    P.InTime Outcome.Like ((it.host close).shut release s) ((it.host close).shut release s') := by
  refine .after (.gets fun _ _ hw ↦ hw.scope hs) fun scope scope' hscope ↦ ?_
  rw [← hscope.closed]
  cases scope.closed with
  | true => exact .pure (.ok rfl)
  | false =>
    refine .after (.modify fun _ _ hw ↦ hw.shutScope hs) fun _ _ _ ↦
      .bind (invokeAll_inTime hforward hback hrelease s s' hscope.finalizers) (fun failures ↦ ?_)
        (fun failures ↦ ?_) fun failures failures' hf ↦
      .after (.modify fun _ _ hw ↦ hw.record _ _) fun _ _ _ ↦ ?_
    · refine .bind (.modify fun _ ↦ .of_clock rfl) fun _ ↦ ?_
      cases failures <;> exact .pure _
    · refine .bind (.modify fun _ ↦ .of_clock rfl) fun _ ↦ ?_
      cases failures <;> exact .pure _
    · cases hf with
      | nil => exact .pure (.ok rfl)
      | cons h hrest => exact .pure (.error (.composite (.cons h hrest)))

end

/-! ### Runs -/

theorem inScope_inTime {close : Closer S} (hforward : ∀ s, (close s).Forward)
    (hclose : P.Closes close) {body body' : ScopeId → Machine S (Outcome S.Error Value)}
    (hbody : ∀ s s', P.Ids s s' → P.InTime Outcome.Like (body s) (body' s')) :
    P.InTime Outcome.Like (Machine.inScope close body) (Machine.inScope close body') := by
  have hend : ∀ (s : ScopeId) (o : Outcome S.Error Value),
      (close s >>= fun r ↦ Pure.pure (o.merge r)).Forward :=
    fun s o ↦ .bind (hforward s) fun _ ↦ .pure _
  refine .after (.modifyGet fun _ _ hw ↦ hw.enterScope) fun s s' hs ↦
    .bind (hbody s s' hs) (hend s) (hend s') fun o o' ho ↦
    .bind (hclose s s' hs) (fun _ ↦ .pure _) (fun _ ↦ .pure _) fun r r' hr ↦ .pure ?_
  cases hr with
  | ok => exact ho
  | error h =>
    cases ho with
    | ok => exact .error h
    | error hc => exact .error (hc.combine h)

/-- What a round leads to is the same in both runs. -/
inductive Progresses (P : it.Pairing) : Progress S → Progress S → Prop where
  | running {st st'} (h : P.States st st') : Progresses P (.running st) (.running st')
  | settled {o o'} (h : o.Like o') : Progresses P (.settled o) (.settled o')

theorem dispatch_inStep (hr : it.registry = .standard) {close : Closer S} {node node' : Node S}
    (hn : P.related node node') {st st' : State S} (hst : P.States st st') :
    P.InStep P.States (it.dispatch close node st) (it.dispatch close node' st') := by
  have hhandler : P.InStep P.States (it.registry.dispatch (it.host close) node st)
      (it.registry.dispatch (it.host close) node' st') := by
    rw [hr, Registry.dispatch_standard, Registry.dispatch_standard]
    exact standard_inStep (P.mirrors hn) hst
  refine .bind hhandler fun next next' hnext ↦ .pure ?_
  rw [← hnext.control.isPending, ← (P.mirrors hn).tag]
  split
  · exact hnext.die _
  · exact hnext

section

variable (hr : it.registry = .standard) {close : Closer S} (hforward : ∀ s, (close s).Forward)
  (hclose : P.Closes close)
include hr hforward hclose

theorem advance_inTime {st st' : State S} (hst : P.States st st') :
    P.InTime P.Progresses (it.advance close st) (it.advance close st') := by
  obtain ⟨context, stack, scope, control, b⟩ := st
  obtain ⟨context', stack', scope', control', b'⟩ := st'
  have hcontrol : Control.Mirrors P.related control control' := hst.control
  cases hcontrol with
  | effect hn =>
    exact .of_inStep (.bind (dispatch_inStep hr hn hst.awaiting) fun _ _ h ↦ .pure (.running h))
  | value v =>
    cases hst.stack with
    | nil => exact .pure (.settled (.ok rfl))
    | cons hf hrest =>
      exact .bind (resume_inTime hclose hf v (hst.awaiting.withStack hrest)) (fun _ ↦ .pure _)
        (fun _ ↦ .pure _) fun _ _ h ↦ .pure (.running h)
  | failure hc =>
    refine .bind (unwind_inTime hforward hclose hst.stack hc (hst.awaiting.withStack .nil))
      (fun o ↦ ?_) (fun o ↦ ?_) fun o o' ho ↦ ?_
    · cases o <;> exact .pure _
    · cases o <;> exact .pure _
    · cases ho with
      | ok h => exact .pure (.running h)
      | error h => exact .pure (.settled (.error h))
  | pending => exact .pure (.running (hst.die _))

theorem step_inTime {st st' : State S} (hst : P.States st st') :
    P.InTime P.Progresses (it.step close P.left.budget st) (it.step close P.right.budget st') := by
  have htick : P.InStep Eq (it.tick P.left.budget) (it.tick P.right.budget) :=
    .bind (.modify fun _ _ hw ↦ hw.modifyBudget _) fun _ _ _ ↦
      .gets fun _ _ hw ↦ congrArg (Budget.exceeds · _) hw.budget
  refine .after htick fun x x' hx ↦ ?_
  subst hx
  cases x with
  | none => exact advance_inTime hr hforward hclose hst
  | some limit =>
    have hend : ∀ (b : BudgetId) (cause : Cause S.Error),
        (Machine.modify (fun w ↦ w.modifyBudget b Budget.endAbort) >>= fun _ ↦
          Pure.pure cause : Machine S (Cause S.Error)).Forward :=
      fun b cause ↦ .bind (.modify fun _ ↦ .of_clock rfl) fun _ ↦ .pure _
    have habort : P.InTime Cause.Like (it.abort close limit st) (it.abort close limit st') := by
      rw [Interpreter.abort, Interpreter.abort, hst.budget, hst.budget']
      exact .after (.modify fun _ _ hw ↦ hw.modifyBudget _) fun _ _ _ ↦
        .bind (abort_inTime hforward hclose hst.stack (.refl _)) (hend _) (hend _) fun _ _ hc ↦
        .after (.modify fun _ _ hw ↦ hw.modifyBudget _) fun _ _ _ ↦ .pure hc
    exact .after (.modify fun _ _ hw ↦ hw.record _ _) fun _ _ _ ↦
      .bind habort (fun _ ↦ .pure _) (fun _ ↦ .pure _) fun _ _ hc ↦ .pure (.settled (.error hc))

/-- **Rounds of two runs are in time.** -/
theorem rounds_inTime (fuel : Nat) {st st' : State S} (hst : P.States st st') :
    P.InTime Outcome.Like (it.rounds close P.left.budget fuel st)
      (it.rounds close P.right.budget fuel st') := by
  induction fuel generalizing st st' with
  | zero => exact fun _ _ hw _ _ ↦ ⟨.error rfl, hw⟩
  | succ fuel ih =>
    rw [rounds_step, rounds_step]
    refine .bind (step_inTime hr hforward hclose hst) (proceed_forward hr hforward _ fuel)
      (proceed_forward hr hforward _ fuel) fun x x' hx ↦ ?_
    cases hx with
    | running h => exact ih h
    | settled h => exact .pure h

theorem interpretWith_inTime (fuel : Nat) : P.Releases (it.interpretWith close fuel) :=
  fun _ _ hn _ ↦ inScope_inTime hforward hclose fun _ _ hs ↦
    rounds_inTime hr hforward hclose fuel ⟨rfl, .nil, hs, .effect hn, rfl, rfl⟩

end

/-- Closing a scope, with the same fuel in both runs. -/
theorem closeScope_inTime (hr : it.registry = .standard) (fuel : Nat) :
    P.Closes (it.closeScope fuel) := by
  induction fuel with
  | zero => exact fun _ _ _ _ _ hw _ _ ↦ ⟨.error rfl, hw⟩
  | succ fuel ih =>
    intro s s' hs
    have hforward := closeScope_forward hr fuel
    exact shut_inTime hforward (interpretWith_forward hr hforward fuel)
      (interpretWith_inTime hr hforward ih fuel) hs

end Interpreter.Pairing

/-! ### Running again -/

/-- Where a run starts that is about to get its budget. -/
def World.origin (w : World S) : Origin :=
  ⟨w.scopes.size, w.clock.nanos, w.clock.sleeps, (w.newBudget {}).1⟩

namespace Interpreter

/-- Two runs from two worlds. -/
def Purity.pairing {it : Interpreter S} (T : it.Purity) (w w' : World S) : it.Pairing :=
  ⟨T, w.origin, w'.origin⟩

/-- Where the runs start, the worlds are related, whatever has happened in them before. -/
theorem Purity.start_worlds {it : Interpreter S} (T : it.Purity) {w w' : World S}
    (hw : w.clock.nanos < wordMax) (hw' : w'.clock.nanos < wordMax) :
    (T.pairing w w').Worlds (w.newBudget {}).2 (w'.newBudget {}).2 where
  size := ⟨0, rfl, rfl⟩
  scopes i := by
    have hunborn : ∀ w : World S, (w.newBudget {}).2.scope (w.origin.scope i) = .shut :=
      fun w ↦ World.scope_of_size_le _ (Nat.le_add_right _ _)
    show (T.pairing w w').Scopes ((w.newBudget {}).2.scope (w.origin.scope i))
      ((w'.newBudget {}).2.scope (w'.origin.scope i))
    rw [hunborn, hunborn]
    exact ⟨rfl, .nil⟩
  nanos := ⟨0, (Nat.min_eq_left (Nat.le_of_lt hw)).symm, (Nat.min_eq_left (Nat.le_of_lt hw')).symm⟩
  sleeps := ⟨#[], Array.append_empty.symm, Array.append_empty.symm⟩
  born := by simp [pairing, World.origin, World.newBudget]
  born' := by simp [pairing, World.origin, World.newBudget]
  budget := by simp [pairing, World.origin, World.budget, World.newBudget]

/-- What is the same in the end if no clock has stopped. -/
theorem Pairing.Worlds.repeats {it : Interpreter S} {P : it.Pairing} {v v' : World S}
    (h : P.Worlds v v') (hv : v.clock.nanos < wordMax) (hv' : v'.clock.nanos < wordMax) :
    (∃ ds, v.clock.sleeps = P.left.sleeps ++ ds ∧ v'.clock.sleeps = P.right.sleeps ++ ds) ∧
      (∃ t, v.clock.nanos = P.left.nanos + t ∧ v'.clock.nanos = P.right.nanos + t) ∧
      (v.budget P.left.budget).used = (v'.budget P.right.budget).used := by
  obtain ⟨t, ht, ht'⟩ := h.nanos
  refine ⟨h.sleeps, ⟨t, ?_, ?_⟩, congrArg Budget.used h.budget⟩
  · rw [ht, Origin.reading] at hv ⊢
    omega
  · rw [ht', Origin.reading] at hv' ⊢
    omega

/-- **Running a pure effect again repeats it.** In any two worlds, two runs come to the same outcome
up to the numbers of scopes and forks, record the same sleeps, move the clock by the same amount and
count the same number of steps, provided that both clocks stay below the largest word. -/
theorem interpret_repeats {it : Interpreter S} (hr : it.registry = .standard) {node : Node S}
    (hn : it.IsPure node) (fuel : Nat) (context : Context) {w w' v v' : World S}
    {x x' : Except Escape (Outcome S.Error Value)}
    (h : it.interpret fuel node context w = (x, v))
    (h' : it.interpret fuel node context w' = (x', v')) (hv : v.clock.nanos < wordMax)
    (hv' : v'.clock.nanos < wordMax) :
    Matches Eq Outcome.Like x x' ∧
      (∃ ds, v.clock.sleeps = w.clock.sleeps ++ ds ∧ v'.clock.sleeps = w'.clock.sleeps ++ ds) ∧
      (∃ t, v.clock.nanos = w.clock.nanos + t ∧ v'.clock.nanos = w'.clock.nanos + t) ∧
      (v.budget (w.newBudget {}).1).used = (v'.budget (w'.newBudget {}).1).used := by
  obtain ⟨T, hnode⟩ := hn
  have hclose := closeScope_forward hr fuel
  have hforward : (it.interpret fuel node context).Forward :=
    .bind (.modifyGet fun _ ↦ .of_clock rfl) fun b ↦
      interpretWith_forward hr hclose fuel node context b
  have hw := hforward w
  have hw' := hforward w'
  rw [h] at hw
  rw [h'] at hw'
  -- once both runs have got their budgets, they are in time
  let P := T.pairing w w'
  have hrun : it.interpretWith (it.closeScope fuel) fuel node context P.left.budget
      (w.newBudget {}).2 = (x, v) := h
  have hrun' : it.interpretWith (it.closeScope fuel) fuel node context P.right.budget
      (w'.newBudget {}).2 = (x', v') := h'
  have htime := P.interpretWith_inTime hr hclose (Pairing.closeScope_inTime hr fuel) fuel node node
    hnode context (T.start_worlds (hw.lt_of_lt hv) (hw'.lt_of_lt hv'))
  rw [hrun, hrun'] at htime
  obtain ⟨hx, hworlds⟩ := htime hv hv'
  exact ⟨hx, hworlds.repeats hv hv'⟩

/-! ### A run and a later one -/

/-- Five nanoseconds between two attempts. -/
def steadily : Schedule Tally := .ofBackoff (.fixed (.ofNanos 5))

/-- Fails for good after two more attempts. -/
def futile : Node Tally := .retry (.fail (.fail 7)) (steadily.upToRetries 2)

/-- Is settled by its own registration. -/
def prompt : Node Tally := .async fun slot ↦ .settle slot (.ok .unit) fun _ ↦ .done ()

/-- Settled by its own registration, it never draws from the seed. -/
def ready : Node Tally := .retry prompt (steadily.withJitter 0.5 (some 7))

/-- Lives with the failure. -/
def resigned : Node Tally := .recover futile (fun _ ↦ .done true) fun _ ↦ .done (.node ready)

/-- Sleeps for three nanoseconds at the end of the region. -/
def parting : Node Tally := .finalizer (.done (.node (.sleep (.ofNanos 3))))

/-- Registers the sleep and goes on. -/
def farewell : Node Tally := .bind parting fun _ ↦ .done (.effect (.node resigned))

/-- All this in a region takes longer than allowed. -/
def belated : Node Tally := .timeout (.region fun _ ↦ .done (.node farewell)) (.ofNanos 12)

/-- The effects that it visits. -/
def belatedParts : List (Node Tally) :=
  [belated, .region fun _ ↦ .done (.node farewell), farewell, parting, .sleep (.ofNanos 3),
    resigned, futile, ready, .fail (.fail 7), prompt]

/-- A backoff asks nothing of the world. -/
theorem verdict_steadily : ∀ r ∈ steadily.rules, ∀ f, (r.verdict f).Agree Eq (r.verdict f) := by
  intro r hr f
  rw [List.mem_singleton.1 hr]
  exact .done rfl

/-- None of them asks anything of the world. -/
def belatedPurity : flakyTally.Purity where
  related n n' := n ∈ belatedParts ∧ n' = n
  mirrors := by
    rintro n _ ⟨hn, rfl⟩
    simp only [belatedParts, List.mem_cons, List.not_mem_nil, or_false] at hn
    rcases hn with rfl | rfl | rfl | rfl | rfl | rfl | rfl | rfl | rfl | rfl
    · exact .timeout (by simp [belatedParts]) _
    · exact .region fun _ _ ↦ .done (by simp [belatedParts])
    · exact .bind (by simp [belatedParts]) fun _ ↦ .done (.effect (by simp [belatedParts]))
    · exact .finalizer (.done (by simp [belatedParts]))
    · exact .sleep _
    · exact .recover (by simp [belatedParts]) (fun _ _ _ ↦ .done rfl)
        fun _ _ _ ↦ .done (by simp [belatedParts])
    · have hseeded : (steadily.upToRetries 2).Seeded := fun _ hj ↦ nomatch hj
      exact .retry (by simp [belatedParts]) hseeded hseeded rfl fun _ failed hsource ↦
        Schedule.decideFrom_agree hseeded verdict_steadily hsource failed
    · have hseeded : (steadily.withJitter 0.5 (some 7)).Seeded :=
        fun _ hj ↦ Option.some.inj hj ▸ rfl
      exact .retry (by simp [belatedParts]) hseeded hseeded rfl fun _ failed hsource ↦
        Schedule.decideFrom_agree hseeded verdict_steadily hsource failed
    · exact .fail (.refl _)
    · exact .async (Action.registers_settle _) (Action.registers_settle _) (.some (.ok rfl))
  strategy := Strategy.mirrors_sync _

/-- A world in which something has happened. -/
def laterWorld : World Tally where
  state := 4
  clock := ⟨100, #[.ofNanos 9]⟩
  noise := .ofSeed 7
  scopes := ⟨#[.shut, .fresh, .shut]⟩
  forks := 7

/-- Run at nothing and run at a hundred nanoseconds, it takes thirteen. -/
theorem interpret_repeats_belated :
    flakyTally.registry = .standard ∧ flakyTally.IsPure belated ∧
      ∃ x v x' v', flakyTally.interpret 20 belated .empty tallyWorld = (x, v) ∧
        flakyTally.interpret 20 belated .empty laterWorld = (x', v') ∧
        v.clock.nanos = 13 ∧ v'.clock.nanos = 113 ∧ Matches Eq Outcome.Like x x' ∧
        (∃ ds, v.clock.sleeps = #[] ++ ds ∧ v'.clock.sleeps = #[.ofNanos 9] ++ ds) ∧
        (v.budget (tallyWorld.newBudget {}).1).used =
          (v'.budget (laterWorld.newBudget {}).1).used := by
  have hpure : flakyTally.IsPure belated := ⟨belatedPurity, List.mem_cons_self, rfl⟩
  have hclock : (flakyTally.interpret 20 belated .empty tallyWorld).2.clock.nanos = 13 := by
    decide +kernel
  have hclock' : (flakyTally.interpret 20 belated .empty laterWorld).2.clock.nanos = 113 := by
    decide +kernel
  rcases h : flakyTally.interpret 20 belated .empty tallyWorld with ⟨x, v⟩
  rcases h' : flakyTally.interpret 20 belated .empty laterWorld with ⟨x', v'⟩
  rw [h] at hclock
  rw [h'] at hclock'
  have hlt : v.clock.nanos < wordMax := hclock ▸ (by decide : 13 < wordMax)
  have hlt' : v'.clock.nanos < wordMax := hclock' ▸ (by decide : 113 < wordMax)
  obtain ⟨hx, hds, -, hused⟩ := interpret_repeats rfl hpure 20 .empty h h' hlt hlt'
  exact ⟨rfl, hpure, x, v, x', v', rfl, rfl, hclock, hclock', hx, hds, hused⟩

end Interpreter

end EffectMachine
