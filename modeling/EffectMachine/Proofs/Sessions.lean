import EffectMachine.Proofs.Branching

/-!
# What a retry session comes to

Each visit of a retry effect opens a session of its own (`RetrySession.opened`): no attempt has been
made, the samples stand at the start of the schedule's source, and the clock's reading is kept. The
session lives in a frame that is taken off the stack with every failure of the source and pushed
again by a retry, so that its state is nowhere but in that frame.

`Interpreter.Begins` says with what session, in which world, an attempt begins. From one attempt to
the next the source is evaluated once, the schedule is consulted once, and the delay that it answers
is slept once (`Interpreter.Retries`). The last attempt is the one of which nothing of the kind can
be said (`Interpreter.Culminates`).

## What the theorem rests on

* **An evaluation of the source does not see the frame of the session**: runs can be lifted onto a
  stack (`Interpreter.ends_branch`), and their outcome is handed to the frame.
* **A session ends**, since no schedule goes on at its ceiling (`Schedule.decideFrom_ceiling`). That
  makes the ceiling the measure of the induction, and the fuel of the loop is not looked at.
* **Attempts are determined**: a run has one outcome (`Interpreter.Settles.unique`) and a closure
  one answer, so the attempt with a given number is one and the same.
-/

namespace EffectMachine

variable {S : Signature}

/-- No schedule goes on at its ceiling, and none is asked there. -/
theorem Schedule.decideFrom_ceiling {s : Schedule S} {f : Failed S.Error}
    (h : s.ceiling ≤ f.attempt) (source : JitterSource) :
    s.decideFrom source f = .done (.stop, source) := by
  rw [decideFrom, if_pos h]
  rfl

/-- As long as the clock is not beyond the largest word, the time since a reading is not cut. -/
theorem Clock.nanos_since {c : Clock} (h : c.nanos ≤ wordMax) (earlier : Nat) :
    (c.since earlier).nanos = c.nanos - earlier := by
  have hword : wordMax ≤ maxNanos := by decide
  rw [since, Duration.nanos_ofNanos]
  omega

theorem Cause.exists_of_isFail {ε : Type} {c : Cause ε} (h : c.isFail = true) :
    ∃ e, c = .fail e := by
  cases c with
  | fail e => exact ⟨e, rfl⟩
  | validation | serviceNotFound | timeout | composite | defect => cases h

/-- The session that a visit of a retry effect opens. -/
def RetrySession.opened (source : Node S) (schedule : Schedule S) (w : World S) : RetrySession S :=
  ⟨source, schedule, schedule.source, 0, w.clock.nanos⟩

namespace Interpreter

variable (it : Interpreter S) (close : Closer S) (ground : Setting)

/-- The source of a session, evaluated above nothing, comes to an outcome. -/
def Evaluates (r : RetrySession S) (w : World S) (o : Outcome S.Error Value) (w' : World S) :
    Prop :=
  it.Settles close ground.budget (ground.state [] (.effect r.source)) w o w'

/-- What consulting the schedule of a session about an error comes to. The schedule sees how many
attempts were made before this one and the time since the session was opened. -/
def Consults (r : RetrySession S) (e : S.Error) (w : World S)
    (x : Except Defect (Decision × JitterSource)) (w' : World S) : Prop :=
  (it.host close).attempt
    (r.schedule.decideFrom r.jitter ⟨r.attempt, w.clock.since r.startedAt, e⟩) w = (.ok x, w')

/-- An attempt fails with an error, and the schedule answers with a delay, which is slept. -/
inductive Retries (r : RetrySession S) (w : World S) : RetrySession S → World S → Prop where
  | mk {e : S.Error} {w₁ w₂ : World S} {delay : Duration} {jitter : JitterSource}
      (h : it.Evaluates close ground r w (.error (.fail e)) w₁)
      (hc : it.Consults close r e w₁ (.ok (.retry delay, jitter)) w₂) :
      Retries r w { r with jitter, attempt := r.attempt + 1 }
        (w₂.modifyClock fun c ↦ c.sleep delay)

/-- The outcome of the session after an attempt with which it ends: that of the attempt, to which
only a panic of the schedule is added. A failure that is no bare error is not brought before the
schedule. A value takes one more step to pass the frame. -/
inductive Culminates (r : RetrySession S) (w : World S) :
    Outcome S.Error Value → Outcome S.Error Value → World S → Prop where
  | value (v : Value) : Culminates r w (.ok v) (.ok v) (w.modifyBudget ground.budget Budget.tick)
  | failed {cause : Cause S.Error} (hc : cause.isFail = false) :
      Culminates r w (.error cause) (.error cause) w
  | stopped {e : S.Error} {jitter : JitterSource} {w' : World S}
      (hc : it.Consults close r e w (.ok (.stop, jitter)) w') :
      Culminates r w (.error (.fail e)) (.error (.fail e)) w'
  | panicked {e : S.Error} {d : Defect} {w' : World S}
      (hc : it.Consults close r e w (.error d) w') :
      Culminates r w (.error (.fail e)) (.error (.composite [.fail e, .defect d])) w'

/-- What the frame of a session makes of the outcome of an attempt: it ends the session, or
evaluates the source again. -/
def Handles (r : RetrySession S) (w : World S) (o₁ o : Outcome S.Error Value) (w' : World S) :
    Prop :=
  it.Culminates close ground r w o₁ o w' ∨
    ∃ e delay jitter w₁, o₁ = .error (.fail e) ∧
      it.Consults close r e w (.ok (.retry delay, jitter)) w₁ ∧
      it.Settles close ground.budget
        (ground.state [.retry { r with jitter, attempt := r.attempt + 1 }] (.effect r.source))
        (w₁.modifyClock fun c ↦ c.sleep delay) o w'

/-- With which session, and in which world, attempts begin. -/
inductive Begins (r₀ : RetrySession S) (w₀ : World S) : RetrySession S → World S → Prop where
  | first : Begins r₀ w₀ r₀ w₀
  | next {r r' : RetrySession S} {w w' : World S} (h : Begins r₀ w₀ r w)
      (h' : it.Retries close ground r w r' w') : Begins r₀ w₀ r' w'

/-- The last attempt of a session, and what the session comes to with it. -/
def Finishes (r₀ : RetrySession S) (w₀ : World S) (r : RetrySession S)
    (o : Outcome S.Error Value) (w' : World S) : Prop :=
  ∃ w o₁ w₁, it.Begins close ground r₀ w₀ r w ∧ it.Evaluates close ground r w o₁ w₁ ∧
    it.Culminates close ground r w₁ o₁ o w'

/-- With which session, and in which world, the attempts of a visit in a world begin. Coming to the
retry effect takes a step. -/
def Attempts (source : Node S) (schedule : Schedule S) (w : World S) :
    RetrySession S → World S → Prop :=
  it.Begins close ground (.opened source schedule w) (w.modifyBudget ground.budget Budget.tick)

/-- The last attempt of a visit, and what the visit comes to with it. -/
def Completes (source : Node S) (schedule : Schedule S) (w : World S) :
    RetrySession S → Outcome S.Error Value → World S → Prop :=
  it.Finishes close ground (.opened source schedule w) (w.modifyBudget ground.budget Budget.tick)

variable {it close ground} {r₀ r r' : RetrySession S} {w₀ w w' : World S}
  {o : Outcome S.Error Value}

/-! ### Attempts are numbered -/

theorem Retries.attempt_eq (h : it.Retries close ground r w r' w') :
    r'.attempt = r.attempt + 1 := by
  obtain ⟨-, -⟩ := h
  rfl

/-- Only below the ceiling is there another attempt, and the session stays the same but for its
number and its samples. -/
theorem Retries.session_eq (h : it.Retries close ground r w r' w') :
    r.attempt < r.schedule.ceiling ∧ r'.source = r.source ∧ r'.schedule = r.schedule ∧
      r'.startedAt = r.startedAt := by
  obtain ⟨-, hc⟩ := h
  refine ⟨Nat.lt_of_not_le fun hle ↦ ?_, rfl, rfl, rfl⟩
  rw [Consults, Schedule.decideFrom_ceiling hle] at hc
  cases hc

theorem Begins.session_eq (h : it.Begins close ground r₀ w₀ r w) :
    r₀.attempt ≤ r.attempt ∧ r.source = r₀.source ∧ r.schedule = r₀.schedule ∧
      r.startedAt = r₀.startedAt := by
  induction h with
  | first => exact ⟨Nat.le_refl _, rfl, rfl, rfl⟩
  | next _ h' ih =>
    obtain ⟨hattempt, hsource, hschedule, hstart⟩ := ih
    obtain ⟨-, hsource', hschedule', hstart'⟩ := h'.session_eq
    have hnext := h'.attempt_eq
    exact ⟨by omega, hsource'.trans hsource, hschedule'.trans hschedule, hstart'.trans hstart⟩

/-- A session that opens below its ceiling makes no attempt beyond it. -/
theorem Begins.le_ceiling (h : it.Begins close ground r₀ w₀ r w)
    (h₀ : r₀.attempt ≤ r₀.schedule.ceiling) : r.attempt ≤ r₀.schedule.ceiling := by
  cases h with
  | first => exact h₀
  | next h h' =>
    have hlt := h'.session_eq.1
    rw [h.session_eq.2.2.1] at hlt
    rw [h'.attempt_eq]
    exact hlt

/-- Before an attempt all the earlier ones have begun. -/
theorem Begins.earlier (h : it.Begins close ground r₀ w₀ r w) {k : Nat} (hk : r₀.attempt ≤ k)
    (hk' : k ≤ r.attempt) : ∃ r' w', r'.attempt = k ∧ it.Begins close ground r₀ w₀ r' w' := by
  induction h with
  | first => exact ⟨r₀, w₀, Nat.le_antisymm hk hk', .first⟩
  | @next r r' w w' h h' ih =>
    rcases Nat.lt_or_eq_of_le hk' with hlt | rfl
    · rw [h'.attempt_eq] at hlt
      exact ih (Nat.le_of_lt_succ hlt)
    · exact ⟨r', w', rfl, .next h h'⟩

section

variable (hp : it.IsPlain)
include hp

theorem IsPlain.keepsJobs : it.strategy.KeepsJobs := by
  rw [hp.strategy]
  exact Strategy.keepsJobs_sync

/-! ### Attempts are determined -/

/-- A run comes to one outcome in one world. -/
theorem Settles.unique {st : State S} {b : BudgetId} {o' : Outcome S.Error Value} {w₁ : World S}
    (hst : st.stack = []) (h : it.Settles close b st w o w₁) (h' : it.Settles close b st w o' w') :
    o = o' ∧ w₁ = w' := by
  have hground := State.grounded_of_nil hst
  obtain ⟨k, hk⟩ := (settles_iff_above hp.registry hp.keepsJobs hp.stepLimit hground).1 h
  obtain ⟨k', hk'⟩ := (settles_iff_above hp.registry hp.keepsJobs hp.stepLimit hground).1 h'
  have heq := (hk [] k').symm.trans ((congrFun (congrArg (it.rounds close b · _)
    (Nat.add_comm k k')) w).trans (hk' [] k))
  rw [pursue_state_nil, pursue_state_nil] at heq
  cases heq
  exact ⟨rfl, rfl⟩

theorem Evaluates.unique {o' : Outcome S.Error Value} {w₁ : World S}
    (h : it.Evaluates close ground r w o w₁) (h' : it.Evaluates close ground r w o' w') :
    o = o' ∧ w₁ = w' :=
  Settles.unique hp rfl h h'

omit hp in
theorem Consults.unique {e : S.Error} {x x' : Except Defect (Decision × JitterSource)}
    {w₁ : World S} (h : it.Consults close r e w x w₁) (h' : it.Consults close r e w x' w') :
    x = x' ∧ w₁ = w' := by
  rw [Consults, h] at h'
  cases h'
  exact ⟨rfl, rfl⟩

theorem Retries.unique {r'' : RetrySession S} {w'' : World S}
    (h : it.Retries close ground r w r' w') (h' : it.Retries close ground r w r'' w'') :
    r' = r'' ∧ w' = w'' := by
  obtain ⟨heval, hcons⟩ := h
  obtain ⟨heval', hcons'⟩ := h'
  obtain ⟨ho, rfl⟩ := heval.unique hp heval'
  cases ho
  obtain ⟨hx, rfl⟩ := hcons.unique hcons'
  cases hx
  exact ⟨rfl, rfl⟩

/-- The attempt with which a session ends is not followed by another one. -/
theorem Culminates.not_retries {o₁ : Outcome S.Error Value} {w₁ w'' : World S}
    (hc : it.Culminates close ground r w₁ o₁ o w'') (he : it.Evaluates close ground r w o₁ w₁) :
    ¬it.Retries close ground r w r' w' := by
  rintro ⟨heval, hcons⟩
  obtain ⟨rfl, rfl⟩ := he.unique hp heval
  cases hc with
  | failed hc => cases hc
  | stopped hc | panicked hc => cases (hc.unique hcons).1

/-- The attempt with a given number begins with one session in one world. -/
theorem Begins.unique (h : it.Begins close ground r₀ w₀ r w)
    (h' : it.Begins close ground r₀ w₀ r' w') (hr : r.attempt = r'.attempt) :
    r = r' ∧ w = w' := by
  induction h generalizing r' w' with
  | first =>
    cases h' with
    | first => exact ⟨rfl, rfl⟩
    | next h h' =>
      have hnext := h'.attempt_eq
      have hle := h.session_eq.1
      omega
  | next h hr₁ ih =>
    cases h' with
    | first =>
      have hnext := hr₁.attempt_eq
      have hle := h.session_eq.1
      omega
    | next h' hr₂ =>
      rw [hr₁.attempt_eq, hr₂.attempt_eq] at hr
      obtain ⟨rfl, rfl⟩ := ih h' (Nat.succ.inj hr)
      exact hr₁.unique hp hr₂

/-- After the last attempt none begins. -/
theorem Finishes.last (h : it.Finishes close ground r₀ w₀ r o w')
    (h' : it.Begins close ground r₀ w₀ r' w) : r'.attempt ≤ r.attempt := by
  obtain ⟨w₁, o₁, w₂, hbegins, heval, hculminates⟩ := h
  induction h' with
  | first => exact hbegins.session_eq.1
  | next h' hr ih =>
    rw [hr.attempt_eq]
    rcases Nat.lt_or_eq_of_le ih with hlt | heq
    · exact hlt
    · obtain ⟨rfl, rfl⟩ := h'.unique hp hbegins heq
      exact (hculminates.not_retries hp heval hr).elim

/-! ### The loop and the session -/

/-- An error is brought before the schedule. -/
theorem pursue_session_error (r : RetrySession S) (e : S.Error) (w : World S) :
    (∃ n, it.pursue close ground.budget n
        (ground.state [.retry r] (.ofOutcome (.error (.fail e)))) w = (.ok o, w')) ↔
      it.Handles close ground r w (.error (.fail e)) o w' := by
  have hfail : ∀ n, it.pursue close ground.budget n
      (ground.state [.retry r] (.ofOutcome (.error (.fail e)))) = _ := fun n ↦
    it.pursue_fail_retry close ground.budget n (ground.state [] .pending) hp.strategy r e
  have hpass : ∀ (n : Nat) (cause : Cause S.Error), it.pursue close ground.budget n
      ((ground.state [] .pending).fail cause) = pure (.error cause) := fun n cause ↦
    pursue_state_nil n (.error cause)
  constructor
  · rintro ⟨n, hn⟩
    rw [hfail, Machine.bind_ok (Machine.gets_apply _ w)] at hn
    obtain ⟨x, w₁, hx, hn⟩ := Machine.bind_eq_ok hn
    rcases x with d | ⟨_ | delay, jitter⟩
    · rw [hpass] at hn
      cases hn
      exact .inl (.panicked hx)
    · rw [hpass] at hn
      cases hn
      exact .inl (.stopped hx)
    · exact .inr ⟨e, delay, jitter, w₁, rfl, hx, n, hn⟩
  · rintro (hculminates | ⟨e', delay, jitter, w₁, he, hx, n, hn⟩)
    · cases hculminates with
      | failed h => cases h
      | stopped hx | panicked hx =>
        refine ⟨0, ?_⟩
        rw [hfail, Machine.bind_ok (Machine.gets_apply _ w), Machine.bind_ok hx, hpass]
        rfl
    · cases he
      refine ⟨n, ?_⟩
      rw [hfail, Machine.bind_ok (Machine.gets_apply _ w), Machine.bind_ok hx]
      exact hn

omit hp in
/-- Any other failure passes the frame. -/
theorem pursue_session_failure (r : RetrySession S) {cause : Cause S.Error}
    (hc : cause.isFail = false) (w : World S) :
    (∃ n, it.pursue close ground.budget n
        (ground.state [.retry r] (.ofOutcome (.error cause))) w = (.ok o, w')) ↔
      it.Handles close ground r w (.error cause) o w' := by
  have hpass : ∀ n, it.pursue close ground.budget n
      (ground.state [.retry r] (.ofOutcome (.error cause))) = pure (.error cause) := fun n ↦
    (it.pursue_failure_retry close ground.budget n (ground.state [] .pending) cause r hc).trans
      (pursue_state_nil n (.error cause))
  constructor
  · rintro ⟨n, hn⟩
    rw [hpass] at hn
    cases hn
    exact .inl (.failed hc)
  · rintro (hculminates | ⟨e, _, _, _, he, -⟩)
    · cases hculminates with
      | failed _ => exact ⟨0, by rw [hpass]; rfl⟩
      | stopped _ | panicked _ => cases hc
    · cases he
      cases hc

/-- A value passes the frame in one more step. -/
theorem pursue_session_value (r : RetrySession S) (v : Value) (w : World S) :
    (∃ n, it.pursue close ground.budget n (ground.state [.retry r] (.ofOutcome (.ok v))) w =
        (.ok o, w')) ↔ it.Handles close ground r w (.ok v) o w' := by
  have hvalue : ∀ n, it.pursue close ground.budget n
      (ground.state [.retry r] (.ofOutcome (.ok v))) =
        it.rounds close ground.budget n (ground.state [] (.ofOutcome (.ok v))) := fun n ↦
    it.pursue_value close ground.budget n (ground.state [] .pending) v (.retry r)
  have hsettles : it.Settles close ground.budget (ground.state [] (.ofOutcome (.ok v))) w o w' ↔
      o = .ok v ∧ w' = w.modifyBudget ground.budget Budget.tick :=
    settles_state_nil hp.stepLimit close ground (.ok v)
  constructor
  · rintro ⟨n, hn⟩
    rw [hvalue] at hn
    obtain ⟨rfl, rfl⟩ := hsettles.1 ⟨n, hn⟩
    exact .inl (.value v)
  · rintro (hculminates | ⟨_, _, _, _, he, -⟩)
    · cases hculminates
      obtain ⟨n, hn⟩ := hsettles.2 ⟨rfl, rfl⟩
      exact ⟨n, by rw [hvalue]; exact hn⟩
    · cases he

theorem pursue_session (r : RetrySession S) (o₁ : Outcome S.Error Value) (w : World S) :
    (∃ n, it.pursue close ground.budget n (ground.state [.retry r] (.ofOutcome o₁)) w =
        (.ok o, w')) ↔ it.Handles close ground r w o₁ o w' := by
  rcases o₁ with cause | v
  · cases hc : cause.isFail with
    | true =>
      obtain ⟨e, rfl⟩ := Cause.exists_of_isFail hc
      exact pursue_session_error hp r e w
    | false => exact pursue_session_failure r hc w
  · exact pursue_session_value hp r v w

/-- An attempt ends the session, or another one begins. -/
theorem session_step (r : RetrySession S) (w : World S) :
    it.Settles close ground.budget (ground.state [.retry r] (.effect r.source)) w o w' ↔
      (∃ o₁ w₁, it.Evaluates close ground r w o₁ w₁ ∧ it.Culminates close ground r w₁ o₁ o w') ∨
        ∃ r₁ w₁, it.Retries close ground r w r₁ w₁ ∧ it.Settles close ground.budget
          (ground.state [.retry r₁] (.effect r₁.source)) w₁ o w' := by
  have hbranch : it.Settles close ground.budget (ground.state [.retry r] (.effect r.source)) w o
      w' ↔ ∃ o₁ w₁, it.Evaluates close ground r w o₁ w₁ ∧ ∃ n, it.pursue close ground.budget n
        (ground.state [.retry r] (.ofOutcome o₁)) w₁ = (.ok o, w') := by
    have hcontext : (⟨r.source, ground.context⟩ : Job S).context = ground.context := rfl
    exact ends_branch hp.registry hp.keepsJobs hp.stepLimit hcontext (.retry r)
  rw [hbranch]
  constructor
  · rintro ⟨o₁, w₁, heval, hpursue⟩
    rcases (pursue_session hp r o₁ w₁).1 hpursue with h | ⟨e, delay, jitter, w₂, rfl, hc, h⟩
    · exact .inl ⟨o₁, w₁, heval, h⟩
    · exact .inr ⟨_, _, .mk heval hc, h⟩
  · rintro (⟨o₁, w₁, heval, h⟩ | ⟨_, _, ⟨heval, hc⟩, h⟩)
    · exact ⟨o₁, w₁, heval, (pursue_session hp r o₁ w₁).2 (.inl h)⟩
    · exact ⟨_, _, heval, (pursue_session hp r _ _).2 (.inr ⟨_, _, _, _, rfl, hc, h⟩)⟩

omit hp in
variable (it close ground) in
/-- Induction on the attempts that are still to come. The ceiling is the measure: an attempt at the
ceiling is the last one. -/
theorem retries_induction {P : RetrySession S → World S → Prop}
    (step : ∀ r w, (∀ r' w', it.Retries close ground r w r' w' → P r' w') → P r w)
    (r : RetrySession S) (w : World S) : P r w := by
  obtain ⟨left, hleft⟩ : ∃ left, r.schedule.ceiling ≤ r.attempt + left :=
    ⟨r.schedule.ceiling, Nat.le_add_left _ _⟩
  induction left generalizing r w with
  | zero =>
    refine step r w fun r' w' hr ↦ ?_
    have hlt := hr.session_eq.1
    omega
  | succ left ih =>
    refine step r w fun r' w' hr ↦ ih r' w' ?_
    rw [hr.session_eq.2.2.1, hr.attempt_eq]
    omega

/-- Where the loop comes to an outcome from an attempt on, the session finishes with it. -/
theorem Begins.finishes (h : it.Begins close ground r₀ w₀ r w)
    (hs : it.Settles close ground.budget (ground.state [.retry r] (.effect r.source)) w o w') :
    ∃ r₁, it.Finishes close ground r₀ w₀ r₁ o w' := by
  induction r, w using retries_induction it close ground with
  | step r w ih =>
    rcases (session_step hp r w).1 hs with ⟨o₁, w₁, heval, hc⟩ | ⟨r₁, w₁, hr, hs⟩
    · exact ⟨r, w, o₁, w₁, h, heval, hc⟩
    · exact ih r₁ w₁ hr (.next h hr) hs

/-- And the other way round, back from that attempt to the first. -/
theorem Begins.settles (h : it.Begins close ground r₀ w₀ r w)
    (hs : it.Settles close ground.budget (ground.state [.retry r] (.effect r.source)) w o w') :
    it.Settles close ground.budget (ground.state [.retry r₀] (.effect r₀.source)) w₀ o w' := by
  induction h with
  | first => exact hs
  | next _ hr ih => exact ih ((session_step hp _ _).2 (.inr ⟨_, _, hr, hs⟩))

theorem session_iff (r₀ : RetrySession S) (w₀ : World S) :
    it.Settles close ground.budget (ground.state [.retry r₀] (.effect r₀.source)) w₀ o w' ↔
      ∃ r, it.Finishes close ground r₀ w₀ r o w' := by
  constructor
  · exact fun h ↦ Begins.finishes hp .first h
  · rintro ⟨r, w, o₁, w₁, hbegins, heval, hc⟩
    exact hbegins.settles hp ((session_step hp r w).2 (.inl ⟨o₁, w₁, heval, hc⟩))

omit hp in
/-- An attempt ends the session or leads to another one, if the schedule answers when asked. -/
theorem Evaluates.culminates_or_retries {w₁ : World S} (h : it.Evaluates close ground r w o w₁)
    (hc : ∀ e, o = .error (.fail e) → ∃ x w', it.Consults close r e w₁ x w') :
    (∃ o' w', it.Culminates close ground r w₁ o o' w') ∨
      ∃ r' w', it.Retries close ground r w r' w' := by
  rcases o with cause | v
  · cases hfail : cause.isFail with
    | true =>
      obtain ⟨e, rfl⟩ := Cause.exists_of_isFail hfail
      obtain ⟨x, w', hx⟩ := hc e rfl
      rcases x with d | ⟨_ | delay, jitter⟩
      · exact .inl ⟨_, _, .panicked hx⟩
      · exact .inl ⟨_, _, .stopped hx⟩
      · exact .inr ⟨_, _, .mk h hx⟩
    | false => exact .inl ⟨_, _, .failed hfail⟩
  · exact .inl ⟨_, _, .value v⟩

omit hp in
/-- A session finishes if every attempt that begins comes to an outcome, and the schedule answers
whenever it is asked. -/
theorem Begins.total (h : it.Begins close ground r₀ w₀ r w)
    (hevaluates : ∀ r w, it.Begins close ground r₀ w₀ r w →
      ∃ o w', it.Evaluates close ground r w o w')
    (hconsults : ∀ r w e w', it.Begins close ground r₀ w₀ r w →
      it.Evaluates close ground r w (.error (.fail e)) w' →
        ∃ x w'', it.Consults close r e w' x w'') :
    ∃ r o w', it.Finishes close ground r₀ w₀ r o w' := by
  induction r, w using retries_induction it close ground with
  | step r w ih =>
    obtain ⟨o₁, w₁, heval⟩ := hevaluates r w h
    have hasked : ∀ e, o₁ = .error (.fail e) → ∃ x w', it.Consults close r e w₁ x w' := by
      rintro e rfl
      exact hconsults r w e w₁ h heval
    rcases heval.culminates_or_retries hasked with ⟨o', w', hc⟩ | ⟨r', w', hr⟩
    · exact ⟨r, o', w', w, o₁, w₁, h, heval, hc⟩
    · exact ih r' w' hr (.next h hr)

/-- The machine opens a session when it comes to a retry effect. -/
theorem settles_retry (source : Node S) (schedule : Schedule S) :
    it.Settles close ground.budget (ground.state [] (.effect (.retry source schedule))) w o w' ↔
      it.Settles close ground.budget
        (ground.state [.retry (.opened source schedule w)] (.effect source))
        (w.modifyBudget ground.budget Budget.tick) o w' := by
  have hdispatch : it.dispatch close (.retry source schedule) (ground.state [] .pending) =
      .gets (fun w ↦ w.clock.nanos) >>= fun startedAt ↦
        pure (ground.state [.retry ⟨source, schedule, schedule.source, 0, startedAt⟩]
          (.effect source)) :=
    dispatch_decided hp.registry rfl (.after fun _ ↦ .pure rfl)
  rw [settles_start hp.stepLimit, hdispatch, ends_bind]
  constructor
  · rintro ⟨startedAt, w₁, hgets, h⟩
    cases hgets
    exact h
  · exact fun h ↦ ⟨_, _, rfl, h⟩

/-- **What a visit of a retry effect comes to.** It opens a session of its own, at attempt zero,
with the schedule's source of samples and the clock's reading.

* The visit comes to an outcome just if the session finishes with it, and hands it to whatever stack
  it is above.
* The attempts that begin are those from the first to the last one, each once; there are at most as
  many retries as the schedule's ceiling says.
* In every attempt the session has the same source, schedule and starting time, and what the
  schedule is told to have elapsed is the clock's reading at the failure less the one at the
  opening.
* If every attempt comes to an outcome and the schedule answers when asked, the visit comes to an
  outcome. -/
theorem sessions_settle (close : Closer S) (ground : Setting) (source : Node S)
    (schedule : Schedule S) (w : World S) :
    (∀ o w', (it.Settles close ground.budget (ground.state [] (.effect (.retry source schedule))) w
        o w' ↔ ∃ r, it.Completes close ground source schedule w r o w') ∧
      ((∃ r, it.Completes close ground source schedule w r o w') ↔ ∃ k, ∀ base n,
        it.rounds close ground.budget (k + n)
            (ground.state base (.effect (.retry source schedule))) w =
          it.pursue close ground.budget n (ground.state base (.ofOutcome o)) w')) ∧
    (∀ r o w', it.Completes close ground source schedule w r o w' →
      r.attempt ≤ schedule.ceiling ∧
        ∀ k, k ≤ r.attempt ↔ ∃ r' w₁, r'.attempt = k ∧
          it.Attempts close ground source schedule w r' w₁) ∧
    (∀ r w₁ r' w₂, it.Attempts close ground source schedule w r w₁ →
      it.Attempts close ground source schedule w r' w₂ → r.attempt = r'.attempt →
        r = r' ∧ w₁ = w₂) ∧
    (∀ r w₁, it.Attempts close ground source schedule w r w₁ →
      r.source = source ∧ r.schedule = schedule ∧ r.startedAt = w.clock.nanos ∧
        ∀ c : Clock, c.nanos ≤ wordMax → (c.since r.startedAt).nanos = c.nanos - w.clock.nanos) ∧
    ((∀ r w₁, it.Attempts close ground source schedule w r w₁ →
        ∃ o w₂, it.Evaluates close ground r w₁ o w₂) →
      (∀ r w₁ e w₂, it.Attempts close ground source schedule w r w₁ →
        it.Evaluates close ground r w₁ (.error (.fail e)) w₂ →
          ∃ x w₃, it.Consults close r e w₂ x w₃) →
      ∃ o w', it.Settles close ground.budget
        (ground.state [] (.effect (.retry source schedule))) w o w') := by
  have hcompletes : ∀ o w', it.Settles close ground.budget
      (ground.state [] (.effect (.retry source schedule))) w o w' ↔
        ∃ r, it.Completes close ground source schedule w r o w' := fun o w' ↦
    (settles_retry hp source schedule).trans (session_iff hp _ _)
  refine ⟨fun o w' ↦ ⟨hcompletes o w', ?_⟩, fun r o w' hf ↦ ⟨?_, fun k ↦ ⟨fun hk ↦ ?_, ?_⟩⟩,
    fun r w₁ r' w₂ h h' hr ↦ Begins.unique hp h h' hr, fun r w₁ h ↦ ?_, fun he hc ↦ ?_⟩
  · rw [← hcompletes]
    exact settles_iff_above hp.registry hp.keepsJobs hp.stepLimit (State.grounded_of_nil rfl)
  · obtain ⟨w₁, o₁, w₂, h, -, -⟩ := hf
    exact h.le_ceiling (Nat.zero_le _)
  · obtain ⟨w₁, o₁, w₂, h, -, -⟩ := hf
    exact h.earlier (Nat.zero_le _) hk
  · rintro ⟨r', w₁, rfl, h⟩
    exact Finishes.last hp hf h
  · obtain ⟨-, hsource, hschedule, hstart⟩ := Begins.session_eq h
    refine ⟨hsource, hschedule, hstart, fun c hword ↦ ?_⟩
    rw [c.nanos_since hword, hstart]
    rfl
  · obtain ⟨r, o, w', hf⟩ := Begins.total .first he hc
    exact ⟨o, w', (hcompletes o w').2 ⟨r, hf⟩⟩

end

/-- An interpreter of the small application. -/
def flakyTally : Interpreter Tally := plain tally "flaky" false

/-- It fails twice, with the number of failures before, and then succeeds. -/
def flaky : Node Tally :=
  .suspend (.read fun k ↦ .write (k + 1) (.done (.node (if k < 2 then .fail (.fail k) else .unit))))

/-- Tried again after five nanoseconds each time, it succeeds with at most ten retries. -/
theorem sessions_settle_flaky :
    flakyTally.IsPlain ∧ ∃ w' r,
      flakyTally.Completes (fun _ ↦ .escape .exhausted) ⟨.empty, ⟨0⟩, ⟨0⟩⟩ flaky
        (.ofBackoff (.fixed ⟨5, by decide⟩)) tallyWorld r (.ok .unit) w' ∧
      w'.clock.nanos = 10 ∧ w'.state = 3 ∧ r.attempt ≤ 10 := by
  have hplain : flakyTally.IsPlain := isPlain_plain tally "flaky" false
  have hsettles : ∃ w', flakyTally.Settles (fun _ ↦ .escape .exhausted) ⟨0⟩
      (Setting.state ⟨.empty, ⟨0⟩, ⟨0⟩⟩ []
        (.effect (.retry flaky (.ofBackoff (.fixed ⟨5, by decide⟩))))) tallyWorld (.ok .unit) w' ∧
      w'.clock.nanos = 10 ∧ w'.state = 3 := ⟨_, ⟨11, rfl⟩, rfl, rfl⟩
  obtain ⟨w', hsettles, hclock, hstate⟩ := hsettles
  have hall := sessions_settle hplain (fun _ ↦ .escape .exhausted) ⟨.empty, ⟨0⟩, ⟨0⟩⟩ flaky
    (.ofBackoff (.fixed ⟨5, by decide⟩)) tallyWorld
  obtain ⟨r, hcompletes⟩ := (hall.1 (.ok .unit) w').1.1 hsettles
  exact ⟨hplain, w', r, hcompletes, hclock, hstate, (hall.2.1 r _ _ hcompletes).1⟩

end Interpreter

end EffectMachine
