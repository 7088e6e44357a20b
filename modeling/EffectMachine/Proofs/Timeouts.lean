import EffectMachine.Proofs.Acquisition
import EffectMachine.Proofs.Forward
import EffectMachine.Proofs.Sessions

/-!
# What a timeout comes to

A timeout lets its source run to the end and compares afterwards. Its frame keeps the reading of the
clock at which the source started, and looks at the clock again when a value comes down to it. So
all that counts is by how much the clock has moved in between, whoever moved it.

Timeouts that are nested directly start at the same reading and look at the clock at the same
reading, since nothing but frames lies between them. The first failure is made by the innermost one
that is exceeded, and the others let it pass (`Outcome.within`).

## What the theorem rests on

* **The source does not see the frame**: a run above a stack hands its outcome to the stack
  (`Interpreter.ends_branch`).
* **The clock does not run backwards** (`Interpreter.drive_forward`), whatever the source does, so
  the difference of two readings is a time.
-/

namespace EffectMachine

variable {S : Signature}

/-- A source under several timeouts, the innermost limit first. -/
def Node.timeouts (source : Node S) (limits : List Duration) : Node S :=
  limits.foldl Node.timeout source

/-- What timeouts make of the outcome of a source that took some nanoseconds: the first limit that
was exceeded, innermost first, fails a success. A failure stays what it is. -/
def Outcome.within {ε α : Type} (limits : List Duration) (nanos : Nat) :
    Outcome ε α → Outcome ε α
  | .ok v =>
    match limits.find? fun l ↦ l.nanos < nanos with
    | some l => .error (.timeout l)
    | none => .ok v
  | .error cause => .error cause

/-- How many of the timeouts look at the clock: those that a success comes to before it fails. -/
def Outcome.looks {ε α : Type} (limits : List Duration) (nanos : Nat) : Outcome ε α → Nat
  | .ok _ => min (limits.findIdx (fun l ↦ l.nanos < nanos) + 1) limits.length
  | .error _ => 0

/-- The timeouts around the innermost one see what it has made of the outcome. -/
theorem Outcome.within_cons {ε α : Type} (l : Duration) (limits : List Duration) (nanos : Nat)
    (o : Outcome ε α) :
    o.within (l :: limits) nanos = (o.within [l] nanos).within limits nanos := by
  cases o with
  | error cause => rfl
  | ok v => by_cases hlt : l.nanos < nanos <;> simp [within, hlt]

/-- And they look at the clock if that is a success. -/
theorem Outcome.looks_cons {ε α : Type} (l : Duration) (limits : List Duration) (nanos : Nat)
    (o : Outcome ε α) : o.looks (l :: limits) nanos =
      (if o.isOk then 1 else 0) + (o.within [l] nanos).looks limits nanos := by
  cases o with
  | error cause => rfl
  | ok v =>
    by_cases hlt : l.nanos < nanos <;>
      simp [within, looks, hlt, List.findIdx_cons, Except.isOk, Except.toBool]
    omega

@[simp] theorem World.clock_ticks (w : World S) (b : BudgetId) (k : Nat) :
    (w.ticks b k).clock = w.clock := by
  induction k with
  | zero => rfl
  | succ k ih => exact ih

/-- What a timeout finds when it looks at the clock. -/
theorem Clock.lt_since {c : Clock} {limit : Duration} {start nanos : Nat} (hc : c.nanos ≤ wordMax)
    (hnanos : c.nanos = start + nanos) : limit < c.since start ↔ limit.nanos < nanos := by
  show limit.nanos < (c.since start).nanos ↔ _
  rw [Clock.nanos_since hc]
  omega

theorem Outcome.ite_since {ε α : Type} {c : Clock} {limit : Duration} {start nanos : Nat} {v : α}
    (hc : c.nanos ≤ wordMax) (hnanos : c.nanos = start + nanos) :
    (if limit < c.since start then .error (.timeout limit) else .ok v : Outcome ε α) =
      Outcome.within [limit] nanos (.ok v) := by
  by_cases hlt : limit.nanos < nanos
  · rw [if_pos ((Clock.lt_since hc hnanos).2 hlt)]
    simp [within, hlt]
  · rw [if_neg (mt (Clock.lt_since hc hnanos).1 hlt)]
    simp [within, hlt]

namespace Interpreter

variable {it : Interpreter S} {close : Closer S} {ground : Setting} {w w' : World S}
  {o : Outcome S.Error Value}

section

variable (hr : it.registry = .standard) (hl : it.config.stepLimit = none)
include hl

include hr in
/-- The machine keeps the reading of the clock when it comes to a timeout. -/
theorem settles_timeout (source : Node S) (limit : Duration) :
    it.Settles close ground.budget (ground.state [] (.effect (.timeout source limit))) w o w' ↔
      it.Settles close ground.budget
        (ground.state [.timeout limit w.clock.nanos] (.effect source))
        (w.modifyBudget ground.budget Budget.tick) o w' := by
  have hdispatch : it.dispatch close (.timeout source limit) (ground.state [] .pending) =
      .gets (fun w ↦ w.clock.nanos) >>= fun startedAt ↦
        pure (ground.state [.timeout limit startedAt] (.effect source)) :=
    dispatch_decided hr rfl (.after fun _ ↦ .pure rfl)
  rw [settles_start hl, hdispatch, ends_bind]
  constructor
  · rintro ⟨startedAt, w₁, hgets, h⟩
    cases hgets
    exact h
  · exact fun h ↦ ⟨_, _, rfl, h⟩

/-- The frame of a timeout compares a value's time with the limit, which takes one more step, and
lets a failure pass. -/
theorem pursue_timeout_outcome (limit : Duration) {start nanos : Nat} (o₁ : Outcome S.Error Value)
    (hw : w.clock.nanos ≤ wordMax) (hnanos : w.clock.nanos = start + nanos) :
    (∃ n, it.pursue close ground.budget n
        (ground.state [.timeout limit start] (.ofOutcome o₁)) w = (.ok o, w')) ↔
      o = o₁.within [limit] nanos ∧ w' = w.ticks ground.budget (if o₁.isOk then 1 else 0) := by
  cases o₁ with
  | error cause =>
    have hpass : ∀ n, it.pursue close ground.budget n
        (ground.state [.timeout limit start] (.ofOutcome (.error cause))) = pure (.error cause) :=
      fun n ↦ (it.pursue_failure_timeout close ground.budget n (ground.state [] .pending) cause
        limit start).trans (pursue_state_nil n (.error cause))
    constructor
    · rintro ⟨n, hn⟩
      rw [hpass] at hn
      cases hn
      exact ⟨rfl, rfl⟩
    · rintro ⟨rfl, rfl⟩
      exact ⟨0, by rw [hpass]; rfl⟩
  | ok v =>
    have hlook : ∀ n, it.pursue close ground.budget n
        (ground.state [.timeout limit start] (.ofOutcome (.ok v))) w =
          it.rounds close ground.budget n
            (ground.state [] (.ofOutcome (Outcome.within [limit] nanos (.ok v)))) w := by
      intro n
      have hvalue := congrFun (it.pursue_value_timeout close ground.budget n
        (ground.state [] .pending) v limit start) w
      rw [Machine.bind_ok (Machine.gets_apply _ w), Outcome.ite_since hw hnanos] at hvalue
      exact hvalue
    simp only [hlook]
    exact settles_state_nil hl close ground (Outcome.within [limit] nanos (.ok v))

end

section

variable (hr : it.registry = .standard) (hσ : it.strategy.KeepsJobs)
  (hl : it.config.stepLimit = none)

include hr in
/-- A run does not turn the clock back. -/
theorem Settles.later {depth : Nat} {b : BudgetId} {st : State S}
    (h : it.Settles (it.closeScope depth) b st w o w') : w.Later w' := by
  obtain ⟨fuel, hfuel⟩ := h
  have hlater := drive_forward hr (closeScope_forward hr depth) b fuel st w
  rw [hfuel] at hlater
  exact hlater

include hr hσ hl

/-- A timeout is its source, seen through the frame. -/
theorem settles_timeout_iff {depth : Nat} (source : Node S) (limit : Duration)
    (hw : w.clock.nanos ≤ wordMax) :
    it.Settles (it.closeScope depth) ground.budget
        (ground.state [] (.effect (.timeout source limit))) w o w' ↔
      ∃ o₁ w₁ nanos, it.Settles (it.closeScope depth) ground.budget
          (ground.state [] (.effect source)) (w.modifyBudget ground.budget Budget.tick) o₁ w₁ ∧
        w₁.clock.nanos = w.clock.nanos + nanos ∧ o = o₁.within [limit] nanos ∧
          w' = w₁.ticks ground.budget (if o₁.isOk then 1 else 0) := by
  have hbranch : it.Settles (it.closeScope depth) ground.budget
      (ground.state [.timeout limit w.clock.nanos] (.effect source))
      (w.modifyBudget ground.budget Budget.tick) o w' ↔
        ∃ o₁ w₁, it.Settles (it.closeScope depth) ground.budget (ground.state [] (.effect source))
            (w.modifyBudget ground.budget Budget.tick) o₁ w₁ ∧
          ∃ n, it.pursue (it.closeScope depth) ground.budget n
            (ground.state [.timeout limit w.clock.nanos] (.ofOutcome o₁)) w₁ = (.ok o, w') := by
    have hcontext : (⟨source, ground.context⟩ : Job S).context = ground.context := rfl
    exact ends_branch hr hσ hl hcontext (.timeout limit w.clock.nanos)
  rw [settles_timeout hr hl, hbranch]
  refine exists_congr fun o₁ ↦ exists_congr fun w₁ ↦ ?_
  constructor
  · rintro ⟨hsource, hpursue⟩
    have hlater := hsource.later hr
    have hle : min w.clock.nanos wordMax ≤ w₁.clock.nanos := hlater.le
    obtain ⟨nanos, hnanos⟩ : ∃ nanos, w₁.clock.nanos = w.clock.nanos + nanos :=
      Nat.exists_eq_add_of_le (by omega)
    obtain ⟨ho, hw'⟩ := (pursue_timeout_outcome hl limit o₁ (hlater.word hw) hnanos).1 hpursue
    exact ⟨nanos, hsource, hnanos, ho, hw'⟩
  · rintro ⟨nanos, hsource, hnanos, ho, hw'⟩
    have hword := (hsource.later hr).word hw
    exact ⟨hsource, (pursue_timeout_outcome hl limit o₁ hword hnanos).2 ⟨ho, hw'⟩⟩

/-- Timeouts around timeouts: one after the other sees what those inside it have made of the
outcome, and all of them saw the source start at the same reading. -/
theorem settles_timeouts_iff {depth : Nat} (source : Node S) (limits : List Duration)
    (hw : w.clock.nanos ≤ wordMax) :
    it.Settles (it.closeScope depth) ground.budget
        (ground.state [] (.effect (source.timeouts limits))) w o w' ↔
      ∃ o₁ w₁ nanos, it.Settles (it.closeScope depth) ground.budget
          (ground.state [] (.effect source)) (w.ticks ground.budget limits.length) o₁ w₁ ∧
        w₁.clock.nanos = w.clock.nanos + nanos ∧ o = o₁.within limits nanos ∧
          w' = w₁.ticks ground.budget (o₁.looks limits nanos) := by
  induction limits generalizing source with
  | nil =>
    constructor
    · intro h
      have hle : min w.clock.nanos wordMax ≤ w'.clock.nanos := (h.later hr).le
      obtain ⟨nanos, hnanos⟩ : ∃ nanos, w'.clock.nanos = w.clock.nanos + nanos :=
        Nat.exists_eq_add_of_le (by omega)
      refine ⟨o, w', nanos, h, hnanos, ?_⟩
      cases o <;> exact ⟨rfl, rfl⟩
    · rintro ⟨o₁, w₁, nanos, h, hnanos, rfl, rfl⟩
      cases o₁ <;> exact h
  | cons l limits ih =>
    have hword : (w.ticks ground.budget limits.length).clock.nanos ≤ wordMax := by
      rw [World.clock_ticks]
      exact hw
    refine (ih (.timeout source l)).trans ?_
    constructor
    · rintro ⟨o₂, w₂, nanos, hinner, hnanos, rfl, rfl⟩
      obtain ⟨o₁, w₁, nanos', hsource, hnanos', rfl, rfl⟩ :=
        (settles_timeout_iff hr hσ hl source l hword).1 hinner
      rw [World.clock_ticks] at hnanos hnanos'
      have htime : nanos' = nanos := Nat.add_left_cancel (hnanos'.symm.trans hnanos)
      subst htime
      refine ⟨o₁, w₁, nanos', hsource, hnanos, ?_, ?_⟩
      · rw [← Outcome.within_cons]
      · rw [World.ticks_ticks, ← Outcome.looks_cons]
    · rintro ⟨o₁, w₁, nanos, hsource, hnanos, rfl, rfl⟩
      refine ⟨_, _, nanos, (settles_timeout_iff hr hσ hl source l hword).2
        ⟨o₁, w₁, nanos, hsource, ?_, rfl, rfl⟩, ?_, ?_, ?_⟩
      · rw [World.clock_ticks, hnanos]
      · rw [World.clock_ticks, hnanos]
      · rw [← Outcome.within_cons]
      · rw [World.ticks_ticks, ← Outcome.looks_cons]

/-- **What timeouts come to**, one or several around a source, in any surroundings. The source is
run as it would be without them, and what they make of its outcome depends on nothing but that and
the time by which it has moved the clock: a failure passes unchanged; a success fails with the
innermost limit that is less than the time, and if there is none it passes. The outcome is handed to
whatever stack the timeouts are above. -/
theorem timeouts_decide (depth : Nat) (ground : Setting) (source : Node S)
    (limits : List Duration) (w : World S) (hw : w.clock.nanos ≤ wordMax)
    (o : Outcome S.Error Value) (w' : World S) :
    (it.Settles (it.closeScope depth) ground.budget
        (ground.state [] (.effect (source.timeouts limits))) w o w' ↔
      ∃ o₁ w₁ nanos, it.Settles (it.closeScope depth) ground.budget
          (ground.state [] (.effect source)) (w.ticks ground.budget limits.length) o₁ w₁ ∧
        w₁.clock.nanos = w.clock.nanos + nanos ∧ o = o₁.within limits nanos ∧
          w' = w₁.ticks ground.budget (o₁.looks limits nanos)) ∧
    (it.Settles (it.closeScope depth) ground.budget
        (ground.state [] (.effect (source.timeouts limits))) w o w' ↔
      ∃ k, ∀ base n, it.rounds (it.closeScope depth) ground.budget (k + n)
          (ground.state base (.effect (source.timeouts limits))) w =
        it.pursue (it.closeScope depth) ground.budget n (ground.state base (.ofOutcome o)) w') :=
  ⟨settles_timeouts_iff hr hσ hl source limits hw,
    settles_iff_above hr hσ hl (State.grounded_of_nil rfl)⟩

end

/-- A region that sleeps, and sleeps again when it is left. -/
def sluggish : Node Tally :=
  .region fun _ ↦ .done (.node (.bind (.finalizer (.done (.node (.sleep (.ofNanos 3)))))
    fun _ ↦ .done (.effect (.node (.sleep (.ofNanos 4))))))

/-- It takes seven nanoseconds, so of the limits ten, five and six it is five that is reported. -/
theorem timeouts_decide_sluggish :
    flakyTally.registry = .standard ∧ flakyTally.strategy.KeepsJobs ∧
      flakyTally.config.stepLimit = none ∧ tallyWorld.clock.nanos ≤ wordMax ∧
      ∃ w', flakyTally.Settles (flakyTally.closeScope 9) ⟨0⟩ (Setting.state ⟨.empty, ⟨0⟩, ⟨0⟩⟩ []
          (.effect (sluggish.timeouts [.ofNanos 10, .ofNanos 5, .ofNanos 6])))
          tallyWorld (.error (.timeout (.ofNanos 5))) w' ∧ w'.clock.nanos = 7 := by
  have hclock : tallyWorld.clock.nanos ≤ wordMax := by decide
  have hsource : ∃ w₁, flakyTally.Settles (flakyTally.closeScope 9) ⟨0⟩
      (Setting.state ⟨.empty, ⟨0⟩, ⟨0⟩⟩ [] (.effect sluggish)) (tallyWorld.ticks ⟨0⟩ 3)
      (.ok .unit) w₁ ∧ w₁.clock.nanos = 7 := ⟨_, ⟨9, rfl⟩, rfl⟩
  obtain ⟨w₁, hsource, h7⟩ := hsource
  have hdecide := @timeouts_decide _ flakyTally rfl Strategy.keepsJobs_sync rfl 9
    ⟨.empty, ⟨0⟩, ⟨0⟩⟩ sluggish [.ofNanos 10, .ofNanos 5, .ofNanos 6] tallyWorld hclock
    (.error (.timeout (.ofNanos 5))) (w₁.ticks ⟨0⟩ 2)
  refine ⟨rfl, Strategy.keepsJobs_sync, rfl, hclock, w₁.ticks ⟨0⟩ 2,
    hdecide.1.2 ⟨_, w₁, 7, hsource, h7, rfl, rfl⟩, ?_⟩
  rw [World.clock_ticks]
  exact h7

end Interpreter

end EffectMachine
