import EffectMachine.Proofs.Computation

/-!
# Rounds of the machine

What the loop does, one equation for each kind of node that may be in hand and for each kind of
frame that an outcome may meet. `Interpreter.pursue` is a round after its step has been counted,
followed by the rest of the loop. Counting is left out of it because a failure passes several
frames in one round: handing a failure on to the next frame is an equation between rounds only as
long as no step is counted in between.
-/

namespace EffectMachine

variable {S : Signature}

/-- Standard handlers are found under the kind of the node. -/
theorem Registry.dispatch_standard (h : Host S) (node : Node S) (st : State S) :
    Registry.standard.dispatch h node st = Handler.standard node.tag h node st := by
  cases node <;> rfl

/-- Unwinding does not look at the stack of the state that it is given. -/
theorem Host.unwind_stack (h : Host S) (fs : List (Frame S)) (cause : Cause S.Error)
    (st : State S) (stack : List (Frame S)) :
    h.unwind fs cause { st with stack } = h.unwind fs cause st := by
  cases fs <;> rfl

/-! ### Branches that are put off -/

/-- The forks of branches that wait for their turn, numbered on from a number. -/
def deferredForks (context : Context) : Nat → List (Node S) → List (Fork S)
  | _, [] => []
  | i, n :: ns => ⟨i + 1, .deferred ⟨n, context⟩⟩ :: deferredForks context (i + 1) ns

/-- Starting branches puts them off and numbers them. -/
theorem Host.forkAll_sync (h : Host S) (hs : h.strategy = .sync) (context : Context)
    (ns : List (Node S)) :
    h.forkAll context ns = .gets World.forks >>= fun i ↦
      .modify (fun w ↦ { w with forks := w.forks + ns.length }) >>= fun _ ↦
        pure (deferredForks context i ns) := by
  induction ns with
  | nil => rfl
  | cons n ns ih =>
    funext w
    rw [forkAll, ih]
    simp only [Host.fork, hs, Strategy.sync]
    show (Except.ok _, _) = (Except.ok _, _)
    simp [deferredForks, World.newFork, Nat.add_comm, Nat.add_left_comm]

namespace Interpreter

variable (it : Interpreter S) (close : Closer S) (budget : BudgetId)

/-- The interpreter of a program with the standard strategy and handlers and without a step
limit. -/
def plain (p : Program S) (name : String) (traceSteps : Bool) : Interpreter S where
  program := p
  config := { name, traceSteps }

/-- Interpreters with the standard strategy and handlers and without a step limit. -/
structure IsPlain : Prop where
  registry : it.registry = .standard
  strategy : it.strategy = .sync
  stepLimit : it.config.stepLimit = none

theorem isPlain_plain (p : Program S) (name : String) (traceSteps : Bool) :
    (plain p name traceSteps).IsPlain :=
  ⟨rfl, rfl, rfl⟩

/-- The loop as a computation. -/
def rounds (fuel : Nat) (st : State S) : Machine S (Outcome S.Error Value) :=
  it.drive close budget fuel st

/-- A round after its step has been counted, and the rest of the loop. -/
def pursue (fuel : Nat) (st : State S) : Machine S (Outcome S.Error Value) := do
  match ← it.advance close st with
  | .running st => it.rounds close budget fuel st
  | .settled outcome => return outcome

/-- A round after its step has been counted, and the rest of the loop, by how deep scopes may close
and by fuel. -/
def runs (C : Nat → Closer S) (b : BudgetId) (st : State S) (i n : Nat) :
    Machine S (Outcome S.Error Value) :=
  it.pursue (C i) b n st

theorem rounds_zero (st : State S) : it.rounds close budget 0 st = .escape .exhausted := rfl

/-- Without a limit a round of the loop counts its step and goes on. -/
theorem rounds_succ (hl : it.config.stepLimit = none) (fuel : Nat) (st : State S) :
    it.rounds close budget (fuel + 1) st =
      .modify (fun w ↦ w.modifyBudget budget Budget.tick) >>= fun _ ↦
        it.pursue close budget fuel st := by
  funext w
  have hstep : it.step close budget st w =
      it.advance close st (w.modifyBudget budget Budget.tick) := by
    have htick : it.tick budget w = (.ok none, w.modifyBudget budget Budget.tick) := by
      show (Except.ok (Budget.exceeds _ it.config.stepLimit), _) = _
      rw [hl]
      rfl
    rw [step, Machine.bind_ok htick]
  show it.drive close budget (fuel + 1) st w =
    it.pursue close budget fuel st (w.modifyBudget budget Budget.tick)
  rw [drive, hstep, pursue, Machine.bind_apply]
  rcases it.advance close st (w.modifyBudget budget Budget.tick) with ⟨_ | (st' | o), w'⟩ <;> rfl

/-! ### An effect in hand -/

section Effect

variable (hr : it.registry = .standard) (fuel : Nat) (st : State S)
include hr

/-- An effect goes to the standard handler of its kind. -/
theorem pursue_effect (node : Node S) :
    it.pursue close budget fuel (st.continueWith node) =
      Handler.standard node.tag (it.host close) node st.awaiting >>= fun next ↦
        it.rounds close budget fuel
          (if next.control.isPending then next.die (.stalled node.tag.name) else next) := by
  show (it.dispatch close node st.awaiting >>= fun next ↦ pure (Progress.running next)) >>= _ = _
  rw [dispatch, hr, Registry.dispatch_standard]
  simp only [bind_assoc, pure_bind]

theorem pursue_pure (make : Action S Value) :
    it.pursue close budget fuel (st.continueWith (.pure make)) =
      (it.host close).attempt make >>= fun x ↦
        it.rounds close budget fuel (st.holding (.ofOutcome (x.mapError .defect))) := by
  rw [it.pursue_effect close budget hr]
  simp only [Node.tag, Handler.standard, Handler.onPure, bind_assoc]
  refine bind_congr fun x ↦ ?_
  cases x <;> rfl

theorem pursue_fail (cause : Cause S.Error) :
    it.pursue close budget fuel (st.continueWith (.fail cause)) =
      it.rounds close budget fuel (st.fail cause) := by
  rw [it.pursue_effect close budget hr]
  rfl

theorem pursue_suspend (thunk : Action S (Plan S)) :
    it.pursue close budget fuel (st.continueWith (.suspend thunk)) =
      (it.host close).build thunk >>= fun x ↦
        it.rounds close budget fuel (st.continueBuilt x) := by
  rw [it.pursue_effect close budget hr]
  simp only [Node.tag, Handler.standard, Handler.onSuspend, bind_assoc, pure_bind]
  refine bind_congr fun x ↦ ?_
  cases x <;> rfl

theorem pursue_bind (source : Node S) (next : Value → Action S (Step S)) :
    it.pursue close budget fuel (st.continueWith (.bind source next)) =
      it.rounds close budget fuel ((st.push (.resume next)).continueWith source) := by
  rw [it.pursue_effect close budget hr]
  rfl

theorem pursue_service (key : Key) :
    it.pursue close budget fuel (st.continueWith (.service key)) =
      it.rounds close budget fuel (st.holding (.ofOutcome
        (match st.context.find? key with
          | some s => .ok ⟨.service, s⟩
          | none => .error (.serviceNotFound key)))) := by
  rw [it.pursue_effect close budget hr]
  simp only [Node.tag, Handler.standard, Handler.onService]
  show (match st.context.find? key with | some s => _ | none => _) >>= _ = _
  cases st.context.find? key <;> rfl

theorem pursue_provide (layer : Layer S) (inner : Node S) :
    it.pursue close budget fuel (st.continueWith (.provide layer inner)) =
      (it.host close).attempt (layer.build st.context) >>= fun x ↦
        it.rounds close budget fuel (match x with
          | .ok (.ok context) =>
            { st.push (.restoreContext st.context) with context }.continueWith inner
          | .ok (.error missing) => st.fail (.serviceNotFound missing.key)
          | .error d => st.die d) := by
  rw [it.pursue_effect close budget hr]
  simp only [Node.tag, Handler.standard, Handler.onProvide, bind_assoc]
  refine bind_congr fun x ↦ ?_
  rcases x with _ | _ | _ <;> rfl

theorem pursue_timeout (source : Node S) (limit : Duration) :
    it.pursue close budget fuel (st.continueWith (.timeout source limit)) =
      .gets (fun w ↦ w.clock.nanos) >>= fun startedAt ↦
        it.rounds close budget fuel ((st.push (.timeout limit startedAt)).continueWith source) := by
  rw [it.pursue_effect close budget hr]
  rfl

theorem pursue_recover (source : Node S) (accepts : Cause S.Error → Action S Bool)
    (handler : Cause S.Error → Action S (Plan S)) :
    it.pursue close budget fuel (st.continueWith (.recover source accepts handler)) =
      it.rounds close budget fuel ((st.push (.recover accepts handler)).continueWith source) := by
  rw [it.pursue_effect close budget hr]
  rfl

theorem pursue_retry (source : Node S) (schedule : Schedule S) :
    it.pursue close budget fuel (st.continueWith (.retry source schedule)) =
      .gets (fun w ↦ w.clock.nanos) >>= fun startedAt ↦
        it.rounds close budget fuel
          ((st.push (.retry ⟨source, schedule, schedule.source, 0, startedAt⟩)).continueWith
            source) := by
  rw [it.pursue_effect close budget hr]
  rfl

theorem pursue_region (body : ScopeId → Action S (Plan S)) :
    it.pursue close budget fuel (st.continueWith (.region body)) =
      .modifyGet World.enterScope >>= fun child ↦ (it.host close).build (body child) >>= fun x ↦
        it.rounds close budget fuel
          ({ st.push (.closeScope child st.scope) with scope := child }.continueBuilt x) := by
  rw [it.pursue_effect close budget hr]
  simp only [Node.tag, Handler.standard, Handler.onRegion, bind_assoc, pure_bind]
  refine bind_congr fun child ↦ bind_congr fun x ↦ ?_
  cases x <;> rfl

theorem pursue_finalizer (release : Action S (Plan S)) :
    it.pursue close budget fuel (st.continueWith (.finalizer release)) =
      .modifyGet (fun w ↦
        w.addFinalizer st.scope (.release release st.context st.budget)) >>= fun x ↦
        it.rounds close budget fuel
          (st.holding (.ofOutcome ((x.map fun _ ↦ .unit).mapError .defect))) := by
  rw [it.pursue_effect close budget hr]
  simp only [Node.tag, Handler.standard, Handler.onFinalizer, bind_assoc]
  refine bind_congr fun x ↦ ?_
  cases x <;> rfl

section Sync

variable (hs : it.strategy = .sync)
include hs

theorem pursue_sleep (d : Duration) :
    it.pursue close budget fuel (st.continueWith (.sleep d)) =
      .modify (fun w ↦ w.modifyClock fun c ↦ c.sleep d) >>= fun _ ↦
        it.rounds close budget fuel st.succeedUnit := by
  rw [it.pursue_effect close budget hr]
  simp only [Node.tag, Handler.standard, Handler.onSleep, bind_assoc, host, hs, Strategy.sync,
    Host.perform_sleep]
  rfl

theorem pursue_async (start : SlotId → Action S Unit) :
    it.pursue close budget fuel (st.continueWith (.async start)) =
      .modifyGet World.newSlot >>= fun slot ↦ (it.host close).attempt (start slot) >>= fun
        | .ok () => .modifyGet (fun w ↦ w.takeOutcome slot) >>= fun o ↦
          it.rounds close budget fuel
            (st.holding (.ofOutcome (o.getD (.error (.defect .neverSettled)))))
        | .error d => it.rounds close budget fuel (st.die d) := by
  rw [it.pursue_effect close budget hr]
  simp only [Node.tag, Handler.standard, Handler.onAsync, bind_assoc]
  refine bind_congr fun slot ↦ bind_congr fun x ↦ ?_
  cases x with
  | error d => rfl
  | ok u =>
    simp only [bind_assoc, host, hs, Strategy.sync, Strategy.takeOrFail, Host.perform_take]
    refine bind_congr fun o ↦ ?_
    rcases o with _ | _ | _ <;> rfl

theorem pursue_parallel (branches : List (Node S))
    (collect : List Value → Action S (Except Defect Value)) :
    it.pursue close budget fuel (st.continueWith (.parallel branches collect)) =
      .gets World.forks >>= fun i ↦
        .modify (fun w ↦ { w with forks := w.forks + branches.length }) >>= fun _ ↦
        (it.host close).nextParallel collect (deferredForks st.context i branches) []
          st.awaiting >>= it.rounds close budget fuel := by
  rw [it.pursue_effect close budget hr]
  simp only [Node.tag, Handler.standard, Handler.onParallel, bind_assoc,
    Host.forkAll_sync (it.host close) hs, pure_bind]
  refine bind_congr fun i ↦ bind_congr fun _ ↦ ?_
  cases branches with
  | cons n ns => rfl
  | nil =>
    simp only [deferredForks, Host.nextParallel, bind_assoc]
    refine bind_congr fun x ↦ ?_
    rcases x with _ | _ | _ <;> rfl

theorem pursue_race (n : Node S) (ns : List (Node S)) :
    it.pursue close budget fuel (st.continueWith (.race (n :: ns))) =
      .gets World.forks >>= fun i ↦
        .modify (fun w ↦ { w with forks := w.forks + (n :: ns).length }) >>= fun _ ↦
        (it.host close).nextRace (deferredForks st.context i (n :: ns)) []
          st.awaiting >>= it.rounds close budget fuel := by
  rw [it.pursue_effect close budget hr]
  simp only [Node.tag, Handler.standard, Handler.onRace, bind_assoc,
    Host.forkAll_sync (it.host close) hs, pure_bind]
  rfl

end Sync

theorem pursue_race_nil :
    it.pursue close budget fuel (st.continueWith (.race [])) =
      it.rounds close budget fuel (st.die .emptyRace) := by
  rw [it.pursue_effect close budget hr]
  rfl

end Effect

/-! ### An outcome in hand -/

section Outcome

variable (fuel : Nat) (st : State S) (v : Value) (cause : Cause S.Error)

/-- An outcome that meets no frame is the outcome of the interpretation. -/
theorem pursue_settled (hst : st.stack = []) (o : Outcome S.Error Value) :
    it.pursue close budget fuel (st.holding (.ofOutcome o)) = pure o := by
  obtain ⟨context, stack, scope, control, b⟩ := st
  cases hst
  cases o <;> rfl

/-- An empty hand is a defect. -/
theorem pursue_pending :
    it.pursue close budget fuel (st.holding .pending) =
      it.rounds close budget fuel (st.die (.stalled "pending")) := rfl

/-- A value goes to the newest frame. -/
theorem pursue_value (f : Frame S) :
    it.pursue close budget fuel ((st.push f).succeed v) =
      (it.host close).resume f v st.awaiting >>= it.rounds close budget fuel := by
  show ((it.host close).resume f v st.awaiting >>= fun st ↦ pure (Progress.running st)) >>= _ = _
  simp only [bind_assoc, pure_bind]

/-- A failure goes down the stack. -/
theorem pursue_failure :
    it.pursue close budget fuel (st.fail cause) =
      (it.host close).unwind st.stack cause st.awaiting >>= fun
        | .ok st => it.rounds close budget fuel st
        | .error cause => pure (.error cause) := by
  show ((it.host close).unwind st.stack cause { st.awaiting with stack := [] } >>= _) >>= _ = _
  rw [Host.unwind_stack]
  simp only [bind_assoc]
  refine bind_congr fun x ↦ ?_
  cases x <;> rfl

/-- A failure falls on the newest frame first. -/
theorem pursue_failure_push (f : Frame S) :
    it.pursue close budget fuel ((st.push f).fail cause) =
      (it.host close).fall f cause st.awaiting >>= fun
        | .caught st => it.rounds close budget fuel st
        | .on cause st' => (it.host close).unwind st.stack cause st' >>= fun
          | .ok st => it.rounds close budget fuel st
          | .error cause => pure (.error cause) := by
  rw [pursue_failure]
  show ((it.host close).fall f cause st.awaiting >>= _) >>= _ = _
  simp only [bind_assoc]
  refine bind_congr fun x ↦ ?_
  cases x <;> rfl

/-- What a continuation answers is held in hand. -/
theorem pursue_value_resume (next : Value → Action S (Step S)) :
    it.pursue close budget fuel ((st.push (.resume next)).succeed v) =
      (it.host close).attempt (do it.program.control (← next v)) >>= fun x ↦
        it.rounds close budget fuel (match x with
          | .ok control => st.holding control
          | .error d => st.die d) := by
  rw [pursue_value]
  simp only [Host.resume, bind_assoc]
  refine bind_congr fun x ↦ ?_
  cases x <;> rfl

theorem pursue_value_timeout (limit : Duration) (startedAt : Nat) :
    it.pursue close budget fuel ((st.push (.timeout limit startedAt)).succeed v) =
      .gets (fun w ↦ w.clock.since startedAt) >>= fun elapsed ↦
        it.rounds close budget fuel
          (st.holding (.ofOutcome
            (if limit < elapsed then .error (.timeout limit) else .ok v))) := by
  rw [pursue_value]
  simp only [Host.resume, bind_assoc]
  refine bind_congr fun elapsed ↦ ?_
  split <;> rfl

/-- Frames that only wait for a value let failures pass. -/
theorem pursue_failure_resume (next : Value → Action S (Step S)) :
    it.pursue close budget fuel ((st.push (.resume next)).fail cause) =
      it.pursue close budget fuel (st.fail cause) := by
  rw [pursue_failure_push, pursue_failure]
  rfl

theorem pursue_failure_timeout (limit : Duration) (startedAt : Nat) :
    it.pursue close budget fuel ((st.push (.timeout limit startedAt)).fail cause) =
      it.pursue close budget fuel (st.fail cause) := by
  rw [pursue_failure_push, pursue_failure]
  rfl

theorem pursue_failure_parallel (rest : List (Fork S)) (collected : List Value)
    (collect : List Value → Action S (Except Defect Value)) :
    it.pursue close budget fuel ((st.push (.parallel rest collected collect)).fail cause) =
      it.pursue close budget fuel (st.fail cause) := by
  rw [pursue_failure_push, pursue_failure]
  rfl

/-- A recovery is asked about a failure. -/
theorem pursue_failure_recover (accepts : Cause S.Error → Action S Bool)
    (handler : Cause S.Error → Action S (Plan S)) :
    it.pursue close budget fuel ((st.push (.recover accepts handler)).fail cause) =
      (it.host close).attempt (accepts cause) >>= fun
        | .ok true => (it.host close).build (handler cause) >>= fun x ↦
          it.rounds close budget fuel (st.continueBuilt x)
        | .ok false => it.pursue close budget fuel (st.fail cause)
        | .error d => it.pursue close budget fuel (st.fail (cause.combine (.defect d))) := by
  rw [pursue_failure_push]
  simp only [Host.fall, bind_assoc]
  refine bind_congr fun x ↦ ?_
  rcases x with d | _ | _
  · simp only [pursue_failure]
    rfl
  · simp only [pursue_failure]
    rfl
  · simp only [bind_assoc, pure_bind]
    refine bind_congr fun x ↦ ?_
    cases x <;> rfl

/-- A race goes on with its next branch. -/
theorem pursue_failure_race (rest : List (Fork S)) (failures : List (Cause S.Error)) :
    it.pursue close budget fuel ((st.push (.race rest failures)).fail cause) =
      (it.host close).nextRace rest (cause :: failures) st.awaiting >>=
        it.rounds close budget fuel := by
  rw [pursue_failure_push]
  simp only [Host.fall, bind_assoc, pure_bind]

/-- Only a bare error makes a session try again. -/
theorem pursue_failure_retry (session : RetrySession S) (hc : cause.isFail = false) :
    it.pursue close budget fuel ((st.push (.retry session)).fail cause) =
      it.pursue close budget fuel (st.fail cause) := by
  rw [pursue_failure_push, pursue_failure]
  cases cause <;> first | rfl | cases hc

/-- A session whose source failed with an error consults its schedule. -/
theorem pursue_fail_retry (hs : it.strategy = .sync) (session : RetrySession S)
    (error : S.Error) :
    it.pursue close budget fuel ((st.push (.retry session)).fail (.fail error)) =
      .gets (fun w ↦ w.clock.since session.startedAt) >>= fun elapsed ↦
        (it.host close).attempt
          (session.schedule.decideFrom session.jitter ⟨session.attempt, elapsed, error⟩) >>= fun
        | .ok (.retry delay, jitter) =>
          .modify (fun w ↦ w.modifyClock fun c ↦ c.sleep delay) >>= fun _ ↦
            it.rounds close budget fuel
              ((st.push
                (.retry { session with jitter, attempt := session.attempt + 1 })).continueWith
                session.source)
        | .ok (.stop, _) => it.pursue close budget fuel (st.fail (.fail error))
        | .error d =>
          it.pursue close budget fuel (st.fail ((Cause.fail error).combine (.defect d))) := by
  rw [pursue_failure_push]
  simp only [Host.fall, Host.consult, bind_assoc]
  refine bind_congr fun elapsed ↦ bind_congr fun x ↦ ?_
  rcases x with d | ⟨_ | delay, jitter⟩
  · simp only [pursue_failure]
    rfl
  · simp only [pursue_failure]
    rfl
  · simp only [bind_assoc, host, hs, Strategy.sync, Host.perform_sleep]
    rfl

/-- The outer context is in force again, whatever the outcome. -/
theorem pursue_restoreContext (context : Context) (o : Outcome S.Error Value) :
    it.pursue close budget fuel ((st.push (.restoreContext context)).holding (.ofOutcome o)) =
      match o with
      | .ok v => it.rounds close budget fuel ({ st with context }.succeed v)
      | .error cause => it.pursue close budget fuel ({ st with context }.fail cause) := by
  cases o with
  | ok v => exact it.pursue_value close budget fuel st v _
  | error cause =>
    refine (it.pursue_failure_push close budget fuel st cause _).trans ?_
    simp only [pursue_failure]
    rfl

/-- The scope is closed and the outer one is in force again, whatever the outcome. -/
theorem pursue_closeScope (scope parent : ScopeId) (o : Outcome S.Error Value) :
    it.pursue close budget fuel ((st.push (.closeScope scope parent)).holding (.ofOutcome o)) =
      close scope >>= fun r ↦ match o, o.merge r with
        | .ok _, o => it.rounds close budget fuel
          ({ st with scope := parent }.holding (.ofOutcome o))
        | .error _, o => it.pursue close budget fuel
          ({ st with scope := parent }.holding (.ofOutcome o)) := by
  cases o with
  | ok v =>
    refine (it.pursue_value close budget fuel st v _).trans ?_
    simp only [Host.resume, bind_assoc, host]
    refine bind_congr fun r ↦ ?_
    rcases r with _ | ⟨⟩ <;> rfl
  | error cause =>
    refine (it.pursue_failure_push close budget fuel st cause _).trans ?_
    simp only [Host.fall, Host.closing, bind_assoc, host]
    refine bind_congr fun r ↦ ?_
    rcases r with _ | ⟨⟩
    · refine Eq.trans ?_ (it.pursue_failure close budget fuel _ _).symm
      rfl
    · refine Eq.trans ?_ (it.pursue_failure close budget fuel _ _).symm
      rfl

end Outcome

end Interpreter

end EffectMachine
