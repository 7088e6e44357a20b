import EffectMachine.Proofs.Closures
import EffectMachine.Proofs.Computation

/-!
# The pauses of a run

A run pauses when it dispatches a sleep effect and when a retry session decides to go on after a
delay. `Interpreter.pauses` lists the pauses of a run in the order in which they are made, those in
branches included and those in release effects, which are interpreted while scopes close.

The list is read off the text of the interpreter and not off the clock. A `Ledger` tells the pauses
of a part of the machine by the world in which it begins; `Ledger.before` and `Ledger.andThen` go
from one part to the next one, in the world that the first one leaves behind. What each part adds of
its own are the pauses at its two sites, `Host.nodePauses` and `Host.consultPauses`, and those of
the scopes that it closes. Closures contribute the pauses of the scopes that they close, and nothing
else: what they sleep themselves on the clock is no pause.
-/

namespace EffectMachine

variable {S : Signature} {α β : Type}

/-- One pause of a run. -/
inductive Pause where
  /-- A sleep effect was dispatched. -/
  | slept (d : Duration)
  /-- A retry session decided to go on after a delay. -/
  | awaited (d : Duration)
deriving DecidableEq

/-- How long a pause lasts. -/
def Pause.duration : Pause → Duration
  | .slept d => d
  | .awaited d => d

/-- The pauses of a part of a run, by the world in which it begins. -/
abbrev Ledger (S : Signature) := World S → List Pause

namespace Ledger

/-- No pause. -/
def nothing : Ledger S := fun _ ↦ []

/-- A single pause. -/
def one (p : Pause) : Ledger S := fun _ ↦ [p]

/-- The pauses of a computation, and of what is done with its result. -/
def andThen (own : Ledger S) (m : Machine S α) (next : α → Ledger S) : Ledger S := fun w ↦
  own w ++ match m w with
    | (.ok a, w') => next a w'
    | (.error _, _) => []

/-- The pauses of what is done with the result of a computation that makes none itself. -/
def before (m : Machine S α) (next : α → Ledger S) : Ledger S := nothing.andThen m next

end Ledger

open Ledger (nothing one before)

/-! ### Closures -/

/-- The pauses of a closure are those of the scopes that it closes. -/
def Action.pauses (close : Closer S) (closing : ScopeId → Ledger S) : Action S α → Ledger S
  | .done _ | .panic _ => nothing
  | .read k => before (.gets World.state) fun s ↦ (k s).pauses close closing
  | .write s k => before (.modify fun w ↦ { w with state := s }) fun _ ↦ k.pauses close closing
  | .now k => before (.gets fun w ↦ w.clock.nanos) fun t ↦ (k t).pauses close closing
  | .advance d k =>
    before (.modify fun w ↦ w.modifyClock fun c ↦ c.advance d) fun _ ↦ k.pauses close closing
  | .sleep d k =>
    before (.modify fun w ↦ w.modifyClock fun c ↦ c.sleep d) fun _ ↦ k.pauses close closing
  | .draw k => before (.modifyGet World.draw) fun x ↦ (k x).pauses close closing
  | .openScope k => before (.modifyGet World.openScope) fun s ↦ (k s).pauses close closing
  | .addCleanup s c k =>
    before (.modifyGet fun w ↦ w.addFinalizer s (.cleanup c)) fun r ↦ (k r).pauses close closing
  | .closeScope s k => (closing s).andThen (close s) fun r ↦ (k r).pauses close closing
  | .inspect s k => before (.gets fun w ↦ (w.scope s).status) fun r ↦ (k r).pauses close closing
  | .settle s o k => before (.modifyGet fun w ↦ w.settle s o) fun r ↦ (k r).pauses close closing
  | .take s k => before (.modifyGet fun w ↦ w.takeOutcome s) fun r ↦ (k r).pauses close closing

/-! ### Handlers and frames -/

namespace Host

variable (h : Host S) (closing : ScopeId → Ledger S)

/-- The pauses of a closure. -/
def pauses (a : Action S α) : Ledger S := a.pauses h.close closing

/-- The pauses of starting the next branch, or of collecting values when none is left. -/
def parallelPauses (collect : List Value → Action S (Except Defect Value)) :
    List (Fork S) → List Value → Ledger S
  | [], collected => h.pauses closing (collect collected.reverse)
  | f :: rest, collected => before (h.turn f) fun
    | .settled (.ok v) => parallelPauses collect rest (v :: collected)
    | .settled (.error _) | .run _ => nothing

/-- The pauses of dispatching a node. A sleep effect pauses for its duration. -/
def nodePauses (node : Node S) (st : State S) : Ledger S :=
  match node with
  | .sleep d => one (.slept d)
  | .pure make => h.pauses closing make
  | .suspend thunk => h.pauses closing (h.program.building thunk)
  | .provide layer _ => h.pauses closing (layer.build st.context)
  | .async start => before (.modifyGet World.newSlot) fun slot ↦ h.pauses closing (start slot)
  | .parallel branches collect => before (h.forkAll st.context branches) fun fs ↦
    h.parallelPauses closing collect fs []
  | .region body => before (.modifyGet World.enterScope) fun child ↦
    h.pauses closing (h.program.building (body child))
  | .fail _ | .bind _ _ | .service _ | .timeout _ _ | .recover _ _ _ | .race _ | .retry _ _
  | .finalizer _ => nothing

/-- The pauses of handing a value to a frame. -/
def resumePauses (f : Frame S) (v : Value) : Ledger S :=
  match f with
  | .resume next => h.pauses closing (h.program.continuing (next v))
  | .parallel rest collected collect => h.parallelPauses closing collect rest (v :: collected)
  | .closeScope scope _ => closing scope
  | .recover _ _ | .retry _ | .race _ _ | .restoreContext _ | .timeout _ _ => nothing

/-- The pauses of consulting the schedule of a retry session. If that decides to go on, there is a
pause for the delay. -/
def consultPauses (session : RetrySession S) (cause : Cause S.Error) : Ledger S :=
  match cause with
  | .fail error => before (.gets fun w ↦ w.clock.since session.startedAt) fun elapsed ↦
    let decide := session.schedule.decideFrom session.jitter ⟨session.attempt, elapsed, error⟩
    (h.pauses closing decide).andThen (h.attempt decide) fun
      | .ok (.retry delay, _) => one (.awaited delay)
      | .ok (.stop, _) | .error _ => nothing
  | _ => nothing

/-- The pauses of handing a failure to a frame. -/
def fallPauses (f : Frame S) (cause : Cause S.Error) : Ledger S :=
  match f with
  | .closeScope scope _ => closing scope
  | .recover accepts handler =>
    (h.pauses closing (accepts cause)).andThen (h.attempt (accepts cause)) fun
      | .ok true => h.pauses closing (h.program.building (handler cause))
      | .ok false | .error _ => nothing
  | .retry session => h.consultPauses closing session cause
  | .resume _ | .timeout _ _ | .parallel _ _ _ | .race _ _ | .restoreContext _ => nothing

/-- The pauses of unwinding a stack. -/
def unwindPauses : List (Frame S) → Cause S.Error → State S → Ledger S
  | [], _, _ => nothing
  | f :: rest, cause, st =>
    (h.fallPauses closing f cause).andThen (h.fall f cause { st with stack := rest }) fun
      | .caught _ => nothing
      | .on cause st => unwindPauses rest cause st

/-- The pauses of an abort. -/
def abortPauses : List (Frame S) → Cause S.Error → Ledger S
  | [], _ => nothing
  | .closeScope scope _ :: rest, cause =>
    (closing scope).andThen (h.closing scope cause) fun cause ↦ abortPauses rest cause
  | _ :: rest, cause => abortPauses rest cause

/-! ### Scopes that close -/

section

variable (release : Releaser S) (releasing : Node S → Context → BudgetId → Ledger S)

/-- The pauses of running a finalizer. -/
def finalizerPauses : Finalizer S → Ledger S
  | .cleanup c => h.pauses closing (h.program.cleanup c)
  | .release build context budget =>
    (h.pauses closing (h.program.building build)).andThen (h.build build) fun
      | .error _ => nothing
      | .ok node => releasing node context budget

/-- The pauses of invoking a finalizer of a scope. -/
def invokePauses (s : ScopeId) (f : Finalizer S) : Ledger S :=
  before (.modify fun w ↦ w.record (.invoked s f)) fun _ ↦ h.finalizerPauses closing releasing f

/-- The pauses of invoking finalizers one after the other. -/
def invokeAllPauses (s : ScopeId) : List (Finalizer S) → Ledger S
  | [] => nothing
  | f :: fs => (h.invokePauses closing releasing s f).andThen (h.invoke release s f) fun _ ↦
    invokeAllPauses s fs

/-- The pauses of closing a scope. -/
def shutPauses (s : ScopeId) : Ledger S :=
  before (.gets fun w ↦ w.scope s) fun scope ↦
    if scope.closed then nothing
    else before (.modify fun w ↦ w.shutScope s) fun _ ↦
      h.invokeAllPauses closing release releasing s scope.finalizers

end

end Host

/-! ### Runs -/

namespace Interpreter

variable (it : Interpreter S)

section

variable (close : Closer S) (closing : ScopeId → Ledger S)

/-- The pauses of acting on what is held in hand. -/
def advancePauses (st : State S) : Ledger S :=
  match st.control, st.stack with
  | .effect node, _ => (it.host close).nodePauses closing node st.awaiting
  | .value v, f :: _ => (it.host close).resumePauses closing f v
  | .failure cause, stack =>
    (it.host close).unwindPauses closing stack cause { st.awaiting with stack := [] }
  | .value _, [] | .pending, _ => nothing

/-- The pauses of a round. -/
def stepPauses (budget : BudgetId) (st : State S) : Ledger S :=
  before (it.tick budget) fun
    | some limit => before (.modify fun w ↦ w.record (.exceeded budget limit)) fun _ ↦
      before (.modify fun w ↦ w.modifyBudget st.budget Budget.beginAbort) fun _ ↦
        (it.host close).abortPauses closing st.stack (.defect (.stepLimitExceeded limit))
    | none => it.advancePauses close closing st

/-- The pauses of the loop. -/
def drivePauses (budget : BudgetId) : Nat → State S → Ledger S
  | 0, _ => nothing
  | fuel + 1, st => (it.stepPauses close closing budget st).andThen (it.step close budget st) fun
    | .running st => drivePauses budget fuel st
    | .settled _ => nothing

/-- The pauses of an interpretation, the closing of its root scope included. -/
def interpretWithPauses (fuel : Nat) (node : Node S) (context : Context) (budget : BudgetId) :
    Ledger S :=
  before (.modifyGet World.enterScope) fun root ↦
    (it.drivePauses close closing budget fuel (.start node context root budget)).andThen
      (it.drive close budget fuel (.start node context root budget)) fun _ ↦ closing root

end

/-- The pauses of closing a scope, by how deep scopes may close in each other. -/
def closeScopePauses : Nat → ScopeId → Ledger S
  | 0, _ => nothing
  | fuel + 1, s =>
    (it.host (it.closeScope fuel)).shutPauses (closeScopePauses fuel)
      (it.interpretWith (it.closeScope fuel) fuel)
      (it.interpretWithPauses (it.closeScope fuel) (closeScopePauses fuel) fuel) s

/-- The pauses of a run. -/
def pauses (fuel : Nat) (node : Node S) (context : Context) : Ledger S :=
  before (.modifyGet fun w ↦ w.newBudget {}) fun budget ↦
    it.interpretWithPauses (it.closeScope fuel) (it.closeScopePauses fuel) fuel node context budget

end Interpreter

end EffectMachine
