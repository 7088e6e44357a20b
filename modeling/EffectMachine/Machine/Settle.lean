import EffectMachine.Machine.Registry

/-!
# Settling

What happens when the effect in hand has settled. A value goes to the newest frame
(`Host.resume`). A failure takes frames off the stack (`Host.unwind`) and is handed to one after
the other (`Host.fall`) until one of them recovers; scopes are closed on its way. An abort
(`Host.abort`) takes every frame off and lets none recover.
-/

namespace EffectMachine

/-- Close a scope and add the failures of its finalizers to a cause. -/
def Host.closing {S : Signature} (h : Host S) (scope : ScopeId) (cause : Cause S.Error) :
    Machine S (Cause S.Error) := do
  match ← h.close scope with
  | .ok () => return cause
  | .error failures => return cause.combine failures

/-- What becomes of a retry session after a cause. -/
inductive RetryVerdict (S : Signature) where
  /-- The failure travels on with this cause. -/
  | giveUp (cause : Cause S.Error)
  /-- The source runs again. -/
  | again (session : RetrySession S)

/-- What becomes of a failure at a frame. -/
inductive Fall (S : Signature) where
  /-- The failure travels on with this cause. -/
  | on (cause : Cause S.Error) (st : State S)
  /-- The frame recovers. -/
  | caught (st : State S)

/-- Consult the schedule of a retry session. Only a bare error is a reason to try again; the
schedule's delay is slept here. -/
def Host.consult {S : Signature} (h : Host S) (session : RetrySession S) (cause : Cause S.Error) :
    Machine S (RetryVerdict S) := do
  match cause with
  | .fail error =>
    let elapsed ← .gets fun w ↦ w.clock.since session.startedAt
    let failed := ⟨session.attempt, elapsed, error⟩
    match ← h.attempt (session.schedule.decideFrom session.jitter failed) with
    | .ok (.retry delay, jitter) =>
      h.perform (h.strategy.sleep delay)
      return .again { session with jitter, attempt := session.attempt + 1 }
    | .ok (.stop, _) => return .giveUp cause
    | .error d => return .giveUp (cause.combine (.defect d))
  | _ => return .giveUp cause

namespace Host

variable {S : Signature}

/-- Hand a value to a frame that has been taken off the stack. -/
def resume (h : Host S) (f : Frame S) (v : Value) (st : State S) : Machine S (State S) :=
  match f with
  | .resume next => do
    match ← h.attempt (do h.program.control (← next v)) with
    | .ok control => return st.holding control
    | .error d => return st.die d
  | .recover _ _ | .retry _ | .race _ _ => return st.succeed v
  | .parallel rest collected collect => h.nextParallel collect rest (v :: collected) st
  | .restoreContext context => return { st with context }.succeed v
  | .closeScope scope parent => do
    let st := { st with scope := parent }
    match ← h.close scope with
    | .ok () => return st.succeed v
    | .error failures => return st.fail failures
  | .timeout limit startedAt => do
    let elapsed ← .gets fun w ↦ w.clock.since startedAt
    return if limit < elapsed then st.fail (.timeout limit) else st.succeed v

/-- Hand a failure to a frame that has been taken off the stack. -/
def fall (h : Host S) (f : Frame S) (cause : Cause S.Error) (st : State S) :
    Machine S (Fall S) :=
  match f with
  | .resume _ | .timeout _ _ | .parallel _ _ _ => return .on cause st
  | .restoreContext context => return .on cause { st with context }
  | .closeScope scope parent => do
    return .on (← h.closing scope cause) { st with scope := parent }
  | .race branches failures => do
    return .caught (← h.nextRace branches (cause :: failures) st)
  | .recover accepts handler => do
    match ← h.attempt (accepts cause) with
    | .ok true => return .caught (st.continueBuilt (← h.build (handler cause)))
    | .ok false => return .on cause st
    | .error d => return .on (cause.combine (.defect d)) st
  | .retry session => do
    match ← h.consult session cause with
    | .again session => return .caught ((st.push (.retry session)).continueWith session.source)
    | .giveUp cause => return .on cause st

/-- Take frames off a stack until one recovers from the cause. The answer is the state to go on
with, or the cause with which the interpretation fails. -/
def unwind (h : Host S) :
    List (Frame S) → Cause S.Error → State S → Machine S (Outcome S.Error (State S))
  | [], cause, _ => return .error cause
  | f :: rest, cause, st => do
    match ← h.fall f cause { st with stack := rest } with
    | .caught st => return .ok st
    | .on cause st => h.unwind rest cause st

/-- Close every scope that a stack has open, newest first. -/
def abort (h : Host S) : List (Frame S) → Cause S.Error → Machine S (Cause S.Error)
  | [], cause => return cause
  | .closeScope scope _ :: rest, cause => do h.abort rest (← h.closing scope cause)
  | _ :: rest, cause => h.abort rest cause

end Host

end EffectMachine
