import EffectMachine.Machine.Branches

/-!
# Handlers

A handler interprets one kind of node: it receives the node and the state, and answers with the
next state. The standard handlers never interpret a sub-effect themselves; they push a frame and
put the sub-effect in hand. Application code runs under a guard, so that its panics travel as
failures.
-/

namespace EffectMachine

/-- Interprets one kind of node. -/
abbrev Handler (S : Signature) := Host S → Node S → State S → Machine S (State S)

namespace Handler

variable {S : Signature}

/-- Refuse a node of another kind. -/
def misrouted (expected : Tag) (node : Node S) (st : State S) : Machine S (State S) :=
  return st.die (.misrouted expected.name node.tag.name)

/-! ### Values and sequencing -/

/-- Make the value. -/
def onPure : Handler S
  | h, .pure make, st => do
    match ← h.attempt make with
    | .ok v => return st.succeed v
    | .error d => return st.die d
  | _, node, st => misrouted .pure node st

/-- Fail. -/
def onFail : Handler S
  | _, .fail cause, st => return st.fail cause
  | _, node, st => misrouted .fail node st

/-- Build the effect and go on with it. -/
def onSuspend : Handler S
  | h, .suspend thunk, st => do return st.continueBuilt (← h.build thunk)
  | _, node, st => misrouted .suspend node st

/-- Run the source above its continuation. -/
def onBind : Handler S
  | _, .bind source next, st => return (st.push (.resume next)).continueWith source
  | _, node, st => misrouted .bind node st

/-! ### Services -/

/-- Look the service up in the context in force. -/
def onService : Handler S
  | _, .service key, st =>
    match st.context.find? key with
    | some s => return st.succeed ⟨.service, s⟩
    | none => return st.fail (.serviceNotFound key)
  | _, node, st => misrouted .service node st

/-- Build the inner context and run the inner effect in it, above a frame that reinstates the
outer one. -/
def onProvide : Handler S
  | h, .provide layer inner, st => do
    match ← h.attempt (layer.build st.context) with
    | .ok (.ok context) =>
      let st := st.push (.restoreContext st.context)
      return { st with context }.continueWith inner
    | .ok (.error missing) => return st.fail (.serviceNotFound missing.key)
    | .error d => return st.die d
  | _, node, st => misrouted .provide node st

/-! ### Time and completion -/

/-- Sleep. -/
def onSleep : Handler S
  | h, .sleep d, st => do
    h.perform (h.strategy.sleep d)
    return st.succeedUnit
  | _, node, st => misrouted .sleep node st

/-- Register on a fresh slot and await it. A registration that panics counts as failed, also
after it has settled the slot. -/
def onAsync : Handler S
  | h, .async start, st => do
    let slot ← .modifyGet World.newSlot
    match ← h.attempt (start slot) with
    | .ok () => return st.holding (.ofOutcome (← h.perform (h.strategy.await slot)))
    | .error d => return st.die d
  | _, node, st => misrouted .async node st

/-- Run the source above a frame that compares the time it took. -/
def onTimeout : Handler S
  | _, .timeout source limit, st => do
    let startedAt ← .gets fun w ↦ w.clock.nanos
    return (st.push (.timeout limit startedAt)).continueWith source
  | _, node, st => misrouted .timeout node st

/-! ### Recovery -/

/-- Run the source above its recovery. -/
def onRecover : Handler S
  | _, .recover source accepts handler, st =>
    return (st.push (.recover accepts handler)).continueWith source
  | _, node, st => misrouted .recover node st

/-- Open a retry session and run the source in it. -/
def onRetry : Handler S
  | _, .retry source schedule, st => do
    let startedAt ← .gets fun w ↦ w.clock.nanos
    let session := { source, schedule, jitter := schedule.source, attempt := 0, startedAt }
    return (st.push (.retry session)).continueWith source
  | _, node, st => misrouted .retry node st

/-! ### Branches -/

/-- Start every branch, then run the branches in order. -/
def onParallel : Handler S
  | h, .parallel branches collect, st => do
    h.nextParallel collect (← h.forkAll st.context branches) [] st
  | _, node, st => misrouted .parallel node st

/-- Start every branch, then run the branches in order until one succeeds. -/
def onRace : Handler S
  | _, .race [], st => return st.die .emptyRace
  | h, .race branches, st => do
    h.nextRace (← h.forkAll st.context branches) [] st
  | _, node, st => misrouted .race node st

/-! ### Scopes -/

/-- Open a scope and run the body in it, above a frame that closes it. -/
def onRegion : Handler S
  | h, .region body, st => do
    let child ← .modifyGet World.enterScope
    let st := st.push (.closeScope child st.scope)
    return { st with scope := child }.continueBuilt (← h.build (body child))
  | _, node, st => misrouted .region node st

/-- Register the release effect on the scope in force, together with the context in force and the
budget of the run. -/
def onFinalizer : Handler S
  | _, .finalizer release, st => do
    match ← .modifyGet fun w ↦ w.addFinalizer st.scope (.release release st.context st.budget) with
    | .ok () => return st.succeedUnit
    | .error d => return st.die d
  | _, node, st => misrouted .finalizer node st

/-- The standard handler of a kind. -/
def standard : Tag → Handler S
  | .pure => onPure
  | .fail => onFail
  | .suspend => onSuspend
  | .bind => onBind
  | .service => onService
  | .provide => onProvide
  | .sleep => onSleep
  | .async => onAsync
  | .recover => onRecover
  | .parallel => onParallel
  | .race => onRace
  | .retry => onRetry
  | .region => onRegion
  | .finalizer => onFinalizer
  | .timeout => onTimeout

end Handler

end EffectMachine
