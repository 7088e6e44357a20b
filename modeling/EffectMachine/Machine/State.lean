import EffectMachine.Machine.Fork

/-!
# Frames and states

What must happen after an effect has settled is a `Frame` on the stack of the interpretation. A
`State` is everything one interpretation owns: the context and the scope in force, the stack with
the newest frame first, the step budget it counts on, and what it holds in hand.
-/

namespace EffectMachine

/-- A retry session in progress. -/
structure RetrySession (S : Signature) where
  source : Node S
  schedule : Schedule S
  /-- Where the session draws its jitter from. -/
  jitter : JitterSource
  /-- Retries already made. -/
  attempt : Nat
  /-- The clock's reading at the first attempt. -/
  startedAt : Nat

/-- Work that waits for the effect above it to settle. -/
inductive Frame (S : Signature) where
  /-- Hand a value to a continuation. -/
  | resume (next : Value → Action S (Step S))
  /-- Recover from causes that a predicate accepts. -/
  | recover (accepts : Cause S.Error → Action S Bool)
      (handler : Cause S.Error → Action S (Plan S))
  /-- Reinstate the context outside a provided effect. -/
  | restoreContext (context : Context)
  /-- Close a scope and reinstate its parent. -/
  | closeScope (scope parent : ScopeId)
  /-- Try again after an error while the schedule allows it. -/
  | retry (session : RetrySession S)
  /-- Compare the time taken with a limit. -/
  | timeout (limit : Duration) (startedAt : Nat)
  /-- Collect a branch's value and start the next branch. Values are newest first. -/
  | parallel (rest : List (Fork S)) (collected : List Value)
      (collect : List Value → Action S (Except Defect Value))
  /-- Record a branch's failure and start the next branch. Causes are newest first. -/
  | race (rest : List (Fork S)) (failures : List (Cause S.Error))

/-- What an interpretation holds in hand. -/
inductive Control (S : Signature) where
  /-- An effect to be dispatched. -/
  | effect (node : Node S)
  /-- A value for the next frame. -/
  | value (v : Value)
  /-- A failure on its way down the stack. -/
  | failure (cause : Cause S.Error)
  /-- Nothing, while a handler decides. -/
  | pending

/-- Everything one interpretation owns. -/
structure State (S : Signature) where
  context : Context
  stack : List (Frame S)
  scope : ScopeId
  control : Control S
  budget : BudgetId

namespace Control

variable {S : Signature}

/-- Whether nothing has been decided. -/
def isPending : Control S → Bool
  | .pending => true
  | _ => false

/-- The outcome of an effect as what to hold in hand. -/
def ofOutcome : Outcome S.Error Value → Control S
  | .ok v => .value v
  | .error c => .failure c

end Control

/-- What a continuation's answer puts in hand. -/
def Program.control {S : Signature} (p : Program S) : Step S → Action S (Control S)
  | .value v => .done (.value v)
  | .effect plan => do return .effect (← p.build plan)
  | .failure c => .done (.failure c)

namespace State

variable {S : Signature}

/-- The first state of an interpretation. -/
def start (node : Node S) (context : Context) (scope : ScopeId) (budget : BudgetId) : State S :=
  { context, stack := [], scope, control := .effect node, budget }

/-- Hold something else in hand. -/
def holding (st : State S) (c : Control S) : State S := { st with control := c }

/-- Leave the hand empty. -/
def awaiting (st : State S) : State S := st.holding .pending

/-- Hold a value. -/
def succeed (st : State S) (v : Value) : State S := st.holding (.value v)

/-- Hold the unit value. -/
def succeedUnit (st : State S) : State S := st.succeed .unit

/-- Hold a failure. -/
def fail (st : State S) (c : Cause S.Error) : State S := st.holding (.failure c)

/-- Hold a defect. -/
def die (st : State S) (d : Defect) : State S := st.fail (.defect d)

/-- Hold an effect. -/
def continueWith (st : State S) (n : Node S) : State S := st.holding (.effect n)

/-- Hold an effect that was built, or the defect of its building. -/
def continueBuilt (st : State S) : Except Defect (Node S) → State S
  | .ok n => st.continueWith n
  | .error d => st.die d

/-- Push a frame. -/
def push (st : State S) (f : Frame S) : State S := { st with stack := f :: st.stack }

end State

/-! ### Description -/

/-- The name of the kind of a frame. -/
def Frame.kind {S : Signature} : Frame S → String
  | .resume _ => "continue"
  | .recover _ _ => "catch"
  | .restoreContext _ => "restore-context"
  | .closeScope _ _ => "close-scope"
  | .retry _ => "retry"
  | .timeout _ _ => "timeout"
  | .parallel _ _ _ => "parallel"
  | .race _ _ => "race"

/-- What the description of a frame tells beside its kind. -/
def Frame.detail {S : Signature} : Frame S → String
  | .retry session => ", attempt " ++ toString session.attempt
  | .timeout limit _ => ", " ++ limit.text
  | .closeScope scope _ => ", " ++ toString scope.number
  | .parallel rest collected _ =>
    ", " ++ toString collected.length ++ " done, " ++ toString rest.length ++ " left"
  | .race rest failures =>
    ", " ++ toString failures.length ++ " failed, " ++ toString rest.length ++ " left"
  | .resume _ | .recover _ _ | .restoreContext _ => ""

/-- The description of a frame. -/
def Frame.text {S : Signature} (f : Frame S) : String :=
  "Frame(" ++ f.kind ++ f.detail ++ ")"

/-- The description of what is held in hand. -/
def Control.text {S : Signature} : Control S → String
  | .effect node => "Effect(" ++ node.tag.name ++ ")"
  | .value _ => "Value(..)"
  | .failure _ => "Failure(..)"
  | .pending => "Pending"

/-- The description of a stack, newest frame first. -/
def stackText {S : Signature} (stack : List (Frame S)) : String :=
  Layout.list (stack.map Frame.text)

/-- The description of a state in its world. -/
def State.text {S : Signature} (st : State S) (w : World S) : String :=
  Layout.record "RuntimeState" [
    ("context", st.context.text),
    ("stack", toString st.stack.length),
    ("scope", (w.scope st.scope).status.text st.scope),
    ("value", st.control.text),
    ("steps", toString (w.budget st.budget).used)]

end EffectMachine
