import EffectMachine.Effect.Basic
import EffectMachine.Machine.Closing
import EffectMachine.Machine.Settle

/-!
# Interpreters

An interpretation of an effect is a loop over a `State`: an effect in hand goes to its handler, a
value to the newest frame, a failure down the stack. `Interpreter.step` is one round of that loop.
No round goes into a sub-effect, so the depth of an effect is the length of a stack.

**Fuel.** An effect may run for ever, and a scope that closes may interpret release effects whose
scopes close in turn. `Interpreter.drive` takes the number of rounds that it may make, and
`Interpreter.closeScope` the depth to which closing may nest; a run uses one number for both.
Running out is the escape `Escape.exhausted`, which nothing catches, and is no outcome.
-/

namespace EffectMachine

/-- Settings of an interpreter. -/
structure Config where
  name : String := "weft"
  /-- The most steps a run may take; none means any number. -/
  stepLimit : Option Nat := none
  /-- Whether every step is announced to a listener; no outcome depends on it. -/
  traceSteps : Bool := false
deriving DecidableEq

/-- The description of a configuration. -/
def Config.text (c : Config) : String :=
  Layout.record "RuntimeConfig" [
    ("name", Quoted.text c.name),
    ("step_limit", Layout.option (c.stepLimit.map toString)),
    ("trace_steps", Layout.bool c.traceSteps)]

/-- An interpreter of effects. -/
structure Interpreter (S : Signature) where
  program : Program S
  config : Config := {}
  strategy : Strategy S := .sync
  registry : Registry S := .standard

/-- What a round of the loop leads to. -/
inductive Progress (S : Signature) where
  | running (st : State S)
  | settled (outcome : Outcome S.Error Value)

namespace Interpreter

variable {S : Signature}

/-- What handlers need of an interpreter. -/
def host (it : Interpreter S) (close : Closer S) : Host S := ⟨it.strategy, it.program, close⟩

/-- The description of an interpreter on a clock. -/
def text (it : Interpreter S) (clock : Clock) : String :=
  Layout.record "Runtime" [
    ("config", it.config.text),
    ("clock", clock.text),
    ("strategy", it.strategy.label)]

/-! ### One round -/

/-- Count a step; the answer is the limit if it is in force and exceeded. -/
def tick (it : Interpreter S) (b : BudgetId) : Machine S (Option Nat) := do
  .modify fun w ↦ w.modifyBudget b Budget.tick
  .gets fun w ↦ (w.budget b).exceeds it.config.stepLimit

/-- Fail because of the step limit: close every open scope, exempt from the limit, and let no
frame recover. -/
def abort (it : Interpreter S) (close : Closer S) (limit : Nat) (st : State S) :
    Machine S (Cause S.Error) := do
  .modify fun w ↦ w.modifyBudget st.budget Budget.beginAbort
  let cause ← (it.host close).abort st.stack (.defect (.stepLimitExceeded limit))
  .modify fun w ↦ w.modifyBudget st.budget Budget.endAbort
  return cause

/-- Dispatch a node. A handler that decides nothing has stalled. -/
def dispatch (it : Interpreter S) (close : Closer S) (node : Node S) (st : State S) :
    Machine S (State S) := do
  let next ← it.registry.dispatch (it.host close) node st
  return if next.control.isPending then next.die (.stalled node.tag.name) else next

/-- Act on what is held in hand. -/
def advance (it : Interpreter S) (close : Closer S) (st : State S) : Machine S (Progress S) :=
  match st.control with
  | .effect node => do return .running (← it.dispatch close node st.awaiting)
  | .value v =>
    match st.stack with
    | [] => return .settled (.ok v)
    | f :: rest => do
      return .running (← (it.host close).resume f v { st.awaiting with stack := rest })
  | .failure cause => do
    match ← (it.host close).unwind st.stack cause { st.awaiting with stack := [] } with
    | .ok st => return .running st
    | .error cause => return .settled (.error cause)
  | .pending => return .running (st.die (.stalled "pending"))

/-- One round: count a step, then act, unless the step limit is exceeded. Steps are counted on
the budget that the run was given, whatever budget a handler leaves in the state. -/
def step (it : Interpreter S) (close : Closer S) (budget : BudgetId) (st : State S) :
    Machine S (Progress S) := do
  match ← it.tick budget with
  | some limit => do
    .modify fun w ↦ w.record (.exceeded budget limit)
    return .settled (.error (← it.abort close limit st))
  | none => it.advance close st

/-! ### Runs -/

/-- Make rounds until the interpretation settles. -/
def drive (it : Interpreter S) (close : Closer S) (budget : BudgetId) :
    Nat → State S → World S → Except Escape (Outcome S.Error Value) × World S
  | 0, _, w => (.error .exhausted, w)
  | fuel + 1, st, w =>
    match it.step close budget st w with
    | (.ok (.running st), w) => it.drive close budget fuel st w
    | (.ok (.settled outcome), w) => (.ok outcome, w)
    | (.error e, w) => (.error e, w)

/-- Interpret a node in a fresh root scope, counting steps on a budget, given how scopes close. -/
def interpretWith (it : Interpreter S) (close : Closer S) (fuel : Nat) (node : Node S)
    (context : Context) (budget : BudgetId) : Machine S (Outcome S.Error Value) :=
  .inScope close fun root ↦ it.drive close budget fuel (.start node context root budget)

/-- Close a scope. Its release effects are interpreted with less fuel, and so are the scopes that
they open closed. -/
def closeScope (it : Interpreter S) : Nat → Closer S
  | 0, _ => .escape .exhausted
  | fuel + 1, s =>
    (it.host (it.closeScope fuel)).shut (it.interpretWith (it.closeScope fuel) fuel) s

/-- Interpret a node, counting steps on an existing budget. -/
def interpretOn (it : Interpreter S) (fuel : Nat) (node : Node S) (context : Context)
    (budget : BudgetId) : Machine S (Outcome S.Error Value) :=
  it.interpretWith (it.closeScope fuel) fuel node context budget

/-- Interpret a node. -/
def interpret (it : Interpreter S) (fuel : Nat) (node : Node S) (context : Context) :
    Machine S (Outcome S.Error Value) := do
  it.interpretOn fuel node context (← .modifyGet fun w ↦ w.newBudget {})

/-- Take the element out of an outcome; a value of another type is a defect. -/
def downcast {ε : Type} (a : Ty) : Outcome ε Value → Outcome ε a.El
  | .error cause => .error cause
  | .ok v =>
    match v.cast? a with
    | some x => .ok x
    | none => .error (.defect (.typeMismatch a.name))

/-- Run an effect in a context. -/
def run {a : Ty} (it : Interpreter S) (fuel : Nat) (e : Effect S a) (context : Context) :
    Machine S (Outcome S.Error a.El) := do
  return downcast a (← it.interpret fuel e.node context)

end Interpreter

end EffectMachine
