import EffectMachine.Script.Run

/-!
# Probing effects, expressions and defaults

What can be told of an effect without running it, what an expression does under a guard, and what
everything is before anyone has changed it.
-/

namespace EffectMachine.Script

/-! ### Effects -/

/-- What is told of an effect. -/
structure EffectReport where
  tag : Tag
  effect : String
  node : String
  log : List Datum

/-- Build an effect and tell of it. -/
def describeEffect (defs : Definitions) (t : Term) : Scripted EffectReport := do
  let e ← performIn plainInterpreter (defs.build t)
  let log ← performIn plainInterpreter takeLog
  return { tag := e.tag, effect := e.text, node := e.node.text, log }

/-! ### Expressions -/

/-- Evaluate an expression under a guard; the answer holds what was logged. -/
def guardExpr (e : Expr) : Scripted (Except Defect Datum × List Datum) := do
  let r ← (performIn plainInterpreter (e.compute [])).guard
  return (r, ← performIn plainInterpreter takeLog)

/-! ### Defaults -/

/-- What everything is before anyone has changed it. -/
structure DefaultsReport where
  layer : String
  layerSize : Nat
  key : Key
  slotSettled : Bool
  scopeClosed : Bool
  stackSize : Nat
  registrySize : Nat
  builderError : Option RegistryError
  config : String
  strategy : String
  /-- Milliseconds on a clock started at three. -/
  sharedMillis : Nat
  /-- Whether sleeping moves a clock forward. -/
  monotonic : Bool
  ofDefect : Cause String
  ofValidation : Cause String
  ofError : Cause String
  ofDeath : Cause String

/-- Tell the defaults. -/
def probeDefaults : Scripted DefaultsReport := do
  let layer : Layer scripted := .empty
  let size ← match ← performIn plainInterpreter (layer.build .empty) with
    | .ok c => pure c.size
    | .error _ => pure 0
  let slot : Slot String := .fresh
  let scope : Scope scripted := .fresh
  let st := State.start (.unit : Node scripted) .empty ⟨0⟩ ⟨0⟩
  let builderError := match (Registry.empty : Registry scripted).build with
    | .ok _ => none
    | .error e => some e
  let clock : Clock := {}
  return {
    layer := layer.text
    layerSize := size
    key := { type := .int }
    slotSettled := slot.settled
    scopeClosed := scope.closed
    stackSize := st.stack.length
    registrySize := (Registry.standard : Registry scripted).size
    builderError
    config := Config.text {}
    strategy := plainInterpreter.strategy.name
    sharedMillis := (Clock.start 3).millis
    monotonic := clock.nanos < (clock.sleep (.ofNanos nanosPerMilli)).nanos
    ofDefect := .defect .emptyRace
    ofValidation := .validation (.atRoot "m")
    ofError := .fail "f"
    ofDeath := .defect .neverSettled }

end EffectMachine.Script
