import EffectMachine.Script.Setup

/-!
# Running scripts

A scripted run builds an effect once and runs it some number of times in one world, by one of four
entries, and reports after each run what came of it, what was logged, and what the clock did.
-/

namespace EffectMachine.Script

/-! ### Values as seen from outside -/

/-- What can be told about a value. -/
inductive ValueView where
  | datum (d : Datum)
  | unit
  | service
  | list (items : List Datum)
  | other

/-- Tell what a value is. -/
def viewValue (v : Value) : ValueView :=
  match v with
  | ⟨.datum, d⟩ => .datum d
  | ⟨.plain .unit, ()⟩ => .unit
  | ⟨.service, _⟩ => .service
  | ⟨.list .datum, items⟩ => .list items
  | _ => .other

/-! ### Runs -/

/-- How an effect is run. -/
inductive Entry where
  /-- On a budget of its own, with its steps reported. -/
  | counted
  | run
  /-- Reporting an exit. -/
  | exit
  /-- Reporting the value untyped. -/
  | interpret
deriving DecidableEq

/-- A script that runs an effect. -/
structure RunScript where
  interpreter : InterpreterTerm := {}
  effect : Term
  context : ContextTerm := []
  entry : Entry := .counted
  times : Nat := 1
  /-- Steps counted on the budget before each run. -/
  used : Nat := 0
  /-- Whether an abort is in progress on the budget. -/
  aborting : Bool := false
  /-- The starting time in milliseconds. -/
  start : Nat := 0
  /-- Whether runs are timed by a clock that expressions do not see. -/
  separateClock : Bool := false

/-- What came of a run. -/
inductive RunOutcome where
  | datum (o : Outcome String Datum)
  | exit (o : Outcome String Datum)
  | value (o : Outcome String ValueView)

/-- What is told of a budget after a run. -/
structure BudgetView where
  used : Nat
  aborting : Bool

/-- What is told of a run. -/
structure RunReport where
  outcome : RunOutcome
  log : List Datum
  /-- Durations slept during the run. -/
  sleeps : List Duration
  now : Nat
  budget : Option BudgetView

/-- What is told of a script that runs an effect. -/
structure RunsReport where
  /-- What was logged while the effect was built. -/
  builtLog : List Datum
  runs : List RunReport
  /-- The description of the interpreter after the runs. -/
  interpreter : String
  strategy : String

/-- The budget that a counted run starts with. -/
def RunScript.budget (s : RunScript) : Budget :=
  let ticked := Nat.repeat Budget.tick s.used {}
  if s.aborting then ticked.beginAbort else ticked

/-- Run an effect by an entry. -/
def runBy (it : Interpreter scripted) (s : RunScript) (e : ScriptedEffect) (c : Context) :
    Scripted (RunOutcome × Option BudgetView) := do
  match s.entry with
  | .counted =>
    let id ← .modifyGet fun w ↦ w.newBudget s.budget
    let outcome ← it.interpretOn fuel e.node c id
    let b ← .gets fun w ↦ w.budget id
    return (.datum (Interpreter.downcast .datum outcome), some ⟨b.used, b.isAborting⟩)
  | .run => return (.datum (← it.run fuel e c), none)
  | .exit => return (.exit (← it.run fuel e c), none)
  | .interpret => return (.value ((← it.interpret fuel e.node c).map viewValue), none)

/-- One run with its report. -/
def runOnce (it : Interpreter scripted) (s : RunScript) (e : ScriptedEffect) (c : Context) :
    Scripted RunReport := do
  let before ← .gets fun w ↦ w.clock.sleeps.size
  let (outcome, budget) ← runBy it s e c
  let log ← performIn it takeLog
  let clock ← .gets fun w ↦ w.clock
  return { outcome, log, sleeps := clock.sleeps.toList.drop before, now := clock.nanos, budget }

/-- Several runs, one after the other. -/
def runTimes (it : Interpreter scripted) (s : RunScript) (e : ScriptedEffect) (c : Context) :
    Nat → Scripted (List RunReport)
  | 0 => return []
  | n + 1 => do
    let r ← runOnce it s e c
    return r :: (← runTimes it s e c n)

/-- Run a script: build the effect, then the context, then run. What the context logs belongs to
the first run. A clock that expressions do not see starts at zero. -/
def RunScript.run (s : RunScript) : Scripted RunsReport := do
  let it := s.interpreter.build
  if s.separateClock then
    performIn it (updateSession fun session ↦ { session with ownClock := some (.start s.start) })
    .modify fun w ↦ { w with clock := {} }
  let e ← performIn it (s.interpreter.defs.build s.effect)
  let builtLog ← performIn it takeLog
  let c ← performIn it (buildContext [] s.context .empty)
  let runs ← runTimes it s e c s.times
  let clock ← .gets fun w ↦ w.clock
  return { builtLog, runs, interpreter := it.text clock, strategy := it.strategy.name }

/-- Run a computation in the world at the start of a script. The answer is its result, or the
panic that no guard caught; running out of fuel counts as a panic here. -/
def answer {α : Type} (start : Nat) (m : Scripted α) : Except Panic α :=
  match m (worldAt start) with
  | (.ok a, _) => .ok a
  | (.error (.panic p), _) => .error p
  | (.error .exhausted, _) => .error (.message "out of fuel")

end EffectMachine.Script
