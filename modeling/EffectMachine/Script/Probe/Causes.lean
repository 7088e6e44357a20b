import EffectMachine.Failure.Cause

/-!
# Probing causes

Causes are combined one after the other, and after each step everything that can be asked of the
combination is reported. An exit is the report of a single outcome.
-/

namespace EffectMachine.Script

/-- Everything that can be asked of a cause. -/
structure CauseReport where
  cause : Cause String
  /-- The cause with its errors in angle brackets. -/
  bracketed : Cause String
  /-- Whether the combination before equals the cause that was added. -/
  equalsAdded : Bool

/-- Put a text in angle brackets. -/
def bracket (s : String) : String := "<" ++ s ++ ">"

/-- The report on a cause. -/
def CauseReport.of (c : Cause String) (equalsAdded : Bool) : CauseReport :=
  ⟨c, c.map bracket, equalsAdded⟩

/-- Reports on a combination that grows by the given causes. -/
def combineReports (acc : Cause String) : List (Cause String) → List CauseReport
  | [] => []
  | c :: cs =>
    let next := acc.combine c
    .of next (acc = c) :: combineReports next cs

/-- Reports on the combinations of the first causes, of one, of two and so on. -/
def causeReports : List (Cause String) → List CauseReport
  | [] => []
  | c :: cs => .of c false :: combineReports c cs

/-- What is told of an outcome. -/
structure ExitReport where
  outcome : Outcome String Datum
  /-- The outcome with its payload in a list. -/
  listed : Outcome String Datum

/-- The report on an outcome. -/
def ExitReport.of (o : Outcome String Datum) : ExitReport :=
  ⟨o, o.map fun d ↦ .list [d]⟩

/-- Whether the outcome is a success. -/
def ExitReport.isSuccess (r : ExitReport) : Bool :=
  match r.outcome with
  | .ok _ => true
  | .error _ => false

/-- The payload of a success. -/
def ExitReport.value? (r : ExitReport) : Option Datum :=
  match r.outcome with
  | .ok d => some d
  | .error _ => none

/-- The cause of a failure. -/
def ExitReport.cause? (r : ExitReport) : Option (Cause String) :=
  match r.outcome with
  | .ok _ => none
  | .error c => some c

end EffectMachine.Script
