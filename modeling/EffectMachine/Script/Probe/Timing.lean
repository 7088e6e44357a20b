import EffectMachine.Script.Setup

/-!
# Probing schedules and clocks

A schedule is asked for decisions, either in one session or each time anew. Clocks are moved and
read; one is the clock of the world and another stands apart.
-/

namespace EffectMachine.Script

/-! ### Schedules -/

/-- What is told of a schedule. -/
structure ScheduleReport where
  ceiling : Nat
  text : String
  /-- The source of samples of a new session. -/
  source : JitterSource
  /-- The decisions with what was logged for each. -/
  decisions : List (Except Defect Decision × List Datum)

/-- Ask a schedule for decisions. In a session the source of samples is carried from one to the
next. -/
def decideAll (s : Schedule scripted) (session : Bool) :
    JitterSource → List (Failed String) → Scripted (List (Except Defect Decision × List Datum))
  | _, [] => return []
  | source, f :: fs => do
    let current := if session then source else s.source
    match ← (performIn plainInterpreter (s.decideFrom current f)).guard with
    | .ok (d, next) => do
      let log ← performIn plainInterpreter takeLog
      return (.ok d, log) :: (← decideAll s session next fs)
    | .error d => do
      let log ← performIn plainInterpreter takeLog
      return (.error d, log) :: (← decideAll s session source fs)

/-- Report on a schedule. -/
def probeSchedule (t : ScheduleTerm) (session : Bool) (calls : List (Failed String)) :
    Scripted ScheduleReport := do
  let s := t.build []
  let decisions ← decideAll s session s.source calls
  return { ceiling := s.ceiling, text := s.text, source := s.source, decisions }

/-! ### Clocks -/

/-- What to do with a clock. -/
inductive ClockAction where
  | advance (d : Duration)
  | sleep (d : Duration)
  /-- Remember the reading under a name. -/
  | mark (name : String)
  | elapsed (name : String)
  | elapsedFrom (nanos : Nat)
  | present

/-- A command on the clock of the world or on the one apart. -/
structure ClockCommand where
  apart : Bool
  action : ClockAction

/-- What is told after a command. -/
structure ClockReport where
  clock : Clock
  elapsed : Option Duration

/-- Clocks and remembered readings. -/
structure Clocks where
  shared : Clock
  apart : Clock := {}
  marks : Bindings Nat := []

/-- The clock that a command is about. -/
def Clocks.select (cs : Clocks) (apart : Bool) : Clock := if apart then cs.apart else cs.shared

/-- Replace the clock that a command is about. -/
def Clocks.replace (cs : Clocks) (apart : Bool) (c : Clock) : Clocks :=
  if apart then { cs with apart := c } else { cs with shared := c }

/-- Carry a command out. -/
def ClockCommand.run (cs : Clocks) (cmd : ClockCommand) : Clocks × Option Duration :=
  let c := cs.select cmd.apart
  match cmd.action with
  | .advance d => (cs.replace cmd.apart (c.advance d), none)
  | .sleep d => (cs.replace cmd.apart (c.sleep d), none)
  | .mark name => ({ cs with marks := cs.marks.put name c.nanos }, none)
  | .elapsed name => (cs, some (c.since ((cs.marks.find? name).getD 0)))
  | .elapsedFrom nanos => (cs, some (c.since nanos))
  | .present => (cs, none)

/-- Carry commands out, one after the other. -/
def runClockCommands (cs : Clocks) : List ClockCommand → List ClockReport
  | [] => []
  | cmd :: cmds =>
    let r := cmd.run cs
    ⟨r.1.select cmd.apart, r.2⟩ :: runClockCommands r.1 cmds

end EffectMachine.Script
