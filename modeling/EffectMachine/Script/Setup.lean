import EffectMachine.Machine.Interpreter
import EffectMachine.Script.Term

/-!
# Scripted strategies, registries and interpreters

The parts of an interpreter that scripts can replace: the strategy, the handlers, the configuration
and the clock.
-/

namespace EffectMachine.Script

/-! ### Strategies -/

/-- What a scripted strategy makes of a branch. -/
inductive ForkTerm where
  | deferred
  | settled (result : Except (Cause String) Expr)
  /-- Run elsewhere, under a payload as handle. -/
  | external (handle : Expr)

/-- How often a scripted strategy sleeps for one delay. -/
inductive SleepMode where
  | skip
  | once
  | twice
deriving DecidableEq

/-- A scripted strategy. -/
structure StrategyTerm where
  name : String
  /-- What becomes of the branches, over and over in this order. -/
  forks : List ForkTerm
  /-- Whether the handle of a branch run elsewhere is its value. -/
  joinsHandle : Bool := false
  /-- The outcome of an asynchronous effect that has not settled. -/
  await : Option (Except (Cause String) Expr) := none
  sleep : SleepMode := .once

/-- A written outcome of payloads. -/
def outcomeOf : Except (Cause String) Expr → Code (Outcome String Value)
  | .ok e => do return .ok (.ofDatum (← e.compute []))
  | .error cause => return .error cause

/-- What a strategy makes of a job. -/
def ForkTerm.fork (job : Job scripted) : ForkTerm → Code (ForkState scripted)
  | .deferred => return .deferred job
  | .settled result => do return .settled (← outcomeOf result)
  | .external handle => do return .external (.ofDatum (← handle.compute []))

/-- Count a branch of the strategy; the answer is how many came before. -/
def countFork : Code Nat :=
  .modifyGet fun s ↦ (s.forked, { s with forked := s.forked + 1 })

/-- The strategy that a term stands for. -/
def StrategyTerm.build (t : StrategyTerm) : Strategy scripted :=
  let base : Strategy scripted := {
    name := t.name
    label := "Scripted"
    fork := fun job ↦ do
      let i ← countFork
      (t.forks.getD (i % t.forks.length) .deferred).fork job
    await := fun slot ↦ .take slot fun
      | some o => .done o
      | none =>
        match t.await with
        | some result => outcomeOf result
        | none => .done (.error (.defect .neverSettled))
    sleep := fun d ↦
      match t.sleep with
      | .skip => .done ()
      | .once => .sleep d (.done ())
      | .twice => .sleep d (.sleep d (.done ())) }
  if t.joinsHandle then { base with join := fun _ handle ↦ .done (.ok handle) } else base

/-- The strategy of an optional term. -/
def strategyOf : Option StrategyTerm → Strategy scripted
  | some t => t.build
  | none => .sync

/-! ### Handlers -/

/-- A handler that scripts can register. -/
inductive HandlerTerm where
  /-- Yield the unit value. -/
  | skip
  /-- Decide nothing. -/
  | stall
  /-- Fail with an error. -/
  | refuse
  /-- Yield forty-two. -/
  | answer
  /-- Do what the standard handler of a kind does. -/
  | standard (tag : Tag)
deriving DecidableEq

/-- The handler that a term stands for at a kind. -/
def HandlerTerm.build (tag : Tag) : HandlerTerm → Handler scripted
  | .skip => fun _ _ st ↦ return st.succeedUnit
  | .stall => fun _ _ st ↦ return st
  | .refuse => fun _ _ st ↦ return st.fail (.fail ("refused " ++ tag.name))
  | .answer => fun _ _ st ↦ return st.succeed (.ofDatum (.int 42))
  | .standard t => Handler.standard t

/-- The registry with the listed handlers in place of standard ones. The first handler listed for
a kind counts. -/
def registryOf (handlers : List (Tag × HandlerTerm)) : Registry scripted :=
  (handlers.foldl
    (fun r e ↦ match r.register e.1 (e.2.build e.1) with
      | .ok r => r
      | .error _ => r)
    Registry.empty).complete

/-! ### Interpreters -/

/-- What a script says about its interpreter. -/
structure InterpreterTerm where
  config : Config := {}
  strategy : Option StrategyTerm := none
  registry : List (Tag × HandlerTerm) := []
  defs : Definitions := []

/-- The interpreter that a term stands for. -/
def InterpreterTerm.build (t : InterpreterTerm) : Interpreter scripted where
  program := t.defs.program
  config := t.config
  strategy := strategyOf t.strategy
  registry := registryOf t.registry

/-- Rounds that a scripted run may make, and depth to which its scopes may nest in closing. No
run comes near it. -/
def fuel : Nat := 1 <<< 60

/-- The interpreter of scripts that define effects and say nothing else about it. -/
def interpreterOf (defs : Definitions) : Interpreter scripted := InterpreterTerm.build { defs }

/-- The interpreter of scripts that say nothing about it. -/
def plainInterpreter : Interpreter scripted := interpreterOf []

/-- Computations in a scripted world. -/
abbrev Scripted := Machine scripted

/-- Run application code under an interpreter. -/
def performIn {α : Type} (it : Interpreter scripted) (c : Code α) : Scripted α :=
  c.perform (it.closeScope fuel)

/-- The handlers' view of an interpreter. -/
def hostOf (it : Interpreter scripted) : Host scripted := it.host (it.closeScope fuel)

/-- The world at the start of a script: its clock stands at a number of milliseconds. -/
def worldAt (millis : Nat) : World scripted :=
  { state := {}, clock := .start millis, noise := .ofSeed 0 }

end EffectMachine.Script
