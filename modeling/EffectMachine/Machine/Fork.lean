import EffectMachine.Machine.Basic

/-!
# Strategies and forks

A strategy decides how branches are started, how a branch that runs elsewhere is joined, how an
asynchronous completion is awaited and how the machine sleeps. A fork is a started branch: put
off until its turn, already settled, or run elsewhere under a handle.

`Strategy.sync` puts every branch off, so branches run one after the other in order and a branch
that is never reached never runs.
-/

namespace EffectMachine

/-- A branch to run: an effect and the context it sees. -/
structure Job (S : Signature) where
  node : Node S
  context : Context

/-- Where a branch stands. -/
inductive ForkState (S : Signature) where
  /-- To be run by the machine when its turn comes. -/
  | deferred (job : Job S)
  | settled (outcome : Outcome S.Error Value)
  /-- Run elsewhere, to be joined by its handle. -/
  | external (handle : Value)

/-- A started branch with its number. -/
structure Fork (S : Signature) where
  id : Nat
  state : ForkState S

/-- How branches, completions and delays are run. -/
structure Strategy (S : Signature) where
  name : String
  /-- How the strategy is described. -/
  label : String
  fork : Job S → Action S (ForkState S)
  join : Nat → Value → Action S (Outcome S.Error Value) :=
    fun id _ ↦ .done (.error (.defect (.foreignFork id name)))
  await : SlotId → Action S (Outcome S.Error Value)
  sleep : Duration → Action S Unit := fun d ↦ .sleep d (.done ())

/-- Wait for a slot where nothing else can run: an unsettled slot will never be settled. -/
def Strategy.takeOrFail {S : Signature} (s : SlotId) : Action S (Outcome S.Error Value) :=
  .take s fun o ↦ .done (o.getD (.error (.defect .neverSettled)))

/-- Run everything in order. -/
def Strategy.sync {S : Signature} : Strategy S where
  name := "sync"
  label := "SyncStrategy"
  fork job := .done (.deferred job)
  await := takeOrFail

/-- What handlers and frames need from the run they belong to. -/
structure Host (S : Signature) where
  strategy : Strategy S
  program : Program S
  close : Closer S

namespace Host

variable {S : Signature} {α : Type}

/-- Run application code. -/
def perform (h : Host S) (a : Action S α) : Machine S α := a.perform h.close

/-- Run application code and turn a panic of it into a defect. -/
def attempt (h : Host S) (a : Action S α) : Machine S (Except Defect α) := (h.perform a).guard

/-- Run application code that builds an effect. -/
def build (h : Host S) (a : Action S (Plan S)) : Machine S (Except Defect (Node S)) :=
  h.attempt do h.program.build (← a)

/-- Start a branch and number it. -/
def fork (h : Host S) (job : Job S) : Machine S (Fork S) := do
  let state ← h.perform (h.strategy.fork job)
  let id ← .modifyGet World.newFork
  return ⟨id, state⟩

/-- Start every branch in the given context, in order. -/
def forkAll (h : Host S) (context : Context) : List (Node S) → Machine S (List (Fork S))
  | [] => return []
  | n :: ns => do
    let f ← h.fork ⟨n, context⟩
    return f :: (← h.forkAll context ns)

end Host

/-- What to do with the next branch. -/
inductive Turn (S : Signature) where
  /-- Run the job on the current stack. -/
  | run (job : Job S)
  /-- The outcome is known. -/
  | settled (outcome : Outcome S.Error Value)

/-- Take a branch whose turn has come. A branch that runs elsewhere is joined here. -/
def Host.turn {S : Signature} (h : Host S) (f : Fork S) : Machine S (Turn S) :=
  match f.state with
  | .deferred job => return .run job
  | .settled outcome => return .settled outcome
  | .external handle => do return .settled (← h.perform (h.strategy.join f.id handle))

/-! ### Description -/

/-- The name of where a branch stands. -/
def ForkState.name {S : Signature} : ForkState S → String
  | .deferred _ => "deferred"
  | .settled _ => "settled"
  | .external _ => "external"

/-- The description of a fork. -/
def Fork.text {S : Signature} (f : Fork S) : String :=
  "Fork(" ++ toString f.id ++ ", " ++ f.state.name ++ ")"

/-- The description of a context: the set of its keys. -/
def Context.text (c : Context) : String :=
  Layout.set (c.keys.map Key.describe)

/-- The description of a job. -/
def Job.text {S : Signature} (j : Job S) : String :=
  Layout.record "Job" [("node", j.node.tag.name), ("context", j.context.text)]

end EffectMachine
