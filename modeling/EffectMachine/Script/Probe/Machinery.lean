import EffectMachine.Script.Run

/-!
# Probing the machine's parts

Commands on stacks, states, registries and branches, and single dispatches: the parts of a run,
each looked at on its own.
-/

namespace EffectMachine.Script

/-! ### What is held in hand -/

/-- What can be told of what a state holds in hand. -/
inductive ControlView where
  | effect (node : Node scripted)
  | value (v : ValueView)
  | failure (cause : Cause String)
  | pending

/-- Tell what is held in hand. -/
def viewControl : Control scripted → ControlView
  | .effect node => .effect node
  | .value v => .value (viewValue v)
  | .failure cause => .failure cause
  | .pending => .pending

/-! ### Frames and stacks -/

/-- A frame as scripts write it. -/
inductive FrameTerm where
  | resume
  | recover
  | restoreContext
  | closeScope
  | retry (attempt : Nat)
  | timeout (limit : Duration)
  /-- Branches started by a strategy, and how many have settled. -/
  | parallel (branches : List Term) (strategy : Option StrategyTerm) (settled : Nat)
  | race (branches : List Term) (strategy : Option StrategyTerm) (settled : Nat)

/-- Start branches in a context under a new strategy. -/
def startBranches (defs : Definitions) (strategy : Option StrategyTerm)
    (branches : List ScriptedEffect) (context : Context) : Scripted (List (Fork scripted)) := do
  let it := { interpreterOf defs with strategy := strategyOf strategy }
  performIn it (updateSession fun s ↦ { s with forked := 0 })
  (hostOf it).forkAll context (branches.map Effect.node)

/-- The frame that a term stands for. -/
def FrameTerm.build (defs : Definitions) : FrameTerm → Scripted (Frame scripted)
  | .resume => return .resume fun v ↦ .done (.value v)
  | .recover => return .recover (fun _ ↦ .done true) fun c ↦ .done (.node (.fail c))
  | .restoreContext => return .restoreContext .empty
  | .closeScope => do
    let scope ← .modifyGet World.openScope
    let parent ← .modifyGet World.openScope
    return .closeScope scope parent
  | .retry attempt => return .retry {
      source := .unit
      schedule := .immediate
      jitter := .shared
      attempt
      startedAt := 0 }
  | .timeout limit => return .timeout limit 0
  | .parallel branches strategy settled => do
    let es ← performIn (interpreterOf defs) (defs.buildAll branches)
    return .parallel (← startBranches defs strategy es .empty)
      (List.replicate settled .unit) fun _ ↦ .done (.ok .unit)
  | .race branches strategy settled => do
    let es ← performIn (interpreterOf defs) (defs.buildAll branches)
    return .race (← startBranches defs strategy es .empty)
      (List.replicate settled (.defect .emptyRace))

/-- A command on a stack. -/
inductive StackCommand where
  | push (frame : FrameTerm)
  | pop
  | peek

/-- What came of a command. -/
inductive StackResult where
  | pushed
  | popped (kind text : String)
  | top (kind : String)
  | nothing

/-- What is told after a command: its result, the number of frames, and the stack. -/
structure StackReport where
  result : StackResult
  size : Nat
  text : String

/-- Carry a command out. -/
def StackCommand.run (defs : Definitions) (stack : List (Frame scripted)) :
    StackCommand → Scripted (StackResult × List (Frame scripted))
  | .push frame => do return (.pushed, (← frame.build defs) :: stack)
  | .pop =>
    match stack with
    | [] => return (.nothing, [])
    | f :: rest => return (.popped f.kind f.text, rest)
  | .peek =>
    match stack with
    | [] => return (.nothing, [])
    | f :: _ => return (.top f.kind, stack)

/-- Carry commands out, one after the other. -/
def runStackCommands (defs : Definitions) (stack : List (Frame scripted)) :
    List StackCommand → Scripted (List StackReport)
  | [] => return []
  | c :: cs => do
    let (result, stack) ← c.run defs stack
    return ⟨result, stack.length, stackText stack⟩ :: (← runStackCommands defs stack cs)

/-! ### States -/

/-- What is told of a state. -/
structure StateReport where
  state : String
  stack : String
  pending : Bool
  /-- The description of what is held in hand. -/
  control : String
  held : ControlView

/-- Report on a state. -/
def reportState (st : State scripted) : Scripted StateReport := do
  let w ← .gets id
  return {
    state := st.text w
    stack := stackText st.stack
    pending := st.control.isPending
    control := st.control.text
    held := viewControl st.control }

/-- A state with a node in hand, a fresh scope and a fresh budget. -/
def freshState (node : Node scripted) (context : Context) : Scripted (State scripted) := do
  let scope ← .modifyGet World.openScope
  let budget ← .modifyGet fun w ↦ w.newBudget {}
  return .start node context scope budget

/-- A command on a state. -/
inductive StateCommand where
  /-- Take what is held in hand. -/
  | take
  | succeed (value : Expr)
  | succeedUnit
  | fail (cause : Cause String)
  | continueWith (effect : Term)
  | pending
  | push (frame : FrameTerm)
  | context (c : ContextTerm)
  /-- Enter a fresh scope. -/
  | scope
  | tick
  /-- Count on a fresh budget. -/
  | budget

/-- What a command took or counted. -/
inductive Taken where
  | nothing
  | control (c : ControlView)
  | total (n : Nat)

/-- Carry a command out. -/
def StateCommand.run (defs : Definitions) (st : State scripted) :
    StateCommand → Scripted (State scripted × Taken)
  | .take => return (st.awaiting, .control (viewControl st.control))
  | .succeed value => do
    let d ← performIn (interpreterOf defs) (value.compute [])
    return (st.succeed (.ofDatum d), .nothing)
  | .succeedUnit => return (st.succeedUnit, .nothing)
  | .fail cause => return (st.fail cause, .nothing)
  | .continueWith effect => do
    let e ← performIn (interpreterOf defs) (defs.build effect)
    return (st.continueWith e.node, .nothing)
  | .pending => return (st.awaiting, .nothing)
  | .push frame => do return (st.push (← frame.build defs), .nothing)
  | .context c => do
    let context ← performIn (interpreterOf defs) (buildContext [] c .empty)
    return ({ st with context }, .nothing)
  | .scope => do
    let scope ← .modifyGet World.openScope
    return ({ st with scope }, .nothing)
  | .tick => do
    .modify fun w ↦ w.modifyBudget st.budget Budget.tick
    return (st, .total (← .gets fun w ↦ (w.budget st.budget).used))
  | .budget => do
    let budget ← .modifyGet fun w ↦ w.newBudget {}
    return ({ st with budget }, .nothing)

/-- Carry commands out, one after the other. -/
def runStateCommands (defs : Definitions) (st : State scripted) :
    List StateCommand → Scripted (List (StateReport × Taken))
  | [] => return []
  | c :: cs => do
    let (st, taken) ← c.run defs st
    let report ← reportState st
    return (report, taken) :: (← runStateCommands defs st cs)

/-- Carry commands out on a state with an effect in hand. -/
def probeState (defs : Definitions) (effect : Term) (context : ContextTerm)
    (cs : List StateCommand) : Scripted (List (StateReport × Taken)) := do
  let it := interpreterOf defs
  let e ← performIn it (defs.build effect)
  let c ← performIn it (buildContext [] context .empty)
  runStateCommands defs (← freshState e.node c) cs

/-! ### Dispatches -/

/-- What is told of a dispatch. -/
structure DispatchReport where
  state : StateReport
  log : List Datum
  /-- The number of durations slept. -/
  sleeps : Nat
  /-- The cause with which the state's scope closed, if it failed. -/
  close : Option (Cause String)
  closeLog : List Datum

/-- Dispatch an effect once, report, and close the scope of the state. -/
def probeDispatch (t : InterpreterTerm) (effect : Term) (context : ContextTerm) :
    Scripted DispatchReport := do
  let it := t.build
  let e ← performIn it (t.defs.build effect)
  let c ← performIn it (buildContext [] context .empty)
  let st ← freshState .unit c
  let st ← it.registry.dispatch (hostOf it) e.node st
  let state ← reportState st
  let log ← performIn it takeLog
  let sleeps ← .gets fun w ↦ w.clock.sleeps.size
  let closed ← it.closeScope fuel st.scope
  let closeLog ← performIn it takeLog
  let close := match closed with
    | .ok () => none
    | .error cause => some cause
  return { state, log, sleeps, close, closeLog }

/-! ### Registries -/

/-- A command on a registry under construction and on the one built last. -/
inductive RegistryCommand where
  | register (tag : Tag) (handler : HandlerTerm)
  | fill
  | build
  /-- Take the standard registry as the one built. -/
  | standard
  | query (tag : Tag)
  | dispatch (effect : Term)

/-- What is told after a command. -/
inductive RegistryReport where
  | ok
  | error (e : RegistryError)
  | built (r : Registry scripted)
  | found (b : Bool)
  | dispatched (s : StateReport)
  /-- No registry has been built. -/
  | nothing

/-- A registry under construction, and the one built last. -/
structure Workshop where
  builder : Registry scripted := .empty
  built : Option (Registry scripted) := none

/-- Call the builder and keep the registry that it hands out. -/
def Workshop.ask (w : Workshop) (c : BuilderCall scripted) : RegistryReport × Workshop :=
  match w.builder.answer c with
  | (.done, builder) => (.ok, { w with builder })
  | (.refused e, builder) => (.error e, { w with builder })
  | (.built r, builder) => (.built r, { builder, built := some r })

/-- Carry a command out. -/
def RegistryCommand.run (defs : Definitions) (w : Workshop) :
    RegistryCommand → Scripted (RegistryReport × Workshop)
  | .register tag handler => return w.ask (.register tag (handler.build tag))
  | .fill => return w.ask .complete
  | .build => return w.ask .build
  | .standard => return (.ok, { w with built := some .standard })
  | .query tag =>
    match w.built with
    | some r => return (.found (r.contains tag), w)
    | none => return (.nothing, w)
  | .dispatch effect =>
    match w.built with
    | none => return (.nothing, w)
    | some r => do
      let it := { interpreterOf defs with registry := r }
      let e ← performIn it (defs.build effect)
      let st ← freshState .unit .empty
      let st ← r.dispatch (hostOf it) e.node st.awaiting
      return (.dispatched (← reportState st), w)

/-- Carry commands out, one after the other. -/
def runRegistryCommands (defs : Definitions) (w : Workshop) :
    List RegistryCommand → Scripted (List RegistryReport)
  | [] => return []
  | c :: cs => do
    let (report, w) ← c.run defs w
    return report :: (← runRegistryCommands defs w cs)

/-! ### Branches -/

/-- What is told of the next branch. -/
inductive TurnView where
  | run (job : Job scripted)
  | settled (o : Outcome String ValueView)
  | nothing

/-- What is told after each branch: the branch, how many are left, and which. -/
structure TurnReport where
  turn : TurnView
  left : Nat
  text : String

/-- What is told of branches. -/
structure BranchesReport where
  strategy : String
  count : Nat
  text : String
  turns : List TurnReport

/-- The description of forks. -/
def forksText (forks : List (Fork scripted)) : String := Layout.list (forks.map Fork.text)

/-- Take the branches in turn until none is left. -/
def takeTurns (h : Host scripted) : List (Fork scripted) → Scripted (List TurnReport)
  | [] => return [⟨.nothing, 0, forksText []⟩]
  | f :: rest => do
    let turn ← match ← h.turn f with
      | .run job => pure (TurnView.run job)
      | .settled o => pure (.settled (o.map viewValue))
    return ⟨turn, rest.length, forksText rest⟩ :: (← takeTurns h rest)

/-- Build branches, then a context, start the branches under a strategy and take them in turn,
under the same strategy or under the one that runs everything in order. -/
def probeBranches (defs : Definitions) (branches : List Term) (context : ContextTerm)
    (strategy : Option StrategyTerm) (joinInOrder : Bool) : Scripted BranchesReport := do
  let it := interpreterOf defs
  let es ← performIn it (defs.buildAll branches)
  let c ← performIn it (buildContext [] context .empty)
  let forks ← startBranches defs strategy es c
  let taker := if joinInOrder then Strategy.sync else strategyOf strategy
  let turns ← takeTurns (hostOf { it with strategy := taker }) forks
  return {
    strategy := (strategyOf strategy).name
    count := forks.length
    text := forksText forks
    turns }

end EffectMachine.Script
