import EffectMachine.Script.Run

/-!
# Probing scopes, slots and budgets

Commands on the cells of the world: named scopes, one slot, and one budget.
-/

namespace EffectMachine.Script

/-! ### Scopes -/

/-- A command on named scopes. -/
inductive ScopeCommand where
  | create (name : String)
  /-- Give a scope a second name. -/
  | clone (name copy : String)
  | add (name : String) (run : Expr) (cause : Option (Cause String))
  | close (name : String)

/-- The name of the scope that a command reports on. -/
def ScopeCommand.name : ScopeCommand → String
  | .create name | .clone name _ | .add name _ _ | .close name => name

/-- What came of a command. -/
inductive ScopeResult where
  | ok
  | refused (d : Defect)
  | failed (cause : Cause String)

/-- What is told after a command. -/
structure ScopeReport where
  result : ScopeResult
  id : ScopeId
  status : ScopeStatus
  log : List Datum

/-- Carry a command out. -/
def ScopeCommand.perform : ScopeCommand → Code ScopeResult
  | .create name => do
    let s ← (.openScope .done : Code ScopeId)
    updateSession fun session ↦ { session with scopes := session.scopes.put name s }
    return .ok
  | .clone name copy => do
    let s ← (scopeNamed name).toCode
    updateSession fun session ↦ { session with scopes := session.scopes.put copy s }
    return .ok
  | .add name run cause => do
    let s ← (scopeNamed name).toCode
    match ← addCleanup s ⟨run, [], cause⟩ with
    | .ok () => return .ok
    | .error d => return .refused d
  | .close name => do
    let s ← (scopeNamed name).toCode
    match ← closeScope s with
    | .ok () => return .ok
    | .error cause => return .failed cause

/-- Carry a command out and report on its scope. -/
def ScopeCommand.report (c : ScopeCommand) : Code ScopeReport := do
  let result ← c.perform
  let id ← (scopeNamed c.name).toCode
  let status ← scopeStatus id
  return { result, id, status, log := ← takeLog }

/-- Carry commands out, one after the other. -/
def runScopeCommands : List ScopeCommand → Scripted (List ScopeReport)
  | [] => return []
  | c :: cs => do
    let r ← performIn plainInterpreter c.report
    return r :: (← runScopeCommands cs)

/-! ### Slots -/

/-- A command on a slot. -/
inductive SlotCommand where
  | settle (result : Except (Cause String) Expr)
  | take
  | await
  | present

/-- What came of a command. -/
inductive SlotResult where
  | first (b : Bool)
  | nothing
  | outcome (o : Outcome String ValueView)
  | shown

/-- What is told of the outcome of a slot. -/
def SlotResult.ofOutcome (o : Outcome String Value) : SlotResult := .outcome (o.map viewValue)

/-- Carry a command out; the answer also says whether the slot is settled. -/
def SlotCommand.run (slot : SlotId) (c : SlotCommand) : Scripted (SlotResult × Bool) := do
  let result ← performIn plainInterpreter (match c with
    | .settle result => do return .first (← settleSlot slot (← outcomeOf result))
    | .take => .take slot fun
      | some o => .done (.ofOutcome o)
      | none => .done .nothing
    | .await => do return .ofOutcome (← (Strategy.sync : Strategy scripted).await slot)
    | .present => return .shown)
  return (result, ← .gets fun w ↦ (w.slot slot).settled)

/-- Carry commands out on one fresh slot. -/
def runSlotCommands (cs : List SlotCommand) : Scripted (List (SlotResult × Bool)) := do
  let slot ← .modifyGet World.newSlot
  cs.mapM (SlotCommand.run slot)

/-! ### Budgets -/

/-- A command on a budget. -/
inductive BudgetCommand where
  | tick
  | enter
  | leave
  | present
deriving DecidableEq

/-- Carry a command out. -/
def BudgetCommand.run : BudgetCommand → Budget → Budget
  | .tick, b => b.tick
  | .enter, b => b.beginAbort
  | .leave, b => b.endAbort
  | .present, b => b

/-- Carry commands out, one after the other, and list the budgets after each. -/
def runBudgetCommands (b : Budget) : List BudgetCommand → List (BudgetCommand × Budget)
  | [] => []
  | c :: cs => (c, c.run b) :: runBudgetCommands (c.run b) cs

end EffectMachine.Script
