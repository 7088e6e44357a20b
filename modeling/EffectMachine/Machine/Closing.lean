import EffectMachine.Machine.Fork

/-!
# Closing scopes

A scope that closes is marked closed first and then runs its finalizers one after the other,
newest first, whatever each of them does. Named finalizers are actions; release effects are
interpreted, and how is left to a `Releaser`.
-/

namespace EffectMachine

/-- How a release effect is interpreted: in the context and on the budget in force when it was
registered. -/
abbrev Releaser (S : Signature) :=
  Node S → Context → BudgetId → Machine S (Outcome S.Error Value)

namespace Host

variable {S : Signature}

/-- Run one finalizer. -/
def finalize (h : Host S) (release : Releaser S) :
    Finalizer S → Machine S (Outcome S.Error Unit)
  | .cleanup c => h.perform (h.program.cleanup c)
  | .release build context budget => do
    match ← h.build build with
    | .error d => return .error (.defect d)
    | .ok node => return (← release node context budget).map fun _ ↦ ()

/-- Invoke a finalizer of a scope. A panic is the failure of this finalizer only. -/
def invoke (h : Host S) (release : Releaser S) (s : ScopeId) (f : Finalizer S) :
    Machine S (Outcome S.Error Unit) := do
  .modify fun w ↦ w.record (.invoked s f)
  let outcome := Outcome.ofGuarded (← (h.finalize release f).guard)
  .modify fun w ↦ w.record (.ended s f outcome)
  return outcome

/-- Invoke finalizers one after the other and list the causes of those that fail. -/
def invokeAll (h : Host S) (release : Releaser S) (s : ScopeId) :
    List (Finalizer S) → Machine S (List (Cause S.Error))
  | [] => return []
  | f :: fs => do
    match ← h.invoke release s f with
    | .ok () => h.invokeAll release s fs
    | .error cause => return cause :: (← h.invokeAll release s fs)

/-- Close a scope: mark it closed, take its finalizers and invoke them. They have been taken away as
a whole before the first of them runs, so they find the scope closed, empty and held by nobody.
Closing a closed scope does nothing. -/
def shut (h : Host S) (release : Releaser S) (s : ScopeId) :
    Machine S (Outcome S.Error Unit) := do
  let scope ← .gets fun w ↦ w.scope s
  if scope.closed then return .ok ()
  .modify fun w ↦ w.shutScope s
  let failures ← h.invokeAll release s scope.finalizers
  .modify fun w ↦ w.record (.closed s)
  match failures with
  | [] => return .ok ()
  | failures => return .error (.composite failures)

end Host

/-- Do something in a fresh scope and close it afterwards, however that went. -/
def Machine.inScope {S : Signature} {α : Type} (close : Closer S)
    (body : ScopeId → Machine S (Outcome S.Error α)) : Machine S (Outcome S.Error α) := do
  let s ← .modifyGet World.enterScope
  let outcome ← body s
  return outcome.merge (← close s)

end EffectMachine
