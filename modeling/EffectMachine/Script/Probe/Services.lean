import EffectMachine.Script.Setup

/-!
# Probing contexts

Commands build contexts under names, from one another, and look services up in them. A name that
was never given stands for the empty context.
-/

namespace EffectMachine.Script

/-- A command on named contexts. -/
inductive ContextCommand where
  | insert (target source : String) (key : Key) (value : Expr)
  | erased (target source : String) (key : Key) (type : Plain) (value : Expr)
  | merge (target left right : String)
  | present (source : String)
  | apply (target source : String) (layer : LayerTerm)
  | lookup (source : String) (key : Key)
  | compare (key : Key) (other : Option Key)

/-- What is told after a command. -/
inductive ContextReport where
  | context (c : Context) (log : List Datum)
  | missing (m : MissingService) (log : List Datum)
  | defect (d : Defect) (log : List Datum)
  /-- The payload under a key, whether the key is bound, and whether an instance of any type is
  found. -/
  | lookup (value : Except MissingService Datum) (contains erased : Bool)
  /-- A key, and whether it equals the other one. -/
  | key (k : Key) (equal : Option Bool)

/-- The context under a name. -/
def contextNamed (contexts : Bindings Context) (name : String) : Context :=
  (contexts.find? name).getD .empty

/-- Report a context and keep it under a name. -/
def keepContext (contexts : Bindings Context) (target : String) (c : Context) :
    Scripted (ContextReport × Bindings Context) := do
  let log ← performIn plainInterpreter takeLog
  return (.context c log, contexts.put target c)

/-- Carry a command out. A layer is built and applied under one guard. -/
def ContextCommand.run (contexts : Bindings Context) :
    ContextCommand → Scripted (ContextReport × Bindings Context)
  | .insert target source key value => do
    let x ← performIn plainInterpreter do toService key.type (← value.compute [])
    keepContext contexts target ((contextNamed contexts source).bind key x)
  | .erased target source key type value => do
    let x ← performIn plainInterpreter do toService type (← value.compute [])
    keepContext contexts target ((contextNamed contexts source).insert key ⟨type, x⟩)
  | .merge target left right =>
    keepContext contexts target ((contextNamed contexts left).merge (contextNamed contexts right))
  | .present source => do
    let c := contextNamed contexts source
    return (.context c (← performIn plainInterpreter takeLog), contexts)
  | .apply target source term => do
    let built := performIn plainInterpreter do
      (← term.build []).build (contextNamed contexts source)
    match ← built.guard with
    | .ok (.ok c) => keepContext contexts target c
    | .ok (.error m) => return (.missing m (← performIn plainInterpreter takeLog), contexts)
    | .error d => return (.defect d (← performIn plainInterpreter takeLog), contexts)
  | .lookup source key =>
    let c := contextNamed contexts source
    return (.lookup ((c.require key).map (serviceDatum key)) (c.contains key)
      (c.find? key).isSome, contexts)
  | .compare key other => return (.key key (other.map fun o ↦ key = o), contexts)

/-- Carry commands out, one after the other. -/
def runContextCommands (contexts : Bindings Context) :
    List ContextCommand → Scripted (List ContextReport)
  | [] => return []
  | c :: cs => do
    let (report, contexts) ← c.run contexts
    return report :: (← runContextCommands contexts cs)

end EffectMachine.Script
