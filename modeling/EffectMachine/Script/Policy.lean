import EffectMachine.Retry.Schedule
import EffectMachine.Script.Expr
import EffectMachine.Services.Layer

/-!
# Scripted schedules, layers and contexts

The schedules, layers and contexts that scripts write down, and what they stand for.
-/

namespace EffectMachine.Script

/-! ### Schedules -/

mutual

/-- A schedule: a backoff, narrowed step by step. -/
inductive ScheduleTerm where
  | mk (base : Backoff) (narrowings : List Narrowing)

/-- One step of narrowing a schedule. -/
inductive Narrowing where
  | retries (n : Nat)
  | maxElapsed (limit : Duration)
  /-- Retry while the expression holds of the error, which it sees as `err`. -/
  | retryIf (e : Expr)
  | jitter (factor : Float) (seed : Option UInt64)
  | intersect (s : ScheduleTerm)

end

mutual

/-- The schedule that a term stands for. -/
def ScheduleTerm.build (vars : Bindings Datum) : ScheduleTerm → Schedule scripted
  | .mk base narrowings => narrowAll vars narrowings (.ofBackoff base)

/-- Narrow a schedule once. -/
def Narrowing.apply (vars : Bindings Datum) : Narrowing → Schedule scripted → Schedule scripted
  | .retries n, s => s.upToRetries n
  | .maxElapsed limit, s => s.upToElapsed limit
  | .retryIf e, s => s.onlyErrors fun error ↦ e.holds (vars.push "err" (.text error))
  | .jitter factor seed, s => s.withJitter factor seed
  | .intersect t, s => s.intersect (t.build vars)

/-- Narrow a schedule step by step. -/
def narrowAll (vars : Bindings Datum) : List Narrowing → Schedule scripted → Schedule scripted
  | [], s => s
  | n :: ns, s => narrowAll vars ns (n.apply vars s)

end

/-! ### Services -/

/-- A payload as a service of a plain type; a payload of the wrong shape panics. -/
def toService (p : Plain) (d : Datum) : Code p.El :=
  match p.ofDatum? d with
  | some x => .done x
  | none => panicWith "bad service value"

/-- The service under a key as a payload. -/
def serviceDatum (k : Key) (x : k.type.El) : Datum := k.type.toDatum x

/-! ### Layers -/

/-- A layer as scripts write it. -/
inductive LayerTerm where
  | empty
  /-- Bind a key to a value computed when the layer is built. -/
  | value (key : Key) (e : Expr)
  /-- Bind a key to a value computed from required services under names. -/
  | factory (key : Key) (needs : List (Key × String)) (e : Expr)
  /-- Keep the listed keys alone. -/
  | only (keys : List Key)
  | require (key : Key)
  /-- Bind a key to the number of services. -/
  | count (key : Key)
  /-- Bind a key to an instance of a type of its own. -/
  | erased (key : Key) (type : Plain) (e : Expr)
  | log (e : Expr)
  | beside (left right : LayerTerm)
  | after (first second : LayerTerm)
  | andThen (first second : LayerTerm)
deriving Inhabited

/-- Require services one after the other and bind each under its name. -/
def requireAll (c : Context) : List (Key × String) → Bindings Datum →
    Except MissingService (Bindings Datum)
  | [], vars => .ok vars
  | (k, name) :: needs, vars =>
    match c.require k with
    | .error e => .error e
    | .ok x => requireAll c needs (vars.push name (serviceDatum k x))

/-- The layer that a term stands for. Values are computed now, factories when applied. -/
def LayerTerm.build (vars : Bindings Datum) : LayerTerm → Code (Layer scripted)
  | .empty => .done .empty
  | .value key e => do return .ofValue key (← toService key.type (← e.compute vars))
  | .factory key needs e => .done <| .ofFactory key fun c ↦
    match requireAll c needs vars with
    | .error missing => .done (.error missing)
    | .ok vars => do return .ok (← toService key.type (← e.compute vars))
  | .only keys => .done ⟨fun c ↦ .done (.ok (c.select keys))⟩
  | .require key => .done ⟨fun c ↦ .done ((c.require key).map fun _ ↦ c)⟩
  | .count key => .done ⟨fun c ↦ .done (.ok (c.insert key ⟨.int, Int64.ofNat c.size⟩))⟩
  | .erased key type e => .done ⟨fun c ↦ do
    return .ok (c.insert key ⟨type, ← toService type (← e.compute vars)⟩)⟩
  | .log e => .done ⟨fun c ↦ do
    let _ ← e.compute vars
    return .ok c⟩
  | .beside left right => do
    let left ← left.build vars
    return left.beside (← right.build vars)
  | .after first second => do
    let first ← first.build vars
    return first.after (← second.build vars)
  | .andThen first second => do
    let first ← first.build vars
    return first.andThen (← second.build vars)

/-! ### Contexts -/

/-- A context as scripts write it: keys with the expressions of their services. -/
abbrev ContextTerm := List (Key × Expr)

/-- The context that a term stands for, its entries bound in order. -/
def buildContext (vars : Bindings Datum) : ContextTerm → Context → Code Context
  | [], c => return c
  | (k, e) :: es, c => do
    buildContext vars es (c.bind k (← toService k.type (← e.compute vars)))

end EffectMachine.Script
