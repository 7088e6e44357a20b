import EffectMachine.Effect.Recovery
import EffectMachine.Effect.Resource
import EffectMachine.Script.Policy

/-!
# Scripted effects

A `Term` describes an effect that yields payloads. `Term.build` turns it into an effect: parts
that are effects themselves are built at once, bodies of closures each time the closure is
called, in the bindings of the place where the closure stands.

**Recursion goes through names.** A call builds the body of a definition. Where its result is
handed to the machine as it stands, a call answers with the name instead, so such a recursion
unfolds as far as the machine goes; elsewhere calls nest to a fixed depth.
-/

namespace EffectMachine.Script

/-- What the registration of a scripted asynchronous effect does. -/
inductive AsyncStep where
  | succeed (e : Expr)
  | fail (e : Expr)
  | failCause (cause : Cause String)
  /-- Keep the slot under a name, to be settled later. -/
  | stash (name : String)
  | eval (e : Expr)

/-- How a scripted parallel effect collects its values. -/
inductive CollectMode where
  /-- Count them. -/
  | count
  /-- Report a defect. -/
  | defect
  | panic

/-- A scripted effect. -/
inductive Term where
  | succeed (value : Expr)
  | fail (error : Expr)
  | failCause (cause : Cause String)
  | ofValidation (result : Except ValidationError Expr)
  | ofResult (result : Except Expr Expr)
  | unit
  | suspend (body : Term)
  | sync (e : Expr)
  | attempt (e : Expr)
  | async (steps : List AsyncStep)
  | never
  | sleep (d : Duration)
  | service (key : Key)
  | all (branches : List Term)
  | race (branches : List Term)
  | collect (branches : List Term) (mode : CollectMode)
  | region (name : Option String) (body : Term)
  | acquireRelease (acquire : Term) (var : String) (release : Term)
  | addFinalizer (body : Term)
  | map (source : Term) (var : String) (e : Expr)
  | flatMap (source : Term) (var : String) (body : Term)
  | tap (source : Term) (var : String) (e : Expr)
  | asUnit (source : Term)
  | zip (left right : Term)
  | catchCause (source : Term) (var : String) (accepts : Expr) (handler : Term)
  | catchError (source : Term) (var : String) (accepts : Expr) (handler : Term)
  | catchAll (source : Term) (var : String) (handler : Term)
  | orElse (source other : Term)
  | ensuring (source finalizer : Term)
  | retry (source : Term) (schedule : ScheduleTerm)
  | provide (source : Term) (layer : LayerTerm)
  | timeout (source : Term) (limit : Duration)
  /-- Yield an element of a plain type under the promise of a payload. -/
  | native (type : Plain) (value : Expr)
  /-- Take the values of a source at a plain type. -/
  | cast (type : Plain) (source : Term)
  /-- Bind a variable to a value computed now. -/
  | bindVar (var : String) (value : Expr) (body : Term)
  /-- Bind a name to an effect built now. -/
  | share (name : String) (effect body : Term)
  | ref (name : String)
  | cond (c : Expr) (a b : Term)
  /-- Build a step over and over around what the step before built. -/
  | iterate (n : Nat) (seed step : Term)
  | call (name : String) (args : List Expr)
deriving Inhabited

/-- An effect that scripts build. -/
abbrev ScriptedEffect := Effect scripted .datum

/-- What is bound where a term stands. -/
structure Env where
  vars : Bindings Datum := []
  effects : Bindings ScriptedEffect := []

/-- Bind a variable. -/
def Env.bindVar (env : Env) (var : String) (d : Datum) : Env :=
  { env with vars := env.vars.push var d }

/-- Bind the text of a cause and the name of its kind. -/
def Env.bindCause (env : Env) (var : String) (cause : Cause String) : Env :=
  (env.bindVar var (.text cause.text)).bindVar "kind" (.text cause.kind)

/-- Settle a slot and log whether this was the first settlement. -/
def settleLogged (slot : SlotId) (o : Outcome String Value) : Code Unit := do
  record (.flag (← settleSlot slot o))

/-- One step of the registration on a slot. -/
def AsyncStep.perform (vars : Bindings Datum) (slot : SlotId) : AsyncStep → Code Unit
  | .succeed e => do settleLogged slot (.ok (.ofDatum (← e.compute vars)))
  | .fail e => do settleLogged slot (.error (.fail (← e.plain vars)))
  | .failCause cause => settleLogged slot (.error cause)
  | .stash name => updateSession fun s ↦ { s with slots := s.slots.put name slot }
  | .eval e => do let _ ← e.compute vars

/-- The steps of the registration on a slot, in order. -/
def performAll (vars : Bindings Datum) (slot : SlotId) : List AsyncStep → Code Unit
  | [] => return ()
  | s :: ss => do
    s.perform vars slot
    performAll vars slot ss

/-- Collect the values of a scripted parallel effect. -/
def CollectMode.collect (mode : CollectMode) (values : List Value) :
    Code (Except Defect Value) := do
  record (.text "collect")
  match mode with
  | .count => return .ok (.ofDatum (.int (Int64.ofNat values.length)))
  | .defect => return .error .emptyRace
  | .panic => panicWith "collect failed"

/-- An effect that yields nothing, as one that yields null. -/
def yieldNull {a : Ty} (e : Effect scripted a) : ScriptedEffect := e.map fun _ ↦ .done .null

/-- Evaluate the arguments of a call where a throw has no meaning. -/
def computeAll (vars : Bindings Datum) (args : List Expr) : Code (List Datum) :=
  (Expr.evalAll vars args).toCode

mutual

/-- Build the effect of a term. `call` builds the body of a definition; `last` says that the
result is handed to the machine as it stands. -/
def Term.build (call : Call → Code ScriptedEffect) (last : Bool) (env : Env) :
    Term → Code ScriptedEffect
  | .succeed value => do return .succeed (← value.compute env.vars)
  | .fail error => do return .fail (← error.plain env.vars)
  | .failCause cause => return .failCause cause
  | .ofValidation (.ok value) => do return .ofValidation (.ok (← value.compute env.vars))
  | .ofValidation (.error e) => return .ofValidation (.error e)
  | .ofResult (.ok value) => do return .ofExcept (.ok (← value.compute env.vars))
  | .ofResult (.error e) => do return .ofExcept (.error (← e.plain env.vars))
  | .unit => return yieldNull .unit
  | .suspend body => return .suspend (.later fun _ ↦ body.build call true env)
  | .sync e => return .sync (e.compute env.vars)
  | .attempt e => return .attempt (e.eval env.vars).run
  | .async steps => return .async fun slot ↦ performAll env.vars slot steps
  | .never => return .never
  | .sleep d => return yieldNull (.sleep d)
  | .service key =>
    return (Effect.service key).map fun x ↦ .done (serviceDatum key x)
  | .all branches => do
    return (Effect.all (← buildAll call env branches)).map fun ds ↦ .done (.list ds)
  | .race branches => do return .race (← buildAll call env branches)
  | .collect branches mode => do
    return .ofNode (.parallel ((← buildAll call env branches).map Effect.node) mode.collect)
  | .region name body => return .region fun s ↦ do
    if let some name := name then
      updateSession fun session ↦ { session with scopes := session.scopes.put name s }
    body.build call true env
  | .acquireRelease acquire var release => do
    return (← acquire.build call false env).acquireRelease fun d ↦ do
      return (← release.build call false (env.bindVar var d)).asUnit
  | .addFinalizer body =>
    return yieldNull (.addFinalizer (.later fun _ ↦ do
      return (← body.build call false env).asUnit))
  | .map source var e => do
    return (← source.build call false env).map fun d ↦ e.compute (env.bindVar var d).vars
  | .flatMap source var body => do
    return (← source.build call false env).flatMap fun d ↦ body.build call true (env.bindVar var d)
  | .tap source var e => do
    return (← source.build call false env).tap fun d ↦ do
      let _ ← e.compute (env.bindVar var d).vars
  | .asUnit source => do return yieldNull (← source.build call false env).asUnit
  | .zip left right => do
    let left ← left.build call false env
    return (left.zip (← right.build call false env)).map fun p ↦ .done (.list [p.1, p.2])
  | .catchCause source var accepts handler => do
    return (← source.build call false env).catchCause
      (fun cause ↦ accepts.holds (env.bindCause var cause).vars)
      fun cause ↦ handler.build call true (env.bindCause var cause)
  | .catchError source var accepts handler => do
    return (← source.build call false env).catchError
      (fun error ↦ accepts.holds (env.bindVar var (.text error)).vars)
      fun error ↦ handler.build call true (env.bindVar var (.text error))
  | .catchAll source var handler => do
    return (← source.build call false env).catchAll fun error ↦
      handler.build call true (env.bindVar var (.text error))
  | .orElse source other => do
    let source ← source.build call false env
    return source.orElse (← other.build call false env)
  | .ensuring source finalizer => do
    let source ← source.build call false env
    return source.ensuring (← finalizer.build call false env).asUnit
  | .retry source schedule => do
    return (← source.build call false env).retry (schedule.build env.vars)
  | .provide source layer => do
    let source ← source.build call false env
    return source.provide (← layer.build env.vars)
  | .timeout source limit => do return (← source.build call false env).timeout limit
  | .native type value => do
    let x ← toService type (← value.compute env.vars)
    return (Effect.succeed x : Effect scripted (.plain type)).relabel .datum
  | .cast type source => do
    let source ← source.build call false env
    return (source.relabel (.plain type)).map fun x ↦ .done (type.toDatum x)
  | .bindVar var value body => do
    body.build call last (env.bindVar var (← value.compute env.vars))
  | .share name effect body => do
    let e ← effect.build call false env
    body.build call last { env with effects := env.effects.push name e }
  | .ref name =>
    match env.effects.find? name with
    | some e => return e
    | none => panicWith ("unknown effect " ++ name)
  | .cond c a b => do
    if ← c.holds env.vars then a.build call last env else b.build call last env
  | .iterate n seed step => do
    let seed ← seed.build call false env
    Action.iterate
      (fun i e ↦
        step.build call false
          { env.bindVar "i" (.int (Int64.ofNat i)) with effects := env.effects.push "hole" e })
      n 0 seed
  | .call name args => do
    let args ← computeAll env.vars args
    if last then return .named ⟨name, args⟩ else call ⟨name, args⟩

/-- Build the effects of terms, in order. -/
def Term.buildAll (call : Call → Code ScriptedEffect) (env : Env) :
    List Term → Code (List ScriptedEffect)
  | [] => return []
  | t :: ts => do
    let e ← t.build call false env
    return e :: (← Term.buildAll call env ts)

end

/-! ### Definitions -/

/-- A defined effect with parameters. -/
structure Definition where
  params : List String
  body : Term

/-- Defined effects by name. -/
abbrev Definitions := Bindings Definition

/-- Build the body of a definition in bindings of its parameters alone. Calls in it that are built
at once nest to a depth of `n`. -/
def Definitions.expand (defs : Definitions) : (n : Nat) → Call → Code ScriptedEffect
  | 0, _ => panicWith "calls nest too deeply"
  | n + 1, c =>
    match defs.find? c.name with
    | none => panicWith ("unknown definition " ++ c.name)
    | some d => d.body.build (defs.expand n) false { vars := (d.params.zip c.args).reverse }

/-- How deep calls may nest that are built at once. -/
def callDepth : Nat := 1 <<< 60

/-- What names stand for in scripts. -/
def Definitions.program (defs : Definitions) : Program scripted where
  effect c := do return (← defs.expand callDepth c).node
  cleanup := Cleanup.perform

/-- Build the effect of a term where nothing is bound. -/
def Definitions.build (defs : Definitions) (t : Term) : Code ScriptedEffect :=
  t.build (defs.expand callDepth) false {}

/-- Build the effects of terms where nothing is bound, in order. -/
def Definitions.buildAll (defs : Definitions) (ts : List Term) : Code (List ScriptedEffect) :=
  Term.buildAll (defs.expand callDepth) {} ts

end EffectMachine.Script
