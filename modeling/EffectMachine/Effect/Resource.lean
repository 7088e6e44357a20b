import EffectMachine.Effect.Basic

/-!
# Scopes and resources

Effects that open scopes and register release effects on them. A release effect runs when the
scope that was active at its registration closes, whichever way the scope's body ended.
-/

namespace EffectMachine.Effect

variable {S : Signature} {a : Ty}

/-- Run in a fresh scope. -/
def region (body : ScopeId → Action S (Effect S a)) : Effect S a :=
  ofNode (.region fun s ↦ do return (← body s).plan)

/-- Register a release effect on the active scope. -/
def addFinalizer (release : Action S (Effect S .unit)) : Effect S .unit :=
  ofNode (.finalizer do return (← release).plan)

/-- Acquire a resource, register its release and yield it. -/
def acquireRelease (acquire : Effect S a) (release : a.El → Action S (Effect S .unit)) :
    Effect S a :=
  acquire.flatMap fun x ↦ .done ((addFinalizer (release x)).map fun _ ↦ .done x)

/-- Run a finalizer after an effect, whichever way the effect ends. -/
def ensuring (e : Effect S a) (finalizer : Effect S .unit) : Effect S a :=
  region fun _ ↦ .done ((addFinalizer (.done finalizer)).flatMap fun _ ↦ .done e)

end EffectMachine.Effect
