import EffectMachine.Effect.Basic

/-!
# Recovery and policies

Handlers for causes and for errors, retrying and timeouts. The handlers for errors are built on
the one for causes, so they see bare errors only: a composite that carries an error passes them.
-/

namespace EffectMachine.Effect

variable {S : Signature} {a : Ty}

/-- Recover from the causes that a predicate accepts. -/
def catchCause (e : Effect S a) (accepts : Cause S.Error → Action S Bool)
    (handler : Cause S.Error → Action S (Effect S a)) : Effect S a :=
  ofNode (.recover e.node accepts fun c ↦ do return (← handler c).plan)

/-- Recover from the errors that a predicate accepts. -/
def catchError (e : Effect S a) (accepts : S.Error → Action S Bool)
    (handler : S.Error → Action S (Effect S a)) : Effect S a :=
  e.catchCause
    (fun
      | .fail error => accepts error
      | _ => .done false)
    (fun
      | .fail error => handler error
      | other => .done (failCause other))

/-- Recover from every error. -/
def catchAll (e : Effect S a) (handler : S.Error → Action S (Effect S a)) : Effect S a :=
  e.catchError (fun _ ↦ .done true) handler

/-- Fall back to another effect on every error. -/
def orElse (e o : Effect S a) : Effect S a := e.catchAll fun _ ↦ .done o

/-- Run again after errors while a schedule allows it. -/
def retry (e : Effect S a) (schedule : Schedule S) : Effect S a :=
  ofNode (.retry e.node schedule)

/-- Fail if the effect takes longer than a limit; it is not interrupted. -/
def timeout (e : Effect S a) (limit : Duration) : Effect S a := ofNode (.timeout e.node limit)

end EffectMachine.Effect
