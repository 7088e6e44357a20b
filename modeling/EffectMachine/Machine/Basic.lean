import EffectMachine.World.Basic

/-!
# Computing in the world

A `Machine S α` changes the world and yields an `α`, or escapes. It escapes with a panic, which
`Machine.guard` turns into a defect, or because the fuel of the enclosing run is spent, which
nothing catches. The world is kept on every way out.

`Action.perform` runs an action in the world. It recurses on the action, so running a closure
always ends; the one request that needs more is closing a scope, which runs finalizers, and that
is left to a `Closer`.
-/

namespace EffectMachine

/-- Why a computation did not yield a result. -/
inductive Escape where
  /-- Application code panicked outside any guard. -/
  | panic (p : Panic)
  /-- The fuel of the run is spent. -/
  | exhausted
deriving DecidableEq

/-- A computation in the world. -/
def Machine (S : Signature) (α : Type) : Type :=
  World S → Except Escape α × World S

namespace Machine

variable {S : Signature} {α β : Type}

/-- Run a computation. -/
@[inline] def run (m : Machine S α) (w : World S) : Except Escape α × World S := m w

/-- Yield a result. -/
@[always_inline, inline] def done (a : α) : Machine S α := fun w ↦ (.ok a, w)

/-- Continue with the result; an escape skips what follows. -/
@[always_inline, inline] def andThen (m : Machine S α) (f : α → Machine S β) : Machine S β :=
  fun w ↦
    match m w with
    | (.ok a, w) => f a w
    | (.error e, w) => (.error e, w)

instance : Monad (Machine S) where
  pure := done
  bind := andThen

instance : LawfulMonad (Machine S) :=
  LawfulMonad.mk' _
    (fun x ↦ by
      funext w
      change (andThen x done) w = x w
      unfold andThen done
      split <;> simp_all)
    (fun _ _ ↦ rfl)
    (fun x f g ↦ by
      funext w
      change (andThen (andThen x f) g) w = (andThen x fun a ↦ andThen (f a) g) w
      unfold andThen
      dsimp only
      cases x w with
      | mk r w' => cases r <;> rfl)

/-- Escape. -/
@[inline] def escape (e : Escape) : Machine S α := fun w ↦ (.error e, w)

/-- Change the world and yield what the change yields. -/
@[inline] def modifyGet (f : World S → α × World S) : Machine S α := fun w ↦
  let r := f w
  (.ok r.1, r.2)

/-- Look at the world. -/
@[inline] def gets (f : World S → α) : Machine S α := fun w ↦ (.ok (f w), w)

/-- Change the world. -/
@[inline] def modify (f : World S → World S) : Machine S Unit := fun w ↦ (.ok (), f w)

/-- Turn a panic into a defect. -/
@[inline] def guard (m : Machine S α) : Machine S (Except Defect α) := fun w ↦
  match m w with
  | (.ok a, w) => (.ok (.ok a), w)
  | (.error (.panic p), w) => (.ok (.error (.panic p.text)), w)
  | (.error .exhausted, w) => (.error .exhausted, w)

end Machine

/-- How a scope is closed. -/
abbrev Closer (S : Signature) := ScopeId → Machine S (Outcome S.Error Unit)

/-- Run an action. -/
def Action.perform {S : Signature} {α : Type} (close : Closer S) :
    Action S α → World S → Except Escape α × World S
  | .done a, w => (.ok a, w)
  | .panic p, w => (.error (.panic p), w)
  | .read k, w => (k w.state).perform close w
  | .write s k, w => k.perform close { w with state := s }
  | .now k, w => (k w.clock.nanos).perform close w
  | .advance d k, w => k.perform close (w.modifyClock fun c ↦ c.advance d)
  | .sleep d k, w => k.perform close (w.modifyClock fun c ↦ c.sleep d)
  | .draw k, w => let r := w.draw; (k r.1).perform close r.2
  | .openScope k, w => let r := w.openScope; (k r.1).perform close r.2
  | .addCleanup s c k, w => let r := w.addFinalizer s (.cleanup c); (k r.1).perform close r.2
  | .closeScope s k, w =>
    match close s w with
    | (.ok r, w) => (k r).perform close w
    | (.error e, w) => (.error e, w)
  | .inspect s k, w => (k (w.scope s).status).perform close w
  | .settle s o k, w => let r := w.settle s o; (k r.1).perform close r.2
  | .take s k, w => let r := w.takeOutcome s; (k r.1).perform close r.2

end EffectMachine
