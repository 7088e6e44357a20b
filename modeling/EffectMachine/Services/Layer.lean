import EffectMachine.Action
import EffectMachine.Services.Context

/-!
# Layers

A layer builds a context from a context; building may run application code, report a missing
service or panic. Layers compose one after the other (`Layer.andThen`) and side by side
(`Layer.beside`), where both see the same input and the right one wins.
-/

namespace EffectMachine

/-- A builder of contexts. -/
@[ext] structure Layer (S : Signature) where
  build : Context → Action S (Except MissingService Context)

namespace Layer

variable {S : Signature}

/-- The layer that leaves the context as it is. -/
def empty : Layer S := ⟨fun c ↦ .done (.ok c)⟩

/-- Bind a key to an existing instance. -/
def ofValue (k : Key) (x : k.type.El) : Layer S := ⟨fun c ↦ .done (.ok (c.bind k x))⟩

/-- Bind a key to what a factory makes of the context. -/
def ofFactory (k : Key) (make : Context → Action S (Except MissingService k.type.El)) : Layer S :=
  ⟨fun c ↦ do return (← make c).map (c.bind k)⟩

/-- Build `a`, then build `b` on top of it. -/
def andThen (a b : Layer S) : Layer S :=
  ⟨fun c ↦ do
    match ← a.build c with
    | .ok built => b.build built
    | .error e => return .error e⟩

/-- Build `b`, then build `a` on top of it. -/
def after (a b : Layer S) : Layer S := b.andThen a

/-- Build both layers from the same context, the left one first, and merge what they built. -/
def beside (a b : Layer S) : Layer S :=
  ⟨fun c ↦ do
    match ← a.build c with
    | .error e => return .error e
    | .ok left =>
      match ← b.build c with
      | .error e => return .error e
      | .ok right => return .ok (left.merge right)⟩

/-- A layer is described without its builder. -/
def text (_ : Layer S) : String := "Layer(<build>)"

end Layer

end EffectMachine
