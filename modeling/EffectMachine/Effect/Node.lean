import EffectMachine.Effect.Tag
import EffectMachine.Retry.Schedule
import EffectMachine.Services.Layer

/-!
# Nodes

The untyped description of an effect. A node holds what its handler needs: sub-effects, closures
as actions, and static data. Nothing in it runs before a machine interprets it, and the same node
may be interpreted any number of times.

A closure that answers with an effect answers with a `Plan`: a node, or the name of an effect that
a `Program` defines. A continuation answers with a `Step`, which may also be a value or a failure
at once.
-/

namespace EffectMachine

mutual

/-- An effect, untyped. -/
inductive Node (S : Signature) : Type where
  /-- A value, made anew on every visit. -/
  | pure (make : Action S Value)
  | fail (cause : Cause S.Error)
  /-- An effect that is built on every visit. -/
  | suspend (thunk : Action S (Plan S))
  /-- Run the source, then hand its value to the continuation. -/
  | bind (source : Node S) (next : Value → Action S (Step S))
  /-- Look a service up. -/
  | service (key : Key)
  /-- Run the inner effect in the context that a layer builds. -/
  | provide (layer : Layer S) (inner : Node S)
  | sleep (duration : Duration)
  /-- Register a completion on a fresh slot, then wait for the slot. -/
  | async (start : SlotId → Action S Unit)
  /-- Recover from the causes that a predicate accepts. -/
  | recover (source : Node S) (accepts : Cause S.Error → Action S Bool)
      (handler : Cause S.Error → Action S (Plan S))
  /-- Run every branch and collect the values in order; the first failure wins. -/
  | parallel (branches : List (Node S)) (collect : List Value → Action S (Except Defect Value))
  /-- The first branch to succeed wins; if all fail, all their causes are reported. -/
  | race (branches : List (Node S))
  /-- Run the source again after its errors while a schedule allows it. -/
  | retry (source : Node S) (schedule : Schedule S)
  /-- Run the body in a fresh scope that is closed on every way out. -/
  | region (body : ScopeId → Action S (Plan S))
  /-- Register a release effect on the active scope. -/
  | finalizer (release : Action S (Plan S))
  /-- Fail if the source takes longer than the limit. -/
  | timeout (source : Node S) (limit : Duration)

/-- What a closure answers that builds an effect. -/
inductive Plan (S : Signature) : Type where
  /-- An effect written out. -/
  | node (n : Node S)
  /-- An effect that a program defines. -/
  | named (d : S.Name)

/-- What a continuation answers. -/
inductive Step (S : Signature) : Type where
  | value (v : Value)
  | effect (p : Plan S)
  | failure (cause : Cause S.Error)

end

/-- What the names of an application stand for. -/
structure Program (S : Signature) where
  /-- Build a named effect. -/
  effect : S.Name → Action S (Node S)
  /-- Run a named finalizer. -/
  cleanup : S.Cleanup → Action S (Outcome S.Error Unit)

/-- Build the node that a plan stands for. -/
def Program.build {S : Signature} (p : Program S) : Plan S → Action S (Node S)
  | .node n => .done n
  | .named d => p.effect d

namespace Node

variable {S : Signature}

/-- The effect that yields the unit value. -/
def unit : Node S := .pure (.done .unit)

/-- The kind of a node. -/
def tag : Node S → Tag
  | .pure _ => .pure
  | .fail _ => .fail
  | .suspend _ => .suspend
  | .bind _ _ => .bind
  | .service _ => .service
  | .provide _ _ => .provide
  | .sleep _ => .sleep
  | .async _ => .async
  | .recover _ _ _ => .recover
  | .parallel _ _ => .parallel
  | .race _ => .race
  | .retry _ _ => .retry
  | .region _ => .region
  | .finalizer _ => .finalizer
  | .timeout _ _ => .timeout

/-! ### Description -/

mutual

/-- The description of a node: its kind, with the sub-effects and data that can be shown. -/
def text : Node S → String
  | .bind source _ => "Bind(" ++ source.text ++ ")"
  | .provide _ inner => "Provide(" ++ inner.text ++ ")"
  | .retry source schedule => "Retry(" ++ source.text ++ ", " ++ schedule.text ++ ")"
  | .timeout source limit => "Timeout(" ++ source.text ++ ", " ++ limit.text ++ ")"
  | .recover source _ _ => "Catch(" ++ source.text ++ ")"
  | .service key => "Service(" ++ key.text ++ ")"
  | .sleep duration => "Sleep(" ++ duration.text ++ ")"
  | .parallel branches _ => "Parallel(" ++ Layout.list (textAll branches) ++ ")"
  | .race branches => "Race(" ++ Layout.list (textAll branches) ++ ")"
  | .pure _ => Tag.pure.name
  | .fail _ => Tag.fail.name
  | .suspend _ => Tag.suspend.name
  | .async _ => Tag.async.name
  | .region _ => Tag.region.name
  | .finalizer _ => Tag.finalizer.name

/-- The descriptions of several nodes. -/
def textAll : List (Node S) → List String
  | [] => []
  | n :: ns => n.text :: textAll ns

end

end Node

end EffectMachine
