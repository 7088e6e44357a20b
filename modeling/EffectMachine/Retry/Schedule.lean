import EffectMachine.Decimal.Shortest
import EffectMachine.Retry.Backoff
import EffectMachine.Retry.Jitter
import EffectMachine.Text.Layout

/-!
# Retry schedules

A schedule decides after each failure whether to try again and how long to wait. It is a
conjunction of rules: it goes on while every rule agrees, waits for the shortest delay that a rule
proposes, and applies jitter to that delay at the end. Rules are consulted in order and the first
one to object ends the consultation.

A schedule holds no random state. Each session carries a `JitterSource` of its own through
`Schedule.decideFrom`, which draws from it once, and only where it perturbs a delay.
-/

namespace EffectMachine

/-- The decision after a failure. -/
inductive Decision where
  | stop
  /-- Try again after a delay. -/
  | retry (delay : Duration)
deriving DecidableEq

/-- What a schedule gets to see. -/
structure Failed (ε : Type) where
  /-- Retries already made. -/
  attempt : Nat
  /-- Time since the first attempt began. -/
  elapsed : Duration
  error : ε

/-- One rule's opinion. -/
inductive Verdict where
  | stop
  | delay (d : Duration)
  | pass
deriving DecidableEq

/-- A rule of a schedule. -/
inductive Rule (S : Signature) where
  /-- Propose the delays of a backoff. -/
  | backoff (b : Backoff)
  /-- Object once more than a limit has elapsed. -/
  | within (limit : Duration)
  /-- Object to errors that a predicate rejects. -/
  | onError (accepts : S.Error → Action S Bool)

/-- The opinion of a rule. -/
def Rule.verdict {S : Signature} (r : Rule S) (f : Failed S.Error) : Action S Verdict :=
  match r with
  | .backoff b => return .delay (b.delay f.attempt)
  | .within limit => return if limit < f.elapsed then .stop else .pass
  | .onError accepts => do return if ← accepts f.error then .pass else .stop

/-- A retry schedule. -/
structure Schedule (S : Signature) where
  rules : List (Rule S)
  /-- The most retries that are ever made. -/
  ceiling : Nat
  jitter : Option Jitter

namespace Schedule

variable {S : Signature}

/-- The ceiling of a schedule that sets none. -/
def defaultCeiling : Nat := 10

/-! ### Building -/

/-- Retry after the delays of a backoff. -/
def ofBackoff (b : Backoff) : Schedule S := ⟨[.backoff b], defaultCeiling, none⟩

/-- Retry at once. -/
def immediate : Schedule S := ofBackoff (.fixed .zero)

/-- Replace the ceiling. -/
def upToRetries (s : Schedule S) (n : Nat) : Schedule S := { s with ceiling := n }

/-- Stop once more than `limit` has elapsed. -/
def upToElapsed (s : Schedule S) (limit : Duration) : Schedule S :=
  { s with rules := s.rules ++ [.within limit] }

/-- Stop at errors that a predicate rejects. -/
def onlyErrors (s : Schedule S) (accepts : S.Error → Action S Bool) : Schedule S :=
  { s with rules := s.rules ++ [.onError accepts] }

/-- Perturb the final delay, from a seed or not. -/
def withJitter (s : Schedule S) (factor : Float) (seed : Option UInt64) : Schedule S :=
  { s with jitter := some (.ofFactor factor seed) }

/-- Go on only while both schedules do, after the shorter delay. The left jitter wins. -/
def intersect (s t : Schedule S) : Schedule S :=
  ⟨s.rules ++ t.rules, min s.ceiling t.ceiling, s.jitter.or t.jitter⟩

/-! ### Deciding -/

/-- The shortest delay that the rules propose on top of the one at hand, or nothing if a rule
objects. -/
def consult (f : Failed S.Error) : List (Rule S) → Option Duration →
    Action S (Option (Option Duration))
  | [], delay => return some delay
  | r :: rs, delay => do
    match ← r.verdict f with
    | .stop => return none
    | .pass => consult f rs delay
    | .delay d =>
      consult f rs (some (match delay with
        | none => d
        | some current => current.shorter d))

/-- The source of samples for a new session. -/
def source (s : Schedule S) : JitterSource :=
  match s.jitter with
  | some j => j.source
  | none => .shared

/-- Consult the schedule, drawing jitter from a session's source. -/
def decideFrom (s : Schedule S) (source : JitterSource) (f : Failed S.Error) :
    Action S (Decision × JitterSource) :=
  if s.ceiling ≤ f.attempt then return (.stop, source)
  else do
    match ← consult f s.rules none with
    | none => return (.stop, source)
    | some delay =>
      let delay := delay.getD .zero
      match s.jitter with
      | none => return (.retry delay, source)
      | some j => do
        let (delay, source) ← j.apply source delay
        return (.retry delay, source)

/-- Consult the schedule outside any session. -/
def decide (s : Schedule S) (f : Failed S.Error) : Action S Decision := do
  return (← s.decideFrom s.source f).1

/-- The description of a schedule: how many rules, the ceiling, the jitter's factor. -/
def text (s : Schedule S) : String :=
  Layout.record "Schedule" [
    ("rules", toString s.rules.length),
    ("max_retries", toString s.ceiling),
    ("jitter", Layout.option (s.jitter.map fun j ↦ Shortest.text j.factor))]

end Schedule

/-- The description of a source of samples. -/
def JitterSource.text (s : JitterSource) : String :=
  Layout.record "JitterRng" [("seeded", Layout.bool s.isSeeded)]

end EffectMachine
