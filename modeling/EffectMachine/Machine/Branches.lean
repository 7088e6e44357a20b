import EffectMachine.Machine.State

/-!
# Running branches

Branches run one at a time, on the same stack and in the same scope as the effect that started
them, above a frame that remembers the branches still to come. Both functions here recurse on
those branches, passing over the ones whose outcome is known already.
-/

namespace EffectMachine.Host

variable {S : Signature}

/-- Start the next branch of a parallel effect. When none is left, collect the values, which are
kept newest first. -/
def nextParallel (h : Host S) (collect : List Value → Action S (Except Defect Value)) :
    List (Fork S) → List Value → State S → Machine S (State S)
  | [], collected, st => do
    match ← h.attempt (collect collected.reverse) with
    | .ok (.ok v) => return st.succeed v
    | .ok (.error d) | .error d => return st.die d
  | f :: rest, collected, st => do
    match ← h.turn f with
    | .run job =>
      let st := st.push (.parallel rest collected collect)
      return { st with context := job.context }.continueWith job.node
    | .settled (.ok v) => h.nextParallel collect rest (v :: collected) st
    | .settled (.error c) => return st.fail c

/-- Start the next branch of a race. When none is left, fail with every cause, which are kept
newest first. -/
def nextRace (h : Host S) :
    List (Fork S) → List (Cause S.Error) → State S → Machine S (State S)
  | [], failures, st => return st.fail (.composite failures.reverse)
  | f :: rest, failures, st => do
    match ← h.turn f with
    | .run job =>
      let st := st.push (.race rest failures)
      return { st with context := job.context }.continueWith job.node
    | .settled (.ok v) => return st.succeed v
    | .settled (.error c) => h.nextRace rest (c :: failures) st

end EffectMachine.Host
