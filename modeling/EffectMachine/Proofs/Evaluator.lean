import EffectMachine.Machine.Interpreter

/-!
# Direct evaluation

The meaning of effects without a stack. `Host.evaluate` recurses on an effect: it takes the context
and the scope as arguments, evaluates sub-effects by calling itself and combines their outcomes at
the place of the call. There are no frames, no states and no steps, and no budget is counted.

It shares with the machine what is not control flow: running closures (`Host.attempt`,
`Host.build`), the operations of the world, and the order in which a closing scope invokes its
finalizers (`Host.shut`).

**Fuel** bounds the depth of the recursion and the rounds of a retry loop. It is unrelated to the
fuel of the machine, which counts rounds.
-/

namespace EffectMachine

variable {S : Signature}

namespace Host

/-! ### Branches and retries -/

/-- Evaluate effects in order and list their values; stop at the first failure. -/
def evaluateAll (ev : Node S → Machine S (Outcome S.Error Value)) :
    List (Node S) → Machine S (Outcome S.Error (List Value))
  | [] => return .ok []
  | n :: ns => do
    match ← ev n with
    | .error c => return .error c
    | .ok v => return (← evaluateAll ev ns).map (v :: ·)

/-- Evaluate effects in order until one succeeds; if none does, fail with all their causes. -/
def evaluateFirst (ev : Node S → Machine S (Outcome S.Error Value)) :
    List (Node S) → List (Cause S.Error) → Machine S (Outcome S.Error Value)
  | [], failures => return .error (.composite failures)
  | n :: ns, failures => do
    match ← ev n with
    | .ok v => return .ok v
    | .error c => evaluateFirst ev ns (failures ++ [c])

/-- Evaluate a source again after its errors while a schedule allows it. -/
def evaluateRetry (h : Host S) (source : Machine S (Outcome S.Error Value)) (schedule : Schedule S)
    (startedAt : Nat) : Nat → JitterSource → Nat → Machine S (Outcome S.Error Value)
  | 0, _, _ => .escape .exhausted
  | fuel + 1, jitter, attempt => do
    match ← source with
    | .error (.fail error) =>
      let elapsed ← .gets fun w ↦ w.clock.since startedAt
      match ← h.attempt (schedule.decideFrom jitter ⟨attempt, elapsed, error⟩) with
      | .ok (.retry delay, jitter) =>
        .modify fun w ↦ w.modifyClock fun c ↦ c.sleep delay
        evaluateRetry h source schedule startedAt fuel jitter (attempt + 1)
      | .ok (.stop, _) => return .error (.fail error)
      | .error d => return .error ((Cause.fail error).combine (.defect d))
    | outcome => return outcome

/-! ### Effects -/

/-- Evaluate the effect that was built, or fail with the defect of its building. -/
def evaluateBuilt (ev : Node S → Machine S (Outcome S.Error Value)) :
    Except Defect (Node S) → Machine S (Outcome S.Error Value)
  | .ok n => ev n
  | .error d => return .error (.defect d)

/-- Evaluate an effect in a context and a scope. Release effects that it registers are to be
counted on the given budget. -/
def evaluate (h : Host S) (budget : BudgetId) :
    Nat → Node S → Context → ScopeId → Machine S (Outcome S.Error Value)
  | 0, _, _, _ => .escape .exhausted
  | fuel + 1, node, context, scope =>
    match node with
    | .pure make => do return (← h.attempt make).mapError .defect
    | .fail cause => return .error cause
    | .suspend thunk => do
      evaluateBuilt (h.evaluate budget fuel · context scope) (← h.build thunk)
    | .bind source next => do
      match ← h.evaluate budget fuel source context scope with
      | .error c => return .error c
      | .ok v =>
        match ← h.attempt (do h.program.control (← next v)) with
        | .ok (.value v) => return .ok v
        | .ok (.failure c) => return .error c
        | .ok (.effect node) => h.evaluate budget fuel node context scope
        | .ok .pending => return .error (.defect (.stalled "pending"))
        | .error d => return .error (.defect d)
    | .service key =>
      match context.find? key with
      | some s => return .ok ⟨.service, s⟩
      | none => return .error (.serviceNotFound key)
    | .provide layer inner => do
      match ← h.attempt (layer.build context) with
      | .ok (.ok context) => h.evaluate budget fuel inner context scope
      | .ok (.error missing) => return .error (.serviceNotFound missing.key)
      | .error d => return .error (.defect d)
    | .sleep d => do
      .modify fun w ↦ w.modifyClock fun c ↦ c.sleep d
      return .ok .unit
    | .async start => do
      let slot ← .modifyGet World.newSlot
      match ← h.attempt (start slot) with
      | .ok () =>
        return (← .modifyGet fun w ↦ w.takeOutcome slot).getD (.error (.defect .neverSettled))
      | .error d => return .error (.defect d)
    | .recover source accepts handler => do
      match ← h.evaluate budget fuel source context scope with
      | .ok v => return .ok v
      | .error c =>
        match ← h.attempt (accepts c) with
        | .ok true =>
          evaluateBuilt (h.evaluate budget fuel · context scope) (← h.build (handler c))
        | .ok false => return .error c
        | .error d => return .error (c.combine (.defect d))
    | .parallel branches collect => do
      .modify fun w ↦ { w with forks := w.forks + branches.length }
      match ← evaluateAll (h.evaluate budget fuel · context scope) branches with
      | .error c => return .error c
      | .ok vs =>
        match ← h.attempt (collect vs) with
        | .ok (.ok v) => return .ok v
        | .ok (.error d) | .error d => return .error (.defect d)
    | .race [] => return .error (.defect .emptyRace)
    | .race branches => do
      .modify fun w ↦ { w with forks := w.forks + branches.length }
      evaluateFirst (h.evaluate budget fuel · context scope) branches []
    | .retry source schedule => do
      let startedAt ← .gets fun w ↦ w.clock.nanos
      h.evaluateRetry (h.evaluate budget fuel source context scope) schedule startedAt fuel
        schedule.source 0
    | .region body =>
      .inScope h.close fun child ↦ do
        evaluateBuilt (h.evaluate budget fuel · context child) (← h.build (body child))
    | .finalizer release => do
      match ← .modifyGet fun w ↦ w.addFinalizer scope (.release release context budget) with
      | .ok () => return .ok .unit
      | .error d => return .error (.defect d)
    | .timeout source limit => do
      let startedAt ← .gets fun w ↦ w.clock.nanos
      match ← h.evaluate budget fuel source context scope with
      | .error c => return .error c
      | .ok v =>
        let elapsed ← .gets fun w ↦ w.clock.since startedAt
        return if limit < elapsed then .error (.timeout limit) else .ok v

/-- Without fuel nothing is evaluated. -/
theorem evaluate_zero (h : Host S) (budget : BudgetId) (node : Node S) (context : Context)
    (scope : ScopeId) : h.evaluate budget 0 node context scope = .escape .exhausted := by
  simp only [evaluate]

end Host

namespace Program

variable (p : Program S)

/-- What running the closures of a program needs, given how scopes close. -/
def host (close : Closer S) : Host S := ⟨.sync, p, close⟩

/-- Evaluate a node in a fresh root scope and close the scope, given how scopes close. -/
def evaluateWith (close : Closer S) (fuel : Nat) (node : Node S) (context : Context)
    (budget : BudgetId) : Machine S (Outcome S.Error Value) :=
  .inScope close fun root ↦ (p.host close).evaluate budget fuel node context root

/-- Close a scope, evaluating its release effects. -/
def closeScope : Nat → Closer S
  | 0, _ => .escape .exhausted
  | fuel + 1, s => (p.host (closeScope fuel)).shut (p.evaluateWith (closeScope fuel) fuel) s

/-- Evaluate a node. The budget only gives release effects something to be registered with. -/
def evaluate (fuel : Nat) (node : Node S) (context : Context) :
    Machine S (Outcome S.Error Value) := do
  p.evaluateWith (p.closeScope fuel) fuel node context (← .modifyGet fun w ↦ w.newBudget {})

end Program

end EffectMachine
