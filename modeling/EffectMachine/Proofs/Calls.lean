import EffectMachine.Proofs.Computation
import EffectMachine.Proofs.Evaluator

/-!
# Evaluation by calls

Direct evaluation calls closures and goes on with what they answer. Two closures may agree on their
requests and differ in where one of them ends and an effect begins, so that calls have to be taken
apart and put together. `Host.call` is a call with what follows it, a panic being the failure of
what is under evaluation; `Host.visit` evaluates an effect that a closure planned. Calls in a row
are one call (`Host.call_bind`), and what comes after a call can be drawn into it
(`Host.onValue_call`).

The equations for `Host.evaluate` are stated in these terms.
-/

namespace EffectMachine

variable {S : Signature} {α β γ : Type}

/-- Go on with the value of an outcome; a failure skips what follows. -/
def Machine.onValue (m : Machine S (Outcome S.Error α)) (k : α → Machine S (Outcome S.Error β)) :
    Machine S (Outcome S.Error β) := do
  match ← m with
  | .error c => return .error c
  | .ok v => k v

namespace Machine

variable {m : Machine S (Outcome S.Error α)} {k : α → Machine S (Outcome S.Error β)}

@[simp] theorem onValue_pure_ok (v : α) : (pure (.ok v) : Machine S _).onValue k = k v := rfl

theorem onValue_assoc {l : β → Machine S (Outcome S.Error γ)} :
    (m.onValue k).onValue l = m.onValue fun v ↦ (k v).onValue l := by
  simp only [onValue, bind_assoc]
  refine bind_congr fun o ↦ ?_
  cases o <;> rfl

/-- A guarded sequence is guarded part by part. -/
theorem guard_bind {m : Machine S α} {f : α → Machine S β} :
    (m >>= f).guard = m.guard >>= fun
      | .ok a => (f a).guard
      | .error d => pure (.error d) := by
  funext w
  rw [guard_apply, bind_apply, bind_apply, guard_apply]
  rcases m w with ⟨(p | _) | a, w'⟩
  · rfl
  · rfl
  · exact (guard_apply (f a) w').symm

end Machine

namespace Host

variable (h : Host S)

/-! ### Calls -/

theorem perform_bind (x : Action S α) (f : α → Action S β) :
    h.perform (x.bind f) = h.perform x >>= fun a ↦ h.perform (f a) :=
  funext (Action.perform_bind h.close x f)

theorem attempt_bind (x : Action S α) (f : α → Action S β) :
    h.attempt (x.bind f) = h.attempt x >>= fun
      | .ok a => h.attempt (f a)
      | .error d => pure (.error d) := by
  rw [attempt, perform_bind]
  exact Machine.guard_bind

/-- Call a closure and go on with what it ends in. -/
def call (x : Action S α) (k : α → Machine S (Outcome S.Error β)) :
    Machine S (Outcome S.Error β) := do
  match ← h.attempt x with
  | .ok a => k a
  | .error d => return .error (.defect d)

@[simp] theorem call_done (a : α) (k : α → Machine S (Outcome S.Error β)) :
    h.call (.done a) k = k a := rfl

/-- Calling two closures in a row is calling the second one from the first one's call. -/
theorem call_bind (x : Action S α) (f : α → Action S β) (k : β → Machine S (Outcome S.Error γ)) :
    h.call (x.bind f) k = h.call x fun a ↦ h.call (f a) k := by
  rw [call, attempt_bind, bind_assoc]
  refine bind_congr fun r ↦ ?_
  cases r <;> rfl

/-- What follows a call is drawn into it. -/
theorem onValue_call (x : Action S α) (k : α → Machine S (Outcome S.Error β))
    (l : β → Machine S (Outcome S.Error γ)) :
    (h.call x k).onValue l = h.call x fun a ↦ (k a).onValue l := by
  simp only [call, Machine.onValue, bind_assoc]
  refine bind_congr fun r ↦ ?_
  cases r <;> rfl

/-! ### Evaluation -/

variable (b : BudgetId) (fuel : Nat) (context : Context) (scope : ScopeId)

/-- Evaluate what a closure planned. -/
def visit (p : Plan S) : Machine S (Outcome S.Error Value) :=
  h.call (h.program.build p) fun n ↦ h.evaluate b fuel n context scope

/-- Go on with what the machine would hold in hand. -/
def proceed : Control S → Machine S (Outcome S.Error Value)
  | .value v => pure (.ok v)
  | .failure c => pure (.error c)
  | .effect n => h.evaluate b fuel n context scope
  | .pending => pure (.error (.defect (.stalled "pending")))

/-- Go on with what a continuation answered. -/
def follow : Step S → Machine S (Outcome S.Error Value)
  | .value v => pure (.ok v)
  | .failure c => pure (.error c)
  | .effect p => h.visit b fuel context scope p

@[simp] theorem visit_node (n : Node S) :
    h.visit b fuel context scope (.node n) = h.evaluate b fuel n context scope := rfl

theorem evaluateBuilt_build (ev : Node S → Machine S (Outcome S.Error Value))
    (x : Action S (Plan S)) :
    h.build x >>= evaluateBuilt ev = h.call x fun p ↦ h.call (h.program.build p) ev := by
  rw [← call_bind]
  refine bind_congr fun r ↦ ?_
  cases r <;> rfl

theorem evaluate_service (key : Key) :
    h.evaluate b (fuel + 1) (.service key) context scope =
      match context.find? key with
      | some s => pure (.ok ⟨.service, s⟩)
      | none => pure (.error (.serviceNotFound key)) := by
  cases hfind : context.find? key <;> simp only [evaluate, hfind]

theorem evaluate_suspend (thunk : Action S (Plan S)) :
    h.evaluate b (fuel + 1) (.suspend thunk) context scope =
      h.call thunk (h.visit b fuel context scope) := by
  simp only [evaluate]
  exact h.evaluateBuilt_build (h.evaluate b fuel · context scope) thunk

/-- To follow what a continuation answered is to proceed with what that puts in hand. -/
theorem follow_eq_call (s : Step S) :
    h.follow b fuel context scope s =
      h.call (h.program.control s) (h.proceed b fuel context scope) := by
  cases s with
  | value v => rfl
  | failure c => rfl
  | effect p =>
    have hcontrol : h.program.control (.effect p) =
        (h.program.build p).bind fun n ↦ .done (.effect n) := rfl
    rw [hcontrol, call_bind]
    rfl

theorem evaluate_bind (source : Node S) (next : Value → Action S (Step S)) :
    h.evaluate b (fuel + 1) (.bind source next) context scope =
      (h.evaluate b fuel source context scope).onValue fun v ↦
        h.call (next v) (h.follow b fuel context scope) := by
  simp only [evaluate, Machine.onValue]
  refine bind_congr fun o ↦ ?_
  rcases o with c | v
  · rfl
  -- the definition asks the program for the effect inside the same guard
  show _ = h.call (next v) (h.follow b fuel context scope)
  rw [funext (h.follow_eq_call b fuel context scope), ← call_bind]
  refine bind_congr fun r ↦ ?_
  rcases r with d | (n | v | c | _) <;> rfl

theorem evaluate_recover (source : Node S) (accepts : Cause S.Error → Action S Bool)
    (handler : Cause S.Error → Action S (Plan S)) :
    h.evaluate b (fuel + 1) (.recover source accepts handler) context scope =
      h.evaluate b fuel source context scope >>= fun
        | .ok v => pure (.ok v)
        | .error c => h.attempt (accepts c) >>= fun
          | .ok true => h.call (handler c) (h.visit b fuel context scope)
          | .ok false => pure (.error c)
          | .error d => pure (.error (c.combine (.defect d))) := by
  simp only [evaluate]
  refine bind_congr fun o ↦ ?_
  rcases o with c | v
  · refine bind_congr fun r ↦ ?_
    rcases r with d | _ | _
    · rfl
    · rfl
    · exact h.evaluateBuilt_build (h.evaluate b fuel · context scope) (handler c)
  · rfl

theorem evaluate_region (body : ScopeId → Action S (Plan S)) :
    h.evaluate b (fuel + 1) (.region body) context scope =
      .inScope h.close fun child ↦ h.call (body child) (h.visit b fuel context child) := by
  simp only [evaluate]
  congr 1
  funext child
  exact h.evaluateBuilt_build (h.evaluate b fuel · context child) (body child)

/-- A named effect in the place of a node takes one more unit of fuel than one that is visited. -/
theorem evaluate_named {a : Ty} (d : S.Name) :
    h.evaluate b (fuel + 1) (Effect.node (a := a) ⟨.named d⟩) context scope =
      h.visit b fuel context scope (.named d) :=
  h.evaluate_suspend b fuel context scope (.done (.named d))

theorem finalize_release (release : Releaser S) (build : Action S (Plan S)) (context : Context) :
    h.finalize release (.release build context b) =
      h.call build fun p ↦ h.call (h.program.build p) fun n ↦
        release n context b >>= fun o ↦ pure (o.map fun _ ↦ ()) := by
  rw [← call_bind]
  refine bind_congr fun r ↦ ?_
  cases r <;> rfl

end Host

end EffectMachine
