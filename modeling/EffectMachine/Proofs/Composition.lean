import EffectMachine.Proofs.Rounds

/-!
# What computations are put together from

Every function of the machine is put together from a handful of operations on the world by
sequencing, guarding and escaping. A property of computations that the operations have and that
these three ways of putting computations together pass on is *compositional*
(`Machine.Compositional`), and every function of the machine has it, one short lemma for each in
the order of the definitions. Running out of fuel is an escape like any other here, so nothing has
to be assumed about the answer.

**Closing a scope is not an operation.** Closures may ask for it at any time, so the lemmas assume
the property of the closings that a host can make. What a closing itself does, marking a scope
closed and recording what becomes of its finalizers, are operations that a property may have on top
(`Machine.Compositional.Closing`); then closing has it whatever the fuel, and so has a whole run.

**Readings are blind to slots.** The machine looks at a slot only by settling it or by taking its
outcome, which change it, so a property may count on every other reading being the same in worlds
that differ in their slots only.
-/

namespace EffectMachine

variable {S : Signature} {α β : Type}

/-- The property of computations holds of the operations on the world and of what is put together
from computations that have it. -/
structure Machine.Compositional (Φ : ∀ ⦃α : Type⦄, Machine S α → Prop) : Prop where
  pure : ∀ {α : Type} (a : α), Φ (Pure.pure a)
  escape : ∀ {α : Type} (e : Escape), Φ (Machine.escape e : Machine S α)
  bind : ∀ {α β : Type} {m : Machine S α} {f : α → Machine S β},
    Φ m → (∀ a, Φ (f a)) → Φ (m >>= f)
  guard : ∀ {α : Type} {m : Machine S α}, Φ m → Φ m.guard
  /-- Looking at anything but slots. -/
  gets : ∀ {α : Type} (f : World S → α), (∀ w slots, f { w with slots } = f w) →
    Φ (Machine.gets f)
  write : ∀ state, Φ (Machine.modify fun w ↦ { w with state })
  advance : ∀ d, Φ (Machine.modify fun w ↦ w.modifyClock fun c ↦ c.advance d)
  sleep : ∀ d, Φ (Machine.modify fun w ↦ w.modifyClock fun c ↦ c.sleep d)
  draw : Φ (Machine.modifyGet World.draw)
  openScope : Φ (Machine.modifyGet World.openScope)
  enterScope : Φ (Machine.modifyGet World.enterScope)
  addFinalizer : ∀ s f, Φ (Machine.modifyGet fun w ↦ w.addFinalizer s f)
  newSlot : Φ (Machine.modifyGet World.newSlot)
  settle : ∀ s o, Φ (Machine.modifyGet fun w ↦ w.settle s o)
  takeOutcome : ∀ s, Φ (Machine.modifyGet fun w ↦ w.takeOutcome s)
  newFork : Φ (Machine.modifyGet World.newFork)
  newBudget : ∀ b, Φ (Machine.modifyGet fun w ↦ w.newBudget b)
  modifyBudget : ∀ b f, Φ (Machine.modify fun w ↦ w.modifyBudget b f)
  exceeded : ∀ b limit, Φ (Machine.modify fun w ↦ w.record (.exceeded b limit))

/-- The property holds of what a closing scope does to the world as well. -/
structure Machine.Compositional.Closing (Φ : ∀ ⦃α : Type⦄, Machine S α → Prop) : Prop
    extends Machine.Compositional Φ where
  shutScope : ∀ s, Φ (Machine.modify fun w ↦ w.shutScope s)
  record : ∀ e, Φ (Machine.modify fun w ↦ w.record e)

open Machine (Compositional)

namespace Host

/-- What becomes of a retry session after an error, when a known time has passed since the first
attempt. -/
def judge (h : Host S) (session : RetrySession S) (error : S.Error) (elapsed : Duration) :
    Machine S (RetryVerdict S) := do
  match ← h.attempt (session.schedule.decideFrom session.jitter
      ⟨session.attempt, elapsed, error⟩) with
  | .ok (.retry delay, jitter) =>
    h.perform (h.strategy.sleep delay)
    return .again { session with jitter, attempt := session.attempt + 1 }
  | .ok (.stop, _) => return .giveUp (.fail error)
  | .error d => return .giveUp ((Cause.fail error).combine (.defect d))

/-- A session looks at the clock and then judges. -/
theorem consult_fail (h : Host S) (session : RetrySession S) (error : S.Error) :
    h.consult session (.fail error) =
      .gets (fun w ↦ w.clock.since session.startedAt) >>= h.judge session error :=
  rfl

/-- Only a bare error is a reason to look. -/
theorem consult_of_not_fail (h : Host S) (session : RetrySession S) {cause : Cause S.Error}
    (hcause : cause.isFail = false) : h.consult session cause = pure (.giveUp cause) := by
  cases cause with
  | fail e => cases hcause
  | validation | serviceNotFound | timeout | composite | defect => rfl

end Host

namespace Interpreter

/-- What the loop does after a round. -/
def proceed (it : Interpreter S) (close : Closer S) (b : BudgetId) (fuel : Nat) :
    Progress S → Machine S (Outcome S.Error Value)
  | .running st => it.rounds close b fuel st
  | .settled outcome => pure outcome

/-- The loop makes a round and goes on until the interpretation settles, whatever the limit. -/
theorem rounds_step (it : Interpreter S) (close : Closer S) (b : BudgetId) (fuel : Nat)
    (st : State S) :
    it.rounds close b (fuel + 1) st = it.step close b st >>= it.proceed close b fuel := by
  funext w
  show it.drive close b (fuel + 1) st w = _
  rw [drive, Machine.bind_apply]
  rcases it.step close b st w with ⟨_ | (st' | o), w'⟩ <;> rfl

end Interpreter

/-- The computation is put together from operations on the world and from closings of scopes: it has
every compositional property that the closings have. -/
def Machine.Composed (close : Closer S) (m : Machine S α) : Prop :=
  ∀ ⦃Φ : ∀ ⦃α : Type⦄, Machine S α → Prop⦄, Compositional Φ → (∀ s, Φ (close s)) → Φ m

/-- The handlers of the registry do nothing to the world but by its operations, by running closures
and by closing scopes. -/
def Registry.Composed (r : Registry S) : Prop :=
  ∀ (h : Host S) (node : Node S) (st : State S), (r.dispatch h node st).Composed h.close

variable {Φ : ∀ ⦃α : Type⦄, Machine S α → Prop}

section

variable (C : Compositional Φ)
include C

/-! ### Closures and handlers -/

namespace Host

variable {h : Host S} (hclose : ∀ s, Φ (h.close s))
include hclose

theorem perform_composed (a : Action S α) : Φ (h.perform a) := by
  induction a with
  | done a => exact C.pure a
  | panic p => exact C.escape _
  | read k ih =>
    rw [perform_read]
    exact C.bind (C.gets _ fun _ _ ↦ rfl) ih
  | write s k ih =>
    rw [perform_write]
    exact C.bind (C.write s) fun _ ↦ ih
  | now k ih =>
    rw [perform_now]
    exact C.bind (C.gets _ fun _ _ ↦ rfl) ih
  | advance d k ih =>
    rw [perform_advance]
    exact C.bind (C.advance d) fun _ ↦ ih
  | sleep d k ih =>
    rw [perform_sleep]
    exact C.bind (C.sleep d) fun _ ↦ ih
  | draw k ih =>
    rw [perform_draw]
    exact C.bind C.draw ih
  | openScope k ih =>
    rw [perform_openScope]
    exact C.bind C.openScope ih
  | addCleanup s c k ih =>
    rw [perform_addCleanup]
    exact C.bind (C.addFinalizer s _) ih
  | closeScope s k ih =>
    rw [perform_closeScope]
    exact C.bind (hclose s) ih
  | inspect s k ih =>
    rw [perform_inspect]
    exact C.bind (C.gets _ fun _ _ ↦ rfl) ih
  | settle s o k ih =>
    rw [perform_settle]
    exact C.bind (C.settle s o) ih
  | take s k ih =>
    rw [perform_take]
    exact C.bind (C.takeOutcome s) ih

theorem attempt_composed (a : Action S α) : Φ (h.attempt a) :=
  C.guard (perform_composed C hclose a)

theorem forkAll_composed (context : Context) (ns : List (Node S)) :
    Φ (h.forkAll context ns) := by
  induction ns with
  | nil => exact C.pure _
  | cons n ns ih =>
    have hfork : Φ (h.fork ⟨n, context⟩) :=
      C.bind (perform_composed C hclose _) fun _ ↦ C.bind C.newFork fun _ ↦ C.pure _
    exact C.bind hfork fun _ ↦ C.bind ih fun _ ↦ C.pure _

theorem turn_composed (f : Fork S) : Φ (h.turn f) := by
  obtain ⟨id, s⟩ := f
  cases s with
  | deferred | settled => exact C.pure _
  | external handle => exact C.bind (perform_composed C hclose _) fun _ ↦ C.pure _

theorem nextParallel_composed (collect : List Value → Action S (Except Defect Value))
    (fs : List (Fork S)) (collected : List Value) (st : State S) :
    Φ (h.nextParallel collect fs collected st) := by
  induction fs generalizing collected with
  | nil =>
    refine C.bind (attempt_composed C hclose _) fun x ↦ ?_
    rcases x with d | d | v <;> exact C.pure _
  | cons f fs ih =>
    refine C.bind (turn_composed C hclose f) fun t ↦ ?_
    rcases t with job | c | v
    · exact C.pure _
    · exact C.pure _
    · exact ih (v :: collected)

theorem nextRace_composed (fs : List (Fork S)) (failures : List (Cause S.Error))
    (st : State S) : Φ (h.nextRace fs failures st) := by
  induction fs generalizing failures with
  | nil => exact C.pure _
  | cons f fs ih =>
    refine C.bind (turn_composed C hclose f) fun t ↦ ?_
    rcases t with job | c | v
    · exact C.pure _
    · exact ih (c :: failures)
    · exact C.pure _

theorem standard_composed (node : Node S) (st : State S) :
    Φ (Handler.standard node.tag h node st) := by
  cases node with
  | fail | bind | recover => exact C.pure _
  | pure make =>
    refine C.bind (attempt_composed C hclose make) fun x ↦ ?_
    cases x <;> exact C.pure _
  | suspend thunk => exact C.bind (attempt_composed C hclose _) fun _ ↦ C.pure _
  | service key =>
    simp only [Handler.standard, Node.tag, Handler.onService]
    cases st.context.find? key <;> exact C.pure _
  | provide layer inner =>
    refine C.bind (attempt_composed C hclose _) fun x ↦ ?_
    rcases x with d | missing | context <;> exact C.pure _
  | sleep d => exact C.bind (perform_composed C hclose _) fun _ ↦ C.pure _
  | async start =>
    refine C.bind C.newSlot fun slot ↦ C.bind (attempt_composed C hclose _) fun x ↦ ?_
    cases x with
    | error d => exact C.pure _
    | ok u => exact C.bind (perform_composed C hclose _) fun _ ↦ C.pure _
  | parallel branches collect =>
    exact C.bind (forkAll_composed C hclose _ _) fun fs ↦
      nextParallel_composed C hclose collect fs [] st
  | race branches =>
    cases branches with
    | nil => exact C.pure _
    | cons n ns =>
      exact C.bind (forkAll_composed C hclose _ _) fun fs ↦ nextRace_composed C hclose fs [] st
  | retry source schedule => exact C.bind (C.gets _ fun _ _ ↦ rfl) fun _ ↦ C.pure _
  | timeout source limit => exact C.bind (C.gets _ fun _ _ ↦ rfl) fun _ ↦ C.pure _
  | region body =>
    exact C.bind C.enterScope fun _ ↦ C.bind (attempt_composed C hclose _) fun _ ↦ C.pure _
  | finalizer release =>
    refine C.bind (C.addFinalizer _ _) fun x ↦ ?_
    rcases x with d | ⟨⟩ <;> exact C.pure _

/-! ### Frames -/

theorem resume_composed (f : Frame S) (v : Value) (st : State S) : Φ (h.resume f v st) := by
  cases f with
  | recover | retry | race | restoreContext => exact C.pure _
  | resume next =>
    refine C.bind (attempt_composed C hclose _) fun x ↦ ?_
    cases x <;> exact C.pure _
  | parallel rest collected collect => exact nextParallel_composed C hclose collect rest _ st
  | closeScope s parent =>
    refine C.bind (hclose s) fun r ↦ ?_
    rcases r with failures | ⟨⟩ <;> exact C.pure _
  | timeout limit startedAt => exact C.bind (C.gets _ fun _ _ ↦ rfl) fun _ ↦ C.pure _

theorem closing_composed (s : ScopeId) (cause : Cause S.Error) : Φ (h.closing s cause) := by
  refine C.bind (hclose s) fun r ↦ ?_
  rcases r with failures | ⟨⟩ <;> exact C.pure _

/-- A session that has looked at the clock. -/
theorem judge_composed (session : RetrySession S) (error : S.Error) (elapsed : Duration) :
    Φ (h.judge session error elapsed) := by
  refine C.bind (attempt_composed C hclose _) fun x ↦ ?_
  rcases x with d | ⟨_ | delay, jitter⟩
  · exact C.pure _
  · exact C.pure _
  · exact C.bind (perform_composed C hclose _) fun _ ↦ C.pure _

theorem consult_composed (session : RetrySession S) (cause : Cause S.Error) :
    Φ (h.consult session cause) := by
  cases cause with
  | validation | serviceNotFound | timeout | composite | defect => exact C.pure _
  | fail error =>
    exact C.bind (C.gets _ fun _ _ ↦ rfl) fun elapsed ↦
      judge_composed C hclose session error elapsed

theorem fall_composed (f : Frame S) (cause : Cause S.Error) (st : State S) :
    Φ (h.fall f cause st) := by
  cases f with
  | resume | timeout | parallel | restoreContext => exact C.pure _
  | closeScope s parent => exact C.bind (closing_composed C hclose s cause) fun _ ↦ C.pure _
  | race rest failures => exact C.bind (nextRace_composed C hclose rest _ st) fun _ ↦ C.pure _
  | recover accepts handler =>
    refine C.bind (attempt_composed C hclose _) fun x ↦ ?_
    rcases x with d | _ | _
    · exact C.pure _
    · exact C.pure _
    · exact C.bind (attempt_composed C hclose _) fun _ ↦ C.pure _
  | retry session =>
    refine C.bind (consult_composed C hclose session cause) fun x ↦ ?_
    cases x <;> exact C.pure _

theorem unwind_composed (stack : List (Frame S)) (cause : Cause S.Error) (st : State S) :
    Φ (h.unwind stack cause st) := by
  induction stack generalizing cause st with
  | nil => exact C.pure _
  | cons f rest ih =>
    refine C.bind (fall_composed C hclose f cause _) fun x ↦ ?_
    cases x with
    | caught st => exact C.pure _
    | on cause st => exact ih cause st

theorem abort_composed (stack : List (Frame S)) (cause : Cause S.Error) :
    Φ (h.abort stack cause) := by
  induction stack generalizing cause with
  | nil => exact C.pure _
  | cons f rest ih =>
    cases f with
    | closeScope s parent => exact C.bind (closing_composed C hclose s cause) fun cause ↦ ih cause
    | resume | recover | restoreContext | retry | timeout | parallel | race => exact ih cause

theorem finalize_composed {release : Releaser S} (hrelease : ∀ node context b,
    Φ (release node context b)) (f : Finalizer S) : Φ (h.finalize release f) := by
  cases f with
  | cleanup c => exact perform_composed C hclose _
  | release build context b =>
    refine C.bind (attempt_composed C hclose _) fun x ↦ ?_
    cases x with
    | error d => exact C.pure _
    | ok node => exact C.bind (hrelease node context b) fun _ ↦ C.pure _

omit C hclose in
/-- Closures are put together from operations and closings. -/
theorem composed_perform (h : Host S) (a : Action S α) : (h.perform a).Composed h.close :=
  fun _ C hclose ↦ perform_composed C hclose a

end Host

omit C in
theorem Registry.composed_standard : (Registry.standard : Registry S).Composed := by
  intro h node st Φ C hclose
  rw [Registry.dispatch_standard]
  exact Host.standard_composed C hclose node st

omit C in
theorem Registry.Composed.of_eq {r : Registry S} (h : r = .standard) : r.Composed :=
  h ▸ Registry.composed_standard

/-! ### Runs -/

namespace Interpreter

variable {it : Interpreter S} {close : Closer S} (hr : it.registry.Composed)
  (hclose : ∀ s, Φ (close s))
include hr hclose

theorem advance_composed (st : State S) : Φ (it.advance close st) := by
  obtain ⟨context, stack, scope, control, b⟩ := st
  cases control with
  | effect node =>
    have hhandler := hr (it.host close) node
      (State.awaiting ⟨context, stack, scope, .effect node, b⟩) C hclose
    exact C.bind (C.bind hhandler fun _ ↦ C.pure _) fun _ ↦ C.pure _
  | value v =>
    cases stack with
    | nil => exact C.pure _
    | cons f rest =>
      have hresume := Host.resume_composed C (h := it.host close) hclose f v
      exact C.bind (hresume _) fun _ ↦ C.pure _
  | failure cause =>
    refine C.bind (Host.unwind_composed C (h := it.host close) hclose stack cause _) fun o ↦ ?_
    cases o <;> exact C.pure _
  | pending => exact C.pure _

theorem step_composed (b : BudgetId) (st : State S) : Φ (it.step close b st) := by
  have htick : Φ (it.tick b) := C.bind (C.modifyBudget b _) fun _ ↦ C.gets _ fun _ _ ↦ rfl
  refine C.bind htick fun x ↦ ?_
  cases x with
  | none => exact advance_composed C hr hclose st
  | some limit =>
    have habort : Φ (it.abort close limit st) :=
      C.bind (C.modifyBudget _ _) fun _ ↦
        C.bind (Host.abort_composed C (h := it.host close) hclose st.stack _) fun _ ↦
          C.bind (C.modifyBudget _ _) fun _ ↦ C.pure _
    exact C.bind (C.exceeded b limit) fun _ ↦ C.bind habort fun _ ↦ C.pure _

theorem rounds_composed (b : BudgetId) (fuel : Nat) (st : State S) :
    Φ (it.rounds close b fuel st) := by
  induction fuel generalizing st with
  | zero => exact C.escape _
  | succ fuel ih =>
    rw [rounds_step]
    refine C.bind (step_composed C hr hclose b st) fun x ↦ ?_
    cases x with
    | running st' => exact ih st'
    | settled o => exact C.pure _

theorem proceed_composed (b : BudgetId) (fuel : Nat) (x : Progress S) :
    Φ (it.proceed close b fuel x) := by
  cases x with
  | running st => exact rounds_composed C hr hclose b fuel st
  | settled o => exact C.pure _

theorem interpretWith_composed (fuel : Nat) (node : Node S) (context : Context) (b : BudgetId) :
    Φ (it.interpretWith close fuel node context b) :=
  C.bind C.enterScope fun root ↦
    C.bind (rounds_composed C hr hclose b fuel _) fun _ ↦ C.bind (hclose root) fun _ ↦ C.pure _

end Interpreter

end

/-- What an interpreter does, put together from operations on the world and closings of scopes. -/
structure Interpreter.Composes (it : Interpreter S) (fuel : Nat) : Prop where
  closures : ∀ {α : Type} (a : Action S α),
    ((it.host (it.closeScope fuel)).perform a).Composed (it.closeScope fuel)
  rounds : ∀ b n st, (it.rounds (it.closeScope fuel) b n st).Composed (it.closeScope fuel)
  runs : ∀ node context b, (it.interpretOn fuel node context b).Composed (it.closeScope fuel)
  closings : ∀ s, (it.closeScope fuel s).Composed (it.closeScope fuel)

theorem Interpreter.composes {it : Interpreter S} (hr : it.registry.Composed) (fuel : Nat) :
    it.Composes fuel where
  closures := (it.host (it.closeScope fuel)).composed_perform
  rounds b n st _ C hclose := rounds_composed C hr hclose b n st
  runs node context b _ C hclose := interpretWith_composed C hr hclose fuel node context b
  closings s _ _ hclose := hclose s

/-! ### Scopes that close -/

section

variable (C : Compositional.Closing Φ)
include C

namespace Host

variable {h : Host S} (hclose : ∀ s, Φ (h.close s)) {release : Releaser S}
  (hrelease : ∀ node context b, Φ (release node context b))
include hclose hrelease

theorem invoke_composed (s : ScopeId) (f : Finalizer S) : Φ (h.invoke release s f) :=
  C.bind (C.record _) fun _ ↦
    C.bind (C.guard (finalize_composed C.toCompositional hclose hrelease f)) fun _ ↦
      C.bind (C.record _) fun _ ↦ C.pure _

theorem invokeAll_composed (s : ScopeId) (fs : List (Finalizer S)) :
    Φ (h.invokeAll release s fs) := by
  induction fs with
  | nil => exact C.pure _
  | cons f fs ih =>
    refine C.bind (invoke_composed C hclose hrelease s f) fun o ↦ ?_
    rcases o with cause | ⟨⟩
    · exact C.bind ih fun _ ↦ C.pure _
    · exact ih

theorem shut_composed (s : ScopeId) : Φ (h.shut release s) := by
  refine C.bind (C.gets _ fun _ _ ↦ rfl) fun scope ↦ ?_
  cases scope.closed with
  | true => exact C.pure _
  | false =>
    refine C.bind (C.shutScope s) fun _ ↦
      C.bind (invokeAll_composed C hclose hrelease s scope.finalizers) fun failures ↦
      C.bind (C.record _) fun _ ↦ ?_
    cases failures <;> exact C.pure _

end Host

/-- Closing a scope. -/
theorem Interpreter.closeScope_composed {it : Interpreter S} (hr : it.registry.Composed)
    (fuel : Nat) (s : ScopeId) : Φ (it.closeScope fuel s) := by
  induction fuel generalizing s with
  | zero => exact C.escape _
  | succ fuel ih =>
    exact Host.shut_composed C (h := it.host (it.closeScope fuel)) ih
      (interpretWith_composed C.toCompositional hr ih fuel) s

end

end EffectMachine
