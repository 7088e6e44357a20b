import EffectMachine.Proofs.Convergence
import EffectMachine.Proofs.Rounds

/-!
# The machine follows direct evaluation

Whatever the direct evaluation of an effect yields, the machine that has the effect in hand comes
to hold, above whatever stack. Continuations make this a statement about whole runs: if the machine
covers what follows an outcome, then it covers evaluation followed by that
(`covered_evaluate`).

The induction is on the fuel of the evaluation. Each kind of node with a sub-effect is a lemma that
assumes the statement for less fuel (`Covered`); the lists of branches and the attempts of a retry
session are inductions of their own.
-/

namespace EffectMachine

variable {S : Signature} {it : Interpreter S} {b : BudgetId} {c : Closer S} {C : Nat → Closer S}

/-- What covers a round after its step has been counted also covers it before. -/
theorem Covers.rounds {st : State S} {m : Machine S (Outcome S.Error Value)}
    (h : Covers (it.runs C b st) m) (hp : it.IsPlain) :
    Covers (fun i n ↦ it.rounds (C i) b n st) m :=
  h.tick b fun i n ↦ it.rounds_succ (C i) b hp.stepLimit n st

/-- Evaluation, continued in any way, is covered by the machine with any stack below. -/
def Covered (it : Interpreter S) (b : BudgetId) (C : Nat → Closer S)
    (ev : Node S → Context → ScopeId → Machine S (Outcome S.Error Value)) : Prop :=
  ∀ (node : Node S) (st : State S), st.budget = b →
    ∀ k : Outcome S.Error Value → Machine S (Outcome S.Error Value),
      (∀ o, Covers (it.runs C b (st.holding (.ofOutcome o))) (k o)) →
        Covers (it.runs C b (st.continueWith node))
          (ev node st.context st.scope >>= k)

section

variable (hp : it.IsPlain) (hc : ∀ s, Covers (fun i _ ↦ C i s) (c s)) {n : Nat}
  (ih : Covered it b C ((it.host c).evaluate b n)) {st : State S} (hb : st.budget = b)
  {k : Outcome S.Error Value → Machine S (Outcome S.Error Value)}
  (hk : ∀ o, Covers (it.runs C b (st.holding (.ofOutcome o))) (k o))
include hp ih hb hk

variable (st) in
/-- An effect that was built, or the defect of its building. -/
theorem covers_built (x : Except Defect (Node S)) :
    Covers (fun i n ↦ it.rounds (C i) b n (st.continueBuilt x))
      (Host.evaluateBuilt ((it.host c).evaluate b n · st.context st.scope) x >>= k) := by
  cases x with
  | ok node => exact (ih node st hb k hk).rounds hp
  | error d => exact (hk (.error (.defect d))).rounds hp

theorem covers_timeout (source : Node S) (limit : Duration) :
    Covers (it.runs C b (st.continueWith (.timeout source limit)))
      ((it.host c).evaluate b (n + 1) (.timeout source limit) st.context st.scope >>= k) := by
  simp only [Host.evaluate, bind_assoc]
  refine ((Covers.gets fun _ _ ↦ rfl).bind fun startedAt ↦ ?_).of_eq fun i n ↦
    it.pursue_timeout (C i) b hp.registry n st source limit
  refine (ih source (st.push (.timeout limit startedAt)) hb _ fun o ↦ ?_).rounds hp
  cases o with
  | error cause =>
    exact (hk (.error cause)).of_eq fun i n ↦
      it.pursue_failure_timeout (C i) b n st cause limit startedAt
  | ok v =>
    simp only [bind_assoc, pure_bind]
    exact ((Covers.gets fun _ _ ↦ rfl).bind fun elapsed ↦ (hk _).rounds hp).of_eq fun i n ↦
      it.pursue_value_timeout (C i) b n st v limit startedAt

/-- The branches that are left, with the causes of the branches before them, newest first. -/
theorem covers_nextRace (branches : List (Node S)) (i : Nat) (failures : List (Cause S.Error)) :
    Covers (fun m n ↦ (Host.nextRace (it.host (C m)) (deferredForks st.context i branches)
        failures st.awaiting) >>= it.rounds (C m) b n)
      (Host.evaluateFirst ((it.host c).evaluate b n · st.context st.scope) branches
        failures.reverse >>= k) := by
  induction branches generalizing i failures with
  | nil => exact (hk _).rounds hp
  | cons node rest ihr =>
    simp only [Host.evaluateFirst, bind_assoc]
    refine (ih node (st.push (.race (deferredForks st.context (i + 1) rest) failures))
      hb _ fun o ↦ ?_).rounds hp
    cases o with
    | ok v =>
      exact ((hk (.ok v)).rounds hp).of_eq fun i n ↦ it.pursue_value (C i) b n st v _
    | error cause =>
      refine .of_eq ?_ fun i n ↦ it.pursue_failure_race (C i) b n st cause _ _
      have h := ihr (i + 1) (cause :: failures)
      rw [List.reverse_cons] at h
      exact h

theorem covers_race (branches : List (Node S)) :
    Covers (it.runs C b (st.continueWith (.race branches)))
      ((it.host c).evaluate b (n + 1) (.race branches) st.context st.scope >>= k) := by
  cases branches with
  | nil =>
    exact ((hk _).rounds hp).of_eq fun i n ↦ it.pursue_race_nil (C i) b hp.registry n st
  | cons node rest =>
    simp only [Host.evaluate, bind_assoc]
    exact .of_eq (.gets_left (fun _ _ ↦ rfl) fun i ↦ (Covers.modify fun _ _ ↦ rfl).bind fun _ ↦
      covers_nextRace hp ih hb hk (node :: rest) i [])
      fun i n ↦ it.pursue_race (C i) b hp.registry n st hp.strategy node rest

include hc

theorem covers_bind (source : Node S) (next : Value → Action S (Step S)) :
    Covers (it.runs C b (st.continueWith (.bind source next)))
      ((it.host c).evaluate b (n + 1) (.bind source next) st.context st.scope >>= k) := by
  simp only [Host.evaluate, bind_assoc]
  refine ((ih source (st.push (.resume next)) hb _ fun o ↦ ?_).rounds hp).of_eq fun i n ↦
    it.pursue_bind (C i) b hp.registry n st source next
  cases o with
  | error cause =>
    exact (hk (.error cause)).of_eq fun i n ↦
      it.pursue_failure_resume (C i) b n st cause next
  | ok v =>
    simp only [bind_assoc]
    refine ((Covers.attempt hc _).bind fun x ↦ ?_).of_eq fun i n ↦
      it.pursue_value_resume (C i) b n st v next
    rcases x with d | (node | v | cause | _)
    · exact (hk (.error (.defect d))).rounds hp
    · exact (ih node st hb k hk).rounds hp
    · exact (hk (.ok v)).rounds hp
    · exact (hk (.error cause)).rounds hp
    · exact (((hk (.error (.defect (.stalled "pending")))).rounds hp).of_eq fun i n ↦
        it.pursue_pending (C i) b n st).rounds hp

theorem covers_provide (layer : Layer S) (inner : Node S) :
    Covers (it.runs C b (st.continueWith (.provide layer inner)))
      ((it.host c).evaluate b (n + 1) (.provide layer inner) st.context st.scope >>= k) := by
  simp only [Host.evaluate, bind_assoc]
  refine ((Covers.attempt hc _).bind fun x ↦ ?_).of_eq fun i n ↦
    it.pursue_provide (C i) b hp.registry n st layer inner
  rcases x with d | missing | context
  · exact (hk (.error (.defect d))).rounds hp
  · exact (hk (.error (.serviceNotFound missing.key))).rounds hp
  · refine (ih inner { st.push (.restoreContext st.context) with context } hb k
      fun o ↦ ?_).rounds hp
    have hrestore := fun i n ↦ it.pursue_restoreContext (C i) b n { st with context } st.context o
    cases o with
    | ok v => exact ((hk (.ok v)).rounds hp).of_eq hrestore
    | error cause => exact (hk (.error cause)).of_eq hrestore

theorem covers_recover (source : Node S) (accepts : Cause S.Error → Action S Bool)
    (handler : Cause S.Error → Action S (Plan S)) :
    Covers (it.runs C b (st.continueWith (.recover source accepts handler)))
      ((it.host c).evaluate b (n + 1) (.recover source accepts handler) st.context st.scope >>=
        k) := by
  simp only [Host.evaluate, bind_assoc]
  refine ((ih source (st.push (.recover accepts handler)) hb _ fun o ↦ ?_).rounds hp).of_eq
    fun i n ↦
    it.pursue_recover (C i) b hp.registry n st source accepts handler
  cases o with
  | ok v =>
    exact ((hk (.ok v)).rounds hp).of_eq fun i n ↦ it.pursue_value (C i) b n st v _
  | error cause =>
    simp only [bind_assoc]
    refine ((Covers.attempt hc _).bind fun x ↦ ?_).of_eq fun i n ↦
      it.pursue_failure_recover (C i) b n st cause accepts handler
    rcases x with d | _ | _
    · exact hk (.error (cause.combine (.defect d)))
    · exact hk (.error cause)
    · simp only [bind_assoc]
      exact (Covers.build hc _).bind fun x ↦ covers_built hp ih _ hb hk x

theorem covers_region (body : ScopeId → Action S (Plan S)) :
    Covers (it.runs C b (st.continueWith (.region body)))
      ((it.host c).evaluate b (n + 1) (.region body) st.context st.scope >>= k) := by
  simp only [Host.evaluate, Machine.inScope, bind_assoc]
  refine ((Covers.modifyGet fun _ _ ↦ rfl).bind fun child ↦ (Covers.build hc _).bind fun x ↦
    ?_).of_eq fun i n ↦ it.pursue_region (C i) b hp.registry n st body
  refine covers_built hp ih { st.push (.closeScope child st.scope) with scope := child }
    hb (fun o ↦ ?_) x
  have hclose := fun i n ↦
    it.pursue_closeScope (C i) b n { st with scope := child } child st.scope o
  refine ((hc child).bind fun r ↦ ?_).of_eq hclose
  cases o with
  | ok v => exact (hk _).rounds hp
  | error cause => exact hk _

/-- The branches that are left, with the values of the branches before them, newest first. -/
theorem covers_nextParallel (collect : List Value → Action S (Except Defect Value))
    (branches : List (Node S)) (i : Nat) (collected : List Value) :
    Covers (fun m n ↦ (Host.nextParallel (it.host (C m)) collect
        (deferredForks st.context i branches) collected st.awaiting) >>=
          it.rounds (C m) b n)
      (Host.evaluateAll ((it.host c).evaluate b n · st.context st.scope) branches >>= fun
        | .error cause => k (.error cause)
        | .ok vs => (it.host c).attempt (collect (collected.reverse ++ vs)) >>= fun
          | .ok (.ok v) => k (.ok v)
          | .ok (.error d) | .error d => k (.error (.defect d))) := by
  induction branches generalizing i collected with
  | nil =>
    simp only [deferredForks, Host.nextParallel, Host.evaluateAll, pure_bind, bind_assoc,
      List.append_nil]
    refine (Covers.attempt hc _).bind fun x ↦ ?_
    rcases x with d | d | v
    · exact (hk _).rounds hp
    · exact (hk _).rounds hp
    · exact (hk _).rounds hp
  | cons node rest ihr =>
    simp only [Host.evaluateAll, bind_assoc]
    refine (ih node (st.push (.parallel (deferredForks st.context (i + 1) rest) collected collect))
      hb _ fun o ↦ ?_).rounds hp
    cases o with
    | error cause =>
      exact (hk (.error cause)).of_eq fun i n ↦
        it.pursue_failure_parallel (C i) b n st cause _ _ _
    | ok v =>
      simp only [bind_assoc, pure_bind]
      refine .of_eq ?_ fun i n ↦ it.pursue_value (C i) b n st v _
      refine (ihr (i + 1) (v :: collected)).trans_eq (bind_congr fun r ↦ ?_)
      cases r with
      | error cause => rfl
      | ok vs => simp [Except.map]

theorem covers_parallel (branches : List (Node S))
    (collect : List Value → Action S (Except Defect Value)) :
    Covers (it.runs C b (st.continueWith (.parallel branches collect)))
      ((it.host c).evaluate b (n + 1) (.parallel branches collect) st.context st.scope >>= k) := by
  simp only [Host.evaluate, bind_assoc]
  refine .of_eq (.gets_left (fun _ _ ↦ rfl) fun i ↦ (Covers.modify fun _ _ ↦ rfl).bind fun _ ↦ ?_)
    fun i n ↦ it.pursue_parallel (C i) b hp.registry n st hp.strategy branches collect
  refine (covers_nextParallel hp hc ih hb hk collect branches i []).trans_eq (bind_congr fun r ↦ ?_)
  cases r with
  | error cause => rfl
  | ok vs =>
    simp only [bind_assoc]
    refine bind_congr fun x ↦ ?_
    rcases x with _ | _ | _ <;> rfl

/-- The attempts that are left in a retry session. -/
theorem covers_evaluateRetry (source : Node S) (schedule : Schedule S) (startedAt fuel : Nat)
    (jitter : JitterSource) (attempt : Nat) :
    Covers (it.runs C b
        ((st.push (.retry ⟨source, schedule, jitter, attempt, startedAt⟩)).continueWith source))
      ((it.host c).evaluateRetry ((it.host c).evaluate b n source st.context st.scope) schedule
        startedAt fuel jitter attempt >>= k) := by
  induction fuel generalizing jitter attempt with
  | zero => exact .exhausted _
  | succ fuel ihr =>
    simp only [Host.evaluateRetry, bind_assoc]
    refine ih source (st.push _) hb _ fun o ↦ ?_
    -- only a bare error consults the schedule
    have hpass : ∀ cause : Cause S.Error, cause.isFail = false →
        Covers (it.runs C b
          ((st.push (.retry ⟨source, schedule, jitter, attempt, startedAt⟩)).fail cause))
          (k (.error cause)) := fun cause hcause ↦
      (hk (.error cause)).of_eq fun i n ↦
        it.pursue_failure_retry (C i) b n st cause _ hcause
    rcases o with (error | e | key | limit | causes | d) | v
    · simp only [bind_assoc]
      refine ((Covers.gets fun _ _ ↦ rfl).bind fun elapsed ↦ (Covers.attempt hc _).bind fun x ↦
        ?_).of_eq fun i n ↦ it.pursue_fail_retry (C i) b n st hp.strategy _ error
      rcases x with d | ⟨_ | delay, jitter⟩
      · exact hk _
      · exact hk _
      · simp only [bind_assoc]
        exact (Covers.modify fun _ _ ↦ rfl).bind fun _ ↦ (ihr jitter (attempt + 1)).rounds hp
    · exact hpass _ rfl
    · exact hpass _ rfl
    · exact hpass _ rfl
    · exact hpass _ rfl
    · exact hpass _ rfl
    · exact ((hk (.ok v)).rounds hp).of_eq fun i n ↦ it.pursue_value (C i) b n st v _

theorem covers_retry (source : Node S) (schedule : Schedule S) :
    Covers (it.runs C b (st.continueWith (.retry source schedule)))
      ((it.host c).evaluate b (n + 1) (.retry source schedule) st.context st.scope >>= k) := by
  simp only [Host.evaluate, bind_assoc]
  refine ((Covers.gets fun _ _ ↦ rfl).bind fun startedAt ↦ ?_).of_eq fun i n ↦
    it.pursue_retry (C i) b hp.registry n st source schedule
  have hretry := covers_evaluateRetry hp hc ih hb hk source schedule startedAt n schedule.source 0
  exact hretry.rounds hp

end

variable (hp : it.IsPlain) (hc : ∀ s, Covers (fun i _ ↦ C i s) (c s))
include hp hc

/-- Direct evaluation is covered by the machine. -/
theorem covered_evaluate (n : Nat) :
    Covered it b C ((it.host c).evaluate b n) := by
  induction n with
  | zero =>
    intro node st hb k hk
    rw [Host.evaluate_zero]
    exact .exhausted _
  | succ n ih =>
    intro node st hb k hk
    have hpass := fun o ↦ (hk o).rounds hp
    cases node with
    | pure make =>
      simp only [Host.evaluate, bind_assoc, pure_bind]
      exact ((Covers.attempt hc make).bind fun x ↦ hpass (x.mapError .defect)).of_eq fun i n ↦
        it.pursue_pure (C i) b hp.registry n st make
    | fail cause =>
      exact (hpass (.error cause)).of_eq fun i n ↦ it.pursue_fail (C i) b hp.registry n st cause
    | service key =>
      simp only [Host.evaluate]
      refine .of_eq ?_ fun i n ↦ it.pursue_service (C i) b hp.registry n st key
      cases st.context.find? key with
      | some s => exact hpass (.ok ⟨.service, s⟩)
      | none => exact hpass (.error (.serviceNotFound key))
    | sleep d =>
      simp only [Host.evaluate, bind_assoc]
      exact ((Covers.modify fun _ _ ↦ rfl).bind fun _ ↦ hpass (.ok .unit)).of_eq fun i n ↦
        it.pursue_sleep (C i) b hp.registry n st hp.strategy d
    | async start =>
      simp only [Host.evaluate, bind_assoc]
      refine ((Covers.modifyGet fun _ _ ↦ rfl).bind fun slot ↦ (Covers.attempt hc _).bind fun x ↦
        ?_).of_eq fun i n ↦ it.pursue_async (C i) b hp.registry n st hp.strategy start
      cases x with
      | error d => exact hpass (.error (.defect d))
      | ok u =>
        simp only [bind_assoc]
        exact (Covers.modifyGet fun _ _ ↦ rfl).bind fun o ↦ hpass _
    | finalizer release =>
      subst hb
      simp only [Host.evaluate, bind_assoc]
      refine ((Covers.modifyGet (World.uncounting_addFinalizer _ _)).bind fun x ↦ ?_).of_eq
        fun i n ↦ it.pursue_finalizer (C i) _ hp.registry n st release
      rcases x with d | ⟨⟩
      · exact hpass (.error (.defect d))
      · exact hpass (.ok .unit)
    | suspend thunk =>
      simp only [Host.evaluate, bind_assoc]
      exact ((Covers.build hc thunk).bind fun x ↦ covers_built hp ih _ hb hk x).of_eq fun i n ↦
        it.pursue_suspend (C i) b hp.registry n st thunk
    | bind source next => exact covers_bind hp hc ih hb hk source next
    | provide layer inner => exact covers_provide hp hc ih hb hk layer inner
    | recover source accepts handler => exact covers_recover hp hc ih hb hk source accepts handler
    | parallel branches collect => exact covers_parallel hp hc ih hb hk branches collect
    | race branches => exact covers_race hp ih hb hk branches
    | retry source schedule => exact covers_retry hp hc ih hb hk source schedule
    | region body => exact covers_region hp hc ih hb hk body
    | timeout source limit => exact covers_timeout hp ih hb hk source limit

end EffectMachine
