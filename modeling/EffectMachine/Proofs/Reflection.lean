import EffectMachine.Proofs.Convergence
import EffectMachine.Proofs.Rounds

/-!
# Direct evaluation follows the machine

The converse of `covered_evaluate`: whatever the machine comes to, from an effect in hand above
whatever stack, direct evaluation comes to as well. In particular evaluation ends where the
machine does.

The induction is on the number of rounds that the machine is given (`Followed`). A sub-effect uses
up an unknown number of them, so what follows an outcome has to be covered for every smaller
number.
-/

namespace EffectMachine

variable {S : Signature} {it : Interpreter S} {b : BudgetId} {c : Closer S} {C : Nat → Closer S}

/-- So many rounds of the machine, with any stack below, are covered by evaluation, continued in
any way. What follows may find any number of these rounds left. The fuel of the evaluation may run
ahead of the fuel of what follows. -/
def Followed (it : Interpreter S) (b : BudgetId) (C : Nat → Closer S) (c : Closer S) (j : Nat) :
    Prop :=
  ∀ (a : Nat) (node : Node S) (st : State S), st.budget = b →
    ∀ K : Outcome S.Error Value → Nat → Nat → Machine S (Outcome S.Error Value),
      (∀ i, i ≤ j → ∀ o, Covers (K o) (it.pursue c b i (st.holding (.ofOutcome o)))) →
        Covers (fun m n ↦
            (it.host (C m)).evaluate b (n + a) node st.context st.scope >>= fun o ↦ K o m n)
          (it.pursue c b j (st.continueWith node))

/-- One more unit of fuel, ahead or not. -/
theorem Host.evaluate_add (h : Host S) (n a : Nat) (node : Node S) (context : Context)
    (scope : ScopeId) :
    h.evaluate b (n + 1 + a) node context scope = h.evaluate b (n + a + 1) node context scope := by
  rw [Nat.add_right_comm]

/-- What covers any smaller number of rounds covers them after a step has been counted. -/
theorem Covers.of_rounds {M : Nat → Nat → Machine S (Outcome S.Error Value)} {j : Nat}
    {st : State S} (hp : it.IsPlain) (h : ∀ i, i < j → Covers M (it.pursue c b i st)) :
    Covers M (it.rounds c b j st) := by
  cases j with
  | zero => exact .exhausted _
  | succ i =>
    rw [it.rounds_succ c b hp.stepLimit i st]
    intro w x w' heq hx
    exact (h i (by omega) heq hx).congr rfl rfl

section

variable (hp : it.IsPlain) {j : Nat} (ih : ∀ i, i < j → Followed it b C c i) (a : Nat)
  {st : State S} (hb : st.budget = b)
  {K : Outcome S.Error Value → Nat → Nat → Machine S (Outcome S.Error Value)}
  (hK : ∀ i, i ≤ j → ∀ o, Covers (K o) (it.pursue c b i (st.holding (.ofOutcome o))))

section

include hp hK

/-- An outcome in hand is for what follows. -/
theorem holding_covered {i : Nat} (hi : i ≤ j) (o : Outcome S.Error Value) :
    Covers (K o) (it.rounds c b i (st.holding (.ofOutcome o))) :=
  .of_rounds hp fun i' hi' ↦ hK i' (by omega) o

end

include hp ih hb hK

/-- An effect in hand is evaluated. -/
theorem effect_covered {i : Nat} (hi : i ≤ j) (node : Node S) :
    Covers (fun m n ↦
        (it.host (C m)).evaluate b (n + a) node st.context st.scope >>= fun o ↦ K o m n)
      (it.rounds c b i (st.continueWith node)) :=
  .of_rounds hp fun i' hi' ↦ ih i' (by omega) a node st hb K fun i'' hi'' ↦ hK i'' (by omega)

variable (st) in
/-- An effect that was built, or the defect of its building. -/
theorem built_covered {i : Nat} (hi : i ≤ j) (x : Except Defect (Node S)) :
    Covers (fun m n ↦ Host.evaluateBuilt
        ((it.host (C m)).evaluate b (n + a) · st.context st.scope) x >>= fun o ↦ K o m n)
      (it.rounds c b i (st.continueBuilt x)) := by
  cases x with
  | ok node => exact effect_covered hp ih a hb hK hi node
  | error d => exact holding_covered hp hK hi (.error (.defect d))

theorem timeout_covered (source : Node S) (limit : Duration) :
    Covers (fun m n ↦ (it.host (C m)).evaluate b (n + a) (.timeout source limit) st.context st.scope
        >>= fun o ↦ K o m n)
      (it.pursue c b j (st.continueWith (.timeout source limit))) := by
  rw [it.pursue_timeout c b hp.registry]
  refine .of_tail ?_
  simp only [Host.evaluate_add, Host.evaluate, bind_assoc]
  refine (Covers.gets fun _ _ ↦ rfl).bind fun startedAt ↦ .of_rounds hp fun i hi ↦ ?_
  refine ih i hi a source (st.push (.timeout limit startedAt)) hb _ fun i' hi' o ↦ ?_
  cases o with
  | error cause =>
    exact (hK i' (by omega) (.error cause)).tail.trans_eq
      (it.pursue_failure_timeout c b i' st cause limit startedAt).symm
  | ok v =>
    simp only [bind_assoc, pure_bind]
    refine .trans_eq ?_ (it.pursue_value_timeout c b i' st v limit startedAt).symm
    exact (Covers.gets fun _ _ ↦ rfl).bind fun elapsed ↦
      (holding_covered hp hK (by omega) _).tail

/-- The branches that are left, with the causes of the branches before them, newest first. -/
theorem nextRace_covered (branches : List (Node S)) (i k : Nat) (hk : k ≤ j)
    (failures : List (Cause S.Error)) :
    Covers (fun m n ↦ Host.evaluateFirst
        ((it.host (C m)).evaluate b (n + a) · st.context st.scope) branches failures.reverse >>=
          fun o ↦ K o m n)
      ((it.host c).nextRace (deferredForks st.context i branches) failures st.awaiting >>=
        it.rounds c b k) := by
  induction branches generalizing i k failures with
  | nil => exact holding_covered hp hK hk (.error (.composite failures.reverse))
  | cons node rest ihr =>
    simp only [Host.evaluateFirst, bind_assoc]
    refine .of_rounds hp fun i' hi' ↦ ?_
    refine ih i' (by omega) a node
      (st.push (.race (deferredForks st.context (i + 1) rest) failures))
      hb _ fun i'' hi'' o ↦ ?_
    cases o with
    | ok v =>
      exact (holding_covered hp hK (i := i'') (by omega) (.ok v)).trans_eq
        (it.pursue_value c b i'' st v (.race _ _)).symm
    | error cause =>
      refine .trans_eq ?_ (it.pursue_failure_race c b i'' st cause _ _).symm
      have h := ihr (i + 1) i'' (by omega) (cause :: failures)
      rw [List.reverse_cons] at h
      exact h

theorem race_covered (branches : List (Node S)) :
    Covers (fun m n ↦ (it.host (C m)).evaluate b (n + a) (.race branches) st.context st.scope
        >>= fun o ↦ K o m n)
      (it.pursue c b j (st.continueWith (.race branches))) := by
  refine .of_tail ?_
  cases branches with
  | nil =>
    simp only [Host.evaluate_add, Host.evaluate, pure_bind]
    rw [it.pursue_race_nil c b hp.registry]
    exact (holding_covered hp hK (by omega) (.error (.defect .emptyRace))).tail
  | cons node rest =>
    simp only [Host.evaluate_add, Host.evaluate, bind_assoc]
    rw [it.pursue_race c b hp.registry j st hp.strategy]
    refine .gets_right fun i ↦ (Covers.modify fun _ _ ↦ rfl).bind fun _ ↦ ?_
    exact nextRace_covered hp ih a hb (fun i hi o ↦ (hK i hi o).tail) (node :: rest) i j (by omega)
      []

variable (hc : ∀ s, Covers (fun i _ ↦ C i s) (c s))
include hc

theorem bind_covered (source : Node S) (next : Value → Action S (Step S)) :
    Covers (fun m n ↦ (it.host (C m)).evaluate b (n + a) (.bind source next) st.context st.scope
        >>= fun o ↦ K o m n)
      (it.pursue c b j (st.continueWith (.bind source next))) := by
  rw [it.pursue_bind c b hp.registry]
  refine .of_rounds hp fun i hi ↦ .of_tail ?_
  simp only [Host.evaluate_add, Host.evaluate, bind_assoc]
  refine ih i hi a source (st.push (.resume next)) hb _ fun i' hi' o ↦ ?_
  cases o with
  | error cause =>
    exact (hK i' (by omega) (.error cause)).tail.trans_eq
      (it.pursue_failure_resume c b i' st cause next).symm
  | ok v =>
    simp only [bind_assoc]
    refine .trans_eq ?_ (it.pursue_value_resume c b i' st v next).symm
    refine (Covers.attempt hc _).bind fun x ↦ ?_
    have hpass := fun o ↦ (holding_covered hp hK (i := i') (by omega) o).tail
    rcases x with d | (node | v | cause | _)
    · exact hpass (.error (.defect d))
    · exact effect_covered hp ih a hb (fun i hi o ↦ (hK i hi o).tail) (by omega) node
    · exact hpass (.ok v)
    · exact hpass (.error cause)
    · refine .of_rounds hp fun i'' hi'' ↦ ?_
      exact (holding_covered hp hK (i := i'') (by omega) _).tail.trans_eq
        (it.pursue_pending c b i'' st).symm

theorem provide_covered (layer : Layer S) (inner : Node S) :
    Covers (fun m n ↦ (it.host (C m)).evaluate b (n + a) (.provide layer inner) st.context st.scope
        >>= fun o ↦ K o m n)
      (it.pursue c b j (st.continueWith (.provide layer inner))) := by
  rw [it.pursue_provide c b hp.registry]
  refine .of_tail ?_
  simp only [Host.evaluate_add, Host.evaluate, bind_assoc]
  refine (Covers.attempt hc _).bind fun x ↦ ?_
  rcases x with d | missing | context
  · exact (holding_covered hp hK (by omega) (.error (.defect d))).tail
  · exact (holding_covered hp hK (by omega) (.error (.serviceNotFound missing.key))).tail
  · refine .of_rounds hp fun i hi ↦ ?_
    refine ih i hi a inner { st.push (.restoreContext st.context) with context } hb _
      fun i' hi' o ↦ ?_
    have hrestore := it.pursue_restoreContext c b i' { st with context } st.context o
    cases o with
    | ok v => exact (holding_covered hp hK (i := i') (by omega) (.ok v)).tail.trans_eq hrestore.symm
    | error cause => exact (hK i' (by omega) (.error cause)).tail.trans_eq hrestore.symm

theorem recover_covered (source : Node S) (accepts : Cause S.Error → Action S Bool)
    (handler : Cause S.Error → Action S (Plan S)) :
    Covers (fun m n ↦ (it.host (C m)).evaluate b (n + a) (.recover source accepts handler)
        st.context st.scope >>= fun o ↦ K o m n)
      (it.pursue c b j (st.continueWith (.recover source accepts handler))) := by
  rw [it.pursue_recover c b hp.registry]
  refine .of_rounds hp fun i hi ↦ .of_tail ?_
  simp only [Host.evaluate_add, Host.evaluate, bind_assoc]
  refine ih i hi a source (st.push (.recover accepts handler)) hb _ fun i' hi' o ↦ ?_
  cases o with
  | ok v =>
    exact (holding_covered hp hK (i := i') (by omega) (.ok v)).tail.trans_eq
      (it.pursue_value c b i' st v (.recover accepts handler)).symm
  | error cause =>
    simp only [bind_assoc]
    refine .trans_eq ?_ (it.pursue_failure_recover c b i' st cause accepts handler).symm
    refine (Covers.attempt hc _).bind fun x ↦ ?_
    rcases x with d | _ | _
    · exact (hK i' (by omega) (.error (cause.combine (.defect d)))).tail
    · exact (hK i' (by omega) (.error cause)).tail
    · simp only [bind_assoc]
      exact (Covers.build hc _).bind fun x ↦
        built_covered hp ih a _ hb (fun i hi o ↦ (hK i hi o).tail) (by omega) x

theorem region_covered (body : ScopeId → Action S (Plan S)) :
    Covers (fun m n ↦ (it.host (C m)).evaluate b (n + a) (.region body) st.context st.scope
        >>= fun o ↦ K o m n)
      (it.pursue c b j (st.continueWith (.region body))) := by
  rw [it.pursue_region c b hp.registry]
  refine .of_tail ?_
  simp only [Host.evaluate_add, Host.evaluate, Machine.inScope, bind_assoc, pure_bind]
  refine (Covers.modifyGet fun _ _ ↦ rfl).bind fun child ↦ (Covers.build hc _).bind fun x ↦ ?_
  refine built_covered hp ih a { st.push (.closeScope child st.scope) with scope := child }
    hb (fun i hi o ↦ ?_) (by omega) x
  refine .trans_eq ?_
    (it.pursue_closeScope c b i { st with scope := child } child st.scope o).symm
  refine (hc child).bind fun r ↦ ?_
  cases o with
  | ok v => exact (holding_covered hp hK hi _).tail
  | error cause => exact (hK i hi _).tail

/-- The branches that are left, with the values of the branches before them, newest first. -/
theorem nextParallel_covered (collect : List Value → Action S (Except Defect Value))
    (branches : List (Node S)) (i k : Nat) (hk : k ≤ j) (collected : List Value) :
    Covers (fun m n ↦ Host.evaluateAll
        ((it.host (C m)).evaluate b (n + a) · st.context st.scope) branches >>= fun
        | .error cause => K (.error cause) m n
        | .ok vs => (it.host (C m)).attempt (collect (collected.reverse ++ vs)) >>= fun
          | .ok (.ok v) => K (.ok v) m n
          | .ok (.error d) | .error d => K (.error (.defect d)) m n)
      ((it.host c).nextParallel collect (deferredForks st.context i branches) collected
        st.awaiting >>= it.rounds c b k) := by
  induction branches generalizing i k collected with
  | nil =>
    simp only [deferredForks, Host.nextParallel, Host.evaluateAll, pure_bind, bind_assoc,
      List.append_nil]
    refine (Covers.attempt hc _).bind fun x ↦ ?_
    rcases x with d | d | v
    · exact holding_covered hp hK hk _
    · exact holding_covered hp hK hk _
    · exact holding_covered hp hK hk _
  | cons node rest ihr =>
    simp only [Host.evaluateAll, bind_assoc]
    refine .of_rounds hp fun i' hi' ↦ ?_
    refine ih i' (by omega) a node
      (st.push (.parallel (deferredForks st.context (i + 1) rest) collected collect)) hb _
      fun i'' hi'' o ↦ ?_
    cases o with
    | error cause =>
      exact (hK i'' (by omega) (.error cause)).trans_eq
        (it.pursue_failure_parallel c b i'' st cause _ _ _).symm
    | ok v =>
      simp only [bind_assoc, pure_bind]
      refine .trans_eq ?_ (it.pursue_value c b i'' st v _).symm
      refine (ihr (i + 1) i'' (by omega) (v :: collected)).of_eq fun m n ↦ bind_congr fun r ↦ ?_
      cases r with
      | error cause => rfl
      | ok vs => simp [Except.map]

theorem parallel_covered (branches : List (Node S))
    (collect : List Value → Action S (Except Defect Value)) :
    Covers (fun m n ↦ (it.host (C m)).evaluate b (n + a) (.parallel branches collect)
        st.context st.scope >>= fun o ↦ K o m n)
      (it.pursue c b j (st.continueWith (.parallel branches collect))) := by
  rw [it.pursue_parallel c b hp.registry j st hp.strategy]
  refine .of_tail ?_
  simp only [Host.evaluate_add, Host.evaluate, bind_assoc]
  refine .gets_right fun i ↦ (Covers.modify fun _ _ ↦ rfl).bind fun _ ↦ ?_
  refine (nextParallel_covered hp ih a hb (fun i hi o ↦ (hK i hi o).tail) hc collect branches i j
    (by omega) []).of_eq fun m n ↦ bind_congr fun r ↦ ?_
  cases r with
  | error cause => rfl
  | ok vs =>
    simp only [bind_assoc]
    refine bind_congr fun x ↦ ?_
    rcases x with _ | _ | _ <;> rfl

/-- The attempts that are left in a retry session. Each attempt takes one unit of the fuel of the
loop, so the fuel of the source runs ahead by one more. -/
theorem evaluateRetry_covered (source : Node S) (schedule : Schedule S) (startedAt k : Nat)
    (hk : k ≤ j) (a' : Nat) (jitter : JitterSource) (attempt : Nat) :
    Covers (fun m n ↦ (it.host (C m)).evaluateRetry
        ((it.host (C m)).evaluate b (n + a) source st.context st.scope) schedule startedAt
        (n + a') jitter attempt >>= fun o ↦ K o m n)
      (it.rounds c b k
        ((st.push (.retry ⟨source, schedule, jitter, attempt, startedAt⟩)).continueWith
          source)) := by
  induction k using Nat.strongRecOn generalizing a jitter attempt K with
  | ind k ihr =>
    refine .of_rounds hp fun i hi ↦ .of_tail ?_
    have hfuel : ∀ n, n + 1 + a' = n + a' + 1 := fun n ↦ Nat.add_right_comm n 1 a'
    have hahead : ∀ n, n + 1 + a = n + (a + 1) := fun n ↦ Nat.add_assoc n 1 a ▸ by omega
    simp only [hfuel, hahead, Host.evaluateRetry, bind_assoc]
    refine ih i (by omega) (a + 1) source (st.push _) hb _ fun i' hi' o ↦ ?_
    -- only a bare error consults the schedule
    have hpass : ∀ cause : Cause S.Error, cause.isFail = false →
        Covers (fun m n ↦ K (.error cause) m (n + 1)) (it.pursue c b i'
          ((st.push (.retry ⟨source, schedule, jitter, attempt, startedAt⟩)).fail cause)) :=
      fun cause hcause ↦ (hK i' (by omega) (.error cause)).tail.trans_eq
        (it.pursue_failure_retry c b i' st cause _ hcause).symm
    rcases o with (error | e | key | limit | causes | d) | v
    · simp only [bind_assoc]
      refine .trans_eq ?_ (it.pursue_fail_retry c b i' st hp.strategy _ error).symm
      refine (Covers.gets fun _ _ ↦ rfl).bind fun elapsed ↦ (Covers.attempt hc _).bind fun x ↦ ?_
      rcases x with d | ⟨_ | delay, jitter⟩
      · exact (hK i' (by omega) _).tail
      · exact (hK i' (by omega) _).tail
      · simp only [bind_assoc]
        refine (Covers.modify fun _ _ ↦ rfl).bind fun _ ↦ ?_
        exact ihr i' (by omega) (a + 1) (fun i hi o ↦ (hK i hi o).tail) (by omega) jitter
          (attempt + 1)
    · exact hpass _ rfl
    · exact hpass _ rfl
    · exact hpass _ rfl
    · exact hpass _ rfl
    · exact hpass _ rfl
    · exact (holding_covered hp hK (i := i') (by omega) (.ok v)).tail.trans_eq
        (it.pursue_value c b i' st v (.retry _)).symm

theorem retry_covered (source : Node S) (schedule : Schedule S) :
    Covers (fun m n ↦ (it.host (C m)).evaluate b (n + a) (.retry source schedule)
        st.context st.scope >>= fun o ↦ K o m n)
      (it.pursue c b j (st.continueWith (.retry source schedule))) := by
  rw [it.pursue_retry c b hp.registry]
  refine .of_tail ?_
  simp only [Host.evaluate_add, Host.evaluate, bind_assoc]
  refine (Covers.gets fun _ _ ↦ rfl).bind fun startedAt ↦ ?_
  exact evaluateRetry_covered hp ih a hb (fun i hi o ↦ (hK i hi o).tail) hc source schedule
    startedAt j (by omega) a schedule.source 0

end

variable (hp : it.IsPlain) (hc : ∀ s, Covers (fun i _ ↦ C i s) (c s))
include hp hc

/-- The machine is covered by direct evaluation. -/
theorem followed (j : Nat) : Followed it b C c j := by
  induction j using Nat.strongRecOn with
  | ind j ih =>
    intro a node st hb K hK
    have hpass := fun o ↦ (holding_covered hp hK (Nat.le_refl j) o).tail
    cases node with
    | pure make =>
      rw [it.pursue_pure c b hp.registry]
      refine .of_tail ?_
      simp only [Host.evaluate_add, Host.evaluate, bind_assoc, pure_bind]
      exact (Covers.attempt hc make).bind fun x ↦ hpass (x.mapError .defect)
    | fail cause =>
      rw [it.pursue_fail c b hp.registry]
      refine .of_tail ?_
      simp only [Host.evaluate_add, Host.evaluate, pure_bind]
      exact hpass (.error cause)
    | service key =>
      rw [it.pursue_service c b hp.registry]
      refine .of_tail ?_
      simp only [Host.evaluate_add, Host.evaluate]
      cases st.context.find? key with
      | some s => exact hpass (.ok ⟨.service, s⟩)
      | none => exact hpass (.error (.serviceNotFound key))
    | sleep d =>
      rw [it.pursue_sleep c b hp.registry j st hp.strategy]
      refine .of_tail ?_
      simp only [Host.evaluate_add, Host.evaluate, bind_assoc, pure_bind]
      exact (Covers.modify fun _ _ ↦ rfl).bind fun _ ↦ hpass (.ok .unit)
    | async start =>
      rw [it.pursue_async c b hp.registry j st hp.strategy]
      refine .of_tail ?_
      simp only [Host.evaluate_add, Host.evaluate, bind_assoc]
      refine (Covers.modifyGet fun _ _ ↦ rfl).bind fun slot ↦ (Covers.attempt hc _).bind fun x ↦ ?_
      cases x with
      | error d => exact hpass (.error (.defect d))
      | ok u =>
        simp only [bind_assoc, pure_bind]
        exact (Covers.modifyGet fun _ _ ↦ rfl).bind fun o ↦ hpass _
    | finalizer release =>
      subst hb
      rw [it.pursue_finalizer c st.budget hp.registry]
      refine .of_tail ?_
      simp only [Host.evaluate_add, Host.evaluate, bind_assoc]
      refine (Covers.modifyGet (World.uncounting_addFinalizer _ _)).bind fun x ↦ ?_
      rcases x with d | ⟨⟩
      · exact hpass (.error (.defect d))
      · exact hpass (.ok .unit)
    | suspend thunk =>
      rw [it.pursue_suspend c b hp.registry]
      refine .of_tail ?_
      simp only [Host.evaluate_add, Host.evaluate, bind_assoc]
      exact (Covers.build hc thunk).bind fun x ↦
        built_covered hp ih a _ hb (fun i hi o ↦ (hK i hi o).tail) (Nat.le_refl j) x
    | bind source next => exact bind_covered hp ih a hb hK hc source next
    | provide layer inner => exact provide_covered hp ih a hb hK hc layer inner
    | recover source accepts handler =>
      exact recover_covered hp ih a hb hK hc source accepts handler
    | parallel branches collect => exact parallel_covered hp ih a hb hK hc branches collect
    | race branches => exact race_covered hp ih a hb hK branches
    | retry source schedule => exact retry_covered hp ih a hb hK hc source schedule
    | region body => exact region_covered hp ih a hb hK hc body
    | timeout source limit => exact timeout_covered hp ih a hb hK source limit

end EffectMachine
