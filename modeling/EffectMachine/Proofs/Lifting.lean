import EffectMachine.Proofs.Lexical

/-!
# Runs above a stack

A loop does not look at the part of its stack that it has not pushed itself. So a run can be lifted
onto any other stack (`State.above`): it makes the same rounds there, and where it would have
settled it hands its outcome to the stack below.

`Interpreter.Settles` says that a loop, begun above nothing, comes to an outcome in a world. Lifted
onto a stack it arrives at that stack with the outcome in hand, in the same world and with the
setting that it began with, and nothing else can be the case if the lifted run ends
(`Interpreter.rounds_above`). The round in which a run settles is not finished above a stack: it
goes on with the outcome.
-/

namespace EffectMachine

variable {S : Signature} {α β : Type}

open Machine (Answers)

/-! ### Lifting states -/

/-- The state with further frames below its stack. -/
def State.above (st : State S) (base : List (Frame S)) : State S :=
  { st with stack := st.stack ++ base }

/-- What becomes of a failure at a frame, with further frames below. -/
def Fall.above (base : List (Frame S)) : Fall S → Fall S
  | .on cause st => .on cause (st.above base)
  | .caught st => .caught (st.above base)

/-- The state with a stack and something in hand. -/
def Setting.state (σ : Setting) (stack : List (Frame S)) (c : Control S) : State S :=
  ⟨σ.context, stack, σ.scope, c, σ.budget⟩

theorem State.above_nil (st : State S) : st.above [] = st := by
  rw [above, List.append_nil]

/-- The computation, with further frames below the stack of the state that it yields. -/
def Machine.above (base : List (Frame S)) (m : Machine S (State S)) : Machine S (State S) :=
  m >>= fun st ↦ pure (st.above base)

namespace Host

variable (h : Host S) (base : List (Frame S)) (st : State S)

theorem nextParallel_above (collect : List Value → Action S (Except Defect Value))
    (fs : List (Fork S)) (collected : List Value) :
    h.nextParallel collect fs collected (st.above base) =
      .above base (h.nextParallel collect fs collected st) := by
  induction fs generalizing collected with
  | nil =>
    simp only [nextParallel, Machine.above, bind_assoc]
    refine bind_congr fun x ↦ ?_
    rcases x with d | d | v <;> rfl
  | cons f fs ih =>
    simp only [nextParallel, Machine.above, bind_assoc]
    refine bind_congr fun t ↦ ?_
    rcases t with job | c | v
    · rfl
    · rfl
    · exact ih (v :: collected)

theorem nextRace_above (fs : List (Fork S)) (failures : List (Cause S.Error)) :
    h.nextRace fs failures (st.above base) = .above base (h.nextRace fs failures st) := by
  induction fs generalizing failures with
  | nil => rfl
  | cons f fs ih =>
    simp only [nextRace, Machine.above, bind_assoc]
    refine bind_congr fun t ↦ ?_
    rcases t with job | c | v
    · rfl
    · exact ih (c :: failures)
    · rfl

/-- Handlers do not look at the stack. -/
theorem standard_above (node : Node S) :
    Handler.standard node.tag h node (st.above base) =
      .above base (Handler.standard node.tag h node st) := by
  cases node with
  | fail | bind | recover | retry | timeout => rfl
  | service key =>
    have hcontext : (st.above base).context = st.context := rfl
    simp only [Node.tag, Handler.standard, Handler.onService, Machine.above, hcontext]
    cases st.context.find? key <;> rfl
  | suspend thunk =>
    simp only [Node.tag, Handler.standard, Handler.onSuspend, Machine.above, bind_assoc, pure_bind]
    refine bind_congr fun x ↦ ?_
    cases x <;> rfl
  | pure make =>
    simp only [Node.tag, Handler.standard, Handler.onPure, Machine.above, bind_assoc]
    refine bind_congr fun x ↦ ?_
    cases x <;> rfl
  | provide layer inner =>
    simp only [Node.tag, Handler.standard, Handler.onProvide, Machine.above, bind_assoc]
    refine bind_congr fun x ↦ ?_
    rcases x with _ | _ | _ <;> rfl
  | sleep d =>
    simp only [Node.tag, Handler.standard, Handler.onSleep, Machine.above, bind_assoc, pure_bind]
    rfl
  | async start =>
    simp only [Node.tag, Handler.standard, Handler.onAsync, Machine.above, bind_assoc]
    refine bind_congr fun slot ↦ bind_congr fun x ↦ ?_
    rcases x with d | ⟨⟩
    · rfl
    · simp only [bind_assoc, pure_bind]
      rfl
  | parallel branches collect =>
    simp only [Node.tag, Handler.standard, Handler.onParallel, Machine.above, bind_assoc]
    exact bind_congr fun fs ↦ h.nextParallel_above base st collect fs []
  | race branches =>
    cases branches with
    | nil => rfl
    | cons n ns =>
      simp only [Node.tag, Handler.standard, Handler.onRace, Machine.above, bind_assoc]
      exact bind_congr fun fs ↦ h.nextRace_above base st fs []
  | region body =>
    simp only [Node.tag, Handler.standard, Handler.onRegion, Machine.above, bind_assoc, pure_bind]
    refine bind_congr fun child ↦ bind_congr fun x ↦ ?_
    cases x <;> rfl
  | finalizer release =>
    simp only [Node.tag, Handler.standard, Handler.onFinalizer, Machine.above, bind_assoc]
    refine bind_congr fun x ↦ ?_
    cases x <;> rfl

/-- A frame that is handed a value does not look at the stack below it. -/
theorem resume_above (f : Frame S) (v : Value) :
    h.resume f v (st.above base) = .above base (h.resume f v st) := by
  cases f with
  | recover | retry | race | restoreContext => rfl
  | parallel rest collected collect => exact h.nextParallel_above base st collect rest _
  | resume next =>
    simp only [resume, Machine.above, bind_assoc]
    refine bind_congr fun x ↦ ?_
    cases x <;> rfl
  | closeScope s parent =>
    simp only [resume, Machine.above, bind_assoc]
    refine bind_congr fun x ↦ ?_
    rcases x with _ | ⟨⟩ <;> rfl
  | timeout limit startedAt =>
    simp only [resume, Machine.above, bind_assoc, pure_bind]
    refine bind_congr fun elapsed ↦ ?_
    split <;> rfl

/-- Nor does one on which a failure falls. -/
theorem fall_above (f : Frame S) (cause : Cause S.Error) :
    h.fall f cause (st.above base) = h.fall f cause st >>= fun x ↦ pure (x.above base) := by
  cases f with
  | resume | timeout | parallel | restoreContext => rfl
  | closeScope s parent =>
    simp only [fall, bind_assoc, pure_bind]
    rfl
  | race rest failures =>
    simp only [fall, bind_assoc, pure_bind]
    rw [h.nextRace_above base st]
    simp only [Machine.above, bind_assoc, pure_bind]
    rfl
  | recover accepts handler =>
    simp only [fall, bind_assoc]
    refine bind_congr fun x ↦ ?_
    rcases x with _ | _ | _
    · rfl
    · rfl
    · simp only [bind_assoc, pure_bind]
      refine bind_congr fun x ↦ ?_
      cases x <;> rfl
  | retry session =>
    simp only [fall, bind_assoc]
    refine bind_congr fun x ↦ ?_
    cases x <;> rfl

end Host

/-! ### Grounded states -/

/-- The stack can be marked so that it coheres down to a setting. -/
def State.Grounded (ground : Setting) (st : State S) : Prop :=
  ∃ marked, marked.map Prod.fst = st.stack ∧ Coheres ground st.setting marked

namespace State

variable {st : State S} {ground : Setting}

theorem grounded_of_nil (hs : st.stack = []) : st.Grounded st.setting := ⟨[], hs.symm, rfl⟩

/-- Above nothing the setting is the one at the bottom. -/
theorem Grounded.eq_state (h : st.Grounded ground) (hs : st.stack = []) (base : List (Frame S)) :
    st.above base = ground.state base st.control := by
  obtain ⟨marked, hmarked, hcoheres⟩ := h
  obtain rfl : marked = [] := List.map_eq_nil_iff.1 (hmarked.trans hs)
  obtain rfl : st.setting = ground := hcoheres
  rw [above, hs]
  rfl

end State

namespace Interpreter

variable {it : Interpreter S} {close : Closer S} {b : BudgetId} {ground : Setting} {st : State S}
  {w w' : World S}

/-- A move keeps a state grounded. -/
theorem move_grounded (hr : it.registry = .standard) (hσ : it.strategy.KeepsJobs) {st' : State S}
    (h : st.Grounded ground) (hm : it.move close st w = (.ok st', w')) : st'.Grounded ground := by
  obtain ⟨marked, hmarked, hcoheres⟩ := h
  rcases move_coheres hr hσ hmarked hcoheres hm with ⟨hs, h⟩ | ⟨f, hs, h⟩
  · exact ⟨_, hs.symm, h⟩
  · exact ⟨(f, st.setting) :: st.remaining marked, hs.symm, h⟩

/-! ### Lifting rounds -/

/-- A move that hands something over does not look at the stack below. -/
theorem move_above (hr : it.registry = .standard) (base : List (Frame S))
    (hst : ∀ o, st.control = .ofOutcome o → st.stack ≠ []) :
    it.move close (st.above base) = .above base (it.move close st) := by
  obtain ⟨context, stack, scope, control, b⟩ := st
  cases control with
  | pending => rfl
  | effect node =>
    change it.dispatch close node (State.above ⟨context, stack, scope, .pending, b⟩ base) =
      .above base (it.dispatch close node ⟨context, stack, scope, .pending, b⟩)
    rw [dispatch, dispatch, hr, Registry.dispatch_standard, Registry.dispatch_standard,
      Host.standard_above]
    simp only [Machine.above, bind_assoc, pure_bind]
    refine bind_congr fun next ↦ ?_
    change pure (if next.control.isPending then _ else _) = _
    split <;> rfl
  | value v =>
    cases stack with
    | nil => exact absurd rfl (hst (.ok v) rfl)
    | cons f rest => exact (it.host close).resume_above base ⟨context, rest, scope, .pending, b⟩ f v
  | failure cause =>
    cases stack with
    | nil => exact absurd rfl (hst (.error cause) rfl)
    | cons f rest =>
      have hfall := (it.host close).fall_above base ⟨context, rest, scope, .pending, b⟩ f cause
      change ((it.host close).fall f cause
        (State.above ⟨context, rest, scope, .pending, b⟩ base) >>=
        fun x ↦ pure (x.landing (rest ++ base))) = ((it.host close).fall f cause
          ⟨context, rest, scope, .pending, b⟩ >>= fun x ↦ pure (x.landing rest)) >>=
            fun st ↦ pure (st.above base)
      rw [hfall]
      simp only [bind_assoc, pure_bind]
      refine bind_congr fun x ↦ ?_
      cases x <;> rfl

/-- What a round comes to, once its step has been counted, above whatever stack: a state to go on
with, an outcome for the stack below, or an escape. -/
inductive RoundAbove (it : Interpreter S) (close : Closer S) (b : BudgetId) (ground : Setting)
    (st : State S) (w : World S) : Prop where
  | running {st' : State S} (w' : World S) (hst' : st'.Grounded ground)
      (heq : ∀ base n, it.pursue close b n (st.above base) w =
        it.rounds close b n (st'.above base) w')
  | settled (o : Outcome S.Error Value) (w' : World S)
      (heq : ∀ base n, it.pursue close b n (st.above base) w =
        it.pursue close b n (ground.state base (.ofOutcome o)) w')
  | escaped (e : Escape) (w' : World S)
      (heq : ∀ base n, it.pursue close b n (st.above base) w = (.error e, w'))

theorem RoundAbove.of_eq {st' : State S} (h : it.RoundAbove close b ground st' w')
    (heq : ∀ base n, it.pursue close b n (st.above base) w =
      it.pursue close b n (st'.above base) w') : it.RoundAbove close b ground st w := by
  cases h with
  | running w₁ hst₁ h => exact .running w₁ hst₁ fun base n ↦ (heq base n).trans (h base n)
  | settled o w₁ h => exact .settled o w₁ fun base n ↦ (heq base n).trans (h base n)
  | escaped e w₁ h => exact .escaped e w₁ fun base n ↦ (heq base n).trans (h base n)

section

variable (hr : it.registry = .standard) (hσ : it.strategy.KeepsJobs)
include hr hσ

/-- A round that makes one move. -/
theorem roundAbove_move (h : st.Grounded ground)
    (hst : ∀ o, st.control = .ofOutcome o → st.stack ≠ [])
    (hpursue : ∀ base n, it.pursue close b n (st.above base) =
      it.move close (st.above base) >>= it.rounds close b n) :
    it.RoundAbove close b ground st w := by
  rcases hm : it.move close st w with ⟨e | st', w'⟩
  · refine .escaped e w' fun base n ↦ ?_
    rw [hpursue, move_above hr base hst]
    exact Machine.bind_error (Machine.bind_error hm _) _
  · refine .running w' (move_grounded hr hσ h hm) fun base n ↦ ?_
    rw [hpursue, move_above hr base hst]
    exact Machine.bind_ok (Machine.bind_ok hm _) _

omit hr hσ in
/-- A failure falls on the newest frame first, whatever is below. -/
theorem pursue_failure_above (context : Context) (f : Frame S) (rest base : List (Frame S))
    (scope : ScopeId) (cause : Cause S.Error) (b' : BudgetId) (n : Nat) :
    it.pursue close b n (State.above ⟨context, f :: rest, scope, .failure cause, b'⟩ base) =
      (it.host close).fall f cause (State.above ⟨context, rest, scope, .pending, b'⟩ base) >>= fun
        | .caught st => it.rounds close b n st
        | .on cause st' => (it.host close).unwind (rest ++ base) cause st' >>= fun
          | .ok st => it.rounds close b n st
          | .error cause => pure (.error cause) :=
  it.pursue_failure_push close b n ⟨context, rest ++ base, scope, .pending, b'⟩ cause f

/-- A round that holds a failure passes it down until a frame recovers. -/
theorem roundAbove_failure {cause : Cause S.Error} (h : st.Grounded ground)
    (hc : st.control = .failure cause) : it.RoundAbove close b ground st w := by
  obtain ⟨context, stack, scope, control, b'⟩ := st
  cases hc
  -- the failure falls on one frame after the other
  induction stack generalizing context scope b' cause w with
  | nil =>
    refine .settled (.error cause) w fun base n ↦ ?_
    rw [h.eq_state rfl]
    rfl
  | cons f rest ih =>
    have hmove : ∀ {x w'}, (it.host close).fall f cause ⟨context, rest, scope, .pending, b'⟩ w =
        (.ok x, w') → it.move close ⟨context, f :: rest, scope, .failure cause, b'⟩ w =
          (.ok (x.landing rest), w') := fun hfall ↦ Machine.bind_ok hfall _
    have hover : ∀ {x w'} base,
        (it.host close).fall f cause ⟨context, rest, scope, .pending, b'⟩ w =
        (.ok x, w') → (it.host close).fall f cause
          (State.above ⟨context, rest, scope, .pending, b'⟩ base) w = (.ok (x.above base), w') := by
      intro x w' base hfall
      rw [Host.fall_above]
      exact Machine.bind_ok hfall _
    rcases hfall : (it.host close).fall f cause ⟨context, rest, scope, .pending, b'⟩ w with
      ⟨e | x, w'⟩
    · refine .escaped e w' fun base n ↦ ?_
      rw [pursue_failure_above, Host.fall_above]
      exact Machine.bind_error (Machine.bind_error hfall _) _
    · have hgrounded := move_grounded hr hσ h (hmove hfall)
      cases x with
      | caught st' =>
        refine .running w' hgrounded fun base n ↦ ?_
        rw [pursue_failure_above, Machine.bind_ok (hover base hfall)]
        rfl
      | on cause' st' =>
        obtain ⟨hcontrol, hstack, -⟩ := Host.fall_on hfall
        obtain ⟨context', stack', scope', control', b''⟩ := st'
        cases hcontrol
        cases hstack
        have hlift : ∀ base n, it.pursue close b n
            (State.above ⟨context, f :: rest, scope, .failure cause, b'⟩ base) w =
              it.pursue close b n
                (State.above ⟨context', rest, scope', .failure cause', b''⟩ base) w' := by
          intro base n
          rw [pursue_failure_above, Machine.bind_ok (hover base hfall)]
          have hpass :=
            it.pursue_failure close b n ⟨context', rest ++ base, scope', .pending, b''⟩ cause'
          exact congrFun hpass.symm w'
        exact (ih _ _ _ hgrounded).of_eq hlift

/-- **Any round can be lifted onto a stack**, the last one up to its outcome. -/
theorem roundAbove (h : st.Grounded ground) : it.RoundAbove close b ground st w := by
  obtain ⟨context, stack, scope, control, b'⟩ := st
  cases control with
  | failure cause => exact roundAbove_failure hr hσ h rfl
  | pending => exact roundAbove_move hr hσ h (fun o ho ↦ by cases o <;> cases ho) fun base n ↦ rfl
  | effect node =>
    refine roundAbove_move hr hσ h (fun o ho ↦ by cases o <;> cases ho) fun base n ↦ ?_
    change (it.dispatch close node _ >>= fun st ↦ pure (Progress.running st)) >>= _ =
      it.dispatch close node _ >>= _
    simp only [bind_assoc, pure_bind]
  | value v =>
    cases stack with
    | nil =>
      refine .settled (.ok v) w fun base n ↦ ?_
      rw [h.eq_state rfl]
      rfl
    | cons f rest =>
      exact roundAbove_move hr hσ h (fun _ _ ↦ List.cons_ne_nil f rest) fun base n ↦
        it.pursue_value close b n ⟨context, rest ++ base, scope, .pending, b'⟩ v f

/-! ### Lifting runs -/

variable (hl : it.config.stepLimit = none)
include hl

/-- **Any run can be lifted onto a stack.** If it settles, the lifted run takes as many steps to
hand the outcome to that stack. If it escapes or runs out of fuel, so does the lifted run. -/
theorem rounds_above (close : Closer S) (b : BudgetId) (w : World S) (fuel : Nat)
    (h : st.Grounded ground) :
    (∃ o w' k, k ≤ fuel ∧ ∀ base n, it.rounds close b (k + n) (st.above base) w =
      it.pursue close b n (ground.state base (.ofOutcome o)) w') ∨
    ∃ e w', ∀ base, it.rounds close b fuel (st.above base) w = (.error e, w') := by
  induction fuel generalizing st w with
  | zero => exact .inr ⟨.exhausted, w, fun _ ↦ rfl⟩
  | succ fuel ih =>
    have hround : ∀ base n, it.rounds close b (n + 1) (st.above base) w =
        it.pursue close b n (st.above base) (w.modifyBudget b Budget.tick) := by
      intro base n
      rw [it.rounds_succ close b hl]
      rfl
    have hcases : it.RoundAbove close b ground st (w.modifyBudget b Budget.tick) :=
      roundAbove hr hσ h
    cases hcases with
    | escaped e w' heq => exact .inr ⟨e, w', fun base ↦ (hround base fuel).trans (heq base fuel)⟩
    | settled o w' heq =>
      refine .inl ⟨o, w', 1, by omega, fun base n ↦ ?_⟩
      rw [Nat.add_comm]
      exact (hround base n).trans (heq base n)
    | running w' hst' heq =>
      rcases ih w' hst' with ⟨o, w₁, k, hk, hk'⟩ | ⟨e, w₁, he⟩
      · refine .inl ⟨o, w₁, k + 1, by omega, fun base n ↦ ?_⟩
        rw [Nat.add_right_comm, hround, heq, hk']
      · exact .inr ⟨e, w₁, fun base ↦ by rw [hround, heq, he]⟩

end

/-! ### Settling -/

/-- The loop comes to an outcome in a world. -/
def Settles (it : Interpreter S) (close : Closer S) (b : BudgetId) (st : State S) (w : World S)
    (o : Outcome S.Error Value) (w' : World S) : Prop :=
  ∃ fuel, it.rounds close b fuel st w = (.ok o, w')

/-- An outcome above nothing is the outcome of the run. -/
theorem pursue_state_nil (n : Nat) (o : Outcome S.Error Value) :
    it.pursue close b n (ground.state [] (.ofOutcome o)) = pure o :=
  it.pursue_settled close b n (ground.state [] .pending) rfl o

variable (hr : it.registry = .standard) (hσ : it.strategy.KeepsJobs)
  (hl : it.config.stepLimit = none) {o : Outcome S.Error Value}
include hr hσ hl

/-- A run settles just if, above any stack, it hands its outcome to that stack. -/
theorem settles_iff_above (h : st.Grounded ground) :
    it.Settles close b st w o w' ↔ ∃ k, ∀ base n, it.rounds close b (k + n) (st.above base) w =
      it.pursue close b n (ground.state base (.ofOutcome o)) w' := by
  constructor
  · rintro ⟨fuel, hfuel⟩
    rw [← st.above_nil] at hfuel
    rcases rounds_above hr hσ hl close b w fuel h with ⟨o₁, w₁, k, hk, hover⟩ | ⟨e, w₁, he⟩
    · obtain ⟨n, rfl⟩ := Nat.exists_eq_add_of_le hk
      have hsettled := (hover [] n).symm.trans hfuel
      rw [pursue_state_nil] at hsettled
      cases hsettled
      exact ⟨k, hover⟩
    · rw [he] at hfuel
      cases hfuel
  · rintro ⟨k, hk⟩
    have hsettled := hk [] 0
    rw [pursue_state_nil, st.above_nil] at hsettled
    exact ⟨k, hsettled⟩

/-- A run above a stack that ends has settled before it came to that stack. -/
theorem settles_of_above {base : List (Frame S)} (h : st.Grounded ground) {fuel : Nat}
    {o' : Outcome S.Error Value} (heq : it.rounds close b fuel (st.above base) w = (.ok o', w')) :
    ∃ o w₁ n, it.Settles close b st w o w₁ ∧
      it.pursue close b n (ground.state base (.ofOutcome o)) w₁ = (.ok o', w') := by
  rcases rounds_above hr hσ hl close b w fuel h with
    ⟨o, w₁, k, hk, hover⟩ | ⟨e, w₁, he⟩
  · obtain ⟨n, rfl⟩ := Nat.exists_eq_add_of_le hk
    refine ⟨o, w₁, n, (settles_iff_above hr hσ hl h).2 ⟨k, hover⟩, ?_⟩
    rw [← hover, heq]
  · rw [he] at heq
    cases heq

end Interpreter

end EffectMachine
