import EffectMachine.Proofs.Decisions
import EffectMachine.Proofs.Lifting

/-!
# What branches come to

A branch is put off and run by the machine, or its outcome is known, or it runs elsewhere and is
joined. `Interpreter.ForkSettles` says what a branch comes to in each of these cases, and nothing
that follows depends on which of them it is.

Branches take their turns in order, each in the world that the one before it has left
(`Interpreter.InTurn`). A parallel effect and a race sweep over their branches in the same way: they
go on after outcomes of one kind and stop at the first of the other kind (`Interpreter.Sweep`). The
branches behind that one have no part in it.

The machine keeps what has been swept on its stack while a branch runs above it. That this makes no
difference rests on the fact that runs can be lifted onto a stack.
-/

namespace EffectMachine

variable {S : Signature}

open Machine (Answers)

/-- The world in which the failure of a branch has left a parallel effect. A failure that was known
is handed over in a round of its own. -/
def Fork.handOver (b : BudgetId) (f : Fork S) (w : World S) : World S :=
  match f.state with
  | .deferred _ => w
  | .settled _ | .external _ => w.modifyBudget b Budget.tick

namespace Host

variable (h : Host S)

/-- What a parallel effect does with the outcome of a branch. -/
def collectNext (collect : List Value → Action S (Except Defect Value)) (rest : List (Fork S))
    (collected : List Value) (st : State S) : Outcome S.Error Value → Machine S (State S)
  | .ok v => h.nextParallel collect rest (v :: collected) st
  | .error cause => pure (st.fail cause)

/-- What a race does with the outcome of a branch. -/
def recordNext (rest : List (Fork S)) (failures : List (Cause S.Error)) (st : State S) :
    Outcome S.Error Value → Machine S (State S)
  | .ok v => pure (st.succeed v)
  | .error cause => h.nextRace rest (cause :: failures) st

theorem nextParallel_eq (collect : List Value → Action S (Except Defect Value)) (f : Fork S)
    (rest : List (Fork S)) (collected : List Value) (st : State S) :
    h.nextParallel collect (f :: rest) collected st = h.turn f >>= fun
      | .run job => pure ({ st.push (.parallel rest collected collect) with
          context := job.context }.continueWith job.node)
      | .settled o => h.collectNext collect rest collected st o := by
  rw [nextParallel]
  refine bind_congr fun t ↦ ?_
  rcases t with job | c | v <;> rfl

theorem nextRace_eq (f : Fork S) (rest : List (Fork S)) (failures : List (Cause S.Error))
    (st : State S) :
    h.nextRace (f :: rest) failures st = h.turn f >>= fun
      | .run job => pure ({ st.push (.race rest failures) with
          context := job.context }.continueWith job.node)
      | .settled o => h.recordNext rest failures st o := by
  rw [nextRace]
  refine bind_congr fun t ↦ ?_
  rcases t with job | c | v <;> rfl

end Host

namespace Interpreter

variable (it : Interpreter S) (close : Closer S) (ground : Setting)

/-- What a branch comes to when its turn has come: the outcome of running it, the outcome that it
has already, or the outcome that it is joined with. -/
def ForkSettles (f : Fork S) (w : World S) (o : Outcome S.Error Value) (w' : World S) : Prop :=
  match f.state with
  | .deferred job =>
    it.Settles close ground.budget (.start job.node job.context ground.scope ground.budget) w o w'
  | .settled outcome => o = outcome ∧ w' = w
  | .external handle => (it.host close).perform (it.strategy.join f.id handle) w = (.ok o, w')

/-- These branches, and no others, come to these outcomes, one after the other. -/
inductive InTurn : List (Fork S) → List (Outcome S.Error Value) → World S → World S → Prop where
  | nil (w : World S) : InTurn [] [] w w
  | cons {f : Fork S} {o : Outcome S.Error Value} {fs : List (Fork S)}
      {os : List (Outcome S.Error Value)} {w w₁ w' : World S}
      (h : it.ForkSettles close ground f w o w₁) (h' : InTurn fs os w₁ w') :
      InTurn (f :: fs) (o :: os) w w'

/-- Sweeping over branches: the first one that comes to an outcome of the stopping kind is the last
one to have its turn, or all have theirs. -/
inductive Sweep {γ δ : Type} (go : γ → Outcome S.Error Value) (stop : δ → Outcome S.Error Value)
    (fs : List (Fork S)) (w : World S) : (Fork S × δ) ⊕ List γ → World S → Prop where
  | stopped {before after : List (Fork S)} {f : Fork S} {xs : List γ} {y : δ} {w' : World S}
      (hfs : fs = before ++ f :: after)
      (h : InTurn it close ground (before ++ [f]) (xs.map go ++ [stop y]) w w') :
      Sweep go stop fs w (.inl (f, y)) w'
  | passed {xs : List γ} {w' : World S} (h : InTurn it close ground fs (xs.map go) w w') :
      Sweep go stop fs w (.inr xs) w'

/-- The outcome of collecting values. A panic is a defect, too. -/
def collectedOutcome : Except Defect (Except Defect Value) → Outcome S.Error Value
  | .ok (.ok v) => .ok v
  | .ok (.error d) | .error d => .error (.defect d)

/-- What a parallel effect yields after a sweep: the cause of the branch that failed, and otherwise
what becomes of the values when they are collected, which happens once. -/
def ParallelYields (collect : List Value → Action S (Except Defect Value)) :
    (Fork S × Cause S.Error) ⊕ List Value → World S → Outcome S.Error Value → World S → Prop
  | .inl (f, cause), w, o, w' => o = .error cause ∧ w' = f.handOver ground.budget w
  | .inr vs, w, o, w' => ∃ x w₁, (it.host close).attempt (collect vs) w = (.ok x, w₁) ∧
    o = collectedOutcome x ∧ w' = w₁.modifyBudget ground.budget Budget.tick

/-- What a race yields after a sweep, with the causes from before it: the value of the branch that
succeeded, and otherwise all causes. -/
def raceYields (causes : List (Cause S.Error)) :
    (Fork S × Value) ⊕ List (Cause S.Error) → Outcome S.Error Value
  | .inl (_, v) => .ok v
  | .inr more => .error (.composite (causes ++ more))

variable {it close ground} {w w' : World S}

theorem inTurn_cons {f : Fork S} {fs : List (Fork S)} {os : List (Outcome S.Error Value)} :
    it.InTurn close ground (f :: fs) os w w' ↔ ∃ o os' w₁, os = o :: os' ∧
      it.ForkSettles close ground f w o w₁ ∧ it.InTurn close ground fs os' w₁ w' := by
  constructor
  · rintro (_ | ⟨h, h'⟩)
    exact ⟨_, _, _, rfl, h, h'⟩
  · rintro ⟨o, os', w₁, rfl, h, h'⟩
    exact .cons h h'

theorem inTurn_nil {os : List (Outcome S.Error Value)} :
    it.InTurn close ground [] os w w' ↔ os = [] ∧ w' = w := by
  constructor
  · rintro ⟨⟩
    exact ⟨rfl, rfl⟩
  · rintro ⟨rfl, rfl⟩
    exact .nil _

section Sweep

variable {γ δ : Type} {go : γ → Outcome S.Error Value} {stop : δ → Outcome S.Error Value}
  {r : (Fork S × δ) ⊕ List γ}

/-- No branches are left to sweep over. -/
theorem sweep_nil : it.Sweep close ground go stop [] w r w' ↔ r = .inr [] ∧ w' = w := by
  constructor
  · rintro (⟨hfs, -⟩ | h)
    · exact absurd hfs (by simp)
    · obtain ⟨hos, rfl⟩ := inTurn_nil.1 h
      rw [List.map_eq_nil_iff.1 hos]
      exact ⟨rfl, rfl⟩
  · rintro ⟨rfl, rfl⟩
    exact .passed (.nil _)

/-- The first branch stops the sweep, or it goes on. -/
theorem sweep_cons {f : Fork S} {fs : List (Fork S)} :
    it.Sweep close ground go stop (f :: fs) w r w' ↔
      (∃ y, r = .inl (f, y) ∧ it.ForkSettles close ground f w (stop y) w') ∨
        ∃ x w₁ r', it.ForkSettles close ground f w (go x) w₁ ∧
          it.Sweep close ground go stop fs w₁ r' w' ∧ r = r'.map id (x :: ·) := by
  constructor
  · rintro (⟨hfs, h⟩ | h)
    · rename_i before after g xs y
      cases before with
      | nil =>
        obtain ⟨rfl, rfl⟩ := List.cons.inj hfs
        obtain ⟨o, os, w₁, hos, hf, hrest⟩ := inTurn_cons.1 h
        obtain ⟨rfl, rfl⟩ := inTurn_nil.1 hrest
        cases xs with
        | nil =>
          obtain ⟨rfl, -⟩ := List.cons.inj hos
          exact .inl ⟨y, rfl, hf⟩
        | cons x xs => exact absurd (congrArg List.length hos) (by simp)
      | cons e before =>
        obtain ⟨rfl, rfl⟩ := List.cons.inj hfs
        obtain ⟨o, os, w₁, hos, hf, hrest⟩ := inTurn_cons.1 h
        cases xs with
        | nil =>
          obtain ⟨-, rfl⟩ := List.cons.inj hos
          cases before <;> cases hrest
        | cons x xs =>
          obtain ⟨rfl, rfl⟩ := List.cons.inj hos
          exact .inr ⟨x, w₁, .inl (g, y), hf, .stopped rfl hrest, rfl⟩
    · rename_i xs
      obtain ⟨o, os, w₁, hos, hf, hrest⟩ := inTurn_cons.1 h
      cases xs with
      | nil => cases hos
      | cons x xs =>
        obtain ⟨rfl, rfl⟩ := List.cons.inj hos
        exact .inr ⟨x, w₁, .inr xs, hf, .passed hrest, rfl⟩
  · rintro (⟨y, rfl, hf⟩ | ⟨x, w₁, r', hf, h, rfl⟩)
    · have hturn : it.InTurn close ground ([] ++ [f]) (([] : List γ).map go ++ [stop y]) w w' :=
        .cons hf (.nil w')
      exact .stopped rfl hturn
    · rcases h with ⟨rfl, h⟩ | h
      · rename_i before after g xs y
        have hturn :
            it.InTurn close ground (f :: before ++ [g]) ((x :: xs).map go ++ [stop y]) w w' :=
          .cons hf h
        exact .stopped rfl hturn
      · rename_i xs
        have hturn : it.InTurn close ground (f :: fs) ((x :: xs).map go) w w' := .cons hf h
        exact .passed hturn

end Sweep

/-! ### Taking a branch -/

/-- A computation, and the loop on the state that it yields, end with an outcome. -/
def Ends (it : Interpreter S) (close : Closer S) (b : BudgetId) (m : Machine S (State S))
    (w : World S) (o : Outcome S.Error Value) (w' : World S) : Prop :=
  ∃ n, (m >>= it.rounds close b n) w = (.ok o, w')

variable {b : BudgetId} {o : Outcome S.Error Value}

theorem ends_pure {st : State S} :
    it.Ends close b (pure st) w o w' ↔ it.Settles close b st w o w' := Iff.rfl

/-- What comes first yields something, and the rest ends. -/
theorem ends_bind {α : Type} {m : Machine S α} {f : α → Machine S (State S)} :
    it.Ends close b (m >>= f) w o w' ↔
      ∃ a w₁, m w = (.ok a, w₁) ∧ it.Ends close b (f a) w₁ o w' := by
  constructor
  · rintro ⟨n, hn⟩
    rw [bind_assoc] at hn
    obtain ⟨a, w₁, ha, hn⟩ := Machine.bind_eq_ok hn
    exact ⟨a, w₁, ha, n, hn⟩
  · rintro ⟨a, w₁, ha, n, hn⟩
    refine ⟨n, ?_⟩
    rw [bind_assoc, Machine.bind_ok ha]
    exact hn

/-- An outcome above nothing settles the run in one more step. -/
theorem settles_state_nil (hl : it.config.stepLimit = none) (close : Closer S) (ground : Setting)
    (o₁ : Outcome S.Error Value) :
    it.Settles close b (ground.state [] (.ofOutcome o₁)) w o w' ↔
      o = o₁ ∧ w' = w.modifyBudget b Budget.tick := by
  have hround : ∀ n, it.rounds close b (n + 1) (ground.state [] (.ofOutcome o₁)) w =
      (.ok o₁, w.modifyBudget b Budget.tick) := by
    intro n
    rw [it.rounds_succ close b hl, Machine.bind_ok (Machine.modify_apply _ w), pursue_state_nil]
    rfl
  constructor
  · rintro ⟨fuel, hfuel⟩
    cases fuel with
    | zero => cases hfuel
    | succ n =>
      rw [hround] at hfuel
      cases hfuel
      exact ⟨rfl, rfl⟩
  · rintro ⟨rfl, rfl⟩
    exact ⟨1, hround 0⟩

/-- What becomes of the outcome of a branch: it is handed to the frame above which the branch was
run, or dealt with at once. -/
def Handed (it : Interpreter S) (close : Closer S) (ground : Setting) (f : Fork S) (frame : Frame S)
    (known : Outcome S.Error Value → Machine S (State S)) (o₁ : Outcome S.Error Value)
    (w₁ : World S) (o : Outcome S.Error Value) (w' : World S) : Prop :=
  match f.state with
  | .deferred _ => ∃ n, it.pursue close ground.budget n (ground.state [frame] (.ofOutcome o₁)) w₁ =
    (.ok o, w')
  | .settled _ | .external _ => it.Ends close ground.budget (known o₁) w₁ o w'

/-- Which makes no difference if the frame does with the outcome what is done with it at once. -/
theorem handed_iff {frame : Frame S} {known : Outcome S.Error Value → Machine S (State S)}
    {o₁ : Outcome S.Error Value} (f : Fork S) (w₁ : World S)
    (hframe : ∀ n, it.pursue close ground.budget n (ground.state [frame] (.ofOutcome o₁)) =
      known o₁ >>= it.rounds close ground.budget n) :
    it.Handed close ground f frame known o₁ w₁ o w' ↔
      it.Ends close ground.budget (known o₁) w₁ o w' := by
  obtain ⟨id, s⟩ := f
  cases s with
  | settled | external => exact Iff.rfl
  | deferred job => exact exists_congr fun n ↦ by rw [hframe]

section

variable (hr : it.registry = .standard) (hσ : it.strategy.KeepsJobs)
  (hl : it.config.stepLimit = none)
include hr hσ hl

/-- A branch that is run above a frame settles, and its outcome is handed to the frame. -/
theorem ends_branch {job : Job S} (hjob : job.context = ground.context) (frame : Frame S) :
    it.Ends close ground.budget (pure (ground.state [frame] (.effect job.node))) w o w' ↔
      ∃ o₁ w₁, it.Settles close ground.budget
          (.start job.node job.context ground.scope ground.budget) w o₁ w₁ ∧
        ∃ n, it.pursue close ground.budget n (ground.state [frame] (.ofOutcome o₁)) w₁ =
          (.ok o, w') := by
  have hstart : (State.start job.node job.context ground.scope ground.budget).Grounded ground := by
    rw [hjob]
    exact State.grounded_of_nil rfl
  have hover : (State.start job.node job.context ground.scope ground.budget).above [frame] =
      ground.state [frame] (.effect job.node) := by
    rw [hjob]
    rfl
  rw [ends_pure, ← hover]
  constructor
  · rintro ⟨fuel, hfuel⟩
    obtain ⟨o₁, w₁, n, hsettles, hn⟩ := settles_of_above hr hσ hl hstart hfuel
    exact ⟨o₁, w₁, hsettles, n, hn⟩
  · rintro ⟨o₁, w₁, hsettles, n, hn⟩
    obtain ⟨k, hk⟩ := (settles_iff_above hr hσ hl hstart).1 hsettles
    exact ⟨k + n, (hk [frame] n).trans hn⟩

/-- A branch takes its turn. -/
theorem ends_turn {f : Fork S}
    (hf : ∀ job, f.state = .deferred job → job.context = ground.context) (frame : Frame S)
    (known : Outcome S.Error Value → Machine S (State S)) :
    it.Ends close ground.budget ((it.host close).turn f >>= fun
        | .run job => pure ({ (ground.state [] .pending).push frame with
            context := job.context }.continueWith job.node)
        | .settled o => known o) w o w' ↔
      ∃ o₁ w₁, it.ForkSettles close ground f w o₁ w₁ ∧
        it.Handed close ground f frame known o₁ w₁ o w' := by
  obtain ⟨id, s⟩ := f
  cases s with
  | deferred job =>
    have hstate : { (ground.state [] .pending).push frame with
        context := job.context }.continueWith job.node =
          ground.state [frame] (.effect job.node) := by
      rw [hf job rfl]
      rfl
    change it.Ends close ground.budget (pure ({ (ground.state [] .pending).push frame with
      context := job.context }.continueWith job.node)) w o w' ↔ _
    rw [hstate]
    exact ends_branch hr hσ hl (hf job rfl) frame
  | settled outcome =>
    constructor
    · exact fun h ↦ ⟨outcome, w, ⟨rfl, rfl⟩, h⟩
    · rintro ⟨_, _, ⟨rfl, rfl⟩, h⟩
      exact h
  | external handle =>
    have hturn : (it.host close).turn ⟨id, .external handle⟩ =
        (it.host close).perform (it.strategy.join id handle) >>=
          fun o ↦ pure (Turn.settled o) := rfl
    rw [hturn, bind_assoc]
    simp only [pure_bind]
    exact ends_bind

/-- A branch of a parallel effect takes its turn: it fails, or the next ones take theirs. -/
theorem nextParallel_cons {collect : List Value → Action S (Except Defect Value)} {f : Fork S}
    {rest : List (Fork S)} (hf : ∀ job, f.state = .deferred job → job.context = ground.context)
    (collected : List Value) :
    it.Ends close ground.budget ((it.host close).nextParallel collect (f :: rest) collected
        (ground.state [] .pending)) w o w' ↔
      (∃ cause w₁, it.ForkSettles close ground f w (.error cause) w₁ ∧ o = .error cause ∧
        w' = f.handOver ground.budget w₁) ∨
      ∃ v w₁, it.ForkSettles close ground f w (.ok v) w₁ ∧
        it.Ends close ground.budget ((it.host close).nextParallel collect rest (v :: collected)
          (ground.state [] .pending)) w₁ o w' := by
  have hfailed : ∀ cause w₁, it.Handed close ground f (.parallel rest collected collect)
      ((it.host close).collectNext collect rest collected (ground.state [] .pending))
        (.error cause) w₁ o w' ↔ o = .error cause ∧ w' = f.handOver ground.budget w₁ := by
    intro cause w₁
    obtain ⟨id, s⟩ := f
    cases s with
    | settled | external =>
      exact settles_state_nil hl close ground (.error cause)
    | deferred job =>
      have hpass : ∀ n, it.pursue close ground.budget n
          (ground.state [.parallel rest collected collect] (.ofOutcome (.error cause))) =
            pure (.error cause) := fun n ↦
        (it.pursue_failure_parallel close ground.budget n (ground.state [] .pending) cause rest
          collected collect).trans (pursue_state_nil n (.error cause))
      constructor
      · rintro ⟨n, hn⟩
        rw [hpass] at hn
        cases hn
        exact ⟨rfl, rfl⟩
      · rintro ⟨rfl, rfl⟩
        exact ⟨0, by rw [hpass]; rfl⟩
  have hcollected : ∀ v w₁, it.Handed close ground f (.parallel rest collected collect)
      ((it.host close).collectNext collect rest collected (ground.state [] .pending))
        (.ok v) w₁ o w' ↔
          it.Ends close ground.budget ((it.host close).nextParallel collect rest (v :: collected)
            (ground.state [] .pending)) w₁ o w' := by
    intro v w₁
    exact handed_iff f w₁ fun n ↦
      it.pursue_value close ground.budget n (ground.state [] .pending) v _
  rw [Host.nextParallel_eq, ends_turn hr hσ hl hf]
  constructor
  · rintro ⟨cause | v, w₁, hsettles, hhanded⟩
    · exact .inl ⟨cause, w₁, hsettles, (hfailed cause w₁).1 hhanded⟩
    · exact .inr ⟨v, w₁, hsettles, (hcollected v w₁).1 hhanded⟩
  · rintro (⟨cause, w₁, hsettles, h⟩ | ⟨v, w₁, hsettles, h⟩)
    · exact ⟨_, w₁, hsettles, (hfailed cause w₁).2 h⟩
    · exact ⟨_, w₁, hsettles, (hcollected v w₁).2 h⟩

/-- A branch of a race takes its turn: it succeeds, or the next ones take theirs. -/
theorem nextRace_cons {f : Fork S} {rest : List (Fork S)}
    (hf : ∀ job, f.state = .deferred job → job.context = ground.context)
    (failures : List (Cause S.Error)) :
    it.Ends close ground.budget ((it.host close).nextRace (f :: rest) failures
        (ground.state [] .pending)) w o w' ↔
      (∃ v w₁, it.ForkSettles close ground f w (.ok v) w₁ ∧ o = .ok v ∧
        w' = w₁.modifyBudget ground.budget Budget.tick) ∨
      ∃ cause w₁, it.ForkSettles close ground f w (.error cause) w₁ ∧
        it.Ends close ground.budget ((it.host close).nextRace rest (cause :: failures)
          (ground.state [] .pending)) w₁ o w' := by
  have hwon : ∀ v w₁, it.Handed close ground f (.race rest failures)
      ((it.host close).recordNext rest failures (ground.state [] .pending)) (.ok v) w₁ o w' ↔
        o = .ok v ∧ w' = w₁.modifyBudget ground.budget Budget.tick := by
    intro v w₁
    rw [← settles_state_nil hl close ground]
    exact handed_iff f w₁ fun n ↦
      it.pursue_value close ground.budget n (ground.state [] .pending) v _
  have hrecorded : ∀ cause w₁, it.Handed close ground f (.race rest failures)
      ((it.host close).recordNext rest failures (ground.state [] .pending)) (.error cause) w₁ o w' ↔
        it.Ends close ground.budget ((it.host close).nextRace rest (cause :: failures)
          (ground.state [] .pending)) w₁ o w' := by
    intro cause w₁
    exact handed_iff f w₁ fun n ↦
      it.pursue_failure_race close ground.budget n (ground.state [] .pending) cause rest failures
  rw [Host.nextRace_eq, ends_turn hr hσ hl hf]
  constructor
  · rintro ⟨cause | v, w₁, hsettles, hhanded⟩
    · exact .inr ⟨cause, w₁, hsettles, (hrecorded cause w₁).1 hhanded⟩
    · exact .inl ⟨v, w₁, hsettles, (hwon v w₁).1 hhanded⟩
  · rintro (⟨v, w₁, hsettles, h⟩ | ⟨cause, w₁, hsettles, h⟩)
    · exact ⟨_, w₁, hsettles, (hwon v w₁).2 h⟩
    · exact ⟨_, w₁, hsettles, (hrecorded cause w₁).2 h⟩

/-! ### Parallel effects and races -/

/-- A parallel effect sweeps over its branches until one fails, and then collects. -/
theorem nextParallel_sweep {collect : List Value → Action S (Except Defect Value)}
    {fs : List (Fork S)} (hfs : See ground.context fs) (collected : List Value) :
    it.Ends close ground.budget ((it.host close).nextParallel collect fs collected
        (ground.state [] .pending)) w o w' ↔
      ∃ r w₁, it.Sweep close ground .ok .error fs w r w₁ ∧
        it.ParallelYields close ground (fun vs ↦ collect (collected.reverse ++ vs)) r w₁ o w' := by
  induction fs generalizing collected w with
  | nil =>
    rw [Host.nextParallel, ends_bind]
    constructor
    · rintro ⟨x, w₁, hx, hends⟩
      refine ⟨.inr [], w, sweep_nil.2 ⟨rfl, rfl⟩, x, w₁, by simpa using hx, ?_⟩
      rw [← settles_state_nil hl close ground]
      rcases x with d | d | v <;> exact hends
    · rintro ⟨r, _, hsweep, hyields⟩
      obtain ⟨rfl, rfl⟩ := sweep_nil.1 hsweep
      obtain ⟨x, w₁, hx, hend⟩ := hyields
      refine ⟨x, w₁, by simpa using hx, ?_⟩
      rw [← settles_state_nil hl close ground] at hend
      rcases x with d | d | v <;> exact hend
  | cons f rest ih =>
    obtain ⟨hf, hrest⟩ := List.forall_mem_cons.1 hfs
    have hshift : ∀ v r w₁, it.ParallelYields close ground
        (fun vs ↦ collect (collected.reverse ++ vs)) (r.map id (v :: ·)) w₁ o w' ↔
          it.ParallelYields close ground (fun vs ↦ collect ((v :: collected).reverse ++ vs)) r w₁ o
            w' := by
      intro v r w₁
      cases r with
      | inl p => exact Iff.rfl
      | inr vs => simp [ParallelYields]
    rw [nextParallel_cons hr hσ hl hf collected]
    constructor
    · rintro (⟨cause, w₁, hsettles, hfailed⟩ | ⟨v, w₁, hsettles, hends⟩)
      · exact ⟨_, w₁, sweep_cons.2 (.inl ⟨cause, rfl, hsettles⟩), hfailed⟩
      · obtain ⟨r, w₂, hsweep, hyields⟩ := (ih hrest (v :: collected)).1 hends
        refine ⟨_, w₂, sweep_cons.2 (.inr ⟨v, w₁, r, hsettles, hsweep, rfl⟩), ?_⟩
        exact (hshift v r w₂).2 hyields
    · rintro ⟨r, w₁, hsweep, hyields⟩
      rcases sweep_cons.1 hsweep with ⟨cause, rfl, hsettles⟩ | ⟨v, w₂, r, hsettles, hnext, rfl⟩
      · exact .inl ⟨cause, w₁, hsettles, hyields⟩
      · refine .inr ⟨v, w₂, hsettles, (ih hrest (v :: collected)).2 ⟨r, w₁, hnext, ?_⟩⟩
        exact (hshift v r w₁).1 hyields

/-- A race sweeps over its branches until one succeeds. -/
theorem nextRace_sweep {fs : List (Fork S)} (hfs : See ground.context fs)
    (failures : List (Cause S.Error)) :
    it.Ends close ground.budget ((it.host close).nextRace fs failures (ground.state [] .pending)) w
        o w' ↔
      ∃ r w₁, it.Sweep close ground .error .ok fs w r w₁ ∧ o = raceYields failures.reverse r ∧
        w' = w₁.modifyBudget ground.budget Budget.tick := by
  induction fs generalizing failures w with
  | nil =>
    rw [Host.nextRace, ends_pure]
    refine (settles_state_nil hl close ground (.error (.composite failures.reverse))).trans ?_
    constructor
    · rintro ⟨rfl, rfl⟩
      exact ⟨.inr [], w, sweep_nil.2 ⟨rfl, rfl⟩, by simp [raceYields], rfl⟩
    · rintro ⟨r, _, hsweep, rfl, rfl⟩
      obtain ⟨rfl, rfl⟩ := sweep_nil.1 hsweep
      exact ⟨by simp [raceYields], rfl⟩
  | cons f rest ih =>
    obtain ⟨hf, hrest⟩ := List.forall_mem_cons.1 hfs
    have hshift : ∀ cause (r : (Fork S × Value) ⊕ List (Cause S.Error)),
        raceYields failures.reverse (r.map id (cause :: ·)) =
          raceYields (cause :: failures).reverse r := by
      intro cause r
      cases r <;> simp [raceYields]
    rw [nextRace_cons hr hσ hl hf failures]
    constructor
    · rintro (⟨v, w₁, hsettles, rfl, rfl⟩ | ⟨cause, w₁, hsettles, hends⟩)
      · exact ⟨_, w₁, sweep_cons.2 (.inl ⟨v, rfl, hsettles⟩), rfl, rfl⟩
      · obtain ⟨r, w₂, hsweep, rfl, rfl⟩ := (ih hrest (cause :: failures)).1 hends
        exact ⟨_, w₂, sweep_cons.2 (.inr ⟨cause, w₁, r, hsettles, hsweep, rfl⟩),
          (hshift cause r).symm, rfl⟩
    · rintro ⟨r, w₁, hsweep, rfl, rfl⟩
      rcases sweep_cons.1 hsweep with ⟨v, rfl, hsettles⟩ | ⟨cause, w₂, r, hsettles, hnext, rfl⟩
      · exact .inl ⟨v, w₁, hsettles, rfl, rfl⟩
      · refine .inr ⟨cause, w₂, hsettles, (ih hrest (cause :: failures)).2 ?_⟩
        exact ⟨r, w₁, hnext, hshift cause r, rfl⟩

omit hr hσ in
/-- A run that begins with an effect in hand counts a step and dispatches it. -/
theorem settles_start {node : Node S} :
    it.Settles close ground.budget (ground.state [] (.effect node)) w o w' ↔
      it.Ends close ground.budget (it.dispatch close node (ground.state [] .pending))
        (w.modifyBudget ground.budget Budget.tick) o w' := by
  have hround : ∀ n, it.rounds close ground.budget (n + 1) (ground.state [] (.effect node)) w =
      (it.dispatch close node (ground.state [] .pending) >>= it.rounds close ground.budget n)
        (w.modifyBudget ground.budget Budget.tick) := by
    intro n
    rw [it.rounds_succ close ground.budget hl, Machine.bind_ok (Machine.modify_apply _ w)]
    change ((it.dispatch close node (ground.state [] .pending) >>= fun st ↦
      pure (Progress.running st)) >>= _) _ = _
    simp only [bind_assoc, pure_bind]
  constructor
  · rintro ⟨fuel, hfuel⟩
    cases fuel with
    | zero => cases hfuel
    | succ n => exact ⟨n, (hround n).symm.trans hfuel⟩
  · rintro ⟨n, hn⟩
    exact ⟨n + 1, (hround n).trans hn⟩

omit hσ hl in
/-- The dispatcher has nothing to add to a handler that decides. -/
theorem dispatch_decided {node : Node S} {st : State S} {m : Machine S (State S)}
    (hm : Handler.standard node.tag (it.host close) node st = m)
    (hdecides : Answers m State.Decided) : it.dispatch close node st = m := by
  rw [dispatch, hr, Registry.dispatch_standard, hm]
  funext w
  rcases h : m w with ⟨e | st', w'⟩
  · exact Machine.bind_error h _
  · rw [Machine.bind_ok h, hdecides h]
    rfl

omit hσ hl in
theorem dispatch_parallel {branches : List (Node S)}
    {collect : List Value → Action S (Except Defect Value)} {st : State S} :
    it.dispatch close (.parallel branches collect) st =
      (it.host close).forkAll st.context branches >>= fun fs ↦
        (it.host close).nextParallel collect fs [] st :=
  dispatch_decided hr rfl (.after fun fs ↦ Host.nextParallel_decides _ collect fs [] st)

omit hσ hl in
theorem dispatch_race {n : Node S} {ns : List (Node S)} {st : State S} :
    it.dispatch close (.race (n :: ns)) st =
      (it.host close).forkAll st.context (n :: ns) >>= fun fs ↦
        (it.host close).nextRace fs [] st :=
  dispatch_decided hr rfl (.after fun fs ↦ Host.nextRace_decides _ fs [] st)

omit hσ hl in
theorem dispatch_race_nil {st : State S} :
    it.dispatch close (.race []) st = pure (st.die .emptyRace) :=
  dispatch_decided hr rfl (.pure rfl)

/-- **What parallel effects and races come to**, wherever their branches run. -/
theorem branches_settle (ground : Setting) :
    (∀ branches collect w o w',
      it.Settles close ground.budget (ground.state [] (.effect (.parallel branches collect))) w o
          w' ↔
        ∃ fs w₁ r w₂, (it.host close).forkAll ground.context branches
            (w.modifyBudget ground.budget Budget.tick) = (.ok fs, w₁) ∧
          Forked ground.context branches fs ∧ it.Sweep close ground .ok .error fs w₁ r w₂ ∧
            it.ParallelYields close ground collect r w₂ o w') ∧
    (∀ branches w o w', branches ≠ [] →
      (it.Settles close ground.budget (ground.state [] (.effect (.race branches))) w o w' ↔
        ∃ fs w₁ r w₂, (it.host close).forkAll ground.context branches
            (w.modifyBudget ground.budget Budget.tick) = (.ok fs, w₁) ∧
          Forked ground.context branches fs ∧ it.Sweep close ground .error .ok fs w₁ r w₂ ∧
            o = raceYields [] r ∧ w' = w₂.modifyBudget ground.budget Budget.tick)) ∧
    (∀ w o w', it.Settles close ground.budget (ground.state [] (.effect (.race []))) w o w' ↔
      o = .error (.defect .emptyRace) ∧
        w' = (w.modifyBudget ground.budget Budget.tick).modifyBudget ground.budget Budget.tick) ∧
    ∀ node w o w', it.Settles close ground.budget (ground.state [] (.effect node)) w o w' ↔
      ∃ k, ∀ base n, it.rounds close ground.budget (k + n) (ground.state base (.effect node)) w =
        it.pursue close ground.budget n (ground.state base (.ofOutcome o)) w' := by
  have hforked : ∀ {branches w fs w₁}, (it.host close).forkAll ground.context branches w =
      (.ok fs, w₁) → Forked ground.context branches fs :=
    fun {branches} _ _ _ h ↦ Host.forkAll_forked (h := it.host close) hσ branches h
  refine ⟨fun branches collect w o w' ↦ ?_, fun branches w o w' hne ↦ ?_, fun w o w' ↦ ?_,
    fun node w o w' ↦ ?_⟩
  · rw [settles_start hl, dispatch_parallel hr, ends_bind]
    constructor
    · rintro ⟨fs, w₁, hfs, hends⟩
      obtain ⟨r, w₂, hsweep, hyields⟩ :=
        (nextParallel_sweep hr hσ hl (hforked hfs).see []).1 hends
      exact ⟨fs, w₁, r, w₂, hfs, hforked hfs, hsweep, hyields⟩
    · rintro ⟨fs, w₁, r, w₂, hfs, hf, hsweep, hyields⟩
      exact ⟨fs, w₁, hfs, (nextParallel_sweep hr hσ hl hf.see []).2 ⟨r, w₂, hsweep, hyields⟩⟩
  · obtain ⟨n, ns, rfl⟩ := List.exists_cons_of_ne_nil hne
    rw [settles_start hl, dispatch_race hr, ends_bind]
    constructor
    · rintro ⟨fs, w₁, hfs, hends⟩
      obtain ⟨r, w₂, hsweep, hyields⟩ := (nextRace_sweep hr hσ hl (hforked hfs).see []).1 hends
      exact ⟨fs, w₁, r, w₂, hfs, hforked hfs, hsweep, hyields⟩
    · rintro ⟨fs, w₁, r, w₂, hfs, hf, hsweep, hyields⟩
      exact ⟨fs, w₁, hfs, (nextRace_sweep hr hσ hl hf.see []).2 ⟨r, w₂, hsweep, hyields⟩⟩
  · rw [settles_start hl, dispatch_race_nil hr, ends_pure]
    exact settles_state_nil hl close ground (.error (.defect .emptyRace))
  · exact settles_iff_above hr hσ hl (State.grounded_of_nil rfl)

end

/-- Branches that fail at once are settled, those that sleep run elsewhere, and others are put
off. -/
def mixedStrategy : Strategy Tally where
  name := "mixed"
  label := "MixedStrategy"
  fork job := .done (match job.node with
    | .fail cause => .settled (.error cause)
    | .sleep _ => .external .unit
    | _ => .deferred job)
  join _ handle := .done (.ok handle)
  await := Strategy.takeOrFail

theorem keepsJobs_mixed : mixedStrategy.KeepsJobs := by
  rintro ⟨node, context⟩ job h
  cases node <;> cases h
  all_goals rfl

/-- An interpreter whose branches run in different ways. -/
def mixedTally : Interpreter Tally where
  program := tally
  strategy := mixedStrategy

/-- A race of a branch that has failed, one that is put off and fails, one that runs elsewhere, and
one whose turn never comes. -/
def mixedRace : Node Tally :=
  .race [.fail (.fail 1), .suspend (.done (.node (.fail (.fail 2)))), .sleep ⟨0, by decide⟩, .unit]

/-- The race is won by the branch that runs elsewhere. -/
theorem mixedRace_settles :
    ∃ w' fs w₁ r w₂, mixedTally.Settles (fun _ ↦ .escape .exhausted) ⟨0⟩
        (Setting.state ⟨.empty, ⟨0⟩, ⟨0⟩⟩ [] (.effect mixedRace)) tallyWorld (.ok .unit) w' ∧
      mixedTally.Sweep (fun _ ↦ .escape .exhausted) ⟨.empty, ⟨0⟩, ⟨0⟩⟩ .error .ok fs w₁ r w₂ ∧
        .ok .unit = raceYields [] r := by
  have hsettles : ∃ w', mixedTally.Settles (fun _ ↦ .escape .exhausted) ⟨0⟩
      (Setting.state ⟨.empty, ⟨0⟩, ⟨0⟩⟩ [] (.effect mixedRace)) tallyWorld (.ok .unit) w' :=
    ⟨_, 5, rfl⟩
  obtain ⟨w', hsettles⟩ := hsettles
  have hlimit : mixedTally.config.stepLimit = none := rfl
  have hne : ∀ n ns, n :: ns ≠ ([] : List (Node Tally)) := List.cons_ne_nil
  obtain ⟨fs, w₁, r, w₂, -, -, hsweep, hyields, -⟩ :=
    ((branches_settle rfl keepsJobs_mixed hlimit ⟨.empty, ⟨0⟩, ⟨0⟩⟩).2.1 _ _ _ _ (hne _ _)).1
      hsettles
  exact ⟨w', fs, w₁, r, w₂, hsettles, hsweep, hyields⟩

end Interpreter

end EffectMachine
