import EffectMachine.Proofs.Finalizers

/-!
# Contexts and scopes are lexical

The context and the scope in force, with the budget of the run, are a `Setting`. Moves overwrite it,
and only the frames that they push can bring it back. To say that they do, every frame on the stack
is paired with the setting that was in force when it was pushed (`Interpreter.Marked`); the pairs
are a trace of the run, nothing of them is kept by the machine.

A frame *coheres* with two settings, the one that was in force when it was pushed and the one above
it. `Coheres` says so of every frame of a marked stack. It is kept by every move
(`Interpreter.move_coheres`), whatever closures do and however scopes are closed, so the nesting of
effects is what decides in which context and in which scope something runs.
-/

namespace EffectMachine

variable {S : Signature} {α β : Type}

/-! ### Settings -/

/-- The context and the scope in force, and the budget of the run. -/
structure Setting where
  context : Context
  scope : ScopeId
  budget : BudgetId

/-- What is in force in a state. -/
def State.setting (st : State S) : Setting := ⟨st.context, st.scope, st.budget⟩

/-- The branches that a frame has still to start. -/
def Frame.waiting : Frame S → List (Fork S)
  | .parallel rest _ _ | .race rest _ => rest
  | _ => []

/-- Branches that wait for their turn see a context. -/
def See (context : Context) (fs : List (Fork S)) : Prop :=
  ∀ f ∈ fs, ∀ job, f.state = .deferred job → job.context = context

/-- The forks of branches that were started in a context, in order. Those that are put off are the
branches themselves. -/
inductive Forked (context : Context) : List (Node S) → List (Fork S) → Prop where
  | nil : Forked context [] []
  | cons {n : Node S} {f : Fork S} {ns : List (Node S)} {fs : List (Fork S)}
      (hf : ∀ job, f.state = .deferred job → job = ⟨n, context⟩) (h : Forked context ns fs) :
      Forked context (n :: ns) (f :: fs)

theorem Forked.see {context : Context} {ns : List (Node S)} {fs : List (Fork S)}
    (h : Forked context ns fs) : See context fs := by
  induction h with
  | nil => exact nofun
  | cons hf _ ih =>
    refine List.forall_mem_cons.2 ⟨fun job hjob ↦ ?_, ih⟩
    rw [hf job hjob]

/-- The frame fits between the setting that was in force when it was pushed and the one that is in
force above it. -/
def Frame.Coheres (pushed above : Setting) : Frame S → Prop
  | .restoreContext context => pushed = { above with context }
  | .closeScope s parent => pushed = { above with scope := parent } ∧ above.scope = s
  | f => above = pushed ∧ See pushed.context f.waiting

/-- A frame that changes neither the context nor the scope when it is taken off. -/
def Frame.Neutral : Frame S → Prop
  | .restoreContext _ | .closeScope _ _ => False
  | _ => True

theorem Frame.Neutral.coheres {f : Frame S} (hf : f.Neutral) {pushed above : Setting} :
    f.Coheres pushed above ↔ above = pushed ∧ See pushed.context f.waiting := by
  cases f with
  | restoreContext | closeScope => exact hf.elim
  | resume | recover | retry | timeout | parallel | race => exact Iff.rfl

/-- Every frame of a marked stack coheres, down to the setting below all of them. -/
def Coheres (ground : Setting) : Setting → List (Frame S × Setting) → Prop
  | above, [] => above = ground
  | above, (f, pushed) :: rest => f.Coheres pushed above ∧ Coheres ground pushed rest

/-- The scopes that a stack will close are a chain: each is the parent of the one above it, and the
root is the parent of the last. -/
def Chained (root : ScopeId) : ScopeId → List (ScopeId × ScopeId) → Prop
  | s, [] => s = root
  | s, (scope, parent) :: rest => s = scope ∧ Chained root parent rest

open Machine (Answers)

/-! ### Growth of a state -/

/-- The state after what was done in another one: the stack and the setting are the same, or there
is one more frame, which coheres. -/
def State.Grows (st st' : State S) : Prop :=
  st'.stack = st.stack ∧ st'.setting = st.setting ∨
    ∃ f, st'.stack = f :: st.stack ∧ f.Coheres st.setting st'.setting

namespace State

variable (st : State S)

theorem grows_holding (c : Control S) : st.Grows (st.holding c) := .inl ⟨rfl, rfl⟩

theorem grows_built (x : Except Defect (Node S)) : st.Grows (st.continueBuilt x) := by
  cases x <;> exact st.grows_holding _

/-- A frame is pushed that changes nothing and waits for no branch. -/
theorem grows_push {f : Frame S} (hf : f.Coheres st.setting st.setting) (n : Node S) :
    st.Grows ((st.push f).continueWith n) :=
  .inr ⟨f, rfl, hf⟩

end State

/-! ### Branches -/

namespace Host

variable {h : Host S} {context : Context} (st : State S)

/-- There is a fork for every branch, and one that is put off is the branch in the given context. -/
theorem forkAll_forked (hσ : h.strategy.KeepsJobs) (ns : List (Node S)) :
    Answers (h.forkAll context ns) (Forked context ns) := by
  induction ns with
  | nil => exact .pure .nil
  | cons n ns ih =>
    have hfork : Answers (h.fork ⟨n, context⟩) fun f ↦
        ∀ job, f.state = .deferred job → job = ⟨n, context⟩ := by
      refine .bind (h.perform_answers _) fun s hs ↦ .after fun id ↦ .pure ?_
      rintro job rfl
      exact hσ _ _ hs
    exact .bind hfork fun f hf ↦ .bind ih fun fs hfs ↦ .pure (.cons hf hfs)

theorem forkAll_see (hσ : h.strategy.KeepsJobs) (ns : List (Node S)) :
    Answers (h.forkAll context ns) (See context) :=
  (forkAll_forked hσ ns).post fun _ ↦ Forked.see

theorem turn_see {f : Fork S} (hf : ∀ job, f.state = .deferred job → job.context = context) :
    Answers (h.turn f) fun t ↦ ∀ job, t = .run job → job.context = context := by
  obtain ⟨id, s⟩ := f
  cases s with
  | deferred job =>
    refine .pure ?_
    rintro _ ⟨⟩
    exact hf job rfl
  | settled o => exact .pure nofun
  | external handle => exact .after fun o ↦ .pure nofun

/-- A branch that starts sees the context that was in force at its fork. -/
theorem grows_branch {f : Frame S} {job : Job S} (hjob : job.context = st.context)
    (hf : f.Coheres st.setting st.setting) :
    st.Grows ({ st.push f with context := job.context }.continueWith job.node) := by
  rw [hjob]
  exact .inr ⟨f, rfl, hf⟩

theorem nextParallel_grows (collect : List Value → Action S (Except Defect Value))
    {fs : List (Fork S)} (hfs : See st.context fs) (collected : List Value) :
    Answers (h.nextParallel collect fs collected st) st.Grows := by
  induction fs generalizing collected with
  | nil =>
    refine .after fun x ↦ ?_
    rcases x with d | d | v <;> exact .pure (st.grows_holding _)
  | cons f fs ih =>
    have hrest : See st.context fs := (List.forall_mem_cons.1 hfs).2
    refine .bind (turn_see (hfs f List.mem_cons_self)) fun t ht ↦ ?_
    rcases t with job | c | v
    · exact .pure (grows_branch st (ht job rfl) ⟨rfl, hrest⟩)
    · exact .pure (st.grows_holding _)
    · exact ih hrest (v :: collected)

theorem nextRace_grows {fs : List (Fork S)} (hfs : See st.context fs)
    (failures : List (Cause S.Error)) : Answers (h.nextRace fs failures st) st.Grows := by
  induction fs generalizing failures with
  | nil => exact .pure (st.grows_holding _)
  | cons f fs ih =>
    have hrest : See st.context fs := (List.forall_mem_cons.1 hfs).2
    refine .bind (turn_see (hfs f List.mem_cons_self)) fun t ht ↦ ?_
    rcases t with job | c | v
    · exact .pure (grows_branch st (ht job rfl) ⟨rfl, hrest⟩)
    · exact ih hrest (c :: failures)
    · exact .pure (st.grows_holding _)

/-! ### Handlers and frames -/

/-- Whatever a handler does, it coheres. -/
theorem standard_grows (hσ : h.strategy.KeepsJobs) (node : Node S) :
    Answers (Handler.standard node.tag h node st) st.Grows := by
  cases node with
  | fail cause => exact .pure (st.grows_holding _)
  | suspend thunk => exact .after fun x ↦ .pure (st.grows_built x)
  | bind source next => exact .pure (st.grows_push (f := .resume next) ⟨rfl, nofun⟩ source)
  | recover source accepts handler =>
    exact .pure (st.grows_push (f := .recover accepts handler) ⟨rfl, nofun⟩ source)
  | sleep d => exact .after fun _ ↦ .pure (st.grows_holding _)
  | retry source schedule =>
    exact .after fun startedAt ↦ .pure (st.grows_push
      (f := .retry ⟨source, schedule, schedule.source, 0, startedAt⟩) ⟨rfl, nofun⟩ source)
  | timeout source limit =>
    exact .after fun startedAt ↦ .pure (st.grows_push (f := .timeout limit startedAt) ⟨rfl, nofun⟩
      source)
  | pure make =>
    refine .after fun x ↦ ?_
    cases x <;> exact .pure (st.grows_holding _)
  | service key =>
    simp only [Node.tag, Handler.standard, Handler.onService]
    split <;> exact .pure (st.grows_holding _)
  | finalizer release =>
    refine .after fun x ↦ ?_
    cases x <;> exact .pure (st.grows_holding _)
  | async start =>
    refine .after fun slot ↦ .after fun x ↦ ?_
    cases x with
    | ok _ => exact .after fun o ↦ .pure (st.grows_holding _)
    | error d => exact .pure (st.grows_holding _)
  | provide layer inner =>
    refine .after fun x ↦ ?_
    rcases x with d | missing | context
    · exact .pure (st.grows_holding _)
    · exact .pure (st.grows_holding _)
    · exact .pure (.inr ⟨.restoreContext st.context, rfl, rfl⟩)
  | region body =>
    refine .after fun child ↦ .after fun x ↦ .pure (.inr ⟨.closeScope child st.scope, ?_⟩)
    cases x <;> exact ⟨rfl, rfl, rfl⟩
  | parallel branches collect =>
    exact .bind (forkAll_see hσ branches) fun fs hfs ↦ nextParallel_grows st collect hfs []
  | race branches =>
    cases branches with
    | nil => exact .pure (st.grows_holding _)
    | cons n ns => exact .bind (forkAll_see hσ (n :: ns)) fun fs hfs ↦ nextRace_grows st hfs []

/-- Handing a value to a frame that changes no setting. -/
theorem resume_grows {f : Frame S} (hf : f.Neutral) (hwaiting : See st.context f.waiting)
    (v : Value) : Answers (h.resume f v st) st.Grows := by
  cases f with
  | restoreContext | closeScope => exact hf.elim
  | recover | retry | race => exact .pure (st.grows_holding _)
  | parallel rest collected collect => exact nextParallel_grows st collect hwaiting (v :: collected)
  | resume next =>
    refine .after fun x ↦ ?_
    cases x <;> exact .pure (st.grows_holding _)
  | timeout limit startedAt =>
    refine .after fun elapsed ↦ .pure ?_
    split <;> exact st.grows_holding _

/-- A failure that falls on a frame that changes no setting. -/
theorem fall_grows {f : Frame S} (hf : f.Neutral) (hwaiting : See st.context f.waiting)
    (cause : Cause S.Error) :
    Answers (h.fall f cause st) fun x ↦ st.Grows (x.landing st.stack) := by
  cases f with
  | restoreContext | closeScope => exact hf.elim
  | resume | timeout | parallel => exact .pure (st.grows_holding _)
  | race rest failures =>
    exact .bind (nextRace_grows st hwaiting (cause :: failures)) fun st' h' ↦ .pure h'
  | recover accepts handler =>
    refine .after fun x ↦ ?_
    rcases x with d | _ | _
    · exact .pure (st.grows_holding _)
    · exact .pure (st.grows_holding _)
    · exact .after fun x ↦ .pure (st.grows_built x)
  | retry session =>
    refine .after fun x ↦ ?_
    cases x with
    | giveUp cause => exact .pure (st.grows_holding _)
    | again session =>
      exact .pure (st.grows_push (f := .retry session) ⟨rfl, nofun⟩ session.source)

end Host

/-! ### Marked stacks -/

/-- What stays of a marked stack when a move begins: an outcome in hand takes the newest frame off
it. -/
def State.remaining (st : State S) (marked : List (Frame S × Setting)) :
    List (Frame S × Setting) :=
  match st.control with
  | .value _ | .failure _ => marked.tail
  | .effect _ | .pending => marked

namespace Coheres

variable {ground : Setting} {above : Setting} {marked : List (Frame S × Setting)}

/-- Every frame of a coherent stack coheres with some setting above it. -/
theorem mem (h : Coheres ground above marked) {f : Frame S} {pushed : Setting}
    (hf : (f, pushed) ∈ marked) : ∃ above', f.Coheres pushed above' := by
  induction marked generalizing above with
  | nil => cases hf
  | cons m rest ih =>
    rcases List.mem_cons.1 hf with rfl | hf
    · exact ⟨above, h.1⟩
    · exact ih h.2 hf

theorem chained (h : Coheres ground above marked) :
    Chained ground.scope above.scope (regions (marked.map Prod.fst)) := by
  induction marked generalizing above with
  | nil =>
    obtain rfl : above = ground := h
    rfl
  | cons m rest ih =>
    obtain ⟨f, pushed⟩ := m
    obtain ⟨hf, hrest⟩ := h
    have hchained := ih hrest
    cases f with
    | closeScope s parent =>
      obtain ⟨rfl, hscope⟩ := hf
      exact ⟨hscope, hchained⟩
    | restoreContext context =>
      obtain rfl := hf
      exact hchained
    | resume | recover | retry | timeout | parallel | race =>
      obtain ⟨rfl, -⟩ := hf
      exact hchained

end Coheres

/-- What the frames on a stack say about contexts and scopes, each marked with the setting that was
in force when it was pushed. -/
structure Lexical (ground : Setting) (marked : List (Frame S × Setting)) (st : State S) :
    Prop where
  stack : marked.map Prod.fst = st.stack
  /-- The scopes that the stack will close are a chain from the scope in force to the root. -/
  chain : Chained ground.scope st.scope (regions st.stack)
  /-- A context that will be reinstated was in force. -/
  context : ∀ context pushed, (.restoreContext context, pushed) ∈ marked →
    context = pushed.context
  /-- A parent that will be reinstated was in force. -/
  parent : ∀ s parent pushed, (.closeScope s parent, pushed) ∈ marked → parent = pushed.scope
  /-- Branches that wait will see the context that was in force. -/
  branches : ∀ f pushed, (f, pushed) ∈ marked → See pushed.context f.waiting
  /-- Any other frame, when it is the newest one, meets the setting that was in force. -/
  newest : ∀ f pushed rest, marked = (f, pushed) :: rest → f.Neutral → st.setting = pushed
  /-- Where there is no frame left the first setting is in force. -/
  outermost : marked = [] → st.setting = ground

theorem Coheres.lexical {st : State S} {ground : Setting} {marked : List (Frame S × Setting)}
    (hs : marked.map Prod.fst = st.stack) (h : Coheres ground st.setting marked) :
    Lexical ground marked st where
  stack := hs
  chain := hs ▸ h.chained
  context context pushed hf := by
    obtain ⟨above, rfl⟩ := h.mem hf
    rfl
  parent s parent pushed hf := by
    obtain ⟨above, rfl, -⟩ := h.mem hf
    rfl
  branches f pushed hf := by
    obtain ⟨above, hcoheres⟩ := h.mem hf
    cases f with
    | restoreContext | closeScope => exact nofun
    | resume | recover | retry | timeout | parallel | race => exact hcoheres.2
  newest f pushed rest hmarked hf := by
    subst hmarked
    exact (hf.coheres.1 h.1).1
  outermost hmarked := by
    subst hmarked
    exact h

/-- A state that a move leads to: its stack is a marked one that coheres, or has one frame more,
which was pushed in a setting. -/
def State.Continues (ground : Setting) (pushed : Setting) (marked : List (Frame S × Setting))
    (st : State S) : Prop :=
  st.stack = marked.map Prod.fst ∧ Coheres ground st.setting marked ∨
    ∃ f, st.stack = f :: marked.map Prod.fst ∧ Coheres ground st.setting ((f, pushed) :: marked)

theorem State.Grows.continues {st st' : State S} (h : st.Grows st') {ground : Setting}
    {marked : List (Frame S × Setting)} (hmarked : Coheres ground st.setting marked)
    (hs : marked.map Prod.fst = st.stack) : st'.Continues ground st.setting marked := by
  rw [Continues, hs]
  rcases h with ⟨hstack, hsetting⟩ | ⟨f, hstack, hf⟩
  · exact .inl ⟨hstack, by rwa [hsetting]⟩
  · exact .inr ⟨f, hstack, hf, hmarked⟩

namespace Interpreter

variable (it : Interpreter S) (close : Closer S) (b : BudgetId) {ground : Setting}

/-- The run has come to a state, and its stack is marked: every frame is paired with the setting
that was in force in the state from which it was pushed. -/
inductive Marked (start : State S) (w₀ : World S) :
    List (Frame S × Setting) → State S → World S → Prop where
  | start : Marked start w₀ [] start w₀
  | tick {marked : List (Frame S × Setting)} {st : State S} {w : World S}
      (h : Marked start w₀ marked st w) : Marked start w₀ marked st (w.modifyBudget b Budget.tick)
  | kept {marked : List (Frame S × Setting)} {st st' : State S} {w w' : World S}
      (h : Marked start w₀ marked st w) (hm : it.move close st w = (.ok st', w'))
      (hs : st'.stack = (st.remaining marked).map Prod.fst) :
      Marked start w₀ (st.remaining marked) st' w'
  | pushed {marked : List (Frame S × Setting)} {st st' : State S} {w w' : World S} {f : Frame S}
      (h : Marked start w₀ marked st w) (hm : it.move close st w = (.ok st', w'))
      (hs : st'.stack = f :: (st.remaining marked).map Prod.fst) :
      Marked start w₀ ((f, st.setting) :: st.remaining marked) st' w'

variable {it close b} {st st' : State S} {w w' : World S} {marked : List (Frame S × Setting)}

section

variable (hr : it.registry = .standard) (hσ : it.strategy.KeepsJobs)
include hσ

include hr in
/-- Handing an effect to its handler. -/
theorem move_effect (st : State S) {node : Node S} (hc : st.control = .effect node) :
    Answers (it.move close st) st.Grows := by
  obtain ⟨context, stack, scope, control, b⟩ := st
  cases hc
  change Answers (it.dispatch close node ⟨context, stack, scope, .pending, b⟩) _
  rw [dispatch, hr, Registry.dispatch_standard]
  have hhandler := Host.standard_grows (h := it.host close) ⟨context, stack, scope, .pending, b⟩ hσ
    node
  refine .bind hhandler fun st' hst' ↦ .pure ?_
  split
  · exact hst'
  · exact hst'

omit hσ in
/-- Handing an outcome to a frame that changes no setting. -/
theorem move_neutral {context : Context} {f : Frame S} (hf : f.Neutral)
    (hwaiting : See context f.waiting) (rest : List (Frame S)) (scope : ScopeId)
    (o : Outcome S.Error Value) (b : BudgetId) :
    Answers (it.move close ⟨context, f :: rest, scope, .ofOutcome o, b⟩)
      (State.Grows ⟨context, rest, scope, .pending, b⟩) := by
  cases o with
  | ok v => exact Host.resume_grows _ hf hwaiting v
  | error cause =>
    exact .bind (Host.fall_grows ⟨context, rest, scope, .pending, b⟩ hf hwaiting cause)
      fun x hx ↦ .pure hx

omit hσ in
/-- An outcome that comes out of a provided effect finds the outer context again. -/
theorem move_restoreContext (context outer : Context) (rest : List (Frame S)) (scope : ScopeId)
    (o : Outcome S.Error Value) (b : BudgetId) :
    it.move close ⟨context, .restoreContext outer :: rest, scope, .ofOutcome o, b⟩ =
      pure ⟨outer, rest, scope, .ofOutcome o, b⟩ := by
  cases o <;> rfl

omit hσ in
/-- Handing an outcome to the newest frame. -/
theorem outcome_coheres {o : Outcome S.Error Value} (hc : st.control = .ofOutcome o)
    {f : Frame S} {pushed : Setting} (hs : st.stack = f :: marked.map Prod.fst)
    (hf : f.Coheres pushed st.setting) (hmarked : Coheres ground pushed marked)
    (hm : it.move close st w = (.ok st', w')) : st'.Continues ground st.setting marked := by
  obtain ⟨context, stack, scope, control, b⟩ := st
  dsimp only at hs hc
  subst hs hc
  by_cases hneutral : f.Neutral
  · obtain ⟨habove, hwaiting⟩ := hneutral.coheres.1 hf
    have hcontext : context = pushed.context := congrArg Setting.context habove
    have hgrows : State.Grows ⟨context, marked.map Prod.fst, scope, .pending, b⟩ st' :=
      move_neutral hneutral (by rwa [hcontext]) _ scope o b hm
    exact hgrows.continues (by rwa [← habove] at hmarked) rfl
  · -- the two frames that change the setting bring back the one that was in force before them
    cases f with
    | resume | recover | retry | timeout | parallel | race => exact (hneutral trivial).elim
    | restoreContext outer =>
      obtain rfl := hf
      rw [move_restoreContext] at hm
      cases hm
      exact .inl ⟨rfl, hmarked⟩
    | closeScope s parent =>
      obtain ⟨rfl, -⟩ := hf
      rw [move_closeScope] at hm
      obtain ⟨r, w₁, -, heq⟩ := Machine.bind_eq_ok hm
      cases heq
      exact .inl ⟨rfl, hmarked⟩

include hr in
/-- **A move keeps a marked stack coherent**, and pushes one frame at most. -/
theorem move_coheres (hs : marked.map Prod.fst = st.stack)
    (hmarked : Coheres ground st.setting marked) (hm : it.move close st w = (.ok st', w')) :
    st'.Continues ground st.setting (st.remaining marked) := by
  -- an outcome in hand meets the newest frame, if there is one
  have houtcome : ∀ o, st.control = .ofOutcome o →
      st'.Continues ground st.setting marked.tail := by
    intro o hc
    cases marked with
    | nil =>
      rw [move_of_stack_eq_nil hs.symm hc] at hm
      cases hm
      exact .inl ⟨hs.symm, hmarked⟩
    | cons m rest =>
      obtain ⟨f, pushed⟩ := m
      exact outcome_coheres hc hs.symm hmarked.1 hmarked.2 hm
  cases hc : st.control with
  | effect node =>
    rw [State.remaining, hc]
    exact (move_effect hr hσ st hc hm).continues hmarked hs
  | pending =>
    rw [State.remaining, hc]
    rw [move, hc] at hm
    cases hm
    exact .inl ⟨hs.symm, hmarked⟩
  | value v =>
    rw [State.remaining, hc]
    exact houtcome (.ok v) hc
  | failure cause =>
    rw [State.remaining, hc]
    exact houtcome (.error cause) hc

include hr in
/-- At every moment of a run the stack is marked, and the marked stack coheres. -/
theorem Marked.coheres {start : State S} {w₀ : World S} (hstart : start.stack = [])
    (h : it.Marked close b start w₀ marked st w) :
    marked.map Prod.fst = st.stack ∧ Coheres start.setting st.setting marked := by
  induction h with
  | start => exact ⟨hstart.symm, rfl⟩
  | tick _ ih => exact ih
  | kept _ hm hs ih =>
    obtain ⟨hstack, hcoheres⟩ := ih
    refine ⟨hs.symm, ?_⟩
    rcases move_coheres hr hσ hstack hcoheres hm with ⟨-, h⟩ | ⟨f, hf, -⟩
    · exact h
    · rw [hs] at hf
      exact absurd (congrArg List.length hf) (by simp)
  | pushed _ hm hs ih =>
    obtain ⟨hstack, hcoheres⟩ := ih
    refine ⟨hs.symm, ?_⟩
    rcases move_coheres hr hσ hstack hcoheres hm with ⟨hf, -⟩ | ⟨f, hf, h⟩
    · rw [hs] at hf
      exact absurd (congrArg List.length hf) (by simp)
    · rw [hs] at hf
      cases hf
      exact h

include hr in
/-- Every run marks its stack. -/
theorem Moves.marks {start : State S} {w₀ : World S} (hstart : start.stack = [])
    (h : it.Moves close b start w₀ st w) : ∃ marked, it.Marked close b start w₀ marked st w := by
  induction h with
  | refl => exact ⟨[], .start⟩
  | tick _ ih =>
    obtain ⟨marked, h⟩ := ih
    exact ⟨marked, h.tick⟩
  | move _ hm ih =>
    obtain ⟨marked, h⟩ := ih
    obtain ⟨hstack, hcoheres⟩ := h.coheres hr hσ hstart
    rcases move_coheres hr hσ hstack hcoheres hm with ⟨hs, -⟩ | ⟨f, hs, -⟩
    · exact ⟨_, h.kept hm hs⟩
    · exact ⟨_, h.pushed hm hs⟩

end

/-- **The context and the scope in force are lexical.** Every moment of a run marks the stack with
what was in force when its frames were pushed, and however a run marks it, the context and the
scope in force, the chain of scopes and what frames will reinstate are as the marks say. -/
theorem moves_lexical (hr : it.registry = .standard) (hσ : it.strategy.KeepsJobs) (node : Node S)
    (context : Context) (root : ScopeId) (b' : BudgetId) (w₀ : World S) :
    (∀ st w, it.Moves close b (.start node context root b') w₀ st w →
      ∃ marked, it.Marked close b (.start node context root b') w₀ marked st w) ∧
    ∀ marked st w, it.Marked close b (.start node context root b') w₀ marked st w →
      Lexical ⟨context, root, b'⟩ marked st := by
  refine ⟨fun st w h ↦ h.marks hr hσ rfl, fun marked st w h ↦ ?_⟩
  obtain ⟨hstack, hcoheres⟩ := h.coheres hr hσ rfl
  exact hcoheres.lexical hstack

/-- Three frames down, in a region of an effect that is provided with a context. -/
theorem providedRegion_lexical :
    ∃ marked st w, hastyTally.Marked (hastyTally.closeScope 9) ⟨0⟩
        (.start (.provide .empty failingRegion) .empty ⟨0⟩ ⟨0⟩) tallyWorld marked st w ∧
      Lexical ⟨.empty, ⟨0⟩, ⟨0⟩⟩ marked st ∧ st.stack.length = 3 := by
  have hmoves : ∃ st w, hastyTally.Moves (hastyTally.closeScope 9) ⟨0⟩
      (.start (.provide .empty failingRegion) .empty ⟨0⟩ ⟨0⟩) tallyWorld st w ∧
        st.stack.length = 3 :=
    ⟨_, _, .move (.move (.move (.refl _ _) rfl) rfl) rfl, rfl⟩
  obtain ⟨st, w, hmoves, hlength⟩ := hmoves
  obtain ⟨marked, hmarked⟩ := (moves_lexical rfl Strategy.keepsJobs_sync
    (.provide .empty failingRegion) .empty ⟨0⟩ ⟨0⟩ tallyWorld).1 st w hmoves
  have hlexical : Lexical ⟨.empty, ⟨0⟩, ⟨0⟩⟩ marked st :=
    (moves_lexical rfl Strategy.keepsJobs_sync _ _ _ _ _).2 marked st w hmarked
  exact ⟨marked, st, w, hmarked, hlexical, hlength⟩

end Interpreter

end EffectMachine
