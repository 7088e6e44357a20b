import EffectMachine.Proofs.LayerWrites
import EffectMachine.Proofs.Lexical

/-!
# The layers around a point of a run

Only a provided effect pushes a frame that reinstates a context, and the context above it is the one
that its layer builds. So every move does one of three things (`Interpreter.Crosses`): it enters a
provided effect, which adds the context in force to those that the stack will reinstate; it leaves
one, which takes the newest of them off and reinstates it; or it leaves both them and the context in
force as they are (`Interpreter.move_crosses`).

Along a run this tells which layers a point of it is within (`Interpreter.Within`): those of the
provided effects that were entered and not left. They were built inside one another, from the
context in which the run began to the one in force (`Interpreter.Within.nested`).
-/

namespace EffectMachine

variable {S : Signature}

open Machine (Answers)

/-- The contexts that a stack will reinstate, newest first. -/
def outerContexts : List (Frame S) → List Context
  | [] => []
  | .restoreContext context :: fs => context :: outerContexts fs
  | _ :: fs => outerContexts fs

/-- The number of provided effects that have been entered and not left. -/
def State.depth (st : State S) : Nat := (outerContexts st.stack).length

/-- The stack of another state will reinstate the same contexts. -/
def State.SameOuter (st st' : State S) : Prop := outerContexts st'.stack = outerContexts st.stack

/-- If no context was added to those that will be reinstated, the one in force is the same. -/
theorem State.SameOuter.context {st st' : State S} (h : st.SameOuter st') (hg : st.Grows st') :
    st'.context = st.context := by
  rcases hg with ⟨-, hsetting⟩ | ⟨f, hstack, hf⟩
  · exact congrArg Setting.context hsetting
  · rw [SameOuter, hstack] at h
    cases f with
    | restoreContext context => exact absurd (congrArg List.length h) (by simp [outerContexts])
    | closeScope s parent => exact (congrArg Setting.context hf.1).symm
    | resume | recover | retry | timeout | parallel | race => exact congrArg Setting.context hf.1

/-! ### Handlers and frames -/

namespace Host

variable {h : Host S} (st : State S)

theorem nextParallel_sameOuter (collect : List Value → Action S (Except Defect Value))
    (fs : List (Fork S)) (collected : List Value) :
    Answers (h.nextParallel collect fs collected st) st.SameOuter := by
  induction fs generalizing collected with
  | nil =>
    refine .after fun x ↦ ?_
    rcases x with d | d | v <;> exact .pure rfl
  | cons f fs ih =>
    refine .after fun t ↦ ?_
    rcases t with job | c | v
    · exact .pure rfl
    · exact .pure rfl
    · exact ih (v :: collected)

theorem nextRace_sameOuter (fs : List (Fork S)) (failures : List (Cause S.Error)) :
    Answers (h.nextRace fs failures st) st.SameOuter := by
  induction fs generalizing failures with
  | nil => exact .pure rfl
  | cons f fs ih =>
    refine .after fun t ↦ ?_
    rcases t with job | c | v
    · exact .pure rfl
    · exact ih (c :: failures)
    · exact .pure rfl

theorem sameOuter_built (x : Except Defect (Node S)) : st.SameOuter (st.continueBuilt x) := by
  cases x <;> rfl

/-- The handler of any other kind of node adds no context to those that will be reinstated. -/
theorem standard_sameOuter {node : Node S} (hprovide : ∀ layer inner, node ≠ .provide layer inner) :
    Answers (Handler.standard node.tag h node st) st.SameOuter := by
  cases node with
  | provide layer inner => exact absurd rfl (hprovide layer inner)
  | fail | bind | recover => exact .pure rfl
  | sleep | retry | timeout => exact .after fun _ ↦ .pure rfl
  | suspend thunk => exact .after fun x ↦ .pure (sameOuter_built st x)
  | pure make =>
    refine .after fun x ↦ ?_
    cases x <;> exact .pure rfl
  | finalizer release =>
    refine .after fun x ↦ ?_
    cases x <;> exact .pure rfl
  | service key =>
    simp only [Node.tag, Handler.standard, Handler.onService]
    split <;> exact .pure rfl
  | async start =>
    refine .after fun slot ↦ .after fun x ↦ ?_
    cases x with
    | ok _ => exact .after fun o ↦ .pure rfl
    | error d => exact .pure rfl
  | region body =>
    refine .after fun child ↦ .after fun x ↦ .pure ?_
    cases x <;> rfl
  | parallel branches collect => exact .after fun fs ↦ nextParallel_sameOuter st collect fs []
  | race branches =>
    cases branches with
    | nil => exact .pure rfl
    | cons n ns => exact .after fun fs ↦ nextRace_sameOuter st fs []

theorem resume_sameOuter {f : Frame S} (hf : f.Neutral) (v : Value) :
    Answers (h.resume f v st) st.SameOuter := by
  cases f with
  | restoreContext | closeScope => exact hf.elim
  | recover | retry | race => exact .pure rfl
  | parallel rest collected collect => exact nextParallel_sameOuter st collect rest (v :: collected)
  | resume next =>
    refine .after fun x ↦ ?_
    cases x <;> exact .pure rfl
  | timeout limit startedAt =>
    refine .after fun elapsed ↦ .pure ?_
    split <;> rfl

theorem fall_sameOuter {f : Frame S} (hf : f.Neutral) (cause : Cause S.Error) :
    Answers (h.fall f cause st) fun x ↦ st.SameOuter (x.landing st.stack) := by
  cases f with
  | restoreContext | closeScope => exact hf.elim
  | resume | timeout | parallel => exact .pure rfl
  | race rest failures =>
    exact .bind (nextRace_sameOuter st rest (cause :: failures)) fun st' h' ↦ .pure h'
  | recover accepts handler =>
    refine .after fun x ↦ ?_
    rcases x with d | _ | _
    · exact .pure rfl
    · exact .pure rfl
    · exact .after fun x ↦ .pure (sameOuter_built st x)
  | retry session =>
    refine .after fun x ↦ ?_
    cases x <;> exact .pure rfl

/-- A provided effect is entered, in a context that its layer builds, unless that fails. -/
theorem standard_provide (layer : Layer S) (inner : Node S) :
    Answers (Handler.standard .provide h (.provide layer inner) st) fun st' ↦
      st'.stack = st.stack ∧ st'.context = st.context ∨
        st'.stack = .restoreContext st.context :: st.stack ∧
          (layer.build st.context).Yields (.ok st'.context) := by
  refine .bind (h.attempt_answers _) fun x hx ↦ ?_
  rcases x with d | missing | context
  · exact .pure (.inl ⟨rfl, rfl⟩)
  · exact .pure (.inl ⟨rfl, rfl⟩)
  · exact .pure (.inr ⟨rfl, hx _ rfl⟩)

end Host

namespace Interpreter

variable {it : Interpreter S} {close : Closer S} {b : BudgetId}

/-! ### Moves -/

/-- What a move can do to the contexts that the stack will reinstate and to the one in force. -/
inductive Crosses (st st' : State S) : Prop where
  /-- It enters a provided effect. -/
  | enters {layer : Layer S} {inner : Node S} (hc : st.control = .effect (.provide layer inner))
      (hs : outerContexts st'.stack = st.context :: outerContexts st.stack)
      (hb : (layer.build st.context).Yields (.ok st'.context))
  /-- It leaves a provided effect. -/
  | leaves (hs : outerContexts st.stack = st'.context :: outerContexts st'.stack)
  /-- It does neither. -/
  | stays (hs : outerContexts st'.stack = outerContexts st.stack) (hc : st'.context = st.context)

namespace Crosses

variable {st st' : State S}

theorem entered (h : Crosses st st') (hd : st'.depth = st.depth + 1) :
    outerContexts st'.stack = st.context :: outerContexts st.stack ∧
      ∃ layer inner, st.control = .effect (.provide layer inner) ∧
        (layer.build st.context).Yields (.ok st'.context) := by
  rw [State.depth, State.depth] at hd
  cases h with
  | enters hc hs hb => exact ⟨hs, _, _, hc, hb⟩
  | leaves hs =>
    rw [hs, List.length_cons] at hd
    omega
  | stays hs =>
    rw [hs] at hd
    omega

theorem left (h : Crosses st st') (hd : st.depth = st'.depth + 1) :
    outerContexts st.stack = st'.context :: outerContexts st'.stack := by
  rw [State.depth, State.depth] at hd
  cases h with
  | leaves hs => exact hs
  | enters _ hs =>
    rw [hs, List.length_cons] at hd
    omega
  | stays hs =>
    rw [hs] at hd
    omega

theorem stayed (h : Crosses st st') (hd : st'.depth = st.depth) :
    outerContexts st'.stack = outerContexts st.stack ∧ st'.context = st.context := by
  rw [State.depth, State.depth] at hd
  cases h with
  | stays hs hc => exact ⟨hs, hc⟩
  | enters _ hs | leaves hs =>
    rw [hs, List.length_cons] at hd
    omega

end Crosses

/-- What the handler does to the context and to the stack is what the move does to them. -/
theorem move_answers (hr : it.registry = .standard) {st : State S} {node : Node S}
    (hc : st.control = .effect node) {P : Context → List (Frame S) → Prop}
    (h : Answers (Handler.standard node.tag (it.host close) node st.awaiting) fun st' ↦
      P st'.context st'.stack) :
    Answers (it.move close st) fun st' ↦ P st'.context st'.stack := by
  rw [move, hc]
  show Answers (it.dispatch close node st.awaiting) _
  rw [dispatch, hr, Registry.dispatch_standard]
  refine .bind h fun st' hst' ↦ .pure ?_
  split <;> exact hst'

variable {st st' : State S} {w w' : World S} {ground : Setting}
  {marked : List (Frame S × Setting)}

/-- A move that hands an outcome to the newest frame. -/
theorem outcome_crosses {o : Outcome S.Error Value} (hc : st.control = .ofOutcome o) {f : Frame S}
    {rest : List (Frame S)} {pushed : Setting} (hs : st.stack = f :: rest)
    (hf : f.Coheres pushed st.setting) (hm : it.move close st w = (.ok st', w')) :
    Crosses st st' := by
  obtain ⟨context, stack, scope, control, b⟩ := st
  dsimp only at hs hc
  subst hs hc
  by_cases hneutral : f.Neutral
  · obtain ⟨habove, hwaiting⟩ := hneutral.coheres.1 hf
    have hcontext : context = pushed.context := congrArg Setting.context habove
    have hgrows : State.Grows ⟨context, rest, scope, .pending, b⟩ st' :=
      move_neutral hneutral (by rwa [hcontext]) _ scope o b hm
    have hsame : State.SameOuter ⟨context, rest, scope, .pending, b⟩ st' := by
      cases o with
      | ok v => exact Host.resume_sameOuter _ hneutral v hm
      | error cause =>
        obtain ⟨x, w₁, hx, heq⟩ := Machine.bind_eq_ok hm
        cases heq
        exact Host.fall_sameOuter ⟨context, rest, scope, .pending, b⟩ hneutral cause hx
    have hframe : outerContexts (f :: rest) = outerContexts rest := by
      cases f with
      | restoreContext | closeScope => exact hneutral.elim
      | resume | recover | retry | timeout | parallel | race => rfl
    exact .stays (hsame.trans hframe.symm) (hsame.context hgrows)
  · cases f with
    | resume | recover | retry | timeout | parallel | race => exact (hneutral trivial).elim
    | restoreContext outer =>
      rw [move_restoreContext] at hm
      cases hm
      exact .leaves rfl
    | closeScope s parent =>
      rw [move_closeScope] at hm
      obtain ⟨r, w₁, -, heq⟩ := Machine.bind_eq_ok hm
      cases heq
      exact .stays rfl rfl

/-- **What a move can do to contexts.** -/
theorem move_crosses (hr : it.registry = .standard) (hσ : it.strategy.KeepsJobs)
    (hs : marked.map Prod.fst = st.stack) (hmarked : Coheres ground st.setting marked)
    (hm : it.move close st w = (.ok st', w')) : Crosses st st' := by
  -- an outcome in hand meets the newest frame, if there is one
  have houtcome : ∀ o, st.control = .ofOutcome o → Crosses st st' := by
    intro o hc
    cases marked with
    | nil =>
      rw [move_of_stack_eq_nil hs.symm hc] at hm
      cases hm
      exact .stays rfl rfl
    | cons m rest => exact outcome_crosses hc hs.symm hmarked.1 hm
  cases hc : st.control with
  | effect node =>
    by_cases hprovide : ∃ layer inner, node = .provide layer inner
    · obtain ⟨layer, inner, rfl⟩ := hprovide
      rcases move_answers hr hc (P := fun context stack ↦
          stack = st.stack ∧ context = st.context ∨
            stack = .restoreContext st.context :: st.stack ∧
              (layer.build st.context).Yields (.ok context))
        (Host.standard_provide st.awaiting layer inner) hm with ⟨hstack, hcontext⟩ | ⟨hstack, hb⟩
      · exact .stays (congrArg outerContexts hstack) hcontext
      · exact .enters hc (congrArg outerContexts hstack) hb
    · have hsame : st.SameOuter st' :=
        move_answers hr hc (P := fun _ stack ↦ outerContexts stack = outerContexts st.stack)
          (Host.standard_sameOuter st.awaiting fun layer inner h ↦ hprovide ⟨layer, inner, h⟩) hm
      exact .stays hsame (hsame.context (move_effect hr hσ st hc hm))
  | pending =>
    rw [move, hc] at hm
    cases hm
    exact .stays rfl rfl
  | value v => exact houtcome (.ok v) hc
  | failure cause => exact houtcome (.error cause) hc

/-! ### Runs -/

variable (it close b)

/-- The run has come to a state, and the listed layers, the innermost one first, are those of the
provided effects that it has entered and not left. -/
inductive Within (start : State S) (w₀ : World S) : List (Layer S) → State S → World S → Prop where
  | start : Within start w₀ [] start w₀
  | tick {ls : List (Layer S)} {st : State S} {w : World S} (h : Within start w₀ ls st w) :
      Within start w₀ ls st (w.modifyBudget b Budget.tick)
  | enters {ls : List (Layer S)} {st st' : State S} {w w' : World S} {layer : Layer S}
      {inner : Node S} (h : Within start w₀ ls st w)
      (hc : st.control = .effect (.provide layer inner)) (hm : it.move close st w = (.ok st', w'))
      (hd : st'.depth = st.depth + 1) : Within start w₀ (layer :: ls) st' w'
  | leaves {ls : List (Layer S)} {st st' : State S} {w w' : World S} {layer : Layer S}
      (h : Within start w₀ (layer :: ls) st w) (hm : it.move close st w = (.ok st', w'))
      (hd : st.depth = st'.depth + 1) : Within start w₀ ls st' w'
  | stays {ls : List (Layer S)} {st st' : State S} {w w' : World S} (h : Within start w₀ ls st w)
      (hm : it.move close st w = (.ok st', w')) (hd : st'.depth = st.depth) :
      Within start w₀ ls st' w'

variable {it close b} {start : State S} {w₀ : World S} {ls : List (Layer S)}

namespace Within

theorem moves (h : it.Within close b start w₀ ls st w) : it.Moves close b start w₀ st w := by
  induction h with
  | start => exact .refl _ _
  | tick _ ih => exact ih.tick
  | enters _ _ hm _ ih | leaves _ hm _ ih | stays _ hm _ ih => exact ih.move hm

/-- There is a layer for every context that will be reinstated. -/
theorem length (hstart : start.stack = []) (h : it.Within close b start w₀ ls st w) :
    ls.length = st.depth := by
  induction h with
  | start => rw [State.depth, hstart]; rfl
  | tick _ ih => exact ih
  | enters _ _ _ hd ih => rw [List.length_cons, ih, hd]
  | leaves _ _ hd ih =>
    rw [List.length_cons, hd] at ih
    exact Nat.succ.inj ih
  | stays _ _ hd ih => rw [ih, hd]

section

variable (hr : it.registry = .standard) (hσ : it.strategy.KeepsJobs)
include hr hσ

theorem crosses (hstart : start.stack = []) (h : it.Within close b start w₀ ls st w)
    (hm : it.move close st w = (.ok st', w')) : Crosses st st' := by
  obtain ⟨marked, hmarked⟩ := h.moves.marks hr hσ hstart
  obtain ⟨hs, hcoheres⟩ := hmarked.coheres hr hσ hstart
  exact move_crosses hr hσ hs hcoheres hm

/-- **The layers around a point of a run were built inside one another**, from the context in which
the run began to the one in force. -/
theorem nested (hstart : start.stack = []) (h : it.Within close b start w₀ ls st w) :
    Layer.Nested start.context ls (outerContexts st.stack) st.context := by
  induction h with
  | start =>
    rw [hstart]
    exact .ambient
  | tick _ ih => exact ih
  | enters h hc hm hd ih =>
    obtain ⟨hs, layer, inner, hc', hb⟩ := (h.crosses hr hσ hstart hm).entered hd
    cases hc.symm.trans hc'
    rw [hs]
    exact ih.inside hb
  | leaves h hm hd ih =>
    rw [(h.crosses hr hσ hstart hm).left hd] at ih
    cases ih with
    | inside ih _ => exact ih
  | stays h hm hd ih =>
    obtain ⟨hs, hc⟩ := (h.crosses hr hσ hstart hm).stayed hd
    rw [hs, hc]
    exact ih

/-- Within standard layers the context in force is typed if the run began in a typed one. -/
theorem typed (hstart : start.stack = []) (hcontext : start.context.Typed)
    (h : it.Within close b start w₀ ls st w) (hls : ∀ l ∈ ls, l.Standard) : st.context.Typed := by
  obtain ⟨wss, hwritten⟩ := (h.nested hr hσ hstart).written hls
  exact hwritten.typed hcontext

end

end Within

/-- Every point of a run is inside some layers. -/
theorem Moves.within (hr : it.registry = .standard) (hσ : it.strategy.KeepsJobs)
    (hstart : start.stack = []) (h : it.Moves close b start w₀ st w) :
    ∃ ls, it.Within close b start w₀ ls st w := by
  induction h with
  | refl => exact ⟨[], .start⟩
  | tick _ ih =>
    obtain ⟨ls, h⟩ := ih
    exact ⟨ls, h.tick⟩
  | move _ hm ih =>
    obtain ⟨ls, h⟩ := ih
    cases h.crosses hr hσ hstart hm with
    | enters hc hs => exact ⟨_, h.enters hc hm (congrArg List.length hs)⟩
    | stays hs => exact ⟨_, h.stays hm (congrArg List.length hs)⟩
    | leaves hs =>
      have hdepth : State.depth _ = State.depth _ + 1 := congrArg List.length hs
      cases ls with
      | nil => exact absurd ((h.length hstart).trans hdepth) (Nat.succ_ne_zero _).symm
      | cons layer ls => exact ⟨ls, h.leaves hm hdepth⟩

end Interpreter

end EffectMachine
