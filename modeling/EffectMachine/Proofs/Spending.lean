import EffectMachine.Proofs.Comparison

/-!
# A run whose budget is spent

Once a step has exceeded the limit the budget of the run is spent, unless an abort is in progress,
and the next step exceeds the limit again. So nothing recovers: release effects that are started
fail with their first step, a failure that falls on keeps the defect of the limit among its leaves
(`Host.fall_answers`), and where a frame recovers, or a region is left with a value, the loop aborts
with its next step (`Interpreter.abort_doomed`, `Interpreter.advance_doomed`).

To end, closing a scope needs but two levels of depth by then, whatever waits on it
(`Interpreter.closeScope_doomed`).
-/

namespace EffectMachine

variable {S : Signature} {α : Type}

open Machine (Along Firm Answers)

/-- The outcome is a failure that has the defect among its leaves. -/
def Outcome.Carries {ε α : Type} (d : Defect) : Outcome ε α → Prop
  | .ok _ => False
  | .error cause => .defect d ∈ cause.flatten

theorem Outcome.Carries.merge {ε α : Type} {d : Defect} {o : Outcome ε α} {r : Outcome ε Unit}
    (h : o.Carries d ∨ r.Carries d) : (o.merge r).Carries d := by
  rcases o with cause | v <;> rcases r with failures | ⟨⟩
  · change .defect d ∈ (cause.combine failures).flatten
    rw [Cause.flatten_combine]
    exact List.mem_append.2 h
  · exact h.resolve_right id
  · exact h.resolve_left id
  · exact (h.elim id id).elim

/-- The interpreter has a step limit, the standard handlers, and a strategy and named finalizers
that close no scope. The strategy does not panic. -/
structure Interpreter.Limited (it : Interpreter S) (n : Nat) : Prop where
  registry : it.registry = .standard
  quiet : it.strategy.Quiet it.program
  steady : it.strategy.Steady
  tidy : it.program.Tidy
  stepLimit : it.config.stepLimit = some n

/-- The interpreter has the standard handlers, and a strategy and named finalizers that close no
scope. -/
structure Interpreter.Tame (it : Interpreter S) : Prop where
  registry : it.registry = .standard
  quiet : it.strategy.Quiet it.program
  tidy : it.program.Tidy

theorem Interpreter.Limited.tame {it : Interpreter S} {n : Nat} (hit : it.Limited n) : it.Tame :=
  ⟨hit.registry, hit.quiet, hit.tidy⟩

/-! ### Leaves of causes -/

theorem Cause.subset_flatten_combine {ε : Type} (cause other : Cause ε) :
    cause.flatten ⊆ (cause.combine other).flatten := by
  rw [Cause.flatten_combine]
  exact List.subset_append_left _ _

namespace Host

variable {h : Host S}

theorem closing_answers (s : ScopeId) (cause : Cause S.Error) :
    Answers (h.closing s cause) fun c ↦ cause.flatten ⊆ c.flatten := by
  refine .after fun r ↦ ?_
  rcases r with failures | ⟨⟩
  · exact .pure (Cause.subset_flatten_combine cause failures)
  · exact .pure (List.Subset.refl _)

/-- An abort keeps the leaves of the cause. -/
theorem abort_answers (stack : List (Frame S)) (cause : Cause S.Error) :
    Answers (h.abort stack cause) fun c ↦ cause.flatten ⊆ c.flatten := by
  induction stack generalizing cause with
  | nil => exact .pure (List.Subset.refl _)
  | cons f rest ih =>
    cases f with
    | closeScope s parent =>
      exact .bind (closing_answers s cause) fun c hc ↦ (ih c).post fun _ h ↦ List.Subset.trans hc h
    | resume | recover | restoreContext | retry | timeout | parallel | race => exact ih cause

/-- A schedule that gives up keeps the leaves of the cause. -/
theorem consult_answers (session : RetrySession S) (cause : Cause S.Error) :
    Answers (h.consult session cause) fun x ↦ ∀ c, x = .giveUp c → cause.flatten ⊆ c.flatten := by
  have hstop : Answers (pure (.giveUp cause) : Machine S (RetryVerdict S)) fun x ↦
      ∀ c, x = .giveUp c → cause.flatten ⊆ c.flatten := by
    refine .pure ?_
    rintro _ ⟨⟩
    exact List.Subset.refl _
  cases cause with
  | fail error =>
    refine .after fun elapsed ↦ .after fun x ↦ ?_
    rcases x with d | ⟨_ | delay, jitter⟩
    · refine .pure ?_
      rintro _ ⟨⟩
      exact Cause.subset_flatten_combine _ _
    · exact hstop
    · exact .after fun _ ↦ .pure nofun
  | validation | serviceNotFound | timeout | composite | defect => exact hstop

/-- A failure that a frame lets pass keeps its leaves. -/
theorem fall_answers (f : Frame S) (cause : Cause S.Error) (st : State S) :
    Answers (h.fall f cause st) fun x ↦ ∀ c st', x = .on c st' → cause.flatten ⊆ c.flatten := by
  have hpass : Answers (pure (.on cause st) : Machine S (Fall S)) fun x ↦
      ∀ c st', x = .on c st' → cause.flatten ⊆ c.flatten := by
    refine .pure ?_
    rintro _ _ ⟨⟩
    exact List.Subset.refl _
  cases f with
  | resume | timeout | parallel => exact hpass
  | restoreContext =>
    refine .pure ?_
    rintro _ _ ⟨⟩
    exact List.Subset.refl _
  | closeScope s parent =>
    refine .bind (closing_answers s cause) fun c hc ↦ .pure ?_
    rintro _ _ ⟨⟩
    exact hc
  | race branches failures => exact .after fun st' ↦ .pure nofun
  | recover accepts handler =>
    refine .after fun x ↦ ?_
    rcases x with d | _ | _
    · refine .pure ?_
      rintro _ _ ⟨⟩
      exact Cause.subset_flatten_combine _ _
    · exact hpass
    · exact .after fun x ↦ .pure nofun
  | retry session =>
    refine .bind (consult_answers session cause) fun x hx ↦ ?_
    cases x with
    | again session' => exact .pure nofun
    | giveUp c =>
      refine .pure ?_
      rintro _ _ ⟨⟩
      exact hx c rfl

end Host

/-! ### Finalizers of a run -/

/-- The finalizer is quiet, and counts on the budget if it is a release effect. -/
structure Finalizer.Due (p : Program S) (b : BudgetId) (f : Finalizer S) : Prop where
  quiet : f.Quiet p
  budget : ∀ build context b', f = .release build context b' → b' = b

/-- The finalizers that wait on a scope, which has been opened, are due. -/
structure Held (p : Program S) (b : BudgetId) (w : World S) (s : ScopeId) : Prop where
  born : s.index < w.scopes.size
  due : ∀ f ∈ (w.scope s).finalizers, f.Due p b

/-- No release effect is registered on a scope that was there before. -/
theorem Held.conducts {p : Program S} {b b' : BudgetId} {w w' : World S} {s : ScopeId}
    (h : Held p b w s) (hw : Conducts b' w w') : Held p b w' s := by
  obtain ⟨u, hu⟩ := hw
  refine ⟨Nat.lt_of_lt_of_le h.born hu.tended.size, fun f hf ↦ ?_⟩
  cases f with
  | cleanup c => exact ⟨trivial, nofun⟩
  | release build context b₁ => exact h.due _ (hu.tended.releases s build context b₁ h.born hf)

namespace Interpreter

variable {it : Interpreter S} {b : BudgetId} {n fuel d : Nat} {root : ScopeId} {st st' : State S}
  {w w' : World S}

/-- In an interpretation of a quiet effect, which has the given root scope, this is a state. -/
def Inside (it : Interpreter S) (b : BudgetId) (d : Nat) (root : ScopeId) (st : State S)
    (w : World S) : Prop :=
  ∃ node context, ∃ w₀ : World S, it.program.Quiet node ∧ root = w₀.enterScope.1 ∧
    it.Moves (it.closeScope d) b (.start node context w₀.enterScope.1 b) w₀.enterScope.2 st w

namespace Inside

theorem start {node : Node S} (hnode : it.program.Quiet node) (context : Context) (w : World S) :
    it.Inside b d w.enterScope.1 (.start node context w.enterScope.1 b) w.enterScope.2 :=
  ⟨node, context, w, hnode, rfl, .refl _ _⟩

theorem trans (h : it.Inside b d root st w) (h' : it.Moves (it.closeScope d) b st w st' w') :
    it.Inside b d root st' w' := by
  obtain ⟨node, context, w₀, hnode, hroot, hmoves⟩ := h
  exact ⟨node, context, w₀, hnode, hroot, hmoves.trans h'⟩

theorem tick (h : it.Inside b d root st w) :
    it.Inside b d root st (w.modifyBudget b Budget.tick) :=
  h.trans (.tick (.refl st w))

theorem advance (h : it.Inside b d root st w)
    (heq : it.advance (it.closeScope d) st w = (.ok (.running st'), w')) :
    it.Inside b d root st' w' := by
  rcases advance_moves b heq nofun with ⟨_, ⟨⟩, hmoves⟩ | ⟨_, _, y, _, _, hy⟩
  · exact h.trans hmoves
  · cases y <;> cases hy

section

variable (hit : it.Tame) (h : it.Inside b d root st w)
include hit h

theorem reached : st.Sound it.program.Quiet ∧ ∃ w₀ causes,
    Reached it.program false w₀ (openScopes st.stack ++ [root]) causes w := by
  obtain ⟨node, context, w₀, hnode, rfl, hmoves⟩ := h
  have hclose : Closes it.program false (it.closeScope d) :=
    closeScope_closes hit.registry hit.quiet hit.tidy (by nofun) d
  have hstart : (State.start node context w₀.enterScope.1 b).Sound it.program.Quiet := by
    refine ⟨?_, nofun⟩
    rintro _ ⟨⟩
    exact hnode
  obtain ⟨hst, causes, hw⟩ := hmoves.reached hit.registry hit.quiet hclose hstart
    (Reached.refl w₀).enter
  exact ⟨hst, w₀, causes, hw⟩

theorem sound : st.Sound it.program.Quiet := (h.reached hit).1

theorem budget : st.budget = b := by
  obtain ⟨node, context, w₀, -, -, hmoves⟩ := h
  exact hmoves.budget hit.registry (closeScope_shuts hit.registry b d)

/-- The scopes of the stack and the root are open. -/
theorem live {s : ScopeId} (hs : s ∈ openScopes st.stack ++ [root]) :
    (w.scope s).closed = false := by
  obtain ⟨-, w₀, causes, u, hu, -⟩ := h.reached hit
  obtain ⟨fs, hfs⟩ := hu.live s hs
  rw [World.phase_eq_open.1 hfs]

/-- On the scopes of the stack and on the root nothing waits but what is due. -/
theorem held {s : ScopeId} (hs : s ∈ openScopes st.stack ++ [root]) :
    Held it.program b w s := by
  have hbudget : st.budget = b := h.budget hit
  obtain ⟨-, w₀, causes, hw⟩ := h.reached hit
  obtain ⟨node, context, w₁, -, rfl, hmoves⟩ := h
  have hclose := closeScope_shuts hit.registry b d
  have hhoused : Housed b w₁ w₁.enterScope.1 st w :=
    hmoves.housed hit.registry hclose (start_housed b w₁ node context b)
  obtain ⟨-, hborn, hreleases⟩ := hhoused.own s hs
  refine ⟨hborn, fun f hf ↦ ⟨?_, ?_⟩⟩
  · obtain ⟨u, hu, -⟩ := id hw
    obtain ⟨fs, hfs⟩ := hu.live s hs
    rw [World.phase_eq_open.1 hfs] at hf
    exact hw.quiet hs hfs hf
  · rintro build context b' rfl
    rw [← hbudget]
    exact hreleases build context b' hf

end

end Inside

/-! ### On a spent budget -/

section

variable (hr : it.registry = .standard) (b : BudgetId)
include hr

theorem build_along (build : Action S (Plan S)) : Along (World.Ages b) True
    ((it.host (it.closeScope d)).build build) fun _ ↦ True := by
  have D := Discipline.any (h := it.host (it.closeScope d)) (persistent_ages b).toDrift
    (closeScope_along (persistent_ages b) hr d) (persistent_ages b).take
  have hbuild := (D.obeys (.finalizer build) trivial).build (E := True)
  exact hbuild.post fun _ _ ↦ trivial

theorem invoke_along (s : ScopeId) (f : Finalizer S) : Along (World.Ages b) False
    ((it.host (it.closeScope d)).invoke (it.interpretOn d) s f) fun _ ↦ True := by
  have hclose := closeScope_along (persistent_ages b) hr d
  have hR := persistent_ages (S := S) b
  exact Host.invoke_along hR.toDrift hR.record s
    (Host.finalize_along (h := it.host (it.closeScope d)) hR.toLasting hclose
      (interpretWith_along hR.toLasting hr hclose d) f)

end

theorem tick_spent (hl : it.config.stepLimit = some n) (h : Spent b n w) :
    it.tick b w = (.ok (some n), w.modifyBudget b Budget.tick) := by
  rw [tick_eq, hl, h.exceeds]

/-- An interpretation on a spent budget ends with its first step. -/
theorem interpretOn_spent (hit : it.Limited n) (h : Spent b n w) (node : Node S)
    (context : Context) : ∃ o w', it.interpretOn (d + 1) node context b w = (.ok o, w') := by
  have hspent : Spent b n w.enterScope.2 := h.of_budget rfl
  have htick := tick_spent hit.stepLimit hspent
  -- there is no scope to close during the abort, and nothing waits on the root scope after it
  have habort : ∃ w₁, w₁.scopes = w.enterScope.2.scopes ∧
      it.rounds (it.closeScope (d + 1)) b (d + 1) (.start node context w.enterScope.1 b)
        w.enterScope.2 = (.ok (.error (.defect (.stepLimitExceeded n))), w₁) := by
    rw [rounds_exceeded htick]
    exact ⟨(((w.enterScope.2.modifyBudget b Budget.tick).record (.exceeded b n)).modifyBudget b
      Budget.beginAbort).modifyBudget b Budget.endAbort, rfl, rfl⟩
  obtain ⟨w₁, hscopes, hloop⟩ := habort
  have hroot : (it.closeScope (d + 1) w.enterScope.1 w₁).1 = .ok (.ok ()) := by
    refine closeScope_empty ?_
    rw [World.scope_congr hscopes]
    exact congrArg Scope.finalizers w.scope_openScope_self
  change ∃ o w', (it.rounds (it.closeScope (d + 1)) b (d + 1)
    (.start node context w.enterScope.1 b) >>= fun o ↦ it.closeScope (d + 1) w.enterScope.1 >>=
      fun r ↦ pure (o.merge r)) w.enterScope.2 = (.ok o, w')
  rw [Machine.bind_ok hloop]
  rcases hclosed : it.closeScope (d + 1) w.enterScope.1 w₁ with ⟨x, w₂⟩
  rw [hclosed] at hroot
  obtain rfl : x = .ok (.ok ()) := hroot
  rw [Machine.bind_ok hclosed]
  exact ⟨_, _, rfl⟩

section

variable (hit : it.Limited n) (h : Spent b n w)
include hit h

theorem finalize_ends {f : Finalizer S} (hf : f.Due it.program b) :
    ((it.host (it.closeScope (d + 1))).finalize (it.interpretOn (d + 1)) f w).1 ≠
      .error .exhausted := by
  cases f with
  | cleanup c =>
    have hquiet : (it.program.cleanup c).Quiet := hit.tidy c
    exact ((it.host _).perform_firm (it.closeScope d) hquiet).ends w
  | release build context b' =>
    obtain rfl := hf.budget build context b' rfl
    have hquiet : (it.program.building build).Quiet := Program.Descends.first hf.quiet
    have hbuild := (it.host (it.closeScope (d + 1))).build_firm (it.closeScope d) hquiet
    rcases heq : (it.host (it.closeScope (d + 1))).finalize (it.interpretOn (d + 1))
      (.release build context b') w with ⟨x, w'⟩
    rintro rfl
    rcases Machine.bind_eq heq with ⟨y, w₁, hy, heq⟩ | ⟨e, he, ⟨⟩⟩
    · cases y with
      | error defect => cases heq
      | ok node =>
        -- building counts no step, so the first step of the release effect exceeds the limit
        have hspent : Spent b' n w₁ := h.ages (build_along hit.registry b' build hy nofun).1
        obtain ⟨o, w₂, hrun⟩ := interpretOn_spent (d := d) hit hspent node context
        rcases Machine.bind_eq heq with ⟨o, w₃, -, heq⟩ | ⟨e, he, ⟨⟩⟩
        · cases heq
        · cases hrun.symm.trans he
    · exact hbuild.ends w (congrArg Prod.fst he)

theorem invoke_ends {s : ScopeId} {f : Finalizer S} (hf : f.Due it.program b) :
    ((it.host (it.closeScope (d + 1))).invoke (it.interpretOn (d + 1)) s f w).1 ≠
      .error .exhausted := by
  rcases heq : (it.host (it.closeScope (d + 1))).invoke (it.interpretOn (d + 1)) s f w with ⟨x, w'⟩
  rintro rfl
  rw [Host.invoke, Machine.bind_ok (Machine.modify_apply _ w)] at heq
  have hspent : Spent b n (w.record (.invoked s f)) := h.of_budget rfl
  rcases Machine.bind_eq heq with ⟨y, w₁, -, heq⟩ | ⟨e, he, ⟨⟩⟩
  · cases heq
  · rw [Machine.guard_apply] at he
    obtain ⟨hguarded, rfl⟩ := Prod.mk.inj he
    exact finalize_ends hit hspent hf (Machine.guarded_eq_exhausted.1 hguarded)

theorem invokeAll_ends {s : ScopeId} {fs : List (Finalizer S)}
    (hfs : ∀ f ∈ fs, f.Due it.program b) :
    ((it.host (it.closeScope (d + 1))).invokeAll (it.interpretOn (d + 1)) s fs w).1 ≠
      .error .exhausted := by
  induction fs generalizing w with
  | nil => nofun
  | cons f fs ih =>
    obtain ⟨hf, hfs⟩ := List.forall_mem_cons.1 hfs
    rw [Host.invokeAll_cons]
    rcases heq : (it.host (it.closeScope (d + 1))).invoke (it.interpretOn (d + 1)) s f w with
      ⟨e | o, w₁⟩
    · rw [Machine.bind_error heq]
      rintro ⟨⟩
      exact invoke_ends hit h hf (congrArg Prod.fst heq)
    · have hspent : Spent b n w₁ := h.ages (invoke_along hit.registry b s f heq nofun).1
      rw [Machine.bind_ok heq]
      rcases hrest :
          (it.host (it.closeScope (d + 1))).invokeAll (it.interpretOn (d + 1)) s fs w₁ with
        ⟨e | causes, w₂⟩
      · rw [Machine.bind_error hrest]
        rintro ⟨⟩
        exact ih hspent hfs (congrArg Prod.fst hrest)
      · rw [Machine.bind_ok hrest]
        nofun

variable {stuck : Prop}

/-- Invoking what is due. -/
theorem invokeAll_doomed {s : ScopeId} {fs : List (Finalizer S)}
    (hfs : ∀ f ∈ fs, f.Due it.program b) (hd : Ample n fuel → 1 ≤ d) :
    Doomed b n fuel stuck (fun _ ↦ True)
      ((it.host (it.closeScope d)).invokeAll (it.interpretOn d) s fs w) := by
  refine .of_along (invokeAll_along (persistent_ages b) hit.registry d s fs) h (fun hample ↦ ?_)
    fun _ _ ↦ trivial
  cases d with
  | zero => exact absurd (hd hample) (by omega)
  | succ d => exact invokeAll_ends hit h hfs

/-- Closing a scope of the run. -/
theorem closeScope_doomed {s : ScopeId} (hs : Held it.program b w s)
    (hd : Ample n fuel → 2 ≤ d) :
    Doomed b n fuel stuck (fun _ ↦ True) (it.closeScope d s w) := by
  refine .of_along (closeScope_along (persistent_ages b) hit.registry d s) h (fun hample ↦ ?_)
    fun _ _ ↦ trivial
  have hd := hd hample
  obtain ⟨d, rfl⟩ : ∃ d', d = d' + 2 := ⟨d - 2, by omega⟩
  have hshut : Spent b n (w.shutScope s) := h.of_budget rfl
  rcases heq : it.closeScope (d + 2) s w with ⟨x, w'⟩
  rcases Host.shut_eq heq with ⟨-, rfl, -⟩ | ⟨-, y, w₁, hy, rfl, -⟩
  · nofun
  · rcases y with e | causes
    · rintro ⟨⟩
      exact invokeAll_ends hit hshut hs.due (congrArg Prod.fst hy)
    · nofun

end

/-- An abort fails with the defect of the limit, unless a release effect goes on for ever. -/
theorem abort_doomed (hit : it.Limited n) {a : Activity S} {m : Moment S} (hm : it.Counts b d a w m)
    (hexceeds : m.Exceeds b n) (hdepth : Ample n fuel → fuel ≤ m.depth + n) :
    Doomed b n fuel (it.Stuck b n fuel d a w) (Outcome.Carries (.stepLimitExceeded n))
      ((it.abort (it.closeScope m.depth) n m.state >>= fun cause ↦
        pure (.error cause : Outcome S.Error Value))
          ((m.world.modifyBudget b Budget.tick).record (.exceeded b n))) := by
  have habort : Along (World.Ages b) False (it.abort (it.closeScope m.depth) n m.state)
      fun _ ↦ True :=
    abort_along (persistent_ages b).toDrift (persistent_ages b).abort
      (closeScope_along (persistent_ages b) hit.registry m.depth) n m.state
  have hspent : Spent b n ((m.world.modifyBudget b Budget.tick).record (.exceeded b n)) :=
    (Spent.of_exceeds hexceeds).of_budget rfl
  have hcause : Answers (it.abort (it.closeScope m.depth) n m.state)
      fun cause ↦ .defect (.stepLimitExceeded n) ∈ cause.flatten := by
    refine .after fun _ ↦ .bind (Host.abort_answers _ _) fun cause hsub ↦ .after fun _ ↦ .pure ?_
    exact hsub (by simp [Cause.flatten])
  rcases heq : it.abort (it.closeScope m.depth) n m.state
    ((m.world.modifyBudget b Budget.tick).record (.exceeded b n)) with ⟨(p | _) | cause, w'⟩
  · exact ((habort heq (by simp)).2.2 p rfl).elim
  · rw [Machine.bind_error heq]
    refine ⟨by simp, ?_⟩
    rintro _ ⟨⟩
    exact ⟨rfl, fun hample ↦ ⟨m, w', hm, hexceeds, hdepth hample, heq⟩⟩
  · rw [Machine.bind_ok heq]
    exact .pure (hcause heq) (hspent.ages (habort heq (by simp)).1)

/-! ### Acting -/

/-- The move of a failure that meets a frame. -/
theorem move_failure {close : Closer S} {f : Frame S} {rest : List (Frame S)}
    {cause : Cause S.Error} (hs : st.stack = f :: rest) (hc : st.control = .failure cause) :
    it.move close st =
      (it.host close).fall f cause { st with stack := rest, control := .pending } >>= fun x ↦
        pure (x.landing rest) := by
  obtain ⟨context, stack, scope, control, b⟩ := st
  cases hs
  cases hc
  rfl

/-- The move of an outcome that leaves a region. -/
theorem move_leaves_region {close : Closer S} {s parent : ScopeId} {rest : List (Frame S)}
    {o : Outcome S.Error Value} (hs : st.stack = .closeScope s parent :: rest)
    (hc : st.control = .ofOutcome o) :
    it.move close st = close s >>= fun r ↦
      pure ⟨st.context, rest, parent, .ofOutcome (o.merge r), st.budget⟩ := by
  obtain ⟨context, stack, scope, control, b⟩ := st
  cases hs
  cases hc
  exact move_closeScope context rest s parent scope o b

namespace Inside

/-- An outcome has left a region. -/
theorem leaves (h : it.Inside b d root st w) {s parent : ScopeId} {rest : List (Frame S)}
    {o : Outcome S.Error Value} {r : Outcome S.Error Unit}
    (hs : st.stack = .closeScope s parent :: rest) (hc : st.control = .ofOutcome o)
    (hr : it.closeScope d s w = (.ok r, w')) :
    it.Inside b d root ⟨st.context, rest, parent, .ofOutcome (o.merge r), st.budget⟩ w' := by
  refine h.trans (.one ?_)
  rw [move_leaves_region hs hc, Machine.bind_ok hr]
  rfl

/-- A failure has fallen on a frame. -/
theorem falls (h : it.Inside b d root st w) {f : Frame S} {rest : List (Frame S)}
    {cause : Cause S.Error} {x : Fall S} (hs : st.stack = f :: rest)
    (hc : st.control = .failure cause)
    (hx : (it.host (it.closeScope d)).fall f cause
        { st with stack := rest, control := .pending } w =
      (.ok x, w')) : it.Inside b d root (x.landing rest) w' := by
  refine h.trans (.one ?_)
  rw [move_failure hs hc, Machine.bind_ok hx]
  rfl

end Inside

section

variable (hit : it.Limited n) (close : Closer S)
include hit

/-- A failure falls on a frame of a quiet effect that closes no scope, whatever the limit. -/
theorem fall_calm {f : Frame S} {rest : List (Frame S)} (hst : st.Sound it.program.Quiet)
    (hs : st.stack = f :: rest) (hclose : ∀ s parent, f ≠ .closeScope s parent)
    (cause : Cause S.Error) :
    Along World.Calm False ((it.host close).fall f cause
      { st with stack := rest, control := .pending }) fun _ ↦ True := by
  have hstack := hst.stack
  rw [hs] at hstack
  obtain ⟨hf, hrest⟩ := List.forall_mem_cons.1 hstack
  have D := Discipline.calm (h := it.host close) hit.quiet
  exact (D.fall _ hf hclose cause hrest).mono id (fun hn ↦ hn hit.steady) fun _ _ ↦ trivial

theorem fall_same {f : Frame S} {rest : List (Frame S)} (hst : st.Sound it.program.Quiet)
    (hs : st.stack = f :: rest) (hclose : ∀ s parent, f ≠ .closeScope s parent)
    (cause : Cause S.Error) (close' : Closer S) :
    Firm ((it.host close).fall f cause { st with stack := rest, control := .pending })
      ((it.unlimited.host close').fall f cause { st with stack := rest, control := .pending }) := by
  have hf : f.From it.program.Quiet := hst.stack f (by rw [hs]; exact List.mem_cons_self)
  exact (it.host close).fall_firm close' hit.quiet _ hf hclose cause

end

/-- A round goes on, or it settles with a failure that has the defect of the limit. -/
def Progress.Goes (n : Nat) : Progress S → Prop
  | .running _ => True
  | .settled o => o.Carries (.stepLimitExceeded n)

/-- A failure with the defect of the limit falls down the stack on a spent budget. Whether a frame
recovers or none does, the run is doomed. -/
theorem advance_doomed (hit : it.Limited n) {stuck : Prop} (hd : Ample n fuel → 2 ≤ d)
    {stack : List (Frame S)} (hs : st.stack = stack) {cause : Cause S.Error}
    (hc : st.control = .failure cause) (hcause : .defect (.stepLimitExceeded n) ∈ cause.flatten)
    (hin : it.Inside b d root st w) (hw : Spent b n w) :
    Doomed b n fuel stuck (Progress.Goes n) (it.advance (it.closeScope d) st w) := by
  induction stack generalizing st cause w with
  | nil =>
    obtain ⟨context, _, scope, _, b'⟩ := st
    cases hs
    cases hc
    exact .pure hcause hw
  | cons f rest ih =>
    by_cases hclose : ∃ s parent, f = .closeScope s parent
    · obtain ⟨s, parent, rfl⟩ := hclose
      have hc' : st.control = .ofOutcome (.error cause) := hc
      rw [advance_closeScope hs hc']
      have hheld : Held it.program b w s := hin.held hit.tame (by rw [hs]; exact List.mem_cons_self)
      refine .bind (closeScope_doomed hit hw hheld hd) fun r w₁ hr _ hw₁ ↦ ?_
      have hmerge : Outcome.Carries (.stepLimitExceeded n)
          (Outcome.merge (.error cause : Outcome S.Error Value) r) := .merge (.inl hcause)
      obtain ⟨c, hc₁⟩ : ∃ c, Outcome.merge (.error cause : Outcome S.Error Value) r = .error c := by
        rcases r with failures | ⟨⟩
        · exact ⟨cause.combine failures, rfl⟩
        · exact ⟨cause, rfl⟩
      rw [hc₁] at hmerge
      refine ih rfl ?_ hmerge (hin.leaves hs hc' hr) hw₁
      rw [hc₁]
      rfl
    · have hclose : ∀ s parent, f ≠ .closeScope s parent := fun s parent hf ↦
        hclose ⟨s, parent, hf⟩
      have hcalm := fall_calm hit (it.closeScope d) (hin.sound hit.tame) hs hclose cause
      have hsame := fall_same hit (it.closeScope d) (hin.sound hit.tame) hs hclose cause
        (it.closeScope d)
      have hages : ∀ {w w' : World S}, w.Calm w' → w.Ages b w' := fun h ↦ .of_budget (h.budget b)
      have hfall : Doomed b n fuel stuck (fun _ ↦ True) _ :=
        .of_along (hcalm.mono hages id fun _ ↦ id) hw (fun _ ↦ hsame.ends w) fun _ ↦ id
      rw [advance_failure hs hc]
      refine hfall.bind fun x w₁ hx _ hw₁ ↦ ?_
      cases x with
      | caught st' => exact .pure trivial hw₁
      | on c st' =>
        have hkeeps := Host.fall_answers _ _ _ hx c st' rfl hcause
        exact ih rfl rfl hkeeps (hin.falls hs hc hx) hw₁

end Interpreter

end EffectMachine
