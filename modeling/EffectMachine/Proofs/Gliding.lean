import EffectMachine.Proofs.Costs

/-!
# The machine takes the steps

The loop of the machine, where an effect has a cost. Begun with the effect in hand on whatever
stack, it *glides* (`Interpreter.Glides`) to the state that holds the value on the same stack: it
makes a number of rounds that does not depend on the stack, and none of them begins with a failure
in hand, nor does a round of the release effects that are interpreted when scopes close on the way.

What a task amounts to for the machine is `Interpreter.Does`. The theorem (`Program.Spends.does`)
is an induction on the cost; each case is what one dispatch does, and what one frame does with the
value that it is handed.
-/

namespace EffectMachine

variable {S : Signature}

/-- A finalizer that succeeds. -/
theorem Host.invoke_eq_ok {h : Host S} {release : Releaser S} {s : ScopeId} {f : Finalizer S}
    {w w' : World S} : h.invoke release s f w = (.ok (.ok ()), w') ↔
      ∃ w₁, h.finalize release f (w.record (.invoked s f)) = (.ok (.ok ()), w₁) ∧
        w' = w₁.record (.ended s f (.ok ())) := by
  rw [Host.invoke, Machine.bind_ok (Machine.modify_apply _ w), Machine.bind_apply,
    Machine.guard_apply]
  rcases h.finalize release f (w.record (.invoked s f)) with ⟨x, w₁⟩
  constructor
  · intro heq
    rcases x with (p | _) | (cause | ⟨⟩) <;> cases heq
    exact ⟨w₁, rfl, rfl⟩
  · rintro ⟨w₂, heq, rfl⟩
    cases heq
    rfl

namespace Host

variable {h : Host S} (hs : h.strategy = .sync) (context : Context) (stack : List (Frame S))
  (scope : ScopeId) (b : BudgetId) (w : World S)
include hs

/-- Where branches are put off, a race begins with the first one. -/
theorem onRace_sync (first : Node S) (rest : List (Node S)) :
    Handler.onRace h (.race (first :: rest)) ⟨context, stack, scope, .pending, b⟩ w =
      (.ok ⟨context, .race (deferredForks context (w.forks + 1) rest) [] :: stack, scope,
        .effect first, b⟩, w.forked (rest.length + 1)) := by
  show (h.forkAll context (first :: rest) >>= _) w = _
  rw [forkAll_sync _ hs]
  rfl

/-- Branches that run in parallel are put off first. -/
theorem onParallel_sync (nodes : List (Node S))
    (collect : List Value → Action S (Except Defect Value)) :
    Handler.onParallel h (.parallel nodes collect) ⟨context, stack, scope, .pending, b⟩ w =
      h.nextParallel collect (deferredForks context w.forks nodes) []
        ⟨context, stack, scope, .pending, b⟩ (w.forked nodes.length) := by
  show (h.forkAll context nodes >>= _) w = _
  rw [forkAll_sync _ hs]
  rfl

end Host

namespace Interpreter

variable {it : Interpreter S} {b : BudgetId} {d : Nat} {st st' st'' : State S} {w w' w'' : World S}

/-! ### Moments without a failure -/

/-- No round of this part of a run begins with a failure in hand. -/
def Unfailing (it : Interpreter S) (b : BudgetId) (d : Nat) (a : Activity S) (w : World S) : Prop :=
  ∀ m, it.Counts b d a w m → ∀ cause, m.state.control ≠ .failure cause

/-- What a run comes to from a moment of it, it comes to. -/
theorem Counts.trans {a : Activity S} {m m' : Moment S} (h : it.Counts b d a w m)
    (h' : it.Counts b m.depth (.looping m.state) m.world m') : it.Counts b d a w m' := by
  induction h with
  | here => exact h'
  | next hs _ ih => exact .next hs (ih h')
  | within ht _ ih => exact .within ht (ih h')
  | falls hc hs hf _ ih => exact .falls hc hs hf (ih h')
  | leaves hs hc _ ih => exact .leaves hs hc (ih h')
  | closes hs _ ih => exact .closes hs (ih h')
  | invoked hi _ ih => exact .invoked hi (ih h')
  | releases hb _ ih => exact .releases hb (ih h')
  | body _ ih => exact .body (ih h')
  | root hl _ ih => exact .root hl (ih h')

/-! ### Gliding -/

/-- In a number of rounds the loop comes from one state to another, without a failure in hand. -/
structure Glides (it : Interpreter S) (b : BudgetId) (d r : Nat) (st : State S) (w : World S)
    (st' : State S) (w' : World S) : Prop where
  rounds : ∀ n, it.rounds (it.closeScope d) b (r + n) st w = it.rounds (it.closeScope d) b n st' w'
  counted : ∀ m, it.Counts b d (.looping st') w' m → it.Counts b d (.looping st) w m
  unfailing : it.Unfailing b d (.looping st') w' → it.Unfailing b d (.looping st) w

namespace Glides

variable {r r' : Nat}

theorem refl (st : State S) (w : World S) : it.Glides b d 0 st w st w where
  rounds n := by rw [Nat.zero_add]
  counted _ := id
  unfailing := id

theorem trans (h : it.Glides b d r st w st' w') (h' : it.Glides b d r' st' w' st'' w'') :
    it.Glides b d (r + r') st w st'' w'' where
  rounds n := by rw [Nat.add_assoc, h.rounds, h'.rounds]
  counted m hm := h.counted m (h'.counted m hm)
  unfailing hu := h.unfailing (h'.unfailing hu)

end Glides

section

variable (hit : it.IsPlain)
include hit

theorem IsPlain.tick (b : BudgetId) (w : World S) : it.tick b w = (.ok none, w.ticks b 1) := by
  rw [tick_eq, hit.stepLimit]
  rfl

/-- Without a limit a round counts its step and acts. -/
theorem step_plain (close : Closer S) (st : State S) (w : World S) :
    it.step close b st w = it.advance close st (w.ticks b 1) :=
  step_within (hit.tick b w) st

/-- One round. -/
theorem Glides.one
    (hmove : it.advance (it.closeScope d) st (w.ticks b 1) = (.ok (.running st'), w'))
    (hc : ∀ cause, st.control ≠ .failure cause)
    (hclose : ∀ s parent rest o, st.stack = .closeScope s parent :: rest →
      st.control = .ofOutcome o → it.Unfailing b d (.closing s) (w.ticks b 1)) :
    it.Glides b d 1 st w st' w' where
  rounds n := by
    rw [Nat.add_comm 1 n]
    show it.drive (it.closeScope d) b (n + 1) st w = _
    rw [drive, step_plain hit, hmove]
    rfl
  counted m hm := by
    refine .next ?_ hm
    rw [step_plain hit, hmove]
  unfailing hu m hm := by
    cases hm with
    | here => exact hc
    | next h h' =>
      rw [step_plain hit, hmove] at h
      cases h
      exact hu m h'
    | within h h' =>
      cases (hit.tick b w).symm.trans h
      cases h' with
      | falls hfailure => exact absurd hfailure (hc _)
      | leaves hs ho h => exact hclose _ _ _ _ hs ho m h

/-- An effect in hand is dispatched. -/
theorem glides_effect {context : Context} {stack : List (Frame S)} {scope : ScopeId} {node : Node S}
    (h : Handler.standard node.tag (it.host (it.closeScope d)) node
      ⟨context, stack, scope, .pending, b⟩ (w.ticks b 1) = (.ok st', w'))
    (hst' : st'.control.isPending = false) :
    it.Glides b d 1 ⟨context, stack, scope, .effect node, b⟩ w st' w' := by
  have hdispatch : it.dispatch (it.closeScope d) node ⟨context, stack, scope, .pending, b⟩
      (w.ticks b 1) = (.ok st', w') := by
    rw [dispatch, hit.registry, Registry.dispatch_standard, Machine.bind_ok h, hst']
    rfl
  refine .one hit (Machine.bind_ok hdispatch _) ?_ fun _ _ _ o _ ho ↦ by cases o <;> cases ho
  rintro cause ⟨⟩

/-- A value in hand goes to the newest frame. -/
theorem glides_value {context : Context} {stack : List (Frame S)} {scope : ScopeId} {f : Frame S}
    {v : Value} (hf : ∀ s parent, f ≠ .closeScope s parent)
    (h : (it.host (it.closeScope d)).resume f v ⟨context, stack, scope, .pending, b⟩ (w.ticks b 1) =
      (.ok st', w')) :
    it.Glides b d 1 ⟨context, f :: stack, scope, .value v, b⟩ w st' w' :=
  .one hit (Machine.bind_ok h _) nofun fun _ _ _ _ hs _ ↦ absurd (List.cons.inj hs).1 (hf _ _)

/-- A value in hand leaves a region. -/
theorem glides_leave {context : Context} {stack : List (Frame S)} {s parent scope : ScopeId}
    {v : Value} (h : it.closeScope d s (w.ticks b 1) = (.ok (.ok ()), w'))
    (hu : it.Unfailing b d (.closing s) (w.ticks b 1)) :
    it.Glides b d 1 ⟨context, .closeScope s parent :: stack, scope, .value v, b⟩ w
      ⟨context, stack, parent, .value v, b⟩ w' := by
  refine .one hit ?_ nofun fun _ _ _ _ hs _ ↦ ?_
  · rw [advance_closeScope (o := .ok v) rfl rfl, Machine.bind_ok h]
    rfl
  · cases hs
    exact hu

end

/-! ### What a task amounts to -/

/-- The machine does the task without a failure in hand, in a number of rounds where it is a matter
of rounds. -/
def Does (it : Interpreter S) (b : BudgetId) (d r : Nat) :
    Task S → World S → List Value → World S → Prop
  | .effect context scope node, w, vs, w' => ∀ v, vs = [v] → ∀ stack,
    it.Glides b d r ⟨context, stack, scope, .effect node, b⟩ w
      ⟨context, stack, scope, .value v, b⟩ w'
  | .branches context scope nodes, w, vs, w' => ∀ stack collect i collected st₁ w₁,
    -- if collecting all values leads to a state, the branches lead there
    (it.host (it.closeScope d)).nextParallel collect [] (vs.reverse ++ collected)
        ⟨context, stack, scope, .pending, b⟩ w' = (.ok st₁, w₁) →
      ∃ st₀ w₀, (it.host (it.closeScope d)).nextParallel collect (deferredForks context i nodes)
          collected ⟨context, stack, scope, .pending, b⟩ w = (.ok st₀, w₀) ∧
        it.Glides b d r st₀ w₀ st₁ w₁
  | .invoking s fs, w, _, w' =>
    (it.host (it.closeScope d)).invokeAll (it.interpretOn d) s fs w = (.ok [], w') ∧
      it.Unfailing b d (.invoking s fs) w
  | .closing s, w, _, w' => it.closeScope d s w = (.ok (.ok ()), w') ∧
    it.Unfailing b d (.closing s) w
  | .running node context, w, vs, w' => ∀ v, vs = [v] →
    it.interpretOn d node context b w = (.ok (.ok v), w') ∧
      it.Unfailing b d (.running node context) w

namespace Does

variable (hit : it.IsPlain) {context : Context} {scope : ScopeId} {r r' : Nat} {w₁ w₂ : World S}
  {source n : Node S} {u v : Value} {vs : List Value}

section

include hit

/-! ### Effects without parts -/

theorem pure {make : Action S Value} (h : make.Gives (w.ticks b 1) v w') :
    it.Does b d 1 (.effect context scope (.pure make)) w [v] w' := by
  rintro _ ⟨⟩ stack
  exact glides_effect hit (Machine.bind_ok (h.attempt _) _) rfl

theorem service {key : Key} {s : Service} (h : context.find? key = some s) :
    it.Does b d 1 (.effect context scope (.service key)) w [⟨.service, s⟩] (w.ticks b 1) := by
  rintro _ ⟨⟩ stack
  refine glides_effect hit ?_ rfl
  simp only [Node.tag, Handler.standard, Handler.onService, h]
  rfl

theorem sleep {t : Duration} : it.Does b d 1 (.effect context scope (.sleep t)) w [.unit]
    ((w.ticks b 1).modifyClock fun c ↦ c.sleep t) := by
  rintro _ ⟨⟩ stack
  refine glides_effect hit ?_ rfl
  simp only [Node.tag, Handler.standard, Handler.onSleep, host, hit.strategy, Strategy.sync]
  rfl

theorem async {start : SlotId → Action S Unit}
    (h : (start (w.ticks b 1).newSlot.1).Gives (w.ticks b 1).newSlot.2 () w')
    (hv : (w'.takeOutcome (w.ticks b 1).newSlot.1).1 = some (.ok v)) :
    it.Does b d 1 (.effect context scope (.async start)) w [v]
      (w'.takeOutcome (w.ticks b 1).newSlot.1).2 := by
  rintro _ ⟨⟩ stack
  have hawait : (it.host (it.closeScope d)).perform (it.strategy.await (w.ticks b 1).newSlot.1) w' =
      (.ok (.ok v), (w'.takeOutcome (w.ticks b 1).newSlot.1).2) := by
    simp only [hit.strategy, Strategy.sync, Strategy.takeOrFail, Host.perform_take]
    rw [Machine.bind_ok (Machine.modifyGet_apply _ _), hv]
    rfl
  refine glides_effect hit ?_ rfl
  show (Machine.modifyGet World.newSlot >>= _) _ = _
  rw [Machine.bind_ok (Machine.modifyGet_apply _ _), Machine.bind_ok (h.attempt _)]
  exact Machine.bind_ok hawait _

theorem finalizer {release : Action S (Plan S)}
    (h : (w.ticks b 1).addFinalizer scope (.release release context b) = (.ok (), w')) :
    it.Does b d 1 (.effect context scope (.finalizer release)) w [.unit] w' := by
  rintro _ ⟨⟩ stack
  have hoffer : Machine.modifyGet (fun w ↦ w.addFinalizer scope (.release release context b))
      (w.ticks b 1) = (.ok (.ok ()), w') := by
    rw [Machine.modifyGet_apply, h]
  exact glides_effect hit (Machine.bind_ok hoffer _) rfl

/-! ### Effects that build or continue -/

theorem suspend {thunk : Action S (Plan S)}
    (h : (it.program.building thunk).Gives (w.ticks b 1) n w₁)
    (hn : it.Does b d r (.effect context scope n) w₁ [v] w') :
    it.Does b d (1 + r) (.effect context scope (.suspend thunk)) w [v] w' := by
  rintro _ ⟨⟩ stack
  exact (glides_effect hit (Machine.bind_ok (Action.Gives.build h) _) rfl).trans (hn v rfl stack)

/-- The source of a bind hands its value to the continuation, whatever that answers. -/
theorem glides_continue {next : Value → Action S (Step S)} {c : Control S}
    (hs : it.Does b d r (.effect context scope source) (w.ticks b 1) [u] w₁)
    (h : (it.program.continuing (next u)).Gives (w₁.ticks b 1) c w₂) (stack : List (Frame S)) :
    it.Glides b d (1 + r + 1) ⟨context, stack, scope, .effect (.bind source next), b⟩ w
      ⟨context, stack, scope, c, b⟩ w₂ := by
  have hdispatch : it.Glides b d 1 ⟨context, stack, scope, .effect (.bind source next), b⟩ w
      ⟨context, .resume next :: stack, scope, .effect source, b⟩ (w.ticks b 1) :=
    glides_effect hit rfl rfl
  exact (hdispatch.trans (hs u rfl _)).trans
    (glides_value hit nofun (Machine.bind_ok (h.attempt _) _))

theorem bind {next : Value → Action S (Step S)}
    (hs : it.Does b d r (.effect context scope source) (w.ticks b 1) [u] w₁)
    (h : (it.program.continuing (next u)).Gives (w₁.ticks b 1) (.value v) w') :
    it.Does b d (1 + r + 1) (.effect context scope (.bind source next)) w [v] w' := by
  rintro _ ⟨⟩ stack
  exact glides_continue hit hs h stack

theorem bindEffect {next : Value → Action S (Step S)}
    (hs : it.Does b d r (.effect context scope source) (w.ticks b 1) [u] w₁)
    (h : (it.program.continuing (next u)).Gives (w₁.ticks b 1) (.effect n) w₂)
    (hn : it.Does b d r' (.effect context scope n) w₂ [v] w') :
    it.Does b d (1 + r + 1 + r') (.effect context scope (.bind source next)) w [v] w' := by
  rintro _ ⟨⟩ stack
  exact (glides_continue hit hs h stack).trans (hn v rfl stack)

/-! ### Effects around a source -/

/-- An effect is dispatched to its source above a frame, which lets the value of the source pass. -/
theorem around {node : Node S} {inner : Context} (f : Frame S)
    (hf : ∀ s parent, f ≠ .closeScope s parent)
    (hdispatch : ∀ stack, Handler.standard node.tag (it.host (it.closeScope d)) node
      ⟨context, stack, scope, .pending, b⟩ (w.ticks b 1) =
        (.ok ⟨inner, f :: stack, scope, .effect source, b⟩, w₁))
    (hs : it.Does b d r (.effect inner scope source) w₁ [v] w₂)
    (hresume : ∀ stack, (it.host (it.closeScope d)).resume f v ⟨inner, stack, scope, .pending, b⟩
      (w₂.ticks b 1) = (.ok ⟨context, stack, scope, .value v, b⟩, w₂.ticks b 1)) :
    it.Does b d (1 + r + 1) (.effect context scope node) w [v] (w₂.ticks b 1) := by
  rintro _ ⟨⟩ stack
  exact ((glides_effect hit (hdispatch stack) rfl).trans (hs v rfl _)).trans
    (glides_value hit hf (hresume stack))

theorem provide {inner : Context} {layer : Layer S}
    (h : (layer.build context).Gives (w.ticks b 1) (.ok inner) w₁)
    (hs : it.Does b d r (.effect inner scope source) w₁ [v] w') :
    it.Does b d (1 + r + 1) (.effect context scope (.provide layer source)) w [v] (w'.ticks b 1) :=
  around hit (.restoreContext context) nofun (fun _ ↦ Machine.bind_ok (h.attempt _) _) hs
    fun _ ↦ rfl

theorem recover {accepts : Cause S.Error → Action S Bool}
    {handler : Cause S.Error → Action S (Plan S)}
    (hs : it.Does b d r (.effect context scope source) (w.ticks b 1) [v] w') :
    it.Does b d (1 + r + 1) (.effect context scope (.recover source accepts handler)) w [v]
      (w'.ticks b 1) :=
  around hit (.recover accepts handler) nofun (fun _ ↦ rfl) hs fun _ ↦ rfl

theorem retry {schedule : Schedule S}
    (hs : it.Does b d r (.effect context scope source) (w.ticks b 1) [v] w') :
    it.Does b d (1 + r + 1) (.effect context scope (.retry source schedule)) w [v] (w'.ticks b 1) :=
  around hit (.retry ⟨source, schedule, schedule.source, 0, w.clock.nanos⟩) nofun (fun _ ↦ rfl) hs
    fun _ ↦ rfl

theorem timeout {limit : Duration}
    (hs : it.Does b d r (.effect context scope source) (w.ticks b 1) [v] w')
    (h : ¬limit < w'.clock.since w.clock.nanos) :
    it.Does b d (1 + r + 1) (.effect context scope (.timeout source limit)) w [v]
      (w'.ticks b 1) := by
  refine around hit (.timeout limit w.clock.nanos) nofun (fun _ ↦ rfl) hs fun stack ↦ ?_
  have hpass : ∀ st : State S,
      (if limit < w'.clock.since w.clock.nanos then st.fail (.timeout limit) else st.succeed v) =
        st.succeed v := fun _ ↦ if_neg h
  exact congrArg (fun st ↦ (Except.ok st, w'.ticks b 1)) (hpass _)

theorem race {first : Node S} {rest : List (Node S)}
    (hs : it.Does b d r (.effect context scope first) ((w.ticks b 1).forked (rest.length + 1)) [v]
      w') :
    it.Does b d (1 + r + 1) (.effect context scope (.race (first :: rest))) w [v]
      (w'.ticks b 1) :=
  around hit (.race (deferredForks context (w.forks + 1) rest) []) nofun
    (fun stack ↦ Host.onRace_sync hit.strategy context stack scope b _ first rest) hs fun _ ↦ rfl

/-! ### Branches -/

theorem parallel {nodes : List (Node S)} {collect : List Value → Action S (Except Defect Value)}
    (hs : it.Does b d r (.branches context scope nodes) ((w.ticks b 1).forked nodes.length) vs w₁)
    (h : (collect vs).Gives w₁ (.ok v) w') :
    it.Does b d (1 + r) (.effect context scope (.parallel nodes collect)) w [v] w' := by
  rintro _ ⟨⟩ stack
  have hcollect : (it.host (it.closeScope d)).nextParallel collect [] (vs.reverse ++ [])
      ⟨context, stack, scope, .pending, b⟩ w₁ = (.ok ⟨context, stack, scope, .value v, b⟩, w') := by
    rw [List.append_nil, Host.nextParallel, List.reverse_reverse]
    exact Machine.bind_ok (h.attempt _) _
  obtain ⟨st₀, w₀, heq, hglides⟩ := hs stack collect w.forks [] _ _ hcollect
  refine (glides_effect hit ?_ (Host.nextParallel_decides _ _ _ _ _ heq)).trans hglides
  exact (Host.onParallel_sync hit.strategy context stack scope b _ nodes collect).trans heq

omit hit in
theorem noBranches : it.Does b d 0 (.branches context scope []) w [] w :=
  fun _ _ _ _ _ _ heq ↦ ⟨_, _, heq, .refl _ _⟩

theorem branch {nodes : List (Node S)} (hn : it.Does b d r (.effect context scope n) w [v] w₁)
    (hs : it.Does b d r' (.branches context scope nodes) (w₁.ticks b 1) vs w') :
    it.Does b d (r + 1 + r') (.branches context scope (n :: nodes)) w (v :: vs) w' := by
  intro stack collect i collected st₁ w₂ heq
  rw [List.reverse_cons, List.append_assoc] at heq
  obtain ⟨st₀, w₀, heq, hglides⟩ := hs stack collect (i + 1) (v :: collected) _ _ heq
  have hvalue : it.Glides b d 1 ⟨context, .parallel (deferredForks context (i + 1) nodes) collected
      collect :: stack, scope, .value v, b⟩ w₁ st₀ w₀ := glides_value hit nofun heq
  exact ⟨_, _, rfl, ((hn v rfl _).trans hvalue).trans hglides⟩

/-! ### Scopes and runs -/

theorem region {body : ScopeId → Action S (Plan S)}
    (h : (it.program.building (body (w.ticks b 1).enterScope.1)).Gives (w.ticks b 1).enterScope.2 n
      w₁)
    (hn : it.Does b d r (.effect context (w.ticks b 1).enterScope.1 n) w₁ [v] w₂)
    (hc : it.Does b d r' (.closing (w.ticks b 1).enterScope.1) (w₂.ticks b 1) [] w') :
    it.Does b d (1 + r + 1) (.effect context scope (.region body)) w [v] w' := by
  rintro _ ⟨⟩ stack
  have hdispatch : it.Glides b d 1 ⟨context, stack, scope, .effect (.region body), b⟩ w
      ⟨context, .closeScope (w.ticks b 1).enterScope.1 scope :: stack, (w.ticks b 1).enterScope.1,
        .effect n, b⟩ w₁ := by
    refine glides_effect hit ?_ rfl
    show (Machine.modifyGet World.enterScope >>= _) _ = _
    rw [Machine.bind_ok (Machine.modifyGet_apply _ _)]
    exact Machine.bind_ok (Action.Gives.build h) _
  exact (hdispatch.trans (hn v rfl _)).trans (glides_leave hit hc.1 hc.2)

/-- A value that meets no frame settles the run. -/
theorem settles (context : Context) (fuel : Nat) :
    it.rounds (it.closeScope d) b (fuel + 1) ⟨context, [], scope, .value v, b⟩ w =
        (.ok (.ok v), w.ticks b 1) ∧
      it.Unfailing b d (.looping ⟨context, [], scope, .value v, b⟩) w := by
  have hstep : it.step (it.closeScope d) b ⟨context, [], scope, .value v, b⟩ w =
      (.ok (.settled (.ok v)), w.ticks b 1) := by
    rw [step_plain hit]
    rfl
  refine ⟨?_, fun m hm ↦ ?_⟩
  · show it.drive _ b (fuel + 1) _ w = _
    rw [drive, hstep]
  · cases hm with
    | here => rintro cause ⟨⟩
    | next h => cases hstep.symm.trans h
    | within _ h =>
      cases h with
      | falls hc => cases hc
      | leaves hs => cases hs

theorem running (hn : it.Does b d r (.effect context w.enterScope.1 n) w.enterScope.2 [v] w₁)
    (hc : it.Does b d r' (.closing w.enterScope.1) (w₁.ticks b 1) [] w') (hd : r + 1 ≤ d) :
    it.Does b d 0 (.running n context) w [v] w' := by
  rintro _ ⟨⟩
  obtain ⟨fuel, hfuel⟩ : ∃ fuel, d = r + (fuel + 1) := ⟨d - r - 1, by omega⟩
  have hglides := hn v rfl []
  obtain ⟨hsettles, hunfailing⟩ := settles hit context fuel
  have hloop : it.rounds (it.closeScope d) b d (.start n context w.enterScope.1 b)
      w.enterScope.2 = (.ok (.ok v), w₁.ticks b 1) := by
    have hrounds := hglides.rounds (fuel + 1)
    rw [← hfuel] at hrounds
    exact hrounds.trans hsettles
  refine ⟨?_, fun m hm ↦ ?_⟩
  · show (it.rounds (it.closeScope d) b d _ >>= fun o ↦ _) _ = _
    rw [Machine.bind_ok hloop, Machine.bind_ok hc.1]
    rfl
  · cases hm with
    | body h => exact hglides.unfailing hunfailing m h
    | root h h' =>
      cases hloop.symm.trans h
      exact hc.2 m h'

end

theorem closing {s : ScopeId} (hs : (w.scope s).closed = false)
    (h : it.Does b d r (.invoking s (w.scope s).finalizers) (w.shutScope s) [] w') :
    it.Does b (d + 1) 0 (.closing s) w [] (w'.record (.closed s)) := by
  obtain ⟨hinvoke, hunfailing⟩ := h
  refine ⟨?_, fun m hm ↦ ?_⟩
  · rcases hshut : it.closeScope (d + 1) s w with ⟨x, w''⟩
    rcases Host.shut_eq hshut with ⟨hclosed, -⟩ | ⟨-, y, w₁, hy, rfl, hw''⟩
    · cases hs.symm.trans hclosed
    · cases hinvoke.symm.trans hy
      rw [hw'' _ rfl]
      rfl
  · cases hm with
    | closes _ h => exact hunfailing m h

theorem noFinalizers {s : ScopeId} : it.Does b d 0 (.invoking s []) w [] w :=
  ⟨rfl, fun _ hm ↦ nomatch hm⟩

/-- Nothing waits on a fresh scope. -/
theorem fresh {s : ScopeId} (hs : w.scope s = .fresh) :
    it.Does b (d + 1) 0 (.closing s) w [] ((w.shutScope s).record (.closed s)) := by
  refine .closing (r := 0) (congrArg Scope.closed hs) ?_
  rw [hs]
  exact .noFinalizers

theorem cleanup {s : ScopeId} {c : S.Cleanup} {fs : List (Finalizer S)}
    (h : (it.program.cleanup c).Gives (w.record (.invoked s (.cleanup c))) (.ok ()) w₁)
    (hfs : it.Does b d r (.invoking s fs) (w₁.record (.ended s (.cleanup c) (.ok ()))) [] w') :
    it.Does b d 0 (.invoking s (.cleanup c :: fs)) w [] w' := by
  obtain ⟨hinvoke, hunfailing⟩ := hfs
  have hfirst : (it.host (it.closeScope d)).invoke (it.interpretOn d) s (.cleanup c) w =
      (.ok (.ok ()), w₁.record (.ended s (.cleanup c) (.ok ()))) :=
    Host.invoke_eq_ok.2 ⟨w₁, h.perform _, rfl⟩
  refine ⟨?_, fun m hm ↦ ?_⟩
  · rw [Host.invokeAll_cons, Machine.bind_ok hfirst, Machine.bind_ok hinvoke]
    rfl
  · cases hm with
    | invoked h h' =>
      cases hfirst.symm.trans h
      exact hunfailing m h'

theorem release {s : ScopeId} {build : Action S (Plan S)} {fs : List (Finalizer S)}
    (h : (it.program.building build).Gives (w.record (.invoked s (.release build context b))) n w₁)
    (hn : it.Does b d r (.running n context) w₁ [v] w₂)
    (hfs : it.Does b d r' (.invoking s fs)
      (w₂.record (.ended s (.release build context b) (.ok ()))) [] w') :
    it.Does b d 0 (.invoking s (.release build context b :: fs)) w [] w' := by
  obtain ⟨hrun, hunfailing⟩ := hn v rfl
  obtain ⟨hinvoke, hunfailing'⟩ := hfs
  have hbuild : (it.host (it.closeScope d)).build build
      (w.record (.invoked s (.release build context b))) = (.ok (.ok n), w₁) := Action.Gives.build h
  have hfinalize : (it.host (it.closeScope d)).finalize (it.interpretOn d)
      (.release build context b) (w.record (.invoked s (.release build context b))) =
        (.ok (.ok ()), w₂) :=
    (Machine.bind_ok hbuild _).trans (Machine.bind_ok hrun _)
  have hfirst := Host.invoke_eq_ok.2 ⟨w₂, hfinalize, rfl⟩
  refine ⟨?_, fun m hm ↦ ?_⟩
  · rw [Host.invokeAll_cons, Machine.bind_ok hfirst, Machine.bind_ok hinvoke]
    rfl
  · cases hm with
    | invoked h h' =>
      cases hfirst.symm.trans h
      exact hunfailing' m h'
    | releases h h' =>
      cases hbuild.symm.trans h
      exact hunfailing m h'

end Does

end Interpreter

/-- **The machine does what has a cost**, whatever the stack is and however deep scopes may close
in each other, if only deep enough. -/
theorem Program.Spends.does {it : Interpreter S} (hit : it.IsPlain) {b : BudgetId} {w w' : World S}
    {t : Task S} {k : Nat} {vs : List Value} (h : it.program.Spends b t w k vs w') :
    ∃ r d₀, ∀ d, d₀ ≤ d → it.Does b d r t w vs w' := by
  induction h with
  | pure h => exact ⟨1, 0, fun d _ ↦ .pure hit h⟩
  | service h => exact ⟨1, 0, fun d _ ↦ .service hit h⟩
  | sleep => exact ⟨1, 0, fun d _ ↦ .sleep hit⟩
  | async h hv => exact ⟨1, 0, fun d _ ↦ .async hit h hv⟩
  | finalizer h => exact ⟨1, 0, fun d _ ↦ .finalizer hit h⟩
  | suspend h _ ih =>
    obtain ⟨r, d₀, ih⟩ := ih
    exact ⟨_, d₀, fun d hd ↦ .suspend hit h (ih d hd)⟩
  | bind _ h ih =>
    obtain ⟨r, d₀, ih⟩ := ih
    exact ⟨_, d₀, fun d hd ↦ .bind hit (ih d hd) h⟩
  | bindEffect _ h _ ih ihn =>
    obtain ⟨r, d₀, ih⟩ := ih
    obtain ⟨r', d₁, ihn⟩ := ihn
    exact ⟨_, d₀ + d₁, fun d hd ↦ .bindEffect hit (ih d (by omega)) h (ihn d (by omega))⟩
  | provide h _ ih =>
    obtain ⟨r, d₀, ih⟩ := ih
    exact ⟨_, d₀, fun d hd ↦ .provide hit h (ih d hd)⟩
  | recover _ ih =>
    obtain ⟨r, d₀, ih⟩ := ih
    exact ⟨_, d₀, fun d hd ↦ .recover hit (ih d hd)⟩
  | retry _ ih =>
    obtain ⟨r, d₀, ih⟩ := ih
    exact ⟨_, d₀, fun d hd ↦ .retry hit (ih d hd)⟩
  | timeout _ h ih =>
    obtain ⟨r, d₀, ih⟩ := ih
    exact ⟨_, d₀, fun d hd ↦ .timeout hit (ih d hd) h⟩
  | race _ ih =>
    obtain ⟨r, d₀, ih⟩ := ih
    exact ⟨_, d₀, fun d hd ↦ .race hit (ih d hd)⟩
  | parallel _ h ih =>
    obtain ⟨r, d₀, ih⟩ := ih
    exact ⟨_, d₀, fun d hd ↦ .parallel hit (ih d hd) h⟩
  | noBranches => exact ⟨0, 0, fun d _ ↦ .noBranches⟩
  | branch _ _ ih ihs =>
    obtain ⟨r, d₀, ih⟩ := ih
    obtain ⟨r', d₁, ihs⟩ := ihs
    exact ⟨_, d₀ + d₁, fun d hd ↦ .branch hit (ih d (by omega)) (ihs d (by omega))⟩
  | region h _ _ ih ihc =>
    obtain ⟨r, d₀, ih⟩ := ih
    obtain ⟨r', d₁, ihc⟩ := ihc
    exact ⟨_, d₀ + d₁, fun d hd ↦ .region hit h (ih d (by omega)) (ihc d (by omega))⟩
  | closing hs _ ih =>
    obtain ⟨r, d₀, ih⟩ := ih
    refine ⟨0, d₀ + 1, fun d hd ↦ ?_⟩
    obtain ⟨d, rfl⟩ := Nat.exists_eq_add_of_le' hd
    exact .closing hs (ih (d + d₀) (Nat.le_add_left d₀ d))
  | noFinalizers => exact ⟨0, 0, fun d _ ↦ .noFinalizers⟩
  | cleanup h _ ih =>
    obtain ⟨r, d₀, ih⟩ := ih
    exact ⟨0, d₀, fun d hd ↦ .cleanup h (ih d hd)⟩
  | release h _ _ ih ihs =>
    obtain ⟨r, d₀, ih⟩ := ih
    obtain ⟨r', d₁, ihs⟩ := ihs
    exact ⟨0, d₀ + d₁, fun d hd ↦ .release h (ih d (by omega)) (ihs d (by omega))⟩
  | running _ _ ih ihc =>
    obtain ⟨r, d₀, ih⟩ := ih
    obtain ⟨r', d₁, ihc⟩ := ihc
    exact ⟨0, d₀ + d₁ + r + 1, fun d hd ↦
      .running hit (ih d (by omega)) (ihc d (by omega)) (by omega)⟩

end EffectMachine
