import EffectMachine.Proofs.Acquisition
import EffectMachine.Proofs.Calls
import EffectMachine.Proofs.Counting
import EffectMachine.Proofs.Custody
import EffectMachine.Proofs.Forward
import Mathlib.Data.List.Permutation

/-!
# What an effect under finalizers comes to

`Effect.ensuring` is a derived form: a region, a finalizer that is registered in it, and the effect.
So an effect with finalizers around it opens a scope for each of them, the one added last outermost,
registers each on its own scope, and is run in the innermost one.

That scope is shared with the effect, which may register finalizers of its own there: they wait in
front of the first finalizer, and so they are invoked before it. The other scopes hold the one
finalizer that they were opened for. When the effect has settled the scopes close from the inside to
the outside, each invokes what waits in it, and the causes of those that fail are added to the
outcome (`Interpreter.Drains`).

## What the theorem rests on

* **The effect does not see the frames**: a run above a stack hands its outcome to the stack
  (`Interpreter.ends_branch`). Nothing is asked of closures here (`Interpreter.settles_ensurings`).
* **The scopes are given to nobody**: the body of the region ignores its argument. Closures that
  address no scope but those that they have been given leave them alone (`World.Spares`), so when
  they close they hold what they should.
-/

namespace EffectMachine

variable {S : Signature} {a : Ty}

/-! ### Outcomes -/

namespace Outcome

variable {ε α : Type}

/-- The parts of the cause of an outcome; a success has none. -/
def parts : Outcome ε α → List (Cause ε)
  | .ok _ => []
  | .error cause => cause.parts

/-- An outcome after finalizers have failed with some causes. -/
def withFailures (o : Outcome ε α) : List (Cause ε) → Outcome ε α
  | [] => o
  | causes => .error (.composite (o.parts ++ causes))

theorem merge_ofFailures (o : Outcome ε α) (causes : List (Cause ε)) :
    o.merge (.ofFailures causes) = o.withFailures causes := by
  rcases causes with _ | ⟨c, cs⟩
  · cases o <;> rfl
  · cases o <;> rfl

/-- Failures are added one after the other or all at once. -/
theorem withFailures_append (o : Outcome ε α) (causes more : List (Cause ε)) :
    (o.withFailures causes).withFailures more = o.withFailures (causes ++ more) := by
  rcases causes with _ | ⟨c, cs⟩
  · rfl
  · rcases more with _ | ⟨d, ds⟩
    · rw [List.append_nil]
      rfl
    · show Except.error (Cause.composite ((o.parts ++ c :: cs) ++ d :: ds)) = _
      rw [List.append_assoc]
      rfl

end Outcome

/-! ### Scopes that are opened for finalizers -/

/-- An effect as a finalizer that is registered in a setting. -/
def Effect.asFinalizer (f : Effect S .unit) (ground : Setting) : Finalizer S :=
  .release (.done f.plan) ground.context ground.budget

/-- The world after a scope has been opened for a finalizer and the finalizer has been registered on
it, which takes four steps. -/
def World.ensure (w : World S) (b : BudgetId) (f : Finalizer S) : World S :=
  (((w.ticks b 1).enterScope.2.ticks b 2).addFinalizer ⟨w.scopes.size⟩ f).2.ticks b 1

/-- The same for several finalizers, the last one first. -/
def World.ensureAll (w : World S) (b : BudgetId) (fs : List (Finalizer S)) : World S :=
  fs.foldr (fun f w ↦ w.ensure b f) w

theorem Effect.plan_foldl_ensuring {x : Effect S a} (hx : x.plan = .node x.node)
    (fs : List (Effect S .unit)) :
    (fs.foldl Effect.ensuring x).plan = .node (fs.foldl Effect.ensuring x).node := by
  induction fs generalizing x with
  | nil => exact hx
  | cons f fs ih => exact ih rfl

/-- What is in force in the innermost of the scopes. -/
def Setting.inside (ground : Setting) (w : World S) : List (Finalizer S) → Setting
  | [] => ground
  | _ :: fs => { ground with scope := ⟨w.scopes.size + fs.length⟩ }

/-- What waits in the scopes, innermost first. They are numbered from `m` on, and in front of the
first finalizer there may be others. -/
def ensuredScopes (m : Nat) (own : List (Finalizer S)) :
    List (Finalizer S) → List (ScopeId × List (Finalizer S))
  | [] => []
  | f :: fs => (⟨m + fs.length⟩, own ++ [f]) :: ensuredScopes m [] fs

theorem ensuredScopes_append (m : Nat) (fs : List (Finalizer S)) (f : Finalizer S) :
    ensuredScopes m [] (fs ++ [f]) = ensuredScopes (m + 1) [] fs ++ [(⟨m⟩, [f])] := by
  induction fs with
  | nil => rfl
  | cons g fs ih =>
    rw [List.cons_append, ensuredScopes, ih, ensuredScopes, List.length_append,
      List.length_singleton, Nat.add_right_comm, ← Nat.add_assoc]
    rfl

/-- The scopes are those that are opened for the finalizers. -/
theorem index_ensuredScopes {m : Nat} {own fs : List (Finalizer S)}
    {q : ScopeId × List (Finalizer S)} (h : q ∈ ensuredScopes m own fs) :
    m ≤ q.1.index ∧ q.1.index < m + fs.length := by
  induction fs generalizing own with
  | nil => cases h
  | cons f fs ih =>
    rw [List.length_cons]
    rcases List.mem_cons.1 h with rfl | h
    · exact ⟨Nat.le_add_right _ _, Nat.lt_succ_self _⟩
    · have hindex := ih h
      omega

theorem nodup_ensuredScopes (m : Nat) (own fs : List (Finalizer S)) :
    ((ensuredScopes m own fs).map Prod.fst).Nodup := by
  induction fs generalizing own with
  | nil => exact .nil
  | cons f fs ih =>
    refine List.nodup_cons.2 ⟨fun h ↦ ?_, ih []⟩
    obtain ⟨q, hq, heq⟩ := List.mem_map.1 h
    have hindex := (index_ensuredScopes hq).2
    rw [heq] at hindex
    exact Nat.lt_irrefl _ hindex

/-- Which scopes they are has nothing to do with what waits in them. -/
theorem map_fst_ensuredScopes (m : Nat) (own fs : List (Finalizer S)) :
    (ensuredScopes m own fs).map Prod.fst = (ensuredScopes m [] fs).map Prod.fst := by
  cases fs <;> rfl

namespace World

variable (w : World S) (b : BudgetId) (f : Finalizer S) (fs : List (Finalizer S))

theorem scopes_ticks (k : Nat) : (w.ticks b k).scopes = w.scopes := by
  induction k with
  | zero => rfl
  | succ k ih => exact ih

theorem scopes_addFinalizer_congr {w w' : World S} (h : w'.scopes = w.scopes) (s : ScopeId)
    (f : Finalizer S) : (w'.addFinalizer s f).2.scopes = (w.addFinalizer s f).2.scopes := by
  simp only [addFinalizer, scope_congr h]
  split
  · exact h
  · show w'.scopes.modify s.index _ = w.scopes.modify s.index _
    rw [h]

/-- Steps apart, a scope is opened and a finalizer is registered on it. -/
theorem scopes_ensure : (w.ensure b f).scopes =
    (w.openScope.2.addFinalizer w.openScope.1 f).2.scopes := by
  have hscopes : ((w.ticks b 1).enterScope.2.ticks b 2).scopes = w.openScope.2.scopes := rfl
  rw [ensure, scopes_ticks]
  exact scopes_addFinalizer_congr hscopes _ f

/-- The scope that has just been opened accepts the finalizer. -/
theorem addFinalizer_ensure :
    ((w.ticks b 1).enterScope.2.ticks b 2).addFinalizer ⟨w.scopes.size⟩ f =
      (.ok (), (((w.ticks b 1).enterScope.2.ticks b 2).addFinalizer ⟨w.scopes.size⟩ f).2) := by
  have hscopes : ((w.ticks b 1).enterScope.2.ticks b 2).scopes = w.openScope.2.scopes := rfl
  have hfresh : ((w.ticks b 1).enterScope.2.ticks b 2).scope ⟨w.scopes.size⟩ = .fresh :=
    (scope_congr hscopes _).trans w.scope_openScope_self
  have hopen : ¬(((w.ticks b 1).enterScope.2.ticks b 2).scope ⟨w.scopes.size⟩).closed = true := by
    rw [hfresh]
    exact Bool.false_ne_true
  rw [addFinalizer, if_neg hopen]

theorem size_ensure : (w.ensure b f).scopes.size = w.scopes.size + 1 := by
  rw [scopes_ensure, size_addFinalizer, size_openScope]

/-- The scope is open, and nothing but its finalizer waits in it. -/
theorem scope_ensure_self : (w.ensure b f).scope ⟨w.scopes.size⟩ = ⟨false, [f]⟩ := by
  have hfresh := w.scope_openScope_self
  have hself := w.openScope.2.scope_addFinalizer_self (by rw [hfresh]; rfl) f
  rw [hfresh] at hself
  rw [scope_congr (w.scopes_ensure b f)]
  exact hself

theorem scope_ensure_of_lt {s : ScopeId} (h : s.index < w.scopes.size) :
    (w.ensure b f).scope s = w.scope s := by
  have hne : s ≠ w.openScope.1 := by
    rintro rfl
    exact Nat.lt_irrefl _ h
  rw [scope_congr (w.scopes_ensure b f), scope_addFinalizer_of_ne _ hne, w.scope_openScope_of_lt h]

theorem size_ensureAll : (w.ensureAll b fs).scopes.size = w.scopes.size + fs.length := by
  induction fs with
  | nil => rfl
  | cons f fs ih =>
    show ((w.ensureAll b fs).ensure b f).scopes.size = _
    rw [size_ensure, ih]
    rfl

theorem state_ensureAll : (w.ensureAll b fs).state = w.state := by
  induction fs with
  | nil => rfl
  | cons f fs ih =>
    exact (state_addFinalizer _ _ f).trans ih

theorem Awaits.ensureAll {F : Finalizer S → Prop} (h : w.Awaits F) (hfs : ∀ f ∈ fs, F f) :
    (w.ensureAll b fs).Awaits F := by
  induction fs with
  | nil => exact h
  | cons f fs ih =>
    obtain ⟨hf, hfs⟩ := List.forall_mem_cons.1 hfs
    exact ((ih hfs).openScope.addFinalizer _ hf).congr (scopes_ensure _ b f)

theorem ensureAll_ensure : (w.ensure b f).ensureAll b fs = w.ensureAll b (fs ++ [f]) := by
  rw [ensureAll, ensureAll, List.foldr_append]
  rfl

/-- When all scopes have been opened, each of them holds its finalizer. -/
theorem scope_ensureAll {s : ScopeId} {gs : List (Finalizer S)}
    (h : (s, gs) ∈ ensuredScopes w.scopes.size [] fs) :
    (w.ensureAll b fs).scope s = ⟨false, gs⟩ := by
  induction fs with
  | nil => cases h
  | cons f fs ih =>
    have hsize := w.size_ensureAll b fs
    show ((w.ensureAll b fs).ensure b f).scope s = _
    rcases List.mem_cons.1 h with heq | h
    · cases heq
      rw [← hsize]
      exact scope_ensure_self _ b f
    · have hscope := ih h
      rw [scope_ensure_of_lt _ b f (lt_size_of_closed_eq_false _ (by rw [hscope]))]
      exact hscope

end World

theorem Setting.inside_ensure {ground : Setting} {w : World S} (b : BudgetId) (s : ScopeId)
    (f g : Finalizer S) (fs : List (Finalizer S)) :
    Setting.inside { ground with scope := s } (w.ensure b f) (g :: fs) =
      ground.inside w (g :: fs ++ [f]) := by
  rw [inside, List.cons_append, inside, w.size_ensure, List.length_append, List.length_singleton,
    Nat.add_right_comm, Nat.add_assoc]

/-! ### Scopes that close one after the other -/

/-- Scopes are closed one after the other, and their failures are added to an outcome. A value takes
a step to pass each of them. -/
def CloseInTurn (close : Closer S) (b : BudgetId) : List ScopeId → Outcome S.Error Value →
    World S → Outcome S.Error Value → World S → Prop
  | [], o₁, w₁, o, w' => o = o₁ ∧ w' = w₁
  | s :: ss, o₁, w₁, o, w' => ∃ r w₂, close s w₁ = (.ok r, w₂) ∧
    CloseInTurn close b ss (o₁.merge r) (w₂.ticks b (if o₁.isOk then 1 else 0)) o w'

/-- The last of the scopes closes after the others. -/
theorem closeInTurn_append {close : Closer S} {b : BudgetId} {ss : List ScopeId} {s : ScopeId}
    {o₁ o : Outcome S.Error Value} {w₁ w' : World S} :
    CloseInTurn close b (ss ++ [s]) o₁ w₁ o w' ↔ ∃ o₂ w₂, CloseInTurn close b ss o₁ w₁ o₂ w₂ ∧
      CloseInTurn close b [s] o₂ w₂ o w' := by
  induction ss generalizing o₁ w₁ with
  | nil =>
    constructor
    · exact fun h ↦ ⟨o₁, w₁, ⟨rfl, rfl⟩, h⟩
    · rintro ⟨_, _, ⟨rfl, rfl⟩, h⟩
      exact h
  | cons s' ss ih =>
    constructor
    · rintro ⟨r, w₂, hclose, h⟩
      obtain ⟨o₃, w₃, hss, hs⟩ := ih.1 h
      exact ⟨o₃, w₃, ⟨r, w₂, hclose, hss⟩, hs⟩
    · rintro ⟨o₃, w₃, ⟨r, w₂, hclose, hss⟩, hs⟩
      exact ⟨r, w₂, hclose, ih.2 ⟨o₃, w₃, hss, hs⟩⟩

namespace Interpreter

variable (it : Interpreter S) (close : Closer S) (b : BudgetId)

/-- An effect is run above nothing, in the setting and the world of its visit. Under a finalizer it
is handed over by a continuation, which builds it if it is referred to by name. -/
def Interprets (ground : Setting) (x : Effect S a) (w : World S) (o : Outcome S.Error Value)
    (w' : World S) : List (Finalizer S) → Prop
  | [] => it.Settles close ground.budget (ground.state [] (.effect x.node)) w o w'
  | _ :: _ => ∃ y w₁, (it.host close).build (.done x.plan) w = (.ok y, w₁) ∧
    it.Settles close ground.budget ((ground.state [] .pending).continueBuilt y) w₁ o w'

variable {it close b} {ground : Setting} {w w' : World S} {o : Outcome S.Error Value}

/-- An effect that is written out need not be built. -/
theorem interprets_node {x : Effect S a} (hx : x.plan = .node x.node) {f : Finalizer S}
    {fs : List (Finalizer S)} : it.Interprets close ground x w o w' (f :: fs) ↔
      it.Settles close ground.budget (ground.state [] (.effect x.node)) w o w' := by
  rw [Interprets, hx]
  constructor
  · rintro ⟨y, w₁, hy, h⟩
    cases hy
    exact h
  · exact fun h ↦ ⟨_, _, rfl, h⟩

section

variable (hr : it.registry = .standard) (hσ : it.strategy.KeepsJobs)
  (hl : it.config.stepLimit = none)
include hl

omit hl in
theorem pursue_eq (n : Nat) (st : State S) :
    it.pursue close b n st = it.advance close st >>= it.proceed close b n := by
  rw [pursue]
  refine bind_congr fun x ↦ ?_
  cases x <;> rfl

/-- An outcome that leaves the region has the scope closed. -/
theorem pursue_closeScope_outcome (s parent : ScopeId) (o₁ : Outcome S.Error Value) :
    (∃ n, it.pursue close ground.budget n
        (ground.state [.closeScope s parent] (.ofOutcome o₁)) w = (.ok o, w')) ↔
      CloseInTurn close ground.budget [s] o₁ w o w' := by
  -- above nothing an outcome settles the run, a value by one more step
  have hsettles : ∀ r w₁, (∃ n, (it.leaving close
      (ground.state [.closeScope s parent] (.ofOutcome o₁)) [] parent o₁ r >>=
        it.proceed close ground.budget n) w₁ = (.ok o, w')) ↔
      o = o₁.merge r ∧ w' = w₁.ticks ground.budget (if o₁.isOk then 1 else 0) := by
    intro r w₁
    cases o₁ with
    | ok v => exact settles_state_nil hl close { ground with scope := parent } _
    | error cause =>
      have hpass : ∀ n, (it.advance close (Setting.state { ground with scope := parent } []
          (.ofOutcome (Outcome.merge (.error cause) r))) >>= it.proceed close ground.budget n) w₁ =
            (.ok (Outcome.merge (.error cause) r), w₁) := fun n ↦ by
        rw [← pursue_eq, pursue_state_nil]
        rfl
      constructor
      · rintro ⟨n, hn⟩
        obtain ⟨ho, rfl⟩ := Prod.mk.inj ((hpass n).symm.trans hn)
        exact ⟨(Except.ok.inj ho).symm, rfl⟩
      · rintro ⟨rfl, rfl⟩
        exact ⟨0, hpass 0⟩
  have hadvance : it.advance close (ground.state [.closeScope s parent] (.ofOutcome o₁)) =
      close s >>= it.leaving close (ground.state [.closeScope s parent] (.ofOutcome o₁)) [] parent
        o₁ := advance_closeScope rfl rfl
  have hpursue : ∀ n, it.pursue close ground.budget n
      (ground.state [.closeScope s parent] (.ofOutcome o₁)) = close s >>= fun r ↦
        it.leaving close (ground.state [.closeScope s parent] (.ofOutcome o₁)) [] parent o₁ r >>=
          it.proceed close ground.budget n := fun n ↦ by
    rw [pursue_eq, hadvance, bind_assoc]
  simp only [hpursue]
  constructor
  · rintro ⟨n, hn⟩
    obtain ⟨r, w₁, hclose, hn⟩ := Machine.bind_eq_ok hn
    exact ⟨r, w₁, hclose, (hsettles r w₁).1 ⟨n, hn⟩⟩
  · rintro ⟨r, w₁, hclose, hafter⟩
    obtain ⟨n, hn⟩ := (hsettles r w₁).2 hafter
    exact ⟨n, (Machine.bind_ok hclose _).trans hn⟩

include hr hσ

/-- Registering a finalizer on the scope in force, which accepts it, and going on. -/
theorem settles_registering (e : Effect S a) (f : Effect S .unit) {v : World S}
    (hv : (w.ticks ground.budget 2).addFinalizer ground.scope (f.asFinalizer ground) =
      (.ok (), v)) :
    it.Settles close ground.budget (ground.state []
        (.effect ((Effect.addFinalizer (.done f)).flatMap (b := a) fun _ ↦ .done e).node)) w o w' ↔
      it.Interprets close ground e (v.ticks ground.budget 1) o w' [f.asFinalizer ground] := by
  have hdispatch : it.dispatch close
      ((Effect.addFinalizer (.done f)).flatMap (b := a) fun _ ↦ .done e).node
      (ground.state [] .pending) = pure (ground.state [.resume (Effect.receive .unit fun _ ↦
        .done (.effect e.plan))] (.effect (.finalizer (.done f.plan)))) :=
    dispatch_decided hr rfl (.pure rfl)
  have hfinalizer : it.dispatch close (.finalizer (.done f.plan)) (ground.state [] .pending) =
      .modifyGet (fun w' ↦ w'.addFinalizer ground.scope (f.asFinalizer ground)) >>= fun x ↦
        pure (ground.state [] (.ofOutcome ((x.map fun _ ↦ .unit).mapError .defect))) :=
    dispatch_decided hr (bind_congr fun x ↦ by cases x <;> rfl)
      (.after fun x ↦ .pure (by cases x <;> rfl))
  have hregistered : ∀ o₁ w₁, it.Settles close ground.budget
      (ground.state [] (.effect (.finalizer (.done f.plan)))) (w.ticks ground.budget 1) o₁ w₁ ↔
        o₁ = .ok .unit ∧ w₁ = v.ticks ground.budget 1 := by
    intro o₁ w₁
    have hoffered : Machine.modifyGet (fun w' ↦ w'.addFinalizer ground.scope
        (f.asFinalizer ground)) (w.ticks ground.budget 2) = (.ok (.ok ()), v) :=
      congrArg (fun r ↦ (Except.ok r.1, r.2)) hv
    rw [settles_start hl, hfinalizer, ends_bind]
    refine Iff.trans ?_ (settles_state_nil (w := v) hl close ground (.ok .unit))
    constructor
    · rintro ⟨x, w₂, hx, h⟩
      cases hoffered.symm.trans hx
      exact h
    · exact fun h ↦ ⟨_, _, hoffered, h⟩
  rw [settles_start hl, hdispatch]
  -- the finalizer is run above the rest of the sequence
  have hcontext : (⟨.finalizer (.done f.plan), ground.context⟩ : Job S).context =
      ground.context := rfl
  refine (ends_branch hr hσ hl hcontext _).trans ?_
  have hnext : ∀ n, it.pursue close ground.budget n (ground.state [.resume
      (Effect.receive .unit fun _ ↦ .done (.effect e.plan))] (.ofOutcome (.ok .unit))) =
        (it.host close).build (.done e.plan) >>= fun y ↦
          it.rounds close ground.budget n ((ground.state [] .pending).continueBuilt y) := by
    intro n
    refine (it.pursue_value_resume close ground.budget n (ground.state [] .pending) .unit
      _).trans ?_
    -- the continuation takes the unit value and answers with the effect
    change (it.host close).attempt
      ((it.program.build e.plan).bind fun n ↦ .done (Control.effect n)) >>= _ =
        (it.host close).attempt (it.program.build e.plan) >>= _
    rw [Host.attempt_bind, bind_assoc]
    refine bind_congr fun y ↦ ?_
    cases y <;> rfl
  constructor
  · rintro ⟨o₁, w₁, hsettles, n, hn⟩
    obtain ⟨rfl, rfl⟩ := (hregistered o₁ w₁).1 hsettles
    rw [hnext] at hn
    obtain ⟨y, w₂, hy, hn⟩ := Machine.bind_eq_ok hn
    exact ⟨y, w₂, hy, n, hn⟩
  · rintro ⟨y, w₂, hy, n, hn⟩
    refine ⟨_, _, (hregistered _ _).2 ⟨rfl, rfl⟩, n, ?_⟩
    rw [hnext]
    exact (Machine.bind_ok hy _).trans hn

/-- A region with a finalizer and the rest. -/
theorem settles_ensuring (e : Effect S a) (f : Effect S .unit) :
    it.Settles close ground.budget (ground.state [] (.effect (e.ensuring f).node)) w o w' ↔
      ∃ o₁ w₁, it.Interprets close { ground with scope := ⟨w.scopes.size⟩ } e
          (w.ensure ground.budget (f.asFinalizer ground)) o₁ w₁ [f.asFinalizer ground] ∧
        CloseInTurn close ground.budget [⟨w.scopes.size⟩] o₁ w₁ o w' := by
  have hdispatch : it.dispatch close (e.ensuring f).node (ground.state [] .pending) =
      .modifyGet World.enterScope >>= fun child ↦
        pure (Setting.state { ground with scope := child } [.closeScope child ground.scope]
          (.effect ((Effect.addFinalizer (.done f)).flatMap (b := a) fun _ ↦ .done e).node)) :=
    dispatch_decided hr rfl (.after fun _ ↦ .pure rfl)
  rw [settles_start hl, hdispatch, ends_bind]
  have hinside : ∀ child w₁, it.Ends close ground.budget
      (pure (Setting.state { ground with scope := child } [.closeScope child ground.scope]
        (.effect ((Effect.addFinalizer (.done f)).flatMap (b := a) fun _ ↦ .done e).node)))
        w₁ o w' ↔
      ∃ o₁ w₂, it.Settles close ground.budget (Setting.state { ground with scope := child } []
          (.effect ((Effect.addFinalizer (.done f)).flatMap (b := a) fun _ ↦ .done e).node))
          w₁ o₁ w₂ ∧ CloseInTurn close ground.budget [child] o₁ w₂ o w' := by
    intro child w₁
    have hcontext : (⟨((Effect.addFinalizer (.done f)).flatMap (b := a) fun _ ↦ .done e).node,
      ground.context⟩ : Job S).context = ground.context := rfl
    refine (@ends_branch _ it close { ground with scope := child } w₁ w' o hr hσ hl _ hcontext
      (.closeScope child ground.scope)).trans ?_
    refine exists_congr fun o₁ ↦ exists_congr fun w₂ ↦ and_congr_right fun _ ↦ ?_
    exact pursue_closeScope_outcome hl child ground.scope o₁
  have hregistering : ∀ o₁ w₂, it.Settles close ground.budget
      (Setting.state { ground with scope := ⟨w.scopes.size⟩ } []
        (.effect ((Effect.addFinalizer (.done f)).flatMap (b := a) fun _ ↦ .done e).node))
      (w.ticks ground.budget 1).enterScope.2 o₁ w₂ ↔
        it.Interprets close { ground with scope := ⟨w.scopes.size⟩ } e
          (w.ensure ground.budget (f.asFinalizer ground)) o₁ w₂ [f.asFinalizer ground] := by
    intro o₁ w₂
    have haccepts := w.addFinalizer_ensure ground.budget (f.asFinalizer ground)
    exact @settles_registering _ _ it close { ground with scope := ⟨w.scopes.size⟩ } _ w₂ o₁ hr hσ
      hl e f _ haccepts
  simp only [hinside]
  constructor
  · rintro ⟨child, w₁, hopen, o₁, w₂, hsettles, hcloses⟩
    cases hopen
    exact ⟨o₁, w₂, (hregistering o₁ w₂).1 hsettles, hcloses⟩
  · rintro ⟨o₁, w₂, hinterprets, hcloses⟩
    exact ⟨_, _, rfl, o₁, w₂, (hregistering o₁ w₂).2 hinterprets, hcloses⟩

/-- One region inside the other, and an effect in the innermost of them. -/
theorem settles_ensurings (x : Effect S a) (fs : List (Effect S .unit)) :
    it.Settles close ground.budget (ground.state [] (.effect (fs.foldl Effect.ensuring x).node)) w o
        w' ↔
      ∃ o₁ w₁, it.Interprets close (ground.inside w (fs.map (·.asFinalizer ground))) x
          (w.ensureAll ground.budget (fs.map (·.asFinalizer ground))) o₁ w₁
          (fs.map (·.asFinalizer ground)) ∧
        CloseInTurn close ground.budget
          ((ensuredScopes w.scopes.size [] (fs.map (·.asFinalizer ground))).map Prod.fst)
          o₁ w₁ o w' := by
  induction fs using List.reverseRecOn generalizing ground w o w' with
  | nil =>
    constructor
    · exact fun h ↦ ⟨o, w', h, rfl, rfl⟩
    · rintro ⟨_, _, h, rfl, rfl⟩
      exact h
  | append_singleton fs f ih =>
    rw [List.foldl_append, List.foldl_cons, List.foldl_nil, settles_ensuring hr hσ hl]
    have hinner : ∀ o₁ w₁, it.Interprets close { ground with scope := ⟨w.scopes.size⟩ }
        (fs.foldl Effect.ensuring x) (w.ensure ground.budget (f.asFinalizer ground)) o₁ w₁
        [f.asFinalizer ground] ↔ ∃ o₂ w₂, it.Interprets close
          (ground.inside w ((fs ++ [f]).map (·.asFinalizer ground))) x
          (w.ensureAll ground.budget ((fs ++ [f]).map (·.asFinalizer ground))) o₂ w₂
          ((fs ++ [f]).map (·.asFinalizer ground)) ∧
        CloseInTurn close ground.budget ((ensuredScopes (w.scopes.size + 1) []
          (fs.map (·.asFinalizer ground))).map Prod.fst) o₂ w₂ o₁ w₁ := by
      intro o₁ w₁
      cases fs with
      | nil =>
        constructor
        · exact fun h ↦ ⟨o₁, w₁, h, rfl, rfl⟩
        · rintro ⟨_, _, h, rfl, rfl⟩
          exact h
      | cons g gs =>
        refine (interprets_node (Effect.plan_foldl_ensuring (x := x.ensuring g) rfl gs)).trans ?_
        have hih := @ih { ground with scope := ⟨w.scopes.size⟩ }
          (w.ensure ground.budget (f.asFinalizer ground)) w₁ o₁
        rw [w.size_ensure, w.ensureAll_ensure] at hih
        rw [List.map_append, List.map_cons, List.map_cons, List.map_nil,
          ← Setting.inside_ensure ground.budget ⟨w.scopes.size⟩]
        exact hih
    simp only [hinner, List.map_append, List.map_cons, List.map_nil, ensuredScopes_append,
      closeInTurn_append]
    constructor
    · rintro ⟨o₁, w₁, ⟨o₂, w₂, hx, hscopes⟩, hclose⟩
      exact ⟨o₂, w₂, hx, o₁, w₁, hscopes, hclose⟩
    · rintro ⟨o₂, w₂, hx, o₁, w₁, hscopes, hclose⟩
      exact ⟨o₁, w₁, ⟨o₂, w₂, hx, hscopes⟩, hclose⟩

end

/-! ### What the scopes hold when they close -/

/-- Scopes close one after the other. Each of them invokes, in order and once, the finalizers that
it is listed with, and no others; the causes are those of the finalizers that fail. -/
inductive Drains (it : Interpreter S) (depth : Nat) (b : BudgetId) :
    List (ScopeId × List (Finalizer S)) → Outcome S.Error Value → World S → List (Cause S.Error) →
      World S → Prop where
  | nil (o : Outcome S.Error Value) (w : World S) : Drains it depth b [] o w [] w
  | cons {s : ScopeId} {fs : List (Finalizer S)} {rest : List (ScopeId × List (Finalizer S))}
      {o : Outcome S.Error Value} {w w₁ w' : World S} {causes more : List (Cause S.Error)}
      (hscope : w.scope s = ⟨false, fs⟩)
      (hinvoke : (it.host (it.closeScope depth)).invokeAll
        (it.interpretWith (it.closeScope depth) depth) s fs (w.shutScope s) = (.ok causes, w₁))
      (hrest : Drains it depth b rest (o.withFailures causes)
        ((w₁.record (.closed s)).ticks b (if o.isOk then 1 else 0)) more w') :
      Drains it depth b ((s, fs) :: rest) o w (causes ++ more) w'

/-- An open scope closes by invoking what waits in it. -/
theorem closeScope_iff {depth : Nat} {s : ScopeId} {fs : List (Finalizer S)}
    (hscope : w.scope s = ⟨false, fs⟩) {r : Outcome S.Error Unit} :
    it.closeScope (depth + 1) s w = (.ok r, w') ↔ ∃ causes w₁,
      (it.host (it.closeScope depth)).invokeAll (it.interpretWith (it.closeScope depth) depth) s fs
        (w.shutScope s) = (.ok causes, w₁) ∧ r = .ofFailures causes ∧
          w' = w₁.record (.closed s) := by
  constructor
  · intro h
    rcases Host.shut_eq h with ⟨hclosed, -⟩ | ⟨-, y, w₁, hinvoke, hy, hend⟩
    · rw [hscope] at hclosed
      cases hclosed
    · rw [hscope] at hinvoke
      cases y with
      | error e => cases hy
      | ok causes => exact ⟨causes, w₁, hinvoke, Except.ok.inj hy, hend causes rfl⟩
  · rintro ⟨causes, w₁, hinvoke, rfl, rfl⟩
    rw [closeScope, Host.shut, Machine.bind_ok (Machine.gets_apply _ w), hscope]
    refine (Machine.bind_ok hinvoke _).trans ?_
    cases causes <;> rfl

/-- Scopes that invoke what they hold are closed. -/
theorem Drains.closeInTurn {depth : Nat} {L : List (ScopeId × List (Finalizer S))}
    {causes : List (Cause S.Error)} (h : it.Drains depth b L o w causes w') :
    CloseInTurn (it.closeScope (depth + 1)) b (L.map Prod.fst) o w (o.withFailures causes) w' := by
  induction h with
  | nil => exact ⟨rfl, rfl⟩
  | cons hscope hinvoke _ ih =>
    refine ⟨_, _, (closeScope_iff hscope).2 ⟨_, _, hinvoke, rfl, rfl⟩, ?_⟩
    rw [Outcome.merge_ofFailures, ← Outcome.withFailures_append]
    exact ih

section

variable (hp : it.IsPlain) {K : Custody S} (hK : K.Binds it.program)
include hp hK

/-- Withheld scopes hold what they held when the first of them began to close: closing one of them
spares the others. -/
theorem drains_of_closeInTurn {depth : Nat} {L : List (ScopeId × List (Finalizer S))}
    {o₁ : Outcome S.Error Value} (hL : ∀ q ∈ L, K.withheld q.1 ∧ w.scope q.1 = ⟨false, q.2⟩)
    (hdistinct : (L.map Prod.fst).Nodup) (hw : w.Guards K it.program)
    (h : CloseInTurn (it.closeScope (depth + 1)) b (L.map Prod.fst) o₁ w o w') :
    ∃ causes, it.Drains depth b L o₁ w causes w' ∧ o = o₁.withFailures causes := by
  induction L generalizing o₁ w with
  | nil =>
    obtain ⟨rfl, rfl⟩ := h
    exact ⟨[], .nil _ _, rfl⟩
  | cons q L ih =>
    obtain ⟨s, fs⟩ := q
    obtain ⟨⟨-, hscope⟩, hL⟩ := List.forall_mem_cons.1 hL
    obtain ⟨hs, hdistinct⟩ := List.nodup_cons.1 hdistinct
    obtain ⟨r, w₂, hclose, h⟩ := h
    obtain ⟨causes, w₁, hinvoke, rfl, rfl⟩ := (closeScope_iff hscope).1 hclose
    have hfs : ∀ f ∈ fs, f.Shuns K it.program := by
      have hwaiting := hw.awaits s
      rw [hscope] at hwaiting
      exact hwaiting
    obtain ⟨hw₁, hspares, -⟩ := host_invokeAll_spares hp hK (fun _ ↦ False) depth s hfs
      hinvoke nofun (hw.shutScope s)
    have hscopes : ((w₁.record (.closed s)).ticks b (if o₁.isOk then 1 else 0)).scopes =
        w₁.scopes := World.scopes_ticks _ b _
    have hstate : ((w₁.record (.closed s)).ticks b (if o₁.isOk then 1 else 0)).state =
        w₁.state := by
      cases o₁ <;> rfl
    have hL' : ∀ q ∈ L, K.withheld q.1 ∧
        ((w₁.record (.closed s)).ticks b (if o₁.isOk then 1 else 0)).scope q.1 = ⟨false, q.2⟩ := by
      intro q hq
      obtain ⟨hwithheld, hscope'⟩ := hL q hq
      have hne : q.1 ≠ s := by
        rintro rfl
        exact hs (List.mem_map.2 ⟨q, hq, rfl⟩)
      refine ⟨hwithheld, ?_⟩
      rw [World.scope_congr hscopes, hspares.scope_eq hwithheld id, w.scope_shutScope_of_ne hne]
      exact hscope'
    rw [Outcome.merge_ofFailures] at h
    obtain ⟨more, hdrains, rfl⟩ := ih hL' hdistinct (hw₁.congr hscopes (hstate ▸ hw₁.state)) h
    exact ⟨causes ++ more, .cons hscope hinvoke hdrains, Outcome.withFailures_append _ _ _⟩

omit hp hK in
/-- The scopes that are opened for finalizers are withheld, and nothing else leads to them. -/
theorem guards_ensureAll {fs : List (Finalizer S)}
    (hopened : ∀ s, K.withheld s → s.index < w.scopes.size + fs.length) (hstate : K.state w.state)
    (hw : w.Awaits (Finalizer.Shuns K it.program)) (hfs : ∀ f ∈ fs, f.Shuns K it.program) :
    (w.ensureAll b fs).Guards K it.program where
  state := (w.state_ensureAll b fs).symm ▸ hstate
  awaits := hw.ensureAll w b fs hfs
  opened s hs := by
    rw [w.size_ensureAll]
    exact hopened s hs

/-- An effect under a finalizer spares withheld scopes but the one in force. -/
theorem interprets_spares {depth : Nat} {x : Effect S a}
    (hx : (it.program.build x.plan).Shuns K K.node) {f : Finalizer S} {fs : List (Finalizer S)}
    (h : it.Interprets (it.closeScope depth) ground x w o w' (f :: fs))
    (hw : w.Guards K it.program) :
    w'.Guards K it.program ∧ w.Spares K (· = ground.scope) w' := by
  obtain ⟨y, w₁, hbuild, n, hn⟩ := h
  have hplan : (it.program.building (.done x.plan)).Shuns K K.node := hx
  obtain ⟨hw₁, hspares, hbuilt⟩ :=
    host_build_spares hp hK (· = ground.scope) depth hplan hbuild nofun hw
  have hy := hbuilt y rfl
  cases y with
  | ok node =>
    obtain ⟨hw', hspares', -⟩ := rounds_spares hp hK (· = ground.scope) depth n
      (hy node rfl) ground.context (fun _ ↦ rfl) ground.budget hn nofun hw₁
    exact ⟨hw', hspares.trans hspares'⟩
  | error d =>
    obtain ⟨-, rfl⟩ := (settles_state_nil hp.stepLimit _ ground (.error (.defect d))).1 ⟨n, hn⟩
    exact ⟨hw₁.congr rfl hw₁.state, hspares.trans (.of_scopes rfl)⟩

/-- When an effect under finalizers has settled, the innermost scope holds what the effect has
registered there, in front of the first finalizer, and the others hold their finalizers. -/
theorem scope_of_interprets {depth : Nat} {x : Effect S a}
    (hx : (it.program.build x.plan).Shuns K K.node) {f : Finalizer S} {fs : List (Finalizer S)}
    (hwithheld : ∀ s, K.withheld s ↔
      w.scopes.size ≤ s.index ∧ s.index < w.scopes.size + (f :: fs).length)
    (hw : (w.ensureAll b (f :: fs)).Guards K it.program)
    (h : it.Interprets (it.closeScope depth) (ground.inside w (f :: fs)) x
      (w.ensureAll b (f :: fs)) o w' (f :: fs)) :
    w'.Guards K it.program ∧ ∃ own, ∀ q ∈ ensuredScopes w.scopes.size own (f :: fs),
      K.withheld q.1 ∧ w'.scope q.1 = ⟨false, q.2⟩ := by
  obtain ⟨hw', hspares⟩ := interprets_spares hp hK hx h hw
  have hheld : ∀ own, ∀ q ∈ ensuredScopes w.scopes.size own (f :: fs), K.withheld q.1 :=
    fun own q hq ↦ (hwithheld q.1).2 (index_ensuredScopes hq)
  have hinner := hheld [] _ List.mem_cons_self
  have hscope := w.scope_ensureAll b (f :: fs) List.mem_cons_self
  have hclosed := hspares.closed _ hinner
  obtain ⟨own, hown, -⟩ := hspares.finalizers _ hinner
  rw [hscope] at hclosed hown
  refine ⟨hw', own, fun q hq ↦ ⟨hheld own q hq, ?_⟩⟩
  rcases List.mem_cons.1 hq with rfl | hq
  · show w'.scope _ = ⟨false, own ++ [f]⟩
    rcases hs : w'.scope ⟨w.scopes.size + fs.length⟩ with ⟨closed, finalizers⟩
    rw [hs] at hclosed hown
    cases hclosed
    cases hown
    rfl
  · have hne : q.1 ≠ ⟨w.scopes.size + fs.length⟩ := by
      intro heq
      have hindex := (index_ensuredScopes hq).2
      rw [heq] at hindex
      exact Nat.lt_irrefl _ hindex
    rw [hspares.scope_eq (hheld own q (List.mem_cons_of_mem _ hq)) hne]
    exact w.scope_ensureAll b (f :: fs) (List.mem_cons_of_mem _ hq)

/-- **What an effect under finalizers comes to**, in any surroundings. The effect is run once, in
the innermost of the scopes that are opened for the finalizers. When it has settled, however it has,
the scopes close one after the other: the innermost one invokes what the effect has registered on
it, the last first, and then the first finalizer, and the others invoke the one finalizer that they
were opened for, each in the context of the visit. If no finalizer fails the outcome is the one of
the effect; otherwise it is a composite of the parts of its cause, if it failed, and the causes of
the finalizers, in the order in which they were invoked. The outcome is handed to whatever stack the
effect is above.

The scopes are given to no closure; what is assumed is that closures address no scope that they have
not been given. -/
theorem ensurings_settle (depth : Nat) (ground : Setting) (x : Effect S a)
    (fs : List (Effect S .unit)) (w : World S)
    (hwithheld : ∀ s, K.withheld s ↔
      w.scopes.size ≤ s.index ∧ s.index < w.scopes.size + fs.length)
    (hstate : K.state w.state) (hw : w.Awaits (Finalizer.Shuns K it.program))
    (hx : (it.program.build x.plan).Shuns K K.node)
    (hfs : ∀ f ∈ fs, (it.program.build f.plan).Shuns K K.node)
    (o : Outcome S.Error Value) (w' : World S) :
    (it.Settles (it.closeScope (depth + 1)) ground.budget
        (ground.state [] (.effect (fs.foldl Effect.ensuring x).node)) w o w' ↔
      ∃ o₁ w₁ own causes, it.Interprets (it.closeScope (depth + 1))
          (ground.inside w (fs.map (·.asFinalizer ground))) x
          (w.ensureAll ground.budget (fs.map (·.asFinalizer ground))) o₁ w₁
          (fs.map (·.asFinalizer ground)) ∧
        it.Drains depth ground.budget
          (ensuredScopes w.scopes.size own (fs.map (·.asFinalizer ground))) o₁ w₁ causes w' ∧
        o = o₁.withFailures causes) ∧
    (it.Settles (it.closeScope (depth + 1)) ground.budget
        (ground.state [] (.effect (fs.foldl Effect.ensuring x).node)) w o w' ↔
      ∃ k, ∀ base n, it.rounds (it.closeScope (depth + 1)) ground.budget (k + n)
          (ground.state base (.effect (fs.foldl Effect.ensuring x).node)) w =
        it.pursue (it.closeScope (depth + 1)) ground.budget n
          (ground.state base (.ofOutcome o)) w') := by
  refine ⟨(settles_ensurings hp.registry hp.keepsJobs hp.stepLimit x fs).trans ?_,
    settles_iff_above hp.registry hp.keepsJobs hp.stepLimit (State.grounded_of_nil rfl)⟩
  refine exists_congr fun o₁ ↦ exists_congr fun w₁ ↦ ?_
  constructor
  · rintro ⟨hinterprets, hclose⟩
    have hguards : (w.ensureAll ground.budget (fs.map (·.asFinalizer ground))).Guards K
        it.program := by
      refine guards_ensureAll (fun s hs ↦ ?_) hstate hw ?_
      · rw [List.length_map]
        exact ((hwithheld s).1 hs).2
      · intro f hf
        obtain ⟨g, hg, rfl⟩ := List.mem_map.1 hf
        exact hfs g hg
    cases fs with
    | nil =>
      obtain ⟨rfl, rfl⟩ := hclose
      exact ⟨[], [], hinterprets, .nil _ _, rfl⟩
    | cons f fs =>
      have hwithheld' : ∀ s, K.withheld s ↔ w.scopes.size ≤ s.index ∧
          s.index < w.scopes.size + ((f :: fs).map (·.asFinalizer ground)).length := by
        rw [List.length_map]
        exact hwithheld
      obtain ⟨hw₁, own, hL⟩ := scope_of_interprets hp hK hx hwithheld' hguards hinterprets
      obtain ⟨causes, hdrains, ho⟩ := drains_of_closeInTurn hp hK hL (nodup_ensuredScopes _ _ _) hw₁
        (by rw [map_fst_ensuredScopes]; exact hclose)
      exact ⟨own, causes, hinterprets, hdrains, ho⟩
  · rintro ⟨own, causes, hinterprets, hdrains, rfl⟩
    have hclose := hdrains.closeInTurn
    rw [map_fst_ensuredScopes] at hclose
    exact ⟨hinterprets, hclose⟩

end

end Interpreter

/-! ### Failures on every way out -/

/-- An effect that registers a finalizer, which will fail, and fails itself. -/
def spiteful : Effect Tally .unit :=
  .ofNode (.bind (.finalizer (.done (.node (.fail (.fail 5))))) fun _ ↦ .done (.failure (.fail 7)))

/-- An effect that adds one to the state. -/
def countUp : Effect Tally .unit :=
  .ofNode (.pure (.read fun k ↦ .write (k + 1) (.done .unit)))

/-- Two scopes are withheld, of which the effects here know nothing. -/
def twoWithheld : Custody Tally where
  withheld s := 0 ≤ s.index ∧ s.index < 0 + 2
  state _ := True
  cleanup _ := True
  node n := n = spiteful.node ∨ n = countUp.node ∨
    n = .finalizer (.done (.node (.fail (.fail 5)))) ∨ ∃ c, n = .fail c

theorem binds_twoWithheld : twoWithheld.Binds tally where
  node := by
    rintro n (rfl | rfl | rfl | ⟨c, rfl⟩)
    · exact ⟨.inr (.inr (.inl rfl)), fun v n hn ↦ nomatch hn⟩
    · exact fun k _ ↦ ⟨trivial, trivial⟩
    · exact .inr (.inr (.inr ⟨_, rfl⟩))
    · exact trivial
  cleanup _ _ := fun k _ ↦ ⟨trivial, trivial⟩

namespace Interpreter

/-- The finalizer that the effect has registered is invoked first, and the second of those around it
fails last. -/
theorem ensurings_settle_spiteful :
    flakyTally.IsPlain ∧ twoWithheld.Binds flakyTally.program ∧
      (∀ s, twoWithheld.withheld s ↔ tallyWorld.scopes.size ≤ s.index ∧
        s.index < tallyWorld.scopes.size + [countUp, .fail 8].length) ∧
      twoWithheld.state tallyWorld.state ∧
      tallyWorld.Awaits (Finalizer.Shuns twoWithheld flakyTally.program) ∧
      (flakyTally.program.build spiteful.plan).Shuns twoWithheld twoWithheld.node ∧
      (∀ f ∈ [countUp, .fail 8],
        (flakyTally.program.build f.plan).Shuns twoWithheld twoWithheld.node) ∧
      ∃ w' o₁ w₁ own causes, w'.state = 1 ∧
        flakyTally.Drains 3 ⟨0⟩ (ensuredScopes 0 own
          ([countUp, .fail 8].map (·.asFinalizer ⟨.empty, ⟨0⟩, ⟨0⟩⟩))) o₁ w₁ causes w' ∧
        o₁.withFailures causes = .error (.composite [.fail 7, .fail 5, .fail 8]) := by
  have hplain : flakyTally.IsPlain := isPlain_plain tally "flaky" false
  have hawaits : tallyWorld.Awaits (Finalizer.Shuns twoWithheld flakyTally.program) :=
    fun _ _ hf ↦ nomatch hf
  have hx : (flakyTally.program.build spiteful.plan).Shuns twoWithheld twoWithheld.node := .inl rfl
  have hfs : ∀ f ∈ [countUp, .fail 8],
      (flakyTally.program.build f.plan).Shuns twoWithheld twoWithheld.node := by
    intro f hf
    rcases List.mem_cons.1 hf with rfl | hf
    · exact .inr (.inl rfl)
    · rcases List.mem_singleton.1 hf with rfl
      exact .inr (.inr (.inr ⟨_, rfl⟩))
  have hsettles : ∃ w', flakyTally.Settles (flakyTally.closeScope 4) ⟨0⟩
      (Setting.state ⟨.empty, ⟨0⟩, ⟨0⟩⟩ []
        (.effect (([countUp, .fail 8].foldl Effect.ensuring spiteful).node))) tallyWorld
      (.error (.composite [.fail 7, .fail 5, .fail 8])) w' ∧ w'.state = 1 :=
    ⟨_, ⟨12, by cbv⟩, by cbv⟩
  obtain ⟨w', hsettles, hstate⟩ := hsettles
  obtain ⟨o₁, w₁, own, causes, -, hdrains, ho⟩ := (ensurings_settle hplain binds_twoWithheld 3
    ⟨.empty, ⟨0⟩, ⟨0⟩⟩ spiteful [countUp, .fail 8] tallyWorld (fun _ ↦ Iff.rfl) trivial hawaits hx
    hfs _ w').1.1 hsettles
  exact ⟨hplain, binds_twoWithheld, fun _ ↦ Iff.rfl, trivial, hawaits, hx, hfs, w', o₁, w₁, own,
    causes, hstate, hdrains, ho.symm⟩

end Interpreter

end EffectMachine
