import EffectMachine.Proofs.Gliding

/-!
# Steps add up

Whatever succeeds without a failure on the way has a cost (`Interpreter.steps_add_up`), and the cost
is a sum over its parts. The effects are quiet: no closure of them closes a scope. Where one does,
the finalizers of the scope take their steps before the effect has come to its value
(`Interpreter.handClosing_steps`).

The proof follows the loop. A state is *smooth* (`Interpreter.Smooth`) if the loop ends from there
without a failure in hand. From an effect in hand the loop comes to the value of the effect on the
same stack, for to do anything else it would have to fail (`Interpreter.Smooth.pays`). This is an
induction on the rounds that are left. Scopes close on the way, and release effects are interpreted;
that these have a cost too is an induction on how deep scopes may close in each other
(`Interpreter.Failureless.closingPays`).
-/

namespace EffectMachine

variable {S : Signature}

namespace Interpreter

theorem IsPlain.tame {it : Interpreter S} (hit : it.IsPlain) (htidy : it.program.Tidy) :
    it.Tame where
  registry := hit.registry
  quiet := by
    rw [hit.strategy]
    exact Strategy.quiet_sync _
  tidy := htidy

variable {it : Interpreter S} {b : BudgetId} {d r : Nat} {root : ScopeId} {st st' : State S}
  {w w' : World S}

/-- The release effect of a quiet finalizer is quiet. -/
theorem Tame.quiet_build (hit : it.Tame) {build : Action S (Plan S)} {node : Node S}
    (hquiet : it.program.Quiet (.finalizer build))
    (heq : (it.host (it.closeScope d)).build build w = (.ok (.ok node), w')) :
    it.program.Quiet node := by
  have D := Discipline.calm (h := it.host (it.closeScope d)) hit.quiet
  have hbuild := (D.obeys (.finalizer build) hquiet).build (E := True)
  exact (hbuild heq nofun).2.1 _ rfl node rfl

namespace Inside

/-- Moves do not panic. -/
theorem move_ne_panic (h : it.Inside b d root st w) (hit : it.Tame) (hσ : it.strategy.Steady)
    (p : Panic) : it.move (it.closeScope d) st w ≠ (.error (.panic p), w') := by
  intro heq
  have D := Discipline.calm (h := it.host (it.closeScope d)) hit.quiet
  generalize hx : (Except.error (.panic p) : Except Escape (State S)) = x at heq
  cases move_cases D hit.registry (h.sound hit) heq (by rw [← hx]; nofun) with
  | inside _ _ _ hpanic => exact hpanic p hx.symm hσ
  | registered _ _ => cases hx
  | entered _ _ _ _ _ _ => cases hx
  | @left _ _ _ _ _ y _ _ _ hy hxy _ =>
    rcases y with e | o
    · cases hx.trans hxy
      exact closeScope_ne_panic hy rfl
    · cases hx.trans hxy

end Inside

/-! ### Smooth states -/

/-- The loop ends as given from here, and the moments that it comes to are among the given ones. -/
structure Smooth (it : Interpreter S) (b : BudgetId) (M : Moment S → Prop)
    (fin : Except Escape (Outcome S.Error Value) × World S) (d r : Nat) (root : ScopeId)
    (st : State S) (w : World S) : Prop where
  inside : it.Inside b d root st w
  counted : ∀ m, it.Counts b d (.looping st) w m → M m
  rounds : it.rounds (it.closeScope d) b r st w = fin
  ends : fin.1 ≠ .error .exhausted

/-- The interpreter is plain and its named finalizers close no scope. At none of the moments a
failure is in hand. -/
structure Failureless (it : Interpreter S) (M : Moment S → Prop) : Prop where
  plain : it.IsPlain
  tidy : it.program.Tidy
  unfailing : ∀ m, M m → ∀ cause, m.state.control ≠ .failure cause

namespace Failureless

variable {M : Moment S → Prop}

theorem tame (H : it.Failureless M) : it.Tame := H.plain.tame H.tidy

end Failureless

namespace Smooth

variable {M : Moment S → Prop} {fin : Except Escape (Outcome S.Error Value) × World S}

section

variable (H : it.Failureless M)
include H

theorem not_failure (h : it.Smooth b M fin d r root st w) (cause : Cause S.Error) :
    st.control ≠ .failure cause :=
  H.unfailing _ (h.counted _ (.here d st w)) cause

/-- A round leads to a smooth state. -/
theorem round (h : it.Smooth b M fin d (r + 1) root st w)
    (heq : it.advance (it.closeScope d) st (w.ticks b 1) = (.ok (.running st'), w')) :
    it.Smooth b M fin d r root st' w' where
  inside := h.inside.tick.advance heq
  counted m hm := by
    refine h.counted m (.next ?_ hm)
    rw [step_plain H.plain, heq]
  rounds := by
    have hrounds := h.rounds
    rw [rounds_within (H.plain.tick b w), pursue, Machine.bind_ok heq] at hrounds
    exact hrounds
  ends := h.ends

/-- Where the round is a move, the move is made. -/
theorem moves (h : it.Smooth b M fin d r root st w) {m : Machine S (State S)}
    (hm : it.move (it.closeScope d) st = m)
    (hadvance : it.advance (it.closeScope d) st = m >>= fun st ↦ pure (.running st)) :
    ∃ r' st' w', r = r' + 1 ∧ m (w.ticks b 1) = (.ok st', w') ∧
      it.Smooth b M fin d r' root st' w' := by
  obtain _ | r := r
  · exact absurd (congrArg Prod.fst h.rounds.symm) h.ends
  rcases heq : m (w.ticks b 1) with ⟨e | st', w'⟩
  · exfalso
    have hrounds := h.rounds
    rw [rounds_within (H.plain.tick b w), pursue, hadvance,
      Machine.bind_error (Machine.bind_error heq _)] at hrounds
    rcases e with p | _
    · have hσ : it.strategy.Steady := by
        rw [H.plain.strategy]
        exact Strategy.steady_sync
      rw [← hm] at heq
      exact h.inside.tick.move_ne_panic H.tame hσ p heq
    · exact h.ends (congrArg Prod.fst hrounds.symm)
  · refine ⟨r, st', w', rfl, rfl, h.round H ?_⟩
    rw [hadvance, Machine.bind_ok heq]
    rfl

/-- Something is in hand. -/
theorem not_pending (h : it.Smooth b M fin d r root st w) :
    st.control ≠ .pending := by
  intro hc
  obtain ⟨context, stack, scope, _, b'⟩ := st
  cases hc
  obtain ⟨r', st', w', rfl, heq, hst'⟩ := h.moves H rfl rfl
  cases heq
  exact hst'.not_failure H _ rfl

/-- The handler of an effect in hand decides. -/
theorem effect {context : Context} {stack : List (Frame S)} {scope : ScopeId} {node : Node S}
    (h : it.Smooth b M fin d r root ⟨context, stack, scope, .effect node, b⟩ w) :
    ∃ r' st' w', r = r' + 1 ∧ Handler.standard node.tag (it.host (it.closeScope d)) node
        ⟨context, stack, scope, .pending, b⟩ (w.ticks b 1) = (.ok st', w') ∧
      it.Smooth b M fin d r' root st' w' := by
  obtain ⟨r', st', w', rfl, heq, hst'⟩ := h.moves H
    (m := it.dispatch (it.closeScope d) node ⟨context, stack, scope, .pending, b⟩) rfl rfl
  rw [dispatch, H.plain.registry, Registry.dispatch_standard] at heq
  obtain ⟨next, w₁, hnext, heq⟩ := Machine.bind_eq_ok heq
  cases hpending : next.control.isPending with
  | true =>
    rw [hpending] at heq
    cases heq
    exact absurd rfl (hst'.not_failure H _)
  | false =>
    rw [hpending] at heq
    cases heq
    exact ⟨r', next, w', rfl, hnext, hst'⟩

/-- The newest frame takes a value in hand. -/
theorem value {context : Context} {stack : List (Frame S)} {scope : ScopeId} {f : Frame S}
    {v : Value} (h : it.Smooth b M fin d r root ⟨context, f :: stack, scope, .value v, b⟩ w) :
    ∃ r' st' w', r = r' + 1 ∧ (it.host (it.closeScope d)).resume f v
        ⟨context, stack, scope, .pending, b⟩ (w.ticks b 1) = (.ok st', w') ∧
      it.Smooth b M fin d r' root st' w' :=
  h.moves H rfl rfl

/-- A value in hand leaves a region, whose scope closes without a failure. -/
theorem leave {context : Context} {stack : List (Frame S)} {s parent scope : ScopeId} {v : Value}
    (h : it.Smooth b M fin d r root ⟨context, .closeScope s parent :: stack, scope, .value v, b⟩
      w) :
    ∃ r' w', r = r' + 1 ∧ it.closeScope d s (w.ticks b 1) = (.ok (.ok ()), w') ∧
      (∀ m, it.Counts b d (.closing s) (w.ticks b 1) m → M m) ∧
      it.Smooth b M fin d r' root ⟨context, stack, parent, .value v, b⟩ w' := by
  obtain ⟨r', st', w', rfl, heq, hst'⟩ := h.value H
  obtain ⟨o, w₁, ho, heq⟩ := Machine.bind_eq_ok heq
  rcases o with failures | ⟨⟩
  · cases heq
    exact absurd rfl (hst'.not_failure H _)
  · cases heq
    refine ⟨r', w', rfl, ho, fun m hm ↦ h.counted m ?_, hst'⟩
    exact .within (H.plain.tick b w) (.leaves (o := .ok v) rfl rfl hm)

end

end Smooth

/-! ### Paying for an effect -/

/-- The loop comes from the effect in hand to its value on the same stack, with fewer rounds left,
and the steps on the way are what the effect costs. -/
def Pays (it : Interpreter S) (b : BudgetId) (M : Moment S → Prop)
    (fin : Except Escape (Outcome S.Error Value) × World S) (d r : Nat) (root : ScopeId)
    (context : Context) (scope : ScopeId) (stack : List (Frame S)) (node : Node S) (w : World S) :
    Prop :=
  ∃ r' k v w', r' < r ∧ it.program.Spends b (.effect context scope node) w k [v] w' ∧
    it.Smooth b M fin d r' root ⟨context, stack, scope, .value v, b⟩ w'

/-- Closing scopes of a run pays. -/
def ClosingPays (it : Interpreter S) (b : BudgetId) (M : Moment S → Prop) (d : Nat) : Prop :=
  ∀ ⦃s : ScopeId⦄ ⦃w w' : World S⦄, Held it.program b w s → (w.scope s).closed = false →
    it.closeScope d s w = (.ok (.ok ()), w') → (∀ m, it.Counts b d (.closing s) w m → M m) →
      ∃ k, it.program.Spends b (.closing s) w k [] w'

namespace Smooth

variable {M : Moment S → Prop} {fin : Except Escape (Outcome S.Error Value) × World S}
  {context inner : Context} {scope : ScopeId} {stack : List (Frame S)} {n source : Node S}

section

variable (H : it.Failureless M) {R : Nat}
  (ih : ∀ ⦃r⦄, r < R → ∀ ⦃context scope stack n w⦄,
    it.Smooth b M fin d r root ⟨context, stack, scope, .effect n, b⟩ w →
      it.Pays b M fin d r root context scope stack n w)
include H

theorem node (h : it.Smooth b M fin d r root ⟨context, stack, scope, .effect n, b⟩ w) :
    it.program.Quiet n := (h.inside.sound H.tame).control n rfl

/-! ### Effects without parts -/

theorem pays_pure {make : Action S Value}
    (h : it.Smooth b M fin d r root ⟨context, stack, scope, .effect (.pure make), b⟩ w) :
    it.Pays b M fin d r root context scope stack (.pure make) w := by
  have hquiet : make.Quiet := Program.Descends.first (h.node H)
  obtain ⟨r', st', w', rfl, heq, hst'⟩ := h.effect H
  obtain ⟨x, w₁, hx, heq⟩ := Machine.bind_eq_ok heq
  rcases x with defect | v <;> cases heq
  · exact absurd rfl (hst'.not_failure H _)
  · exact ⟨r', 1, v, w', Nat.lt_succ_self r', .pure (Host.attempt_gives hquiet hx), hst'⟩

theorem pays_service {key : Key}
    (h : it.Smooth b M fin d r root ⟨context, stack, scope, .effect (.service key), b⟩ w) :
    it.Pays b M fin d r root context scope stack (.service key) w := by
  obtain ⟨r', st', w', rfl, heq, hst'⟩ := h.effect H
  simp only [Node.tag, Handler.standard, Handler.onService] at heq
  rcases hs : context.find? key with _ | s <;> simp only [hs] at heq <;> cases heq
  · exact absurd rfl (hst'.not_failure H _)
  · exact ⟨r', 1, _, _, Nat.lt_succ_self r', .service hs, hst'⟩

theorem pays_sleep {t : Duration}
    (h : it.Smooth b M fin d r root ⟨context, stack, scope, .effect (.sleep t), b⟩ w) :
    it.Pays b M fin d r root context scope stack (.sleep t) w := by
  obtain ⟨r', st', w', rfl, heq, hst'⟩ := h.effect H
  simp only [Node.tag, Handler.standard, Handler.onSleep, host, H.plain.strategy, Strategy.sync]
    at heq
  cases heq
  exact ⟨r', 1, _, _, Nat.lt_succ_self r', .sleep, hst'⟩

theorem pays_async {start : SlotId → Action S Unit}
    (h : it.Smooth b M fin d r root ⟨context, stack, scope, .effect (.async start), b⟩ w) :
    it.Pays b M fin d r root context scope stack (.async start) w := by
  have hquiet : ∀ s, (start s).Quiet := Program.Descends.first (h.node H)
  obtain ⟨r', st', w', rfl, heq, hst'⟩ := h.effect H
  obtain ⟨slot, w₁, hslot, heq⟩ := Machine.bind_eq_ok heq
  cases hslot
  obtain ⟨x, w₂, hx, heq⟩ := Machine.bind_eq_ok heq
  rcases x with defect | ⟨⟩
  · cases heq
    exact absurd rfl (hst'.not_failure H _)
  · obtain ⟨o, w₃, ho, heq⟩ := Machine.bind_eq_ok heq
    cases heq
    simp only [host, H.plain.strategy, Strategy.sync, Strategy.takeOrFail, Host.perform_take] at ho
    rw [Machine.bind_ok (Machine.modifyGet_apply _ _)] at ho
    rcases hv : (w₂.takeOutcome (w.ticks b 1).newSlot.1).1 with _ | cause | v <;>
      rw [hv] at ho <;> cases ho
    · exact absurd rfl (hst'.not_failure H _)
    · exact absurd rfl (hst'.not_failure H _)
    · have hgives := Host.attempt_gives (hquiet _) hx
      exact ⟨r', 1, v, _, Nat.lt_succ_self r', .async hgives hv, hst'⟩

theorem pays_finalizer {release : Action S (Plan S)}
    (h : it.Smooth b M fin d r root ⟨context, stack, scope, .effect (.finalizer release), b⟩ w) :
    it.Pays b M fin d r root context scope stack (.finalizer release) w := by
  obtain ⟨r', st', w', rfl, heq, hst'⟩ := h.effect H
  obtain ⟨x, w₁, hx, heq⟩ := Machine.bind_eq_ok heq
  rcases x with defect | ⟨⟩ <;> cases heq
  · exact absurd rfl (hst'.not_failure H _)
  · have hoffer : (w.ticks b 1).addFinalizer scope (.release release context b) = (.ok (), w') := by
      obtain ⟨hx, hw⟩ := Prod.mk.inj hx
      exact Prod.ext (Except.ok.inj hx) hw
    exact ⟨r', 1, .unit, w', Nat.lt_succ_self r', .finalizer hoffer, hst'⟩

/-! ### Effects with parts -/

include ih

theorem pays_suspend {thunk : Action S (Plan S)}
    (h : it.Smooth b M fin d R root ⟨context, stack, scope, .effect (.suspend thunk), b⟩ w) :
    it.Pays b M fin d R root context scope stack (.suspend thunk) w := by
  have hquiet : (it.program.building thunk).Quiet := Program.Descends.first (h.node H)
  obtain ⟨r', st', w', rfl, heq, hst'⟩ := h.effect H
  obtain ⟨x, w₁, hx, heq⟩ := Machine.bind_eq_ok heq
  rcases x with defect | n <;> cases heq
  · exact absurd rfl (hst'.not_failure H _)
  · obtain ⟨r'', k, v, w'', hlt, hspends, hvalue⟩ := ih (Nat.lt_succ_self r') hst'
    exact ⟨r'', 1 + k, v, w'', by omega, .suspend (Host.attempt_gives hquiet hx) hspends, hvalue⟩

theorem pays_bind {next : Value → Action S (Step S)}
    (h : it.Smooth b M fin d R root ⟨context, stack, scope, .effect (.bind source next), b⟩ w) :
    it.Pays b M fin d R root context scope stack (.bind source next) w := by
  have hquiet : ∀ v, (it.program.continuing (next v)).Quiet := Program.Descends.first (h.node H)
  obtain ⟨r', st', w', rfl, heq, hst'⟩ := h.effect H
  cases heq
  obtain ⟨r₁, k, u, w₁, hlt, hsource, hvalue⟩ := ih (Nat.lt_succ_self r') hst'
  obtain ⟨r₂, st₂, w₂, rfl, heq, hst₂⟩ := hvalue.value H
  obtain ⟨x, w₃, hx, heq⟩ := Machine.bind_eq_ok heq
  rcases x with defect | (n | v | cause | _) <;> cases heq
  · exact absurd rfl (hst₂.not_failure H _)
  · have hgives := Host.attempt_gives (hquiet u) hx
    obtain ⟨r₃, j, v, w₄, hlt', hspends, hvalue⟩ := ih (by omega) hst₂
    exact ⟨r₃, 2 + k + j, v, w₄, by omega, .bindEffect hsource hgives hspends, hvalue⟩
  · have hgives := Host.attempt_gives (hquiet u) hx
    exact ⟨r₂, 2 + k, v, w₂, by omega, .bind hsource hgives, hst₂⟩
  · exact absurd rfl (hst₂.not_failure H _)
  · exact absurd rfl (hst₂.not_pending H)

/-- An effect that runs its source above a frame that lets values pass. -/
theorem pays_around {f : Frame S} {w₁ : World S} (context : Context)
    (h : it.Smooth b M fin d r root ⟨inner, f :: stack, scope, .effect source, b⟩ w₁) (hr : r < R)
    (hresume : ∀ v w, (it.host (it.closeScope d)).resume f v ⟨inner, stack, scope, .pending, b⟩ w =
      (.ok ⟨context, stack, scope, .value v, b⟩, w)) :
    ∃ r' k v w', r' < r ∧ it.program.Spends b (.effect inner scope source) w₁ k [v] w' ∧
      it.Smooth b M fin d r' root ⟨context, stack, scope, .value v, b⟩ (w'.ticks b 1) := by
  obtain ⟨r₁, k, v, w₂, hlt, hsource, hvalue⟩ := ih hr h
  obtain ⟨r₂, st₂, w₃, rfl, heq, hst₂⟩ := hvalue.value H
  cases (hresume v _).symm.trans heq
  exact ⟨r₂, k, v, w₂, by omega, hsource, hst₂⟩

theorem pays_provide {layer : Layer S}
    (h : it.Smooth b M fin d R root ⟨context, stack, scope, .effect (.provide layer source), b⟩ w) :
    it.Pays b M fin d R root context scope stack (.provide layer source) w := by
  have hquiet : ∀ c, (layer.build c).Quiet := Program.Descends.first (h.node H)
  obtain ⟨r', st', w', rfl, heq, hst'⟩ := h.effect H
  obtain ⟨x, w₁, hx, heq⟩ := Machine.bind_eq_ok heq
  rcases x with defect | missing | inner <;> cases heq
  · exact absurd rfl (hst'.not_failure H _)
  · exact absurd rfl (hst'.not_failure H _)
  · obtain ⟨r'', k, v, w'', hlt, hsource, hvalue⟩ :=
      pays_around H ih context hst' (Nat.lt_succ_self r') fun _ _ ↦ rfl
    have hgives := Host.attempt_gives (hquiet context) hx
    exact ⟨r'', 2 + k, v, _, by omega, .provide hgives hsource, hvalue⟩

theorem pays_recover {accepts : Cause S.Error → Action S Bool}
    {handler : Cause S.Error → Action S (Plan S)}
    (h : it.Smooth b M fin d R root
      ⟨context, stack, scope, .effect (.recover source accepts handler), b⟩ w) :
    it.Pays b M fin d R root context scope stack (.recover source accepts handler) w := by
  obtain ⟨r', st', w', rfl, heq, hst'⟩ := h.effect H
  cases heq
  obtain ⟨r'', k, v, w'', hlt, hsource, hvalue⟩ :=
    pays_around H ih context hst' (Nat.lt_succ_self r') fun _ _ ↦ rfl
  exact ⟨r'', 2 + k, v, _, by omega, .recover hsource, hvalue⟩

theorem pays_retry {schedule : Schedule S}
    (h : it.Smooth b M fin d R root ⟨context, stack, scope, .effect (.retry source schedule), b⟩
      w) :
    it.Pays b M fin d R root context scope stack (.retry source schedule) w := by
  obtain ⟨r', st', w', rfl, heq, hst'⟩ := h.effect H
  cases heq
  obtain ⟨r'', k, v, w'', hlt, hsource, hvalue⟩ :=
    pays_around H ih context hst' (Nat.lt_succ_self r') fun _ _ ↦ rfl
  exact ⟨r'', 2 + k, v, _, by omega, .retry hsource, hvalue⟩

theorem pays_timeout {limit : Duration}
    (h : it.Smooth b M fin d R root ⟨context, stack, scope, .effect (.timeout source limit), b⟩
      w) :
    it.Pays b M fin d R root context scope stack (.timeout source limit) w := by
  obtain ⟨r', st', w', rfl, heq, hst'⟩ := h.effect H
  cases heq
  obtain ⟨r₁, k, v, w₁, hlt, hsource, hvalue⟩ := ih (Nat.lt_succ_self r') hst'
  obtain ⟨r₂, st₂, w₂, rfl, heq, hst₂⟩ := hvalue.value H
  have hresume : (it.host (it.closeScope d)).resume (.timeout limit w.clock.nanos) v
      ⟨context, stack, scope, .pending, b⟩ (w₁.ticks b 1) =
        (.ok (if limit < w₁.clock.since w.clock.nanos
          then ⟨context, stack, scope, .failure (.timeout limit), b⟩
          else ⟨context, stack, scope, .value v, b⟩), w₁.ticks b 1) := rfl
  by_cases hlate : limit < w₁.clock.since w.clock.nanos
  · rw [if_pos hlate] at hresume
    cases hresume.symm.trans heq
    exact absurd rfl (hst₂.not_failure H _)
  · rw [if_neg hlate] at hresume
    cases hresume.symm.trans heq
    exact ⟨r₂, 2 + k, v, _, by omega, .timeout hsource hlate, hst₂⟩

theorem pays_race {nodes : List (Node S)}
    (h : it.Smooth b M fin d R root ⟨context, stack, scope, .effect (.race nodes), b⟩ w) :
    it.Pays b M fin d R root context scope stack (.race nodes) w := by
  obtain ⟨r', st', w', rfl, heq, hst'⟩ := h.effect H
  cases nodes with
  | nil =>
    cases heq
    exact absurd rfl (hst'.not_failure H _)
  | cons first rest =>
    cases (Host.onRace_sync H.plain.strategy context stack scope b _ first rest).symm.trans heq
    obtain ⟨r'', k, v, w'', hlt, hfirst, hvalue⟩ :=
      pays_around H ih context hst' (Nat.lt_succ_self r') fun _ _ ↦ rfl
    exact ⟨r'', 2 + k, v, _, by omega, .race hfirst, hvalue⟩

/-- From one branch to the next, and from the last one to the value that is collected. -/
theorem pays_branches {nodes : List (Node S)}
    {collect : List Value → Action S (Except Defect Value)} (hcollect : ∀ vs, (collect vs).Quiet)
    {i : Nat} {collected : List Value}
    (heq : (it.host (it.closeScope d)).nextParallel collect (deferredForks context i nodes)
      collected ⟨context, stack, scope, .pending, b⟩ w = (.ok st', w'))
    (h : it.Smooth b M fin d r root st' w') (hr : r < R) :
    ∃ r' k vs v w₁ w₂, r' ≤ r ∧ it.program.Spends b (.branches context scope nodes) w k vs w₁ ∧
      (collect (collected.reverse ++ vs)).Gives w₁ (.ok v) w₂ ∧
        it.Smooth b M fin d r' root ⟨context, stack, scope, .value v, b⟩ w₂ := by
  induction nodes generalizing i collected r w st' w' with
  | nil =>
    obtain ⟨x, w₁, hx, heq⟩ := Machine.bind_eq_ok heq
    rcases x with defect | defect | v <;> cases heq
    · exact absurd rfl (h.not_failure H _)
    · exact absurd rfl (h.not_failure H _)
    · have hgives := Host.attempt_gives (hcollect _) hx
      rw [← List.append_nil collected.reverse] at hgives
      exact ⟨r, 0, [], v, w, w', Nat.le_refl r, .noBranches, hgives, h⟩
  | cons n nodes ih' =>
    cases heq
    obtain ⟨r₁, k, v, w₁, hlt, hfirst, hvalue⟩ := ih hr h
    obtain ⟨r₂, st₂, w₂, rfl, heq, hst₂⟩ := hvalue.value H
    obtain ⟨r₃, j, vs, u, w₃, w₄, hle, hrest, hgives, hvalue⟩ := ih' heq hst₂ (by omega)
    rw [List.reverse_cons, List.append_assoc] at hgives
    exact ⟨r₃, k + 1 + j, v :: vs, u, w₃, w₄, by omega, .branch hfirst hrest, hgives, hvalue⟩

theorem pays_parallel {nodes : List (Node S)}
    {collect : List Value → Action S (Except Defect Value)}
    (h : it.Smooth b M fin d R root ⟨context, stack, scope, .effect (.parallel nodes collect), b⟩
      w) :
    it.Pays b M fin d R root context scope stack (.parallel nodes collect) w := by
  have hquiet : ∀ vs, (collect vs).Quiet := Program.Descends.first (h.node H)
  obtain ⟨r', st', w', rfl, heq, hst'⟩ := h.effect H
  have hnext := (Host.onParallel_sync (h := it.host (it.closeScope d)) H.plain.strategy context
    stack scope b _ nodes collect).symm.trans heq
  obtain ⟨r'', k, vs, v, w₁, w₂, hle, hbranches, hgives, hvalue⟩ :=
    pays_branches H ih hquiet hnext hst' (Nat.lt_succ_self r')
  exact ⟨r'', 1 + k, v, w₂, by omega, .parallel hbranches hgives, hvalue⟩

theorem pays_region (hclosing : it.ClosingPays b M d) {body : ScopeId → Action S (Plan S)}
    (h : it.Smooth b M fin d R root ⟨context, stack, scope, .effect (.region body), b⟩ w) :
    it.Pays b M fin d R root context scope stack (.region body) w := by
  have hquiet : ∀ s, (it.program.building (body s)).Quiet := Program.Descends.first (h.node H)
  obtain ⟨r', st', w', rfl, heq, hst'⟩ := h.effect H
  obtain ⟨child, w₁, hchild, heq⟩ := Machine.bind_eq_ok heq
  cases hchild
  obtain ⟨x, w₂, hx, heq⟩ := Machine.bind_eq_ok heq
  rcases x with defect | n <;> cases heq
  · exact absurd rfl (hst'.not_failure H _)
  · have hgives := Host.attempt_gives (hquiet _) hx
    obtain ⟨r₁, k, v, w₃, hlt, hbody, hvalue⟩ := ih (Nat.lt_succ_self r') hst'
    obtain ⟨r₂, w₄, rfl, hclosed, hcounted, hleft⟩ := hvalue.leave H
    have hheld := hvalue.inside.tick.held H.tame List.mem_cons_self
    have hlive := hvalue.inside.tick.live H.tame List.mem_cons_self
    obtain ⟨j, hcloses⟩ := hclosing hheld hlive hclosed hcounted
    exact ⟨r₂, 2 + k + j, v, w₄, by omega, .region hgives hbody hcloses, hleft⟩

end

/-- **Effects in hand have a cost**, and the loop comes to their value. -/
theorem pays (H : it.Failureless M) (hclosing : it.ClosingPays b M d)
    (h : it.Smooth b M fin d r root ⟨context, stack, scope, .effect n, b⟩ w) :
    it.Pays b M fin d r root context scope stack n w := by
  induction r using Nat.strongRecOn generalizing context scope stack n w with
  | _ r ih =>
    have ih : ∀ ⦃r'⦄, r' < r → ∀ ⦃context scope stack n w⦄,
        it.Smooth b M fin d r' root ⟨context, stack, scope, .effect n, b⟩ w →
          it.Pays b M fin d r' root context scope stack n w := fun r' hr _ _ _ _ _ h ↦ ih r' hr h
    cases n with
    | pure make => exact h.pays_pure H
    | fail cause =>
      obtain ⟨r', st', w', rfl, heq, hst'⟩ := h.effect H
      cases heq
      exact absurd rfl (hst'.not_failure H _)
    | suspend thunk => exact h.pays_suspend H ih
    | bind source next => exact h.pays_bind H ih
    | service key => exact h.pays_service H
    | provide layer inner => exact h.pays_provide H ih
    | sleep t => exact h.pays_sleep H
    | async start => exact h.pays_async H
    | recover source accepts handler => exact h.pays_recover H ih
    | parallel branches collect => exact h.pays_parallel H ih
    | race branches => exact h.pays_race H ih
    | retry source schedule => exact h.pays_retry H ih
    | region body => exact h.pays_region H ih hclosing
    | finalizer release => exact h.pays_finalizer H
    | timeout source limit => exact h.pays_timeout H ih

end Smooth

/-! ### Paying for closings and runs -/

/-- Interpreting quiet effects pays, release effects of the run among them. -/
def RunningPays (it : Interpreter S) (b : BudgetId) (M : Moment S → Prop) (d : Nat) : Prop :=
  ∀ ⦃node : Node S⦄ ⦃context : Context⦄ ⦃w w' : World S⦄ ⦃v : Value⦄, it.program.Quiet node →
    it.interpretOn d node context b w = (.ok (.ok v), w') →
      (∀ m, it.Counts b d (.running node context) w m → M m) →
        ∃ k, it.program.Spends b (.running node context) w k [v] w'

namespace Failureless

variable {M : Moment S → Prop} (H : it.Failureless M)
include H

/-- Invoking finalizers that are due, none of which fails. -/
theorem invoking_pays (hrunning : it.RunningPays b M d) {s : ScopeId} {fs : List (Finalizer S)}
    (hfs : ∀ f ∈ fs, f.Due it.program b)
    (heq : (it.host (it.closeScope d)).invokeAll (it.interpretOn d) s fs w = (.ok [], w'))
    (hM : ∀ m, it.Counts b d (.invoking s fs) w m → M m) :
    ∃ k, it.program.Spends b (.invoking s fs) w k [] w' := by
  induction fs generalizing w with
  | nil =>
    cases heq
    exact ⟨0, .noFinalizers⟩
  | cons f fs ih =>
    obtain ⟨hf, hfs⟩ := List.forall_mem_cons.1 hfs
    rw [Host.invokeAll_cons] at heq
    obtain ⟨o, w₁, ho, heq⟩ := Machine.bind_eq_ok heq
    obtain ⟨causes, w₂, hcauses, heq⟩ := Machine.bind_eq_ok heq
    obtain ⟨hnil, rfl⟩ := Prod.mk.inj heq
    obtain ⟨hnone, rfl⟩ := List.append_eq_nil_iff.1 (Except.ok.inj hnil)
    rcases o with cause | ⟨⟩
    · cases hnone
    · obtain ⟨j, hrest⟩ := ih hfs hcauses fun m hm ↦ hM m (.invoked ho hm)
      obtain ⟨w₃, hfinalize, rfl⟩ := Host.invoke_eq_ok.1 ho
      cases f with
      | cleanup c =>
        have hgives := Host.attempt_gives (H.tidy c) (Host.attempt_eq_ok.2 hfinalize)
        exact ⟨j, .cleanup hgives hrest⟩
      | release build context b' =>
        obtain rfl := hf.budget build context b' rfl
        have hquiet : it.program.Quiet (.finalizer build) := hf.quiet
        obtain ⟨x, w₄, hx, hfinalize⟩ := Machine.bind_eq_ok hfinalize
        rcases x with defect | n
        · cases hfinalize
        · obtain ⟨o, w₅, hrun, hfinalize⟩ := Machine.bind_eq_ok hfinalize
          rcases o with cause | v <;> cases hfinalize
          have hgives := Host.attempt_gives (Program.Descends.first hquiet) hx
          have hnode : it.program.Quiet n := H.tame.quiet_build hquiet hx
          obtain ⟨k, hspends⟩ := hrunning hnode hrun fun m hm ↦ hM m (.releases hx hm)
          exact ⟨k + j, .release hgives hspends hrest⟩

theorem closingPays_succ (hrunning : it.RunningPays b M d) : it.ClosingPays b M (d + 1) := by
  intro s w w' hheld hs heq hM
  rcases Host.shut_eq heq with ⟨hclosed, -⟩ | ⟨-, y, w₁, hy, hx, hw'⟩
  · cases hs.symm.trans hclosed
  · rcases y with e | causes
    · cases hx
    · rcases causes with _ | ⟨cause, causes⟩
      · rw [hw' _ rfl]
        obtain ⟨k, hspends⟩ :=
          H.invoking_pays hrunning hheld.due hy fun m hm ↦ hM m (.closes hs hm)
        exact ⟨k, .closing hs hspends⟩
      · cases hx

/-- A value that meets no frame ends the loop. -/
theorem settled {fin : Except Escape (Outcome S.Error Value) × World S} {context : Context}
    {scope : ScopeId} {v : Value}
    (h : it.Smooth b M fin d r root ⟨context, [], scope, .value v, b⟩ w) :
    fin = (.ok (.ok v), w.ticks b 1) := by
  obtain _ | r := r
  · exact absurd (congrArg Prod.fst h.rounds.symm) h.ends
  · rw [← h.rounds]
    exact (Does.settles H.plain context r).1

theorem runningPays (hclosing : it.ClosingPays b M d) : it.RunningPays b M d := by
  intro node context w w' v hnode heq hM
  obtain ⟨o, w₁, hloop, heq⟩ := Machine.bind_eq_ok (m := it.rounds (it.closeScope d) b d
    (.start node context w.enterScope.1 b)) (w := w.enterScope.2) heq
  obtain ⟨closed, w₂, hclosed, heq⟩ := Machine.bind_eq_ok heq
  obtain ⟨rfl, rfl⟩ : o = .ok v ∧ closed = .ok () := by
    rcases o with cause | u <;> rcases closed with failures | ⟨⟩ <;> cases heq
    exact ⟨rfl, rfl⟩
  cases heq
  have hstart : it.Smooth b M (.ok (.ok v), w₁) d d w.enterScope.1
      (.start node context w.enterScope.1 b) w.enterScope.2 :=
    ⟨.start hnode context w, fun m hm ↦ hM m (.body hm), hloop, nofun⟩
  obtain ⟨r, k, u, w₃, -, hspends, hvalue⟩ := hstart.pays H hclosing
  cases H.settled hvalue
  have hin := hvalue.inside.tick
  have hroot : w.enterScope.1 ∈ openScopes ([] : List (Frame S)) ++ [w.enterScope.1] :=
    List.mem_singleton_self _
  obtain ⟨j, hcloses⟩ := hclosing (hin.held H.tame hroot) (hin.live H.tame hroot) hclosed
    fun m hm ↦ hM m (.root hloop hm)
  exact ⟨k + 1 + j, .running hspends hcloses⟩

/-- Closing scopes pays, to any depth. -/
theorem closingPays (b : BudgetId) (d : Nat) : it.ClosingPays b M d := by
  induction d with
  | zero =>
    intro s w w' _ _ heq
    cases heq
  | succ d ih => exact H.closingPays_succ (H.runningPays ih)

end Failureless

/-! ### The moments of a run -/

/-- A part of interpreting a quiet effect. -/
def Quietly (it : Interpreter S) (b : BudgetId) (d : Nat) : Activity S → World S → Prop
  | .running node _, _ => it.program.Quiet node
  | .looping st, w | .acting st, w => ∃ root, it.Inside b d root st w
  | .closing s, w => Held it.program b w s
  | .invoking _ fs, _ => ∀ f ∈ fs, f.Due it.program b

/-- At all moments that a run of a quiet effect comes to a quiet effect is being interpreted. -/
theorem Counts.inside (hit : it.Tame) {a : Activity S} {m : Moment S} (h : it.Counts b d a w m)
    (ha : it.Quietly b d a w) : ∃ root, it.Inside b m.depth root m.state m.world := by
  induction h with
  | here => exact ha
  | next hs _ ih =>
    obtain ⟨root, hin⟩ := ha
    exact ih ⟨root, hin.trans (Arrives.round hs (.here _ _)).moves⟩
  | within ht _ ih =>
    obtain ⟨-, rfl⟩ := Prod.mk.inj ht
    obtain ⟨root, hin⟩ := ha
    exact ih ⟨root, hin.tick⟩
  | falls hc hs hf _ ih =>
    obtain ⟨root, hin⟩ := ha
    exact ih ⟨root, hin.falls hs hc hf⟩
  | leaves hs hc _ ih =>
    obtain ⟨root, hin⟩ := ha
    exact ih (hin.held hit (by rw [hs]; exact List.mem_cons_self))
  | closes _ _ ih => exact ih ha.due
  | invoked _ _ ih => exact ih (List.forall_mem_cons.1 ha).2
  | @releases d w w' m s build context fs node hbuild _ ih =>
    have hquiet : it.program.Quiet (.finalizer build) := (List.forall_mem_cons.1 ha).1.quiet
    exact ih (hit.quiet_build hquiet hbuild)
  | body _ ih => exact ih ⟨_, .start ha _ _⟩
  | root hloop _ ih => exact ih (rounds_held hit (.start ha _ _) hloop)

/-! ### Sums -/

/-- **Steps add up.** A run of a quiet effect that succeeds without a failure on the way takes the
steps that the effect costs. From any moment of it at which an effect is in hand, be it in a release
effect, the run comes to the value of the effect on the same stack, and has taken the steps that
this effect costs then; and so it would on any other stack. -/
theorem steps_add_up (hit : it.IsPlain) (htidy : it.program.Tidy) {fuel : Nat} {node : Node S}
    {context : Context} {v : Value} (hnode : it.program.Quiet node)
    (hrun : it.interpretOn fuel node context b w = (.ok (.ok v), w'))
    (hu : it.Unfailing b fuel (.running node context) w) :
    (∃ k, it.program.Costs b (.running node context) w k [v] w') ∧
      ∀ m n, it.Counts b fuel (.running node context) w m → m.state.control = .effect n →
        ∃ k u w₁,
          it.program.Costs b (.effect m.state.context m.state.scope n) m.world k [u] w₁ ∧
            it.Counts b fuel (.running node context) w ⟨m.depth, m.state.succeed u, w₁⟩ ∧
              ∃ r d₀, ∀ d, d₀ ≤ d → ∀ stack, it.Glides b d r { m.state with stack } m.world
                ({ m.state with stack }.succeed u) w₁ := by
  have H : it.Failureless (it.Counts b fuel (.running node context) w) := ⟨hit, htidy, hu⟩
  constructor
  · obtain ⟨k, hspends⟩ := H.runningPays (H.closingPays b fuel) hnode hrun fun _ ↦ id
    exact ⟨k, hspends.costs⟩
  · intro m n hm hn
    obtain ⟨d, ⟨context', stack, scope, _, b'⟩, w₁⟩ := m
    cases hn
    -- the loop at the moment has ended, so there is a bound to the rounds that are left
    have hend : it.Concludes b fuel (.running node context) w w' := ⟨_, hrun, nofun⟩
    obtain ⟨w₂, ⟨r, x, hloop, hx⟩, -⟩ := hm.ends (persistent_ages b) hit.registry hend
    obtain ⟨root, hin⟩ := hm.inside H.tame hnode
    have hsmooth : it.Smooth b (it.Counts b fuel (.running node context) w) (x, w₂) d r root
        ⟨context', stack, scope, .effect n, b'⟩ w₁ := ⟨hin, fun _ ↦ hm.trans, hloop, hx⟩
    obtain rfl : b' = b := hin.budget H.tame
    obtain ⟨r', k, u, w₃, -, hspends, hvalue⟩ := hsmooth.pays H (H.closingPays b' d)
    obtain ⟨r'', d₀, hdoes⟩ := hspends.does hit
    exact ⟨k, u, w₃, hspends.costs, hvalue.counted _ (.here _ _ _), r'', d₀,
      fun d hd ↦ hdoes d hd u rfl⟩

/-- An interpreter without a step limit. -/
def unhurriedTally : Interpreter Tally := plain tally "weft" false

/-- A region with two branches, the first of which registers a release effect. -/
def sharedRegion : Node Tally :=
  .region fun _ ↦ .done (.node
    (.parallel [.finalizer (.done (.node .unit)), .unit] fun _ ↦ .done (.ok .unit)))

/-- The region takes nine steps, two of them in the release effect, and its run one more. -/
theorem sharedRegion_steps :
    ∃ w', tally.Costs ⟨0⟩ (.running sharedRegion .empty) tallyWorld 10 [.unit] w' := by
  have hit : unhurriedTally.IsPlain := isPlain_plain tally "weft" false
  have hunit : tally.Quiet .unit := Program.all_of trivial nofun
  have hquiet : tally.Quiet sharedRegion := by
    refine Program.all_of (fun _ ↦ trivial) ?_
    rintro m ⟨s, ⟨⟩⟩
    refine Program.all_of (fun _ ↦ trivial) fun m hm ↦ ?_
    rcases List.mem_cons.1 hm with rfl | hm
    · refine Program.all_of trivial ?_
      rintro m ⟨⟩
      exact hunit
    · rcases List.mem_singleton.1 hm with rfl
      exact hunit
  obtain ⟨w', hdoes⟩ : ∃ w', unhurriedTally.Does ⟨0⟩ 9 0
      (.running sharedRegion .empty) tallyWorld [.unit] w' := by
    refine ⟨_, .running hit (.region hit (fun _ ↦ rfl) (.parallel hit (.branch hit
      (.finalizer hit rfl) (.branch hit (.pure hit fun _ ↦ rfl) .noBranches)) fun _ ↦ rfl)
      (.closing (d := 8) rfl (.release (fun _ ↦ rfl) (.running hit (.pure hit fun _ ↦ rfl)
        (.fresh (d := 7) rfl) (by decide)) .noFinalizers)))
      (.fresh (d := 8) rfl) (by decide)⟩
  obtain ⟨hrun, hu⟩ := hdoes .unit rfl
  obtain ⟨⟨k, hk⟩, -⟩ := steps_add_up hit tidy_tally hquiet hrun hu
  have hend : w' = _ := (congrArg Prod.snd hrun).symm
  have hused : (w'.budget ⟨0⟩).used = 10 := by
    rw [hend]
    decide +kernel
  have hsum : (w'.budget ⟨0⟩).used = min (0 + k) wordMax :=
    hk.counted.used (by decide) (by decide)
  have hmax : 10 < wordMax := by decide
  obtain rfl : k = 10 := by omega
  exact ⟨w', hk⟩

/-! ### Closing by hand -/

namespace Does

/-- A bind whose continuation closes a scope by hand makes three rounds. The finalizers of the scope
take their steps in the last one. -/
theorem closeScope (hit : it.IsPlain) {context : Context} {s scope : ScopeId} {v : Value}
    (h : it.Does b d r (.closing s) (w.ticks b 3) [] w') :
    it.Does b d 3 (.effect context scope (.bind .unit fun _ ↦ .closeScope s fun _ ↦
      .done (.value v))) w [v] w' := by
  rintro _ ⟨⟩ stack
  have hunit : it.Does b d 1 (.effect context scope .unit) (w.ticks b 1) [.unit] (w.ticks b 2) :=
    .pure hit fun _ ↦ rfl
  have hclosed : (it.host (it.closeScope d)).attempt
      (it.program.continuing (.closeScope s fun _ ↦ .done (.value v))) (w.ticks b 3) =
        (.ok (.ok (.value v)), w') := by
    rw [Host.attempt_eq_ok]
    exact (congrFun (Host.perform_closeScope _ s _) _).trans (Machine.bind_ok h.1 _)
  have hdispatch : it.Glides b d 1 ⟨context, stack, scope, .effect (.bind .unit fun _ ↦
      .closeScope s fun _ ↦ .done (.value v)), b⟩ w ⟨context, .resume (fun _ ↦
        .closeScope s fun _ ↦ .done (.value v)) :: stack, scope, .effect .unit, b⟩ (w.ticks b 1) :=
    glides_effect hit rfl rfl
  exact (hdispatch.trans (hunit .unit rfl _)).trans
    (glides_value hit nofun (Machine.bind_ok hclosed _))

/-- A scope that is closed already closes without a step. -/
theorem closed {s : ScopeId} (hs : (w.scope s).closed = true) :
    it.Does b (d + 1) 0 (.closing s) w [] w := by
  refine ⟨?_, fun m hm ↦ ?_⟩
  · rcases hshut : it.closeScope (d + 1) s w with ⟨x, w'⟩
    rcases Host.shut_eq hshut with ⟨-, rfl, rfl⟩ | ⟨hopen, -⟩
    · rfl
    · cases hs.symm.trans hopen
  · cases hm with
    | closes hopen => cases hs.symm.trans hopen

end Does

/-- A region whose body registers a release effect and then closes the scope of the region by
hand. -/
def handClosedRegion : Node Tally :=
  .region fun s ↦ .done (.node (.bind (.finalizer (.done (.node .unit))) fun _ ↦
    .done (.effect (.node (.bind .unit fun _ ↦ .closeScope s fun _ ↦ .done (.value .unit))))))

/-- The effect that closes the scope is in hand. -/
def handClosing : Moment Tally where
  depth := 9
  state := ⟨.empty, [.closeScope ⟨1⟩ ⟨0⟩], ⟨1⟩,
    .effect (.bind .unit fun _ ↦ .closeScope ⟨1⟩ fun _ ↦ .done (.value .unit)), ⟨0⟩⟩
  world :=
    let opened := (tallyWorld.enterScope.2.ticks ⟨0⟩ 1).enterScope.2.ticks ⟨0⟩ 2
    (opened.addFinalizer ⟨1⟩ (.release (.done (.node .unit)) .empty ⟨0⟩)).2.ticks ⟨0⟩ 1

/-- In a run without a failure the effect takes five steps, though its source takes one and its
continuation answers with a value. -/
theorem handClosing_steps :
    (∃ w', unhurriedTally.interpretOn 9 handClosedRegion .empty ⟨0⟩ tallyWorld =
      (.ok (.ok .unit), w')) ∧
      unhurriedTally.Unfailing ⟨0⟩ 9 (.running handClosedRegion .empty) tallyWorld ∧
        unhurriedTally.Counts ⟨0⟩ 9 (.running handClosedRegion .empty) tallyWorld handClosing ∧
          ∃ w', unhurriedTally.Glides ⟨0⟩ 9 3 handClosing.state handClosing.world
              (handClosing.state.succeed .unit) w' ∧
            handClosing.world.Counted ⟨0⟩ 5 w' ∧ ¬handClosing.world.Counted ⟨0⟩ (2 + 1) w' := by
  have hit : unhurriedTally.IsPlain := isPlain_plain tally "weft" false
  obtain ⟨w₁, hhand, hcounted, hclosed, hroot⟩ : ∃ w₁, unhurriedTally.Does ⟨0⟩ 9 3
      (.effect .empty ⟨1⟩ (.bind .unit fun _ ↦ .closeScope ⟨1⟩ fun _ ↦ .done (.value .unit)))
        handClosing.world [.unit] w₁ ∧ handClosing.world.Counted ⟨0⟩ 5 w₁ ∧
          (w₁.scope ⟨1⟩).closed = true ∧ w₁.scope ⟨0⟩ = .fresh :=
    ⟨_, .closeScope hit (.closing (d := 8) rfl (.release (fun _ ↦ rfl) (.running hit
      (.pure hit fun _ ↦ rfl) (.fresh (d := 7) rfl) (by decide)) .noFinalizers)), rfl, rfl, rfl⟩
  have hfresh : ((w₁.ticks ⟨0⟩ 1).ticks ⟨0⟩ 1).scope ⟨0⟩ = .fresh := hroot
  obtain ⟨w', hdoes⟩ : ∃ w', unhurriedTally.Does ⟨0⟩ 9 0 (.running handClosedRegion .empty)
      tallyWorld [.unit] w' :=
    ⟨_, .running hit (.region hit (fun _ ↦ rfl) (.bindEffect hit (.finalizer hit rfl) (fun _ ↦ rfl)
      hhand) (.closed (d := 8) hclosed)) (.fresh (d := 8) hfresh) (by decide)⟩
  obtain ⟨hrun, hu⟩ := hdoes .unit rfl
  refine ⟨⟨_, hrun⟩, hu, .body (.next rfl (.next rfl (.next rfl (.next rfl (.here _ _ _))))), w₁,
    hhand .unit rfl _, hcounted, fun hthree ↦ ?_⟩
  have hused := hcounted.used (by decide) (by decide)
  rw [hthree.used (by decide) (by decide)] at hused
  revert hused
  decide

end Interpreter

end EffectMachine
