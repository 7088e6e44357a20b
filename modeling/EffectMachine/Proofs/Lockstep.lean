import EffectMachine.Proofs.Conduct
import EffectMachine.Proofs.Purity

/-!
# Two runs in step

A pure effect is run twice, from different worlds. What the two runs own is the same up to where
they started (`Interpreter.Pairing`): the scopes that they have opened are numbered from different
numbers on, their clocks show different readings, and they count on different budgets. What was in
the worlds before is not touched and so need not be related at all.

`Pairing.Worlds` relates the worlds, with one lemma for each operation on them, and `Pairing.States`
what the runs hold. Two computations are *in step* (`Pairing.InStep`) if they lead from related
worlds to related worlds and give related answers. Closures, branches and handlers are: they read
the clock, but only to keep the reading, and move it by the same amounts.
-/

namespace EffectMachine

variable {S : Signature} {α β γ δ : Type}

/-- Where a run starts: how many scopes there are, what the clock shows and has recorded, and which
budget the run counts on. -/
structure Origin where
  scopes : Nat
  nanos : Nat
  sleeps : Array Duration
  budget : BudgetId

namespace Origin

/-- A scope opened since. -/
def scope (a : Origin) (i : Nat) : ScopeId := ⟨a.scopes + i⟩

/-- What the clock shows when it has moved. -/
def reading (a : Origin) (t : Nat) : Nat := min (a.nanos + t) wordMax

theorem scope_ne (a : Origin) {i j : Nat} (h : i ≠ j) : a.scope i ≠ a.scope j := by
  intro heq
  have hindex : a.scopes + i = a.scopes + j := congrArg ScopeId.index heq
  omega

end Origin

/-- Two runs of related effects, by where they start. -/
structure Interpreter.Pairing (it : Interpreter S) extends Interpreter.Purity it where
  left : Origin
  right : Origin

namespace Interpreter.Pairing

variable {it : Interpreter S} (P : it.Pairing)

/-! ### What is related -/

/-- Two readings were taken when the clocks had moved by the same amount. -/
def Readings (s s' : Nat) : Prop := ∃ t, s = P.left.reading t ∧ s' = P.right.reading t

/-- Two scopes were opened at the same point of the runs. -/
def Ids (s s' : ScopeId) : Prop := ∃ i, s = P.left.scope i ∧ s' = P.right.scope i

/-- Two finalizers are release effects of the runs, built by related closures. -/
inductive Finalizers : Finalizer S → Finalizer S → Prop where
  | release {build build' context}
      (h : (it.program.building build).Agree P.related (it.program.building build')) :
      Finalizers (.release build context P.left.budget) (.release build' context P.right.budget)

/-- Two scopes have related finalizers. -/
structure Scopes (s s' : Scope S) : Prop where
  closed : s.closed = s'.closed
  finalizers : List.Forall₂ P.Finalizers s.finalizers s'.finalizers

/-- Two worlds are the same as far as the runs have shaped them. -/
structure Worlds (w w' : World S) : Prop where
  size : ∃ k, w.scopes.size = P.left.scopes + k ∧ w'.scopes.size = P.right.scopes + k
  scopes : ∀ i, P.Scopes (w.scope (P.left.scope i)) (w'.scope (P.right.scope i))
  nanos : P.Readings w.clock.nanos w'.clock.nanos
  sleeps : ∃ ds, w.clock.sleeps = P.left.sleeps ++ ds ∧ w'.clock.sleeps = P.right.sleeps ++ ds
  born : P.left.budget.index < w.budgets.size
  born' : P.right.budget.index < w'.budgets.size
  budget : w.budget P.left.budget = w'.budget P.right.budget

/-- Two branches stand in the same place. -/
def Forks (f f' : Fork S) : Prop := ForkState.Mirrors P.related f.state f'.state

/-- Two retry sessions are at the same point. -/
structure Sessions (r r' : RetrySession S) : Prop where
  source : P.related r.source r'.source
  decides : ∀ jitter failed, jitter.SameStream r.schedule.source →
    (r.schedule.decideFrom jitter failed).Agree Eq (r'.schedule.decideFrom jitter failed)
  stream : r.jitter.SameStream r.schedule.source
  jitter : r.jitter = r'.jitter
  attempt : r.attempt = r'.attempt
  startedAt : P.Readings r.startedAt r'.startedAt

/-- Two frames wait for the same. -/
inductive Frames : Frame S → Frame S → Prop where
  | resume {next next'} (h : ∀ v,
      (it.program.continuing (next v)).Agree (Control.Mirrors P.related)
        (it.program.continuing (next' v))) : Frames (.resume next) (.resume next')
  | recover {accepts accepts' handler handler'}
      (ha : ∀ c c', c.Like c' → (accepts c).Agree Eq (accepts' c'))
      (h : ∀ c c', c.Like c' → (it.program.building (handler c)).Agree P.related
        (it.program.building (handler' c'))) :
      Frames (.recover accepts handler) (.recover accepts' handler')
  | restoreContext (context) : Frames (.restoreContext context) (.restoreContext context)
  | closeScope {s s' parent parent'} (h : P.Ids s s') (hp : P.Ids parent parent') :
      Frames (.closeScope s parent) (.closeScope s' parent')
  | retry {r r'} (h : P.Sessions r r') : Frames (.retry r) (.retry r')
  | timeout (limit) {s s'} (h : P.Readings s s') : Frames (.timeout limit s) (.timeout limit s')
  | parallel {rest rest' collected collect collect'} (h : List.Forall₂ P.Forks rest rest')
      (hc : ∀ vs, (collect vs).Agree Eq (collect' vs)) :
      Frames (.parallel rest collected collect) (.parallel rest' collected collect')
  | race {rest rest' failures failures'} (h : List.Forall₂ P.Forks rest rest')
      (hf : List.Forall₂ Cause.Like failures failures') :
      Frames (.race rest failures) (.race rest' failures')

/-- Two states of the runs are the same. -/
structure States (st st' : State S) : Prop where
  context : st.context = st'.context
  stack : List.Forall₂ P.Frames st.stack st'.stack
  scope : P.Ids st.scope st'.scope
  control : Control.Mirrors P.related st.control st'.control
  budget : st.budget = P.left.budget
  budget' : st'.budget = P.right.budget

/-- From related worlds the two computations lead to related worlds, and answer alike. -/
def InStep (R : α → β → Prop) (m : Machine S α) (m' : Machine S β) : Prop :=
  ∀ ⦃w w'⦄, P.Worlds w w' → Matches Eq R (m w).1 (m' w').1 ∧ P.Worlds (m w).2 (m' w').2

variable {P}

/-! ### Worlds -/

namespace Worlds

variable {w w' : World S}

/-- The scopes change, and nothing else that matters. -/
theorem withScopes (h : P.Worlds w w') {v v' : World S} (hc : v.clock = w.clock)
    (hc' : v'.clock = w'.clock) (hb : v.budgets = w.budgets) (hb' : v'.budgets = w'.budgets)
    (hsize : ∃ k, v.scopes.size = P.left.scopes + k ∧ v'.scopes.size = P.right.scopes + k)
    (hscopes : ∀ i, P.Scopes (v.scope (P.left.scope i)) (v'.scope (P.right.scope i))) :
    P.Worlds v v' where
  size := hsize
  scopes := hscopes
  nanos := by
    rw [hc, hc']
    exact h.nanos
  sleeps := by
    rw [hc, hc']
    exact h.sleeps
  born := hb ▸ h.born
  born' := hb' ▸ h.born'
  budget := by
    rw [World.budget, World.budget, hb, hb']
    exact h.budget

/-- What a run does not look at may change. -/
theorem change (h : P.Worlds w w') {v v' : World S} (hs : v.scopes = w.scopes)
    (hs' : v'.scopes = w'.scopes) (hc : v.clock = w.clock) (hc' : v'.clock = w'.clock)
    (hb : v.budgets = w.budgets) (hb' : v'.budgets = w'.budgets) : P.Worlds v v' := by
  refine h.withScopes hc hc' hb hb' ?_ fun i ↦ ?_
  · rw [hs, hs']
    exact h.size
  · rw [World.scope_congr hs, World.scope_congr hs']
    exact h.scopes i

theorem record (h : P.Worlds w w') (e e' : Event S) : P.Worlds (w.record e) (w'.record e') :=
  h.change rfl rfl rfl rfl rfl rfl

theorem withSlots (h : P.Worlds w w') (slots slots' : Heap (Slot S.Error)) :
    P.Worlds { w with slots } { w' with slots := slots' } :=
  h.change rfl rfl rfl rfl rfl rfl

/-- Both clocks move by the same amount and record the same duration. -/
theorem sleep (h : P.Worlds w w') (d : Duration) :
    P.Worlds (w.modifyClock fun c ↦ c.sleep d) (w'.modifyClock fun c ↦ c.sleep d) where
  size := h.size
  scopes := h.scopes
  nanos := by
    obtain ⟨t, ht, ht'⟩ := h.nanos
    refine ⟨t + min d.nanos wordMax, ?_, ?_⟩
    · show min (w.clock.nanos + min d.nanos wordMax) wordMax = _
      rw [ht, Origin.reading, Origin.reading]
      omega
    · show min (w'.clock.nanos + min d.nanos wordMax) wordMax = _
      rw [ht', Origin.reading, Origin.reading]
      omega
  sleeps := by
    obtain ⟨ds, hds, hds'⟩ := h.sleeps
    refine ⟨ds.push d, ?_, ?_⟩
    · show w.clock.sleeps.push d = _
      rw [hds, Array.push_append]
    · show w'.clock.sleeps.push d = _
      rw [hds', Array.push_append]
  born := h.born
  born' := h.born'
  budget := h.budget

/-- Both runs count on their budgets. -/
theorem modifyBudget (h : P.Worlds w w') (f : Budget → Budget) :
    P.Worlds (w.modifyBudget P.left.budget f) (w'.modifyBudget P.right.budget f) where
  size := h.size
  scopes := h.scopes
  nanos := h.nanos
  sleeps := h.sleeps
  born := (w.budgets.size_modify _ f).symm ▸ h.born
  born' := (w'.budgets.size_modify _ f).symm ▸ h.born'
  budget := by
    have hcell : ∀ (v : World S) (b : BudgetId), b.index < v.budgets.size →
        (v.modifyBudget b f).budget b = f (v.budget b) := by
      intro v b hb
      obtain ⟨x, hx⟩ : ∃ x, v.budgets.get? b.index = some x := ⟨_, Array.getElem?_eq_getElem hb⟩
      rw [World.budget, World.budget, World.modifyBudget, Heap.get?_modify_self, hx]
      rfl
    rw [hcell w _ h.born, hcell w' _ h.born', h.budget]

theorem openScope (h : P.Worlds w w') :
    P.Ids w.openScope.1 w'.openScope.1 ∧ P.Worlds w.openScope.2 w'.openScope.2 := by
  obtain ⟨k, hk, hk'⟩ := h.size
  have hs : w.openScope.1 = P.left.scope k := congrArg ScopeId.mk hk
  have hs' : w'.openScope.1 = P.right.scope k := congrArg ScopeId.mk hk'
  refine ⟨⟨k, hs, hs'⟩, h.withScopes rfl rfl rfl rfl ⟨k + 1, ?_, ?_⟩ fun i ↦ ?_⟩
  · rw [w.size_openScope, hk]
    rfl
  · rw [w'.size_openScope, hk']
    rfl
  · -- a scope that was there, the new one, or none
    rcases Nat.lt_trichotomy i k with hlt | rfl | hgt
    · have hi : (P.left.scope i).index < w.scopes.size := by
        show P.left.scopes + i < _
        omega
      have hi' : (P.right.scope i).index < w'.scopes.size := by
        show P.right.scopes + i < _
        omega
      rw [w.scope_openScope_of_lt hi, w'.scope_openScope_of_lt hi']
      exact h.scopes i
    · rw [← hs, ← hs', w.scope_openScope_self, w'.scope_openScope_self]
      exact ⟨rfl, .nil⟩
    · have hi : w.openScope.2.scopes.size ≤ (P.left.scope i).index := by
        rw [w.size_openScope]
        show _ ≤ P.left.scopes + i
        omega
      have hi' : w'.openScope.2.scopes.size ≤ (P.right.scope i).index := by
        rw [w'.size_openScope]
        show _ ≤ P.right.scopes + i
        omega
      rw [w.openScope.2.scope_of_size_le hi, w'.openScope.2.scope_of_size_le hi']
      exact ⟨rfl, .nil⟩

theorem enterScope (h : P.Worlds w w') :
    P.Ids w.enterScope.1 w'.enterScope.1 ∧ P.Worlds w.enterScope.2 w'.enterScope.2 :=
  ⟨h.openScope.1, h.openScope.2.record _ _⟩

theorem scope (h : P.Worlds w w') {s s' : ScopeId} (hs : P.Ids s s') :
    P.Scopes (w.scope s) (w'.scope s') := by
  obtain ⟨i, rfl, rfl⟩ := hs
  exact h.scopes i

/-- Both scopes accept the finalizer, or both refuse it. -/
theorem addFinalizer (h : P.Worlds w w') {s s' : ScopeId} (hs : P.Ids s s') {f f' : Finalizer S}
    (hf : P.Finalizers f f') :
    Matches Defect.Like Eq (w.addFinalizer s f).1 (w'.addFinalizer s' f').1 ∧
      P.Worlds (w.addFinalizer s f).2 (w'.addFinalizer s' f').2 := by
  have hscope := h.scope hs
  cases hc : (w.scope s).closed with
  | true =>
    have hc' : (w'.scope s').closed = true := hscope.closed.symm.trans hc
    rw [World.addFinalizer, if_pos hc, World.addFinalizer, if_pos hc']
    exact ⟨.error rfl, h.record _ _⟩
  | false =>
    have hc' : (w'.scope s').closed = false := hscope.closed.symm.trans hc
    obtain ⟨i, rfl, rfl⟩ := hs
    have hscopes : ∀ j, P.Scopes ((w.addFinalizer (P.left.scope i) f).2.scope (P.left.scope j))
        ((w'.addFinalizer (P.right.scope i) f').2.scope (P.right.scope j)) := by
      intro j
      by_cases hj : j = i
      · rw [hj, w.scope_addFinalizer_self hc f, w'.scope_addFinalizer_self hc' f']
        exact ⟨hscope.closed, .cons hf hscope.finalizers⟩
      · rw [w.scope_addFinalizer_of_ne (P.left.scope_ne hj),
          w'.scope_addFinalizer_of_ne (P.right.scope_ne hj)]
        exact h.scopes j
    have hsize : ∃ k, (w.addFinalizer (P.left.scope i) f).2.scopes.size = P.left.scopes + k ∧
        (w'.addFinalizer (P.right.scope i) f').2.scopes.size = P.right.scopes + k := by
      rw [w.size_addFinalizer, w'.size_addFinalizer]
      exact h.size
    -- otherwise only the scopes and the history have changed
    simp only [World.addFinalizer, hc, hc'] at hscopes hsize ⊢
    exact ⟨.ok rfl, h.withScopes rfl rfl rfl rfl hsize hscopes⟩

theorem shutScope (h : P.Worlds w w') {s s' : ScopeId} (hs : P.Ids s s') :
    P.Worlds (w.shutScope s) (w'.shutScope s') := by
  obtain ⟨i, rfl, rfl⟩ := hs
  refine h.withScopes rfl rfl rfl rfl ?_ fun j ↦ ?_
  · rw [w.size_shutScope, w'.size_shutScope]
    exact h.size
  · by_cases hj : j = i
    · rw [hj, w.scope_shutScope_self, w'.scope_shutScope_self]
      exact ⟨rfl, .nil⟩
    · rw [w.scope_shutScope_of_ne (P.left.scope_ne hj),
        w'.scope_shutScope_of_ne (P.right.scope_ne hj)]
      exact h.scopes j

end Worlds

/-! ### States -/

namespace States

variable {st st' : State S}

theorem holding (h : P.States st st') {c c' : Control S} (hc : Control.Mirrors P.related c c') :
    P.States (st.holding c) (st'.holding c') where
  context := h.context
  stack := h.stack
  scope := h.scope
  control := hc
  budget := h.budget
  budget' := h.budget'

theorem awaiting (h : P.States st st') : P.States st.awaiting st'.awaiting := h.holding .pending

theorem succeed (h : P.States st st') (v : Value) : P.States (st.succeed v) (st'.succeed v) :=
  h.holding (.value v)

theorem fail (h : P.States st st') {c c' : Cause S.Error} (hc : c.Like c') :
    P.States (st.fail c) (st'.fail c') :=
  h.holding (.failure hc)

theorem die (h : P.States st st') (d : Defect) : P.States (st.die d) (st'.die d) :=
  h.fail (.refl _)

theorem continueWith (h : P.States st st') {n n' : Node S} (hn : P.related n n') :
    P.States (st.continueWith n) (st'.continueWith n') :=
  h.holding (.effect hn)

theorem continueBuilt (h : P.States st st') {x x' : Except Defect (Node S)}
    (hx : Matches Eq P.related x x') : P.States (st.continueBuilt x) (st'.continueBuilt x') := by
  cases hx with
  | ok hn => exact h.continueWith hn
  | error hd =>
    subst hd
    exact h.die _

theorem withStack (h : P.States st st') {stack stack' : List (Frame S)}
    (hs : List.Forall₂ P.Frames stack stack') :
    P.States { st with stack } { st' with stack := stack' } where
  context := h.context
  stack := hs
  scope := h.scope
  control := h.control
  budget := h.budget
  budget' := h.budget'

theorem push (h : P.States st st') {f f' : Frame S} (hf : P.Frames f f') :
    P.States (st.push f) (st'.push f') :=
  h.withStack (.cons hf h.stack)

theorem withContext (h : P.States st st') (context : Context) :
    P.States { st with context } { st' with context } where
  context := rfl
  stack := h.stack
  scope := h.scope
  control := h.control
  budget := h.budget
  budget' := h.budget'

theorem withScope (h : P.States st st') {s s' : ScopeId} (hs : P.Ids s s') :
    P.States { st with scope := s } { st' with scope := s' } where
  context := h.context
  stack := h.stack
  scope := hs
  control := h.control
  budget := h.budget
  budget' := h.budget'

end States

/-! ### Computations in step -/

namespace InStep

variable {R : α → β → Prop} {Q : γ → δ → Prop} {m : Machine S α} {m' : Machine S β}
  {f : α → Machine S γ} {f' : β → Machine S δ}

theorem pure {a : α} {b : β} (h : R a b) : P.InStep R (Pure.pure a) (Pure.pure b) :=
  fun _ _ hw ↦ ⟨.ok h, hw⟩

theorem bind (h : P.InStep R m m') (hf : ∀ a b, R a b → P.InStep Q (f a) (f' b)) :
    P.InStep Q (m >>= f) (m' >>= f') := by
  intro w w' hw
  obtain ⟨hx, hw₁⟩ := h hw
  rcases hm : m w with ⟨x, w₁⟩
  rcases hm' : m' w' with ⟨x', w₁'⟩
  rw [hm, hm'] at hx hw₁
  cases hx with
  | ok hab =>
    rw [Machine.bind_ok hm, Machine.bind_ok hm']
    exact hf _ _ hab hw₁
  | error he =>
    rw [Machine.bind_error hm, Machine.bind_error hm']
    exact ⟨.error he, hw₁⟩

theorem gets {g : World S → α} {g' : World S → β} (h : ∀ w w', P.Worlds w w' → R (g w) (g' w')) :
    P.InStep R (.gets g) (.gets g') :=
  fun w w' hw ↦ ⟨.ok (h w w' hw), hw⟩

theorem modify {g g' : World S → World S} (h : ∀ w w', P.Worlds w w' → P.Worlds (g w) (g' w')) :
    P.InStep Eq (.modify g) (.modify g') :=
  fun w w' hw ↦ ⟨.ok rfl, h w w' hw⟩

theorem modifyGet {g : World S → α × World S} {g' : World S → β × World S}
    (h : ∀ w w', P.Worlds w w' → R (g w).1 (g' w').1 ∧ P.Worlds (g w).2 (g' w').2) :
    P.InStep R (.modifyGet g) (.modifyGet g') :=
  fun w w' hw ↦ ⟨.ok (h w w' hw).1, (h w w' hw).2⟩

/-- Both computations panic, or none. -/
theorem guarded {x : Except Escape α} {x' : Except Escape β} (h : Matches Eq R x x') :
    Matches Eq (Matches Eq R) (Machine.guarded x) (Machine.guarded x') := by
  cases h with
  | ok h => exact .ok (.ok h)
  | @error e e' h =>
    subst h
    cases e with
    | panic p => exact .ok (.error rfl)
    | exhausted => exact .error rfl

theorem guard (h : P.InStep R m m') : P.InStep (Matches Eq R) m.guard m'.guard := by
  intro w w' hw
  rw [Machine.guard_apply, Machine.guard_apply]
  exact ⟨guarded (h hw).1, (h hw).2⟩

/-- What is known of the results of one side may be added. -/
theorem answers {m : Machine S α} {m' : Machine S β} {R : α → β → Prop} {Q : α → Prop}
    (h : P.InStep R m m') (hm : m.Answers Q) : P.InStep (fun a b ↦ R a b ∧ Q a) m m' := by
  intro w w' hw
  obtain ⟨hx, hw'⟩ := h hw
  refine ⟨?_, hw'⟩
  rcases heq : m w with ⟨x, w₁⟩
  rcases heq' : m' w' with ⟨x', w₁'⟩
  rw [heq, heq'] at hx
  cases hx with
  | ok hab => exact .ok ⟨hab, hm heq⟩
  | error he => exact .error he

end InStep

/-! ### Closures and handlers -/

section

variable {close : Closer S}

/-- Pure closures leave the worlds alone. -/
theorem perform_inStep {R : α → β → Prop} {a : Action S α} {b : Action S β} (h : a.Agree R b) :
    P.InStep R ((it.host close).perform a) ((it.host close).perform b) := by
  obtain ⟨x, y, ha, hb, hxy⟩ := h
  intro w w' hw
  have hx : (it.host close).perform a w = _ := ha close w
  have hy : (it.host close).perform b w' = _ := hb close w'
  rw [hx, hy]
  refine ⟨?_, hw⟩
  cases hxy with
  | ok h => exact .ok h
  | error h => exact .error (congrArg Escape.panic h)

theorem attempt_inStep {R : α → β → Prop} {a : Action S α} {b : Action S β} (h : a.Agree R b) :
    P.InStep (Matches Eq R) ((it.host close).attempt a) ((it.host close).attempt b) :=
  (perform_inStep h).guard

theorem sleep_inStep (d : Duration) :
    P.InStep Eq ((it.host close).perform (it.strategy.sleep d))
      ((it.host close).perform (it.strategy.sleep d)) := by
  rw [P.strategy.sleep, Host.perform_sleep]
  exact .bind (.modify fun _ _ hw ↦ hw.sleep d) fun _ _ _ ↦ .pure rfl

theorem forkAll_inStep (context : Context) {ns ns' : List (Node S)}
    (hns : List.Forall₂ P.related ns ns') :
    P.InStep (List.Forall₂ P.Forks) ((it.host close).forkAll context ns)
      ((it.host close).forkAll context ns') := by
  induction hns with
  | nil => exact .pure .nil
  | cons hn _ ih =>
    have hfork : P.InStep P.Forks ((it.host close).fork ⟨_, context⟩)
        ((it.host close).fork ⟨_, context⟩) :=
      .bind (perform_inStep (P.strategy.fork hn context)) fun _ _ hs ↦
        .bind (.modifyGet (R := fun _ _ ↦ True) fun _ _ hw ↦
          ⟨trivial, hw.change rfl rfl rfl rfl rfl rfl⟩) fun _ _ _ ↦ .pure hs
    exact .bind hfork fun _ _ hf ↦ .bind ih fun _ _ hfs ↦ .pure (.cons hf hfs)

/-- What to do with the next branch is the same in both runs. -/
inductive Turns (P : it.Pairing) : Turn S → Turn S → Prop where
  | run {n n'} (h : P.related n n') (context) : Turns P (.run ⟨n, context⟩) (.run ⟨n', context⟩)
  | settled {o o'} (h : o.Like o') : Turns P (.settled o) (.settled o')

theorem turn_inStep {f f' : Fork S} (hf : P.Forks f f') :
    P.InStep P.Turns ((it.host close).turn f) ((it.host close).turn f') := by
  obtain ⟨i, s⟩ := f
  obtain ⟨i', s'⟩ := f'
  cases hf with
  | deferred h context => exact .pure (.run h context)
  | settled h => exact .pure (.settled h)
  | external handle =>
    exact .bind (perform_inStep (P.strategy.join i i' handle)) fun _ _ ho ↦ .pure (.settled ho)

theorem nextParallel_inStep {collect collect' : List Value → Action S (Except Defect Value)}
    (hc : ∀ vs, (collect vs).Agree Eq (collect' vs)) {fs fs' : List (Fork S)}
    (hfs : List.Forall₂ P.Forks fs fs') (collected : List Value) {st st' : State S}
    (hst : P.States st st') :
    P.InStep P.States ((it.host close).nextParallel collect fs collected st)
      ((it.host close).nextParallel collect' fs' collected st') := by
  induction hfs generalizing collected with
  | nil =>
    refine .bind (attempt_inStep (hc _)) fun x x' hx ↦ ?_
    obtain rfl := hx.eq
    rcases x with d | d | v
    · exact .pure (hst.die d)
    · exact .pure (hst.die d)
    · exact .pure (hst.succeed v)
  | cons hf hrest ih =>
    refine .bind (turn_inStep hf) fun t t' ht ↦ ?_
    cases ht with
    | run hn context =>
      exact .pure (((hst.push (.parallel hrest hc)).withContext context).continueWith hn)
    | settled ho =>
      cases ho with
      | error h => exact .pure (hst.fail h)
      | ok h =>
        subst h
        exact ih _

theorem nextRace_inStep {fs fs' : List (Fork S)} (hfs : List.Forall₂ P.Forks fs fs')
    {failures failures' : List (Cause S.Error)} (hf : List.Forall₂ Cause.Like failures failures')
    {st st' : State S} (hst : P.States st st') :
    P.InStep P.States ((it.host close).nextRace fs failures st)
      ((it.host close).nextRace fs' failures' st') := by
  induction hfs generalizing failures failures' with
  | nil => exact .pure (hst.fail (.composite (List.rel_reverse hf)))
  | cons h hrest ih =>
    refine .bind (turn_inStep h) fun t t' ht ↦ ?_
    cases ht with
    | run hn context =>
      exact .pure (((hst.push (.race hrest hf)).withContext context).continueWith hn)
    | settled ho =>
      cases ho with
      | error h => exact ih (.cons h hf)
      | ok h =>
        subst h
        exact .pure (hst.succeed _)

/-- What an asynchronous effect comes to when its registration has left the slot as `c` and ended in
`x`. -/
def awaited {ε : Type} (c : Slot ε) : Except Panic Unit → Outcome ε Value
  | .ok _ => c.outcome.getD (.error (.defect .neverSettled))
  | .error p => .error (.defect (.panic p.text))

theorem onAsync_apply {start : SlotId → Action S Unit} {c : Slot S.Error} {x : Except Panic Unit}
    (h : Action.Registers start c x) (P : it.Pairing) (close : Closer S) (st : State S)
    (w : World S) :
    ∃ slots, Handler.onAsync (it.host close) (.async start) st w =
      (.ok (st.holding (.ofOutcome (awaited c x))), { w with slots }) := by
  have hattempt : (it.host close).attempt (start w.newSlot.1) w.newSlot.2 =
      (Machine.guarded (x.mapError Escape.panic), { w with slots := w.slots.alloc c }) := by
    have hperform : (it.host close).perform (start w.newSlot.1) w.newSlot.2 = _ := h close w
    rw [Host.attempt, Machine.guard_apply, hperform]
  simp only [Handler.onAsync]
  rw [Machine.bind_ok (Machine.modifyGet_apply World.newSlot w)]
  cases x with
  | error p => exact ⟨_, Machine.bind_ok hattempt _⟩
  | ok u =>
    have hslot : World.slot { w with slots := w.slots.alloc c } w.newSlot.1 = c := by
      show ((w.slots.alloc c).get? w.slots.size).getD .fresh = c
      rw [Heap.get?_alloc_self]
      rfl
    have hawait : (it.host close).perform (it.strategy.await w.newSlot.1)
        { w with slots := w.slots.alloc c } = (.ok (awaited c (.ok u)),
          { w with slots := (w.slots.alloc c).modify w.slots.size Slot.take }) := by
      rw [P.strategy.await, Strategy.takeOrFail, Host.perform_take]
      show (Except.ok ((World.slot _ _).outcome.getD _), _) = _
      rw [hslot]
      rfl
    exact ⟨_, (Machine.bind_ok hattempt _).trans (Machine.bind_ok hawait _)⟩

theorem async_inStep {start start' : SlotId → Action S Unit} {c c' : Slot S.Error}
    {x : Except Panic Unit} (h : Action.Registers start c x) (h' : Action.Registers start' c' x)
    (hc : Option.Rel Outcome.Like c.outcome c'.outcome) {st st' : State S}
    (hst : P.States st st') :
    P.InStep P.States (Handler.onAsync (it.host close) (.async start) st)
      (Handler.onAsync (it.host close) (.async start') st') := by
  intro w w' hw
  obtain ⟨slots, hslots⟩ := onAsync_apply h P close st w
  obtain ⟨slots', hslots'⟩ := onAsync_apply h' P close st' w'
  rw [hslots, hslots']
  refine ⟨?_, hw.withSlots slots slots'⟩
  cases x with
  | error p => exact .ok (hst.die _)
  | ok u =>
    rw [awaited, awaited]
    generalize c.outcome = o at hc
    generalize c'.outcome = o' at hc
    cases hc with
    | none => exact .ok (hst.die _)
    | some h =>
      cases h with
      | error h => exact .ok (hst.fail h)
      | ok h =>
        subst h
        exact .ok (hst.succeed _)

/-- **The handlers of related effects are in step.** -/
theorem standard_inStep {node node' : Node S} (hn : node.Mirrors it.program P.related node')
    {st st' : State S} (hst : P.States st st') :
    P.InStep P.States (Handler.standard node.tag (it.host close) node st)
      (Handler.standard node'.tag (it.host close) node' st') := by
  -- contexts and budgets are made the same in the terms, since closures and frames keep them
  obtain ⟨context, stack, scope, control, b⟩ := st
  obtain ⟨context', stack', scope', control', b'⟩ := st'
  obtain rfl : context = context' := hst.context
  obtain rfl : b = P.left.budget := hst.budget
  obtain rfl : b' = P.right.budget := hst.budget'
  cases hn with
  | pure h =>
    refine .bind (attempt_inStep h) fun x x' hx ↦ ?_
    obtain rfl := hx.eq
    cases x with
    | ok v => exact .pure (hst.succeed v)
    | error d => exact .pure (hst.die d)
  | fail h => exact .pure (hst.fail h)
  | suspend h => exact .bind (attempt_inStep h) fun _ _ hx ↦ .pure (hst.continueBuilt hx)
  | bind hs h => exact .pure ((hst.push (.resume h)).continueWith hs)
  | service key =>
    simp only [Handler.standard, Node.tag, Handler.onService]
    cases context.find? key with
    | none => exact .pure (hst.fail (.refl _))
    | some s => exact .pure (hst.succeed _)
  | provide hs h =>
    refine .bind (attempt_inStep (h context)) fun x x' hx ↦ ?_
    obtain rfl := hx.eq
    rcases x with d | missing | context
    · exact .pure (hst.die d)
    · exact .pure (hst.fail (.refl _))
    · exact .pure (((hst.push (.restoreContext _)).withContext context).continueWith hs)
  | sleep d => exact .bind (sleep_inStep d) fun _ _ _ ↦ .pure (hst.succeed _)
  | async h h' hc => exact async_inStep h h' hc hst
  | recover hs ha h => exact .pure ((hst.push (.recover ha h)).continueWith hs)
  | parallel hs h =>
    refine .bind (forkAll_inStep context hs) fun fs fs' hfs ↦ ?_
    exact nextParallel_inStep h hfs [] hst
  | race hs =>
    cases hs with
    | nil => exact .pure (hst.die _)
    | cons h hs =>
      refine .bind (forkAll_inStep context (.cons h hs)) fun fs fs' hfs ↦ ?_
      exact nextRace_inStep hfs .nil hst
  | retry hs hj hj' heq h =>
    refine .bind (.gets fun _ _ hw ↦ hw.nanos) fun s s' hs' ↦ ?_
    have hsession : P.Sessions ⟨_, _, _, 0, s⟩ ⟨_, _, _, 0, s'⟩ :=
      ⟨hs, h, .refl _, heq, rfl, hs'⟩
    exact .pure ((hst.push (.retry hsession)).continueWith hs)
  | region h =>
    refine .bind (.modifyGet fun _ _ hw ↦ hw.enterScope) fun s s' hs ↦ ?_
    refine .bind (attempt_inStep (h s s')) fun x x' hx ↦ ?_
    exact .pure (((hst.push (.closeScope hs hst.scope)).withScope hs).continueBuilt hx)
  | finalizer h =>
    refine .bind (.modifyGet fun _ _ hw ↦ hw.addFinalizer hst.scope (.release h))
      fun x x' hx ↦ ?_
    cases hx with
    | error h => exact .pure (hst.fail (.defect h))
    | ok => exact .pure (hst.succeed _)
  | timeout hs limit =>
    refine .bind (.gets fun _ _ hw ↦ hw.nanos) fun s s' hs' ↦ ?_
    exact .pure ((hst.push (.timeout limit hs')).continueWith hs)

end

end Interpreter.Pairing

end EffectMachine
