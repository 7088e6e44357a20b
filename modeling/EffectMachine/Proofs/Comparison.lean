import EffectMachine.Proofs.Counting
import EffectMachine.Proofs.Independence

/-!
# A run and the same run without its step limit

Two interpreters that differ in the step limit alone do the same until a step exceeds the limit.
`Interpreter.Compares` says so of any part of a run: either both do the same, and no step exceeds
the limit, or both come to the same moment at which a step does (`Interpreter.Cut`).

In the second case the limited run is *doomed*: whatever it yields from there on, it yields with a
spent budget, so that its next step exceeds the limit again. What it may yield depends on the part;
for outcomes it is a failure with the defect of the limit among its leaves.

A limited run always ends, but for one reason: an abort closes scopes while its budget is exempt
from the limit, and the release effects there may go on for ever (`Interpreter.Stuck`).
-/

namespace EffectMachine

variable {S : Signature} {α β : Type}

open Machine (Along Firm)

/-! ### What happens in between -/

/-- No step limit has been exceeded in between. -/
def World.Unexceeded (w w' : World S) : Prop :=
  ∃ u, w'.history = u ++ w.history ∧ ∀ b n, .exceeded b n ∉ u

namespace World.Unexceeded

variable {w w' w'' : World S}

theorem silent (h : w'.history = w.history) : w.Unexceeded w' :=
  ⟨[], h, fun _ _ ↦ List.not_mem_nil⟩

theorem trans (h : w.Unexceeded w') (h' : w'.Unexceeded w'') : w.Unexceeded w'' := by
  obtain ⟨u, hu, hnone⟩ := h
  obtain ⟨v, hv, hnone'⟩ := h'
  refine ⟨v ++ u, by rw [hv, hu, List.append_assoc], fun b n he ↦ ?_⟩
  exact (List.mem_append.1 he).elim (hnone' b n) (hnone b n)

theorem record (w : World S) {e : Event S} (he : ∀ b n, e ≠ .exceeded b n) :
    w.Unexceeded (w.record e) :=
  ⟨[e], rfl, fun b n h ↦ he b n (List.mem_singleton.1 h).symm⟩

end World.Unexceeded

/-- Budgets are left alone, and no step limit is exceeded. -/
structure World.Calm (w w' : World S) : Prop where
  budgets : w'.budgets = w.budgets
  unexceeded : w.Unexceeded w'

namespace World.Calm

theorem addFinalizer (w : World S) (s : ScopeId) (f : Finalizer S) :
    w.Calm (w.addFinalizer s f).2 := by
  unfold World.addFinalizer
  split
  · exact ⟨rfl, .record w nofun⟩
  · exact ⟨rfl, .record _ nofun⟩

theorem enterScope (w : World S) : w.Calm w.enterScope.2 := ⟨rfl, .record _ nofun⟩

theorem drift : Drift (World.Calm : World S → World S → Prop) where
  refl _ := ⟨rfl, .silent rfl⟩
  trans h h' := ⟨h'.budgets.trans h.budgets, h.unexceeded.trans h'.unexceeded⟩
  state _ _ := ⟨rfl, .silent rfl⟩
  clock _ _ := ⟨rfl, .silent rfl⟩
  noise _ _ := ⟨rfl, .silent rfl⟩
  newSlot _ := ⟨rfl, .silent rfl⟩
  settle _ _ _ := ⟨rfl, .silent rfl⟩
  forks _ _ := ⟨rfl, .silent rfl⟩
  openScope _ := ⟨rfl, .silent rfl⟩
  addCleanup w s c := addFinalizer w s (.cleanup c)

theorem takeOutcome (w : World S) (s : SlotId) : w.Calm (w.takeOutcome s).2 := ⟨rfl, .silent rfl⟩

theorem budget {w w' : World S} (h : w.Calm w') (b : BudgetId) : w'.budget b = w.budget b := by
  rw [World.budget, h.budgets]
  rfl

end World.Calm

/-- Quiet effects leave budgets alone, as long as no scope closes. -/
theorem Discipline.calm {h : Host S} (hσ : h.strategy.Quiet h.program) :
    Discipline World.Calm (¬h.strategy.Steady) h h.program.Quiet :=
  .quiet_of World.Calm.drift World.Calm.takeOutcome hσ (Program.hereditary_quiet _)

/-- Budgets age whatever a run does. -/
theorem persistent_ages (b : BudgetId) : Persistent (World.Ages b : World S → World S → Prop) where
  refl _ := .of_budget rfl
  trans := .trans
  state _ _ := .of_budget rfl
  clock _ _ := .of_budget rfl
  noise _ _ := .of_budget rfl
  newSlot _ := .of_budget rfl
  settle _ _ _ := .of_budget rfl
  take _ _ := .of_budget rfl
  forks _ _ := .of_budget rfl
  openScope _ := .of_budget rfl
  addCleanup w s _ := .of_budget ((World.Calm.addFinalizer w s _).budget b)
  event _ _ _ := .of_budget rfl
  offer w s f := .of_budget ((World.Calm.addFinalizer w s f).budget b)
  shutScope _ _ := .of_budget rfl
  tick w b' := .tick w b'
  abort _ h := h.aborted
  invocation _ _ _ := .of_budget rfl

/-! ### Budgets within the limit -/

/-- The budget is within the limit, and no abort is in progress. -/
structure Unspent (b : BudgetId) (n : Nat) (w : World S) : Prop where
  born : b.index < w.budgets.size
  within : (w.budget b).used ≤ n
  idle : (w.budget b).aborting = 0

namespace Unspent

variable {b : BudgetId} {n : Nat} {w w' : World S}

theorem of_budgets (h : Unspent b n w) (hw : w'.budgets = w.budgets) : Unspent b n w' := by
  have hb : w'.budget b = w.budget b := by
    rw [World.budget, hw]
    rfl
  exact ⟨hw ▸ h.born, hb ▸ h.within, hb ▸ h.idle⟩

/-- A new budget, on which nothing has been counted. -/
theorem newBudget (n : Nat) (w : World S) :
    Unspent (w.newBudget {}).1 n (w.newBudget {}).2 := by
  have hfresh : (w.newBudget {}).2.budget (w.newBudget {}).1 = {} := by
    simp [World.budget, World.newBudget]
  refine ⟨?_, ?_, ?_⟩
  · simp [World.newBudget]
  · rw [hfresh]
    exact Nat.zero_le n
  · rw [hfresh]

theorem budget_tick (h : Unspent b n w) :
    (w.modifyBudget b Budget.tick).budget b = (w.budget b).tick := by
  obtain ⟨budget, hborn⟩ : ∃ budget, w.budgets.get? b.index = some budget :=
    ⟨_, Array.getElem?_eq_getElem h.born⟩
  rw [World.budget, World.budget, World.modifyBudget, Heap.get?_modify_self, hborn]
  rfl

/-- Counting a step that does not exceed the limit. -/
theorem tick (h : Unspent b n w)
    (hl : ((w.modifyBudget b Budget.tick).budget b).exceeds (some n) = none) :
    Unspent b n (w.modifyBudget b Budget.tick) ∧
      (n < wordMax → ((w.modifyBudget b Budget.tick).budget b).used = (w.budget b).used + 1) := by
  rw [h.budget_tick] at hl ⊢
  have hidle : (w.budget b).tick.aborting = 0 := h.idle
  have hle : (w.budget b).tick.used ≤ n := Nat.le_of_not_lt fun hlt ↦ by
    have hexceeds := Budget.exceeds_eq_some.2 ⟨rfl, hlt, hidle⟩
    rw [hl] at hexceeds
    cases hexceeds
  have hborn : b.index < (w.modifyBudget b Budget.tick).budgets.size := by
    rw [World.modifyBudget, Heap.size_modify]
    exact h.born
  refine ⟨⟨hborn, by rwa [h.budget_tick], by rwa [h.budget_tick]⟩, fun hn ↦ ?_⟩
  simp only [Budget.tick] at hle ⊢
  omega

end Unspent

/-! ### Moments at which a step exceeds the limit -/

/-- The next step exceeds the limit. -/
def Moment.Exceeds (b : BudgetId) (n : Nat) (m : Moment S) : Prop :=
  ((m.world.modifyBudget b Budget.tick).budget b).exceeds (some n) = some n

/-- The limit can be exceeded, and there is fuel for the rounds within it. -/
structure Ample (n fuel : Nat) : Prop where
  word : n < wordMax
  fuel : n + 2 ≤ fuel

/-- Within the limit there is always fuel left for two more. -/
theorem Ample.two_le {b : BudgetId} {n fuel left : Nat} {w : World S} (h : Ample n fuel)
    (hw : Unspent b n w) (hleft : fuel ≤ left + (w.budget b).used) : 2 ≤ left := by
  have hfuel := h.fuel
  have hwithin := hw.within
  omega

namespace Interpreter

/-- The interpreter without its step limit. -/
def unlimited (it : Interpreter S) : Interpreter S :=
  { it with config := { it.config with stepLimit := none } }

variable (it : Interpreter S) (b : BudgetId) (n fuel : Nat)

/-- With the limit and without it, a run comes to the same moment at which a step exceeds the limit.
It is the first such moment. -/
def Cut (d : Nat) (a : Activity S) (w : World S) : Prop :=
  ∃ m, it.Counts b d a w m ∧ it.unlimited.Counts b d a w m ∧ w.Unexceeded m.world ∧ m.Exceeds b n

/-- A run comes to a moment at which a step exceeds the limit, and the abort there does not end. All
but a fixed amount of the fuel is left for it, so the exempt release effects are what takes the fuel
up. -/
def Stuck (d : Nat) (a : Activity S) (w : World S) : Prop :=
  ∃ m w', it.Counts b d a w m ∧ m.Exceeds b n ∧ fuel ≤ m.depth + n ∧
    it.abort (it.closeScope m.depth) n m.state
      ((m.world.modifyBudget b Budget.tick).record (.exceeded b n)) = (.error .exhausted, w')

end Interpreter

/-- What may come of a computation once the limit has been exceeded: results are as said and leave
the budget spent, there is no panic, and the fuel suffices unless the run is stuck. -/
structure Doomed (b : BudgetId) (n fuel : Nat) (stuck : Prop) (P : α → Prop)
    (r : Except Escape α × World S) : Prop where
  ok : ∀ a, r.1 = .ok a → P a ∧ Spent b n r.2
  error : ∀ e, r.1 = .error e → e = .exhausted ∧ (Ample n fuel → stuck)

namespace Doomed

variable {b : BudgetId} {n fuel : Nat} {stuck stuck' : Prop} {P : α → Prop} {Q : β → Prop}
  {w : World S}

theorem mono {P' : α → Prop} {r : Except Escape α × World S} (h : Doomed b n fuel stuck P r)
    (hs : stuck → stuck') (hP : ∀ a, P a → P' a) : Doomed b n fuel stuck' P' r where
  ok a ha := (h.ok a ha).imp_left (hP a)
  error e he := (h.error e he).imp_right fun h hample ↦ hs (h hample)

theorem pure {a : α} (ha : P a) (hw : Spent b n w) :
    Doomed b n fuel stuck P ((Pure.pure a : Machine S α) w) where
  ok := by
    rintro _ ⟨⟩
    exact ⟨ha, hw⟩
  error := nofun

theorem bind {m : Machine S α} {f : α → Machine S β} (hm : Doomed b n fuel stuck P (m w))
    (hf : ∀ a w', m w = (.ok a, w') → P a → Spent b n w' →
      Doomed b n fuel stuck Q (f a w')) : Doomed b n fuel stuck Q ((m >>= f) w) := by
  rcases hr : m w with ⟨e | a, w'⟩
  · rw [Machine.bind_error hr]
    rw [hr] at hm
    refine ⟨nofun, ?_⟩
    rintro _ ⟨⟩
    exact hm.error e rfl
  · rw [Machine.bind_ok hr]
    rw [hr] at hm
    obtain ⟨ha, hw'⟩ := hm.ok a rfl
    exact hf a w' hr ha hw'

/-- A computation along which budgets age, on a spent budget. -/
theorem of_along {m : Machine S α} {R : α → Prop} (hm : Along (World.Ages b) False m R)
    (hw : Spent b n w) (hends : Ample n fuel → (m w).1 ≠ .error .exhausted)
    (hR : ∀ a, R a → P a) : Doomed b n fuel stuck P (m w) where
  ok a ha := by
    have heq : m w = (.ok a, (m w).2) := Prod.ext ha rfl
    obtain ⟨hages, hok, -⟩ := hm heq nofun
    exact ⟨hR a (hok a rfl), hw.ages hages⟩
  error e he := by
    cases e with
    | exhausted => exact ⟨rfl, fun hample ↦ absurd he (hends hample)⟩
    | panic p =>
      have heq : m w = (.error (.panic p), (m w).2) := Prod.ext he rfl
      exact ((hm heq nofun).2.2 p rfl).elim

end Doomed

/-! ### Comparing -/

namespace Interpreter

/-- How a part of a run compares with the same part without the limit. While no step exceeds the
limit, at least `k` steps have been counted in the end; once one does, what it yields is as said. -/
inductive Compares (it : Interpreter S) (b : BudgetId) (n fuel d : Nat) (a : Activity S)
    (w : World S) (k : Nat) (P : α → Prop) :
    Except Escape α × World S → Except Escape α × World S → Prop where
  | same {r : Except Escape α × World S} (hunspent : Unspent b n r.2)
      (hunexceeded : w.Unexceeded r.2)
      (hends : Ample n fuel → ∃ x, r.1 = .ok x ∧ k ≤ (r.2.budget b).used) :
      Compares it b n fuel d a w k P r r
  | cut {r r' : Except Escape α × World S} (hcut : it.Cut b n d a w)
      (hdoomed : Doomed b n fuel (it.Stuck b n fuel d a w) P r) :
      Compares it b n fuel d a w k P r r'

/-- A part of a run leads to another one, with the limit and without it. -/
structure Leads (it : Interpreter S) (b : BudgetId) (d : Nat) (a : Activity S) (w : World S)
    (d' : Nat) (a' : Activity S) (w' : World S) : Prop where
  limited : ∀ {m}, it.Counts b d' a' w' m → it.Counts b d a w m
  unlimited : ∀ {m}, it.unlimited.Counts b d' a' w' m → it.unlimited.Counts b d a w m
  unexceeded : w.Unexceeded w'

variable {it : Interpreter S} {b : BudgetId} {n fuel d d' : Nat} {a a' : Activity S}
  {w w' : World S}

theorem Stuck.leads (h : it.Stuck b n fuel d' a' w')
    (hl : ∀ {m}, it.Counts b d' a' w' m → it.Counts b d a w m) : it.Stuck b n fuel d a w := by
  obtain ⟨m, w₁, hm, hrest⟩ := h
  exact ⟨m, w₁, hl hm, hrest⟩

theorem Cut.leads (h : it.Cut b n d' a' w') (hl : it.Leads b d a w d' a' w') :
    it.Cut b n d a w := by
  obtain ⟨m, hm, hm', hunexceeded, hexceeds⟩ := h
  exact ⟨m, hl.limited hm, hl.unlimited hm', hl.unexceeded.trans hunexceeded, hexceeds⟩

namespace Compares

variable {k k' : Nat} {P : α → Prop} {Q : β → Prop} {m m' : Machine S α} {f f' : α → Machine S β}

/-- What is done next is part of what is done. -/
theorem leads {r r' : Except Escape α × World S} (h : it.Compares b n fuel d' a' w' k P r r')
    (hl : it.Leads b d a w d' a' w') : it.Compares b n fuel d a w k P r r' := by
  cases h with
  | same hunspent hunexceeded hends => exact .same hunspent (hl.unexceeded.trans hunexceeded) hends
  | cut hcut hdoomed =>
    exact .cut (hcut.leads hl) (hdoomed.mono (fun h ↦ h.leads hl.limited) fun _ ↦ id)

theorem weaken {P' : α → Prop} {r r' : Except Escape α × World S}
    (h : it.Compares b n fuel d a w k P r r') (hk : Ample n fuel → k' ≤ k) (hP : ∀ x, P x → P' x) :
    it.Compares b n fuel d a w k' P' r r' := by
  cases h with
  | same hunspent hunexceeded hends =>
    refine .same hunspent hunexceeded fun hample ↦ ?_
    obtain ⟨x, hx, hused⟩ := hends hample
    exact ⟨x, hx, Nat.le_trans (hk hample) hused⟩
  | cut hcut hdoomed => exact .cut hcut (hdoomed.mono id hP)

theorem pure {x : α} (hw : Unspent b n w') (hunexceeded : w.Unexceeded w')
    (hk : Ample n fuel → k ≤ (w'.budget b).used) :
    it.Compares b n fuel d a w k P ((Pure.pure x : Machine S α) w')
      ((Pure.pure x : Machine S α) w') :=
  .same hw hunexceeded fun hample ↦ ⟨x, rfl, hk hample⟩

/-- Computations that are the same and leave budgets alone. -/
theorem calm {R : α → Prop} (hw : Unspent b n w') (hunexceeded : w.Unexceeded w')
    (hfirm : Firm m m') (halong : Along World.Calm False m R)
    (hk : Ample n fuel → k ≤ (w'.budget b).used) :
    it.Compares b n fuel d a w k P (m w') (m' w') := by
  rw [hfirm.eq]
  have heq : m w' = ((m w').1, (m w').2) := rfl
  obtain ⟨hcalm, -, hpanic⟩ := halong heq (hfirm.ends w')
  refine .same (hw.of_budgets hcalm.budgets) (hunexceeded.trans hcalm.unexceeded) fun hample ↦ ?_
  rcases hx : (m w').1 with (p | _) | x
  · exact (hpanic p hx).elim
  · exact absurd hx (hfirm.ends w')
  · exact ⟨x, rfl, by rw [hcalm.budget]; exact hk hample⟩

/-- Sequences compare if their first parts do and, as long as these are the same, their second
parts. -/
theorem bind (hm : it.Compares b n fuel d a w k P (m w') (m' w'))
    (hsame : ∀ x w₁, m w' = (.ok x, w₁) → m' w' = (.ok x, w₁) → Unspent b n w₁ →
      w.Unexceeded w₁ → (Ample n fuel → k ≤ (w₁.budget b).used) →
        it.Compares b n fuel d a w k' Q (f x w₁) (f' x w₁))
    (hcut : ∀ x w₁, m w' = (.ok x, w₁) → P x → Spent b n w₁ →
      Doomed b n fuel (it.Stuck b n fuel d a w) Q (f x w₁)) :
    it.Compares b n fuel d a w k' Q ((m >>= f) w') ((m' >>= f') w') := by
  generalize hr : m w' = r at hm
  generalize hr' : m' w' = r' at hm
  cases hm with
  | same hunspent hunexceeded hends =>
    obtain ⟨e | x, w₁⟩ := r
    -- both escape alike, and with ample fuel neither does
    · rw [Machine.bind_error hr, Machine.bind_error hr']
      refine .same hunspent hunexceeded fun hample ↦ ?_
      obtain ⟨x, ⟨⟩, -⟩ := hends hample
    · rw [Machine.bind_ok hr, Machine.bind_ok hr']
      refine hsame x w₁ hr hr' hunspent hunexceeded fun hample ↦ ?_
      obtain ⟨_, -, hused⟩ := hends hample
      exact hused
  | cut h hdoomed =>
    rw [← hr] at hdoomed
    exact .cut h (hdoomed.bind hcut)

/-- A guard turns the panics of both into defects. -/
theorem guard (hm : it.Compares b n fuel d a w k P (m w') (m' w')) :
    it.Compares b n fuel d a w k (fun x ↦ ∃ y, x = .ok y ∧ P y) (m.guard w') (m'.guard w') := by
  rw [Machine.guard_apply, Machine.guard_apply]
  generalize m w' = r at hm
  generalize m' w' = r' at hm
  cases hm with
  | same hunspent hunexceeded hends =>
    refine .same hunspent hunexceeded fun hample ↦ ?_
    obtain ⟨x, hx, hused⟩ := hends hample
    exact ⟨.ok x, by rw [hx]; rfl, hused⟩
  | cut h hdoomed =>
    obtain ⟨e | x, w₁⟩ := r
    · obtain ⟨rfl, hstuck⟩ := hdoomed.error e rfl
      refine .cut h ⟨nofun, ?_⟩
      rintro _ ⟨⟩
      exact ⟨rfl, hstuck⟩
    · obtain ⟨hx, hw₁⟩ := hdoomed.ok x rfl
      refine .cut h ⟨?_, nofun⟩
      rintro _ ⟨⟩
      exact ⟨⟨x, rfl, hx⟩, hw₁⟩

end Compares

end Interpreter

end EffectMachine
