import EffectMachine.Proofs.Lifetimes

/-!
# Conduct

What holds of every computation in the world, whatever closures and strategies do.

The scopes that were there before are looked after (`Tended`). Finalizers that waited on them still
wait or have been invoked, those that were closed stay as they are, and no release effect is
registered on them: a run registers release effects only on scopes that it opened itself.

The budgets are respected as well (`Conduct`). Steps are not given back, aborts that begin end, and
while an abort is in progress no limit on the budget is exceeded.

`Shuts` is the specification of a closer in these terms. A run keeps to it as long as its scopes are
its own (`Housed`), which is the invariant of all moves.
-/

namespace EffectMachine

variable {S : Signature} {α : Type}

open Machine (Along)

/-! ### Scopes in a world -/

namespace World

variable (w : World S) {s s' : ScopeId}

/-- Scopes are what their cells are. -/
theorem scope_of_cell {w w' : World S}
    (h : w'.scopes.get? s.index = w.scopes.get? s.index) : w'.scope s = w.scope s := by
  rw [scope, scope, h]

theorem scope_congr {w w' : World S} (h : w'.scopes = w.scopes) (s : ScopeId) :
    w'.scope s = w.scope s :=
  scope_of_cell (by rw [h])

theorem index_ne (h : s' ≠ s) : s'.index ≠ s.index :=
  fun hi ↦ h (by cases s; cases s'; cases hi; rfl)

/-- A scope that was never opened counts as closed. -/
theorem scope_of_size_le (h : w.scopes.size ≤ s.index) : w.scope s = .shut := by
  have hnone : w.scopes.get? s.index = none := Array.getElem?_eq_none h
  rw [scope, hnone]
  rfl

theorem lt_size_of_closed_eq_false (h : (w.scope s).closed = false) :
    s.index < w.scopes.size := by
  refine Nat.lt_of_not_le fun hle ↦ ?_
  rw [w.scope_of_size_le hle] at h
  cases h

theorem size_openScope : w.openScope.2.scopes.size = w.scopes.size + 1 :=
  w.scopes.size_alloc .fresh

theorem scope_openScope_of_lt (h : s.index < w.scopes.size) :
    w.openScope.2.scope s = w.scope s :=
  scope_of_cell (w.scopes.get?_alloc_of_lt .fresh h)

theorem scope_openScope_self : w.openScope.2.scope w.openScope.1 = .fresh := by
  have hcell : w.openScope.2.scopes.get? w.openScope.1.index = some .fresh :=
    w.scopes.get?_alloc_self .fresh
  rw [scope, hcell]
  rfl

/-- Opening a scope makes no finalizer wait. -/
theorem finalizers_openScope (s : ScopeId) :
    (w.openScope.2.scope s).finalizers = (w.scope s).finalizers := by
  rcases Nat.lt_trichotomy s.index w.scopes.size with h | h | h
  · rw [w.scope_openScope_of_lt h]
  · have hs : s = w.openScope.1 := by
      cases s
      cases h
      rfl
    rw [w.scope_of_size_le (Nat.le_of_eq h.symm), hs, w.scope_openScope_self]
    rfl
  · have hsize : w.openScope.2.scopes.size ≤ s.index := by
      rw [w.size_openScope]
      exact h
    rw [w.scope_of_size_le (Nat.le_of_lt h), w.openScope.2.scope_of_size_le hsize]

theorem size_shutScope (s : ScopeId) : (w.shutScope s).scopes.size = w.scopes.size :=
  w.scopes.size_modify s.index _

theorem scope_shutScope_self : (w.shutScope s).scope s = .shut := by
  have hcell : (w.shutScope s).scopes.get? s.index = (w.scopes.get? s.index).map fun _ ↦ .shut :=
    w.scopes.get?_modify_self s.index _
  rw [scope, hcell]
  cases w.scopes.get? s.index <;> rfl

theorem scope_shutScope_of_ne (h : s' ≠ s) : (w.shutScope s).scope s' = w.scope s' :=
  scope_of_cell (w.scopes.get?_modify_of_ne (index_ne h).symm _)

/-- A closed scope is left alone by an offer. -/
theorem scope_addFinalizer_of_closed (h : (w.scope s).closed = true) (f : Finalizer S)
    (s' : ScopeId) : (w.addFinalizer s f).2.scope s' = w.scope s' := by
  rw [addFinalizer, if_pos h]
  rfl

theorem scope_addFinalizer_of_ne (h : s' ≠ s) (f : Finalizer S) :
    (w.addFinalizer s f).2.scope s' = w.scope s' := by
  unfold addFinalizer
  split
  · rfl
  · exact scope_of_cell (w.scopes.get?_modify_of_ne (index_ne h).symm _)

/-- An open scope accepts an offer. -/
theorem scope_addFinalizer_self (h : (w.scope s).closed = false) (f : Finalizer S) :
    (w.addFinalizer s f).2.scope s = (w.scope s).add f := by
  have hopen : ¬(w.scope s).closed = true := by simp [h]
  rw [addFinalizer, if_neg hopen]
  have hcell : (w.scopes.modify s.index fun c ↦ c.add f).get? s.index =
      (w.scopes.get? s.index).map fun c ↦ c.add f := w.scopes.get?_modify_self s.index _
  have hlt : s.index < w.scopes.cells.size := w.lt_size_of_closed_eq_false h
  obtain ⟨c, hc⟩ : ∃ c, w.scopes.get? s.index = some c := ⟨_, Array.getElem?_eq_getElem hlt⟩
  have hscope : w.scope s = c := by rw [scope, hc]; rfl
  rw [hscope]
  change ((w.scopes.modify s.index fun c ↦ c.add f).get? s.index).getD .shut = c.add f
  rw [hcell, hc]
  rfl

theorem size_addFinalizer (s : ScopeId) (f : Finalizer S) :
    (w.addFinalizer s f).2.scopes.size = w.scopes.size := by
  unfold addFinalizer
  split
  · rfl
  · exact w.scopes.size_modify s.index _

/-- An offer is recorded. -/
theorem history_addFinalizer (s : ScopeId) (f : Finalizer S) :
    ∃ e, (e = .accepted s f ∨ e = .refused s f) ∧
      (w.addFinalizer s f).2.history = e :: w.history ∧
        (w.addFinalizer s f).2.budgets = w.budgets := by
  unfold addFinalizer
  split
  · exact ⟨_, .inr rfl, rfl, rfl⟩
  · exact ⟨_, .inl rfl, rfl, rfl⟩

end World

/-! ### Scopes that were there before -/

/-- What happens to the scopes that were there before. -/
structure Tended (w : World S) (u : List (Event S)) (w' : World S) : Prop where
  size : w.scopes.size ≤ w'.scopes.size
  /-- Finalizers that waited still wait or have been invoked. -/
  waiting : ∀ s f, f ∈ (w.scope s).finalizers →
    f ∈ (w'.scope s).finalizers ∨ .invoked s f ∈ u
  /-- Closed scopes stay as they are. -/
  closed : ∀ s, s.index < w.scopes.size → (w.scope s).closed = true → w'.scope s = w.scope s
  /-- No finalizer is left waiting on a scope that is closed. -/
  emptied : ∀ s, ((w.scope s).closed = true → (w.scope s).finalizers = []) →
    (w'.scope s).closed = true → (w'.scope s).finalizers = []
  /-- No release effect is registered. -/
  releases : ∀ s build context b, s.index < w.scopes.size →
    .release build context b ∈ (w'.scope s).finalizers →
      .release build context b ∈ (w.scope s).finalizers

namespace Tended

variable {w w' w'' w₁ w₁' : World S} {u v : List (Event S)} {s : ScopeId}

theorem refl (w : World S) : Tended w [] w where
  size := Nat.le_refl _
  waiting _ _ := .inl
  closed _ _ _ := rfl
  emptied _ h := h
  releases _ _ _ _ _ := id

theorem trans (h : Tended w u w') (h' : Tended w' v w'') : Tended w (u ++ v) w'' where
  size := Nat.le_trans h.size h'.size
  waiting s f hf := by
    rcases h.waiting s f hf with hf | hf
    · exact (h'.waiting s f hf).imp_right (List.mem_append_right u)
    · exact .inr (List.mem_append_left v hf)
  closed s hs hc := by
    have hw' : w'.scope s = w.scope s := h.closed s hs hc
    have hc' : (w'.scope s).closed = true := by rw [hw', hc]
    rw [h'.closed s (Nat.lt_of_lt_of_le hs h.size) hc', hw']
  emptied s hs := h'.emptied s (h.emptied s hs)
  releases s build context b hs hf :=
    h.releases s build context b hs
      (h'.releases s build context b (Nat.lt_of_lt_of_le hs h.size) hf)

/-- Only the scopes matter, and more may have happened. -/
theorem transfer (h : Tended w u w') (hw : w₁.scopes = w.scopes) (hw' : w₁'.scopes = w'.scopes)
    (hu : u ⊆ v) : Tended w₁ v w₁' where
  size := by
    rw [hw, hw']
    exact h.size
  waiting s f hf := by
    rw [World.scope_congr hw] at hf
    rw [World.scope_congr hw']
    exact (h.waiting s f hf).imp_right fun hf ↦ hu hf
  closed s hs hc := by
    rw [hw] at hs
    rw [World.scope_congr hw] at hc ⊢
    rw [World.scope_congr hw']
    exact h.closed s hs hc
  emptied s hs := by
    rw [World.scope_congr hw] at hs
    rw [World.scope_congr hw']
    exact h.emptied s hs
  releases s build context b hs hf := by
    rw [hw] at hs
    rw [World.scope_congr hw'] at hf
    rw [World.scope_congr hw]
    exact h.releases s build context b hs hf

/-- Nothing happens to the scopes. -/
theorem of_scopes (h : w'.scopes = w.scopes) : Tended w u w' :=
  (refl w).transfer rfl h (List.nil_subset u)

theorem openScope (w : World S) : Tended w u w.openScope.2 where
  size := by
    rw [w.size_openScope]
    exact Nat.le_succ _
  waiting s f hf := by
    rw [w.finalizers_openScope s]
    exact .inl hf
  closed s hs _ := w.scope_openScope_of_lt hs
  emptied s hs hc := by
    rw [w.finalizers_openScope s]
    rcases Nat.lt_or_ge s.index w.scopes.size with hlt | hle
    · rw [w.scope_openScope_of_lt hlt] at hc
      exact hs hc
    · rw [w.scope_of_size_le hle]
      rfl
  releases s build context b _ hf := by
    rwa [w.finalizers_openScope s] at hf

/-- A finalizer is offered to a scope. If it is a release effect, the scope was not there before. -/
theorem addFinalizer (h : Tended w₁ u w) (s : ScopeId) (f : Finalizer S)
    (hf : (∃ c, f = .cleanup c) ∨ w₁.scopes.size ≤ s.index) (e : Event S) :
    Tended w₁ (u ++ [e]) (w.addFinalizer s f).2 := by
  cases hc : (w.scope s).closed with
  | true =>
    have hscope := w.scope_addFinalizer_of_closed hc f
    refine h.trans ⟨Nat.le_of_eq (w.size_addFinalizer s f).symm, ?_, ?_, ?_, ?_⟩
    all_goals intro s'; rw [hscope s']
    · exact fun f' ↦ .inl
    · exact fun _ _ ↦ rfl
    · exact id
    · exact fun _ _ _ _ ↦ id
  | false =>
    have hself := w.scope_addFinalizer_self hc f
    have hother : ∀ s', s' ≠ s → (w.addFinalizer s f).2.scope s' = w.scope s' :=
      fun s' hs' ↦ w.scope_addFinalizer_of_ne hs' f
    refine ⟨?_, fun s' f' hf' ↦ ?_, fun s' hs' hc' ↦ ?_, fun s' he hc' ↦ ?_,
      fun s' build context b hs' hf' ↦ ?_⟩
    · rw [w.size_addFinalizer]
      exact h.size
    · refine (h.waiting s' f' hf').imp (fun hf' ↦ ?_) (List.mem_append_left [e])
      by_cases hs' : s' = s
      · subst hs'
        rw [hself]
        exact List.mem_cons_of_mem f hf'
      · rwa [hother s' hs']
    · have hw : w.scope s' = w₁.scope s' := h.closed s' hs' hc'
      rw [hother s' ?_, hw]
      rintro rfl
      rw [hw, hc'] at hc
      cases hc
    · by_cases hs' : s' = s
      · subst hs'
        rw [hself] at hc'
        exact absurd (hc.symm.trans hc') nofun
      · rw [hother s' hs'] at hc' ⊢
        exact h.emptied s' he hc'
    · refine h.releases s' build context b hs' ?_
      by_cases hs : s' = s
      · subst hs
        rw [hself] at hf'
        rcases List.mem_cons.1 hf' with rfl | hf'
        · rcases hf with ⟨c, ⟨⟩⟩ | hf
          exact absurd hs' (Nat.not_lt_of_le hf)
        · exact hf'
      · rwa [hother s' hs] at hf'

/-- A scope closes, and all finalizers that wait on it are invoked. -/
theorem shutScope (h : Tended (w.shutScope s) u w') (hs : (w.scope s).closed = false)
    (hu : ∀ f ∈ (w.scope s).finalizers, .invoked s f ∈ u) (hv : u ⊆ v) : Tended w v w' where
  size := by
    rw [← w.size_shutScope s]
    exact h.size
  waiting s' f hf := by
    by_cases hs' : s' = s
    · subst hs'
      exact .inr (hv (hu f hf))
    · rw [← w.scope_shutScope_of_ne hs'] at hf
      exact (h.waiting s' f hf).imp_right fun hf ↦ hv hf
  closed s' hlt hc := by
    have hne : s' ≠ s := by
      rintro rfl
      rw [hs] at hc
      cases hc
    rw [← w.scope_shutScope_of_ne hne] at hc ⊢
    refine h.closed s' ?_ hc
    rwa [w.size_shutScope]
  emptied s' he := by
    refine h.emptied s' ?_
    by_cases hs' : s' = s
    · subst hs'
      rw [w.scope_shutScope_self]
      exact fun _ ↦ rfl
    · rw [w.scope_shutScope_of_ne hs']
      exact he
  releases s' build context b hlt hf := by
    have hf' := h.releases s' build context b (by rwa [w.size_shutScope]) hf
    by_cases hs' : s' = s
    · subst hs'
      rw [w.scope_shutScope_self] at hf'
      cases hf'
    · rwa [w.scope_shutScope_of_ne hs'] at hf'

end Tended

/-! ### Budgets in a world -/

namespace World

variable (w : World S) (b : BudgetId)

/-- Changing a budget, unless there is no such budget, which then counts as unused. -/
theorem budget_modifyBudget (f : Budget → Budget) :
    (w.modifyBudget b f).budget b = f (w.budget b) ∨
      w.budget b = {} ∧ (w.modifyBudget b f).budget b = {} := by
  unfold budget modifyBudget
  rw [Heap.get?_modify_self]
  cases w.budgets.get? b.index with
  | none => exact .inr ⟨rfl, rfl⟩
  | some x => exact .inl rfl

theorem budget_modifyBudget_of_ne {b b' : BudgetId} (h : b' ≠ b) (f : Budget → Budget) :
    (w.modifyBudget b' f).budget b = w.budget b := by
  have hi : b'.index ≠ b.index := fun hi ↦ h (by cases b; cases b'; cases hi; rfl)
  unfold budget modifyBudget
  rw [Heap.get?_modify_of_ne _ hi]

end World

theorem Budget.exceeds_eq_some {b : Budget} {limit : Option Nat} {n : Nat} :
    b.exceeds limit = some n ↔ limit = some n ∧ n < b.used ∧ b.aborting = 0 := by
  simp [exceeds, isAborting, Option.filter_eq_some_iff]

theorem Budget.exceeds_of_aborting {b : Budget} (h : 0 < b.aborting) (limit : Option Nat) :
    b.exceeds limit = none := by
  rcases hl : b.exceeds limit with - | n
  · rfl
  · exact absurd (Budget.exceeds_eq_some.1 hl).2.2 (Nat.ne_of_gt h)

/-- Aborts that begin end, and steps are not given back. -/
structure World.Ages (b : BudgetId) (w w' : World S) : Prop where
  aborting : (w'.budget b).aborting = (w.budget b).aborting
  used : (w.budget b).used ≤ wordMax →
    (w.budget b).used ≤ (w'.budget b).used ∧ (w'.budget b).used ≤ wordMax

namespace World.Ages

variable {b : BudgetId} {w w' w'' : World S}

theorem of_budget (h : w'.budget b = w.budget b) : w.Ages b w' :=
  ⟨by rw [h], fun hw ↦ by rw [h]; exact ⟨Nat.le_refl _, hw⟩⟩

theorem trans (h : w.Ages b w') (h' : w'.Ages b w'') : w.Ages b w'' where
  aborting := h'.aborting.trans h.aborting
  used hw := by
    obtain ⟨hle, hword⟩ := h.used hw
    obtain ⟨hle', hword'⟩ := h'.used hword
    exact ⟨Nat.le_trans hle hle', hword'⟩

/-- Counting a step on any budget. -/
theorem tick (w : World S) (b' : BudgetId) : w.Ages b (w.modifyBudget b' Budget.tick) := by
  by_cases h : b' = b
  · subst h
    rcases w.budget_modifyBudget b' Budget.tick with hb | ⟨hb, hb'⟩
    · refine ⟨by rw [hb]; rfl, fun hw ↦ ?_⟩
      rw [hb]
      simp only [Budget.tick]
      omega
    · exact of_budget (hb'.trans hb.symm)
  · exact of_budget (w.budget_modifyBudget_of_ne h _)

/-- Something that happens between the beginning and the end of an abort. -/
theorem aborted {b' : BudgetId} (h : (w.modifyBudget b' Budget.beginAbort).Ages b w') :
    w.Ages b (w'.modifyBudget b' Budget.endAbort) := by
  by_cases hb : b' = b
  · subst hb
    have hend : ((w'.modifyBudget b' Budget.endAbort).budget b').used = (w'.budget b').used ∧
        ((w'.modifyBudget b' Budget.endAbort).budget b').aborting =
          (w'.budget b').aborting - 1 := by
      rcases w'.budget_modifyBudget b' Budget.endAbort with hb | ⟨hb, hb'⟩
      · rw [hb]
        exact ⟨rfl, rfl⟩
      · rw [hb, hb']
        exact ⟨rfl, rfl⟩
    have haborting := h.aborting
    have hused := h.used
    -- a budget that is not there has no abort to begin
    rcases w.budget_modifyBudget b' Budget.beginAbort with hb | ⟨hb, hb'⟩
    · rw [hb] at haborting hused
      refine ⟨?_, ?_⟩
      · rw [hend.2, haborting]
        rfl
      · rw [hend.1]
        exact hused
    · rw [hb'] at haborting hused
      refine ⟨?_, ?_⟩
      · rw [hend.2, haborting, hb]
        rfl
      · rw [hend.1, hb]
        exact hused
  · have hbegin := w.budget_modifyBudget_of_ne hb Budget.beginAbort
    have hend := w'.budget_modifyBudget_of_ne hb Budget.endAbort
    refine ⟨by rw [hend, h.aborting, hbegin], ?_⟩
    rw [hend]
    simpa only [hbegin] using h.used

end World.Ages

/-! ### Conduct -/

/-- What any computation does, where `u` is what happens in it. -/
structure Conduct (b : BudgetId) (w : World S) (u : List (Event S)) (w' : World S) : Prop where
  history : w'.history = u.reverse ++ w.history
  balanced : Balanced u
  /-- While the budget is exempt no limit on it is exceeded. -/
  exempt : 0 < (w.budget b).aborting → ∀ n, .exceeded b n ∉ u
  /-- Aborts that begin end. -/
  aborting : (w'.budget b).aborting = (w.budget b).aborting
  /-- Steps are not given back. -/
  used : (w.budget b).used ≤ wordMax →
    (w.budget b).used ≤ (w'.budget b).used ∧ (w'.budget b).used ≤ wordMax
  tended : Tended w u w'

/-- What any computation does, whatever happens in it. -/
def Conducts (b : BudgetId) (w w' : World S) : Prop := ∃ u, Conduct b w u w'

namespace Conduct

variable {b b' : BudgetId} {w w' w'' : World S} {u v : List (Event S)}

/-- Events that neither begin nor end a finalizer and report no limit. -/
theorem level (hh : w'.history = u.reverse ++ w.history)
    (hu : ∀ e ∈ u, e.Level ∧ ∀ n, e ≠ .exceeded b n) (hb : w'.budget b = w.budget b)
    (ht : Tended w u w') : Conduct b w u w' where
  history := hh
  balanced := .level fun e he ↦ (hu e he).1
  exempt _ n he := (hu _ he).2 n rfl
  aborting := by rw [hb]
  used h := by
    rw [hb]
    exact ⟨Nat.le_refl _, h⟩
  tended := ht

theorem silent (hh : w'.history = w.history) (hs : w'.scopes = w.scopes)
    (hb : w'.budget b = w.budget b) : Conduct b w [] w' :=
  level hh nofun hb (.of_scopes hs)

theorem trans (h : Conduct b w u w') (h' : Conduct b w' v w'') : Conduct b w (u ++ v) w'' where
  history := by rw [h'.history, h.history, List.reverse_append, List.append_assoc]
  balanced := h.balanced.append h'.balanced
  exempt ha n hn := by
    rcases List.mem_append.1 hn with hn | hn
    · exact h.exempt ha n hn
    · exact h'.exempt (by rwa [h.aborting]) n hn
  aborting := h'.aborting.trans h.aborting
  used hw := by
    obtain ⟨hle, hmax⟩ := h.used hw
    obtain ⟨hle', hmax'⟩ := h'.used hmax
    exact ⟨Nat.le_trans hle hle', hmax'⟩
  tended := h.tended.trans h'.tended

/-- A finalizer is offered to a scope. If it is a release effect, the scope was not there before. -/
theorem addFinalizer (h : Conduct b w u w') (s : ScopeId) (f : Finalizer S)
    (hf : (∃ c, f = .cleanup c) ∨ w.scopes.size ≤ s.index) :
    Conducts b w (w'.addFinalizer s f).2 := by
  obtain ⟨e, he, hh, hbudgets⟩ := w'.history_addFinalizer s f
  have hlevel : e.Level := by
    rcases he with rfl | rfl <;> exact fun _ ↦ rfl
  have hlimit : ∀ n, .exceeded b n ≠ e := by
    rintro n rfl
    rcases he with he | he <;> cases he
  have hbudget : (w'.addFinalizer s f).2.budget b = w'.budget b := by
    rw [World.budget, World.budget, hbudgets]
  refine ⟨u ++ [e], ?_, h.balanced.append (.cons hlevel .nil), fun ha n hn ↦ ?_, ?_, ?_,
    h.tended.addFinalizer s f hf e⟩
  · simp [hh, h.history]
  · rcases List.mem_append.1 hn with hn | hn
    · exact h.exempt ha n hn
    · exact hlimit n (List.mem_singleton.1 hn)
  · rw [hbudget, h.aborting]
  · rw [hbudget]
    exact h.used

/-- A run or a region opens a scope. -/
theorem enterScope (w : World S) : Conduct b w [.opened w.enterScope.1] w.enterScope.2 :=
  level rfl (by simp [Event.Level, Event.depth]) rfl
    ((Tended.openScope w).transfer rfl rfl (List.Subset.refl _))

/-- The budget of a computation ages. -/
theorem ages (h : Conduct b w u w') : w.Ages b w' := ⟨h.aborting, h.used⟩

/-- Counting a step. -/
theorem tick (w : World S) (b' : BudgetId) : Conduct b w [] (w.modifyBudget b' Budget.tick) := by
  have hages : w.Ages b (w.modifyBudget b' Budget.tick) := .tick w b'
  exact ⟨rfl, .nil, fun _ _ ↦ List.not_mem_nil, hages.aborting, hages.used, .of_scopes rfl⟩

/-- A limit is reported only while the budget is not exempt. -/
theorem exceeded {limit : Option Nat} {n : Nat} (h : (w.budget b').exceeds limit = some n) :
    Conduct b w [.exceeded b' n] (w.record (.exceeded b' n)) := by
  obtain ⟨-, -, haborting⟩ := Budget.exceeds_eq_some.1 h
  refine ⟨rfl, .cons (fun _ ↦ rfl) .nil, fun ha m hm ↦ ?_, rfl, fun hw ↦ ⟨Nat.le_refl _, hw⟩,
    .of_scopes rfl⟩
  cases List.mem_singleton.1 hm
  rw [haborting] at ha
  cases ha

/-- Something that happens between the beginning and the end of an abort. -/
theorem aborted (h : Conduct b (w.modifyBudget b' Budget.beginAbort) u w') :
    Conduct b w u (w'.modifyBudget b' Budget.endAbort) := by
  have ht : Tended w u (w'.modifyBudget b' Budget.endAbort) :=
    h.tended.transfer rfl rfl (List.Subset.refl _)
  have hages : w.Ages b (w'.modifyBudget b' Budget.endAbort) := h.ages.aborted
  refine ⟨h.history, h.balanced, fun ha ↦ h.exempt ?_, hages.aborting, hages.used, ht⟩
  by_cases hb : b' = b
  · subst hb
    rcases w.budget_modifyBudget b' Budget.beginAbort with hb | ⟨hb, -⟩
    · rw [hb]
      exact Nat.succ_pos _
    · rw [hb] at ha
      cases ha
  · rwa [w.budget_modifyBudget_of_ne hb]

/-- What happens inside a finalizer, between its beginning and its end. -/
theorem invocation {s : ScopeId} {f : Finalizer S}
    (h : Conduct b (w.record (.invoked s f)) u w') (o : Outcome S.Error Unit) :
    Conduct b w (.invoked s f :: (u ++ [.ended s f o])) (w'.record (.ended s f o)) where
  history := by simp [World.record, h.history]
  balanced := h.balanced.invocation .nil
  exempt ha n hn := h.exempt ha n (by simpa using hn)
  aborting := h.aborting
  used := h.used
  tended := h.tended.transfer rfl rfl fun e he ↦
    List.mem_cons_of_mem _ (List.mem_append_left _ he)

/-- What happens while a scope closes, if all its finalizers are invoked. -/
theorem closing {s : ScopeId} (h : Conduct b (w.shutScope s) u w')
    (hs : (w.scope s).closed = false) (hu : ∀ f ∈ (w.scope s).finalizers, .invoked s f ∈ u) :
    Conduct b w (.closing s :: (u ++ [.closed s])) (w'.record (.closed s)) where
  history := by simp [World.record, h.history, World.shutScope]
  balanced := .cons (fun _ ↦ rfl) (h.balanced.append (.cons (fun _ ↦ rfl) .nil))
  exempt ha n hn := h.exempt ha n (by simpa using hn)
  aborting := h.aborting
  used := h.used
  tended := by
    have hshut : Tended w (.closing s :: (u ++ [.closed s])) w' :=
      h.tended.shutScope hs hu fun e he ↦ List.mem_cons_of_mem _ (List.mem_append_left _ he)
    exact hshut.transfer rfl rfl (List.Subset.refl _)

end Conduct

namespace Conducts

variable {b : BudgetId} {w w' w'' : World S}

theorem trans (h : Conducts b w w') (h' : Conducts b w' w'') : Conducts b w w'' := by
  obtain ⟨u, hu⟩ := h
  obtain ⟨v, hv⟩ := h'
  exact ⟨u ++ v, hu.trans hv⟩

theorem drift (b : BudgetId) : Drift (Conducts b : World S → World S → Prop) where
  refl _ := ⟨[], .silent rfl rfl rfl⟩
  trans := trans
  state _ _ := ⟨[], .silent rfl rfl rfl⟩
  clock _ _ := ⟨[], .silent rfl rfl rfl⟩
  noise _ _ := ⟨[], .silent rfl rfl rfl⟩
  newSlot _ := ⟨[], .silent rfl rfl rfl⟩
  settle _ _ _ := ⟨[], .silent rfl rfl rfl⟩
  forks _ _ := ⟨[], .silent rfl rfl rfl⟩
  openScope w := ⟨[], .level rfl nofun rfl (.openScope w)⟩
  addCleanup _ s c := Conduct.addFinalizer (.silent rfl rfl rfl) s (.cleanup c) (.inl ⟨c, rfl⟩)

theorem takeOutcome (w : World S) (s : SlotId) : Conducts b w (w.takeOutcome s).2 :=
  ⟨[], .silent rfl rfl rfl⟩

end Conducts

/-! ### Closing scopes -/

/-- Closing a scope conducts itself, does not panic and leaves the scope closed. -/
def Shuts (b : BudgetId) (close : Closer S) : Prop :=
  ∀ ⦃s w x w'⦄, close s w = (x, w') → x ≠ .error .exhausted →
    ∃ u r, x = .ok r ∧ Conduct b w u w' ∧ (w'.scope s).closed = true

theorem Shuts.along {b : BudgetId} {close : Closer S} (h : Shuts b close) (s : ScopeId) :
    Along (Conducts b) False (close s) fun _ ↦ True := by
  intro w x w' heq hx
  obtain ⟨u, r, rfl, hu, -⟩ := h heq hx
  exact ⟨⟨u, hu⟩, fun _ _ ↦ trivial, nofun⟩

/-- The finalizers of a scope are invoked, and those that end are. -/
structure Invoked (b : BudgetId) (invoke : Finalizer S → Machine S (Outcome S.Error Unit))
    (s : ScopeId) (fs : List (Finalizer S)) (w : World S) (u : List (Event S)) : Prop where
  invocations : invocations s (outer 0 u) = fs
  ended : ∀ f o, .ended s f o ∈ outer 0 u →
    ∃ w₁ w₂, Conducts b w w₁ ∧ invoke f w₁ = (.ok o, w₂)

namespace Host

variable {h : Host S} {b : BudgetId} {release : Releaser S} {s : ScopeId} {w w' : World S}
  (hclose : Shuts b h.close)
  (hrelease : ∀ node context b', Along (Conducts b) True (release node context b') fun _ ↦ True)
include hclose hrelease

theorem finalize_conducts (f : Finalizer S) :
    Along (Conducts b) True (h.finalize release f) fun _ ↦ True := by
  have hR : Drift (Conducts b : World S → World S → Prop) := Conducts.drift b
  have hperform : ∀ {β : Type} (a : Action S β),
      Along (Conducts b) True (h.perform a) fun _ ↦ True :=
    fun a ↦ (h.keeps hR hclose.along Conducts.takeOutcome a).post fun _ _ ↦ trivial
  cases f with
  | cleanup c => exact hperform _
  | release build context b' =>
    have hbuild : Along (Conducts b) True (h.build build) (Built fun _ ↦ True) := (hperform _).build
    refine .bind hR hbuild fun x _ ↦ ?_
    cases x with
    | error d => exact .pure hR trivial
    | ok node => exact .bind hR (hrelease node context b') fun _ _ ↦ .pure hR trivial

/-- Invoking finalizers one after the other. -/
theorem invokeAll_conduct {fs : List (Finalizer S)} {x : Except Escape (List (Cause S.Error))}
    (heq : h.invokeAll release s fs w = (x, w')) (hx : x ≠ .error .exhausted) :
    ∃ u causes, x = .ok causes ∧ Conduct b w u w' ∧ Invoked b (h.invoke release s) s fs w u := by
  induction fs generalizing w x with
  | nil =>
    cases heq
    exact ⟨[], [], rfl, .silent rfl rfl rfl, rfl, nofun⟩
  | cons f fs ih =>
    rw [invokeAll_cons] at heq
    rcases Machine.bind_eq heq with ⟨o, w₂, ho, heq⟩ | ⟨e, he, rfl⟩
    · obtain ⟨y, w₁, _, hy, hne, -, ⟨⟩, rfl⟩ := invoke_eq ho nofun
      obtain ⟨⟨u, hu⟩, -⟩ := finalize_conducts hclose hrelease f hy hne
      have hfirst : Conduct b w _ _ := hu.invocation o
      rcases Machine.bind_eq heq with ⟨causes, w₃, hrest, heq⟩ | ⟨e, he, rfl⟩
      · cases heq
        obtain ⟨v, _, ⟨⟩, hv, hinvoked⟩ := ih hrest nofun
        have houter : outer 0 ((.invoked s f :: (u ++ [.ended s f o])) ++ v) =
            [.invoked s f, .ended s f o] ++ outer 0 v := by
          rw [hfirst.balanced.outer_append, hu.balanced.outer_invocation]
        refine ⟨_, _, rfl, hfirst.trans hv, ?_, fun f' o' hf' ↦ ?_⟩
        · rw [houter]
          simpa [Event.invoked?] using hinvoked.invocations
        · rw [houter] at hf'
          rcases List.mem_append.1 hf' with hf' | hf'
          · obtain ⟨rfl, rfl⟩ : f' = f ∧ o' = o := by simpa using hf'
            exact ⟨w, _, ⟨[], .silent rfl rfl rfl⟩, ho⟩
          · obtain ⟨w₁, w₂, hw₁, hinvoke⟩ := hinvoked.ended f' o' hf'
            exact ⟨w₁, w₂, Conducts.trans ⟨_, hfirst⟩ hw₁, hinvoke⟩
      · obtain ⟨v, _, ⟨⟩, -⟩ := ih he (Escape.ne_exhausted hx)
    · obtain ⟨y, w₁, _, -, -, -, ⟨⟩, -⟩ := invoke_eq he (Escape.ne_exhausted hx)

/-- Closing a scope invokes the finalizers that wait on it. -/
theorem shut_conduct {x : Except Escape (Outcome S.Error Unit)}
    (heq : h.shut release s w = (x, w')) (hx : x ≠ .error .exhausted) :
    (w.scope s).closed = true ∧ x = .ok (.ok ()) ∧ w' = w ∨
      ∃ u r, x = .ok r ∧ Conduct b w (.closing s :: (u ++ [.closed s])) w' ∧ Balanced u ∧
        Invoked b (h.invoke release s) s (w.scope s).finalizers (w.shutScope s) u ∧
          w'.scope s = .shut := by
  rcases shut_eq heq with hclosed | ⟨hopen, y, w₁, hinvoke, rfl, hw'⟩
  · exact .inl hclosed
  · have hy : y ≠ .error .exhausted := fun hy ↦ hx (by rw [hy]; rfl)
    obtain ⟨u, causes, rfl, hu, hinvoked⟩ := invokeAll_conduct hclose hrelease hinvoke hy
    obtain rfl := hw' _ rfl
    have hall : ∀ f ∈ (w.scope s).finalizers, .invoked s f ∈ u := by
      intro f hf
      rw [← hinvoked.invocations] at hf
      exact mem_of_mem_outer (mem_invocations hf)
    have hshut : (w.shutScope s).scope s = .shut := w.scope_shutScope_self
    have hborn : s.index < (w.shutScope s).scopes.size := by
      rw [w.size_shutScope]
      exact w.lt_size_of_closed_eq_false hopen
    have hstays : w₁.scope s = .shut := by
      rw [hu.tended.closed s hborn (by rw [hshut]; rfl), hshut]
    exact .inr ⟨u, _, rfl, hu.closing hopen hall, hu.balanced, hinvoked, hstays⟩

theorem shuts_shut : Shuts b (h.shut release) := by
  intro s w x w' heq hx
  rcases shut_conduct hclose hrelease heq hx with ⟨hc, rfl, rfl⟩ | ⟨u, r, rfl, hu, -, -, hshut⟩
  · exact ⟨[], _, rfl, .silent rfl rfl rfl, hc⟩
  · exact ⟨_, r, rfl, hu, by rw [hshut]; rfl⟩

omit hrelease in
/-- An abort closes all scopes on the stack. -/
theorem abort_conduct {stack : List (Frame S)} {cause : Cause S.Error}
    {x : Except Escape (Cause S.Error)} (heq : h.abort stack cause w = (x, w'))
    (hx : x ≠ .error .exhausted) :
    ∃ u cause', x = .ok cause' ∧ Conduct b w u w' ∧
      ∀ s ∈ openScopes stack, s.index < w.scopes.size → (w'.scope s).closed = true := by
  induction stack generalizing cause w with
  | nil =>
    cases heq
    exact ⟨[], cause, rfl, .silent rfl rfl rfl, by rintro _ ⟨⟩⟩
  | cons f rest ih =>
    cases f with
    | closeScope s parent =>
      rw [abort, closing, bind_assoc] at heq
      rcases Machine.bind_eq heq with ⟨o, w₁, ho, heq⟩ | ⟨e, he, rfl⟩
      · obtain ⟨u, _, ⟨⟩, hu, hc⟩ := hclose ho (by simp)
        have hrest : ∃ cause', h.abort rest cause' w₁ = (x, w') := by
          rcases o with c | ⟨⟩ <;> exact ⟨_, heq⟩
        obtain ⟨cause', hrest⟩ := hrest
        obtain ⟨v, cause'', rfl, hv, hall⟩ := ih hrest
        refine ⟨u ++ v, cause'', rfl, hu.trans hv, fun s' hs' hlt ↦ ?_⟩
        have hlt' : s'.index < w₁.scopes.size := Nat.lt_of_lt_of_le hlt hu.tended.size
        rcases List.mem_cons.1 hs' with rfl | hs'
        · rw [hv.tended.closed s' hlt' hc]
          exact hc
        · exact hall s' hs' hlt'
      · obtain ⟨u, r, ⟨⟩, -⟩ := hclose he (Escape.ne_exhausted hx)
    | resume | recover | restoreContext | retry | timeout | parallel | race => exact ih heq

end Host

/-! ### Runs -/

/-- A scope that a run has opened. Release effects that wait on it carry the budget of the run. -/
structure Own (b : BudgetId) (w₀ w : World S) (s : ScopeId) : Prop where
  fresh : w₀.scopes.size ≤ s.index
  born : s.index < w.scopes.size
  releases : ∀ build context b', .release build context b' ∈ (w.scope s).finalizers → b' = b

namespace Own

variable {b b' : BudgetId} {w₀ w w' : World S} {s : ScopeId}

theorem conducts (h : Own b w₀ w s) (hw : Conducts b' w w') : Own b w₀ w' s := by
  obtain ⟨u, hu⟩ := hw
  refine ⟨h.fresh, Nat.lt_of_lt_of_le h.born hu.tended.size, fun build context b₁ hf ↦ ?_⟩
  exact h.releases build context b₁ (hu.tended.releases s build context b₁ h.born hf)

/-- Nothing waits yet on a scope that has just been opened. -/
theorem enterScope (h : w₀.scopes.size ≤ w.scopes.size) (b : BudgetId) :
    Own b w₀ w.enterScope.2 w.enterScope.1 where
  fresh := h
  born := by
    have hsize : w.enterScope.2.scopes.size = w.scopes.size + 1 := w.size_openScope
    rw [hsize]
    exact Nat.lt_succ_self _
  releases build context b₁ hf := by
    have hfresh : w.enterScope.2.scope w.enterScope.1 = .fresh := w.scope_openScope_self
    rw [hfresh] at hf
    cases hf

/-- A release effect is registered on some scope, with the budget of the run. -/
theorem addFinalizer (h : Own b w₀ w s) (s' : ScopeId) (release : Action S (Plan S))
    (context : Context) : Own b w₀ (w.addFinalizer s' (.release release context b)).2 s where
  fresh := h.fresh
  born := by
    rw [w.size_addFinalizer]
    exact h.born
  releases build context' b₁ hf := by
    -- the offer is seen on that scope only, and there only while it is open
    by_cases hs : s = s'
    · subst hs
      cases hclosed : (w.scope s).closed with
      | true =>
        rw [w.scope_addFinalizer_of_closed hclosed] at hf
        exact h.releases build context' b₁ hf
      | false =>
        rw [w.scope_addFinalizer_self hclosed] at hf
        rcases List.mem_cons.1 hf with hf | hf
        · cases hf
          rfl
        · exact h.releases build context' b₁ hf
    · rw [w.scope_addFinalizer_of_ne hs] at hf
      exact h.releases build context' b₁ hf

end Own

/-- What a run has come to. All scopes that it works with are its own. -/
structure Housed (b : BudgetId) (w₀ : World S) (root : ScopeId) (st : State S) (w : World S) :
    Prop where
  conducts : Conducts b w₀ w
  scope : w₀.scopes.size ≤ st.scope.index
  parents : ∀ r ∈ regions st.stack, w₀.scopes.size ≤ r.2.index
  own : ∀ s ∈ openScopes st.stack ++ [root], Own st.budget w₀ w s

namespace Interpreter

variable {it : Interpreter S} {close : Closer S} {b b' : BudgetId} {st st' : State S}
  {w₀ w w' : World S} {root : ScopeId}

theorem start_housed (b : BudgetId) (w : World S) (node : Node S) (context : Context)
    (b' : BudgetId) :
    Housed b w w.enterScope.1 (.start node context w.enterScope.1 b') w.enterScope.2 where
  conducts := ⟨_, .enterScope w⟩
  scope := Nat.le_refl _
  parents := nofun
  own s hs := by
    obtain rfl := List.mem_singleton.1 hs
    exact .enterScope (Nat.le_refl _) b'

section

variable (hr : it.registry = .standard) (hclose : Shuts b close)
include hr hclose

/-- A move keeps a run housed. -/
theorem move_housed (h : Housed b w₀ root st w) {x : Except Escape (State S)}
    (heq : it.move close st w = (x, w')) (hx : x ≠ .error .exhausted) :
    Conducts b w₀ w' ∧ ∀ st', x = .ok st' → Housed b w₀ root st' w' := by
  have D := Discipline.any (h := it.host close) (Conducts.drift b) hclose.along Conducts.takeOutcome
  obtain ⟨u, hu⟩ := h.conducts
  cases move_cases D hr st.sound_any heq hx with
  | inside _ hrel hok _ =>
    have hw' : Conducts b w₀ w' := h.conducts.trans hrel
    refine ⟨hw', fun st' hx ↦ ?_⟩
    obtain ⟨-, hbudget, hscope, hregions⟩ := hok st' hx
    refine ⟨hw', hscope ▸ h.scope, hregions ▸ h.parents, fun s hs ↦ ?_⟩
    rw [openScopes, hregions] at hs
    rw [hbudget]
    exact (h.own s hs).conducts hrel
  | @registered release st' hc hst' =>
    have hw' := hu.addFinalizer st.scope (.release release st.context st.budget) (.inr h.scope)
    obtain ⟨-, hbudget, hscope, hregions⟩ := hst'
    refine ⟨hw', ?_⟩
    rintro _ ⟨⟩
    refine ⟨hw', hscope ▸ h.scope, hregions ▸ h.parents, fun s hs ↦ ?_⟩
    rw [openScopes, hregions] at hs
    rw [hbudget]
    exact (h.own s hs).addFinalizer st.scope release st.context
  | @entered body st' _ hc hrel hst' hbudget hscope hregions =>
    have henter : Conducts b w w.enterScope.2 := ⟨_, .enterScope w⟩
    have hw' : Conducts b w₀ w' := h.conducts.trans (henter.trans hrel)
    have hsize : w₀.scopes.size ≤ w.enterScope.1.index := hu.tended.size
    refine ⟨hw', ?_⟩
    rintro _ ⟨⟩
    refine ⟨hw', hscope ▸ hsize, ?_, fun s hs ↦ ?_⟩
    · rw [hregions]
      exact List.forall_mem_cons.2 ⟨h.scope, h.parents⟩
    · rw [openScopes, hregions] at hs
      rw [hbudget]
      rcases List.mem_cons.1 hs with rfl | hs
      · exact (Own.enterScope hsize st.budget).conducts hrel
      · exact (h.own s hs).conducts (henter.trans hrel)
  | @left s parent rest o _ y _ hs hc hy hmap hst' =>
    obtain ⟨v, r, rfl, hv, -⟩ := hclose hy fun he ↦ hx (by rw [hmap, he]; rfl)
    have hw' : Conducts b w₀ w' := h.conducts.trans ⟨v, hv⟩
    refine ⟨hw', ?_⟩
    rintro _ rfl
    cases hmap
    have hparents : ∀ r ∈ (s, parent) :: regions rest, w₀.scopes.size ≤ r.2.index := by
      have hparents := h.parents
      rwa [hs] at hparents
    obtain ⟨hparent, hrest⟩ := List.forall_mem_cons.1 hparents
    refine ⟨hw', hparent, hrest, fun s' hs' ↦ (h.own s' ?_).conducts ⟨v, hv⟩⟩
    rw [hs]
    exact List.mem_cons_of_mem s hs'

/-- At every moment of a run all scopes that it works with are its own. -/
theorem Moves.housed (h : it.Moves close b' st w st' w') (hw : Housed b w₀ root st w) :
    Housed b w₀ root st' w' := by
  induction h with
  | refl => exact hw
  | @tick st₁ _ w₁ _ ih =>
    have htick : Conducts b w₁ _ := ⟨[], .tick w₁ b'⟩
    obtain ⟨hconducts, hscope, hparents, hown⟩ := ih hw
    exact ⟨hconducts.trans htick, hscope, hparents, fun s hs ↦ (hown s hs).conducts htick⟩
  | move _ hm ih => exact (move_housed hr hclose (ih hw) hm nofun).2 _ rfl

omit hr in
/-- An abort closes all scopes on the stack, and is bracketed by its beginning and its end. -/
theorem abort_conduct {n : Nat} {x : Except Escape (Cause S.Error)}
    (heq : it.abort close n st w = (x, w')) (hx : x ≠ .error .exhausted) :
    ∃ u cause w₁, x = .ok cause ∧ Conduct b (w.modifyBudget st.budget Budget.beginAbort) u w₁ ∧
      w' = w₁.modifyBudget st.budget Budget.endAbort ∧
        ∀ s ∈ openScopes st.stack, s.index < w.scopes.size → (w'.scope s).closed = true := by
  change ((it.host close).abort st.stack (.defect (.stepLimitExceeded n)) >>= fun cause ↦
    Machine.modify (fun w ↦ w.modifyBudget st.budget Budget.endAbort) >>= fun _ ↦ pure cause)
      (w.modifyBudget st.budget Budget.beginAbort) = _ at heq
  rcases Machine.bind_eq heq with ⟨c, w₁, hc, heq⟩ | ⟨e, he, rfl⟩
  · cases heq
    obtain ⟨u, _, ⟨⟩, hu, hclosed⟩ := Host.abort_conduct (h := it.host close) hclose hc nofun
    exact ⟨u, c, w₁, rfl, hu, rfl, hclosed⟩
  · obtain ⟨u, _, ⟨⟩, -⟩ := Host.abort_conduct (h := it.host close) hclose he
      (Escape.ne_exhausted hx)

theorem drive_conducts {fuel : Nat} (h : Housed b w₀ root st w)
    {x : Except Escape (Outcome S.Error Value)} (heq : it.drive close b' fuel st w = (x, w'))
    (hx : x ≠ .error .exhausted) : Conducts b w₀ w' := by
  obtain ⟨st₁, w₁, hmoves, hend⟩ := drive_ends heq hx
  have h₁ : Housed b w₀ root st₁ w₁ := hmoves.housed hr hclose h
  cases hend with
  | settled => exact h₁.conducts
  | panicked hm => exact (move_housed hr hclose h₁ hm nofun).1
  | aborted hl ha =>
    obtain ⟨u, cause, w₂, -, hu, rfl, -⟩ := abort_conduct hclose ha fun he ↦ hx (by rw [he]; rfl)
    have htick : Conduct b w₁ [] (w₁.modifyBudget b' Budget.tick) := .tick w₁ b'
    exact h₁.conducts.trans ⟨_, (htick.trans (.exceeded hl)).trans hu.aborted⟩

/-- An interpretation conducts itself. -/
theorem interpretWith_conducts (fuel : Nat) (node : Node S) (context : Context) (b' : BudgetId) :
    Along (Conducts b) True (it.interpretWith close fuel node context b') fun _ ↦ True := by
  intro w x w' heq hx
  refine ⟨?_, fun _ _ ↦ trivial, fun _ _ ↦ trivial⟩
  have hstart := start_housed b w node context b'
  rcases Machine.inScope_eq heq with ⟨o, w₁, ho, hroot⟩ | ⟨e, he, rfl⟩
  · have hdrive : Conducts b w w₁ := drive_conducts hr hclose hstart ho nofun
    rcases hroot with ⟨r, hc, rfl⟩ | ⟨e, hc, rfl⟩
    · exact hdrive.trans (hclose.along _ hc nofun).1
    · exact hdrive.trans (hclose.along _ hc (Escape.ne_exhausted hx)).1
  · exact drive_conducts hr hclose hstart he (Escape.ne_exhausted hx)

end

/-- Closing a scope conducts itself. -/
theorem closeScope_shuts (hr : it.registry = .standard) (b : BudgetId) (fuel : Nat) :
    Shuts b (it.closeScope fuel) := by
  induction fuel with
  | zero =>
    intro s w x w' heq hx
    cases heq
    exact absurd rfl hx
  | succ fuel ih =>
    exact Host.shuts_shut (h := it.host (it.closeScope fuel)) ih
      fun node context b' ↦ interpretWith_conducts hr ih fuel node context b'

end Interpreter

end EffectMachine
