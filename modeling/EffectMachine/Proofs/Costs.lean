import EffectMachine.Proofs.Acquisition
import EffectMachine.Proofs.Branching
import EffectMachine.Proofs.Transparency
import EffectMachine.Proofs.Unwinding

/-!
# What effects cost

The steps that an effect takes to come to its value, as a sum over its parts. `Program.Spends` says
of a *task*, such as an effect or the closing of a scope, how many steps it takes from one world to
another. There is a rule for each kind of node and no stack: the rules go by the structure of what
is interpreted.

**Only failure-free work has a cost.** Where something fails no rule applies. Nor does one where a
closure closes a scope by hand (`Action.Gives`): the finalizers that run there are steps of no node.

The rules are about the machine. On whatever stack an effect is in hand, the loop comes to hold its
value on the same stack, in the world that the rules tell (`Program.Spends.does`); and by then the
budget has been ticked as often as the rules say (`Program.Spends.counted`).
-/

namespace EffectMachine

variable {S : Signature} {α : Type}

/-! ### Counted steps -/

/-- A number of steps have been counted on a budget; all budgets are otherwise left alone. -/
def World.Counted (b : BudgetId) (k : Nat) (w w' : World S) : Prop :=
  w'.budgets = (w.ticks b k).budgets

namespace World.Counted

variable {b : BudgetId} {j k : Nat} {w w' w'' : World S}

theorem ticks (w : World S) (b : BudgetId) (k : Nat) : w.Counted b k (w.ticks b k) := rfl

theorem refl (w : World S) (b : BudgetId) : w.Counted b 0 w := rfl

/-- What leaves budgets alone may come first, -/
theorem after (h : w'.Counted b k w'') (hw : w'.budgets = w.budgets) : w.Counted b k w'' := by
  have hcongr : ∀ k, (w'.ticks b k).budgets = (w.ticks b k).budgets := by
    intro k
    induction k with
    | zero => exact hw
    | succ k ih => exact congrArg (Heap.modify · b.index Budget.tick) ih
  exact Eq.trans h (hcongr k)

/-- or last. -/
theorem before (h : w.Counted b k w') (hw : w''.budgets = w'.budgets) : w.Counted b k w'' :=
  Eq.trans hw h

theorem trans (h : w.Counted b j w') (h' : w'.Counted b k w'') : w.Counted b (j + k) w'' := by
  have hlater : (w.ticks b j).Counted b k w'' := h'.after h
  rw [Counted, ← ticks_ticks]
  exact hlater

theorem cast (h : w.Counted b j w') (hk : j = k) : w.Counted b k w' := hk ▸ h

/-- The budget shows the steps that have been counted, until it saturates. -/
theorem used (h : w.Counted b k w') (hborn : b.index < w.budgets.size)
    (hw : (w.budget b).used ≤ wordMax) :
    (w'.budget b).used = min ((w.budget b).used + k) wordMax := by
  have hcell : ∀ k, ∃ x, (w.ticks b k).budgets.get? b.index = some x ∧
      x.used = min ((w.budget b).used + k) wordMax := by
    intro k
    induction k with
    | zero =>
      have hx : w.budgets.get? b.index = some _ := Array.getElem?_eq_getElem hborn
      refine ⟨_, hx, ?_⟩
      rw [World.budget, hx] at hw ⊢
      exact (Nat.min_eq_left hw).symm
    | succ k ih =>
      obtain ⟨x, hx, hused⟩ := ih
      refine ⟨x.tick, ?_, ?_⟩
      · rw [World.ticks, World.modifyBudget, Heap.get?_modify_self, hx]
        rfl
      · show min (x.used + 1) wordMax = _
        omega
  obtain ⟨x, hx, hused⟩ := hcell k
  rw [World.budget, h, hx]
  exact hused

end World.Counted

/-! ### Closures -/

/-- The closure yields a result, however scopes close. -/
def Action.Gives (a : Action S α) (w : World S) (x : α) (w' : World S) : Prop :=
  ∀ close, a.perform close w = (.ok x, w')

namespace Action.Gives

variable {a : Action S α} {x : α} {w w' : World S}

theorem perform (h : a.Gives w x w') (host : Host S) : host.perform a w = (.ok x, w') :=
  h host.close

theorem attempt (h : a.Gives w x w') (host : Host S) : host.attempt a w = (.ok (.ok x), w') :=
  host.attempt_eq_ok.2 (h.perform host)

theorem build {thunk : Action S (Plan S)} {n : Node S} {host : Host S}
    (h : (host.program.building thunk).Gives w n w') : host.build thunk w = (.ok (.ok n), w') :=
  h.attempt host

/-- A closure counts no steps. -/
theorem budgets (h : a.Gives w x w') (p : Program S) : w'.budgets = w.budgets := by
  let host : Host S := ⟨.sync, p, fun _ ↦ .escape .exhausted⟩
  have hclose : ∀ s, Machine.Along World.Calm False (host.close s) fun _ ↦ True := by
    rintro s v _ _ ⟨⟩ hx
    exact absurd rfl hx
  have halong := host.perform_along World.Calm.drift a (.inr hclose) (.inr World.Calm.takeOutcome)
  exact (halong (h.perform host) nofun).1.budgets

/-- A closure yields one thing only. -/
theorem unique {x' : α} {w'' : World S} (h : a.Gives w x w') (h' : a.Gives w x' w'') :
    x' = x ∧ w'' = w' := by
  cases (h fun _ ↦ .escape .exhausted).symm.trans (h' fun _ ↦ .escape .exhausted)
  exact ⟨rfl, rfl⟩

end Action.Gives

/-- What a closure yields that closes no scope, it yields however scopes close. -/
theorem Host.attempt_gives {h : Host S} {a : Action S α} (ha : a.Quiet) {x : α} {w w' : World S}
    (heq : h.attempt a w = (.ok (.ok x), w')) : a.Gives w x w' := by
  intro close
  have hfirm := h.perform_firm close ha
  exact (congrFun hfirm.eq w).trans (h.attempt_eq_ok.1 heq)

/-! ### The rules -/

/-- Something to be done in an interpretation. -/
inductive Task (S : Signature) where
  /-- Coming from an effect in hand to its value, in a context and a scope. -/
  | effect (context : Context) (scope : ScopeId) (node : Node S)
  /-- Running branches one after the other. -/
  | branches (context : Context) (scope : ScopeId) (nodes : List (Node S))
  /-- Invoking the finalizers of a scope that is closing. -/
  | invoking (s : ScopeId) (fs : List (Finalizer S))
  | closing (s : ScopeId)
  /-- Interpreting an effect in a fresh root scope. -/
  | running (node : Node S) (context : Context)

/-- The world when branches have been forked. -/
def World.forked (w : World S) (n : Nat) : World S := { w with forks := w.forks + n }

/-- Without failing, the task takes the number of steps from one world to the other and yields the
values. All steps are counted on one budget, those of release effects too. -/
inductive Program.Spends (p : Program S) (b : BudgetId) :
    Task S → World S → Nat → List Value → World S → Prop where
  | pure {context scope w w' make v} (h : make.Gives (w.ticks b 1) v w') :
      Spends p b (.effect context scope (.pure make)) w 1 [v] w'
  | service {context scope w key s} (h : context.find? key = some s) :
      Spends p b (.effect context scope (.service key)) w 1 [⟨.service, s⟩] (w.ticks b 1)
  | sleep {context scope w d} :
      Spends p b (.effect context scope (.sleep d)) w 1 [.unit]
        ((w.ticks b 1).modifyClock fun c ↦ c.sleep d)
  | async {context scope w w' start v}
      (h : (start (w.ticks b 1).newSlot.1).Gives (w.ticks b 1).newSlot.2 () w')
      (hv : (w'.takeOutcome (w.ticks b 1).newSlot.1).1 = some (.ok v)) :
      Spends p b (.effect context scope (.async start)) w 1 [v]
        (w'.takeOutcome (w.ticks b 1).newSlot.1).2
  | finalizer {context scope w w' release}
      (h : (w.ticks b 1).addFinalizer scope (.release release context b) = (.ok (), w')) :
      Spends p b (.effect context scope (.finalizer release)) w 1 [.unit] w'
  | suspend {context scope w w₁ w' thunk n k v} (h : (p.building thunk).Gives (w.ticks b 1) n w₁)
      (hn : Spends p b (.effect context scope n) w₁ k [v] w') :
      Spends p b (.effect context scope (.suspend thunk)) w (1 + k) [v] w'
  /-- The continuation answers with a value. -/
  | bind {context scope w w₁ w' source next k u v}
      (hs : Spends p b (.effect context scope source) (w.ticks b 1) k [u] w₁)
      (h : (p.continuing (next u)).Gives (w₁.ticks b 1) (.value v) w') :
      Spends p b (.effect context scope (.bind source next)) w (2 + k) [v] w'
  /-- The continuation answers with an effect. -/
  | bindEffect {context scope w w₁ w₂ w' source next n k j u v}
      (hs : Spends p b (.effect context scope source) (w.ticks b 1) k [u] w₁)
      (h : (p.continuing (next u)).Gives (w₁.ticks b 1) (.effect n) w₂)
      (hn : Spends p b (.effect context scope n) w₂ j [v] w') :
      Spends p b (.effect context scope (.bind source next)) w (2 + k + j) [v] w'
  | provide {context inner scope w w₁ w' layer source k v}
      (h : (layer.build context).Gives (w.ticks b 1) (.ok inner) w₁)
      (hs : Spends p b (.effect inner scope source) w₁ k [v] w') :
      Spends p b (.effect context scope (.provide layer source)) w (2 + k) [v] (w'.ticks b 1)
  | recover {context scope w w' source accepts handler k v}
      (hs : Spends p b (.effect context scope source) (w.ticks b 1) k [v] w') :
      Spends p b (.effect context scope (.recover source accepts handler)) w (2 + k) [v]
        (w'.ticks b 1)
  | retry {context scope w w' source schedule k v}
      (hs : Spends p b (.effect context scope source) (w.ticks b 1) k [v] w') :
      Spends p b (.effect context scope (.retry source schedule)) w (2 + k) [v] (w'.ticks b 1)
  | timeout {context scope w w' source limit k v}
      (hs : Spends p b (.effect context scope source) (w.ticks b 1) k [v] w')
      (h : ¬limit < w'.clock.since w.clock.nanos) :
      Spends p b (.effect context scope (.timeout source limit)) w (2 + k) [v] (w'.ticks b 1)
  /-- The first branch wins. -/
  | race {context scope w w' first rest k v}
      (hs : Spends p b (.effect context scope first) ((w.ticks b 1).forked (rest.length + 1)) k [v]
        w') :
      Spends p b (.effect context scope (.race (first :: rest))) w (2 + k) [v] (w'.ticks b 1)
  | parallel {context scope w w₁ w' nodes collect k vs v}
      (hs : Spends p b (.branches context scope nodes) ((w.ticks b 1).forked nodes.length) k vs w₁)
      (h : (collect vs).Gives w₁ (.ok v) w') :
      Spends p b (.effect context scope (.parallel nodes collect)) w (1 + k) [v] w'
  | noBranches {context scope w} : Spends p b (.branches context scope []) w 0 [] w
  | branch {context scope w w₁ w' n nodes k j v vs}
      (hn : Spends p b (.effect context scope n) w k [v] w₁)
      (hs : Spends p b (.branches context scope nodes) (w₁.ticks b 1) j vs w') :
      Spends p b (.branches context scope (n :: nodes)) w (k + 1 + j) (v :: vs) w'
  /-- The scope of the body closes when the value is in hand. -/
  | region {context scope w w₁ w₂ w' body n k j v}
      (h : (p.building (body (w.ticks b 1).enterScope.1)).Gives (w.ticks b 1).enterScope.2 n w₁)
      (hn : Spends p b (.effect context (w.ticks b 1).enterScope.1 n) w₁ k [v] w₂)
      (hc : Spends p b (.closing (w.ticks b 1).enterScope.1) (w₂.ticks b 1) j [] w') :
      Spends p b (.effect context scope (.region body)) w (2 + k + j) [v] w'
  | closing {s w w' k} (hs : (w.scope s).closed = false)
      (h : Spends p b (.invoking s (w.scope s).finalizers) (w.shutScope s) k [] w') :
      Spends p b (.closing s) w k [] (w'.record (.closed s))
  | noFinalizers {s w} : Spends p b (.invoking s []) w 0 [] w
  /-- A named finalizer takes no steps. -/
  | cleanup {s w w₁ w' c fs k}
      (h : (p.cleanup c).Gives (w.record (.invoked s (.cleanup c))) (.ok ()) w₁)
      (hfs : Spends p b (.invoking s fs) (w₁.record (.ended s (.cleanup c) (.ok ()))) k [] w') :
      Spends p b (.invoking s (.cleanup c :: fs)) w k [] w'
  /-- A release effect takes the steps of a run. -/
  | release {s w w₁ w₂ w' build context fs n k j v}
      (h : (p.building build).Gives (w.record (.invoked s (.release build context b))) n w₁)
      (hn : Spends p b (.running n context) w₁ k [v] w₂)
      (hfs : Spends p b (.invoking s fs) (w₂.record (.ended s (.release build context b) (.ok ())))
        j [] w') :
      Spends p b (.invoking s (.release build context b :: fs)) w (k + j) [] w'
  /-- A run settles with one more step, and its root scope closes. -/
  | running {w w₁ w' n context k j v}
      (hn : Spends p b (.effect context w.enterScope.1 n) w.enterScope.2 k [v] w₁)
      (hc : Spends p b (.closing w.enterScope.1) (w₁.ticks b 1) j [] w') :
      Spends p b (.running n context) w (k + 1 + j) [v] w'

/-- **The budget is ticked as often as the rules say.** -/
theorem Program.Spends.counted {p : Program S} {b : BudgetId} {t : Task S} {w w' : World S}
    {k : Nat} {vs : List Value} (h : p.Spends b t w k vs w') : w.Counted b k w' := by
  have hone : ∀ w : World S, w.Counted b 1 (w.ticks b 1) := fun w ↦ .ticks w b 1
  -- closures, forks and the operations on scopes leave budgets alone
  induction h with
  | pure h => exact (hone _).before (h.budgets p)
  | service | sleep => exact hone _
  | async h => exact (hone _).before (h.budgets p)
  | @finalizer context scope w w' release h =>
    have hcalm := World.Calm.addFinalizer (w.ticks b 1) scope (.release release context b)
    rw [h] at hcalm
    exact (hone w).before hcalm.budgets
  | suspend h _ ih => exact (hone _).trans (ih.after (h.budgets p))
  | bind _ h ih =>
    have hsource := ((hone _).trans ih).trans (hone _)
    exact (hsource.before (h.budgets p)).cast (by omega)
  | bindEffect _ h _ ih ih' =>
    have hsource := ((hone _).trans ih).trans (hone _)
    exact (hsource.trans (ih'.after (h.budgets p))).cast (by omega)
  | provide h _ ih =>
    have hinner := (hone _).trans (ih.after (h.budgets p))
    exact (hinner.trans (hone _)).cast (by omega)
  | recover _ ih | retry _ ih | timeout _ _ ih =>
    have hsource := (hone _).trans ih
    exact (hsource.trans (hone _)).cast (by omega)
  | race _ ih =>
    have hfirst := (hone _).trans (ih.after rfl)
    exact (hfirst.trans (hone _)).cast (by omega)
  | parallel _ h ih => exact ((hone _).trans (ih.after rfl)).before (h.budgets p)
  | noBranches | noFinalizers => exact .refl _ b
  | branch _ _ ih ih' => exact (ih.trans (hone _)).trans ih'
  | region h _ _ ih ih' =>
    have hbody := (hone _).trans (ih.after (h.budgets p))
    exact ((hbody.trans (hone _)).trans ih').cast (by omega)
  | closing _ _ ih => exact World.Counted.before (ih.after rfl) rfl
  | cleanup h _ ih => exact (ih.after rfl).after (h.budgets p)
  | release h _ _ ih ih' =>
    exact World.Counted.after ((ih.after (h.budgets p)).trans (ih'.after rfl)) rfl
  | running _ _ ih ih' => exact World.Counted.after ((ih.trans (hone _)).trans ih') rfl

/-- **The cost of a task is determined**, and so is what comes of it. -/
theorem Program.Spends.unique {p : Program S} {b : BudgetId} {t : Task S} {w w' w'' : World S}
    {k k' : Nat} {vs vs' : List Value} (h : p.Spends b t w k vs w')
    (h' : p.Spends b t w k' vs' w'') : k' = k ∧ vs' = vs ∧ w'' = w' := by
  induction h generalizing k' vs' w'' with
  | pure h =>
    cases h' with
    | pure h' =>
      obtain ⟨rfl, rfl⟩ := h.unique h'
      exact ⟨rfl, rfl, rfl⟩
  | service h =>
    cases h' with
    | service h' =>
      cases h.symm.trans h'
      exact ⟨rfl, rfl, rfl⟩
  | sleep =>
    cases h'
    exact ⟨rfl, rfl, rfl⟩
  | async h hv =>
    cases h' with
    | async h' hv' =>
      obtain ⟨-, rfl⟩ := h.unique h'
      cases hv.symm.trans hv'
      exact ⟨rfl, rfl, rfl⟩
  | finalizer h =>
    cases h' with
    | finalizer h' =>
      cases h.symm.trans h'
      exact ⟨rfl, rfl, rfl⟩
  | suspend h _ ih =>
    cases h' with
    | suspend h' hn' =>
      obtain ⟨rfl, rfl⟩ := h.unique h'
      obtain ⟨rfl, ⟨⟩, rfl⟩ := ih hn'
      exact ⟨rfl, rfl, rfl⟩
  | bind _ h ih =>
    cases h' with
    | bind hs' h' =>
      obtain ⟨rfl, ⟨⟩, rfl⟩ := ih hs'
      obtain ⟨⟨⟩, rfl⟩ := h.unique h'
      exact ⟨rfl, rfl, rfl⟩
    | bindEffect hs' h' =>
      obtain ⟨rfl, ⟨⟩, rfl⟩ := ih hs'
      obtain ⟨⟨⟩, -⟩ := h.unique h'
  | bindEffect _ h _ ih ihn =>
    cases h' with
    | bind hs' h' =>
      obtain ⟨rfl, ⟨⟩, rfl⟩ := ih hs'
      obtain ⟨⟨⟩, -⟩ := h.unique h'
    | bindEffect hs' h' hn' =>
      obtain ⟨rfl, ⟨⟩, rfl⟩ := ih hs'
      obtain ⟨⟨⟩, rfl⟩ := h.unique h'
      obtain ⟨rfl, ⟨⟩, rfl⟩ := ihn hn'
      exact ⟨rfl, rfl, rfl⟩
  | provide h _ ih =>
    cases h' with
    | provide h' hs' =>
      obtain ⟨⟨⟩, rfl⟩ := h.unique h'
      obtain ⟨rfl, ⟨⟩, rfl⟩ := ih hs'
      exact ⟨rfl, rfl, rfl⟩
  | recover _ ih =>
    cases h' with
    | recover hs' =>
      obtain ⟨rfl, ⟨⟩, rfl⟩ := ih hs'
      exact ⟨rfl, rfl, rfl⟩
  | retry _ ih =>
    cases h' with
    | retry hs' =>
      obtain ⟨rfl, ⟨⟩, rfl⟩ := ih hs'
      exact ⟨rfl, rfl, rfl⟩
  | timeout _ _ ih =>
    cases h' with
    | timeout hs' =>
      obtain ⟨rfl, ⟨⟩, rfl⟩ := ih hs'
      exact ⟨rfl, rfl, rfl⟩
  | race _ ih =>
    cases h' with
    | race hs' =>
      obtain ⟨rfl, ⟨⟩, rfl⟩ := ih hs'
      exact ⟨rfl, rfl, rfl⟩
  | parallel _ h ih =>
    cases h' with
    | parallel hs' h' =>
      obtain ⟨rfl, rfl, rfl⟩ := ih hs'
      obtain ⟨⟨⟩, rfl⟩ := h.unique h'
      exact ⟨rfl, rfl, rfl⟩
  | noBranches | noFinalizers =>
    cases h'
    exact ⟨rfl, rfl, rfl⟩
  | branch _ _ ih ihs =>
    cases h' with
    | branch hn' hs' =>
      obtain ⟨rfl, ⟨⟩, rfl⟩ := ih hn'
      obtain ⟨rfl, rfl, rfl⟩ := ihs hs'
      exact ⟨rfl, rfl, rfl⟩
  | region h _ _ ih ihc =>
    cases h' with
    | region h' hn' hc' =>
      obtain ⟨rfl, rfl⟩ := h.unique h'
      obtain ⟨rfl, ⟨⟩, rfl⟩ := ih hn'
      obtain ⟨rfl, -, rfl⟩ := ihc hc'
      exact ⟨rfl, rfl, rfl⟩
  | closing _ _ ih =>
    cases h' with
    | closing _ h' =>
      obtain ⟨rfl, -, rfl⟩ := ih h'
      exact ⟨rfl, rfl, rfl⟩
  | cleanup h _ ih =>
    cases h' with
    | cleanup h' hfs' =>
      obtain ⟨-, rfl⟩ := h.unique h'
      exact ih hfs'
  | release h _ _ ih ihs =>
    cases h' with
    | release h' hn' hfs' =>
      obtain ⟨rfl, rfl⟩ := h.unique h'
      obtain ⟨rfl, -, rfl⟩ := ih hn'
      obtain ⟨rfl, -, rfl⟩ := ihs hfs'
      exact ⟨rfl, rfl, rfl⟩
  | running _ _ ih ihc =>
    cases h' with
    | running hn' hc' =>
      obtain ⟨rfl, ⟨⟩, rfl⟩ := ih hn'
      obtain ⟨rfl, -, rfl⟩ := ihc hc'
      exact ⟨rfl, rfl, rfl⟩

/-- The task takes that number of steps, and no other. -/
structure Program.Costs (p : Program S) (b : BudgetId) (t : Task S) (w : World S) (k : Nat)
    (vs : List Value) (w' : World S) : Prop where
  spends : p.Spends b t w k vs w'
  counted : w.Counted b k w'
  unique : ∀ j us w'', p.Spends b t w j us w'' → j = k ∧ us = vs ∧ w'' = w'

theorem Program.Spends.costs {p : Program S} {b : BudgetId} {t : Task S} {w w' : World S} {k : Nat}
    {vs : List Value} (h : p.Spends b t w k vs w') : p.Costs b t w k vs w' :=
  ⟨h, h.counted, fun _ _ _ h' ↦ h.unique h'⟩

end EffectMachine
