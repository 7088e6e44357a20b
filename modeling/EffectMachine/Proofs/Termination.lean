import EffectMachine.Proofs.Conduct
import EffectMachine.Proofs.Refinement
import EffectMachine.Proofs.Sessions

/-!
# Well-founded effects come to an end

An effect is *well-founded* (`Interpreter.Founded`) if it is a tree without infinite branches:
its closures return in every world, and the effects that they return are well-founded again.
Interpreting such an effect without a step limit reaches a value or a cause, whatever the world, and
so does everything that happens on the way: retries, the scopes that close, and the interpretations
of release effects that this takes.

## What the theorem rests on

* **Direct evaluation recurses on the tree**, so the induction is the one on well-foundedness, with
  the attempts that a ceiling leaves to a retry as an inner one. The machine ends where direct
  evaluation ends.
* **What waits on a scope of the run comes from the run.** A scope is fresh when it is opened; while
  it is in force, release effects are registered on it by the effects of its body only, and closures
  leave named finalizers (`World.Leaves`). So when the scope closes, every finalizer that it invokes
  is known to end.
* **A closure is a single step.** It may close scopes of its own choice and so interpret effects
  that have nothing to do with the tree; that it returns is what is asked of it, not how.
-/

namespace EffectMachine

variable {S : Signature} {α β : Type}

open World (Uncounting)

/-! ### Effects without infinite branches -/

namespace Interpreter

variable (it : Interpreter S) (K : S.Cleanup → Prop)

/-- In some world a closure returns this. -/
def Gives (a : Action S α) (x : α) : Prop :=
  ∃ fuel w w', (it.host (it.closeScope fuel)).perform a w = (.ok x, w')

/-- A closure returns in every world, or panics. On the scopes that were there before it leaves no
named finalizers but those that `K` allows. -/
structure Returns (a : Action S α) : Prop where
  ends : ∀ w, ∃ fuel x w',
    (it.host (it.closeScope fuel)).perform a w = (x, w') ∧ x ≠ .error .exhausted
  leaves : ∀ ⦃fuel w x w'⦄, (it.host (it.closeScope fuel)).perform a w = (x, w') →
    x ≠ .error .exhausted → ∀ s c, s.index < w.scopes.size →
      .cleanup c ∈ (w'.scope s).finalizers → .cleanup c ∈ (w.scope s).finalizers ∨ K c

/-- An effect without infinite branches: its closures return for every argument, and its
sub-effects and the effects that its closures return are without infinite branches. -/
inductive Founded : Node S → Prop where
  | pure {make : Action S Value} (h : it.Returns K make) : Founded (.pure make)
  | fail (cause : Cause S.Error) : Founded (.fail cause)
  | suspend {thunk : Action S (Plan S)} (h : it.Returns K (it.program.building thunk))
      (hm : ∀ m, it.Gives (it.program.building thunk) m → Founded m) : Founded (.suspend thunk)
  | bind {source : Node S} {next : Value → Action S (Step S)} (hs : Founded source)
      (h : ∀ v, it.Returns K (it.program.continuing (next v)))
      (hm : ∀ v m, it.Gives (it.program.continuing (next v)) (.effect m) → Founded m) :
      Founded (.bind source next)
  | service (key : Key) : Founded (.service key)
  | provide {layer : Layer S} {inner : Node S} (h : ∀ context, it.Returns K (layer.build context))
      (hs : Founded inner) : Founded (.provide layer inner)
  | sleep (d : Duration) : Founded (.sleep d)
  | async {start : SlotId → Action S Unit} (h : ∀ slot, it.Returns K (start slot)) :
      Founded (.async start)
  | recover {source : Node S} {accepts : Cause S.Error → Action S Bool}
      {handler : Cause S.Error → Action S (Plan S)} (hs : Founded source)
      (ha : ∀ cause, it.Returns K (accepts cause))
      (h : ∀ cause, it.Returns K (it.program.building (handler cause)))
      (hm : ∀ cause m, it.Gives (it.program.building (handler cause)) m → Founded m) :
      Founded (.recover source accepts handler)
  | parallel {branches : List (Node S)} {collect : List Value → Action S (Except Defect Value)}
      (hs : ∀ n ∈ branches, Founded n) (h : ∀ vs, it.Returns K (collect vs)) :
      Founded (.parallel branches collect)
  | race {branches : List (Node S)} (hs : ∀ n ∈ branches, Founded n) : Founded (.race branches)
  | retry {source : Node S} {schedule : Schedule S} (hs : Founded source)
      (h : ∀ jitter failed, it.Returns K (schedule.decideFrom jitter failed)) :
      Founded (.retry source schedule)
  | region {body : ScopeId → Action S (Plan S)}
      (h : ∀ s, it.Returns K (it.program.building (body s)))
      (hm : ∀ s m, it.Gives (it.program.building (body s)) m → Founded m) : Founded (.region body)
  | finalizer {release : Action S (Plan S)} (h : it.Returns K (it.program.building release))
      (hm : ∀ m, it.Gives (it.program.building release) m → Founded m) :
      Founded (.finalizer release)
  | timeout {source : Node S} (limit : Duration) (hs : Founded source) :
      Founded (.timeout source limit)

end Interpreter

/-! ### What is left waiting -/

/-- On the scopes that were there before, the finalizers that wait afterwards waited before or are
as said. -/
structure World.Leaves (P : ScopeId → Finalizer S → Prop) (w w' : World S) : Prop where
  size : w.scopes.size ≤ w'.scopes.size
  waiting : ∀ s, s.index < w.scopes.size → ∀ f ∈ (w'.scope s).finalizers,
    f ∈ (w.scope s).finalizers ∨ P s f

namespace World.Leaves

variable {P P' : ScopeId → Finalizer S → Prop} {w w' w'' : World S}

theorem of_scopes (h : w'.scopes = w.scopes) : w.Leaves P w' where
  size := Nat.le_of_eq (by rw [h])
  waiting s _ f hf := by
    rw [scope_congr h] at hf
    exact .inl hf

theorem trans (h : w.Leaves P w') (h' : w'.Leaves P w'') : w.Leaves P w'' where
  size := Nat.le_trans h.size h'.size
  waiting s hs f hf := by
    rcases h'.waiting s (Nat.lt_of_lt_of_le hs h.size) f hf with hf | hf
    · exact h.waiting s hs f hf
    · exact .inr hf

theorem mono (h : w.Leaves P w') (hP : ∀ s f, P s f → P' s f) : w.Leaves P' w' where
  size := h.size
  waiting s hs f hf := (h.waiting s hs f hf).imp_right (hP s f)

theorem addFinalizer {s : ScopeId} {f : Finalizer S} (hP : P s f) :
    w.Leaves P (w.addFinalizer s f).2 where
  size := Nat.le_of_eq (w.size_addFinalizer s f).symm
  waiting s' _ f' hf' := by
    cases hc : (w.scope s).closed with
    | true =>
      rw [w.scope_addFinalizer_of_closed hc f] at hf'
      exact .inl hf'
    | false =>
      by_cases hs : s' = s
      · subst hs
        rw [w.scope_addFinalizer_self hc f] at hf'
        rcases List.mem_cons.1 hf' with rfl | hf'
        · exact .inr hP
        · exact .inl hf'
      · rw [w.scope_addFinalizer_of_ne hs f] at hf'
        exact .inl hf'

theorem shutScope (w : World S) (s : ScopeId) : w.Leaves P (w.shutScope s) where
  size := Nat.le_of_eq (w.size_shutScope s).symm
  waiting s' _ f hf := by
    by_cases hs : s' = s
    · subst hs
      rw [w.scope_shutScope_self] at hf
      cases hf
    · rw [w.scope_shutScope_of_ne hs] at hf
      exact .inl hf

theorem enterScope (w : World S) : w.Leaves P w.enterScope.2 where
  size := Nat.le_trans (Nat.le_succ _) (Nat.le_of_eq w.size_openScope.symm)
  waiting s _ _ hf := .inl ((w.finalizers_openScope s).symm ▸ hf)

end World.Leaves

/-! ### Families that end in every world -/

/-- The diagonal of a family, one index later, converges with it. -/
theorem Converges.diagonal {M : Nat → Nat → Machine S α} {D : Nat → Machine S α} {w w' : World S}
    {x : Except Escape α} (h : Converges M w x w') (hD : ∀ k, D (k + 1) = M k k) :
    Converges (fun i _ ↦ D i) w x w' := by
  obtain ⟨N, hN⟩ := h
  refine ⟨N + 1, fun i hi n _ ↦ ?_⟩
  obtain ⟨k, rfl⟩ : ∃ k, i = k + 1 := ⟨i - 1, by omega⟩
  show ∀ w₁, World.Alike w₁ w → ∃ w₁', D (k + 1) w₁ = (x, w₁') ∧ World.Alike w₁' w'
  rw [hD]
  exact hN k (by omega) k (by omega)

/-- From a world the members of a family agree on a result, from some indices on. -/
def TerminatesFrom (P : ScopeId → Finalizer S → Prop) (M : Nat → Nat → Machine S α) (Q : α → Prop)
    (w : World S) : Prop :=
  ∃ a w', Converges M w (.ok a) w' ∧ w.Leaves P w' ∧ Q a

/-- They do so from every world. -/
def Terminates (P : ScopeId → Finalizer S → Prop) (M : Nat → Nat → Machine S α) (Q : α → Prop) :
    Prop :=
  ∀ w, TerminatesFrom P M Q w

namespace Terminates

variable {P P' : ScopeId → Finalizer S → Prop} {M : Nat → Nat → Machine S α} {Q Q' : α → Prop}
  {F : α → Nat → Nat → Machine S β} {R : β → Prop}

theorem pure {a : α} (ha : Q a) : Terminates P (fun _ _ ↦ Pure.pure a) Q :=
  fun w ↦ ⟨a, w, .pure a w, .of_scopes rfl, ha⟩

theorem bindFrom {w : World S} (h : TerminatesFrom P M Q w)
    (hF : ∀ a, Q a → Terminates P (F a) R) :
    TerminatesFrom P (fun i n ↦ M i n >>= fun a ↦ F a i n) R w := by
  obtain ⟨a, w₁, hconv, hleaves, ha⟩ := h
  obtain ⟨b, w₂, hconv', hleaves', hb⟩ := hF a ha w₁
  exact ⟨b, w₂, hconv.bind hconv', hleaves.trans hleaves', hb⟩

theorem bind (h : Terminates P M Q) (hF : ∀ a, Q a → Terminates P (F a) R) :
    Terminates P (fun i n ↦ M i n >>= fun a ↦ F a i n) R :=
  fun w ↦ bindFrom (h w) hF

theorem mono (h : Terminates P M Q) (hP : ∀ s f, P s f → P' s f) (hQ : ∀ a, Q a → Q' a) :
    Terminates P' M Q' := by
  intro w
  obtain ⟨a, w', hconv, hleaves, ha⟩ := h w
  exact ⟨a, w', hconv, hleaves.mono hP, hQ a ha⟩

theorem post (h : Terminates P M Q) (hQ : ∀ a, Q a → Q' a) : Terminates P M Q' :=
  h.mono (fun _ _ ↦ id) hQ

theorem modifyGet {f : World S → α × World S} (hf : Uncounting f)
    (hl : ∀ w : World S, w.Leaves P (f w).2) :
    Terminates P (fun _ _ ↦ Machine.modifyGet f) fun _ ↦ True :=
  fun w ↦ ⟨(f w).1, (f w).2, .modifyGet hf w, hl w, trivial⟩

theorem modify {f : World S → World S}
    (hf : ∀ w budgets, f { w with budgets } = { f w with budgets })
    (hl : ∀ w : World S, w.Leaves P (f w)) :
    Terminates P (fun _ _ ↦ Machine.modify f) fun _ ↦ True :=
  fun w ↦ ⟨(), f w,
    .modifyGet (f := fun w ↦ ((), f w)) (fun w budgets ↦ Prod.ext rfl (hf w budgets)) w, hl w,
    trivial⟩

theorem getsFrom {f : World S → α} (hf : ∀ w budgets, f { w with budgets } = f w)
    (w : World S) : TerminatesFrom P (fun _ _ ↦ Machine.gets f) (fun a ↦ a = f w) w :=
  ⟨f w, w, .modifyGet (f := fun w ↦ (f w, w)) (fun w budgets ↦ Prod.ext (hf w budgets) rfl) w,
    .of_scopes rfl, rfl⟩

theorem gets {f : World S → α} (hf : ∀ w budgets, f { w with budgets } = f w) :
    Terminates P (fun _ _ ↦ Machine.gets f) fun _ ↦ True :=
  fun w ↦
    let ⟨a, w', hconv, hleaves, _⟩ := getsFrom hf w
    ⟨a, w', hconv, hleaves, trivial⟩

/-- What ends without a panic does so under a guard. -/
theorem guard (h : Terminates P M Q) : Terminates P (fun i n ↦ (M i n).guard) fun _ ↦ True := by
  intro w
  obtain ⟨a, w', ⟨N, hN⟩, hleaves, -⟩ := h w
  refine ⟨.ok a, w', ⟨N, fun i hi n hn w₁ hw₁ ↦ ?_⟩, hleaves, trivial⟩
  obtain ⟨w₁', heq, hw₁'⟩ := hN i hi n hn w₁ hw₁
  refine ⟨w₁', ?_, hw₁'⟩
  show (M i n).guard w₁ = (.ok (.ok a), w₁')
  rw [Machine.guard_apply, heq]
  rfl

/-- The first members of a family do not count. -/
theorem of_tail (h : Terminates P (fun i n ↦ M i (n + 1)) Q) : Terminates P M Q := by
  intro w
  obtain ⟨a, w', hconv, hrest⟩ := h w
  exact ⟨a, w', hconv.succ fun _ _ ↦ rfl, hrest⟩

/-- A family that runs ahead of another one ends as well. -/
theorem ahead (h : Terminates P M Q) (k : Nat) : Terminates P (fun i n ↦ M i (n + k)) Q := by
  intro w
  obtain ⟨a, w', ⟨N, hN⟩, hrest⟩ := h w
  exact ⟨a, w', ⟨N, fun i hi n hn ↦ hN i hi (n + k) (by omega)⟩, hrest⟩

end Terminates

/-! ### Closures -/

/-- A finalizer that closures may leave on any scope. -/
def Named (K : S.Cleanup → Prop) (_ : ScopeId) (f : Finalizer S) : Prop :=
  ∃ c, K c ∧ f = .cleanup c

namespace Interpreter

variable {it : Interpreter S} {K : S.Cleanup → Prop} (hp : it.IsPlain)
include hp

/-- An interpreter is made of its program and its settings. -/
theorem IsPlain.eq_plain : it = plain it.program it.config.name it.config.traceSteps := by
  obtain ⟨p, ⟨name, limit, traceSteps⟩, σ, r⟩ := it
  obtain ⟨rfl, rfl, rfl⟩ := hp
  rfl

theorem IsPlain.closeScope_covered (depth : Nat) (s : ScopeId) :
    Covers (fun i _ ↦ it.program.closeScope i s) (it.closeScope depth s) := by
  rw [hp.eq_plain]
  exact EffectMachine.closeScope_covered _ _ _ depth s

/-- A closure registers no release effect on a scope that was there before. -/
theorem Returns.world_leaves {a : Action S α} (h : it.Returns K a) {fuel : Nat} {w w' : World S}
    {x : Except Escape α} (heq : (it.host (it.closeScope fuel)).perform a w = (x, w'))
    (hx : x ≠ .error .exhausted) : w.Leaves (Named K) w' := by
  have hshuts := closeScope_shuts hp.registry ⟨0⟩ fuel
  obtain ⟨⟨u, hu⟩, -, -⟩ := (it.host (it.closeScope fuel)).perform_along (Conducts.drift ⟨0⟩) a
    (.inr hshuts.along) (.inr Conducts.takeOutcome) heq hx
  refine ⟨hu.tended.size, fun s hs f hf ↦ ?_⟩
  cases f with
  | cleanup c => exact (h.leaves heq hx s c hs hf).imp_right fun hc ↦ ⟨c, hc, rfl⟩
  | release build context b => exact .inl (hu.tended.releases s build context b hs hf)

/-- A closure that returns does so in direct evaluation, too, and with the same result. -/
theorem Returns.terminates {a : Action S α} (h : it.Returns K a) :
    Terminates (Named K) (fun i _ ↦ (it.program.host (it.program.closeScope i)).attempt a)
      fun x ↦ ∀ v, x = .ok v → it.Gives a v := by
  intro w
  obtain ⟨fuel, x, w', heq, hx⟩ := h.ends w
  have hcovers : Covers (fun i _ ↦ (it.program.host (it.program.closeScope i)).attempt a)
      ((it.host (it.closeScope fuel)).attempt a) :=
    Covers.attempt (h := it.host (it.closeScope fuel)) (hp.closeScope_covered fuel) a
  have hattempt : (it.host (it.closeScope fuel)).attempt a w = (Machine.guarded x, w') := by
    rw [Host.attempt, Machine.guard_apply, heq]
  have hconv := hcovers hattempt (mt Machine.guarded_eq_exhausted.1 hx)
  have hleaves := h.world_leaves hp heq hx
  rcases x with (pn | _) | v
  · exact ⟨_, w', hconv, hleaves, nofun⟩
  · exact absurd rfl hx
  · refine ⟨_, w', hconv, hleaves, ?_⟩
    rintro _ ⟨⟩
    exact ⟨fuel, w, w', heq⟩

end Interpreter

/-! ### Scopes that close -/

section Closing

variable (p : Program S) (K : S.Cleanup → Prop)

/-- A finalizer ends, whether it fails or not, and leaves named finalizers only. -/
def Finalizer.Ends (f : Finalizer S) : Prop :=
  Terminates (Named K)
    (fun i n ↦ ((p.host (p.closeScope i)).finalize (p.evaluateWith (p.closeScope i) n) f).guard)
    fun _ ↦ True

/-- What an effect may leave on scopes: named finalizers, and finalizers that end on the scope in
force. -/
def Owned (scope : ScopeId) (s : ScopeId) (f : Finalizer S) : Prop :=
  Named K s f ∨ s = scope ∧ f.Ends p K

variable {p K}

theorem invoke_terminates (s : ScopeId) {f : Finalizer S} (hf : f.Ends p K) :
    Terminates (Named K)
      (fun i n ↦ (p.host (p.closeScope i)).invoke (p.evaluateWith (p.closeScope i) n) s f)
      fun _ ↦ True := by
  simp only [Host.invoke]
  exact .bind (.modify (fun _ _ ↦ rfl) fun _ ↦ .of_scopes rfl) fun _ _ ↦ .bind hf fun _ _ ↦
    .bind (.modify (fun _ _ ↦ rfl) fun _ ↦ .of_scopes rfl) fun _ _ ↦ .pure trivial

theorem invokeAll_terminates (s : ScopeId) {fs : List (Finalizer S)}
    (hfs : ∀ f ∈ fs, f.Ends p K) :
    Terminates (Named K)
      (fun i n ↦ (p.host (p.closeScope i)).invokeAll (p.evaluateWith (p.closeScope i) n) s fs)
      fun _ ↦ True := by
  induction fs with
  | nil => exact .pure trivial
  | cons f fs ih =>
    have hrest := ih fun f' hf' ↦ hfs f' (List.mem_cons_of_mem f hf')
    simp only [Host.invokeAll]
    refine .bind (invoke_terminates s (hfs f List.mem_cons_self)) fun o _ ↦ ?_
    rcases o with cause | ⟨⟩
    · exact .bind hrest fun _ _ ↦ .pure trivial
    · exact hrest

/-- A scope closes if all finalizers that wait on it end. -/
theorem closeScope_converges {s : ScopeId} {w : World S}
    (hs : ∀ f ∈ (w.scope s).finalizers, f.Ends p K) :
    ∃ r w', Converges (fun i _ ↦ p.closeScope i s) w (.ok r) w' ∧ w.Leaves (Named K) w' := by
  have hshut : TerminatesFrom (Named K)
      (fun i n ↦ (p.host (p.closeScope i)).shut (p.evaluateWith (p.closeScope i) n) s)
      (fun _ ↦ True) w := by
    simp only [Host.shut]
    refine Terminates.bindFrom (Terminates.getsFrom (fun _ _ ↦ rfl) w) ?_
    rintro _ rfl
    cases (w.scope s).closed with
    | true => exact .pure trivial
    | false =>
      refine .bind (.modify (fun _ _ ↦ rfl) fun w ↦ .shutScope w s) fun _ _ ↦
        .bind (invokeAll_terminates s hs) fun failures _ ↦
        .bind (.modify (fun _ _ ↦ rfl) fun _ ↦ .of_scopes rfl) fun _ _ ↦ ?_
      cases failures <;> exact .pure trivial
  obtain ⟨r, w', hconv, hleaves, -⟩ := hshut
  exact ⟨r, w', hconv.diagonal fun _ ↦ rfl, hleaves⟩

variable (hK : ∀ c, K c → Finalizer.Ends p K (.cleanup c))
include hK

/-- Something that is done in a fresh scope, which closes afterwards. -/
theorem inScope_terminates {B : Nat → Nat → ScopeId → Machine S (Outcome S.Error α)}
    (hB : ∀ s, Terminates (Owned p K s) (fun i n ↦ B i n s) fun _ ↦ True) :
    Terminates (Named K) (fun i n ↦ Machine.inScope (p.closeScope i) (B i n)) fun _ ↦ True := by
  intro w
  have hlt : w.enterScope.1.index < w.enterScope.2.scopes.size := by
    show w.scopes.size < w.openScope.2.scopes.size
    rw [w.size_openScope]
    exact Nat.lt_succ_self _
  have henter : w.Leaves (Named K) w.enterScope.2 := .enterScope w
  have hfresh : w.enterScope.2.scope w.enterScope.1 = .fresh := w.scope_openScope_self
  obtain ⟨o, w₂, hbody, hleaves, -⟩ := hB w.enterScope.1 w.enterScope.2
  have hwaiting : ∀ f ∈ (w₂.scope w.enterScope.1).finalizers, f.Ends p K := by
    intro f hf
    rcases hleaves.waiting _ hlt f hf with hf | ⟨c, hc, rfl⟩ | ⟨-, hf⟩
    · rw [hfresh] at hf
      cases hf
    · exact hK c hc
    · exact hf
  obtain ⟨r, w₃, hclose, hleaves'⟩ := closeScope_converges hwaiting
  have hconv : Converges (fun i n ↦ Machine.inScope (p.closeScope i) (B i n)) w
      (.ok (o.merge r)) w₃ :=
    (Converges.modifyGet (f := World.enterScope) (fun _ _ ↦ rfl) w).bind
      (hbody.bind (hclose.bind (.pure _ _)))
  refine ⟨_, w₃, hconv, ⟨?_, fun s hs f hf ↦ ?_⟩, trivial⟩
  · exact Nat.le_trans henter.size (Nat.le_trans hleaves.size hleaves'.size)
  · have hs₁ : s.index < w.enterScope.2.scopes.size := Nat.lt_of_lt_of_le hs henter.size
    rcases hleaves'.waiting s (Nat.lt_of_lt_of_le hs₁ hleaves.size) f hf with hf | hf
    · rcases hleaves.waiting s hs₁ f hf with hf | hf | ⟨rfl, -⟩
      · exact henter.waiting s hs f hf
      · exact .inr hf
      · exact absurd hs (Nat.lt_irrefl _)
    · exact .inr hf

end Closing

/-! ### Effects -/

/-- Evaluating an effect ends, and leaves nothing on scopes but what it owns. -/
def Node.Ends (p : Program S) (K : S.Cleanup → Prop) (node : Node S) : Prop :=
  ∀ b context scope, Terminates (Owned p K scope)
    (fun i n ↦ (p.host (p.closeScope i)).evaluate b n node context scope) fun _ ↦ True

section Effects

variable {it : Interpreter S} {K : S.Cleanup → Prop} {b : BudgetId} {context : Context}
  {scope : ScopeId}

/-- The effect that was built is evaluated, if one was. -/
theorem evaluateBuilt_terminates {p : Program S} {x : Except Defect (Node S)}
    (hx : ∀ m, x = .ok m → m.Ends p K) :
    Terminates (Owned p K scope) (fun i n ↦ Host.evaluateBuilt
      ((p.host (p.closeScope i)).evaluate b n · context scope) x) fun _ ↦ True := by
  cases x with
  | error d => exact .pure trivial
  | ok m => exact hx m rfl b context scope

theorem evaluateAll_terminates {p : Program S} {branches : List (Node S)}
    (hs : ∀ n ∈ branches, n.Ends p K) :
    Terminates (Owned p K scope) (fun i n ↦ Host.evaluateAll
      ((p.host (p.closeScope i)).evaluate b n · context scope) branches) fun _ ↦ True := by
  induction branches with
  | nil => exact .pure trivial
  | cons node rest ih =>
    simp only [Host.evaluateAll]
    refine .bind (hs node List.mem_cons_self b context scope) fun o _ ↦ ?_
    cases o with
    | error cause => exact .pure trivial
    | ok v =>
      exact .bind (ih fun n hn ↦ hs n (List.mem_cons_of_mem node hn)) fun _ _ ↦ .pure trivial

theorem evaluateFirst_terminates {p : Program S} {branches : List (Node S)}
    (hs : ∀ n ∈ branches, n.Ends p K) (failures : List (Cause S.Error)) :
    Terminates (Owned p K scope) (fun i n ↦ Host.evaluateFirst
      ((p.host (p.closeScope i)).evaluate b n · context scope) branches failures)
      fun _ ↦ True := by
  induction branches generalizing failures with
  | nil => exact .pure trivial
  | cons node rest ih =>
    simp only [Host.evaluateFirst]
    refine .bind (hs node List.mem_cons_self b context scope) fun o _ ↦ ?_
    cases o with
    | ok v => exact .pure trivial
    | error cause => exact ih (fun n hn ↦ hs n (List.mem_cons_of_mem node hn)) _

variable (hp : it.IsPlain)
include hp

/-- A closure that returns leaves nothing that its effect would not own. -/
theorem attempt_terminates {a : Action S α} (h : it.Returns K a) :
    Terminates (Owned it.program K scope)
      (fun i _ ↦ (it.program.host (it.program.closeScope i)).attempt a)
      fun x ↦ ∀ v, x = .ok v → it.Gives a v :=
  (h.terminates hp).mono (fun _ _ ↦ .inl) fun _ ↦ id

omit hp in
/-- Only below its ceiling does a schedule go on. -/
theorem Schedule.lt_ceiling_of_gives {schedule : Schedule S} {jitter jitter' : JitterSource}
    {failed : Failed S.Error} {delay : Duration}
    (h : it.Gives (schedule.decideFrom jitter failed) (.retry delay, jitter')) :
    failed.attempt < schedule.ceiling := by
  refine Nat.lt_of_not_le fun hle ↦ ?_
  obtain ⟨fuel, w, w', heq⟩ := h
  rw [Schedule.decideFrom_ceiling hle] at heq
  cases heq

/-- An attempt ends, and the loop with it if the attempts that may follow do. The loop and the
source run on one fuel, but an attempt takes fuel from the loop only. -/
theorem evaluateRetry_attempt {source : Node S} {schedule : Schedule S}
    (hs : source.Ends it.program K)
    (h : ∀ jitter failed, it.Returns K (schedule.decideFrom jitter failed))
    {startedAt lead attempt : Nat} (jitter : JitterSource)
    (hnext : attempt < schedule.ceiling → ∀ jitter, Terminates (Owned it.program K scope)
      (fun i n ↦ (it.program.host (it.program.closeScope i)).evaluateRetry
        ((it.program.host (it.program.closeScope i)).evaluate b (n + (1 + lead)) source context
          scope) schedule startedAt n jitter (attempt + 1)) fun _ ↦ True) :
    Terminates (Owned it.program K scope)
      (fun i n ↦ (it.program.host (it.program.closeScope i)).evaluateRetry
        ((it.program.host (it.program.closeScope i)).evaluate b (n + lead) source context scope)
        schedule startedAt n jitter attempt) fun _ ↦ True := by
  refine .of_tail ?_
  simp only [Host.evaluateRetry, Nat.add_assoc]
  refine .bind ((hs b context scope).ahead (1 + lead)) fun o _ ↦ ?_
  split
  · refine .bind (.gets fun _ _ ↦ rfl) fun elapsed _ ↦
      .bind (attempt_terminates hp (h jitter _)) fun x hx ↦ ?_
    rcases x with d | ⟨_ | delay, jitter'⟩
    · exact .pure trivial
    · exact .pure trivial
    · exact .bind (.modify (fun _ _ ↦ rfl) fun _ ↦ .of_scopes rfl) fun _ _ ↦
        hnext (Schedule.lt_ceiling_of_gives (hx _ rfl)) jitter'
  · exact .pure trivial

/-- The attempts that the ceiling leaves to a retry. -/
theorem evaluateRetry_terminates {source : Node S} {schedule : Schedule S}
    (hs : source.Ends it.program K)
    (h : ∀ jitter failed, it.Returns K (schedule.decideFrom jitter failed)) (startedAt left : Nat)
    (jitter : JitterSource) (attempt : Nat) (hleft : schedule.ceiling ≤ attempt + left)
    (lead : Nat) :
    Terminates (Owned it.program K scope)
      (fun i n ↦ (it.program.host (it.program.closeScope i)).evaluateRetry
        ((it.program.host (it.program.closeScope i)).evaluate b (n + lead) source context scope)
        schedule startedAt n jitter attempt) fun _ ↦ True := by
  induction left generalizing jitter attempt lead with
  | zero =>
    exact evaluateRetry_attempt hp hs h jitter fun hlt _ ↦ absurd hleft (Nat.not_le_of_lt hlt)
  | succ left ih =>
    exact evaluateRetry_attempt hp hs h jitter fun _ jitter' ↦
      ih jitter' (attempt + 1) (by omega) (1 + lead)

variable (hK : ∀ c, K c → it.Returns K (it.program.cleanup c))
include hK

/-- A named finalizer that closures may leave ends. -/
theorem cleanup_ends (c : S.Cleanup) (hc : K c) : Finalizer.Ends it.program K (.cleanup c) :=
  ((hK c hc).terminates hp).post fun _ _ ↦ trivial

/-- An effect that ends does so as a run of its own. -/
theorem evaluateWith_terminates {node : Node S} (hn : node.Ends it.program K) :
    Terminates (Named K) (fun i n ↦
      it.program.evaluateWith (it.program.closeScope i) n node context b) fun _ ↦ True :=
  inScope_terminates (cleanup_ends hp hK) fun root ↦ hn b context root

/-- So a release effect ends as a finalizer. -/
theorem release_ends {release : Action S (Plan S)}
    (h : it.Returns K (it.program.building release))
    (hm : ∀ m, it.Gives (it.program.building release) m → m.Ends it.program K) :
    Finalizer.Ends it.program K (.release release context b) := by
  refine .guard (Q := fun _ ↦ True) ?_
  simp only [Host.finalize]
  refine .bind (h.terminates hp) fun x hx ↦ ?_
  cases x with
  | error d => exact .pure trivial
  | ok m =>
    exact .bind (evaluateWith_terminates hp hK (hm m (hx m rfl))) fun _ _ ↦ .pure trivial

/-! ### One lemma for each kind of effect

An effect ends if its closures return, and if the effects below it end and those that its closures
return. -/

namespace Node.Ends

variable {source : Node S} {branches : List (Node S)}

omit hp hK in
theorem fail (cause : Cause S.Error) : (Node.fail cause).Ends it.program K := fun _ _ _ ↦
  .of_tail (.pure trivial)

omit hp hK in
theorem service (key : Key) : (Node.service key).Ends it.program K := by
  intro b context scope
  refine .of_tail ?_
  simp only [Host.evaluate]
  cases context.find? key with
  | some s => exact .pure trivial
  | none => exact .pure trivial

omit hp hK in
theorem sleep (d : Duration) : (Node.sleep d).Ends it.program K := by
  intro b context scope
  refine .of_tail ?_
  simp only [Host.evaluate]
  exact .bind (.modify (fun _ _ ↦ rfl) fun _ ↦ .of_scopes rfl) fun _ _ ↦ .pure trivial

omit hp hK in
theorem timeout (hs : source.Ends it.program K) (limit : Duration) :
    (Node.timeout source limit).Ends it.program K := by
  intro b context scope
  refine .of_tail ?_
  simp only [Host.evaluate]
  refine .bind (.gets fun _ _ ↦ rfl) fun startedAt _ ↦ .bind (hs b context scope) fun o _ ↦ ?_
  cases o with
  | error cause => exact .pure trivial
  | ok v => exact .bind (.gets fun _ _ ↦ rfl) fun elapsed _ ↦ .pure trivial

omit hp hK in
theorem race (hs : ∀ n ∈ branches, n.Ends it.program K) :
    (Node.race branches).Ends it.program K := by
  intro b context scope
  refine .of_tail ?_
  cases branches with
  | nil => exact .pure trivial
  | cons node rest =>
    simp only [Host.evaluate]
    exact .bind (.modify (fun _ _ ↦ rfl) fun _ ↦ .of_scopes rfl) fun _ _ ↦
      evaluateFirst_terminates hs []

omit hK

theorem pure {make : Action S Value} (h : it.Returns K make) :
    (Node.pure make).Ends it.program K := by
  intro b context scope
  refine .of_tail ?_
  simp only [Host.evaluate]
  exact .bind (attempt_terminates hp h) fun _ _ ↦ .pure trivial

theorem async {start : SlotId → Action S Unit} (h : ∀ slot, it.Returns K (start slot)) :
    (Node.async start).Ends it.program K := by
  intro b context scope
  refine .of_tail ?_
  simp only [Host.evaluate]
  refine .bind (.modifyGet (fun _ _ ↦ rfl) fun _ ↦ .of_scopes rfl) fun slot _ ↦
    .bind (attempt_terminates hp (h slot)) fun x _ ↦ ?_
  cases x with
  | error d => exact .pure trivial
  | ok u =>
    exact .bind (.modifyGet (fun _ _ ↦ rfl) fun _ ↦ .of_scopes rfl) fun _ _ ↦ .pure trivial

theorem provide {layer : Layer S} (h : ∀ context, it.Returns K (layer.build context))
    (hs : source.Ends it.program K) : (Node.provide layer source).Ends it.program K := by
  intro b context scope
  refine .of_tail ?_
  simp only [Host.evaluate]
  refine .bind (attempt_terminates hp (h context)) fun x _ ↦ ?_
  rcases x with d | missing | inner
  · exact .pure trivial
  · exact .pure trivial
  · exact hs b inner scope

theorem parallel {collect : List Value → Action S (Except Defect Value)}
    (hs : ∀ n ∈ branches, n.Ends it.program K) (h : ∀ vs, it.Returns K (collect vs)) :
    (Node.parallel branches collect).Ends it.program K := by
  intro b context scope
  refine .of_tail ?_
  simp only [Host.evaluate]
  refine .bind (.modify (fun _ _ ↦ rfl) fun _ ↦ .of_scopes rfl) fun _ _ ↦
    .bind (evaluateAll_terminates hs) fun o _ ↦ ?_
  cases o with
  | error cause => exact .pure trivial
  | ok vs =>
    refine .bind (attempt_terminates hp (h vs)) fun x _ ↦ ?_
    rcases x with d | d | v <;> exact .pure trivial

theorem retry {schedule : Schedule S} (hs : source.Ends it.program K)
    (h : ∀ jitter failed, it.Returns K (schedule.decideFrom jitter failed)) :
    (Node.retry source schedule).Ends it.program K := by
  intro b context scope
  refine .of_tail ?_
  simp only [Host.evaluate]
  exact .bind (.gets fun _ _ ↦ rfl) fun startedAt _ ↦
    evaluateRetry_terminates hp hs h startedAt schedule.ceiling _ 0 (Nat.le_add_left _ _) 0

theorem bind {next : Value → Action S (Step S)} (hs : source.Ends it.program K)
    (h : ∀ v, it.Returns K (it.program.continuing (next v)))
    (hm : ∀ v m, it.Gives (it.program.continuing (next v)) (.effect m) → m.Ends it.program K) :
    (Node.bind source next).Ends it.program K := by
  intro b context scope
  refine .of_tail ?_
  simp only [Host.evaluate]
  refine .bind (hs b context scope) fun o _ ↦ ?_
  cases o with
  | error cause => exact .pure trivial
  | ok v =>
    refine .bind (attempt_terminates hp (h v)) fun x hx ↦ ?_
    rcases x with d | (m | v | cause | _)
    · exact .pure trivial
    · exact hm v m (hx _ rfl) b context scope
    · exact .pure trivial
    · exact .pure trivial
    · exact .pure trivial

/-- An effect is built, and evaluated in the scope in force. -/
theorem visit {build : Action S (Plan S)} (h : it.Returns K (it.program.building build))
    (hm : ∀ m, it.Gives (it.program.building build) m → m.Ends it.program K) :
    Terminates (Owned it.program K scope)
      (fun i n ↦ (it.program.host (it.program.closeScope i)).build build >>=
        Host.evaluateBuilt
          ((it.program.host (it.program.closeScope i)).evaluate b n · context scope))
      fun _ ↦ True :=
  .bind (attempt_terminates hp h) fun _ hx ↦
    evaluateBuilt_terminates fun m hgives ↦ hm m (hx m hgives)

theorem suspend {thunk : Action S (Plan S)} (h : it.Returns K (it.program.building thunk))
    (hm : ∀ m, it.Gives (it.program.building thunk) m → m.Ends it.program K) :
    (Node.suspend thunk).Ends it.program K := by
  intro b context scope
  refine .of_tail ?_
  simp only [Host.evaluate]
  exact visit hp h hm

theorem recover {accepts : Cause S.Error → Action S Bool}
    {handler : Cause S.Error → Action S (Plan S)} (hs : source.Ends it.program K)
    (ha : ∀ cause, it.Returns K (accepts cause))
    (h : ∀ cause, it.Returns K (it.program.building (handler cause)))
    (hm : ∀ cause m, it.Gives (it.program.building (handler cause)) m → m.Ends it.program K) :
    (Node.recover source accepts handler).Ends it.program K := by
  intro b context scope
  refine .of_tail ?_
  simp only [Host.evaluate]
  refine .bind (hs b context scope) fun o _ ↦ ?_
  cases o with
  | ok v => exact .pure trivial
  | error cause =>
    refine .bind (attempt_terminates hp (ha cause)) fun x _ ↦ ?_
    rcases x with d | _ | _
    · exact .pure trivial
    · exact .pure trivial
    · exact visit hp (h cause) (hm cause)

include hK

/-- What the body leaves on the scope of the region, the region invokes. -/
theorem region {body : ScopeId → Action S (Plan S)}
    (h : ∀ s, it.Returns K (it.program.building (body s)))
    (hm : ∀ s m, it.Gives (it.program.building (body s)) m → m.Ends it.program K) :
    (Node.region body).Ends it.program K := by
  intro b context scope
  refine .of_tail ?_
  simp only [Host.evaluate]
  exact (inScope_terminates (cleanup_ends hp hK) fun child ↦ visit hp (h child) (hm child)).mono
    (fun _ _ ↦ .inl) fun _ ↦ id

/-- What is left on the scope in force is a release effect that ends. -/
theorem finalizer {release : Action S (Plan S)}
    (h : it.Returns K (it.program.building release))
    (hm : ∀ m, it.Gives (it.program.building release) m → m.Ends it.program K) :
    (Node.finalizer release).Ends it.program K := by
  intro b context scope
  refine .of_tail ?_
  simp only [Host.evaluate]
  refine .bind (.modifyGet (World.uncounting_addFinalizer _ _) fun w ↦
    .addFinalizer (.inr ⟨rfl, release_ends hp hK h hm⟩)) fun x _ ↦ ?_
  rcases x with d | ⟨⟩ <;> exact .pure trivial

end Node.Ends

/-- **Evaluating a well-founded effect ends.** -/
theorem Interpreter.Founded.ends {node : Node S} (hn : it.Founded K node) :
    node.Ends it.program K := by
  induction hn with
  | pure h => exact .pure hp h
  | fail cause => exact .fail cause
  | suspend h _ ih => exact .suspend hp h ih
  | bind _ h _ ihs ih => exact .bind hp ihs h ih
  | service key => exact .service key
  | provide h _ ih => exact .provide hp h ih
  | sleep d => exact .sleep d
  | async h => exact .async hp h
  | recover _ ha h _ ihs ih => exact .recover hp ihs ha h ih
  | parallel _ h ih => exact .parallel hp ih h
  | race _ ih => exact .race ih
  | retry _ h ih => exact .retry hp ih h
  | region h _ ih => exact .region hp hK h ih
  | finalizer h _ ih => exact .finalizer hp hK h ih
  | timeout limit _ ih => exact .timeout ih limit

end Effects

namespace Interpreter

/-- **Interpreting a well-founded effect without a step limit reaches a value or a cause**, in every
context and every world: some number of rounds, and some depth to which scopes close, is enough for
the run, for the closing of its root scope and for all interpretations of release effects on the
way. With more of both the outcome is the same. -/
theorem interpret_terminates {it : Interpreter S} (hp : it.IsPlain) {K : S.Cleanup → Prop}
    (hK : ∀ c, K c → it.Returns K (it.program.cleanup c)) {node : Node S}
    (hn : it.Founded K node) (context : Context) (w : World S) :
    ∃ o N, ∀ fuel, N ≤ fuel → ∃ w', it.interpret fuel node context w = (.ok o, w') := by
  have hends : Terminates (Named K) (fun i n ↦ it.program.evaluateWith (it.program.closeScope i) n
      node context (w.newBudget {}).1) fun _ ↦ True := evaluateWith_terminates hp hK (hn.ends hp hK)
  obtain ⟨o, w₁, ⟨N, hN⟩, -, -⟩ := hends (w.newBudget {}).2
  obtain ⟨w₂, heq, -⟩ := hN N (Nat.le_refl N) N (Nat.le_refl N) (w.newBudget {}).2 rfl
  have hcovers := covers_evaluateWith it.program it.config.name it.config.traceSteps
    (covers_closeScope it.program it.config.name it.config.traceSteps N) N node context
    (w.newBudget {}).1
  rw [← hp.eq_plain] at hcovers
  obtain ⟨N', hN'⟩ := hcovers heq nofun
  refine ⟨o, N', fun fuel hfuel ↦ ?_⟩
  obtain ⟨w₃, heq', -⟩ := hN' fuel hfuel fuel hfuel (w.newBudget {}).2 rfl
  exact ⟨w₃, heq'⟩

end Interpreter

/-- A closure that closes no scope does not wait for one. -/
theorem Host.perform_ne_exhausted (h : Host S) {a : Action S α} (ha : a.Quiet) (w : World S) :
    (h.perform a w).1 ≠ .error .exhausted := by
  induction a generalizing w with
  | done | panic => nofun
  | closeScope => exact ha.elim
  | write _ _ ih | advance _ _ ih | sleep _ _ ih => exact ih ha _
  | read _ ih | now _ ih | draw _ ih | openScope _ ih | addCleanup _ _ _ ih | inspect _ _ ih
  | settle _ _ _ ih | take _ _ ih => exact ih _ (ha _) _

namespace Interpreter

/-- So it returns. -/
theorem returns_of_quiet (it : Interpreter S) {a : Action S α} (ha : a.Quiet) :
    it.Returns (fun _ ↦ True) a where
  ends w := ⟨0, _, _, rfl, Host.perform_ne_exhausted _ ha w⟩
  leaves _ _ _ _ _ _ _ _ _ _ := .inr trivial

/-- Tries again until it succeeds, and then runs a region with finalizers. -/
def patient : Node Tally :=
  .bind (.retry flaky (.ofBackoff (.fixed (.ofNanos 5)))) fun _ ↦
    .done (.effect (.node failingRegion))

theorem founded_flaky : flakyTally.Founded (fun _ ↦ True) flaky := by
  refine .suspend (flakyTally.returns_of_quiet fun _ ↦ trivial) ?_
  rintro _ ⟨fuel, w, w', ⟨⟩⟩
  split
  · exact .fail _
  · exact .pure (flakyTally.returns_of_quiet trivial)

theorem founded_failingRegion : flakyTally.Founded (fun _ ↦ True) failingRegion := by
  refine .region (fun s ↦ flakyTally.returns_of_quiet fun _ ↦ trivial) ?_
  rintro s _ ⟨fuel, w, w', ⟨⟩⟩
  refine .bind (.finalizer (flakyTally.returns_of_quiet trivial) ?_)
    (fun v ↦ flakyTally.returns_of_quiet trivial) ?_
  · rintro _ ⟨fuel, w, w', ⟨⟩⟩
    exact .fail _
  · rintro v _ ⟨fuel, w, w', ⟨⟩⟩

theorem founded_patient : flakyTally.Founded (fun _ ↦ True) patient := by
  refine .bind (.retry founded_flaky fun jitter failed ↦ flakyTally.returns_of_quiet ?_)
    (fun v ↦ flakyTally.returns_of_quiet trivial) ?_
  · unfold Schedule.decideFrom
    split <;> trivial
  · rintro v _ ⟨fuel, w, w', ⟨⟩⟩
    exact founded_failingRegion

/-- Retries and finalizers included, it comes to an end. -/
theorem interpret_terminates_patient :
    flakyTally.IsPlain ∧ (∀ c, True → flakyTally.Returns (fun _ ↦ True) (tally.cleanup c)) ∧
      flakyTally.Founded (fun _ ↦ True) patient ∧
      ∃ o N, ∀ fuel, N ≤ fuel →
        ∃ w', flakyTally.interpret fuel patient .empty tallyWorld = (.ok o, w') := by
  have hplain : flakyTally.IsPlain := isPlain_plain tally "flaky" false
  have hcleanup : ∀ c, True → flakyTally.Returns (fun _ ↦ True) (tally.cleanup c) :=
    fun c _ ↦ flakyTally.returns_of_quiet (tidy_tally c)
  exact ⟨hplain, hcleanup, founded_patient,
    interpret_terminates hplain hcleanup founded_patient .empty tallyWorld⟩

end Interpreter

end EffectMachine
