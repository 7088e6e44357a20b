import EffectMachine.Proofs.Calls
import EffectMachine.Proofs.Tracking

/-!
# Related effects evaluate alike

If two effects are the same up to sequencing laws inside (`Plan.Congruent`), evaluating the one is
tracked by evaluating the other. There is one lemma for each rule of the congruence, on the
evaluation of a node with one more unit of fuel, given that evaluation with less fuel is tracked
(`Tracked`). A node that only holds related parts is handled as its parts are. Where a law
applies, the evaluations differ in how much fuel they spend and in where calls end; the equations
of `Calls` bring them into one form.

The congruence is symmetric, but tracking is not: one side is given its fuel and the other one
takes what it needs. Each rule is therefore proved in both directions at once (`Plan.Interchanges`),
mostly by using one lemma twice.
-/

namespace EffectMachine

variable {S : Signature} {α β : Type}

open Machine (Tracks)

/-! ### Calls and values -/

/-- Go on with an element of a type; any other value is a defect. -/
def Machine.onElement (a : Ty) (k : a.El → Machine S (Outcome S.Error Value)) (v : Value) :
    Machine S (Outcome S.Error Value) :=
  match v.cast? a with
  | some x => k x
  | none => pure (.error (.defect (.typeMismatch a.name)))

@[simp] theorem Machine.onElement_mk {a : Ty} (k : a.El → Machine S (Outcome S.Error Value))
    (x : a.El) : onElement a k ⟨a, x⟩ = k x := by
  rw [onElement, Value.cast?_mk]

theorem Machine.onValue_onElement {a : Ty} (k : a.El → Machine S (Outcome S.Error Value))
    (l : Value → Machine S (Outcome S.Error Value)) (v : Value) :
    (onElement a k v).onValue l = onElement a (fun x ↦ (k x).onValue l) v := by
  unfold onElement
  cases v.cast? a <;> rfl

/-- Handing a value on changes nothing. -/
theorem Machine.onValue_ok (m : Machine S (Outcome S.Error α)) :
    (m.onValue fun v ↦ pure (.ok v)) = m := by
  have hpure : m = m >>= pure := (bind_pure m).symm
  conv_rhs => rw [hpure]
  refine bind_congr fun o ↦ ?_
  cases o <;> rfl

namespace Machine.Tracks

variable {G : Regime S} {Γ : List Ty} {t u : Promise}
  {M : Nat → Nat → Machine S (Outcome S.Error Value)} {m : Machine S (Outcome S.Error Value)}

theorem onValue {K : Value → Nat → Nat → Machine S (Outcome S.Error Value)}
    {k : Value → Machine S (Outcome S.Error Value)} (h : Tracks G Γ M m fun _ o ↦ G.Keeps t o)
    (hk : ∀ Γ' v, Γ <+: Γ' → v.Keeps t → Tracks G Γ' (K v) (k v) fun _ o ↦ G.Keeps u o) :
    Tracks G Γ (fun i n ↦ (M i n).onValue fun v ↦ K v i n) (m.onValue k) fun _ o ↦ G.Keeps u o := by
  refine .bind h fun Γ' o hΓ ho ↦ ?_
  rcases o with c | v
  · exact .pure ho
  · exact hk Γ' v hΓ ho

/-- Who takes elements of a type can cope with a value that is none. -/
theorem onElement {a : Ty} {K : a.El → Nat → Nat → Machine S (Outcome S.Error Value)}
    {k : a.El → Machine S (Outcome S.Error Value)} (ha : G.Takes t a) {v : Value} (hv : v.Keeps t)
    (hk : ∀ x, Tracks G Γ (K x) (k x) fun _ o ↦ G.Keeps u o) :
    Tracks G Γ (fun i n ↦ Machine.onElement a (fun x ↦ K x i n) v) (Machine.onElement a k v)
      fun _ o ↦ G.Keeps u o := by
  unfold Machine.onElement
  cases hcast : v.cast? a with
  | some x => exact hk x
  | none =>
    refine .pure (Regime.owns_defect.mpr fun _ ↦ ha.resolve_left ?_)
    rintro rfl
    exact (Value.cast?_eq_none_iff a v).mp hcast (hv a rfl)

/-- Making a slot for elements of a type. -/
theorem newSlot (a : Ty) :
    Tracks G Γ (fun _ _ ↦ Machine.modifyGet World.newSlot)
      (Machine.modifyGet (S := S) World.newSlot)
      fun Γ' s ↦ s = ⟨Γ.length⟩ ∧ Γ' = Γ ++ [a] := by
  rintro w w' _ _ hw ⟨⟩ -
  have hstate := G.state_mono (List.prefix_append Γ [a]) hw.typed.state
  have hslot : (⟨w.slots.size⟩ : SlotId) = ⟨Γ.length⟩ := congrArg SlotId.mk hw.typed.size
  refine ⟨Γ ++ [a], w'.newSlot.2, 0, List.prefix_append Γ [a], hw.newSlot hstate, ?_, ?_⟩
  · rintro _ ⟨⟩
    exact ⟨hslot, rfl⟩
  · intro _ _ _ _
    have hslot' : w'.newSlot.1 = w.newSlot.1 := congrArg (fun c ↦ SlotId.mk c.size) hw.slots
    show (Except.ok w'.newSlot.1, _) = _
    rw [hslot']

/-- Doing something in a fresh scope. -/
theorem inScope {c : Closer S} {C : Nat → Closer S} (hc : Closer.Tracks G C c)
    {B : ScopeId → Nat → Nat → Machine S (Outcome S.Error Value)}
    {body : ScopeId → Machine S (Outcome S.Error Value)}
    (hb : ∀ s, Tracks G Γ (B s) (body s) fun _ o ↦ G.Keeps t o) :
    Tracks G Γ (fun i n ↦ Machine.inScope (C i) fun s ↦ B s i n) (Machine.inScope c body)
      fun _ o ↦ G.Keeps t o := by
  refine .change (R := fun _ ↦ True) (fun w w' hw ↦ ⟨hw.openScope_eq, hw.enterScope, trivial⟩)
    fun s _ ↦ ?_
  exact .bind (hb s) fun Γ' o _ ho ↦ .bind (hc Γ' s) fun _ r _ hr ↦ .pure (ho.merge hr)

end Machine.Tracks

namespace Host

variable {G : Regime S} {Γ : List Ty} {h : Host S} {H : Nat → Host S}

/-- A call is tracked by a call of the same closure. -/
theorem call_tracks (hclose : Closer.Tracks G (fun i ↦ (H i).close) h.close) {x : Action S α}
    {Q : List Ty → α → Prop} (hx : x.Ensures G Γ Q)
    {K : α → Nat → Nat → Machine S (Outcome S.Error β)} {k : α → Machine S (Outcome S.Error β)}
    {P : Outcome S.Error β → Prop} (hP : ∀ c, G.Owns c → P (.error c))
    (hk : ∀ Γ' a, Γ <+: Γ' → Q Γ' a → Tracks G Γ' (K a) (k a) fun _ o ↦ P o) :
    Tracks G Γ (fun i n ↦ (H i).call x fun a ↦ K a i n) (h.call x k) fun _ o ↦ P o := by
  refine .bind (attempt_tracks hclose hx) fun Γ' r hΓ hr ↦ ?_
  cases r with
  | ok a => exact hk Γ' a hΓ (hr.1 a rfl)
  | error d => exact .pure (hP _ (hr.2 d rfl))

variable (h) (b : BudgetId) (fuel : Nat) (context : Context) (scope : ScopeId) {a a' : Ty}

theorem evaluate_succeed (x : a.El) :
    h.evaluate b (fuel + 1) (Effect.succeed x : Effect S a).node context scope =
      pure (.ok ⟨a, x⟩) := by
  show h.evaluate b (fuel + 1) (.pure (.done ⟨a, x⟩)) context scope = _
  simp only [evaluate]
  rfl

theorem evaluate_flatMap (m : Effect S a) (f : a.El → Action S (Effect S a')) :
    h.evaluate b (fuel + 1) (m.flatMap f).node context scope =
      (h.evaluate b fuel m.node context scope).onValue (Machine.onElement a fun x ↦
        h.call (f x) fun e ↦ h.visit b fuel context scope e.plan) := by
  show h.evaluate b (fuel + 1) (.bind m.node _) context scope = _
  rw [evaluate_bind]
  congr 1
  funext v
  rw [Effect.receive, Machine.onElement]
  cases v.cast? a with
  | none => rfl
  | some x =>
    exact h.call_bind (f x) (fun e ↦ .done (Step.effect e.plan)) (h.follow b fuel context scope)

theorem evaluate_suspended (thunk : Action S (Effect S a)) :
    h.evaluate b (fuel + 1) (Effect.suspend thunk).node context scope =
      h.call thunk fun e ↦ h.visit b fuel context scope e.plan :=
  (h.evaluate_suspend b fuel context scope _).trans (h.call_bind thunk (fun e ↦ .done e.plan) _)

end Host

/-! ### Rule by rule -/

/-- Evaluating a node with this much fuel is tracked by evaluating the other one. -/
def Node.Tracked (G : Regime S) (p p' : Program S) (C : Nat → Closer S) (c : Closer S)
    (b : BudgetId) (fuel : Nat) (Γ : List Ty) (t : Promise) (n n' : Node S) : Prop :=
  ∀ context scope, Context.Suits G context →
    Tracks G Γ (fun i k ↦ (p'.host (C i)).evaluate b k n' context scope)
      ((p.host c).evaluate b fuel n context scope) fun _ o ↦ G.Keeps t o

/-- Related nodes are tracked as long as there is no more fuel than this. -/
def Node.TrackedUpTo (G : Regime S) (p p' : Program S) (C : Nat → Closer S) (c : Closer S)
    (b : BudgetId) (fuel : Nat) : Prop :=
  ∀ ⦃f Γ t n n'⦄, f ≤ fuel → Plan.Congruent G Γ t (.node n) (.node n') →
    Node.Tracked G p p' C c b f Γ t n n'

/-- Either of two nodes may be evaluated in place of the other. -/
def Plan.Interchanges (G : Regime S) (p p' : Program S) (C : Nat → Closer S) (c : Closer S)
    (b : BudgetId) (fuel : Nat) (Γ : List Ty) (t : Promise) : Plan S → Plan S → Prop
  | .node n, .node n' =>
    n.Tracked G p p' C c b fuel Γ t n' ∧ n'.Tracked G p p' C c b fuel Γ t n
  | .named _, _ | .node _, .named _ => True

section

variable {G : Regime S} {p p' : Program S} (hp : p.Congruent G p') {c : Closer S}
  {C : Nat → Closer S} (hc : Closer.Tracks G C c) (b : BudgetId)

theorem Node.Tracked.zero {Γ : List Ty} {t : Promise} (n n' : Node S) :
    n.Tracked G p p' C c b 0 Γ t n' := by
  intro context scope _
  rw [Host.evaluate_zero]
  exact .exhausted

theorem Node.Tracked.forget {fuel : Nat} {Γ : List Ty} {t : Promise} {n n' : Node S}
    (h : n.Tracked G p p' C c b fuel Γ t n') : n.Tracked G p p' C c b fuel Γ none n' :=
  fun context scope hcontext ↦ (h context scope hcontext).post fun _ _ _ ho ↦ ho.forget

include hp hc in
/-- Related effects are built by the same requests, and the nodes that are built are related. -/
theorem Plan.Congruent.build_tracks {Γ : List Ty} {t : Promise} {q q' : Plan S}
    (h : q.Congruent G Γ t q') {K : Node S → Nat → Nat → Machine S (Outcome S.Error β)}
    {k : Node S → Machine S (Outcome S.Error β)} {P : Outcome S.Error β → Prop}
    (hP : ∀ cause, G.Owns cause → P (.error cause))
    (hk : ∀ Γ' n n', Γ <+: Γ' → Plan.Congruent G Γ' t (.node n) (.node n') →
      Tracks G Γ' (K n') (k n) fun _ o ↦ P o) :
    Tracks G Γ (fun i j ↦ (p'.host (C i)).call (p'.build q') fun n ↦ K n i j)
      ((p.host c).call (p.build q) k) fun _ o ↦ P o := by
  obtain ⟨d, a, rfl, rfl, hname, ht⟩ | ⟨n, n', rfl, rfl⟩ := h.named_or_node
  · obtain ⟨ι, z, l, r, hl, hr, hz⟩ := hp.effect hname
    simp only [Program.build, hl, hr, Host.call_bind, Host.call_done]
    refine Host.call_tracks hc hz hP fun Γ' i hΓ hi ↦ hk Γ' (l i) (r i) hΓ ?_
    obtain rfl | rfl := ht
    · exact hi
    · exact .forget hi
  · exact hk Γ n n' List.prefix_rfl h

/-! #### Effects without sub-effects -/

namespace Node.Tracked

variable {Γ : List Ty} {t : Promise}

theorem fail {fuel : Nat} {cause : Cause S.Error} (h : G.Owns cause) :
    Node.Tracked G p p' C c b (fuel + 1) Γ t (.fail cause) (.fail cause) := by
  intro context scope _
  refine .of_tail ?_
  simp only [Host.evaluate]
  exact .pure h

theorem service {fuel : Nat} (k : Key) :
    Node.Tracked G p p' C c b (fuel + 1) Γ (some .service) (.service k) (.service k) := by
  intro context scope _
  refine .of_tail ?_
  simp only [Host.evaluate]
  cases context.find? k with
  | none => exact .pure (Regime.owns_serviceNotFound k)
  | some s =>
    refine .pure ?_
    rintro _ ⟨⟩
    rfl

/-- The service that is found is of the type that is asked for, or nothing is promised. -/
theorem lookup {fuel : Nat} (k : Key) :
    Node.Tracked G p p' C c b (fuel + 1) Γ (some (.shared k.type))
      (.bind (.service k) (Effect.resolver k.type))
      (.bind (.service k) (Effect.resolver k.type)) := by
  intro context scope hcontext
  cases fuel with
  | zero =>
    rw [Host.evaluate_bind, Host.evaluate_zero]
    exact .exhausted
  | succ fuel =>
    refine .of_tail (.of_tail ?_)
    simp only [Host.evaluate_bind, Host.evaluate_service]
    cases hfind : context.find? k with
    | none => exact .pure (Regime.owns_serviceNotFound k)
    | some s =>
      have hs := hcontext.find? hfind
      by_cases h : s.type = k.type
      · obtain ⟨_, x⟩ := s
        cases h
        simp only [Machine.onValue_pure_ok, Effect.resolver_mk, Host.call_done, Host.follow]
        refine .pure ?_
        rintro _ ⟨⟩
        rfl
      · simp only [Machine.onValue_pure_ok, Effect.resolver_of_ne h, Host.call_done, Host.follow]
        exact .pure (Regime.owns_defect.mpr fun _ ↦ G.mistyped_raises (hs.resolve_left h))

theorem sleep {fuel : Nat} (d : Duration) :
    Node.Tracked G p p' C c b (fuel + 1) Γ (some .unit) (.sleep d) (.sleep d) := by
  intro context scope _
  refine .of_tail ?_
  simp only [Host.evaluate]
  refine .alter (fun w w' hw ↦ hw.withClock _) (.pure ?_)
  rintro _ ⟨⟩
  rfl

theorem finalizer {fuel : Nat} {release release' : Action S (Plan S)}
    (h : release.Twins G Γ none release') :
    Node.Tracked G p p' C c b (fuel + 1) Γ (some .unit) (.finalizer release)
      (.finalizer release') := by
  intro context scope hcontext
  refine .of_tail ?_
  simp only [Host.evaluate]
  refine .change (R := fun r ↦ ∀ d, r = .error d → G.Owns (.defect d)) (fun w w' hw ↦
    ⟨hw.addFinalizer_eq scope _ _, hw.addFinalizer scope (.release hcontext h), ?_⟩) fun r hr ↦ ?_
  · intro d hd
    -- a closed scope refuses, and with no stray defect
    rw [World.addFinalizer] at hd
    split at hd
    · cases hd
      exact Regime.owns_of_isStray rfl
    · cases hd
  · rcases r with d | ⟨⟩
    · exact .pure (hr d rfl)
    · refine .pure ?_
      rintro _ ⟨⟩
      rfl

section

include hc

theorem pure {fuel : Nat} {make : Action S Value}
    (h : make.Ensures G Γ fun _ v ↦ v.Keeps t) :
    Node.Tracked G p p' C c b (fuel + 1) Γ t (.pure make) (.pure make) := by
  intro context scope _
  refine .of_tail ?_
  simp only [Host.evaluate]
  refine .bind (Host.attempt_tracks hc h) fun Γ' x _ hx ↦ .pure ?_
  rcases x with d | v
  · exact hx.2 d rfl
  · exact hx.1 v rfl

/-- A visit makes a slot of the type of the effect's elements. -/
theorem async {fuel : Nat} {a : Ty} {start : SlotId → Action S Unit}
    (h : ∀ Γ', Γ <+: Γ' → (start ⟨Γ'.length⟩).Proper G (Γ' ++ [a])) :
    Node.Tracked G p p' C c b (fuel + 1) Γ (some a) (.async start) (.async start) := by
  intro context scope _
  refine .of_tail ?_
  simp only [Host.evaluate]
  refine .bind (Tracks.newSlot a) fun Γ' slot hΓ hslot ↦ ?_
  -- the slot is the next one on both sides, so that it is one closure which is started
  obtain ⟨rfl, rfl⟩ := hslot
  have hstart := Host.perform_tracks (h := p.host c) (H := fun i ↦ p'.host (C i)) hc
    (h Γ List.prefix_rfl)
  refine .bind hstart.guard fun Γ'' x hΓ' hx ↦ ?_
  rcases x with d | ⟨⟩
  · exact .pure (hx.2 d rfl)
  · refine .change (R := fun o ↦ ∀ y, o = some y → G.FitsSlot Γ'' ⟨Γ.length⟩ y)
      (fun w w' hw ↦ ⟨?_, hw.takeOutcome _, fun y ↦ hw.fitsSlot⟩) fun o ho ↦ .pure ?_
    · rw [World.takeOutcome, World.takeOutcome, World.slot, World.slot, hw.slots]
    · cases o with
      | none => exact Regime.owns_of_isStray rfl
      | some y => exact Regime.keeps_some.mpr ((ho y rfl).fits hΓ')

end

end Node.Tracked

/-! #### Sub-effects -/

variable {fuel : Nat} (ih : Node.TrackedUpTo G p p' C c b fuel)

namespace Node.Tracked

variable {Γ : List Ty} {s t : Promise} {n n' : Node S} {ι : Type}

section

include ih

theorem evaluateAll {is : List ι} {l r : ι → Node S}
    (hs : ∀ i ∈ is, Plan.Congruent G Γ s (.node (l i)) (.node (r i))) {context : Context}
    (scope : ScopeId) (hcontext : context.Suits G) :
    Tracks G Γ
      (fun i k ↦ Host.evaluateAll ((p'.host (C i)).evaluate b k · context scope) (is.map r))
      (Host.evaluateAll ((p.host c).evaluate b fuel · context scope) (is.map l))
      fun _ o ↦ (∀ vs, o = .ok vs → ∀ v ∈ vs, Value.Keeps s v) ∧ G.OwnsOutcome o := by
  induction is generalizing Γ with
  | nil =>
    refine .pure ⟨?_, nofun⟩
    rintro _ ⟨⟩
    exact nofun
  | cons i is ihs =>
    obtain ⟨hi, his⟩ := List.forall_mem_cons.mp hs
    refine .bind (ih (Nat.le_refl fuel) hi context scope hcontext) fun Γ' o hΓ ho ↦ ?_
    rcases o with cause | v
    · refine .pure ⟨nofun, ?_⟩
      rintro _ ⟨⟩
      exact ho
    · refine .bind (ihs fun j hj ↦ (his j hj).mono hΓ) fun Γ'' o' _ ho' ↦ .pure ?_
      rcases o' with cause | vs
      · refine ⟨nofun, ?_⟩
        rintro _ ⟨⟩
        exact ho'.2 cause rfl
      · refine ⟨?_, nofun⟩
        rintro _ ⟨⟩
        exact List.forall_mem_cons.mpr ⟨ho, ho'.1 vs rfl⟩

theorem evaluateFirst {is : List ι} {l r : ι → Node S}
    (hs : ∀ i ∈ is, Plan.Congruent G Γ t (.node (l i)) (.node (r i)))
    {failures : List (Cause S.Error)} (hfailures : ∀ cause ∈ failures, G.Owns cause)
    {context : Context} (scope : ScopeId) (hcontext : context.Suits G) :
    Tracks G Γ
      (fun i k ↦ Host.evaluateFirst ((p'.host (C i)).evaluate b k · context scope) (is.map r)
        failures)
      (Host.evaluateFirst ((p.host c).evaluate b fuel · context scope) (is.map l) failures)
      fun _ o ↦ G.Keeps t o := by
  induction is generalizing Γ failures with
  | nil => exact .pure (Regime.owns_composite.mpr hfailures)
  | cons i is ihs =>
    obtain ⟨hi, his⟩ := List.forall_mem_cons.mp hs
    refine .bind (ih (Nat.le_refl fuel) hi context scope hcontext) fun Γ' o hΓ ho ↦ ?_
    rcases o with cause | v
    · refine ihs (fun j hj ↦ (his j hj).mono hΓ) fun cause' hcause' ↦ ?_
      rcases List.mem_append.mp hcause' with hmem | hmem
      · exact hfailures cause' hmem
      · rw [List.mem_singleton.mp hmem]
        exact ho
    · exact .pure ho

theorem race {is : List ι} {l r : ι → Node S}
    (hs : ∀ i ∈ is, Plan.Congruent G Γ t (.node (l i)) (.node (r i))) :
    Node.Tracked G p p' C c b (fuel + 1) Γ t (.race (is.map l)) (.race (is.map r)) := by
  intro context scope hcontext
  refine .of_tail ?_
  cases is with
  | nil =>
    simp only [List.map_nil, Host.evaluate]
    exact .pure (Regime.owns_of_isStray rfl)
  | cons i is =>
    simp only [List.map_cons, Host.evaluate, List.length_cons, List.length_map]
    exact .alter (fun w w' hw ↦ hw.withForks _)
      (evaluateFirst b ih hs (List.forall_mem_nil _) scope hcontext)

theorem timeout (hs : Plan.Congruent G Γ t (.node n) (.node n')) (limit : Duration) :
    Node.Tracked G p p' C c b (fuel + 1) Γ t (.timeout n limit) (.timeout n' limit) := by
  intro context scope hcontext
  refine .of_tail ?_
  simp only [Host.evaluate]
  refine .look (R := fun _ ↦ True) (fun w w' hw ↦ ⟨by rw [hw.clock], trivial⟩) fun startedAt _ ↦ ?_
  refine .bind (ih (Nat.le_refl fuel) hs context scope hcontext) fun Γ' o _ ho ↦ ?_
  rcases o with cause | v
  · exact .pure ho
  · refine .look (R := fun _ ↦ True) (fun w w' hw ↦ ⟨by rw [hw.clock], trivial⟩) fun elapsed _ ↦ ?_
    refine .pure ?_
    show G.Keeps t (if limit < elapsed then _ else _)
    split
    · exact Regime.owns_timeout limit
    · exact ho

include hc

theorem provide {layer : Layer S} (hl : layer.Keeps G Γ)
    (hi : Plan.Congruent G Γ t (.node n) (.node n')) :
    Node.Tracked G p p' C c b (fuel + 1) Γ t (.provide layer n) (.provide layer n') := by
  intro context scope hcontext
  refine .of_tail ?_
  simp only [Host.evaluate]
  refine .bind (Host.attempt_tracks hc (hl context hcontext)) fun Γ' x hΓ hx ↦ ?_
  rcases x with d | missing | context'
  · exact .pure (hx.2 d rfl)
  · exact .pure (Regime.owns_serviceNotFound _)
  · exact ih (Nat.le_refl fuel) (hi.mono hΓ) context' scope (hx.1 _ rfl context' rfl)

theorem parallel {collect : List Value → Action S (Except Defect Value)} {is : List ι}
    {l r : ι → Node S} (hs : ∀ i ∈ is, Plan.Congruent G Γ s (.node (l i)) (.node (r i)))
    (hcollect : ∀ vs, (∀ v ∈ vs, Value.Keeps s v) → (collect vs).Ensures G Γ fun _ o ↦
      G.Keeps t (Except.mapError .defect o)) :
    Node.Tracked G p p' C c b (fuel + 1) Γ t (.parallel (is.map l) collect)
      (.parallel (is.map r) collect) := by
  intro context scope hcontext
  refine .of_tail ?_
  simp only [Host.evaluate, List.length_map]
  refine .alter (fun w w' hw ↦ hw.withForks _) ?_
  refine .bind (evaluateAll b ih hs scope hcontext) fun Γ' o hΓ ho ↦ ?_
  rcases o with cause | vs
  · exact .pure (ho.2 cause rfl)
  · refine .bind (Host.attempt_tracks hc ((hcollect vs (ho.1 vs rfl)).mono hΓ)) fun Γ'' x _ hx ↦ ?_
    rcases x with d | d | v
    · exact .pure (hx.2 d rfl)
    · exact .pure (hx.1 _ rfl)
    · exact .pure (hx.1 _ rfl)

/-- Each attempt takes one unit of the fuel of the loop, so the fuel of the source runs ahead by one
more. -/
theorem evaluateRetry {schedule : Schedule S} (hs : Plan.Congruent G Γ t (.node n) (.node n'))
    (hschedule : schedule.Proper G Γ) {context : Context} (scope : ScopeId)
    (hcontext : context.Suits G) (startedAt j a : Nat) (jitter : JitterSource) (attempt : Nat) :
    Tracks G Γ
      (fun i k ↦ (p'.host (C i)).evaluateRetry
        ((p'.host (C i)).evaluate b (k + a) n' context scope) schedule startedAt k jitter attempt)
      ((p.host c).evaluateRetry ((p.host c).evaluate b fuel n context scope) schedule startedAt j
        jitter attempt) fun _ o ↦ G.Keeps t o := by
  induction j generalizing Γ a jitter attempt with
  | zero => exact .exhausted
  | succ j ihj =>
    refine .of_tail ?_
    simp only [Host.evaluateRetry, Nat.add_right_comm _ 1 a, Nat.add_assoc _ a 1]
    refine .bind ((ih (Nat.le_refl fuel) hs context scope hcontext).ahead (a + 1))
      fun Γ' o hΓ ho ↦ ?_
    -- only a bare error consults the schedule
    rcases o with (error | e | key | limit | causes | d) | v
    case error.fail =>
      refine .look (R := fun _ ↦ True) (fun w w' hw ↦ ⟨by rw [hw.clock], trivial⟩)
        fun elapsed _ ↦ ?_
      refine .bind (Host.attempt_tracks hc ((hschedule jitter _).mono hΓ)) fun Γ'' x hΓ' hx ↦ ?_
      rcases x with d | ⟨_ | delay, jitter⟩
      · exact .pure (Regime.Owns.combine (Regime.owns_fail error) (hx.2 d rfl))
      · exact .pure ho
      · refine .alter (fun w w' hw ↦ hw.withClock _) ?_
        exact ihj (hs.mono (hΓ.trans hΓ')) (hschedule.mono (hΓ.trans hΓ')) (a + 1) jitter
          (attempt + 1)
    all_goals exact .pure ho

theorem retry {schedule : Schedule S} (hs : Plan.Congruent G Γ t (.node n) (.node n'))
    (hschedule : schedule.Proper G Γ) :
    Node.Tracked G p p' C c b (fuel + 1) Γ t (.retry n schedule) (.retry n' schedule) := by
  intro context scope hcontext
  refine .of_tail ?_
  simp only [Host.evaluate]
  refine .look (R := fun _ ↦ True) (fun w w' hw ↦ ⟨by rw [hw.clock], trivial⟩) fun startedAt _ ↦ ?_
  exact evaluateRetry hc b ih hs hschedule scope hcontext startedAt fuel 0 schedule.source 0

end

end Node.Tracked

include hp hc ih

/-- Visits of related effects. -/
theorem Plan.Congruent.visit_tracks {Γ : List Ty} {t : Promise} {q q' : Plan S}
    (h : q.Congruent G Γ t q') {f : Nat} (hf : f ≤ fuel) {context : Context} (scope : ScopeId)
    (hcontext : context.Suits G) :
    Tracks G Γ (fun i k ↦ (p'.host (C i)).visit b k context scope q')
      ((p.host c).visit b f context scope q) fun _ o ↦ G.Keeps t o :=
  h.build_tracks hp hc (fun _ ho ↦ ho) fun _ _ _ _ hn ↦ ih hf hn context scope hcontext

namespace Node.Tracked

variable {Γ : List Ty} {s t u : Promise} {n n' : Node S} {ι : Type}

theorem suspend {x : Action S ι} {l r : ι → Plan S}
    (hx : x.Ensures G Γ fun Γ' i ↦ (l i).Congruent G Γ' t (r i)) :
    Node.Tracked G p p' C c b (fuel + 1) Γ t (.suspend (x.bind fun i ↦ .done (l i)))
      (.suspend (x.bind fun i ↦ .done (r i))) := by
  intro context scope hcontext
  refine .of_tail ?_
  simp only [Host.evaluate_suspend, Host.call_bind, Host.call_done]
  exact Host.call_tracks hc hx (fun _ ho ↦ ho) fun Γ' i _ hi ↦
    hi.visit_tracks hp hc b ih (Nat.le_refl fuel) scope hcontext

theorem bind {x : Value → Action S ι} {l r : Value → ι → Step S}
    (hs : Plan.Congruent G Γ s (.node n) (.node n'))
    (hx : ∀ v : Value, v.Keeps s → (x v).Ensures G Γ fun Γ' i ↦ (l v i).Congruent G Γ' t (r v i)) :
    Node.Tracked G p p' C c b (fuel + 1) Γ t (.bind n fun v ↦ (x v).bind fun i ↦ .done (l v i))
      (.bind n' fun v ↦ (x v).bind fun i ↦ .done (r v i)) := by
  intro context scope hcontext
  refine .of_tail ?_
  simp only [Host.evaluate_bind, Host.call_bind, Host.call_done]
  refine (ih (Nat.le_refl fuel) hs context scope hcontext).onValue fun Γ' v hΓ hv ↦ ?_
  refine Host.call_tracks hc ((hx v hv).mono hΓ) (fun _ ho ↦ ho) fun Γ'' i _ hi ↦ ?_
  obtain ⟨hagrees, heffect⟩ := hi
  -- the continuations answer alike, so that three of the nine cases are left
  revert hagrees heffect
  cases l v i <;> cases r v i <;> intro hagrees heffect
  case value.value v v' =>
    obtain ⟨rfl, hv⟩ := hagrees
    exact .pure hv
  case failure.failure cause cause' =>
    obtain ⟨rfl, hcause⟩ := hagrees
    exact .pure hcause
  case effect.effect q q' =>
    exact (heffect q q' rfl rfl).visit_tracks hp hc b ih (Nat.le_refl fuel) scope hcontext
  all_goals exact hagrees.elim

theorem recover {accepts : Cause S.Error → Action S Bool} {x : Cause S.Error → Action S ι}
    {l r : Cause S.Error → ι → Plan S} (hs : Plan.Congruent G Γ t (.node n) (.node n'))
    (haccepts : ∀ c, G.Owns c → (accepts c).Ensures G Γ fun _ _ ↦ True)
    (hx : ∀ c, G.Owns c → (x c).Ensures G Γ fun Γ' i ↦ (l c i).Congruent G Γ' t (r c i)) :
    Node.Tracked G p p' C c b (fuel + 1) Γ t
      (.recover n accepts fun c ↦ (x c).bind fun i ↦ .done (l c i))
      (.recover n' accepts fun c ↦ (x c).bind fun i ↦ .done (r c i)) := by
  intro context scope hcontext
  refine .of_tail ?_
  simp only [Host.evaluate_recover, Host.call_bind, Host.call_done]
  refine .bind (ih (Nat.le_refl fuel) hs context scope hcontext) fun Γ' o hΓ ho ↦ ?_
  rcases o with cause | v
  · refine .bind (Host.attempt_tracks hc ((haccepts cause ho).mono hΓ)) fun Γ'' y hΓ' hy ↦ ?_
    rcases y with d | _ | _
    · exact .pure (Regime.Owns.combine ho (hy.2 d rfl))
    · exact .pure ho
    · exact Host.call_tracks hc ((hx cause ho).mono (hΓ.trans hΓ')) (fun _ ho ↦ ho) fun _ i _ hi ↦
        hi.visit_tracks hp hc b ih (Nat.le_refl fuel) scope hcontext
  · exact .pure ho

theorem region {x : ScopeId → Action S ι} {l r : ScopeId → ι → Plan S}
    (hx : ∀ s, (x s).Ensures G Γ fun Γ' i ↦ (l s i).Congruent G Γ' t (r s i)) :
    Node.Tracked G p p' C c b (fuel + 1) Γ t (.region fun s ↦ (x s).bind fun i ↦ .done (l s i))
      (.region fun s ↦ (x s).bind fun i ↦ .done (r s i)) := by
  intro context scope hcontext
  refine .of_tail ?_
  simp only [Host.evaluate_region, Host.call_bind, Host.call_done]
  refine .inScope hc fun child ↦ ?_
  exact Host.call_tracks hc (hx child) (fun _ ho ↦ ho) fun _ i _ hi ↦
    hi.visit_tracks hp hc b ih (Nat.le_refl fuel) child hcontext

end Node.Tracked

end

end EffectMachine
