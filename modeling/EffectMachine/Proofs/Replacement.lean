import EffectMachine.Proofs.Echoes

/-!
# Replaced parts evaluate alike

If every pair in `L` is a law (`Node.Defers`), evaluating an effect is echoed by evaluating an
effect that is the same up to parts replaced by their partners (`echoedUpTo`).

There is one lemma for each kind of node, on the evaluation with one more unit of fuel, given that
evaluations with less fuel are echoed. A part that is not replaced is related to itself, and is
handled by the same lemmas (`Node.Echoed.self`). A part that is replaced costs one unit of fuel more
on one side, which is where its law comes in (`Node.Echoed.law`, `Node.Echoed.lawSymm`).

The induction is on the fuel of the side that is given. The other side takes the fuel that it needs.
-/

namespace EffectMachine

variable {S : Signature} {α β : Type} {L : Node S → Node S → Prop}

open Machine (Echoes)

/-! ### Node by node -/

/-- Evaluating a node with this much fuel is echoed by evaluating the other one. -/
def Node.Echoed (L : Node S → Node S → Prop) (p p' : Program S) (C : Nat → Closer S) (c : Closer S)
    (b : BudgetId) (fuel : Nat) (n n' : Node S) : Prop :=
  ∀ context scope, Echoes L (fun i k ↦ (p'.host (C i)).evaluate b k n' context scope)
    ((p.host c).evaluate b fuel n context scope)

/-- Related nodes are echoed as long as there is no more fuel than this. -/
def Node.EchoedUpTo (L : Node S → Node S → Prop) (p p' : Program S) (C : Nat → Closer S)
    (c : Closer S) (b : BudgetId) (fuel : Nat) : Prop :=
  ∀ ⦃f⦄ ⦃n n' : Node S⦄, f ≤ fuel → n.Rewrites L n' → n.Echoed L p p' C c b f n'

section

variable {p p' : Program S} {C : Nat → Closer S} {c : Closer S} {b : BudgetId} {fuel : Nat}
  (hp : p.Rewrites L p') (hc : Closer.Echoes L C c) (ih : Node.EchoedUpTo L p p' C c b fuel)

/-- A computation that is called as one closure is echoed by itself, on another host too. -/
theorem Host.attempt_echoes_host (hc : Closer.Echoes L C c) (x : Action S α) :
    Echoes L (fun i _ ↦ (p'.host (C i)).attempt x) ((p.host c).attempt x) :=
  Host.attempt_echoes (h := p.host c) (H := fun i ↦ p'.host (C i)) hc x

include hp hc in
/-- Related effects are built by the same requests, and the nodes that are built are related. -/
theorem Plan.Rewrites.build_echoes {q q' : Plan S} (h : q.Rewrites L q')
    {K : Node S → Nat → Nat → Machine S (Outcome S.Error β)}
    {k : Node S → Machine S (Outcome S.Error β)}
    (hk : ∀ n n', n.Rewrites L n' → Echoes L (K n') (k n)) :
    Echoes L (fun i j ↦ (p'.host (C i)).call (p'.build q') fun n ↦ K n i j)
      ((p.host c).call (p.build q) k) := by
  obtain ⟨d, rfl, rfl⟩ | ⟨n, n', rfl, rfl⟩ := h.named_or_node
  · exact Host.call_echoes (h := p.host c) (H := fun i ↦ p'.host (C i)) hc (hp.effect d) hk
  · exact hk n n' h

include hp hc ih in
/-- Visits of related effects. -/
theorem Plan.Rewrites.visit_echoes {q q' : Plan S} (h : q.Rewrites L q') (context : Context)
    (scope : ScopeId) :
    Echoes L (fun i k ↦ (p'.host (C i)).visit b k context scope q')
      ((p.host c).visit b fuel context scope q) :=
  h.build_echoes hp hc fun _ _ hn ↦ ih (Nat.le_refl fuel) hn context scope

include hp hc ih in
/-- Closures that build related effects, and visits of these. -/
theorem call_visit_echoes {x x' : Action S (Plan S)} (h : x.Paired (Plan.Rewrites L) x')
    (context : Context) (scope : ScopeId) :
    Echoes L (fun i k ↦ (p'.host (C i)).call x' ((p'.host (C i)).visit b k context scope))
      ((p.host c).call x ((p.host c).visit b fuel context scope)) :=
  Host.call_echoes (h := p.host c) (H := fun i ↦ p'.host (C i)) hc h fun _ _ hq ↦
    hq.visit_echoes hp hc ih context scope

namespace Node.Echoed

variable {n n' : Node S} {ns ns' : List (Node S)}

theorem zero (n n' : Node S) : n.Echoed L p p' C c b 0 n' := by
  intro context scope
  rw [Host.evaluate_zero]
  exact .exhausted _

theorem fail (cause : Cause S.Error) :
    Node.Echoed L p p' C c b (fuel + 1) (.fail cause) (.fail cause) := by
  intro context scope
  refine .of_tail ?_
  simp only [Host.evaluate]
  exact .pure _

theorem service (k : Key) : Node.Echoed L p p' C c b (fuel + 1) (.service k) (.service k) := by
  intro context scope
  refine .of_tail ?_
  simp only [Host.evaluate_service]
  cases context.find? k with
  | none => exact .pure _
  | some s => exact .pure _

theorem sleep (d : Duration) : Node.Echoed L p p' C c b (fuel + 1) (.sleep d) (.sleep d) := by
  intro context scope
  refine .of_tail ?_
  simp only [Host.evaluate]
  exact .alter (fun _ _ hw ↦ hw.withClock _) (.pure _)

theorem finalizer {x x' : Action S (Plan S)} (h : x.Paired (Plan.Rewrites L) x') :
    Node.Echoed L p p' C c b (fuel + 1) (.finalizer x) (.finalizer x') := by
  intro context scope
  refine .of_tail ?_
  simp only [Host.evaluate]
  refine .change (fun _ _ hw ↦ hw.addFinalizer scope (.release context b h)) fun r ↦ ?_
  rcases r with d | ⟨⟩
  · exact .pure _
  · exact .pure _

section

include hc

theorem pure (make : Action S Value) :
    Node.Echoed L p p' C c b (fuel + 1) (.pure make) (.pure make) := by
  intro context scope
  refine .of_tail ?_
  simp only [Host.evaluate]
  exact .bind (Host.attempt_echoes_host hc make) fun _ ↦ .pure _

theorem async (start : SlotId → Action S Unit) :
    Node.Echoed L p p' C c b (fuel + 1) (.async start) (.async start) := by
  intro context scope
  refine .of_tail ?_
  simp only [Host.evaluate]
  refine .change (fun _ _ hw ↦ hw.newSlot) fun slot ↦ ?_
  refine .bind (Host.attempt_echoes_host hc (start slot)) fun r ↦ ?_
  rcases r with d | ⟨⟩
  · exact .pure _
  · exact .change (fun _ _ hw ↦ hw.takeOutcome slot) fun _ ↦ .pure _

end

section

include ih

theorem timeout (h : n.Rewrites L n') (limit : Duration) :
    Node.Echoed L p p' C c b (fuel + 1) (.timeout n limit) (.timeout n' limit) := by
  intro context scope
  refine .of_tail ?_
  simp only [Host.evaluate]
  refine .look (fun _ _ hw ↦ by rw [hw.clock]) fun startedAt ↦ ?_
  refine .bind (ih (Nat.le_refl fuel) h context scope) fun o ↦ ?_
  cases o with
  | error cause => exact .pure _
  | ok v => exact .look (fun _ _ hw ↦ by rw [hw.clock]) fun elapsed ↦ .pure _

theorem evaluateAll (h : List.Forall₂ (Node.Rewrites L) ns ns') (context : Context)
    (scope : ScopeId) :
    Echoes L (fun i k ↦ Host.evaluateAll ((p'.host (C i)).evaluate b k · context scope) ns')
      (Host.evaluateAll ((p.host c).evaluate b fuel · context scope) ns) := by
  induction h with
  | nil => exact .pure _
  | cons hn _ ihs =>
    refine .bind (ih (Nat.le_refl fuel) hn context scope) fun o ↦ ?_
    cases o with
    | error cause => exact .pure _
    | ok v => exact .bind ihs fun _ ↦ .pure _

theorem evaluateFirst (h : List.Forall₂ (Node.Rewrites L) ns ns') (failures : List (Cause S.Error))
    (context : Context) (scope : ScopeId) :
    Echoes L
      (fun i k ↦ Host.evaluateFirst ((p'.host (C i)).evaluate b k · context scope) ns' failures)
      (Host.evaluateFirst ((p.host c).evaluate b fuel · context scope) ns failures) := by
  induction h generalizing failures with
  | nil => exact .pure _
  | cons hn _ ihs =>
    refine .bind (ih (Nat.le_refl fuel) hn context scope) fun o ↦ ?_
    cases o with
    | error cause => exact ihs (failures ++ [cause])
    | ok v => exact .pure _

theorem race (h : List.Forall₂ (Node.Rewrites L) ns ns') :
    Node.Echoed L p p' C c b (fuel + 1) (.race ns) (.race ns') := by
  intro context scope
  refine .of_tail ?_
  cases h with
  | nil =>
    simp only [Host.evaluate]
    exact .pure _
  | @cons n n' ns ns' hn hns =>
    simp only [Host.evaluate, List.length_cons, hns.length_eq]
    exact .alter (fun _ _ hw ↦ hw.withForks _) (evaluateFirst ih (.cons hn hns) [] context scope)

include hc

theorem parallel (collect : List Value → Action S (Except Defect Value))
    (h : List.Forall₂ (Node.Rewrites L) ns ns') :
    Node.Echoed L p p' C c b (fuel + 1) (.parallel ns collect) (.parallel ns' collect) := by
  intro context scope
  refine .of_tail ?_
  simp only [Host.evaluate, h.length_eq]
  refine .alter (fun _ _ hw ↦ hw.withForks _) ?_
  refine .bind (evaluateAll ih h context scope) fun o ↦ ?_
  cases o with
  | error cause => exact .pure _
  | ok vs =>
    refine .bind (Host.attempt_echoes_host hc (collect vs)) fun r ↦ ?_
    rcases r with d | d | v
    · exact .pure _
    · exact .pure _
    · exact .pure _

theorem provide (layer : Layer S) (h : n.Rewrites L n') :
    Node.Echoed L p p' C c b (fuel + 1) (.provide layer n) (.provide layer n') := by
  intro context scope
  refine .of_tail ?_
  simp only [Host.evaluate]
  refine .bind (Host.attempt_echoes_host hc (layer.build context)) fun r ↦ ?_
  rcases r with d | missing | context'
  · exact .pure _
  · exact .pure _
  · exact ih (Nat.le_refl fuel) h context' scope

/-- Each attempt takes one unit of the fuel of the loop, so the fuel of the source runs ahead by one
more. -/
theorem evaluateRetry (schedule : Schedule S) (h : n.Rewrites L n') (context : Context)
    (scope : ScopeId) (startedAt j a : Nat) (jitter : JitterSource) (attempt : Nat) :
    Echoes L
      (fun i k ↦ (p'.host (C i)).evaluateRetry
        ((p'.host (C i)).evaluate b (k + a) n' context scope) schedule startedAt k jitter attempt)
      ((p.host c).evaluateRetry ((p.host c).evaluate b fuel n context scope) schedule startedAt j
        jitter attempt) := by
  induction j generalizing a jitter attempt with
  | zero => exact .exhausted _
  | succ j ihj =>
    refine .of_tail ?_
    simp only [Host.evaluateRetry, Nat.add_right_comm _ 1 a, Nat.add_assoc _ a 1]
    refine .bind ((ih (Nat.le_refl fuel) h context scope).ahead (a + 1)) fun o ↦ ?_
    -- only a bare error consults the schedule
    rcases o with (error | e | key | limit | causes | d) | v
    case error.fail =>
      refine .look (fun _ _ hw ↦ by rw [hw.clock]) fun elapsed ↦ ?_
      refine .bind (Host.attempt_echoes_host hc _) fun r ↦ ?_
      rcases r with d | ⟨_ | delay, jitter⟩
      · exact .pure _
      · exact .pure _
      · exact .alter (fun _ _ hw ↦ hw.withClock _) (ihj (a + 1) jitter (attempt + 1))
    all_goals exact .pure _

theorem retry (schedule : Schedule S) (h : n.Rewrites L n') :
    Node.Echoed L p p' C c b (fuel + 1) (.retry n schedule) (.retry n' schedule) := by
  intro context scope
  refine .of_tail ?_
  simp only [Host.evaluate]
  refine .look (fun _ _ hw ↦ by rw [hw.clock]) fun startedAt ↦ ?_
  exact evaluateRetry hc ih schedule h context scope startedAt fuel 0 schedule.source 0

end

include hp hc ih

theorem suspend {x x' : Action S (Plan S)} (h : x.Paired (Plan.Rewrites L) x') :
    Node.Echoed L p p' C c b (fuel + 1) (.suspend x) (.suspend x') := by
  intro context scope
  refine .of_tail ?_
  simp only [Host.evaluate_suspend]
  exact call_visit_echoes hp hc ih h context scope

theorem bind {x x' : Value → Action S (Step S)} (hs : n.Rewrites L n')
    (h : ∀ v, (x v).Paired (Step.Rewrites L) (x' v)) :
    Node.Echoed L p p' C c b (fuel + 1) (.bind n x) (.bind n' x') := by
  intro context scope
  refine .of_tail ?_
  simp only [Host.evaluate_bind]
  refine (ih (Nat.le_refl fuel) hs context scope).onValue fun v ↦ ?_
  refine Host.call_echoes (h := p.host c) (H := fun i ↦ p'.host (C i)) hc (h v) fun s s' hr ↦ ?_
  obtain ⟨halike, heffect⟩ := hr
  -- the continuations answer alike, so that three of the nine cases are left
  cases s <;> cases s'
  case value.value =>
    obtain rfl := halike
    exact .pure _
  case failure.failure =>
    obtain rfl := halike
    exact .pure _
  case effect.effect q q' =>
    exact (heffect q q' rfl rfl).visit_echoes hp hc ih context scope
  all_goals exact halike.elim

theorem recover (accepts : Cause S.Error → Action S Bool) {x x' : Cause S.Error → Action S (Plan S)}
    (hs : n.Rewrites L n') (h : ∀ cause, (x cause).Paired (Plan.Rewrites L) (x' cause)) :
    Node.Echoed L p p' C c b (fuel + 1) (.recover n accepts x) (.recover n' accepts x') := by
  intro context scope
  refine .of_tail ?_
  simp only [Host.evaluate_recover]
  refine .bind (ih (Nat.le_refl fuel) hs context scope) fun o ↦ ?_
  cases o with
  | ok v => exact .pure _
  | error cause =>
    refine .bind (Host.attempt_echoes_host hc (accepts cause)) fun r ↦ ?_
    rcases r with d | _ | _
    · exact .pure _
    · exact .pure _
    · exact call_visit_echoes hp hc ih (h cause) context scope

theorem region {x x' : ScopeId → Action S (Plan S)}
    (h : ∀ s, (x s).Paired (Plan.Rewrites L) (x' s)) :
    Node.Echoed L p p' C c b (fuel + 1) (.region x) (.region x') := by
  intro context scope
  refine .of_tail ?_
  simp only [Host.evaluate_region]
  exact .inScope hc fun child ↦ call_visit_echoes hp hc ih (h child) context child

/-- A node is echoed by itself. -/
theorem self (n : Node S) : n.Echoed L p p' C c b (fuel + 1) n := by
  have hplans : ∀ x : Action S (Plan S), x.Paired (Plan.Rewrites L) x := .refl .refl
  have hnodes : ∀ ns : List (Node S), List.Forall₂ (Node.Rewrites L) ns ns :=
    fun ns ↦ List.forall₂_same.mpr fun _ _ ↦ .refl _
  cases n with
  | pure make => exact .pure hc make
  | fail cause => exact .fail cause
  | suspend x => exact .suspend hp hc ih (hplans x)
  | bind n x => exact .bind hp hc ih (.refl _) fun v ↦ .refl .refl (x v)
  | service k => exact .service k
  | provide layer n => exact .provide hc ih layer (.refl _)
  | sleep d => exact .sleep d
  | async start => exact .async hc start
  | recover n accepts x => exact .recover hp hc ih accepts (.refl _) fun cause ↦ hplans (x cause)
  | parallel ns collect => exact .parallel hc ih collect (hnodes ns)
  | race ns => exact .race ih (hnodes ns)
  | retry n schedule => exact .retry hc ih schedule (.refl _)
  | region x => exact .region hp hc ih fun s ↦ hplans (x s)
  | finalizer x => exact .finalizer (hplans x)
  | timeout n limit => exact .timeout ih (.refl _) limit

/-- A part is replaced by one that is evaluated with less fuel. -/
theorem law (h : n.Defers n') : n.Echoed L p p' C c b (fuel + 1) n' := by
  intro context scope
  cases fuel with
  | zero =>
    intro w w' x w₁ hw heq hx
    have hself := self hp hc ih n' context scope
    exact hself hw (h.first (p.host c) b context scope heq hx) hx
  | succ f =>
    rw [h.next]
    exact ih (Nat.le_refl _) (.refl _) context scope

/-- A part is replaced by one that is evaluated with more fuel. -/
theorem lawSymm (h : n.Defers n') : n'.Echoed L p p' C c b (fuel + 1) n := by
  intro context scope
  refine .of_tail (.of_tail ?_)
  simp only [Nat.add_assoc, h.next]
  exact (self hp hc ih n' context scope).ahead 1

end Node.Echoed

/-- Lists made from the same indices by related functions are related. -/
theorem Node.rewrites_map {ι : Type} {l r : ι → Node S} (is : List ι)
    (h : ∀ i, (l i).Rewrites L (r i)) :
    List.Forall₂ (Node.Rewrites L) (is.map l) (is.map r) := by
  rw [List.forall₂_map_left_iff, List.forall₂_map_right_iff]
  exact List.forall₂_same.mpr fun i _ ↦ h i

include hp hc ih in
/-- Related nodes are echoed with one more unit of fuel. -/
theorem Node.Rewrites.echoed (hL : ∀ n n', L n n' → n.Defers n') {n n' : Node S}
    (h : n.Rewrites L n') : n.Echoed L p p' C c b (fuel + 1) n' := by
  cases h with
  | refl => exact .self hp hc ih n
  | law h => exact .law hp hc ih (hL n n' h)
  | lawSymm h => exact .lawSymm hp hc ih (hL n' n h)
  | suspend h => exact .suspend hp hc ih ⟨_, _, _, _, rfl, rfl, h⟩
  | bind hs halike h =>
    exact .bind hp hc ih hs fun v ↦ ⟨_, _, _, _, rfl, rfl, fun i ↦ ⟨halike v i, h v i⟩⟩
  | provide layer h => exact .provide hc ih layer h
  | recover accepts hs h =>
    exact .recover hp hc ih accepts hs fun cause ↦ ⟨_, _, _, _, rfl, rfl, h cause⟩
  | @parallel ι is l r collect h => exact .parallel hc ih collect (Node.rewrites_map is h)
  | @race ι is l r h => exact .race ih (Node.rewrites_map is h)
  | retry schedule h => exact .retry hc ih schedule h
  | region h => exact .region hp hc ih fun s ↦ ⟨_, _, _, _, rfl, rfl, h s⟩
  | finalizer h => exact .finalizer ⟨_, _, _, _, rfl, rfl, h⟩
  | timeout limit h => exact .timeout ih h limit

end

/-- Evaluation of related nodes is echoed, however much fuel there is. -/
theorem echoedUpTo (hL : ∀ n n', L n n' → n.Defers n') {p p' : Program S} {C : Nat → Closer S}
    {c : Closer S} (hp : p.Rewrites L p') (hc : Closer.Echoes L C c) (b : BudgetId) (fuel : Nat) :
    Node.EchoedUpTo L p p' C c b fuel := by
  -- up to some fuel, and not with that much: a loop spends several units on one turn
  induction fuel with
  | zero =>
    intro f n n' hf _
    obtain rfl := Nat.le_zero.mp hf
    exact .zero n n'
  | succ fuel ih =>
    intro f n n' hf h
    rcases Nat.le_or_eq_of_le_succ hf with hle | rfl
    · exact ih hle h
    · exact h.echoed hp hc ih hL

end EffectMachine
