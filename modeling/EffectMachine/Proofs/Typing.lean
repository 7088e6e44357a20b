import EffectMachine.Effect.Recovery
import EffectMachine.Effect.Resource
import EffectMachine.Proofs.Contexts
import EffectMachine.Proofs.Regimes

/-!
# Typed effects

`Plan.Typed` is a typing judgement for effects: every value that the effect yields is of a type, and
its closures keep to a `Regime`. There is one rule for each kind of node and one for effects that
are referred to by name. Two rules are not about a node alone: a continuation is one that receives
elements of the source's type (`Effect.receive`), and the lookup of a service occurs only under the
continuation that resolves it.

**No rule lets an effect change its type**, and none is about an arbitrary continuation or
collector: an effect has a type because a typed combinator built it. That every typed combinator
keeps to the judgement is the second half of this file, one lemma for each.

Closures run later than they are written, when more slots may have been made. A rule therefore asks
for what a closure does with any further slots (`Action.Ensures`), and what has a type keeps it
(`Plan.Typed.mono`).
-/

namespace EffectMachine

variable {S : Signature} {α β : Type}

/-! ### Closures that ensure something -/

/-- With these slots, or with more, a closure is proper and ends as said. -/
def Action.Ensures (G : Regime S) (Γ : List Ty) (x : Action S α) (Q : List Ty → α → Prop) : Prop :=
  ∀ Γ', Γ <+: Γ' → x.Proper G Γ' ∧ ∀ Γ'' a, x.Reaches G Γ' Γ'' a → Q Γ'' a

namespace Action.Ensures

variable {G : Regime S} {Γ Γ' : List Ty} {x : Action S α} {f : α → Action S β}
  {Q Q' : List Ty → α → Prop} {P : List Ty → β → Prop}

theorem mono (h : x.Ensures G Γ Q) (hΓ : Γ <+: Γ') : x.Ensures G Γ' Q :=
  fun Γ₁ h₁ ↦ h Γ₁ (hΓ.trans h₁)

theorem proper (h : x.Ensures G Γ Q) (hΓ : Γ <+: Γ') : x.Proper G Γ' := (h Γ' hΓ).1

theorem reaches (h : x.Ensures G Γ Q) (hΓ : Γ <+: Γ') {Γ'' : List Ty} {a : α}
    (ha : x.Reaches G Γ' Γ'' a) : Q Γ'' a :=
  (h Γ' hΓ).2 Γ'' a ha

theorem done {a : α} (h : ∀ Γ', Γ <+: Γ' → Q Γ' a) :
    (Action.done a : Action S α).Ensures G Γ Q := by
  intro Γ' hΓ
  refine ⟨trivial, ?_⟩
  rintro _ _ ⟨rfl, rfl⟩
  exact h _ hΓ

theorem panic {p : Panic} : (Action.panic p : Action S α).Ensures G Γ Q :=
  fun _ _ ↦ ⟨trivial, fun _ _ h ↦ h.elim⟩

theorem post (h : x.Ensures G Γ Q) (hQ : ∀ Γ' a, Γ <+: Γ' → Q Γ' a → Q' Γ' a) :
    x.Ensures G Γ Q' := by
  intro Γ' hΓ
  obtain ⟨hp, hr⟩ := h Γ' hΓ
  exact ⟨hp, fun Γ'' a ha ↦ hQ Γ'' a (hΓ.trans ha.extends) (hr Γ'' a ha)⟩

theorem bind (h : x.Ensures G Γ Q) (hf : ∀ Γ' a, Γ <+: Γ' → Q Γ' a → (f a).Ensures G Γ' P) :
    (x.bind f).Ensures G Γ P := by
  intro Γ₁ hΓ
  obtain ⟨hp, hr⟩ := h Γ₁ hΓ
  have hnext : ∀ Γ' a, x.Reaches G Γ₁ Γ' a → (f a).Ensures G Γ' P := fun Γ' a ha ↦
    hf Γ' a (hΓ.trans ha.extends) (hr Γ' a ha)
  refine ⟨hp.bind fun Γ' a ha ↦ (hnext Γ' a ha).proper List.prefix_rfl, fun Γ'' b hb ↦ ?_⟩
  obtain ⟨Γ', a, ha, hb⟩ := Action.reaches_bind.mp hb
  exact (hnext Γ' a ha).reaches List.prefix_rfl hb

theorem intro (h : ∀ Γ', Γ <+: Γ' → x.Proper G Γ')
    (hQ : ∀ Γ' Γ'' a, Γ <+: Γ' → x.Reaches G Γ' Γ'' a → Q Γ'' a) : x.Ensures G Γ Q :=
  fun Γ' hΓ ↦ ⟨h Γ' hΓ, fun Γ'' a ↦ hQ Γ' Γ'' a hΓ⟩

/-- A closure that only asks for what it may. -/
theorem of_proper (h : ∀ Γ', Γ <+: Γ' → x.Proper G Γ') : x.Ensures G Γ fun _ _ ↦ True :=
  fun Γ' hΓ ↦ ⟨h Γ' hΓ, fun _ _ _ ↦ trivial⟩

end Action.Ensures

/-! ### Contexts and layers -/

/-- Every instance is of its key's type. -/
def Context.Typed (c : Context) : Prop := ∀ e ∈ c.entries, e.2.type = e.1.type

/-- Every instance is of its key's type, but for keys that may be bound to another one. -/
def Context.Suits (G : Regime S) (c : Context) : Prop :=
  ∀ e ∈ c.entries, e.2.type = e.1.type ∨ G.mistyped e.1.type

namespace Context

variable {G : Regime S} {c c' : Context} {k : Key}

theorem Typed.suits (h : c.Typed) : c.Suits G := fun e he ↦ .inl (h e he)

/-- Where any key may be bound to anything, every context suits. -/
theorem suits_of_mistyped (hG : ∀ p, G.mistyped p) (c : Context) : c.Suits G :=
  fun e _ ↦ .inr (hG e.1.type)

theorem suits_empty : Context.empty.Suits G := nofun

/-- What is found under a key is of its type, unless that may be bound to another one. -/
theorem Suits.find? (h : c.Suits G) {s : Service} (hs : c.find? k = some s) :
    s.type = k.type ∨ G.mistyped k.type :=
  (forall_entries_iff fun k s ↦ s.type = k.type ∨ G.mistyped k.type).mp h k s hs

theorem Suits.bind (h : c.Suits G) (x : k.type.El) : (c.bind k x).Suits G :=
  forall_entries_insert (fun k s ↦ s.type = k.type ∨ G.mistyped k.type) h (.inl rfl)

theorem Suits.merge (h : c.Suits G) (h' : c'.Suits G) : (c.merge c').Suits G :=
  forall_entries_merge (fun k s ↦ s.type = k.type ∨ G.mistyped k.type) h h'

end Context

/-- From contexts that suit the layer builds contexts that do. -/
def Layer.Keeps (G : Regime S) (Γ : List Ty) (l : Layer S) : Prop :=
  ∀ c : Context, c.Suits G → (l.build c).Ensures G Γ fun _ r ↦ ∀ c', r = .ok c' → c'.Suits G

namespace Layer

variable {G : Regime S} {Γ Γ' : List Ty} {l l' : Layer S} {k : Key}

theorem Keeps.mono (h : l.Keeps G Γ) (hΓ : Γ <+: Γ') : l.Keeps G Γ' := fun c hc ↦ (h c hc).mono hΓ

theorem keeps_empty : (Layer.empty : Layer S).Keeps G Γ := by
  refine fun c hc ↦ .done fun _ _ ↦ ?_
  rintro _ ⟨⟩
  exact hc

theorem keeps_ofValue (x : k.type.El) : (Layer.ofValue k x : Layer S).Keeps G Γ := by
  refine fun c hc ↦ .done fun _ _ ↦ ?_
  rintro _ ⟨⟩
  exact hc.bind x

theorem keeps_ofFactory {make : Context → Action S (Except MissingService k.type.El)}
    (h : ∀ c : Context, c.Suits G → (make c).Ensures G Γ fun _ _ ↦ True) :
    (Layer.ofFactory k make).Keeps G Γ := by
  refine fun c hc ↦ .bind (h c hc) fun _ r _ _ ↦ .done fun _ _ ↦ ?_
  intro c' hc'
  cases r with
  | error m => cases hc'
  | ok x =>
    cases hc'
    exact hc.bind x

theorem Keeps.andThen (h : l.Keeps G Γ) (h' : l'.Keeps G Γ) : (l.andThen l').Keeps G Γ := by
  refine fun c hc ↦ .bind (h c hc) fun Γ' r hΓ hr ↦ ?_
  cases r with
  | error m => exact .done fun _ _ ↦ nofun
  | ok built => exact (h' built (hr built rfl)).mono hΓ

theorem Keeps.after (h : l.Keeps G Γ) (h' : l'.Keeps G Γ) : (l.after l').Keeps G Γ := h'.andThen h

theorem Keeps.beside (h : l.Keeps G Γ) (h' : l'.Keeps G Γ) : (l.beside l').Keeps G Γ := by
  refine fun c hc ↦ .bind (h c hc) fun Γ' r hΓ hr ↦ ?_
  cases r with
  | error m => exact .done fun _ _ ↦ nofun
  | ok left =>
    refine .bind ((h' c hc).mono hΓ) fun Γ'' r' _ hr' ↦ ?_
    cases r' with
    | error m => exact .done fun _ _ ↦ nofun
    | ok right =>
      refine .done fun _ _ ↦ ?_
      rintro _ ⟨⟩
      exact (hr left rfl).merge (hr' right rfl)

end Layer

/-! ### Schedules -/

/-- Drawing a sample to perturb a delay. -/
theorem Jitter.apply_ensures {G : Regime S} {Γ : List Ty} (j : Jitter) (source : JitterSource)
    (delay : Duration) : (j.apply source delay : Action S _).Ensures G Γ fun _ _ ↦ True := by
  cases source with
  | seeded => exact .done fun _ _ ↦ trivial
  | shared => exact fun _ _ ↦ ⟨fun _ ↦ trivial, fun _ _ _ ↦ trivial⟩

/-- The predicates of a schedule keep to the regime. -/
def Schedule.Proper (G : Regime S) (Γ : List Ty) (s : Schedule S) : Prop :=
  ∀ jitter f, (s.decideFrom jitter f).Ensures G Γ fun _ _ ↦ True

namespace Schedule

variable {G : Regime S} {Γ Γ' : List Ty} {s : Schedule S}

theorem Proper.mono (h : s.Proper G Γ) (hΓ : Γ <+: Γ') : s.Proper G Γ' :=
  fun jitter f ↦ (h jitter f).mono hΓ

/-- A schedule keeps to the regime if each of its predicates does. -/
theorem proper_of_rules (h : ∀ accepts, Rule.onError accepts ∈ s.rules → ∀ e,
    (accepts e).Ensures G Γ fun _ _ ↦ True) : s.Proper G Γ := by
  -- the scan goes on with ever fewer rules, all of them rules of the schedule
  have hconsult : ∀ (f : Failed S.Error) (rs : List (Rule S)) (Γ' : List Ty) (d : Option Duration),
      Γ <+: Γ' → (∀ r ∈ rs, r ∈ s.rules) → (consult f rs d).Ensures G Γ' fun _ _ ↦ True := by
    intro f rs
    induction rs with
    | nil => exact fun _ _ _ _ ↦ .done fun _ _ ↦ trivial
    | cons r rs ih =>
      intro Γ' d hΓ hrs
      obtain ⟨hr, hrest⟩ := List.forall_mem_cons.mp hrs
      have hverdict : (r.verdict f).Ensures G Γ' fun _ _ ↦ True := by
        cases r with
        | backoff | within => exact .done fun _ _ ↦ trivial
        | onError accepts =>
          exact .bind ((h accepts hr _).mono hΓ) fun _ _ _ _ ↦ .done fun _ _ ↦ trivial
      refine .bind hverdict fun Γ'' v hΓ' _ ↦ ?_
      cases v with
      | stop => exact .done fun _ _ ↦ trivial
      | pass | delay => exact ih Γ'' _ (hΓ.trans hΓ') hrest
  intro jitter f
  rw [decideFrom]
  split
  · exact .done fun _ _ ↦ trivial
  · refine .bind (hconsult f s.rules Γ none List.prefix_rfl fun _ ↦ id) fun _ r _ _ ↦ ?_
    cases r with
    | none => exact .done fun _ _ ↦ trivial
    | some delay =>
      dsimp only
      split
      · exact .done fun _ _ ↦ trivial
      · exact .bind (Jitter.apply_ensures _ _ _) fun _ _ _ _ ↦ .done fun _ _ ↦ trivial

end Schedule

/-! ### The judgement -/

/-- How the values of a parallel effect are collected. -/
def Effect.collector (a : Ty) (vs : List Value) : Action S (Except Defect Value) :=
  .done ((castAll a vs).map fun xs ↦ ⟨.list a, xs⟩)

/-- How a service handle is resolved. -/
def Effect.resolver (p : Plain) (v : Value) : Action S (Step S) := .done (resolve p v)

namespace Effect

variable {a : Ty}

/-- A continuation receives what it expects. -/
theorem receive_mk (x : a.El) (k : a.El → Action S (Step S)) : receive a k ⟨a, x⟩ = k x := by
  rw [receive, Value.cast?_mk]

/-- A service of the kind that is asked for is shared as it is. -/
theorem resolver_mk {p : Plain} (x : p.El) :
    (resolver p ⟨.service, ⟨p, x⟩⟩ : Action S (Step S)) = .done (.value ⟨.shared p, x⟩) := by
  simp only [resolver, resolve, Value.cast?_mk, Service.cast?_mk]

/-- A service of another kind is a defect. -/
theorem resolver_of_ne {p : Plain} {s : Service} (h : s.type ≠ p) :
    (resolver p ⟨.service, s⟩ : Action S (Step S)) =
      .done (.failure (.defect (.typeMismatch p.name))) := by
  have hnone : Service.cast? p s = none := by rw [Service.cast?, dif_neg h]
  simp only [resolver, resolve, Value.cast?_mk, hnone]

/-- Collecting values of one type makes a list. -/
theorem castAll_ok {vs : List Value} (h : ∀ v ∈ vs, v.type = a) :
    ∃ xs, castAll a vs = .ok xs := by
  induction vs with
  | nil => exact ⟨[], rfl⟩
  | cons v vs ih =>
    obtain ⟨hv, hvs⟩ := List.forall_mem_cons.mp h
    obtain ⟨xs, hxs⟩ := ih hvs
    obtain ⟨t, x⟩ := v
    cases hv
    exact ⟨x :: xs, by rw [castAll, Value.cast?_mk, hxs]; rfl⟩

end Effect

/-- The values of an effect are of a type, and its closures keep to a regime. -/
inductive Plan.Typed (G : Regime S) : List Ty → Ty → Plan S → Prop where
  | named {Γ a d} (h : G.name Γ d a) : Typed G Γ a (.named d)
  | pure {Γ a make}
      (hproper : ∀ Γ', Γ <+: Γ' → Action.Proper G Γ' make)
      (hvalue : ∀ Γ' Γ'' v, Γ <+: Γ' → make.Reaches G Γ' Γ'' v → v.type = a) :
      Typed G Γ a (.node (.pure make))
  | fail {Γ a c} (h : G.Owns c) : Typed G Γ a (.node (.fail c))
  | suspend {Γ a thunk}
      (hproper : ∀ Γ', Γ <+: Γ' → Action.Proper G Γ' thunk)
      (heffect : ∀ Γ' Γ'' p, Γ <+: Γ' → thunk.Reaches G Γ' Γ'' p → Typed G Γ'' a p) :
      Typed G Γ a (.node (.suspend thunk))
  | andThen {Γ a b source} {k : a.El → Action S (Step S)} (hs : Typed G Γ a (.node source))
      (hproper : ∀ Γ' x, Γ <+: Γ' → (k x).Proper G Γ')
      (hvalue : ∀ Γ' Γ'' x v, Γ <+: Γ' → (k x).Reaches G Γ' Γ'' (.value v) → v.type = b)
      (heffect : ∀ Γ' Γ'' x p, Γ <+: Γ' → (k x).Reaches G Γ' Γ'' (.effect p) → Typed G Γ'' b p)
      (hfailure : ∀ Γ' Γ'' x c, Γ <+: Γ' → (k x).Reaches G Γ' Γ'' (.failure c) → G.Owns c) :
      Typed G Γ b (.node (.bind source (Effect.receive a k)))
  | service {Γ} (k : Key) :
      Typed G Γ (.shared k.type) (.node (.bind (.service k) (Effect.resolver k.type)))
  | provide {Γ a l inner} (hl : Layer.Keeps G Γ l) (hi : Typed G Γ a (.node inner)) :
      Typed G Γ a (.node (.provide l inner))
  | sleep {Γ} (d : Duration) : Typed G Γ .unit (.node (.sleep d))
  /-- A visit makes the next slot, and the registration may count on it. -/
  | async {Γ a start}
      (hproper : ∀ Γ', Γ <+: Γ' → (start ⟨Γ'.length⟩).Proper G (Γ' ++ [a])) :
      Typed G Γ a (.node (.async start))
  | recover {Γ a source} {accepts : Cause S.Error → Action S Bool}
      {handler : Cause S.Error → Action S (Plan S)} (hs : Typed G Γ a (.node source))
      (haccepts : ∀ Γ' c, Γ <+: Γ' → G.Owns c → (accepts c).Proper G Γ')
      (hproper : ∀ Γ' c, Γ <+: Γ' → G.Owns c → (handler c).Proper G Γ')
      (heffect : ∀ Γ' Γ'' c p, Γ <+: Γ' → G.Owns c → (handler c).Reaches G Γ' Γ'' p →
        Typed G Γ'' a p) :
      Typed G Γ a (.node (.recover source accepts handler))
  | all {Γ a ns} (hs : ∀ n ∈ ns, Typed G Γ a (.node n)) :
      Typed G Γ (.list a) (.node (.parallel ns (Effect.collector a)))
  | race {Γ a ns} (hs : ∀ n ∈ ns, Typed G Γ a (.node n)) : Typed G Γ a (.node (.race ns))
  | retry {Γ a source schedule} (hs : Typed G Γ a (.node source))
      (hschedule : Schedule.Proper G Γ schedule) : Typed G Γ a (.node (.retry source schedule))
  | region {Γ a body}
      (hproper : ∀ Γ' s, Γ <+: Γ' → Action.Proper G Γ' (body s))
      (heffect : ∀ Γ' Γ'' s p, Γ <+: Γ' → (body s).Reaches G Γ' Γ'' p → Typed G Γ'' a p) :
      Typed G Γ a (.node (.region body))
  | finalizer {Γ release}
      (hproper : ∀ Γ', Γ <+: Γ' → Action.Proper G Γ' release)
      (heffect : ∀ Γ' Γ'' p, Γ <+: Γ' → release.Reaches G Γ' Γ'' p → Typed G Γ'' .unit p) :
      Typed G Γ .unit (.node (.finalizer release))
  | timeout {Γ a source} (hs : Typed G Γ a (.node source)) (limit : Duration) :
      Typed G Γ a (.node (.timeout source limit))

/-- What has a type keeps it when further slots are made. -/
theorem Plan.Typed.mono {G : Regime S} {Γ Γ' : List Ty} {a : Ty} {p : Plan S}
    (h : p.Typed G Γ a) (hΓ : Γ <+: Γ') : p.Typed G Γ' a := by
  induction h generalizing Γ' with
  | named h => exact .named (G.name_mono hΓ h)
  | pure hp hv =>
    exact .pure (fun Γ₁ h₁ ↦ hp Γ₁ (hΓ.trans h₁)) fun Γ₁ Γ₂ v h₁ ↦ hv Γ₁ Γ₂ v (hΓ.trans h₁)
  | fail h => exact .fail h
  | suspend hp he =>
    exact .suspend (fun Γ₁ h₁ ↦ hp Γ₁ (hΓ.trans h₁)) fun Γ₁ Γ₂ p h₁ ↦ he Γ₁ Γ₂ p (hΓ.trans h₁)
  | andThen _ hp hv he hf ih =>
    exact .andThen (ih hΓ) (fun Γ₁ x h₁ ↦ hp Γ₁ x (hΓ.trans h₁))
      (fun Γ₁ Γ₂ x v h₁ ↦ hv Γ₁ Γ₂ x v (hΓ.trans h₁))
      (fun Γ₁ Γ₂ x p h₁ ↦ he Γ₁ Γ₂ x p (hΓ.trans h₁))
      fun Γ₁ Γ₂ x c h₁ ↦ hf Γ₁ Γ₂ x c (hΓ.trans h₁)
  | service k => exact .service k
  | provide hl _ ih => exact .provide (hl.mono hΓ) (ih hΓ)
  | sleep d => exact .sleep d
  | async hp => exact .async fun Γ₁ h₁ ↦ hp Γ₁ (hΓ.trans h₁)
  | recover _ ha hp he ih =>
    exact .recover (ih hΓ) (fun Γ₁ c h₁ ↦ ha Γ₁ c (hΓ.trans h₁))
      (fun Γ₁ c h₁ ↦ hp Γ₁ c (hΓ.trans h₁)) fun Γ₁ Γ₂ c p h₁ ↦ he Γ₁ Γ₂ c p (hΓ.trans h₁)
  | all _ ih => exact .all fun n hn ↦ ih n hn hΓ
  | race _ ih => exact .race fun n hn ↦ ih n hn hΓ
  | retry _ hs ih => exact .retry (ih hΓ) (hs.mono hΓ)
  | region hp he =>
    exact .region (fun Γ₁ s h₁ ↦ hp Γ₁ s (hΓ.trans h₁))
      fun Γ₁ Γ₂ s p h₁ ↦ he Γ₁ Γ₂ s p (hΓ.trans h₁)
  | finalizer hp he =>
    exact .finalizer (fun Γ₁ h₁ ↦ hp Γ₁ (hΓ.trans h₁)) fun Γ₁ Γ₂ p h₁ ↦ he Γ₁ Γ₂ p (hΓ.trans h₁)
  | timeout _ limit ih => exact .timeout (ih hΓ) limit

/-- What a continuation answers is of a type. -/
def Step.Typed (G : Regime S) (Γ : List Ty) (b : Ty) : Step S → Prop
  | .value v => v.type = b
  | .effect p => p.Typed G Γ b
  | .failure c => G.Owns c

/-- What is found under a key is resolved, unless it is of a wrong type. -/
theorem Effect.resolver_ensures {G : Regime S} {Γ : List Ty} {p : Plain} {s : Service}
    (hs : s.type = p ∨ G.mistyped p) :
    (resolver p ⟨.service, s⟩).Ensures G Γ fun Γ' st ↦ st.Typed G Γ' (.shared p) := by
  by_cases h : s.type = p
  · obtain ⟨_, x⟩ := s
    cases h
    rw [resolver_mk]
    exact .done fun _ _ ↦ rfl
  · rw [resolver_of_ne h]
    exact .done fun _ _ ↦
      Regime.owns_defect.mpr fun _ ↦ G.mistyped_raises (hs.resolve_left h)

/-- What a program's names stand for is as agreed. -/
structure Program.Respects (p : Program S) (G : Regime S) : Prop where
  effect : ∀ {Γ d a}, G.name Γ d a →
    (p.effect d).Ensures G Γ fun Γ' n ↦ Plan.Typed G Γ' a (.node n)
  cleanup : ∀ {Γ c}, G.cleanup Γ c → (p.cleanup c).Ensures G Γ fun _ o ↦ G.OwnsOutcome o

/-! ### Typed combinators -/

/-- An effect keeps the promise about its values. -/
def Effect.Typed {a : Ty} (G : Regime S) (Γ : List Ty) (e : Effect S a) : Prop :=
  e.plan.Typed G Γ a

namespace Effect

variable {G : Regime S} {Γ Γ' : List Ty} {a b : Ty} {e o : Effect S a}

theorem Typed.mono (h : e.Typed G Γ) (hΓ : Γ <+: Γ') : e.Typed G Γ' := Plan.Typed.mono h hΓ

/-- The node of an effect has the type of the effect. -/
theorem Typed.node (h : e.Typed G Γ) : Plan.Typed G Γ a (.node e.node) := by
  obtain ⟨n | d⟩ := e
  · exact h
  · refine .suspend (fun _ _ ↦ trivial) ?_
    rintro Γ' _ _ hΓ ⟨rfl, rfl⟩
    exact Plan.Typed.mono h hΓ

/-- The closure builds effects that keep the promise. -/
def Builds (G : Regime S) (Γ : List Ty) (x : Action S (Effect S a)) : Prop :=
  x.Ensures G Γ fun Γ' e ↦ e.Typed G Γ'

theorem Typed.builds (h : e.Typed G Γ) : Builds G Γ (.done e) := .done fun _ hΓ ↦ h.mono hΓ

/-- A closure that builds effects as one that builds plans. -/
theorem Builds.plan {x : Action S (Effect S a)} (h : Builds G Γ x) :
    (x.bind fun e ↦ .done e.plan).Ensures G Γ fun Γ' p ↦ p.Typed G Γ' a :=
  .bind h fun _ _ _ he ↦ .done fun _ hΓ ↦ Plan.Typed.mono he hΓ

/-! #### Constructors -/

theorem typed_succeed (x : a.El) : (succeed x : Effect S a).Typed G Γ := by
  refine .pure (fun _ _ ↦ trivial) ?_
  rintro _ _ _ _ ⟨rfl, rfl⟩
  rfl

theorem typed_failCause {c : Cause S.Error} (h : G.Owns c) : (failCause c : Effect S a).Typed G Γ :=
  .fail h

theorem typed_fail (error : S.Error) : (fail error : Effect S a).Typed G Γ :=
  typed_failCause (Regime.owns_fail error)

theorem typed_die {d : Defect} (h : d.IsStray = true → G.raises d) :
    (die d : Effect S a).Typed G Γ :=
  typed_failCause (Regime.owns_defect.mpr h)

theorem typed_invalid (error : ValidationError) : (invalid error : Effect S a).Typed G Γ :=
  typed_failCause (Regime.owns_validation error)

theorem typed_ofValidation (x : Except ValidationError a.El) :
    (ofValidation x : Effect S a).Typed G Γ := by
  cases x with
  | ok x => exact typed_succeed x
  | error error => exact typed_invalid error

theorem typed_ofExcept (x : Except S.Error a.El) : (ofExcept x : Effect S a).Typed G Γ := by
  cases x with
  | ok x => exact typed_succeed x
  | error error => exact typed_fail error

theorem typed_unit : (unit : Effect S .unit).Typed G Γ := typed_succeed (a := .unit) ()

theorem typed_suspend {thunk : Action S (Effect S a)} (h : Builds G Γ thunk) :
    (suspend thunk).Typed G Γ :=
  .suspend (fun _ hΓ ↦ h.plan.proper hΓ) fun _ _ _ hΓ hp ↦ h.plan.reaches hΓ hp

theorem typed_named {d : S.Name} (h : G.name Γ d a) : (named d : Effect S a).Typed G Γ := .named h

theorem typed_sleep (d : Duration) : (sleep d : Effect S .unit).Typed G Γ := .sleep d

theorem typed_async {start : SlotId → Action S Unit}
    (h : ∀ Γ', Γ <+: Γ' → (start ⟨Γ'.length⟩).Proper G (Γ' ++ [a])) :
    (async start : Effect S a).Typed G Γ :=
  .async h

theorem typed_never : (never : Effect S a).Typed G Γ := typed_async fun _ _ ↦ trivial

/-! #### Sequencing -/

theorem Typed.andThen {k : a.El → Action S (Step S)} (h : e.Typed G Γ)
    (hk : ∀ x, (k x).Ensures G Γ fun Γ' s ↦ s.Typed G Γ' b) :
    (e.andThen k : Effect S b).Typed G Γ :=
  Plan.Typed.andThen h.node (fun _ x hΓ ↦ (hk x).proper hΓ)
    (fun _ _ x _ hΓ hv ↦ (hk x).reaches hΓ hv) (fun _ _ x _ hΓ hp ↦ (hk x).reaches hΓ hp)
    fun _ _ x _ hΓ hc ↦ (hk x).reaches hΓ hc

theorem Typed.map {f : a.El → Action S b.El} (h : e.Typed G Γ)
    (hf : ∀ x, (f x).Ensures G Γ fun _ _ ↦ True) : (e.map f).Typed G Γ :=
  h.andThen fun x ↦ .bind (hf x) fun _ _ _ _ ↦ .done fun _ _ ↦ rfl

theorem Typed.flatMap {f : a.El → Action S (Effect S b)} (h : e.Typed G Γ)
    (hf : ∀ x, Builds G Γ (f x)) : (e.flatMap f).Typed G Γ :=
  h.andThen fun x ↦ .bind (hf x) fun _ _ _ he ↦ .done fun _ hΓ ↦ Plan.Typed.mono he hΓ

theorem Typed.asUnit (h : e.Typed G Γ) : e.asUnit.Typed G Γ := h.map fun _ ↦ .done fun _ _ ↦ trivial

theorem Typed.tap {f : a.El → Action S Unit} (h : e.Typed G Γ)
    (hf : ∀ x, (f x).Ensures G Γ fun _ _ ↦ True) : (e.tap f).Typed G Γ :=
  h.map fun x ↦ .bind (hf x) fun _ _ _ _ ↦ .done fun _ _ ↦ trivial

theorem Typed.zip {o : Effect S b} (h : e.Typed G Γ) (ho : o.Typed G Γ) : (e.zip o).Typed G Γ :=
  h.flatMap fun _ ↦ (ho.map fun _ ↦ .done fun _ _ ↦ trivial).builds

theorem typed_sync {f : Action S a.El} (hf : f.Ensures G Γ fun _ _ ↦ True) : (sync f).Typed G Γ :=
  typed_unit.map fun _ ↦ hf

theorem typed_attempt {f : Action S (Except S.Error a.El)} (hf : f.Ensures G Γ fun _ _ ↦ True) :
    (attempt f : Effect S a).Typed G Γ := by
  refine typed_unit.andThen fun _ ↦ .bind hf fun _ r _ _ ↦ ?_
  cases r with
  | ok x => exact .done fun _ _ ↦ rfl
  | error error => exact .done fun _ _ ↦ Regime.owns_fail error

/-! #### Services -/

theorem typed_service (k : Key) : (service k : Effect S (.shared k.type)).Typed G Γ := .service k

theorem Typed.provide {l : Layer S} (h : e.Typed G Γ) (hl : l.Keeps G Γ) :
    (e.provide l).Typed G Γ :=
  Plan.Typed.provide hl h.node

/-! #### Branches -/

theorem typed_all {es : List (Effect S a)} (h : ∀ e ∈ es, e.Typed G Γ) : (all es).Typed G Γ := by
  refine Plan.Typed.all fun n hn ↦ ?_
  obtain ⟨e, he, rfl⟩ := List.mem_map.mp hn
  exact (h e he).node

theorem typed_race {es : List (Effect S a)} (h : ∀ e ∈ es, e.Typed G Γ) : (race es).Typed G Γ := by
  refine Plan.Typed.race fun n hn ↦ ?_
  obtain ⟨e, he, rfl⟩ := List.mem_map.mp hn
  exact (h e he).node

/-! #### Recovery and policies -/

theorem Typed.catchCause {accepts : Cause S.Error → Action S Bool}
    {handler : Cause S.Error → Action S (Effect S a)} (h : e.Typed G Γ)
    (haccepts : ∀ c, G.Owns c → (accepts c).Ensures G Γ fun _ _ ↦ True)
    (hhandler : ∀ c, G.Owns c → Builds G Γ (handler c)) :
    (e.catchCause accepts handler).Typed G Γ :=
  Plan.Typed.recover h.node (fun _ c hΓ hc ↦ (haccepts c hc).proper hΓ)
    (fun _ c hΓ hc ↦ (hhandler c hc).plan.proper hΓ)
    fun _ _ c _ hΓ hc hp ↦ (hhandler c hc).plan.reaches hΓ hp

theorem Typed.catchError {accepts : S.Error → Action S Bool}
    {handler : S.Error → Action S (Effect S a)} (h : e.Typed G Γ)
    (haccepts : ∀ error, (accepts error).Ensures G Γ fun _ _ ↦ True)
    (hhandler : ∀ error, Builds G Γ (handler error)) :
    (e.catchError accepts handler).Typed G Γ := by
  refine h.catchCause (fun c _ ↦ ?_) fun c hc ↦ ?_
  · cases c with
    | fail error => exact haccepts error
    | validation | serviceNotFound | timeout | composite | defect => exact .done fun _ _ ↦ trivial
  · cases c with
    | fail error => exact hhandler error
    | validation | serviceNotFound | timeout | composite | defect =>
      exact (typed_failCause hc).builds

theorem Typed.catchAll {handler : S.Error → Action S (Effect S a)} (h : e.Typed G Γ)
    (hhandler : ∀ error, Builds G Γ (handler error)) : (e.catchAll handler).Typed G Γ :=
  h.catchError (fun _ ↦ .done fun _ _ ↦ trivial) hhandler

theorem Typed.orElse (h : e.Typed G Γ) (ho : o.Typed G Γ) : (e.orElse o).Typed G Γ :=
  h.catchAll fun _ ↦ ho.builds

theorem Typed.retry {schedule : Schedule S} (h : e.Typed G Γ) (hs : schedule.Proper G Γ) :
    (e.retry schedule).Typed G Γ :=
  Plan.Typed.retry h.node hs

theorem Typed.timeout (h : e.Typed G Γ) (limit : Duration) : (e.timeout limit).Typed G Γ :=
  Plan.Typed.timeout h.node limit

/-! #### Scopes and resources -/

theorem typed_region {body : ScopeId → Action S (Effect S a)} (h : ∀ s, Builds G Γ (body s)) :
    (region body).Typed G Γ :=
  .region (fun _ s hΓ ↦ (h s).plan.proper hΓ) fun _ _ s _ hΓ hp ↦ (h s).plan.reaches hΓ hp

theorem typed_addFinalizer {release : Action S (Effect S .unit)} (h : Builds G Γ release) :
    (addFinalizer release).Typed G Γ :=
  .finalizer (fun _ hΓ ↦ h.plan.proper hΓ) fun _ _ _ hΓ hp ↦ h.plan.reaches hΓ hp

theorem Typed.acquireRelease {release : a.El → Action S (Effect S .unit)} (h : e.Typed G Γ)
    (hr : ∀ x, Builds G Γ (release x)) : (acquireRelease e release).Typed G Γ :=
  h.flatMap fun x ↦ ((typed_addFinalizer (hr x)).map fun _ ↦ .done fun _ _ ↦ trivial).builds

theorem Typed.ensuring {finalizer : Effect S .unit} (h : e.Typed G Γ)
    (hf : finalizer.Typed G Γ) : (e.ensuring finalizer).Typed G Γ :=
  typed_region fun _ ↦ ((typed_addFinalizer hf.builds).flatMap fun _ ↦ h.builds).builds

end Effect

end EffectMachine
