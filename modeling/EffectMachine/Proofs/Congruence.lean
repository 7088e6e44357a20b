import EffectMachine.Proofs.Typing

/-!
# The congruence of the sequencing laws

`Plan.Congruent` relates two effects of which one is the other with sequencing laws applied inside:
anywhere inside, any number of times and in either direction. The laws are three. To hand an element
to a function that builds an effect is to build the effect (`succeed_flatMap`); to hand the elements
of an effect to `succeed` changes nothing (`flatMap_succeed`); and a sequence of three may be
bracketed either way (`flatMap_flatMap`). Beside them there is one rule for each kind of node, which
says that its sub-effects and the effects that its closures build may be replaced by related ones.

**Positions under closures.** Closures are functions, so that a position in what a closure builds
has to be given by other means than a path. A pair of related closures is given as one closure `x`
that ends in some index, and two ways `l` and `r` of making an effect from the index: both closures
make the same requests, and what they end in is related.

**What is assumed of the effects.** A value is only looked at by a cast. `flatMap_succeed` adds a
cast to the elements of an effect, so the effect has to be well typed; the other rules move casts
about, and take effects whose values are of unknown types. Such an effect is related under no
promise (`forget`), and so is one that breaks the promise of its type. Closures keep to a `Regime`,
since otherwise one of them might fill another one's slot with a value of the wrong type. An effect
is related to itself if its closures do, in particular if it is typed (`Plan.Typed.congruent`).
-/

namespace EffectMachine

variable {S : Signature}

/-! ### Promises -/

/-- What is promised about the values of an effect: the type that they are of, or nothing. -/
abbrev Promise := Option Ty

/-- A value is as promised. -/
def Value.Keeps (t : Promise) (v : Value) : Prop := ∀ a, t = some a → v.type = a

/-- A value that is promised to be an element is one. -/
theorem Value.Keeps.mk {a : Ty} {v : Value} (h : v.Keeps (some a)) : ∃ x : a.El, v = ⟨a, x⟩ := by
  obtain ⟨_, x⟩ := v
  cases h a rfl
  exact ⟨x, rfl⟩

namespace Regime

variable (G : Regime S)

/-- Values are as promised, and failures own. -/
def Keeps (t : Promise) : Outcome S.Error Value → Prop
  | .ok v => v.Keeps t
  | .error c => G.Owns c

/-- Who receives elements of a type is promised them, or may find that a value is none. -/
def Takes (t : Promise) (a : Ty) : Prop := t = some a ∨ G.raises (.typeMismatch a.name)

variable {G}

theorem keeps_some {a : Ty} {o : Outcome S.Error Value} : G.Keeps (some a) o ↔ G.Fits a o := by
  cases o with
  | error c => exact Iff.rfl
  | ok v =>
    constructor
    · intro h
      exact h a rfl
    · rintro h _ ⟨⟩
      exact h

/-- Nothing is promised. -/
theorem Keeps.forget {t : Promise} {o : Outcome S.Error Value} (h : G.Keeps t o) :
    G.Keeps none o := by
  cases o with
  | error c => exact h
  | ok v => exact nofun

/-- Adding the failures of a closing scope. -/
theorem Keeps.merge {t : Promise} {o : Outcome S.Error Value} {r : Outcome S.Error Unit}
    (h : G.Keeps t o) (hr : G.OwnsOutcome r) : G.Keeps t (o.merge r) := by
  rcases o with c | v <;> rcases r with f | ⟨⟩
  · exact Owns.combine h (hr f rfl)
  · exact h
  · exact hr f rfl
  · exact h

end Regime

/-- Two answers of a continuation are both the same value, both the same failure or both an
effect. -/
def Step.Agrees (G : Regime S) (t : Promise) : Step S → Step S → Prop
  | .value v, .value v' => v' = v ∧ v.Keeps t
  | .failure c, .failure c' => c' = c ∧ G.Owns c
  | .effect _, .effect _ => True
  | .value _, .failure _ | .value _, .effect _ | .failure _, .value _ | .failure _, .effect _
  | .effect _, .value _ | .effect _, .failure _ => False

/-! ### The congruence -/

/-- Two effects are the same up to sequencing laws inside, and keep a promise about their values. -/
inductive Plan.Congruent (G : Regime S) : List Ty → Promise → Plan S → Plan S → Prop where
  -- the laws
  | succeed_flatMap {Γ t a b} {x : Ty.El a} {f : a.El → Action S (Effect S b)}
      (hproper : ∀ Γ', Γ <+: Γ' → (f x).Proper G Γ')
      (heffect : ∀ Γ' Γ'' e, Γ <+: Γ' → (f x).Reaches G Γ' Γ'' e →
        Congruent G Γ'' t e.plan e.plan) :
      Congruent G Γ t (.node ((Effect.succeed x).flatMap f).node)
        (.node (Effect.suspend (f x)).node)
  | flatMap_succeed {Γ a} {m : Effect S a}
      (hm : Congruent G Γ (some a) (.node m.node) (.node m.node)) :
      Congruent G Γ (some a) (.node (m.flatMap fun x ↦ .done (.succeed x)).node) (.node m.node)
  | flatMap_flatMap {Γ s t u a b c} {m : Effect S a} {f : a.El → Action S (Effect S b)}
      {g : b.El → Action S (Effect S c)} (ha : G.Takes s a) (hb : G.Takes t b)
      (hm : Congruent G Γ s (.node m.node) (.node m.node))
      (hfproper : ∀ Γ' x, Γ <+: Γ' → (f x).Proper G Γ')
      (hfeffect : ∀ Γ' Γ'' x e, Γ <+: Γ' → (f x).Reaches G Γ' Γ'' e →
        Congruent G Γ'' t e.plan e.plan)
      (hgproper : ∀ Γ' y, Γ <+: Γ' → (g y).Proper G Γ')
      (hgeffect : ∀ Γ' Γ'' y e, Γ <+: Γ' → (g y).Reaches G Γ' Γ'' e →
        Congruent G Γ'' u e.plan e.plan) :
      Congruent G Γ u (.node ((m.flatMap f).flatMap g).node)
        (.node (m.flatMap fun x ↦ do return (← f x).flatMap g).node)
  | symm {Γ t p p'} (h : Congruent G Γ t p p') : Congruent G Γ t p' p
  -- promises
  | forget {Γ t p p'} (h : Congruent G Γ t p p') : Congruent G Γ none p p'
  -- effects without sub-effects are related to themselves
  | named {Γ a d} (h : G.name Γ d a) : Congruent G Γ (some a) (.named d) (.named d)
  | pure {Γ t make} (h : make.Ensures G Γ fun _ v ↦ v.Keeps t) :
      Congruent G Γ t (.node (.pure make)) (.node (.pure make))
  | fail {Γ t c} (h : G.Owns c) : Congruent G Γ t (.node (.fail c)) (.node (.fail c))
  | service {Γ} (k : Key) :
      Congruent G Γ (some .service) (.node (.service k)) (.node (.service k))
  | lookup {Γ} (k : Key) :
      Congruent G Γ (some (.shared k.type)) (.node (.bind (.service k) (Effect.resolver k.type)))
        (.node (.bind (.service k) (Effect.resolver k.type)))
  | sleep {Γ} (d : Duration) : Congruent G Γ (some .unit) (.node (.sleep d)) (.node (.sleep d))
  | async {Γ a start} (hproper : ∀ Γ', Γ <+: Γ' → (start ⟨Γ'.length⟩).Proper G (Γ' ++ [a])) :
      Congruent G Γ (some a) (.node (.async start)) (.node (.async start))
  -- sub-effects, and what closures build, may be replaced
  | suspend {Γ t} {ι : Type} {x : Action S ι} {l r : ι → Plan S}
      (hproper : ∀ Γ', Γ <+: Γ' → x.Proper G Γ')
      (heffect : ∀ Γ' Γ'' i, Γ <+: Γ' → x.Reaches G Γ' Γ'' i → Congruent G Γ'' t (l i) (r i)) :
      Congruent G Γ t (.node (.suspend (x.bind fun i ↦ .done (l i))))
        (.node (.suspend (x.bind fun i ↦ .done (r i))))
  | bind {Γ s t n n'} {ι : Type} {x : Value → Action S ι} {l r : Value → ι → Step S}
      (hs : Congruent G Γ s (.node n) (.node n'))
      (hproper : ∀ Γ' v, Γ <+: Γ' → v.Keeps s → (x v).Proper G Γ')
      (hagrees : ∀ Γ' Γ'' v i, Γ <+: Γ' → v.Keeps s → (x v).Reaches G Γ' Γ'' i →
        (l v i).Agrees G t (r v i))
      (heffect : ∀ Γ' Γ'' v i p p', Γ <+: Γ' → v.Keeps s → (x v).Reaches G Γ' Γ'' i →
        l v i = .effect p → r v i = .effect p' → Congruent G Γ'' t p p') :
      Congruent G Γ t (.node (.bind n fun v ↦ (x v).bind fun i ↦ .done (l v i)))
        (.node (.bind n' fun v ↦ (x v).bind fun i ↦ .done (r v i)))
  | provide {Γ t layer n n'} (hl : Layer.Keeps G Γ layer)
      (hi : Congruent G Γ t (.node n) (.node n')) :
      Congruent G Γ t (.node (.provide layer n)) (.node (.provide layer n'))
  | recover {Γ t n n'} {accepts : Cause S.Error → Action S Bool} {ι : Type}
      {x : Cause S.Error → Action S ι} {l r : Cause S.Error → ι → Plan S}
      (hs : Congruent G Γ t (.node n) (.node n'))
      (haccepts : ∀ c, G.Owns c → (accepts c).Ensures G Γ fun _ _ ↦ True)
      (hproper : ∀ Γ' c, Γ <+: Γ' → G.Owns c → (x c).Proper G Γ')
      (heffect : ∀ Γ' Γ'' c i, Γ <+: Γ' → G.Owns c → (x c).Reaches G Γ' Γ'' i →
        Congruent G Γ'' t (l c i) (r c i)) :
      Congruent G Γ t (.node (.recover n accepts fun c ↦ (x c).bind fun i ↦ .done (l c i)))
        (.node (.recover n' accepts fun c ↦ (x c).bind fun i ↦ .done (r c i)))
  | parallel {Γ s t collect} {ι : Type} {is : List ι} {l r : ι → Node S}
      (hs : ∀ i ∈ is, Congruent G Γ s (.node (l i)) (.node (r i)))
      (hcollect : ∀ vs, (∀ v ∈ vs, Value.Keeps s v) → (collect vs).Ensures G Γ fun _ o ↦
        G.Keeps t (Except.mapError .defect o)) :
      Congruent G Γ t (.node (.parallel (is.map l) collect))
        (.node (.parallel (is.map r) collect))
  | race {Γ t} {ι : Type} {is : List ι} {l r : ι → Node S}
      (hs : ∀ i ∈ is, Congruent G Γ t (.node (l i)) (.node (r i))) :
      Congruent G Γ t (.node (.race (is.map l))) (.node (.race (is.map r)))
  | retry {Γ t n n' schedule} (hs : Congruent G Γ t (.node n) (.node n'))
      (hschedule : Schedule.Proper G Γ schedule) :
      Congruent G Γ t (.node (.retry n schedule)) (.node (.retry n' schedule))
  | region {Γ t} {ι : Type} {x : ScopeId → Action S ι} {l r : ScopeId → ι → Plan S}
      (hproper : ∀ Γ' s, Γ <+: Γ' → (x s).Proper G Γ')
      (heffect : ∀ Γ' Γ'' s i, Γ <+: Γ' → (x s).Reaches G Γ' Γ'' i →
        Congruent G Γ'' t (l s i) (r s i)) :
      Congruent G Γ t (.node (.region fun s ↦ (x s).bind fun i ↦ .done (l s i)))
        (.node (.region fun s ↦ (x s).bind fun i ↦ .done (r s i)))
  | finalizer {Γ} {ι : Type} {x : Action S ι} {l r : ι → Plan S}
      (hproper : ∀ Γ', Γ <+: Γ' → x.Proper G Γ')
      (heffect : ∀ Γ' Γ'' i, Γ <+: Γ' → x.Reaches G Γ' Γ'' i →
        Congruent G Γ'' none (l i) (r i)) :
      Congruent G Γ (some .unit) (.node (.finalizer (x.bind fun i ↦ .done (l i))))
        (.node (.finalizer (x.bind fun i ↦ .done (r i))))
  | timeout {Γ t n n'} (hs : Congruent G Γ t (.node n) (.node n')) (limit : Duration) :
      Congruent G Γ t (.node (.timeout n limit)) (.node (.timeout n' limit))

namespace Plan

variable {G : Regime S} {Γ Γ' : List Ty} {t : Promise} {a : Ty} {p p' : Plan S}

/-- What is related stays so when further slots are made. -/
theorem Congruent.mono (h : p.Congruent G Γ t p') (hΓ : Γ <+: Γ') : p.Congruent G Γ' t p' := by
  induction h generalizing Γ' with
  | succeed_flatMap hp he =>
    exact .succeed_flatMap (fun Γ₁ h₁ ↦ hp Γ₁ (hΓ.trans h₁))
      fun Γ₁ Γ₂ e h₁ ↦ he Γ₁ Γ₂ e (hΓ.trans h₁)
  | flatMap_succeed _ ih => exact .flatMap_succeed (ih hΓ)
  | flatMap_flatMap ha hb _ hfp hfe hgp hge ih =>
    exact .flatMap_flatMap ha hb (ih hΓ) (fun Γ₁ x h₁ ↦ hfp Γ₁ x (hΓ.trans h₁))
      (fun Γ₁ Γ₂ x e h₁ ↦ hfe Γ₁ Γ₂ x e (hΓ.trans h₁))
      (fun Γ₁ y h₁ ↦ hgp Γ₁ y (hΓ.trans h₁)) fun Γ₁ Γ₂ y e h₁ ↦ hge Γ₁ Γ₂ y e (hΓ.trans h₁)
  | symm _ ih => exact .symm (ih hΓ)
  | forget _ ih => exact .forget (ih hΓ)
  | named h => exact .named (G.name_mono hΓ h)
  | pure h => exact .pure (h.mono hΓ)
  | fail h => exact .fail h
  | service k => exact .service k
  | lookup k => exact .lookup k
  | sleep d => exact .sleep d
  | async hp => exact .async fun Γ₁ h₁ ↦ hp Γ₁ (hΓ.trans h₁)
  | suspend hp he =>
    exact .suspend (fun Γ₁ h₁ ↦ hp Γ₁ (hΓ.trans h₁)) fun Γ₁ Γ₂ i h₁ ↦ he Γ₁ Γ₂ i (hΓ.trans h₁)
  | bind _ hp ha he ih =>
    exact .bind (ih hΓ) (fun Γ₁ v h₁ ↦ hp Γ₁ v (hΓ.trans h₁))
      (fun Γ₁ Γ₂ v i h₁ ↦ ha Γ₁ Γ₂ v i (hΓ.trans h₁))
      fun Γ₁ Γ₂ v i p p' h₁ ↦ he Γ₁ Γ₂ v i p p' (hΓ.trans h₁)
  | provide hl _ ih => exact .provide (hl.mono hΓ) (ih hΓ)
  | recover _ ha hp he ih =>
    exact .recover (ih hΓ) (fun c hc ↦ (ha c hc).mono hΓ) (fun Γ₁ c h₁ ↦ hp Γ₁ c (hΓ.trans h₁))
      fun Γ₁ Γ₂ c i h₁ ↦ he Γ₁ Γ₂ c i (hΓ.trans h₁)
  | parallel _ hc ih => exact .parallel (fun i hi ↦ ih i hi hΓ) fun vs hvs ↦ (hc vs hvs).mono hΓ
  | race _ ih => exact .race fun i hi ↦ ih i hi hΓ
  | retry _ hs ih => exact .retry (ih hΓ) (hs.mono hΓ)
  | region hp he =>
    exact .region (fun Γ₁ s h₁ ↦ hp Γ₁ s (hΓ.trans h₁))
      fun Γ₁ Γ₂ s i h₁ ↦ he Γ₁ Γ₂ s i (hΓ.trans h₁)
  | finalizer hp he =>
    exact .finalizer (fun Γ₁ h₁ ↦ hp Γ₁ (hΓ.trans h₁)) fun Γ₁ Γ₂ i h₁ ↦ he Γ₁ Γ₂ i (hΓ.trans h₁)
  | timeout _ limit ih => exact .timeout (ih hΓ) limit

/-- Related effects are both named, and then by the same name, or both written out. -/
theorem Congruent.named_or_node (h : p.Congruent G Γ t p') :
    (∃ d a, p = .named d ∧ p' = .named d ∧ G.name Γ d a ∧ (t = some a ∨ t = none)) ∨
      ∃ n n', p = .node n ∧ p' = .node n' := by
  induction h with
  | symm _ ih =>
    obtain ⟨d, a, hp, hp', hname⟩ | ⟨n, n', hp, hp'⟩ := ih
    · exact .inl ⟨d, a, hp', hp, hname⟩
    · exact .inr ⟨n', n, hp', hp⟩
  | forget _ ih =>
    obtain ⟨d, a, hp, hp', hname, -⟩ | ⟨n, n', hp, hp'⟩ := ih
    · exact .inl ⟨d, a, hp, hp', hname, .inr rfl⟩
    · exact .inr ⟨n, n', hp, hp'⟩
  | named h => exact .inl ⟨_, _, rfl, rfl, h, .inl rfl⟩
  | succeed_flatMap | flatMap_succeed | flatMap_flatMap | pure | fail | service | lookup | sleep
  | async | suspend | bind | provide | recover | parallel | race | retry | region | finalizer
  | timeout => exact .inr ⟨_, _, rfl, rfl⟩

/-- A typed effect is related to itself. -/
theorem Typed.congruent (h : p.Typed G Γ a) : p.Congruent G Γ (some a) p := by
  induction h with
  | named h => exact .named h
  | pure hp hv =>
    refine .pure fun Γ₁ h₁ ↦ ⟨hp Γ₁ h₁, fun Γ₂ v hr ↦ ?_⟩
    rintro _ ⟨⟩
    exact hv Γ₁ Γ₂ v h₁ hr
  | fail h => exact .fail h
  | @suspend Γ a thunk hp _ ih =>
    rw [← Action.bind_done thunk]
    exact .suspend hp ih
  | @andThen Γ a b source k _ hp hv _ hf ihs ihk =>
    -- a continuation makes a pair with itself, the index being what it answers
    have hself : (fun v ↦ (Effect.receive a k v).bind .done) = Effect.receive a k :=
      funext fun v ↦ Action.bind_done _
    rw [← hself]
    refine .bind ihs (fun Γ₁ u h₁ hu ↦ ?_) (fun Γ₁ Γ₂ u s h₁ hu hr ↦ ?_)
      fun Γ₁ Γ₂ u s p p' h₁ hu hr hp hp' ↦ ?_
    · obtain ⟨x, rfl⟩ := hu.mk
      rw [Effect.receive_mk]
      exact hp Γ₁ x h₁
    · obtain ⟨x, rfl⟩ := hu.mk
      rw [Effect.receive_mk] at hr
      cases s with
      | value v =>
        refine ⟨rfl, ?_⟩
        rintro _ ⟨⟩
        exact hv Γ₁ Γ₂ x v h₁ hr
      | effect p => trivial
      | failure c => exact ⟨rfl, hf Γ₁ Γ₂ x c h₁ hr⟩
    · obtain ⟨x, rfl⟩ := hu.mk
      rw [Effect.receive_mk] at hr
      cases hp
      cases hp'
      exact ihk Γ₁ Γ₂ x p h₁ hr
  | service k => exact .lookup k
  | provide hl _ ih => exact .provide hl ih
  | sleep d => exact .sleep d
  | async hp => exact .async hp
  | @recover Γ a source accepts handler _ ha hp _ ihs ih =>
    have hself : (fun c ↦ (handler c).bind .done) = handler := funext fun c ↦ Action.bind_done _
    rw [← hself]
    exact .recover ihs (fun c hc ↦ .of_proper fun Γ₁ h₁ ↦ ha Γ₁ c h₁ hc) hp ih
  | @all Γ a ns _ ih =>
    rw [← List.map_id ns]
    -- elements of one type are collected into a list
    refine .parallel ih fun vs hvs ↦ .done fun _ _ ↦ ?_
    obtain ⟨xs, hxs⟩ := Effect.castAll_ok fun v hv ↦ hvs v hv a rfl
    rw [hxs]
    rintro _ ⟨⟩
    rfl
  | @race Γ a ns _ ih =>
    rw [← List.map_id ns]
    exact .race ih
  | retry _ hs ih => exact .retry ih hs
  | @region Γ a body hp _ ih =>
    have hself : (fun s ↦ (body s).bind .done) = body := funext fun s ↦ Action.bind_done _
    rw [← hself]
    exact .region hp ih
  | @finalizer Γ release hp _ ih =>
    rw [← Action.bind_done release]
    exact .finalizer hp fun Γ₁ Γ₂ p h₁ hr ↦ .forget (ih Γ₁ Γ₂ p h₁ hr)
  | timeout _ limit ih => exact .timeout ih limit

end Plan

/-- Answers of continuations agree, and effects among them are related. -/
def Step.Congruent (G : Regime S) (Γ : List Ty) (t : Promise) (s s' : Step S) : Prop :=
  s.Agrees G t s' ∧ ∀ p p', s = .effect p → s' = .effect p' → p.Congruent G Γ t p'

theorem Step.Congruent.symm {G : Regime S} {Γ : List Ty} {t : Promise} {s s' : Step S}
    (h : s.Congruent G Γ t s') : s'.Congruent G Γ t s := by
  refine ⟨?_, fun p p' hp hp' ↦ (h.2 p' p hp' hp).symm⟩
  have hagrees := h.1
  cases s <;> cases s' <;> first
    | trivial
    | exact hagrees.elim
    | exact ⟨hagrees.1.symm, hagrees.1 ▸ hagrees.2⟩

/-- Two effects of a type that are the same up to sequencing laws inside. -/
def Effect.Congruent {a : Ty} (G : Regime S) (Γ : List Ty) (t : Promise) (e e' : Effect S a) :
    Prop :=
  Plan.Congruent G Γ t (.node e.node) (.node e'.node)

/-- The closure builds effects that are related to themselves. -/
def Effect.Supplies {a : Ty} (G : Regime S) (Γ : List Ty) (t : Promise)
    (x : Action S (Effect S a)) : Prop :=
  x.Ensures G Γ fun Γ' e ↦ e.plan.Congruent G Γ' t e.plan

namespace Effect

variable {a b : Ty} {ι : Type}

/-- Call a closure on an element of a type; any other value never gets there. -/
def onElement (x : a.El → Action S ι) (v : Value) : Action S (Option (a.El × ι)) :=
  match v.cast? a with
  | some y => (x y).bind fun i ↦ .done (some (y, i))
  | none => .done none

/-- The effect for an element and what a closure answered, or the defect if there is none. -/
def answer (k : a.El → ι → Effect S b) : Option (a.El × ι) → Step S
  | some (y, i) => .effect (k y i).plan
  | none => .failure (.defect (.typeMismatch a.name))

/-- A continuation that calls a closure first and then makes an effect of what it answers. -/
theorem receive_eq_onElement (x : a.El → Action S ι) (k : a.El → ι → Effect S b) :
    (receive a fun y ↦ ((x y).bind fun i ↦ .done (k y i)).bind fun e ↦
      .done (Step.effect e.plan)) = fun v ↦ (onElement x v).bind fun i ↦ .done (answer k i) := by
  funext v
  rw [receive, onElement]
  cases v.cast? a with
  | none => rfl
  | some y =>
    simp only [Action.bind_assoc]
    rfl

end Effect

namespace Effect.Congruent

variable {G : Regime S} {Γ : List Ty} {t : Promise} {a b : Ty} {ι : Type}

/-- Inside a retry. -/
theorem retry {e e' : Effect S a} (h : e.Congruent G Γ t e') {schedule : Schedule S}
    (hs : schedule.Proper G Γ) : (e.retry schedule).Congruent G Γ t (e'.retry schedule) :=
  Plan.Congruent.retry h hs

/-- Inside a race. -/
theorem race (is : List ι) {l r : ι → Effect S a} (h : ∀ i ∈ is, (l i).Congruent G Γ t (r i)) :
    (Effect.race (is.map l)).Congruent G Γ t (Effect.race (is.map r)) := by
  show Plan.Congruent G Γ t (.node (.race ((is.map l).map Effect.node)))
    (.node (.race ((is.map r).map Effect.node)))
  rw [List.map_map, List.map_map]
  exact .race h

/-- In what a region builds. -/
theorem region {x : ScopeId → Action S ι} {l r : ScopeId → ι → Effect S a}
    (h : ∀ s, (x s).Ensures G Γ fun Γ' i ↦ (l s i).plan.Congruent G Γ' t (r s i).plan) :
    (Effect.region fun s ↦ do return l s (← x s)).Congruent G Γ t
      (Effect.region fun s ↦ do return r s (← x s)) := by
  have hplan : ∀ k : ScopeId → ι → Effect S a,
      (fun s ↦ ((x s).bind fun i ↦ .done (k s i)).bind fun e ↦ .done e.plan) =
        fun s ↦ (x s).bind fun i ↦ .done (k s i).plan :=
    fun k ↦ funext fun s ↦ Action.bind_assoc _ _ _
  show Plan.Congruent G Γ t (.node (.region fun s ↦ _)) (.node (.region fun s ↦ _))
  simp only [Action.pure_eq_done, Action.bind_eq_bind, hplan]
  exact .region (fun Γ' s hΓ ↦ (h s).proper hΓ) fun Γ' Γ'' s i hΓ hi ↦ (h s).reaches hΓ hi

/-- In a release effect. -/
theorem addFinalizer {x : Action S ι} {l r : ι → Effect S .unit}
    (h : x.Ensures G Γ fun Γ' i ↦ (l i).plan.Congruent G Γ' none (r i).plan) :
    (Effect.addFinalizer do return l (← x)).Congruent G Γ (some .unit)
      (Effect.addFinalizer do return r (← x)) := by
  show Plan.Congruent G Γ _ (.node (.finalizer _)) (.node (.finalizer _))
  simp only [Action.pure_eq_done, Action.bind_eq_bind, Action.bind_assoc]
  exact .finalizer (fun Γ' hΓ ↦ h.proper hΓ) fun Γ' Γ'' i hΓ hi ↦ h.reaches hΓ hi

/-- Before a continuation, and in what the continuation builds. -/
theorem flatMap {m m' : Effect S a} {x : a.El → Action S ι} {l r : a.El → ι → Effect S b}
    (hm : m.Congruent G Γ (some a) m')
    (h : ∀ y, (x y).Ensures G Γ fun Γ' i ↦ (l y i).plan.Congruent G Γ' t (r y i).plan) :
    (m.flatMap fun y ↦ do return l y (← x y)).Congruent G Γ t
      (m'.flatMap fun y ↦ do return r y (← x y)) := by
  have hx : ∀ v : Value, v.Keeps (some a) → (onElement x v).Ensures G Γ fun Γ' i ↦
      ∃ y j, i = some (y, j) ∧ (l y j).plan.Congruent G Γ' t (r y j).plan := by
    intro v hv
    obtain ⟨y, rfl⟩ := hv.mk
    rw [onElement, Value.cast?_mk]
    exact .bind (h y) fun Γ' j _ hj ↦ .done fun Γ'' hΓ ↦ ⟨y, j, rfl, hj.mono hΓ⟩
  show Plan.Congruent G Γ t (.node (.bind m.node (receive a fun y ↦ _)))
    (.node (.bind m'.node (receive a fun y ↦ _)))
  simp only [Action.pure_eq_done, Action.bind_eq_bind, receive_eq_onElement]
  refine .bind hm (fun Γ' v hΓ hv ↦ (hx v hv).proper hΓ) (fun Γ' Γ'' v i hΓ hv hi ↦ ?_)
    fun Γ' Γ'' v i p p' hΓ hv hi hp hp' ↦ ?_
  · obtain ⟨y, j, rfl, -⟩ := (hx v hv).reaches hΓ hi
    trivial
  · obtain ⟨y, j, rfl, hj⟩ := (hx v hv).reaches hΓ hi
    cases hp
    cases hp'
    exact hj

/-- Before a finalizer, and in the finalizer. -/
theorem ensuring {e e' : Effect S a} {f f' : Effect S .unit}
    (h : e.plan.Congruent G Γ t e'.plan) (hf : f.plan.Congruent G Γ none f'.plan) :
    (e.ensuring f).Congruent G Γ t (e'.ensuring f') := by
  refine region (x := fun _ ↦ .done ())
    (l := fun _ _ ↦ (Effect.addFinalizer (.done f)).flatMap fun _ ↦ .done e)
    (r := fun _ _ ↦ (Effect.addFinalizer (.done f')).flatMap fun _ ↦ .done e')
    fun _ ↦ .done fun Γ' hΓ ↦ ?_
  refine flatMap (x := fun _ ↦ .done ()) (l := fun _ _ ↦ e) (r := fun _ _ ↦ e') ?_
    fun _ ↦ .done fun Γ'' hΓ' ↦ h.mono (hΓ.trans hΓ')
  exact addFinalizer (x := .done ()) (l := fun _ ↦ f) (r := fun _ ↦ f')
    (.done fun Γ'' hΓ' ↦ hf.mono (hΓ.trans hΓ'))

end Effect.Congruent

/-- The names of two programs stand for related effects and for the same finalizers. -/
structure Program.Congruent (G : Regime S) (p p' : Program S) : Prop where
  effect : ∀ {Γ d a}, G.name Γ d a → ∃ (ι : Type) (z : Action S ι) (l r : ι → Node S),
    p.effect d = (z.bind fun i ↦ .done (l i)) ∧ p'.effect d = (z.bind fun i ↦ .done (r i)) ∧
      z.Ensures G Γ fun Γ' i ↦ Plan.Congruent G Γ' (some a) (.node (l i)) (.node (r i))
  cleanup : ∀ {Γ c}, G.cleanup Γ c → p'.cleanup c = p.cleanup c ∧
    (p.cleanup c).Ensures G Γ fun _ o ↦ G.OwnsOutcome o

namespace Program

variable {G : Regime S} {p p' : Program S}

theorem Congruent.symm (h : p.Congruent G p') : p'.Congruent G p where
  effect hname := by
    obtain ⟨ι, z, l, r, hl, hr, hz⟩ := h.effect hname
    exact ⟨ι, z, r, l, hr, hl, hz.post fun _ _ _ hi ↦ hi.symm⟩
  cleanup hc := by
    obtain ⟨heq, hensures⟩ := h.cleanup hc
    exact ⟨heq.symm, heq ▸ hensures⟩

/-- A program that is as agreed is related to itself. -/
theorem Respects.congruent (h : p.Respects G) : p.Congruent G p where
  effect hname :=
    ⟨_, _, id, id, (Action.bind_done _).symm, (Action.bind_done _).symm,
      (h.effect hname).post fun _ _ _ hn ↦ hn.congruent⟩
  cleanup hc := ⟨rfl, h.cleanup hc⟩

end Program

end EffectMachine
