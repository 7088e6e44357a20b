import EffectMachine.Proofs.Closures
import EffectMachine.Proofs.Computation
import Mathlib.Data.List.Forall2

/-!
# Pure effects

An effect is *pure* (`Interpreter.IsPure`) if its closures are functions of their arguments: they
ask nothing of the world and leave it as it is. Only the registration of an asynchronous effect may
settle the slot that it is given. A closure may look at the causes and scopes that it is handed, but
not at the numbers in them, and retries draw their jitter from a seed.

Purity is a matter of what closures do (`Action.Inert`) and not of how they are written. It is
stated for two effects at once (`Node.Mirrors`): closures that are given causes with different
numbers, or different scopes, may build different effects, and what these do has to be the same
again. The relation between effects is one that the closures keep, and so covers effects that unfold
for ever.
-/

namespace EffectMachine

variable {S : Signature} {α β γ δ : Type}

/-- Changing a fresh cell is allocating it changed. -/
theorem Heap.modify_alloc_self (h : Heap α) (a : α) (f : α → α) :
    (h.alloc a).modify h.size f = h.alloc (f a) := by
  refine congrArg Heap.mk (Array.ext_getElem? fun i ↦ ?_)
  show ((h.cells.push a).modify h.cells.size f)[i]? = (h.cells.push (f a))[i]?
  rw [Array.getElem?_modify, Array.getElem?_push, Array.getElem?_push]
  by_cases hi : i = h.cells.size
  · simp [hi]
  · simp [hi, Ne.symm hi]

/-- Two answers are of one kind and have related contents. -/
inductive Matches {ε ε' : Type} (E : ε → ε' → Prop) (R : α → β → Prop) :
    Except ε α → Except ε' β → Prop where
  | ok {a b} (h : R a b) : Matches E R (.ok a) (.ok b)
  | error {e e'} (h : E e e') : Matches E R (.error e) (.error e')

theorem Matches.eq {ε : Type} {x y : Except ε α} (h : Matches Eq Eq x y) : x = y := by
  cases h with
  | ok h => rw [h]
  | error h => rw [h]

/-! ### Causes up to numbers -/

/-- A defect without the number of the scope or the fork that it tells of. -/
def Defect.anonymous : Defect → Defect
  | .scopeClosed _ => .scopeClosed 0
  | .foreignFork _ strategy => .foreignFork 0 strategy
  | d => d

/-- Two defects are the same up to the numbers of scopes and forks. -/
def Defect.Like (d d' : Defect) : Prop := d.anonymous = d'.anonymous

namespace Cause

variable {ε : Type} {c c' d d' : Cause ε}

mutual

/-- A cause without the numbers of scopes and forks that it tells of. -/
def anonymous : Cause ε → Cause ε
  | .composite causes => .composite (anonymousAll causes)
  | .defect d => .defect d.anonymous
  | .fail e => .fail e
  | .validation e => .validation e
  | .serviceNotFound k => .serviceNotFound k
  | .timeout l => .timeout l

/-- Several causes without the numbers of scopes and forks. -/
def anonymousAll : List (Cause ε) → List (Cause ε)
  | [] => []
  | c :: cs => c.anonymous :: anonymousAll cs

end

/-- Two causes are the same up to the numbers of scopes and forks. -/
def Like (c c' : Cause ε) : Prop := c.anonymous = c'.anonymous

theorem Like.refl (c : Cause ε) : c.Like c := rfl

/-- Only scopes and forks have numbers. -/
theorem Like.fail {e : ε} (h : (Cause.fail e).Like c) : c = .fail e := by
  cases c with
  | fail e' => exact h.symm
  | validation | serviceNotFound | timeout | composite | defect => cases h

/-- A cause that is like one that is no bare error is none either. -/
theorem Like.isFail (h : c.Like c') : c.isFail = c'.isFail := by
  cases c with
  | fail e => rw [h.fail]
  | validation | serviceNotFound | timeout | composite | defect =>
    cases c' with
    | fail e => cases h
    | validation | serviceNotFound | timeout | composite | defect => rfl

theorem anonymousAll_eq_map (cs : List (Cause ε)) : anonymousAll cs = cs.map anonymous := by
  induction cs with
  | nil => rfl
  | cons c cs ih => exact congrArg _ ih

theorem parts_anonymous (c : Cause ε) : c.anonymous.parts = c.parts.map anonymous := by
  cases c with
  | composite causes => exact anonymousAll_eq_map causes
  | fail | validation | serviceNotFound | timeout | defect => rfl

theorem Like.composite {cs cs' : List (Cause ε)} (h : List.Forall₂ Like cs cs') :
    (Cause.composite cs).Like (.composite cs') := by
  show Cause.composite (anonymousAll cs) = .composite (anonymousAll cs')
  induction h with
  | nil => rfl
  | cons h _ ih => exact congrArg Cause.composite (congrArg₂ List.cons h (Cause.composite.inj ih))

theorem Like.combine (h : c.Like c') (h' : d.Like d') : (c.combine d).Like (c'.combine d') := by
  show Cause.composite _ = .composite _
  have hc : c.parts.map anonymous = c'.parts.map anonymous := by
    rw [← parts_anonymous, ← parts_anonymous, h]
  have hd : d.parts.map anonymous = d'.parts.map anonymous := by
    rw [← parts_anonymous, ← parts_anonymous, h']
  rw [anonymousAll_eq_map, anonymousAll_eq_map, List.map_append, List.map_append, hc, hd]

/-- A defect is like another one, and so are the causes that they make. -/
theorem Like.defect {d d' : Defect} (h : d.Like d') :
    (Cause.defect d : Cause ε).Like (.defect d') :=
  congrArg Cause.defect h

end Cause

/-- Two outcomes are the same up to the numbers of scopes and forks in their causes. -/
abbrev Outcome.Like {ε : Type} : Outcome ε α → Outcome ε α → Prop := Matches Cause.Like Eq

/-! ### Closures -/

namespace Action

/-- The action ends in `x` in every world and leaves the world as it is. -/
def Inert (a : Action S α) (x : Except Panic α) : Prop :=
  ∀ close w, a.perform close w = (x.mapError Escape.panic, w)

/-- Two actions leave every world as it is, and end in related results or in the same panic. -/
def Agree (R : α → β → Prop) (a : Action S α) (b : Action S β) : Prop :=
  ∃ x y, a.Inert x ∧ b.Inert y ∧ Matches Eq R x y

/-- Given the fresh slot of an asynchronous effect, the registration leaves the slot as `c` and the
rest of the world as it is, and ends in `x`. -/
def Registers (start : SlotId → Action S Unit) (c : Slot S.Error) (x : Except Panic Unit) : Prop :=
  ∀ close (w : World S), (start w.newSlot.1).perform close w.newSlot.2 =
    (x.mapError Escape.panic, { w with slots := w.slots.alloc c })

theorem inert_done (a : α) : (Action.done a : Action S α).Inert (.ok a) := fun _ _ ↦ rfl

theorem Agree.done {R : α → β → Prop} {a : α} {b : β} (h : R a b) :
    (Action.done a : Action S α).Agree R (.done b) :=
  ⟨.ok a, .ok b, inert_done a, inert_done b, .ok h⟩

/-- Pure actions one after the other are pure. -/
theorem Agree.bind {R : α → β → Prop} {Q : γ → δ → Prop} {a : Action S α} {b : Action S β}
    {f : α → Action S γ} {g : β → Action S δ} (h : a.Agree R b)
    (hf : ∀ x y, R x y → (f x).Agree Q (g y)) : (a.bind f).Agree Q (b.bind g) := by
  obtain ⟨_, _, ha, hb, hxy⟩ := h
  cases hxy with
  | @ok x y hxy =>
    obtain ⟨u, v, hu, hv, huv⟩ := hf x y hxy
    refine ⟨u, v, fun close w ↦ ?_, fun close w ↦ ?_, huv⟩
    · rw [perform_bind, ha]
      exact hu close w
    · rw [perform_bind, hb]
      exact hv close w
  | @error p q hpq =>
    refine ⟨.error p, .error q, fun close w ↦ ?_, fun close w ↦ ?_, .error hpq⟩
    · rw [perform_bind, ha]
      rfl
    · rw [perform_bind, hb]
      rfl

/-- A registration may settle its slot. -/
theorem registers_settle (o : Outcome S.Error Value) :
    Registers (S := S) (fun s ↦ .settle s o fun _ ↦ .done ()) (Slot.fresh.settle o) (.ok ()) := by
  intro close w
  have hslots : (w.newSlot.2.slots).modify w.slots.size (fun c ↦ c.settle o) =
      w.slots.alloc (Slot.fresh.settle o) :=
    w.slots.modify_alloc_self .fresh _
  exact congrArg (fun slots ↦ (Except.ok (), { w with slots })) hslots

end Action

/-! ### Schedules -/

/-- A retry session draws its jitter from a seed, if it draws any. -/
def Schedule.Seeded (s : Schedule S) : Prop := ∀ j, s.jitter = some j → j.seed.isSome

/-- Two sources draw from the same stream, each at a place of its own. -/
inductive JitterSource.SameStream : JitterSource → JitterSource → Prop where
  | seeded (seed : UInt64) (drawn drawn' : Nat) :
      SameStream (.seeded seed drawn) (.seeded seed drawn')
  | shared : SameStream .shared .shared

namespace JitterSource.SameStream

variable {s s' s'' : JitterSource}

theorem refl (s : JitterSource) : s.SameStream s := by
  cases s with
  | seeded seed drawn => exact .seeded seed drawn drawn
  | shared => exact .shared

theorem trans (h : s.SameStream s') (h' : s'.SameStream s'') : s.SameStream s'' := by
  cases h with
  | seeded =>
    cases h'
    exact .seeded ..
  | shared => exact h'

/-- Drawing does not change the stream. -/
theorem of_draw {r : Sample × JitterSource} (h : (s.draw : Action S _).Yields r) :
    r.2.SameStream s := by
  cases s with
  | seeded seed drawn =>
    cases h
    exact .seeded ..
  | shared =>
    obtain ⟨x, rfl⟩ := h
    exact .shared

end JitterSource.SameStream

/-- Pure rules are consulted purely. -/
theorem Schedule.consult_agree {f : Failed S.Error} {rules : List (Rule S)}
    (h : ∀ r ∈ rules, ∀ f, (r.verdict f).Agree Eq (r.verdict f)) (delay : Option Duration) :
    (consult f rules delay).Agree Eq (consult f rules delay) := by
  induction rules generalizing delay with
  | nil => exact .done rfl
  | cons r rs ih =>
    refine .bind (h r List.mem_cons_self f) ?_
    rintro verdict _ rfl
    cases verdict with
    | stop => exact .done rfl
    | pass | delay => exact ih (fun r hr ↦ h r (List.mem_cons_of_mem _ hr)) _

/-- A session goes on with the stream that it has begun with. -/
theorem Schedule.sameStream_of_yields {s : Schedule S} {source : JitterSource}
    {f : Failed S.Error} {r : Decision × JitterSource} (h : (s.decideFrom source f).Yields r) :
    r.2.SameStream source := by
  rw [decideFrom] at h
  split at h
  · cases h
    exact .refl source
  · obtain ⟨delay, -, h⟩ := Action.yields_bind.1 h
    cases delay with
    | none =>
      cases h
      exact .refl source
    | some delay =>
      dsimp only at h
      split at h
      · cases h
        exact .refl source
      · obtain ⟨perturbed, hperturbed, h⟩ := Action.yields_bind.1 h
        obtain ⟨drawn, hdrawn, hresult⟩ := Action.yields_bind.1 hperturbed
        cases hresult
        cases h
        exact .of_draw hdrawn

/-- A schedule with pure rules is itself pure as long as it draws from a seed, wherever in the
stream of the seed a session is. -/
theorem Schedule.decideFrom_agree {s : Schedule S} (hs : s.Seeded)
    (hrules : ∀ r ∈ s.rules, ∀ f, (r.verdict f).Agree Eq (r.verdict f)) {source : JitterSource}
    (hsource : source.SameStream s.source) (f : Failed S.Error) :
    (s.decideFrom source f).Agree Eq (s.decideFrom source f) := by
  rw [decideFrom]
  split
  · exact .done rfl
  refine .bind (consult_agree hrules none) ?_
  rintro proposal _ rfl
  cases proposal with
  | none => exact .done rfl
  | some delay =>
    dsimp only
    split
    · exact .done rfl
    · rename_i j hj
      obtain ⟨seed, hseed⟩ := Option.isSome_iff_exists.1 (hs j hj)
      rw [Schedule.source, hj] at hsource
      simp only [Jitter.source, hseed] at hsource
      cases hsource
      exact .done rfl

/-! ### Effects -/

/-- What is held in hand in two runs is the same up to numbers and related effects. -/
inductive Control.Mirrors (N : Node S → Node S → Prop) : Control S → Control S → Prop where
  | effect {n n'} (h : N n n') : Mirrors N (.effect n) (.effect n')
  | value (v) : Mirrors N (.value v) (.value v)
  | failure {c c'} (h : c.Like c') : Mirrors N (.failure c) (.failure c')
  | pending : Mirrors N .pending .pending

theorem Control.Mirrors.isPending {N : Node S → Node S → Prop} {c c' : Control S}
    (h : Control.Mirrors N c c') : c.isPending = c'.isPending := by
  cases h <;> rfl

/-- The closures of two effects are pure and lead to the same, up to numbers and related effects. -/
inductive Node.Mirrors (p : Program S) (N : Node S → Node S → Prop) : Node S → Node S → Prop where
  | pure {make make'} (h : make.Agree Eq make') : Mirrors p N (.pure make) (.pure make')
  | fail {cause cause'} (h : cause.Like cause') : Mirrors p N (.fail cause) (.fail cause')
  | suspend {thunk thunk'} (h : (p.building thunk).Agree N (p.building thunk')) :
      Mirrors p N (.suspend thunk) (.suspend thunk')
  | bind {source source' next next'} (hs : N source source')
      (h : ∀ v, (p.continuing (next v)).Agree (Control.Mirrors N) (p.continuing (next' v))) :
      Mirrors p N (.bind source next) (.bind source' next')
  | service (key) : Mirrors p N (.service key) (.service key)
  | provide {layer layer' inner inner'} (hs : N inner inner')
      (h : ∀ context, (layer.build context).Agree Eq (layer'.build context)) :
      Mirrors p N (.provide layer inner) (.provide layer' inner')
  | sleep (d) : Mirrors p N (.sleep d) (.sleep d)
  | async {start start' c c' x} (h : Action.Registers start c x) (h' : Action.Registers start' c' x)
      (hc : Option.Rel Outcome.Like c.outcome c'.outcome) :
      Mirrors p N (.async start) (.async start')
  | recover {source source' accepts accepts' handler handler'} (hs : N source source')
      (ha : ∀ c c', c.Like c' → (accepts c).Agree Eq (accepts' c'))
      (h : ∀ c c', c.Like c' → (p.building (handler c)).Agree N (p.building (handler' c'))) :
      Mirrors p N (.recover source accepts handler) (.recover source' accepts' handler')
  | parallel {branches branches' collect collect'} (hs : List.Forall₂ N branches branches')
      (h : ∀ vs, (collect vs).Agree Eq (collect' vs)) :
      Mirrors p N (.parallel branches collect) (.parallel branches' collect')
  | race {branches branches'} (hs : List.Forall₂ N branches branches') :
      Mirrors p N (.race branches) (.race branches')
  | retry {source source' schedule schedule'} (hs : N source source') (hj : schedule.Seeded)
      (hj' : schedule'.Seeded) (heq : schedule.source = schedule'.source)
      (h : ∀ jitter failed, jitter.SameStream schedule.source →
        (schedule.decideFrom jitter failed).Agree Eq (schedule'.decideFrom jitter failed)) :
      Mirrors p N (.retry source schedule) (.retry source' schedule')
  | region {body body'} (h : ∀ s s', (p.building (body s)).Agree N (p.building (body' s'))) :
      Mirrors p N (.region body) (.region body')
  | finalizer {release release'} (h : (p.building release).Agree N (p.building release')) :
      Mirrors p N (.finalizer release) (.finalizer release')
  | timeout {source source'} (hs : N source source') (limit) :
      Mirrors p N (.timeout source limit) (.timeout source' limit)

theorem Node.Mirrors.tag {p : Program S} {N : Node S → Node S → Prop} {n n' : Node S}
    (h : n.Mirrors p N n') : n.tag = n'.tag := by
  cases h <;> rfl

/-! ### Strategies -/

/-- Two branches stand in the same place, up to numbers and related effects. -/
inductive ForkState.Mirrors (N : Node S → Node S → Prop) : ForkState S → ForkState S → Prop where
  | deferred {n n'} (h : N n n') (context) :
      Mirrors N (.deferred ⟨n, context⟩) (.deferred ⟨n', context⟩)
  | settled {o o'} (h : o.Like o') : Mirrors N (.settled o) (.settled o')
  | external (handle) : Mirrors N (.external handle) (.external handle)

/-- The strategy starts and joins branches by pure closures that do not look at the numbers of
forks. It awaits and sleeps as `Strategy.sync` does. -/
structure Strategy.Mirrors (σ : Strategy S) (N : Node S → Node S → Prop) : Prop where
  fork : ∀ {n n'}, N n n' → ∀ context,
    (σ.fork ⟨n, context⟩).Agree (ForkState.Mirrors N) (σ.fork ⟨n', context⟩)
  join : ∀ i i' handle, (σ.join i handle).Agree Outcome.Like (σ.join i' handle)
  await : ∀ slot, σ.await slot = Strategy.takeOrFail slot
  sleep : ∀ d, σ.sleep d = .sleep d (.done ())

theorem Strategy.mirrors_sync (N : Node S → Node S → Prop) :
    (Strategy.sync : Strategy S).Mirrors N where
  fork h context := .done (.deferred h context)
  join _ _ _ := .done (.error rfl)
  await _ := rfl
  sleep _ := rfl

namespace Interpreter

/-- A relation between pure effects that do the same, up to numbers. Their closures lead to effects
that are related again, and so does the strategy. -/
structure Purity (it : Interpreter S) where
  related : Node S → Node S → Prop
  mirrors : ∀ {n n'}, related n n' → n.Mirrors it.program related n'
  strategy : it.strategy.Mirrors related

/-- The closures of the effect, and of all effects that they and the strategy lead to, are pure. -/
def IsPure (it : Interpreter S) (node : Node S) : Prop := ∃ P : it.Purity, P.related node node

end Interpreter

end EffectMachine
