import EffectMachine.Proofs.Moves
import EffectMachine.Proofs.Upholding

/-!
# Typed states

Values lose their types on the way from one frame to the next, and a stack is typed by what each of
its frames expects of the value that it will be handed, and what it then hands on (`Frame.Typed`).
Stacks compose such frames down to the type of the whole effect (`Stacked`), and a state is typed if
what it holds in hand is what its newest frame expects (`State.Typed`).

The one value that is not the element of an effect is the handle of a service between its lookup and
the continuation that resolves it. A `Shape` is therefore a type or such a handle.

**A move keeps states typed** (`Interpreter.move_upholds`). There is one lemma for handlers, one for
frames that are handed a value, one for frames that a failure falls on, and one for each kind of
branching. Nothing is unfolded twice: what becomes of a state is put together by the four lemmas
about holding something in hand.
-/

namespace EffectMachine

variable {S : Signature} {α β : Type}

open Machine (Upholds)

/-! ### Frames and stacks -/

/-- What may be handed to a frame: an element of a type, or the handle of a service. -/
inductive Shape where
  | of (a : Ty)
  | handle (p : Plain)

namespace Shape

/-- The value has the shape. A handle may be that of another service where keys may be bound so. -/
def Fits (G : Regime S) : Shape → Value → Prop
  | of a, v => v.type = a
  | handle p, v => ∃ s : Service, v = ⟨.service, s⟩ ∧ (s.type = p ∨ G.mistyped p)

/-- The effect yields values of the shape. -/
def Describes (G : Regime S) (Γ : List Ty) : Shape → Node S → Prop
  | of a, n => Plan.Typed G Γ a (.node n)
  | handle p, n => ∃ k : Key, k.type = p ∧ n = .service k

end Shape

/-- A branch that waits for its turn, in a context that suits. -/
def Fork.Typed (G : Regime S) (Γ : List Ty) (a : Ty) (f : Fork S) : Prop :=
  ∃ job, f.state = .deferred job ∧ job.context.Suits G ∧ Plan.Typed G Γ a (.node job.node)

/-- What a frame expects to be handed, and what it hands on. -/
inductive Frame.Typed (G : Regime S) (Γ : List Ty) : Shape → Shape → Frame S → Prop where
  | resume {a b : Ty} {k : a.El → Action S (Step S)}
      (hk : ∀ x, (k x).Ensures G Γ fun Γ' s ↦ s.Typed G Γ' b) :
      Typed G Γ (.of a) (.of b) (.resume (Effect.receive a k))
  | resolve (p : Plain) : Typed G Γ (.handle p) (.of (.shared p)) (.resume (Effect.resolver p))
  | recover {a : Ty} {accepts : Cause S.Error → Action S Bool}
      {handler : Cause S.Error → Action S (Plan S)}
      (haccepts : ∀ c, G.Owns c → (accepts c).Ensures G Γ fun _ _ ↦ True)
      (hhandler : ∀ c, G.Owns c → (handler c).Ensures G Γ fun Γ' p ↦ p.Typed G Γ' a) :
      Typed G Γ (.of a) (.of a) (.recover accepts handler)
  | restoreContext {a : Ty} {c : Context} (hc : c.Suits G) :
      Typed G Γ (.of a) (.of a) (.restoreContext c)
  | closeScope {a : Ty} (s parent : ScopeId) : Typed G Γ (.of a) (.of a) (.closeScope s parent)
  | retry {a : Ty} {session : RetrySession S} (hs : Plan.Typed G Γ a (.node session.source))
      (hschedule : session.schedule.Proper G Γ) : Typed G Γ (.of a) (.of a) (.retry session)
  | timeout {a : Ty} (limit : Duration) (startedAt : Nat) :
      Typed G Γ (.of a) (.of a) (.timeout limit startedAt)
  | parallel {a : Ty} {rest : List (Fork S)} {collected : List Value}
      (hrest : ∀ f ∈ rest, f.Typed G Γ a) (hcollected : ∀ v ∈ collected, v.type = a) :
      Typed G Γ (.of a) (.of (.list a)) (.parallel rest collected (Effect.collector a))
  | race {a : Ty} {rest : List (Fork S)} {failures : List (Cause S.Error)}
      (hrest : ∀ f ∈ rest, f.Typed G Γ a) (hfailures : ∀ c ∈ failures, G.Owns c) :
      Typed G Γ (.of a) (.of a) (.race rest failures)

/-- Frames on top of each other, from what the newest one expects down to a type. -/
inductive Stacked (G : Regime S) (Γ : List Ty) (b : Ty) : Shape → List (Frame S) → Prop where
  | nil : Stacked G Γ b (.of b) []
  | cons {σ τ : Shape} {f : Frame S} {fs : List (Frame S)} (hf : f.Typed G Γ σ τ)
      (hfs : Stacked G Γ b τ fs) : Stacked G Γ b σ (f :: fs)

/-- What is in hand has a shape; a failure is own, and the hand is not empty. -/
def Control.Typed (G : Regime S) (Γ : List Ty) (σ : Shape) : Control S → Prop
  | .effect n => σ.Describes G Γ n
  | .value v => σ.Fits G v
  | .failure c => G.Owns c
  | .pending => False

/-- What is in hand is what the stack expects. -/
structure State.Typed (G : Regime S) (Γ : List Ty) (b : Ty) (st : State S) : Prop where
  context : st.context.Suits G
  control : ∃ σ, st.control.Typed G Γ σ ∧ Stacked G Γ b σ st.stack

section Mono

variable {G : Regime S} {Γ Γ' : List Ty} {a b : Ty} {σ τ : Shape}

theorem Fork.Typed.mono {f : Fork S} (h : f.Typed G Γ a) (hΓ : Γ <+: Γ') : f.Typed G Γ' a := by
  obtain ⟨job, hjob, hcontext, hn⟩ := h
  exact ⟨job, hjob, hcontext, hn.mono hΓ⟩

theorem Frame.Typed.mono {f : Frame S} (h : f.Typed G Γ σ τ) (hΓ : Γ <+: Γ') :
    f.Typed G Γ' σ τ := by
  cases h with
  | resume hk => exact .resume fun x ↦ (hk x).mono hΓ
  | resolve p => exact .resolve p
  | recover ha hh => exact .recover (fun c hc ↦ (ha c hc).mono hΓ) fun c hc ↦ (hh c hc).mono hΓ
  | restoreContext hc => exact .restoreContext hc
  | closeScope s parent => exact .closeScope s parent
  | retry hs hschedule => exact .retry (hs.mono hΓ) (hschedule.mono hΓ)
  | timeout limit startedAt => exact .timeout limit startedAt
  | parallel hrest hcollected => exact .parallel (fun f hf ↦ (hrest f hf).mono hΓ) hcollected
  | race hrest hfailures => exact .race (fun f hf ↦ (hrest f hf).mono hΓ) hfailures

theorem Stacked.mono {fs : List (Frame S)} (h : Stacked G Γ b σ fs) (hΓ : Γ <+: Γ') :
    Stacked G Γ' b σ fs := by
  induction h with
  | nil => exact .nil
  | cons hf _ ih => exact .cons (hf.mono hΓ) ih

end Mono

/-! ### Holding something in hand -/

namespace State

variable {G : Regime S} {Γ : List Ty} {a b : Ty} {σ τ : Shape} {st : State S}

theorem typed_settled (hc : st.context.Suits G) (hs : Stacked G Γ b (.of a) st.stack)
    {o : Outcome S.Error Value} (ho : G.Fits a o) :
    (st.holding (.ofOutcome o)).Typed G Γ b := by
  refine ⟨hc, .of a, ?_, hs⟩
  cases o with
  | ok v => exact ho
  | error c => exact ho

theorem typed_effect (hc : st.context.Suits G) (hs : Stacked G Γ b σ st.stack) {n : Node S}
    (hn : σ.Describes G Γ n) : (st.continueWith n).Typed G Γ b :=
  ⟨hc, σ, hn, hs⟩

theorem typed_built (hc : st.context.Suits G) (hs : Stacked G Γ b (.of a) st.stack)
    {x : Except Defect (Node S)} (hx : (∀ n, x = .ok n → Plan.Typed G Γ a (.node n)) ∧
      ∀ d, x = .error d → G.Owns (.defect d)) : (st.continueBuilt x).Typed G Γ b := by
  cases x with
  | ok n => exact typed_effect hc hs (hx.1 n rfl)
  | error d => exact typed_settled (o := .error (.defect d)) hc hs (hx.2 d rfl)

/-- Pushing a frame and going on with an effect, in whatever context that suits. -/
theorem typed_push {c : Context} (hc : c.Suits G) (hs : Stacked G Γ b τ st.stack) {f : Frame S}
    (hf : f.Typed G Γ σ τ) {n : Node S} (hn : σ.Describes G Γ n) :
    ({ st.push f with context := c }.continueWith n).Typed G Γ b :=
  ⟨hc, σ, hn, .cons hf hs⟩

end State

/-! ### Branches -/

namespace Host

variable {G : Regime S} {h : Host S} (hsync : h.strategy = .sync)
  (hclose : Closer.Upholds G h.close) {Γ : List Ty} {a b : Ty} {st : State S}
include hsync

/-- Branches are put off in a context that suits. -/
theorem forkAll_upholds {context : Context} (hc : context.Suits G) {ns : List (Node S)}
    (hns : ∀ n ∈ ns, Plan.Typed G Γ a (.node n)) :
    Upholds G Γ (h.forkAll context ns) fun Γ' fs ↦ Γ' = Γ ∧ ∀ f ∈ fs, f.Typed G Γ a := by
  induction ns with
  | nil => exact .pure ⟨rfl, nofun⟩
  | cons n ns ih =>
    obtain ⟨hn, hns⟩ := List.forall_mem_cons.mp hns
    have hfork : Upholds G Γ (h.fork ⟨n, context⟩) fun Γ' f ↦ Γ' = Γ ∧ f.Typed G Γ a := by
      rw [fork, hsync]
      show Upholds G Γ (.modifyGet World.newFork >>= fun id ↦
        pure (⟨id, .deferred ⟨n, context⟩⟩ : Fork S)) _
      refine .change (R := fun _ ↦ True) (fun w hw ↦ ⟨hw.newFork, trivial⟩) fun id _ ↦ ?_
      exact .pure ⟨rfl, ⟨n, context⟩, rfl, hc, hn⟩
    refine .bind hfork ?_
    rintro _ f - ⟨rfl, hf⟩
    refine .bind (ih hns) ?_
    rintro _ fs - ⟨rfl, hfs⟩
    exact .pure ⟨rfl, List.forall_mem_cons.mpr ⟨hf, hfs⟩⟩

end Host

namespace Host

variable {G : Regime S} {h : Host S} (hclose : Closer.Upholds G h.close) {Γ : List Ty} {a b : Ty}
  {st : State S}

theorem turn_deferred {f : Fork S} (hf : f.Typed G Γ a) :
    ∃ job, h.turn f = pure (.run job) ∧ job.context.Suits G ∧
      Plan.Typed G Γ a (.node job.node) := by
  obtain ⟨job, hjob, hcontext, hn⟩ := hf
  refine ⟨job, ?_, hcontext, hn⟩
  rw [turn, hjob]

theorem nextRace_upholds (hc : st.context.Suits G) (hs : Stacked G Γ b (.of a) st.stack)
    {rest : List (Fork S)} (hrest : ∀ f ∈ rest, f.Typed G Γ a) {failures : List (Cause S.Error)}
    (hfailures : ∀ c ∈ failures, G.Owns c) :
    Upholds G Γ (h.nextRace rest failures st) fun Γ' st' ↦ st'.Typed G Γ' b := by
  cases rest with
  | nil =>
    refine .pure (State.typed_settled (o := .error (.composite failures.reverse)) hc hs ?_)
    exact Regime.owns_composite.mpr fun c hc ↦ hfailures c (List.mem_reverse.mp hc)
  | cons f rest =>
    obtain ⟨hf, hrest⟩ := List.forall_mem_cons.mp hrest
    obtain ⟨job, hjob, hcontext, hn⟩ := turn_deferred (h := h) hf
    rw [nextRace, hjob, pure_bind]
    exact .pure (State.typed_push (σ := .of a) hcontext hs (.race hrest hfailures) hn)

include hclose

theorem nextParallel_upholds (hc : st.context.Suits G) (hs : Stacked G Γ b (.of (.list a)) st.stack)
    {rest : List (Fork S)} (hrest : ∀ f ∈ rest, f.Typed G Γ a) {collected : List Value}
    (hcollected : ∀ v ∈ collected, v.type = a) :
    Upholds G Γ (h.nextParallel (Effect.collector a) rest collected st) fun Γ' st' ↦
      st'.Typed G Γ' b := by
  cases rest with
  | nil =>
    obtain ⟨xs, hxs⟩ : ∃ xs, Effect.castAll a collected.reverse = .ok xs :=
      Effect.castAll_ok fun v hv ↦ hcollected v (List.mem_reverse.mp hv)
    have hcollect : (Effect.collector a collected.reverse : Action S (Except Defect Value)) =
        .done (.ok ⟨.list a, xs⟩) := by
      rw [Effect.collector, hxs]
      rfl
    have hcollector : (Effect.collector a collected.reverse).Ensures G Γ fun _ r ↦
        r = .ok ⟨.list a, xs⟩ := by
      rw [hcollect]
      exact .done fun _ _ ↦ rfl
    refine .bind (h.attempt_ensures hclose hcollector) fun Γ' r hΓ hr ↦ ?_
    cases r with
    | error d =>
      exact .pure (State.typed_settled (o := .error (.defect d)) hc (hs.mono hΓ) (hr.2 d rfl))
    | ok r =>
      rw [hr.1 r rfl]
      exact .pure (State.typed_settled (o := .ok ⟨.list a, xs⟩) hc (hs.mono hΓ) rfl)
  | cons f rest =>
    obtain ⟨hf, hrest⟩ := List.forall_mem_cons.mp hrest
    obtain ⟨job, hjob, hcontext, hn⟩ := turn_deferred (h := h) hf
    rw [nextParallel, hjob, pure_bind]
    exact .pure (State.typed_push (σ := .of a) hcontext hs (.parallel hrest hcollected) hn)

/-! ### Handlers -/

omit hclose in
/-- A visit of an asynchronous effect makes the next slot. -/
theorem newSlot_upholds (a : Ty) : Upholds G Γ (.modifyGet World.newSlot) fun Γ' s ↦
    Γ' = Γ ++ [a] ∧ s = ⟨Γ.length⟩ := by
  rintro w _ _ hw ⟨⟩ -
  have hΓ := List.prefix_append Γ [a]
  refine ⟨Γ ++ [a], hΓ, hw.newSlot (G.state_mono hΓ hw.state), ?_⟩
  rintro _ ⟨⟩
  exact ⟨rfl, congrArg SlotId.mk hw.size⟩

omit hclose in
/-- What is taken out of a slot fits it; a slot that nothing has settled is a defect of its own. -/
theorem takeOrFail_upholds {Γ' : List Ty} (hΓ : Γ ++ [a] <+: Γ') :
    Upholds G Γ' (h.perform (Strategy.takeOrFail ⟨Γ.length⟩)) fun _ o ↦ G.Fits a o := by
  rw [Strategy.takeOrFail, perform_take]
  refine .change (R := fun o ↦ ∀ x, o = some x → G.FitsSlot Γ' ⟨Γ.length⟩ x)
    (fun w hw ↦ ⟨hw.takeOutcome _, hw.slots _⟩) fun o ho ↦ .pure ?_
  cases o with
  | none => exact Regime.owns_of_isStray rfl
  | some x => exact (ho x rfl).fits hΓ

theorem provide_upholds {l : Layer S} (hl : l.Keeps G Γ) {inner : Node S}
    (hinner : Plan.Typed G Γ a (.node inner)) (hc : st.context.Suits G)
    (hs : Stacked G Γ b (.of a) st.stack) :
    Upholds G Γ (Handler.onProvide h (.provide l inner) st) fun Γ' st' ↦ st'.Typed G Γ' b := by
  refine .bind (h.attempt_ensures hclose (hl st.context hc)) fun Γ' x hΓ hx ↦ ?_
  rcases x with d | missing | context
  · exact .pure (State.typed_settled (o := .error (.defect d)) hc (hs.mono hΓ) (hx.2 d rfl))
  · exact .pure (State.typed_settled (o := .error (.serviceNotFound missing.key)) hc (hs.mono hΓ)
      (Regime.owns_serviceNotFound _))
  · exact .pure (State.typed_push (σ := .of a) (hx.1 _ rfl context rfl) (hs.mono hΓ)
      (.restoreContext hc) (hinner.mono hΓ))

theorem async_upholds (hsync : h.strategy = .sync) {start : SlotId → Action S Unit}
    (hstart : ∀ Γ', Γ <+: Γ' → (start ⟨Γ'.length⟩).Proper G (Γ' ++ [a]))
    (hc : st.context.Suits G) (hs : Stacked G Γ b (.of a) st.stack) :
    Upholds G Γ (Handler.onAsync h (.async start) st) fun Γ' st' ↦ st'.Typed G Γ' b := by
  refine .bind (newSlot_upholds a) ?_
  -- whoever fills the slot later is held to the type of the effect
  rintro _ slot - ⟨rfl, rfl⟩
  have hs' := hs.mono (List.prefix_append Γ [a])
  refine .bind (h.attempt_upholds hclose (hstart Γ List.prefix_rfl)) fun Γ' x hΓ hx ↦ ?_
  rcases x with d | ⟨⟩
  · exact .pure (State.typed_settled (o := .error (.defect d)) hc (hs'.mono hΓ) (hx.2 d rfl))
  · show Upholds G Γ' (h.perform (h.strategy.await ⟨Γ.length⟩) >>= fun o ↦
      pure (st.holding (.ofOutcome o))) _
    rw [hsync]
    refine .bind (takeOrFail_upholds hΓ) fun Γ'' o hΓ' ho ↦ ?_
    exact .pure (State.typed_settled hc (hs'.mono (hΓ.trans hΓ')) ho)

theorem region_upholds (hp : h.program.Respects G) {body : ScopeId → Action S (Plan S)}
    (hbody : ∀ s, (body s).Ensures G Γ fun Γ' p ↦ p.Typed G Γ' a) (hc : st.context.Suits G)
    (hs : Stacked G Γ b (.of a) st.stack) :
    Upholds G Γ (Handler.onRegion h (.region body) st) fun Γ' st' ↦ st'.Typed G Γ' b := by
  refine .change (R := fun _ ↦ True) (fun w hw ↦ ⟨hw.enterScope, trivial⟩) fun child _ ↦ ?_
  refine .bind (h.build_ensures hclose hp (hbody child)) fun Γ' x hΓ hx ↦ .pure ?_
  -- the frame that closes the child is there even if the closure that builds the body panics
  have hframe : Stacked G Γ' b (.of a) (Frame.closeScope child st.scope :: st.stack) :=
    .cons (.closeScope child st.scope) (hs.mono hΓ)
  have hpushed : ({ st.push (.closeScope child st.scope) with scope := child } :
      State S).context.Suits G := hc
  exact State.typed_built hpushed hframe hx

omit hclose in
/-- The release effect is built in the context in which it is registered. -/
theorem finalizer_upholds {release : Action S (Plan S)}
    (hrelease : release.Ensures G Γ fun Γ' p ↦ p.Typed G Γ' .unit) (hc : st.context.Suits G)
    (hs : Stacked G Γ b (.of .unit) st.stack) :
    Upholds G Γ (Handler.onFinalizer h (.finalizer release) st) fun Γ' st' ↦
      st'.Typed G Γ' b := by
  have hfinalizer : (Finalizer.release release st.context st.budget).Typed G Γ := ⟨hc, hrelease⟩
  refine .change (R := fun r ↦ ∀ d, r = .error d → d.IsStray = false)
    (fun w hw ↦ ⟨hw.addFinalizer st.scope hfinalizer, ?_⟩) fun r hr ↦ ?_
  · intro d hd
    rw [World.addFinalizer] at hd
    split at hd <;> cases hd
    rfl
  · cases r with
    | ok _ => exact .pure (State.typed_settled (o := .ok .unit) hc hs rfl)
    | error d => exact .pure (State.typed_settled (o := .error (.defect d)) hc hs
        (Regime.owns_of_isStray (hr d rfl)))

/-- What the handler of any kind of node does with a typed effect. -/
theorem standard_upholds (hsync : h.strategy = .sync) (hp : h.program.Respects G) {n : Node S}
    (hn : Plan.Typed G Γ a (.node n)) (hc : st.context.Suits G)
    (hs : Stacked G Γ b (.of a) st.stack) :
    Upholds G Γ (Handler.standard n.tag h n st) fun Γ' st' ↦ st'.Typed G Γ' b := by
  cases hn with
  | pure hproper hvalue =>
    refine .bind (h.attempt_upholds hclose (hproper Γ List.prefix_rfl)) fun Γ' x hΓ hx ↦ ?_
    cases x with
    | ok v =>
      exact .pure (State.typed_settled (o := .ok v) hc (hs.mono hΓ)
        (hvalue Γ Γ' v List.prefix_rfl (hx.1 v rfl)))
    | error d =>
      exact .pure (State.typed_settled (o := .error (.defect d)) hc (hs.mono hΓ) (hx.2 d rfl))
  | fail hcause => exact .pure (State.typed_settled (o := .error _) hc hs hcause)
  | suspend hproper heffect =>
    refine .bind (h.build_ensures hclose hp (.intro hproper heffect)) fun Γ' x hΓ hx ↦ ?_
    exact .pure (State.typed_built hc (hs.mono hΓ) hx)
  | andThen hsource hproper hvalue heffect hfailure =>
    refine .pure (State.typed_push (σ := .of _) hc hs (.resume fun x Γ' hΓ ↦ ?_) hsource)
    refine ⟨hproper Γ' x hΓ, fun Γ'' s hs ↦ ?_⟩
    cases s with
    | value v => exact hvalue Γ' Γ'' x v hΓ hs
    | effect p => exact heffect Γ' Γ'' x p hΓ hs
    | failure c => exact hfailure Γ' Γ'' x c hΓ hs
  | service k =>
    exact .pure (State.typed_push (σ := .handle k.type) hc hs (.resolve k.type) ⟨k, rfl, rfl⟩)
  | provide hl hinner => exact provide_upholds hclose hl hinner hc hs
  | sleep d =>
    show Upholds G Γ (h.perform (h.strategy.sleep d) >>= fun _ ↦ pure st.succeedUnit) _
    rw [hsync]
    refine .alter (fun w hw ↦ hw.withClock fun c ↦ c.sleep d) ?_
    exact .pure (State.typed_settled (o := .ok .unit) hc hs rfl)
  | async hproper => exact async_upholds hclose hsync hproper hc hs
  | recover hsource haccepts hproper heffect =>
    refine .pure (State.typed_push (σ := .of a) hc hs
      (.recover (fun c hown ↦ ?_) fun c hown Γ' hΓ ↦ ?_) hsource)
    · exact .of_proper fun Γ' hΓ ↦ haccepts Γ' c hΓ hown
    · exact ⟨hproper Γ' c hΓ hown, fun Γ'' p ↦ heffect Γ' Γ'' c p hΓ hown⟩
  | all hbranches =>
    refine .bind (forkAll_upholds hsync hc hbranches) ?_
    rintro _ fs - ⟨rfl, hfs⟩
    exact nextParallel_upholds hclose hc hs hfs nofun
  | race hbranches =>
    rename_i ns
    cases ns with
    | nil => exact .pure (State.typed_settled (o := .error (.defect .emptyRace)) hc hs
        (Regime.owns_of_isStray rfl))
    | cons n ns =>
      refine .bind (forkAll_upholds hsync hc hbranches) ?_
      rintro _ fs - ⟨rfl, hfs⟩
      exact nextRace_upholds hc hs hfs nofun
  | retry hsource hschedule =>
    refine .look (R := fun _ ↦ True) (fun _ _ ↦ trivial) fun startedAt _ ↦ ?_
    exact .pure (State.typed_push (σ := .of a) hc hs (.retry hsource hschedule) hsource)
  | region hproper heffect =>
    exact region_upholds hclose hp (fun s ↦ .intro (hproper · s) (heffect · · s)) hc hs
  | finalizer hproper heffect =>
    exact finalizer_upholds (h := h) (.intro hproper heffect) hc hs
  | timeout hsource limit =>
    refine .look (R := fun _ ↦ True) (fun _ _ ↦ trivial) fun startedAt _ ↦ ?_
    exact .pure (State.typed_push (σ := .of a) hc hs (.timeout limit startedAt) hsource)

/-! ### Frames -/

omit hclose in
/-- What a continuation answers can be held in hand. -/
theorem control_ensures (hp : h.program.Respects G) {x : Action S (Step S)}
    (hx : x.Ensures G Γ fun Γ' s ↦ s.Typed G Γ' a) :
    (x.bind h.program.control).Ensures G Γ fun Γ' c ↦ c.Typed G Γ' (.of a) := by
  refine .bind hx fun Γ' s _ hs ↦ ?_
  cases s with
  | value v => exact .done fun _ _ ↦ hs
  | failure cause => exact .done fun _ _ ↦ hs
  | effect p =>
    refine .bind (Q := fun Γ' n ↦ Plan.Typed G Γ' a (.node n)) ?_ fun _ n _ hn ↦
      .done fun _ hΓ ↦ hn.mono hΓ
    cases p with
    | node n => exact .done fun _ hΓ ↦ Plan.Typed.mono hs hΓ
    | named d =>
      cases hs with
      | named hd => exact hp.effect hd

/-- A continuation that is handed a value. -/
theorem answer_upholds (hp : h.program.Respects G) {next : Value → Action S (Step S)} {v : Value}
    (hnext : (next v).Ensures G Γ fun Γ' s ↦ s.Typed G Γ' a) (hc : st.context.Suits G)
    (hs : Stacked G Γ b (.of a) st.stack) :
    Upholds G Γ (h.resume (.resume next) v st) fun Γ' st' ↦ st'.Typed G Γ' b := by
  refine .bind (h.attempt_ensures hclose (control_ensures hp hnext)) fun Γ' r hΓ hr ↦ ?_
  cases r with
  | ok control => exact .pure ⟨hc, .of a, hr.1 control rfl, hs.mono hΓ⟩
  | error d =>
    exact .pure (State.typed_settled (o := .error (.defect d)) hc (hs.mono hΓ) (hr.2 d rfl))

/-- A frame that is handed what it expects. -/
theorem resume_upholds (hp : h.program.Respects G) {σ τ : Shape} {f : Frame S}
    (hf : f.Typed G Γ σ τ) {v : Value} (hv : σ.Fits G v) (hc : st.context.Suits G)
    (hs : Stacked G Γ b τ st.stack) :
    Upholds G Γ (h.resume f v st) fun Γ' st' ↦ st'.Typed G Γ' b := by
  cases hf with
  | @resume a c k hk =>
    -- the cast that the continuation makes succeeds
    obtain ⟨t, x⟩ := v
    obtain rfl : t = a := hv
    refine answer_upholds hclose hp ?_ hc hs
    rw [Effect.receive_mk]
    exact hk x
  | resolve p =>
    obtain ⟨s, rfl, hservice⟩ := hv
    exact answer_upholds hclose hp (Effect.resolver_ensures hservice) hc hs
  | recover | retry | race => exact .pure (State.typed_settled (o := .ok v) hc hs hv)
  | @restoreContext a _ hcontext => exact .pure ⟨hcontext, .of a, hv, hs⟩
  | parallel hrest hcollected =>
    exact nextParallel_upholds hclose hc hs hrest (List.forall_mem_cons.mpr ⟨hv, hcollected⟩)
  | @closeScope a s parent =>
    refine .bind (hclose Γ s) fun Γ' r hΓ hr ↦ ?_
    rcases r with failures | ⟨⟩
    · exact .pure ⟨hc, .of a, hr failures rfl, hs.mono hΓ⟩
    · exact .pure ⟨hc, .of a, hv, hs.mono hΓ⟩
  | timeout limit startedAt =>
    refine .look (R := fun _ ↦ True) (fun _ _ ↦ trivial) fun elapsed _ ↦ .pure ?_
    split
    · exact State.typed_settled (o := .error (.timeout limit)) hc hs (Regime.owns_timeout limit)
    · exact State.typed_settled (o := .ok v) hc hs hv

/-- What a schedule is consulted about is own, and so is what comes of it. -/
theorem consult_upholds (hsync : h.strategy = .sync) {session : RetrySession S}
    (hschedule : session.schedule.Proper G Γ) {cause : Cause S.Error} (hcause : G.Owns cause) :
    Upholds G Γ (h.consult session cause) fun _ x ↦
      (∀ c, x = .giveUp c → G.Owns c) ∧ ∀ session', x = .again session' →
        session'.source = session.source ∧ session'.schedule = session.schedule := by
  have hstop : ∀ {Γ'} {c : Cause S.Error}, G.Owns c → Upholds G Γ'
      (pure (.giveUp c) : Machine S (RetryVerdict S)) fun _ x ↦
        (∀ c, x = .giveUp c → G.Owns c) ∧ ∀ session', x = .again session' →
          session'.source = session.source ∧ session'.schedule = session.schedule := by
    intro Γ' c hc
    refine .pure ⟨?_, nofun⟩
    rintro _ ⟨⟩
    exact hc
  cases cause with
  | validation | serviceNotFound | timeout | composite | defect => exact hstop hcause
  | fail error =>
    refine .look (R := fun _ ↦ True) (fun _ _ ↦ trivial) fun elapsed _ ↦ ?_
    refine .bind (h.attempt_ensures hclose (hschedule _ _)) fun Γ' x hΓ hx ↦ ?_
    rcases x with d | ⟨_ | delay, jitter⟩
    · exact hstop (Regime.Owns.combine hcause (hx.2 d rfl))
    · exact hstop hcause
    · show Upholds G Γ' (h.perform (h.strategy.sleep delay) >>= fun _ ↦ pure (RetryVerdict.again
        { session with jitter, attempt := session.attempt + 1 })) _
      rw [hsync]
      refine .alter (fun w hw ↦ hw.withClock fun c ↦ c.sleep delay) (.pure ⟨nofun, ?_⟩)
      rintro _ ⟨⟩
      exact ⟨rfl, rfl⟩

/-- A frame on which a failure falls. -/
theorem fall_upholds (hsync : h.strategy = .sync) (hp : h.program.Respects G) {σ τ : Shape}
    {f : Frame S} (hf : f.Typed G Γ σ τ) {cause : Cause S.Error} (hcause : G.Owns cause)
    (hc : st.context.Suits G) (hs : Stacked G Γ b τ st.stack) :
    Upholds G Γ (h.fall f cause st) fun Γ' x ↦ (x.landing st.stack).Typed G Γ' b := by
  have hpass : ∀ {Γ'} {c : Cause S.Error}, Γ <+: Γ' → G.Owns c →
      Upholds G Γ' (pure (.on c st) : Machine S (Fall S)) fun Γ' x ↦
        (x.landing st.stack).Typed G Γ' b :=
    fun hΓ hown ↦ .pure ⟨hc, τ, hown, hs.mono hΓ⟩
  cases hf with
  | resume | resolve | timeout | parallel => exact hpass List.prefix_rfl hcause
  | restoreContext hcontext => exact .pure ⟨hcontext, _, hcause, hs⟩
  | closeScope s parent =>
    refine .bind (Q := fun _ c ↦ G.Owns c) ?_ fun Γ' c hΓ hown ↦ .pure ⟨hc, _, hown, hs.mono hΓ⟩
    refine .bind (hclose Γ s) fun Γ' r _ hr ↦ ?_
    rcases r with failures | ⟨⟩
    · exact .pure (Regime.Owns.combine hcause (hr failures rfl))
    · exact .pure hcause
  | race hrest hfailures =>
    refine .bind (nextRace_upholds hc hs hrest (List.forall_mem_cons.mpr ⟨hcause, hfailures⟩)) ?_
    exact fun Γ' st' _ hst' ↦ .pure hst'
  | recover haccepts hhandler =>
    refine .bind (h.attempt_ensures hclose (haccepts cause hcause)) fun Γ' x hΓ hx ↦ ?_
    rcases x with d | _ | _
    · exact hpass hΓ (Regime.Owns.combine hcause (hx.2 d rfl))
    · exact hpass hΓ hcause
    · refine .bind (h.build_ensures hclose hp ((hhandler cause hcause).mono hΓ)) ?_
      exact fun Γ'' x hΓ' hx ↦ .pure (State.typed_built hc (hs.mono (hΓ.trans hΓ')) hx)
  | @retry a session hsource hschedule =>
    refine .bind (consult_upholds hclose hsync hschedule hcause) fun Γ' x hΓ hx ↦ ?_
    cases x with
    | giveUp c => exact hpass hΓ (hx.1 c rfl)
    | again session' =>
      obtain ⟨hsource', hschedule'⟩ := hx.2 session' rfl
      have hsource'' : Plan.Typed G Γ' a (.node session'.source) := by
        rw [hsource']
        exact hsource.mono hΓ
      have hframe : (Frame.retry session').Typed G Γ' (.of a) (.of a) :=
        .retry hsource'' (by rw [hschedule']; exact hschedule.mono hΓ)
      exact .pure (State.typed_push (σ := .of a) hc (hs.mono hΓ) hframe hsource'')

end Host

/-! ### Moves -/

namespace Interpreter

variable {G : Regime S} {Γ : List Ty} {b : Ty} {it : Interpreter S} {close : Closer S}

/-- **A move keeps states typed.** -/
theorem move_upholds (hr : it.registry = .standard) (hsync : it.strategy = .sync)
    (hp : it.program.Respects G) (hclose : Closer.Upholds G close) {st : State S}
    (hst : st.Typed G Γ b) : Upholds G Γ (it.move close st) fun Γ' st' ↦ st'.Typed G Γ' b := by
  obtain ⟨context, stack, scope, control, budget⟩ := st
  obtain ⟨hc, σ, hcontrol, hs⟩ := hst
  have hclose : Closer.Upholds G (it.host close).close := hclose
  cases control with
  | pending => exact hcontrol.elim
  | effect n =>
    show Upholds G Γ (it.dispatch close n ⟨context, stack, scope, .pending, budget⟩) _
    rw [dispatch, hr, Registry.dispatch_standard]
    have hhandler : Upholds G Γ
        (Handler.standard n.tag (it.host close) n ⟨context, stack, scope, .pending, budget⟩)
        fun Γ' st' ↦ st'.Typed G Γ' b := by
      cases σ with
      | of a => exact Host.standard_upholds hclose hsync hp hcontrol hc hs
      | handle p =>
        obtain ⟨k, rfl, rfl⟩ := hcontrol
        simp only [Node.tag, Handler.standard, Handler.onService]
        cases hfind : context.find? k with
        | none => exact .pure ⟨hc, .handle k.type, Regime.owns_serviceNotFound k, hs⟩
        | some s => exact .pure ⟨hc, .handle k.type, ⟨s, rfl, hc.find? hfind⟩, hs⟩
    refine .bind hhandler fun Γ' next _ hnext ↦ .pure ?_
    -- the handler has put something into the hand, so that the machine does not stall
    have hdecided : next.control.isPending = false := by
      obtain ⟨-, σ', hcontrol', -⟩ := hnext
      cases hn : next.control <;> rw [hn] at hcontrol' <;> first | rfl | exact hcontrol'.elim
    rw [hdecided]
    exact hnext
  | value v =>
    cases hs with
    | nil => exact .pure ⟨hc, _, hcontrol, .nil⟩
    | cons hf hfs => exact Host.resume_upholds hclose hp hf hcontrol hc hfs
  | failure cause =>
    cases hs with
    | nil => exact .pure ⟨hc, _, hcontrol, .nil⟩
    | cons hf hfs =>
      refine .bind (Host.fall_upholds hclose hsync hp hf hcontrol hc hfs) ?_
      exact fun Γ' x _ hx ↦ .pure hx

end Interpreter

end EffectMachine
