import EffectMachine.Proofs.Along
import EffectMachine.Proofs.Moves

/-!
# Disciplined moves

What a move preserves depends on the closures that it runs, and the closures depend on the effects
that they come from. A `Discipline` ties a relation between worlds to a property of effects: running
any closure of an effect with the property keeps to the relation and leads to effects with the
property again (`Node.Obeys`). Frames need no property of their own: each of them comes from an
effect (`Frame.From`).

Under a discipline every move that neither enters nor leaves a region keeps to the relation, and
the next state is made of effects with the property again (`Interpreter.move_along`). The two
moves that do are equations (`Interpreter.move_region`, `Interpreter.move_closeScope`).
-/

namespace EffectMachine

variable {S : Signature} {α β : Type}

open Machine (Along)

/-! ### States made of effects with a property -/

/-- An effect that was built has the property. -/
def Built (N : Node S → Prop) (x : Except Defect (Node S)) : Prop := ∀ n, x = .ok n → N n

/-- An effect in hand has the property. -/
def Control.Holds (N : Node S → Prop) (c : Control S) : Prop := ∀ n, c = .effect n → N n

/-- A branch that waits for its turn has the property. -/
def ForkState.Holds (N : Node S → Prop) (f : ForkState S) : Prop :=
  ∀ job, f = .deferred job → N job.node

/-- The frame was pushed on behalf of an effect with the property. -/
def Frame.From (N : Node S → Prop) : Frame S → Prop
  | .resume next => ∃ source, N (.bind source next)
  | .recover accepts handler => ∃ source, N (.recover source accepts handler)
  | .retry session => N (.retry session.source session.schedule)
  | .parallel rest _ collect =>
    (∀ f ∈ rest, f.state.Holds N) ∧ ∃ branches, N (.parallel branches collect)
  | .race rest _ => (∀ f ∈ rest, f.state.Holds N) ∧ ∃ branches, N (.race branches)
  | .restoreContext _ | .closeScope _ _ | .timeout _ _ => True

/-- The effect in hand, if any, and those behind the frames have the property. -/
structure State.Sound (N : Node S → Prop) (st : State S) : Prop where
  control : st.control.Holds N
  stack : ∀ f ∈ st.stack, f.From N

/-- A sound state that counts on the same budget and is in the same region. -/
structure State.Follows (N : Node S → Prop) (st st' : State S) : Prop extends st'.Sound N where
  budget : st'.budget = st.budget
  scope : st'.scope = st.scope
  regions : regions st'.stack = regions st.stack

namespace State

variable {N : Node S → Prop} {st st₀ : State S} {f : Frame S}

/-- The same scopes are open. -/
theorem Follows.scopes {st' : State S} (h : st.Follows N st') :
    openScopes st'.stack = openScopes st.stack :=
  congrArg (List.map Prod.fst) h.regions

/-- Holding something else in hand. -/
theorem follows_holding (h : ∀ f ∈ st.stack, f.From N) {c : Control S} (hc : c.Holds N) :
    st.Follows N (st.holding c) where
  control := hc
  stack := h
  budget := rfl
  scope := rfl
  regions := rfl

theorem follows_settled (h : ∀ f ∈ st.stack, f.From N) (o : Outcome S.Error Value) :
    st.Follows N (st.holding (.ofOutcome o)) :=
  follows_holding h fun n hn ↦ by cases o <;> cases hn

theorem follows_built (h : ∀ f ∈ st.stack, f.From N) {x : Except Defect (Node S)}
    (hx : Built N x) : st.Follows N (st.continueBuilt x) := by
  cases x with
  | ok n =>
    refine follows_holding h fun m hm ↦ ?_
    cases hm
    exact hx n rfl
  | error d => exact follows_settled h (.error (.defect d))

/-- Pushing a frame and going on with an effect, in whatever context. -/
theorem follows_push (h : ∀ f ∈ st.stack, f.From N) (hf : f.From N)
    (hs : EffectMachine.regions (f :: st.stack) = EffectMachine.regions st.stack) {n : Node S}
    (hn : N n) (context : Context) : st.Follows N ({ st.push f with context }.continueWith n) where
  control := by
    rintro _ ⟨⟩
    exact hn
  stack := List.forall_mem_cons.2 ⟨hf, h⟩
  budget := rfl
  scope := rfl
  regions := hs

end State

/-! ### Disciplines -/

section Guarded

variable {R : World S → World S → Prop} {E : Prop} {h : Host S} {N : Node S → Prop}

theorem Machine.Along.attempt {a : Action S α} {Q : α → Prop} (ha : Along R True (h.perform a) Q) :
    Along R E (h.attempt a) fun x ↦ ∀ b, x = .ok b → Q b :=
  ha.guard

theorem Machine.Along.build {a : Action S (Plan S)}
    (ha : Along R True (h.perform (h.program.building a)) N) : Along R E (h.build a) (Built N) :=
  ha.guard

end Guarded

/-- Running the closures of an effect keeps to a relation and leads to effects with a property. -/
def Node.Obeys (R : World S → World S → Prop) (h : Host S) (N : Node S → Prop) : Node S → Prop
  | .pure make => Along R True (h.perform make) fun _ ↦ True
  | .suspend thunk => Along R True (h.perform (h.program.building thunk)) N
  | .bind source next => N source ∧
    ∀ v, Along R True (h.perform (h.program.continuing (next v))) (Control.Holds N)
  | .provide layer inner => N inner ∧ ∀ c, Along R True (h.perform (layer.build c)) fun _ ↦ True
  | .async start => ∀ s, Along R True (h.perform (start s)) fun _ ↦ True
  | .recover source accepts handler => N source ∧ ∀ c,
    Along R True (h.perform (accepts c)) (fun _ ↦ True) ∧
      Along R True (h.perform (h.program.building (handler c))) N
  | .parallel branches collect => (∀ n ∈ branches, N n) ∧
    ∀ vs, Along R True (h.perform (collect vs)) fun _ ↦ True
  | .race branches => ∀ n ∈ branches, N n
  | .retry source schedule => N source ∧
    ∀ jitter f, Along R True (h.perform (schedule.decideFrom jitter f)) fun _ ↦ True
  | .region body => ∀ s, Along R True (h.perform (h.program.building (body s))) N
  | .finalizer release => Along R True (h.perform (h.program.building release)) N
  | .timeout source _ => N source
  | .fail _ | .service _ | .sleep _ => True

/-- Closures of effects with a property keep to a relation and lead to effects with the property.
Moves panic, by way of the strategy, on a condition only. What is awaited is a slot that the move
itself has made, so the relation need not hold from one end of the awaiting to the other, only from
the beginning of the visit to its end. -/
structure Discipline (R : World S → World S → Prop) (E : Prop) (h : Host S)
    (N : Node S → Prop) : Prop where
  drift : Drift R
  obeys : ∀ n, N n → n.Obeys R h N
  fork : ∀ job : Job S, N job.node →
    Along R E (h.perform (h.strategy.fork job)) (ForkState.Holds N)
  join : ∀ id v, Along R E (h.perform (h.strategy.join id v)) fun _ ↦ True
  await : ∀ w, Along (fun v v' ↦ R w.newSlot.2 v → R w v') E
    (h.perform (h.strategy.await w.newSlot.1)) fun _ ↦ True
  sleep : ∀ d, Along R E (h.perform (h.strategy.sleep d)) fun _ ↦ True

/-- Awaiting any slot at any time keeps to the relation. -/
theorem Drift.await {R : World S → World S → Prop} (hR : Drift R) {E : Prop} {h : Host S}
    (hawait : ∀ slot, Along R E (h.perform (h.strategy.await slot)) fun _ ↦ True) (w : World S) :
    Along (fun v v' ↦ R w.newSlot.2 v → R w v') E (h.perform (h.strategy.await w.newSlot.1))
      fun _ ↦ True :=
  (hawait _).mono (fun h h₀ ↦ hR.trans (hR.newSlot w) (hR.trans h₀ h)) id fun _ ↦ id

namespace Discipline

variable {R : World S → World S → Prop} {E : Prop} {h : Host S} {N : Node S → Prop}
  (D : Discipline R E h N) {st : State S}
include D

/-! ### Branches -/

theorem forkAll (context : Context) {ns : List (Node S)} (hns : ∀ n ∈ ns, N n) :
    Along R E (h.forkAll context ns) fun fs ↦ ∀ f ∈ fs, f.state.Holds N := by
  induction ns with
  | nil => exact .pure D.drift nofun
  | cons n ns ih =>
    obtain ⟨hn, hns⟩ := List.forall_mem_cons.1 hns
    have hfork : Along R E (h.fork ⟨n, context⟩) fun f ↦ f.state.Holds N :=
      .bind D.drift (D.fork ⟨n, context⟩ hn) fun s hs ↦
        .bind D.drift (.modifyGet fun w ↦ D.drift.forks w _) fun _ _ ↦ .pure D.drift hs
    exact .bind D.drift hfork fun f hf ↦ .bind D.drift (ih hns) fun fs hfs ↦
      .pure D.drift (List.forall_mem_cons.2 ⟨hf, hfs⟩)

theorem turn {f : Fork S} (hf : f.state.Holds N) :
    Along R E (h.turn f) fun t ↦ ∀ job, t = .run job → N job.node := by
  obtain ⟨id, s⟩ := f
  cases s with
  | deferred job =>
    refine .pure D.drift ?_
    rintro _ ⟨⟩
    exact hf job rfl
  | settled o => exact .pure D.drift nofun
  | external v => exact .bind D.drift (D.join id v) fun o _ ↦ .pure D.drift nofun

theorem nextParallel {branches : List (Node S)}
    {collect : List Value → Action S (Except Defect Value)} (hn : N (.parallel branches collect))
    {rest : List (Fork S)} (hrest : ∀ f ∈ rest, f.state.Holds N) (collected : List Value)
    (hst : ∀ f ∈ st.stack, f.From N) :
    Along R E (h.nextParallel collect rest collected st) (st.Follows N) := by
  induction rest generalizing collected with
  | nil =>
    refine .bind D.drift (.attempt ((D.obeys _ hn).2 _)) fun x _ ↦ ?_
    rcases x with d | d | v
    · exact .pure D.drift (State.follows_settled hst (.error (.defect d)))
    · exact .pure D.drift (State.follows_settled hst (.error (.defect d)))
    · exact .pure D.drift (State.follows_settled hst (.ok v))
  | cons f rest ih =>
    obtain ⟨hf, hrest⟩ := List.forall_mem_cons.1 hrest
    refine .bind D.drift (D.turn hf) fun t ht ↦ ?_
    rcases t with job | c | v
    · exact .pure D.drift (State.follows_push (f := .parallel rest collected collect) hst
        ⟨hrest, branches, hn⟩ rfl (ht job rfl) job.context)
    · exact .pure D.drift (State.follows_settled hst (.error c))
    · exact ih hrest (v :: collected)

theorem nextRace {branches : List (Node S)} (hn : N (.race branches))
    {rest : List (Fork S)} (hrest : ∀ f ∈ rest, f.state.Holds N) (failures : List (Cause S.Error))
    (hst : ∀ f ∈ st.stack, f.From N) :
    Along R E (h.nextRace rest failures st) (st.Follows N) := by
  induction rest generalizing failures with
  | nil => exact .pure D.drift (State.follows_settled hst (.error (.composite failures.reverse)))
  | cons f rest ih =>
    obtain ⟨hf, hrest⟩ := List.forall_mem_cons.1 hrest
    refine .bind D.drift (D.turn hf) fun t ht ↦ ?_
    rcases t with job | c | v
    · exact .pure D.drift (State.follows_push (f := .race rest failures) hst ⟨hrest, branches, hn⟩
        rfl (ht job rfl) job.context)
    · exact ih hrest (c :: failures)
    · exact .pure D.drift (State.follows_settled hst (.ok v))

/-! ### Handlers -/

/-- A visit of an asynchronous effect. -/
theorem visit {start : SlotId → Action S Unit} (hn : N (.async start))
    (hst : ∀ f ∈ st.stack, f.From N) :
    Along R E (Handler.onAsync h (.async start) st) (st.Follows N) := by
  have hR := D.drift
  intro w x w' heq hx
  change (Machine.modifyGet World.newSlot >>= _) w = _ at heq
  rw [Machine.bind_ok (Machine.modifyGet_apply World.newSlot w)] at heq
  have hstart := (D.obeys _ hn w.newSlot.1).attempt (E := False)
  rcases Machine.bind_eq heq with ⟨r, v, hr, heq⟩ | ⟨e, he, rfl⟩
  · obtain ⟨hv, -, -⟩ := hstart hr nofun
    rcases r with d | ⟨⟩
    · cases heq
      refine ⟨hR.trans (hR.newSlot w) hv, ?_, nofun⟩
      rintro _ ⟨⟩
      exact State.follows_settled hst (.error (.defect d))
    · rcases Machine.bind_eq heq with ⟨o, v', ho, heq⟩ | ⟨e, he, rfl⟩
      · cases heq
        refine ⟨(D.await w ho nofun).1 hv, ?_, nofun⟩
        rintro _ ⟨⟩
        exact State.follows_settled hst o
      · obtain ⟨hawait, -, hpanic⟩ := D.await w he (Escape.ne_exhausted hx)
        exact ⟨hawait hv, nofun, fun p hp ↦ hpanic p (by rw [Except.error.inj hp])⟩
  · obtain ⟨-, -, hpanic⟩ := hstart he (Escape.ne_exhausted hx)
    rcases e with p | _
    · exact (hpanic p rfl).elim
    · exact absurd rfl hx

/-- What the handler of any kind of node but regions and finalizers does. -/
theorem standard (st : State S) {node : Node S} (hn : N node)
    (hregion : ∀ body, node ≠ .region body)
    (hfinalizer : ∀ release, node ≠ .finalizer release)
    (hst : ∀ f ∈ st.stack, f.From N) :
    Along R E (Handler.standard node.tag h node st) (st.Follows N) := by
  have hR := D.drift
  have hobeys := D.obeys node hn
  cases node with
  | region body => exact absurd rfl (hregion body)
  | finalizer release => exact absurd rfl (hfinalizer release)
  | pure make =>
    refine .bind hR (.attempt hobeys) fun x _ ↦ ?_
    cases x with
    | ok v => exact .pure hR (State.follows_settled hst (.ok v))
    | error d => exact .pure hR (State.follows_settled hst (.error (.defect d)))
  | fail cause => exact .pure hR (State.follows_settled hst (.error cause))
  | suspend thunk =>
    exact .bind hR (.build hobeys) fun x hx ↦ .pure hR (State.follows_built hst hx)
  | bind source next =>
    exact .pure hR (State.follows_push (f := .resume next) hst ⟨source, hn⟩ rfl hobeys.1 st.context)
  | service key =>
    simp only [Node.tag, Handler.standard, Handler.onService]
    cases st.context.find? key with
    | some s => exact .pure hR (State.follows_settled hst (.ok ⟨.service, s⟩))
    | none => exact .pure hR (State.follows_settled hst (.error (.serviceNotFound key)))
  | provide layer inner =>
    refine .bind hR (.attempt (hobeys.2 _)) fun x _ ↦ ?_
    rcases x with d | missing | context
    · exact .pure hR (State.follows_settled hst (.error (.defect d)))
    · exact .pure hR (State.follows_settled hst (.error (.serviceNotFound missing.key)))
    · exact .pure hR (State.follows_push (f := .restoreContext st.context) hst trivial rfl hobeys.1
        context)
  | sleep d =>
    exact .bind hR (D.sleep d) fun _ _ ↦ .pure hR (State.follows_settled hst (.ok .unit))
  | async start => exact D.visit hn hst
  | recover source accepts handler =>
    exact .pure hR (State.follows_push (f := .recover accepts handler) hst ⟨source, hn⟩ rfl hobeys.1
      st.context)
  | parallel branches collect =>
    exact .bind hR (D.forkAll st.context hobeys.1) fun fs hfs ↦ D.nextParallel hn hfs [] hst
  | race branches =>
    cases branches with
    | nil => exact .pure hR (State.follows_settled hst (.error (.defect .emptyRace)))
    | cons n ns =>
      exact .bind hR (D.forkAll st.context hobeys) fun fs hfs ↦ D.nextRace hn hfs [] hst
  | retry source schedule =>
    refine .bind hR (.gets hR _) fun startedAt _ ↦ ?_
    exact .pure hR (State.follows_push
      (f := .retry ⟨source, schedule, schedule.source, 0, startedAt⟩) hst hn rfl hobeys.1
      st.context)
  | timeout source limit =>
    refine .bind hR (.gets hR _) fun startedAt _ ↦ ?_
    exact .pure hR (State.follows_push (f := .timeout limit startedAt) hst trivial rfl hobeys
      st.context)

/-! ### Frames -/

/-- Handing a value to any frame that closes no scope. -/
theorem resume (st : State S) {f : Frame S} (hf : f.From N)
    (hclose : ∀ s parent, f ≠ .closeScope s parent) (v : Value)
    (hst : ∀ f ∈ st.stack, f.From N) : Along R E (h.resume f v st) (st.Follows N) := by
  have hR := D.drift
  cases f with
  | closeScope s parent => exact absurd rfl (hclose s parent)
  | recover | retry | race => exact .pure hR (State.follows_settled hst (.ok v))
  | resume next =>
    obtain ⟨source, hn⟩ := hf
    refine .bind hR (.attempt ((D.obeys _ hn).2 v)) fun x hx ↦ ?_
    cases x with
    | ok control => exact .pure hR (State.follows_holding hst (hx control rfl))
    | error d => exact .pure hR (State.follows_settled hst (.error (.defect d)))
  | parallel rest collected collect =>
    obtain ⟨hrest, branches, hn⟩ := hf
    exact D.nextParallel hn hrest (v :: collected) hst
  | restoreContext context =>
    exact .pure hR ⟨⟨nofun, hst⟩, rfl, rfl, rfl⟩
  | timeout limit startedAt =>
    refine .bind hR (.gets hR _) fun elapsed _ ↦ .pure hR ?_
    split
    · exact State.follows_settled hst (.error (.timeout limit))
    · exact State.follows_settled hst (.ok v)

theorem consult {session : RetrySession S} (hs : N (.retry session.source session.schedule))
    (cause : Cause S.Error) :
    Along R E (h.consult session cause) fun x ↦
      ∀ session', x = .again session' →
        session'.source = session.source ∧ session'.schedule = session.schedule := by
  have hR := D.drift
  have hstop : ∀ cause, Along R E (pure (.giveUp cause) : Machine S (RetryVerdict S))
      fun x ↦ ∀ session', x = .again session' →
        session'.source = session.source ∧ session'.schedule = session.schedule :=
    fun _ ↦ .pure hR nofun
  cases cause with
  | fail error =>
    refine .bind hR (.gets hR _) fun elapsed _ ↦ ?_
    refine .bind hR (.attempt ((D.obeys _ hs).2 _ _)) fun x _ ↦ ?_
    rcases x with d | ⟨_ | delay, jitter⟩
    · exact hstop _
    · exact hstop _
    · refine .bind hR (D.sleep delay) fun _ _ ↦ .pure hR ?_
      rintro _ ⟨⟩
      exact ⟨rfl, rfl⟩
  | validation | serviceNotFound | timeout | composite | defect => exact hstop _

/-- A failure that falls on any frame that closes no scope. -/
theorem fall (st : State S) {f : Frame S} (hf : f.From N)
    (hclose : ∀ s parent, f ≠ .closeScope s parent) (cause : Cause S.Error)
    (hst : ∀ f ∈ st.stack, f.From N) :
    Along R E (h.fall f cause st) fun x ↦ st.Follows N (x.landing st.stack) := by
  have hR := D.drift
  have hpass : ∀ cause, Along R E (pure (.on cause st) : Machine S (Fall S))
      fun x ↦ st.Follows N (x.landing st.stack) :=
    fun cause ↦ .pure hR (State.follows_settled hst (.error cause))
  cases f with
  | closeScope s parent => exact absurd rfl (hclose s parent)
  | resume | timeout | parallel => exact hpass cause
  | restoreContext context => exact .pure hR ⟨⟨nofun, hst⟩, rfl, rfl, rfl⟩
  | race rest failures =>
    obtain ⟨hrest, branches, hn⟩ := hf
    exact .bind hR (D.nextRace hn hrest (cause :: failures) hst) fun st' h' ↦ .pure hR h'
  | recover accepts handler =>
    obtain ⟨source, hn⟩ := hf
    have hobeys := (D.obeys _ hn).2 cause
    refine .bind hR (.attempt hobeys.1) fun x _ ↦ ?_
    rcases x with d | _ | _
    · exact hpass _
    · exact hpass _
    · exact .bind hR (.build hobeys.2) fun x hx ↦ .pure hR (State.follows_built hst hx)
  | retry session =>
    refine .bind hR (D.consult hf cause) fun x hx ↦ ?_
    cases x with
    | giveUp cause => exact hpass cause
    | again session' =>
      obtain ⟨hsource, hschedule⟩ := hx session' rfl
      have hf' : (Frame.retry session').From N := by
        rw [Frame.From, hsource, hschedule]
        exact hf
      refine .pure hR (State.follows_push (f := .retry session') hst hf' rfl ?_ st.context)
      rw [hsource]
      exact (D.obeys _ hf).1

end Discipline

/-! ### Effects of any kind -/

theorem Frame.from_any (f : Frame S) : f.From fun _ ↦ True := by
  cases f with
  | resume | recover => exact ⟨.unit, trivial⟩
  | parallel | race => exact ⟨fun _ _ _ _ ↦ trivial, [], trivial⟩
  | retry | restoreContext | closeScope | timeout => trivial

theorem State.sound_any (st : State S) : st.Sound fun _ ↦ True :=
  ⟨fun _ _ ↦ trivial, fun f _ ↦ f.from_any⟩

/-- A closure keeps to the relation and ends in what it may yield. -/
def Host.Keeps (R : World S → World S → Prop) (h : Host S) ⦃α : Type⦄ (a : Action S α) : Prop :=
  Along R True (h.perform a) a.Yields

/-- Running the closures of an effect leads to the children of the effect. -/
theorem Node.obeys_of_children {R : World S → World S → Prop} {h : Host S} {N : Node S → Prop}
    {n : Node S} (hchild : ∀ m, h.program.Child n m → N m)
    (hn : h.program.Closures (h.Keeps R) n) : n.Obeys R h N := by
  cases n with
  | fail | service | sleep => trivial
  | pure make => exact hn.post fun _ _ ↦ trivial
  | suspend thunk => exact hn.post hchild
  | bind source next =>
    refine ⟨hchild _ (.inl rfl), fun v ↦ (hn v).post ?_⟩
    rintro _ hc m rfl
    exact hchild m (.inr ⟨v, hc⟩)
  | provide layer inner => exact ⟨hchild _ rfl, fun c ↦ (hn c).post fun _ _ ↦ trivial⟩
  | async start => exact fun s ↦ (hn s).post fun _ _ ↦ trivial
  | recover source accepts handler =>
    exact ⟨hchild _ (.inl rfl), fun c ↦
      ⟨(hn c).1.post fun _ _ ↦ trivial, (hn c).2.post fun m hm ↦ hchild m (.inr ⟨c, hm⟩)⟩⟩
  | parallel branches collect => exact ⟨hchild, fun vs ↦ (hn vs).post fun _ _ ↦ trivial⟩
  | race branches => exact hchild
  | retry source schedule =>
    exact ⟨hchild _ rfl, fun jitter f ↦ (hn jitter f).post fun _ _ ↦ trivial⟩
  | region body => exact fun s ↦ (hn s).post fun m hm ↦ hchild m ⟨s, hm⟩
  | finalizer release => exact hn.post hchild
  | timeout source limit => exact hchild _ rfl

section

variable {R : World S → World S → Prop} (hR : Drift R) {h : Host S}
  (hclose : ∀ s, Along R False (h.close s) fun _ ↦ True)
  (htake : ∀ w s, R w (w.takeOutcome s).2)
include hR hclose htake

/-- Any closure keeps to a drift if closing scopes does, and taking outcomes out of slots. -/
theorem Host.keeps (a : Action S α) : h.Keeps R a :=
  (h.perform_along hR a (.inr hclose) (.inr htake)).panics fun _ ↦ trivial

/-- Nothing need be known of effects for a relation that closing scopes keeps to. -/
theorem Discipline.any : Discipline R True h fun _ ↦ True := by
  have hperform : ∀ {β : Type} (a : Action S β), Along R True (h.perform a) fun _ ↦ True :=
    fun a ↦ (Host.keeps hR hclose htake a).post fun _ _ ↦ trivial
  exact {
    drift := hR
    obeys n _ := Node.obeys_of_children (fun _ _ ↦ trivial)
      (Program.closures_of_forall (fun _ ↦ Host.keeps hR hclose htake) n)
    fork job _ := (hperform _).post fun _ _ _ _ ↦ trivial
    join id v := hperform _
    await := hR.await fun slot ↦ hperform _
    sleep d := hperform _ }

/-- A property that effects pass on to their children, for a relation that closing scopes keeps
to. -/
theorem Discipline.inherited (hσ : h.strategy.KeepsJobs) {N : Node S → Prop}
    (hN : ∀ n m, N n → h.program.Child n m → N m) : Discipline R True h N := by
  have D := Discipline.any hR hclose htake
  exact {
    drift := hR
    obeys n hn := Node.obeys_of_children (fun m ↦ hN n m hn)
      (Program.closures_of_forall (fun _ ↦ Host.keeps hR hclose htake) n)
    fork job hjob := by
      refine (Host.keeps hR hclose htake (h.strategy.fork job)).post fun f hf job' hjob' ↦ ?_
      rw [hσ job job' (hjob' ▸ hf)]
      exact hjob
    join := D.join
    await := D.await
    sleep := D.sleep }

end

/-! ### Moves -/

/-- The next move enters a region, leaves one or registers a finalizer. -/
def State.Scoping (st : State S) : Prop :=
  match st.control, st.stack with
  | .effect (.region _), _ | .effect (.finalizer _), _ => True
  | .value _, .closeScope _ _ :: _ | .failure _, .closeScope _ _ :: _ => True
  | _, _ => False

/-- A state that enters a region or registers a finalizer holds it; one that leaves a region holds
the outcome of its body. -/
theorem State.Scoping.elim {st : State S} (h : st.Scoping) :
    (∃ body, st.control = .effect (.region body)) ∨
      (∃ release, st.control = .effect (.finalizer release)) ∨
        ∃ s parent rest o, st.stack = .closeScope s parent :: rest ∧ st.control = .ofOutcome o := by
  unfold Scoping at h
  split at h
  · exact .inl ⟨_, by assumption⟩
  · exact .inr (.inl ⟨_, by assumption⟩)
  · exact .inr (.inr ⟨_, _, _, .ok _, by assumption, by assumption⟩)
  · exact .inr (.inr ⟨_, _, _, .error _, by assumption, by assumption⟩)
  · exact h.elim

namespace Interpreter

variable {it : Interpreter S} {close : Closer S}

/-- A move that has nothing to do with scopes keeps to the relation of a discipline. -/
theorem move_along {R : World S → World S → Prop} {E : Prop} {N : Node S → Prop}
    (D : Discipline R E (it.host close) N) (hr : it.registry = .standard) {st : State S}
    (hst : st.Sound N) (hscoping : ¬st.Scoping) :
    Along R E (it.move close st) (st.Follows N) := by
  obtain ⟨context, stack, scope, control, b⟩ := st
  obtain ⟨hcontrol, hstack⟩ := hst
  have hR := D.drift
  cases control with
  | effect node =>
    have hregion : ∀ body, node ≠ .region body := by
      rintro body rfl
      exact hscoping trivial
    have hfinalizer : ∀ release, node ≠ .finalizer release := by
      rintro release rfl
      exact hscoping trivial
    change Along R E (it.dispatch close node ⟨context, stack, scope, .pending, b⟩) _
    rw [dispatch, hr, Registry.dispatch_standard]
    refine .bind hR (D.standard ⟨context, stack, scope, .pending, b⟩ (hcontrol node rfl)
      hregion hfinalizer hstack) fun st' hst' ↦ .pure hR ?_
    have hfollows : State.Follows N ⟨context, stack, scope, .effect node, b⟩ st' :=
      ⟨hst'.toSound, hst'.budget, hst'.scope, hst'.regions⟩
    split
    · exact ⟨⟨by rintro _ ⟨⟩, hfollows.stack⟩, hfollows.budget, hfollows.scope, hfollows.regions⟩
    · exact hfollows
  | pending => exact .pure hR ⟨⟨by rintro _ ⟨⟩, hstack⟩, rfl, rfl, rfl⟩
  | value v =>
    cases stack with
    | nil => exact .pure hR ⟨⟨hcontrol, hstack⟩, rfl, rfl, rfl⟩
    | cons f rest =>
      obtain ⟨hf, hrest⟩ := List.forall_mem_cons.1 hstack
      have hclose : ∀ s parent, f ≠ .closeScope s parent := by
        rintro s parent rfl
        exact hscoping trivial
      have hregions := regions_cons_of_ne hclose rest
      exact (D.resume ⟨context, rest, scope, .pending, b⟩ hf hclose v hrest).post
        fun st' hst' ↦
          ⟨hst'.toSound, hst'.budget, hst'.scope, hst'.regions.trans hregions.symm⟩
  | failure cause =>
    cases stack with
    | nil => exact .pure hR ⟨⟨hcontrol, hstack⟩, rfl, rfl, rfl⟩
    | cons f rest =>
      obtain ⟨hf, hrest⟩ := List.forall_mem_cons.1 hstack
      have hclose : ∀ s parent, f ≠ .closeScope s parent := by
        rintro s parent rfl
        exact hscoping trivial
      have hregions := regions_cons_of_ne hclose rest
      exact .bind hR (D.fall ⟨context, rest, scope, .pending, b⟩ hf hclose cause hrest)
        fun x hx ↦ .pure hR
          ⟨hx.toSound, hx.budget, hx.scope, hx.regions.trans hregions.symm⟩

/-- Entering a region opens a scope and builds the body. -/
theorem move_region (hr : it.registry = .standard) (context : Context) (stack : List (Frame S))
    (scope : ScopeId) (b : BudgetId) (body : ScopeId → Action S (Plan S)) :
    it.move close ⟨context, stack, scope, .effect (.region body), b⟩ =
      .modifyGet World.enterScope >>= fun child ↦ (it.host close).build (body child) >>= fun x ↦
        pure (State.continueBuilt ⟨context, .closeScope child scope :: stack, child, .pending, b⟩
          x) := by
  change it.dispatch close (.region body) ⟨context, stack, scope, .pending, b⟩ = _
  rw [dispatch, hr, Registry.dispatch_standard]
  simp only [Node.tag, Handler.standard, Handler.onRegion, bind_assoc, pure_bind]
  refine bind_congr fun child ↦ bind_congr fun x ↦ ?_
  cases x <;> rfl

/-- Registering a finalizer offers it to the scope in force. -/
theorem move_finalizer (hr : it.registry = .standard) (context : Context) (stack : List (Frame S))
    (scope : ScopeId) (b : BudgetId) (release : Action S (Plan S)) :
    it.move close ⟨context, stack, scope, .effect (.finalizer release), b⟩ =
      .modifyGet (fun w ↦ w.addFinalizer scope (.release release context b)) >>= fun x ↦
        pure ⟨context, stack, scope, .ofOutcome ((x.map fun _ ↦ Value.unit).mapError .defect),
          b⟩ := by
  change it.dispatch close (.finalizer release) ⟨context, stack, scope, .pending, b⟩ = _
  rw [dispatch, hr, Registry.dispatch_standard]
  simp only [Node.tag, Handler.standard, Handler.onFinalizer, bind_assoc]
  refine bind_congr fun x ↦ ?_
  rcases x with d | ⟨⟩ <;> rfl

/-- Leaving a region closes its scope, whatever the outcome. -/
theorem move_closeScope (context : Context) (stack : List (Frame S)) (s parent scope : ScopeId)
    (o : Outcome S.Error Value) (b : BudgetId) :
    it.move close ⟨context, .closeScope s parent :: stack, scope, .ofOutcome o, b⟩ =
      close s >>= fun r ↦ pure ⟨context, stack, parent, .ofOutcome (o.merge r), b⟩ := by
  cases o with
  | ok v =>
    refine bind_congr fun r ↦ ?_
    rcases r with c | ⟨⟩ <;> rfl
  | error cause =>
    change ((it.host close).fall (.closeScope s parent) cause ⟨context, stack, scope, .pending, b⟩
      >>= fun x ↦ pure (x.landing stack)) = _
    simp only [Host.fall, Host.closing, bind_assoc, host]
    refine bind_congr fun r ↦ ?_
    rcases r with c | ⟨⟩ <;> rfl

/-- What a move can do under a discipline. -/
inductive Moved (R : World S → World S → Prop) (E : Prop) (N : Node S → Prop) (close : Closer S)
    (st : State S) (w : World S) : Except Escape (State S) → World S → Prop where
  /-- It keeps to the relation and stays in the region. -/
  | inside {x : Except Escape (State S)} {w' : World S} (hscoping : ¬st.Scoping) (hrel : R w w')
      (hok : ∀ st', x = .ok st' → st.Follows N st') (hpanic : ∀ p, x = .error (.panic p) → E) :
      Moved R E N close st w x w'
  /-- It offers a release effect to the scope in force. -/
  | registered {release : Action S (Plan S)} {st' : State S}
      (hc : st.control = .effect (.finalizer release)) (hst' : st.Follows N st') :
      Moved R E N close st w (.ok st')
        (w.addFinalizer st.scope (.release release st.context st.budget)).2
  /-- It opens a scope and keeps to the relation from there. -/
  | entered {body : ScopeId → Action S (Plan S)} {st' : State S} {w' : World S}
      (hc : st.control = .effect (.region body)) (hrel : R w.enterScope.2 w') (hst' : st'.Sound N)
      (hbudget : st'.budget = st.budget) (hscope : st'.scope = w.enterScope.1)
      (hregions : regions st'.stack = (w.enterScope.1, st.scope) :: regions st.stack) :
      Moved R E N close st w (.ok st') w'
  /-- It closes the newest scope. -/
  | left {s parent : ScopeId} {rest : List (Frame S)} {o : Outcome S.Error Value}
      {x : Except Escape (State S)} {y : Except Escape (Outcome S.Error Unit)} {w' : World S}
      (hs : st.stack = .closeScope s parent :: rest) (hc : st.control = .ofOutcome o)
      (hy : close s w = (y, w'))
      (hx : x = y.map fun r ↦ ⟨st.context, rest, parent, .ofOutcome (o.merge r), st.budget⟩)
      (hst' : ∀ st', x = .ok st' → st'.Sound N) : Moved R E N close st w x w'

/-- **What a move can do.** -/
theorem move_cases {R : World S → World S → Prop} {E : Prop} {N : Node S → Prop}
    (D : Discipline R E (it.host close) N) (hr : it.registry = .standard) {st : State S}
    (hst : st.Sound N) {w w' : World S} {x : Except Escape (State S)}
    (heq : it.move close st w = (x, w')) (hx : x ≠ .error .exhausted) :
    Moved R E N close st w x w' := by
  by_cases hscoping : st.Scoping
  · obtain ⟨context, stack, scope, control, b⟩ := st
    rcases hscoping.elim with ⟨body, ⟨⟩⟩ | ⟨release, ⟨⟩⟩ | ⟨s, parent, rest, o, hs, hc⟩
    · rw [move_region hr, Machine.bind_ok (Machine.modifyGet_apply _ w)] at heq
      have hbody : Along R True _ N := D.obeys _ (hst.control _ rfl) w.enterScope.1
      have hstack : ∀ f ∈ Frame.closeScope w.enterScope.1 scope :: stack, f.From N :=
        List.forall_mem_cons.2 ⟨trivial, hst.stack⟩
      have hbuild := hbody.build (E := False)
      rcases Machine.bind_eq heq with ⟨y, w₁, hy, heq⟩ | ⟨e, he, rfl⟩
      · obtain ⟨hrel, hbuilt, -⟩ := hbuild hy nofun
        have hfollows : State.Follows N
            ⟨context, .closeScope w.enterScope.1 scope :: stack, w.enterScope.1, .pending, b⟩ _ :=
          State.follows_built hstack (hbuilt _ rfl)
        cases heq
        exact .entered rfl hrel hfollows.toSound hfollows.budget hfollows.scope hfollows.regions
      · obtain ⟨-, -, hpanic⟩ := hbuild he (Escape.ne_exhausted hx)
        rcases e with p | _
        · exact (hpanic p rfl).elim
        · exact absurd rfl hx
    · rw [move_finalizer hr, Machine.bind_ok (Machine.modifyGet_apply _ w)] at heq
      cases heq
      exact .registered rfl (State.follows_settled hst.stack _)
    · dsimp only at hs hc
      subst hs hc
      rw [move_closeScope] at heq
      have hrest : ∀ f ∈ rest, f.From N := (List.forall_mem_cons.1 hst.stack).2
      rcases Machine.bind_eq heq with ⟨r, w₁, hclosed, heq⟩ | ⟨e, he, rfl⟩
      · cases heq
        refine .left rfl rfl hclosed rfl ?_
        rintro _ ⟨⟩
        refine ⟨fun n hn ↦ ?_, hrest⟩
        dsimp only at hn
        generalize o.merge r = o' at hn
        cases o' <;> cases hn
      · exact .left rfl rfl he rfl nofun
  · obtain ⟨hrel, hok, hpanic⟩ := move_along D hr hst hscoping heq hx
    exact .inside hscoping hrel hok hpanic

/-- Any move keeps to the relation and leads to a sound state again, if the relation holds where a
region is entered or left and where a release effect is offered to the scope in force. -/
theorem move_sound {R : World S → World S → Prop} {N : Node S → Prop}
    (D : Discipline R True (it.host close) N) (hr : it.registry = .standard)
    (henter : ∀ w, R w w.enterScope.2) (hclose : ∀ s, Along R False (close s) fun _ ↦ True)
    {st : State S} (hst : st.Sound N) (hoffer : ∀ release, N (.finalizer release) → ∀ w,
      R w (w.addFinalizer st.scope (.release release st.context st.budget)).2) :
    Along R True (it.move close st) (State.Sound N) := by
  intro w x w' heq hx
  cases move_cases D hr hst heq hx with
  | inside _ hrel hok _ => exact ⟨hrel, fun st' hst' ↦ (hok st' hst').toSound, fun _ _ ↦ trivial⟩
  | registered hc hst' =>
    refine ⟨hoffer _ (hst.control _ hc) w, ?_, nofun⟩
    rintro _ ⟨⟩
    exact hst'.toSound
  | entered _ hrel hst' =>
    refine ⟨D.drift.trans (henter w) hrel, ?_, nofun⟩
    rintro _ ⟨⟩
    exact hst'
  | left _ _ hy hx' hst' =>
    have hclosed := hclose _ hy fun he ↦ hx (by rw [hx', he]; rfl)
    exact ⟨hclosed.1, hst', fun _ _ ↦ trivial⟩

end Interpreter

end EffectMachine
