import EffectMachine.Proofs.Discipline
import EffectMachine.Proofs.Forward
import EffectMachine.Proofs.Pauses
import EffectMachine.Proofs.Scopes
import Mathlib.Algebra.Ring.Nat

/-!
# Virtual time is accounted for

In the end a clock has been moved by the calls that were made on it, and its reading is that of a
single step by all of them together: cutting every reading at the largest word loses nothing that
one cut at the end would keep (`Clock.nanos_after`).

A run whose closures leave the clock alone makes no calls but its pauses. `Machine.Accounts` says of
a computation that it moves the clock as its ledger says. It is proved part by part of the
interpreter, each part next to its ledger, and by induction on the depth to which closing may nest
for the closing of scopes (`Interpreter.closeScope_accounts`).

**Nothing is asked of how the run goes.** It may end, be aborted because of its step limit or run
out of fuel; what it has slept by then are the pauses that it has made by then. What is asked of
closures holds of all that they may do, of those in waiting finalizers too.
-/

namespace EffectMachine

variable {S : Signature} {α β : Type}

/-! ### Clocks -/

/-- A call on a clock, through any of its handles, which all share the clock. -/
inductive Clock.Call where
  | sleep (d : Duration)
  | advance (d : Duration)
  /-- Another name for moving forward. -/
  | adjust (d : Duration)

namespace Clock

/-- The duration that is asked for. -/
def Call.duration : Call → Duration
  | .sleep d | .advance d | .adjust d => d

/-- The duration that the clock remembers. -/
def Call.slept? : Call → Option Duration
  | .sleep d => some d
  | .advance _ | .adjust _ => none

/-- Make a call. -/
def call (c : Clock) : Call → Clock
  | .sleep d => c.sleep d
  | .advance d | .adjust d => c.advance d

/-- Make calls, one after the other. -/
def after (c : Clock) (calls : List Call) : Clock := calls.foldl call c

theorem nanos_call (c : Clock) (x : Call) :
    (c.call x).nanos = min (c.nanos + min x.duration.nanos wordMax) wordMax := by
  cases x <;> rfl

/-- **Readings are cut once.** A clock that reads a word reads, after any calls, the sum of the
reading and of all durations, held to a word. -/
theorem nanos_after {c : Clock} (h : c.nanos ≤ wordMax) (calls : List Call) :
    (c.after calls).nanos = min wordMax (c.nanos + (calls.map fun x ↦ x.duration.nanos).sum) := by
  induction calls generalizing c with
  | nil => exact (Nat.min_eq_right h).symm
  | cons x calls ih =>
    have hx := c.nanos_call x
    have hword : (c.call x).nanos ≤ wordMax := by omega
    show ((c.call x).after calls).nanos = _
    rw [ih hword, hx, List.map_cons, List.sum_cons]
    omega

/-- A clock remembers what it was asked to sleep, whatever came of that. -/
theorem sleeps_after (c : Clock) (calls : List Call) :
    (c.after calls).sleeps.toList = c.sleeps.toList ++ calls.filterMap Call.slept? := by
  induction calls generalizing c with
  | nil => exact (List.append_nil _).symm
  | cons x calls ih =>
    show ((c.call x).after calls).sleeps.toList = _
    rw [ih]
    cases x with
    | sleep d => simp [call, sleep, Call.slept?]
    | advance d | adjust d => rfl

theorem nanos_start_le (ms : Nat) : (start ms).nanos ≤ wordMax := Nat.min_le_right _ _

/-- The clock after pauses. -/
def pause (c : Clock) (ps : List Pause) : Clock := c.after (ps.map fun p ↦ .sleep p.duration)

theorem sleeps_pause (c : Clock) (ps : List Pause) :
    (c.pause ps).sleeps.toList = c.sleeps.toList ++ ps.map Pause.duration := by
  rw [pause, sleeps_after, List.filterMap_map, ← List.filterMap_eq_map]
  rfl

theorem nanos_pause {c : Clock} (h : c.nanos ≤ wordMax) (ps : List Pause) :
    (c.pause ps).nanos = min wordMax (c.nanos + (ps.map fun p ↦ p.duration.nanos).sum) := by
  rw [pause, nanos_after h, List.map_map]
  rfl

theorem pause_append (c : Clock) (ps qs : List Pause) :
    c.pause (ps ++ qs) = (c.pause ps).pause qs := by
  rw [pause, pause, pause, List.map_append, after, List.foldl_append]
  rfl

end Clock

/-! ### What leaves the clock alone -/

/-- The action does not move the clock. -/
def Action.Timeless : Action S α → Prop
  | .done _ | .panic _ => True
  | .read k => ∀ s, (k s).Timeless
  | .write _ k => k.Timeless
  | .now k => ∀ t, (k t).Timeless
  | .advance _ _ | .sleep _ _ => False
  | .draw k => ∀ x, (k x).Timeless
  | .openScope k => ∀ s, (k s).Timeless
  | .addCleanup _ _ k => ∀ r, (k r).Timeless
  | .closeScope _ k => ∀ o, (k o).Timeless
  | .inspect _ k => ∀ st, (k st).Timeless
  | .settle _ _ k => ∀ first, (k first).Timeless
  | .take _ k => ∀ o, (k o).Timeless

/-- No closure of the effect itself moves the clock. -/
def Node.Timeless (p : Program S) : Node S → Prop
  | .pure make => make.Timeless
  | .suspend thunk => (p.building thunk).Timeless
  | .bind _ next => ∀ v, (p.continuing (next v)).Timeless
  | .provide layer _ => ∀ c, (layer.build c).Timeless
  | .async start => ∀ s, (start s).Timeless
  | .recover _ accepts handler => ∀ c, (accepts c).Timeless ∧ (p.building (handler c)).Timeless
  | .parallel _ collect => ∀ vs, (collect vs).Timeless
  | .retry _ schedule => ∀ jitter f, (schedule.decideFrom jitter f).Timeless
  | .region body => ∀ s, (p.building (body s)).Timeless
  | .finalizer release => (p.building release).Timeless
  | .fail _ | .service _ | .sleep _ | .race _ | .timeout _ _ => True

/-- No closure of an effect, or of one that interpreting it may visit, moves the clock. -/
def Program.Timeless (p : Program S) (n : Node S) : Prop := ∀ m, p.Descends n m → m.Timeless p

/-- Neither building the release effect moves the clock nor interpreting it, but for its pauses. Of
named finalizers it is their program that this is asked of. -/
def Finalizer.Timeless (p : Program S) : Finalizer S → Prop
  | .cleanup _ => True
  | .release build _ _ =>
    (p.building build).Timeless ∧ ∀ n, (p.building build).Yields n → p.Timeless n

/-- No finalizer that waits in a scope moves the clock. -/
def World.Timeless (p : Program S) (w : World S) : Prop := w.Awaits (Finalizer.Timeless p)

/-! ### Computations that account for their pauses -/

open Ledger (nothing one before)

/-- Begun in a world whose waiting finalizers leave the clock alone, the computation moves the clock
by the pauses in the ledger, and leaves such a world behind. -/
def Machine.Accounts (p : Program S) (m : Machine S α) (ℓ : Ledger S) (Q : α → Prop) : Prop :=
  ∀ ⦃w⦄, w.Timeless p → (m w).2.clock = w.clock.pause (ℓ w) ∧ (m w).2.Timeless p ∧
    ∀ a, (m w).1 = .ok a → Q a

open Machine (Accounts)

namespace Machine.Accounts

variable {p : Program S} {m : Machine S α} {f : α → Machine S β} {ℓ : Ledger S}
  {k : α → Ledger S} {Q Q' : α → Prop} {P : β → Prop}

theorem post (h : Accounts p m ℓ Q) (hQ : ∀ a, Q a → Q' a) : Accounts p m ℓ Q' := fun _ hw ↦
  ⟨(h hw).1, (h hw).2.1, fun a ha ↦ hQ a ((h hw).2.2 a ha)⟩

theorem pure {a : α} (ha : Q a) : Accounts p (Pure.pure a) nothing Q := by
  refine fun w hw ↦ ⟨rfl, hw, ?_⟩
  rintro _ ⟨⟩
  exact ha

theorem escape {e : Escape} : Accounts p (Machine.escape e) nothing Q := fun _ hw ↦
  ⟨rfl, hw, nofun⟩

/-- A change that neither touches the clock nor what waits in scopes. -/
theorem modifyGet {f : World S → α × World S} (hclock : ∀ w, (f w).2.clock = w.clock)
    (hf : ∀ w, w.Timeless p → (f w).2.Timeless p) :
    Accounts p (Machine.modifyGet f) nothing fun _ ↦ True := fun w hw ↦
  ⟨hclock w, hf w hw, fun _ _ ↦ trivial⟩

theorem modify {f : World S → World S} (hclock : ∀ w, (f w).clock = w.clock)
    (hf : ∀ w, w.Timeless p → (f w).Timeless p) :
    Accounts p (Machine.modify f) nothing fun _ ↦ True :=
  modifyGet (f := fun w ↦ ((), f w)) hclock hf

theorem addFinalizer {s : ScopeId} {f : Finalizer S} (hf : f.Timeless p) :
    Accounts p (Machine.modifyGet fun w ↦ w.addFinalizer s f) nothing fun _ ↦ True :=
  modifyGet (fun w ↦ by unfold World.addFinalizer; split <;> rfl) fun _ hw ↦ hw.addFinalizer s hf

theorem gets (f : World S → α) :
    Accounts p (Machine.gets f) nothing fun a ↦ ∃ w : World S, w.Timeless p ∧ a = f w := by
  refine fun w hw ↦ ⟨rfl, hw, ?_⟩
  rintro _ ⟨⟩
  exact ⟨w, hw, rfl⟩

/-- A sequence accounts for the pauses of both parts. -/
theorem bind (h : Accounts p m ℓ Q) (hf : ∀ a, Q a → Accounts p (f a) (k a) P) :
    Accounts p (m >>= f) (ℓ.andThen m k) P := by
  intro w hw
  obtain ⟨hclock, hafter, hok⟩ := h hw
  rcases hm : m w with ⟨e | a, w'⟩
  · rw [bind_error hm, Ledger.andThen, hm]
    rw [hm] at hclock hafter
    exact ⟨by rw [hclock, List.append_nil], hafter, nofun⟩
  · rw [bind_ok hm, Ledger.andThen, hm]
    rw [hm] at hclock hafter hok
    obtain ⟨hclock', hpost⟩ := hf a (hok a rfl) hafter
    exact ⟨by rw [hclock', hclock, Clock.pause_append], hpost⟩

/-- What is done with a result without a pause adds none. -/
theorem map (h : Accounts p m ℓ Q) (hf : ∀ a, Q a → Accounts p (f a) nothing P) :
    Accounts p (m >>= f) ℓ P := by
  have hledger : ℓ.andThen m (fun _ ↦ nothing) = ℓ := by
    funext w
    rw [Ledger.andThen]
    split <;> exact List.append_nil _
  exact hledger ▸ h.bind hf

theorem guard (h : Accounts p m ℓ Q) : Accounts p m.guard ℓ fun x ↦ ∀ a, x = .ok a → Q a := by
  intro w hw
  obtain ⟨hclock, hafter, hok⟩ := h hw
  rw [guard_apply]
  refine ⟨hclock, hafter, ?_⟩
  rintro x hx a rfl
  rcases hm : (m w).1 with (_ | _) | b <;> rw [hm] at hx <;> cases hx
  exact hok a hm

end Machine.Accounts

/-! ### Closures and branches -/

section Parts

variable {p : Program S} {h : Host S} {closing : ScopeId → Ledger S}

namespace Host

section

variable (hclose : ∀ s, Accounts p (h.close s) (closing s) fun _ ↦ True)
include hclose

/-- A closure that leaves the clock alone pauses for the scopes that it closes. -/
theorem perform_accounts (a : Action S α) (ha : a.Timeless) :
    Accounts p (h.perform a) (h.pauses closing a) a.Yields := by
  induction a with
  | done a => exact .pure rfl
  | panic => exact .escape
  | advance | sleep => exact ha.elim
  | read k ih =>
    rw [perform_read]
    exact .bind (.gets _) fun s _ ↦ (ih s (ha s)).post fun b hb ↦ ⟨s, hb⟩
  | write s k ih =>
    rw [perform_write]
    exact .bind (.modify (f := fun w ↦ { w with state := s }) (fun _ ↦ rfl)
      fun _ hw ↦ hw.congr rfl) fun _ _ ↦ ih ha
  | now k ih =>
    rw [perform_now]
    exact .bind (.gets _) fun t _ ↦ (ih t (ha t)).post fun b hb ↦ ⟨t, hb⟩
  | draw k ih =>
    rw [perform_draw]
    exact .bind (.modifyGet (fun _ ↦ rfl) fun _ hw ↦ hw.congr rfl) fun x _ ↦
      (ih x (ha x)).post fun b hb ↦ ⟨x, hb⟩
  | openScope k ih =>
    rw [perform_openScope]
    exact .bind (.modifyGet (fun _ ↦ rfl) fun _ hw ↦ hw.openScope) fun s _ ↦
      (ih s (ha s)).post fun b hb ↦ ⟨s, hb⟩
  | addCleanup s c k ih =>
    rw [perform_addCleanup]
    exact .bind (.addFinalizer (f := .cleanup c) trivial) fun r _ ↦
      (ih r (ha r)).post fun b hb ↦ ⟨r, hb⟩
  | closeScope s k ih =>
    rw [perform_closeScope]
    exact .bind (hclose s) fun o _ ↦ (ih o (ha o)).post fun b hb ↦ ⟨o, hb⟩
  | inspect s k ih =>
    rw [perform_inspect]
    exact .bind (.gets _) fun st _ ↦ (ih st (ha st)).post fun b hb ↦ ⟨st, hb⟩
  | settle s o k ih =>
    rw [perform_settle]
    exact .bind (.modifyGet (fun _ ↦ rfl) fun _ hw ↦ hw.congr rfl) fun r _ ↦
      (ih r (ha r)).post fun b hb ↦ ⟨r, hb⟩
  | take s k ih =>
    rw [perform_take]
    exact .bind (.modifyGet (fun _ ↦ rfl) fun _ hw ↦ hw.congr rfl) fun o _ ↦
      (ih o (ha o)).post fun b hb ↦ ⟨o, hb⟩

theorem attempt_accounts {a : Action S α} (ha : a.Timeless) :
    Accounts p (h.attempt a) (h.pauses closing a) fun x ↦ ∀ b, x = .ok b → a.Yields b :=
  (perform_accounts hclose a ha).guard

/-- What is built by a closure that leaves the clock alone. -/
theorem build_accounts {N : Node S → Prop} {a : Action S (Plan S)}
    (ha : (h.program.building a).Timeless) (hN : ∀ n, (h.program.building a).Yields n → N n) :
    Accounts p (h.build a) (h.pauses closing (h.program.building a)) (Built N) :=
  (attempt_accounts hclose ha).post fun _ hx n hn ↦ hN n (hx n hn)

end

variable (hσ : h.strategy = .sync)
include hσ

theorem forkAll_accounts {N : Node S → Prop} (context : Context) {ns : List (Node S)}
    (hns : ∀ n ∈ ns, N n) :
    Accounts p (h.forkAll context ns) nothing fun fs ↦ ∀ f ∈ fs, f.state.Holds N := by
  induction ns with
  | nil => exact .pure nofun
  | cons n ns ih =>
    obtain ⟨hn, hns⟩ := List.forall_mem_cons.1 hns
    have hfork : Accounts p (h.fork ⟨n, context⟩) nothing fun f ↦ f.state.Holds N := by
      rw [fork, hσ]
      refine .map (.pure (Q := (· = .deferred ⟨n, context⟩)) rfl) fun s hs ↦ ?_
      refine .map (.modifyGet (fun _ ↦ rfl) fun _ hw ↦ hw.congr rfl) fun _ _ ↦ .pure ?_
      rintro job hjob
      cases hs.symm.trans hjob
      exact hn
    exact .map hfork fun f hf ↦ .map (ih hns) fun fs hfs ↦
      .pure (List.forall_mem_cons.2 ⟨hf, hfs⟩)

theorem turn_accounts {N : Node S → Prop} {f : Fork S} (hf : f.state.Holds N) :
    Accounts p (h.turn f) nothing fun t ↦ ∀ job, t = .run job → N job.node := by
  obtain ⟨id, s⟩ := f
  cases s with
  | deferred job =>
    refine .pure ?_
    rintro _ ⟨⟩
    exact hf job rfl
  | settled o => exact .pure nofun
  | external v =>
    rw [turn, hσ]
    exact .map (.pure (Q := fun _ ↦ True) trivial) fun o _ ↦ .pure nofun

end Host

/-! ### Handlers -/

/-- What a node leads to leaves the clock alone as well. -/
theorem Program.Timeless.child {n m : Node S} (hn : p.Timeless n) (hm : p.Child n m) :
    p.Timeless m :=
  Program.Child.all hm hn

namespace Host

variable (hclose : ∀ s, Accounts h.program (h.close s) (closing s) fun _ ↦ True)
  (hσ : h.strategy = .sync) {st : State S}
include hclose hσ

/-- The next branch, or the collecting of values. -/
theorem nextParallel_accounts {branches : List (Node S)}
    {collect : List Value → Action S (Except Defect Value)}
    (hn : h.program.Timeless (.parallel branches collect)) {rest : List (Fork S)}
    (hrest : ∀ f ∈ rest, f.state.Holds h.program.Timeless) (collected : List Value)
    (hst : ∀ f ∈ st.stack, f.From h.program.Timeless) :
    Accounts h.program (h.nextParallel collect rest collected st)
      (h.parallelPauses closing collect rest collected) (State.Sound h.program.Timeless) := by
  induction rest generalizing collected with
  | nil =>
    have hcollect : ∀ vs, (collect vs).Timeless := Program.Descends.first hn
    refine .map (attempt_accounts hclose (hcollect _)) fun x _ ↦ ?_
    rcases x with d | d | v
    · exact .pure (State.follows_settled hst (.error (.defect d))).toSound
    · exact .pure (State.follows_settled hst (.error (.defect d))).toSound
    · exact .pure (State.follows_settled hst (.ok v)).toSound
  | cons f rest ih =>
    obtain ⟨hf, hrest⟩ := List.forall_mem_cons.1 hrest
    refine .bind (turn_accounts hσ hf) fun t ht ↦ ?_
    rcases t with job | c | v
    · exact .pure (State.follows_push (f := .parallel rest collected collect) hst
        ⟨hrest, branches, hn⟩ rfl (ht job rfl) job.context).toSound
    · exact .pure (State.follows_settled hst (.error c)).toSound
    · exact ih hrest (v :: collected)

omit hclose in
theorem nextRace_accounts {branches : List (Node S)} (hn : h.program.Timeless (.race branches))
    {rest : List (Fork S)} (hrest : ∀ f ∈ rest, f.state.Holds h.program.Timeless)
    (failures : List (Cause S.Error)) (hst : ∀ f ∈ st.stack, f.From h.program.Timeless) :
    Accounts h.program (h.nextRace rest failures st) nothing
      (State.Sound h.program.Timeless) := by
  induction rest generalizing failures with
  | nil => exact .pure (State.follows_settled hst (.error (.composite failures.reverse))).toSound
  | cons f rest ih =>
    obtain ⟨hf, hrest⟩ := List.forall_mem_cons.1 hrest
    refine .map (turn_accounts hσ hf) fun t ht ↦ ?_
    rcases t with job | c | v
    · exact .pure (State.follows_push (f := .race rest failures) hst ⟨hrest, branches, hn⟩ rfl
        (ht job rfl) job.context).toSound
    · exact ih hrest (c :: failures)
    · exact .pure (State.follows_settled hst (.ok v)).toSound

omit hclose in
/-- The sleep of a sleep effect is a pause. -/
theorem sleep_accounts (d : Duration) (hst : ∀ f ∈ st.stack, f.From h.program.Timeless) :
    Accounts h.program (Handler.onSleep h (.sleep d) st) (h.nodePauses closing (.sleep d) st)
      (State.Sound h.program.Timeless) := by
  have hsleep : Accounts h.program (h.perform (h.strategy.sleep d)) (one (.slept d))
      fun _ ↦ True := by
    rw [hσ]
    exact fun w hw ↦ ⟨rfl, hw.congr rfl, fun _ _ ↦ trivial⟩
  exact .map hsleep fun _ _ ↦ .pure (State.follows_settled hst (.ok .unit)).toSound

omit hσ in
theorem provide_accounts {layer : Layer S} {inner : Node S}
    (hn : h.program.Timeless (.provide layer inner))
    (hst : ∀ f ∈ st.stack, f.From h.program.Timeless) :
    Accounts h.program (Handler.onProvide h (.provide layer inner) st)
      (h.nodePauses closing (.provide layer inner) st) (State.Sound h.program.Timeless) := by
  have hlayer : ∀ context, (layer.build context).Timeless := Program.Descends.first hn
  refine .map (attempt_accounts hclose (hlayer _)) fun x _ ↦ ?_
  rcases x with d | missing | context
  · exact .pure (State.follows_settled hst (.error (.defect d))).toSound
  · exact .pure (State.follows_settled hst (.error (.serviceNotFound missing.key))).toSound
  · exact .pure (State.follows_push (f := .restoreContext st.context) hst trivial rfl
      (hn.child rfl) context).toSound

/-- Neither making the slot of a visit nor taking what is in it is a pause. -/
theorem async_accounts {start : SlotId → Action S Unit} (hn : h.program.Timeless (.async start))
    (hst : ∀ f ∈ st.stack, f.From h.program.Timeless) :
    Accounts h.program (Handler.onAsync h (.async start) st)
      (h.nodePauses closing (.async start) st) (State.Sound h.program.Timeless) := by
  have hstart : ∀ slot, (start slot).Timeless := Program.Descends.first hn
  simp only [Handler.onAsync, nodePauses]
  refine .bind (.modifyGet (f := World.newSlot) (fun _ ↦ rfl) fun _ hw ↦ hw.congr rfl)
    fun slot _ ↦ ?_
  refine .map (attempt_accounts hclose (hstart slot)) fun x _ ↦ ?_
  rcases x with d | ⟨⟩
  · exact .pure (State.follows_settled hst (.error (.defect d))).toSound
  · have hawait : Accounts h.program (h.perform (h.strategy.await slot)) nothing
        fun _ ↦ True := by
      rw [hσ]
      exact fun w hw ↦ ⟨rfl, hw.congr rfl, fun _ _ ↦ trivial⟩
    exact .map hawait fun o _ ↦ .pure (State.follows_settled hst o).toSound

omit hσ in
/-- Opening the scope of a region is no pause. -/
theorem region_accounts {body : ScopeId → Action S (Plan S)}
    (hn : h.program.Timeless (.region body)) (hst : ∀ f ∈ st.stack, f.From h.program.Timeless) :
    Accounts h.program (Handler.onRegion h (.region body) st)
      (h.nodePauses closing (.region body) st) (State.Sound h.program.Timeless) := by
  have hbody : ∀ s, (h.program.building (body s)).Timeless := Program.Descends.first hn
  simp only [Handler.onRegion, nodePauses]
  refine .bind (.modifyGet (f := World.enterScope) (fun _ ↦ rfl)
    fun _ hw ↦ hw.openScope.congr rfl) fun child _ ↦ ?_
  refine .map (build_accounts hclose (hbody child) fun m hm ↦ hn.child ⟨child, hm⟩) fun x hx ↦ ?_
  have hpushed : ∀ f ∈ ({ st.push (.closeScope child st.scope) with scope := child }).stack,
      f.From h.program.Timeless := List.forall_mem_cons.2 ⟨trivial, hst⟩
  exact .pure (State.follows_built hpushed hx).toSound

/-- **A handler pauses for a sleep effect**, and otherwise as the closures of the node do. -/
theorem node_accounts {node : Node S} (hn : h.program.Timeless node)
    (hst : ∀ f ∈ st.stack, f.From h.program.Timeless) :
    Accounts h.program (Handler.standard node.tag h node st) (h.nodePauses closing node st)
      (State.Sound h.program.Timeless) := by
  have hown := Program.Descends.first hn
  cases node with
  | pure make =>
    refine .map (attempt_accounts hclose hown) fun x _ ↦ ?_
    cases x with
    | ok v => exact .pure (State.follows_settled hst (.ok v)).toSound
    | error d => exact .pure (State.follows_settled hst (.error (.defect d))).toSound
  | fail cause => exact .pure (State.follows_settled hst (.error cause)).toSound
  | suspend thunk =>
    exact .map (build_accounts hclose hown fun m hm ↦ hn.child hm) fun x hx ↦
      .pure (State.follows_built hst hx).toSound
  | bind source next =>
    exact .pure (State.follows_push (f := .resume next) hst ⟨source, hn⟩ rfl (hn.child (.inl rfl))
      st.context).toSound
  | service key =>
    simp only [Node.tag, Handler.standard, Handler.onService]
    cases st.context.find? key with
    | some s => exact .pure (State.follows_settled hst (.ok ⟨.service, s⟩)).toSound
    | none => exact .pure (State.follows_settled hst (.error (.serviceNotFound key))).toSound
  | provide layer inner => exact provide_accounts hclose hn hst
  | sleep d => exact sleep_accounts hσ d hst
  | async start => exact async_accounts hclose hσ hn hst
  | recover source accepts handler =>
    exact .pure (State.follows_push (f := .recover accepts handler) hst ⟨source, hn⟩ rfl
      (hn.child (.inl rfl)) st.context).toSound
  | parallel branches collect =>
    exact .bind (forkAll_accounts hσ st.context fun n hm ↦ hn.child hm) fun fs hfs ↦
      nextParallel_accounts hclose hσ hn hfs [] hst
  | race branches =>
    cases branches with
    | nil => exact .pure (State.follows_settled hst (.error (.defect .emptyRace))).toSound
    | cons n ns =>
      exact .map (forkAll_accounts hσ st.context fun n hm ↦ hn.child hm) fun fs hfs ↦
        nextRace_accounts hσ hn hfs [] hst
  | retry source schedule =>
    refine .map (.gets _) fun startedAt _ ↦ .pure ?_
    exact (State.follows_push (f := .retry ⟨source, schedule, schedule.source, 0, startedAt⟩) hst
      hn rfl (hn.child rfl) st.context).toSound
  | region body => exact region_accounts hclose hn hst
  | finalizer release =>
    refine .map (.addFinalizer ⟨hown, fun m hm ↦ hn.child hm⟩) fun x _ ↦ ?_
    cases x with
    | ok u => exact .pure (State.follows_settled hst (.ok .unit)).toSound
    | error d => exact .pure (State.follows_settled hst (.error (.defect d))).toSound
  | timeout source limit =>
    refine .map (.gets _) fun startedAt _ ↦ .pure ?_
    exact (State.follows_push (f := .timeout limit startedAt) hst trivial rfl (hn.child rfl)
      st.context).toSound

/-! ### Frames -/

/-- Handing a value to a frame. -/
theorem resume_accounts {f : Frame S} (hf : f.From h.program.Timeless) (v : Value)
    (hst : ∀ f ∈ st.stack, f.From h.program.Timeless) :
    Accounts h.program (h.resume f v st) (h.resumePauses closing f v)
      (State.Sound h.program.Timeless) := by
  cases f with
  | recover | retry | race => exact .pure (State.follows_settled hst (.ok v)).toSound
  | restoreContext context => exact .pure ⟨nofun, hst⟩
  | resume next =>
    obtain ⟨source, hn⟩ := hf
    have hnext : ∀ v, (h.program.continuing (next v)).Timeless := Program.Descends.first hn
    refine .map (attempt_accounts hclose (hnext v)) fun x hx ↦ ?_
    cases x with
    | ok control =>
      refine .pure (State.follows_holding hst ?_).toSound
      rintro m rfl
      exact hn.child (.inr ⟨v, hx _ rfl⟩)
    | error d => exact .pure (State.follows_settled hst (.error (.defect d))).toSound
  | parallel rest collected collect =>
    obtain ⟨hrest, branches, hn⟩ := hf
    exact nextParallel_accounts hclose hσ hn hrest (v :: collected) hst
  | closeScope s parent =>
    refine .map (hclose s) fun r _ ↦ ?_
    rcases r with failures | ⟨⟩ <;> exact .pure ⟨nofun, hst⟩
  | timeout limit startedAt =>
    refine .map (.gets _) fun elapsed _ ↦ ?_
    split
    · exact .pure (State.follows_settled hst (.error (.timeout limit))).toSound
    · exact .pure (State.follows_settled hst (.ok v)).toSound

/-- **A retry session pauses when it decides to go on.** -/
theorem consult_accounts {session : RetrySession S}
    (hs : h.program.Timeless (.retry session.source session.schedule)) (cause : Cause S.Error) :
    Accounts h.program (h.consult session cause) (h.consultPauses closing session cause)
      fun x ↦ ∀ session', x = .again session' →
        session'.source = session.source ∧ session'.schedule = session.schedule := by
  have hstop : ∀ cause, Accounts h.program (pure (.giveUp cause) : Machine S (RetryVerdict S))
      nothing fun x ↦ ∀ session', x = .again session' →
        session'.source = session.source ∧ session'.schedule = session.schedule :=
    fun _ ↦ .pure nofun
  cases cause with
  | fail error =>
    have hdecide : ∀ jitter f, (session.schedule.decideFrom jitter f).Timeless :=
      Program.Descends.first hs
    simp only [consult, consultPauses]
    refine .bind (.gets _) fun elapsed _ ↦ ?_
    refine .bind (attempt_accounts hclose (hdecide _ _)) fun x _ ↦ ?_
    rcases x with d | ⟨_ | delay, jitter⟩
    · exact hstop _
    · exact hstop _
    · have hsleep : Accounts h.program (h.perform (h.strategy.sleep delay)) (one (.awaited delay))
          fun _ ↦ True := by
        rw [hσ]
        exact fun w hw ↦ ⟨rfl, hw.congr rfl, fun _ _ ↦ trivial⟩
      refine .map hsleep fun _ _ ↦ .pure ?_
      rintro _ ⟨⟩
      exact ⟨rfl, rfl⟩
  | validation | serviceNotFound | timeout | composite | defect => exact hstop _

omit hσ in
theorem closing_accounts (s : ScopeId) (cause : Cause S.Error) :
    Accounts h.program (h.closing s cause) (closing s) fun _ ↦ True := by
  refine .map (hclose s) fun r _ ↦ ?_
  rcases r with failures | ⟨⟩ <;> exact .pure trivial

/-- Handing a failure to a frame. -/
theorem fall_accounts {f : Frame S} (hf : f.From h.program.Timeless) (cause : Cause S.Error)
    (hst : ∀ f ∈ st.stack, f.From h.program.Timeless) :
    Accounts h.program (h.fall f cause st) (h.fallPauses closing f cause)
      fun x ↦ ∀ st', x = .caught st' → st'.Sound h.program.Timeless := by
  have hpass : ∀ cause (st : State S), Accounts h.program
      (pure (.on cause st) : Machine S (Fall S)) nothing
      fun x ↦ ∀ st', x = .caught st' → st'.Sound h.program.Timeless :=
    fun _ _ ↦ .pure nofun
  cases f with
  | resume | timeout | parallel | restoreContext => exact hpass _ _
  | closeScope s parent =>
    exact .map (closing_accounts hclose s cause) fun cause _ ↦ hpass _ _
  | race rest failures =>
    obtain ⟨hrest, branches, hn⟩ := hf
    refine .map (nextRace_accounts hσ hn hrest (cause :: failures) hst) fun st' hst' ↦ .pure ?_
    rintro _ ⟨⟩
    exact hst'
  | recover accepts handler =>
    obtain ⟨source, hn⟩ := hf
    have hown : ∀ c, (accepts c).Timeless ∧ (h.program.building (handler c)).Timeless :=
      Program.Descends.first hn
    refine .bind (attempt_accounts hclose (hown cause).1) fun x _ ↦ ?_
    rcases x with d | _ | _
    · exact hpass _ _
    · exact hpass _ _
    · refine .map (build_accounts hclose (hown cause).2 fun m hm ↦ hn.child (.inr ⟨cause, hm⟩))
        fun x hx ↦ .pure ?_
      rintro _ ⟨⟩
      exact (State.follows_built hst hx).toSound
  | retry session =>
    refine .map (consult_accounts hclose hσ hf cause) fun x hx ↦ ?_
    cases x with
    | giveUp cause => exact hpass _ _
    | again session' =>
      obtain ⟨hsource, hschedule⟩ := hx session' rfl
      have hf' : (Frame.retry session').From h.program.Timeless := by
        rw [Frame.From, hsource, hschedule]
        exact hf
      refine .pure ?_
      rintro _ ⟨⟩
      exact (State.follows_push (f := .retry session') hst hf' rfl (hf'.child rfl)
        st.context).toSound

/-- A failure on its way down a stack. -/
theorem unwind_accounts {stack : List (Frame S)} (hst : ∀ f ∈ stack, f.From h.program.Timeless)
    (cause : Cause S.Error) (st : State S) :
    Accounts h.program (h.unwind stack cause st) (h.unwindPauses closing stack cause st)
      fun x ↦ ∀ st', x = .ok st' → st'.Sound h.program.Timeless := by
  induction stack generalizing cause st with
  | nil => exact .pure nofun
  | cons f rest ih =>
    obtain ⟨hf, hrest⟩ := List.forall_mem_cons.1 hst
    refine .bind (fall_accounts hclose hσ hf cause hrest) fun x hx ↦ ?_
    cases x with
    | on cause st => exact ih hrest cause st
    | caught st =>
      refine .pure ?_
      rintro _ ⟨⟩
      exact hx st rfl

omit hσ in
/-- An abort pauses as the scopes do that it closes. -/
theorem abort_accounts (stack : List (Frame S)) (cause : Cause S.Error) :
    Accounts h.program (h.abort stack cause) (h.abortPauses closing stack cause)
      fun _ ↦ True := by
  induction stack generalizing cause with
  | nil => exact .pure trivial
  | cons f rest ih =>
    cases f with
    | closeScope s parent =>
      exact .bind (closing_accounts hclose s cause) fun cause _ ↦ ih cause
    | resume | recover | restoreContext | retry | timeout | parallel | race => exact ih cause

/-! ### Scopes that close -/

section

omit hσ

variable {release : Releaser S} {releasing : Node S → Context → BudgetId → Ledger S}
  (hcleanup : ∀ c, (h.program.cleanup c).Timeless)
  (hrelease : ∀ node context b, h.program.Timeless node →
    Accounts h.program (release node context b) (releasing node context b) fun _ ↦ True)
include hcleanup hrelease

theorem finalize_accounts {f : Finalizer S} (hf : f.Timeless h.program) :
    Accounts h.program (h.finalize release f) (h.finalizerPauses closing releasing f)
      fun _ ↦ True := by
  cases f with
  | cleanup c => exact (perform_accounts hclose _ (hcleanup c)).post fun _ _ ↦ trivial
  | release build context b =>
    refine .bind (build_accounts hclose hf.1 hf.2) fun x hx ↦ ?_
    cases x with
    | error d => exact .pure trivial
    | ok node => exact .map (hrelease node context b (hx node rfl)) fun _ _ ↦ .pure trivial

/-- Invoking a finalizer pauses as the finalizer does. -/
theorem invoke_accounts (s : ScopeId) {f : Finalizer S} (hf : f.Timeless h.program) :
    Accounts h.program (h.invoke release s f) (h.invokePauses closing releasing s f)
      fun _ ↦ True := by
  have hrecord : ∀ e : Event S, Accounts h.program (.modify fun w ↦ w.record e) nothing
      fun _ ↦ True := fun e ↦ .modify (fun _ ↦ rfl) fun _ hw ↦ hw.congr rfl
  exact .bind (hrecord _) fun _ _ ↦
    .map (finalize_accounts hclose hcleanup hrelease hf).guard fun _ _ ↦
      .map (hrecord _) fun _ _ ↦ .pure trivial

theorem invokeAll_accounts (s : ScopeId) {fs : List (Finalizer S)}
    (hfs : ∀ f ∈ fs, f.Timeless h.program) :
    Accounts h.program (h.invokeAll release s fs)
      (h.invokeAllPauses closing release releasing s fs) fun _ ↦ True := by
  induction fs with
  | nil => exact .pure trivial
  | cons f fs ih =>
    obtain ⟨hf, hfs⟩ := List.forall_mem_cons.1 hfs
    refine .bind (invoke_accounts hclose hcleanup hrelease s hf) fun o _ ↦ ?_
    rcases o with cause | ⟨⟩
    · exact .map (ih hfs) fun _ _ ↦ .pure trivial
    · exact ih hfs

/-- **A scope that closes pauses as the finalizers do that wait in it.** -/
theorem shut_accounts (s : ScopeId) :
    Accounts h.program (h.shut release s) (h.shutPauses closing release releasing s)
      fun _ ↦ True := by
  simp only [shut, shutPauses]
  refine .bind (.gets _) fun scope hscope ↦ ?_
  obtain ⟨w, hw, rfl⟩ := hscope
  split
  · exact .pure trivial
  · refine .bind (.modify (f := fun w ↦ w.shutScope s) (fun _ ↦ rfl)
      fun _ hw ↦ hw.shutScope s) fun _ _ ↦ ?_
    refine .map (invokeAll_accounts hclose hcleanup hrelease s (hw s)) fun failures _ ↦ ?_
    refine .map (.modify (fun _ ↦ rfl) fun _ hw ↦ hw.congr rfl) fun _ _ ↦ ?_
    cases failures <;> exact .pure trivial

end

end Host

end Parts

/-! ### Runs -/

namespace Interpreter

variable {it : Interpreter S} (hr : it.registry = .standard) (hσ : it.strategy = .sync)

section

variable {close : Closer S} {closing : ScopeId → Ledger S}
  (hclose : ∀ s, Accounts it.program (close s) (closing s) fun _ ↦ True)
include hr hσ hclose

/-- Acting on what is held in hand. -/
theorem advance_accounts {st : State S} (hst : st.Sound it.program.Timeless) :
    Accounts it.program (it.advance close st) (it.advancePauses close closing st)
      fun x ↦ ∀ st', x = .running st' → st'.Sound it.program.Timeless := by
  have hrunning : ∀ st : State S, st.Sound it.program.Timeless →
      Accounts it.program (pure (Progress.running st)) nothing
        fun x ↦ ∀ st', x = .running st' → st'.Sound it.program.Timeless := by
    refine fun st h ↦ .pure ?_
    rintro _ ⟨⟩
    exact h
  obtain ⟨context, stack, scope, control, b⟩ := st
  obtain ⟨hcontrol, hstack⟩ := hst
  cases control with
  | effect node =>
    have hdispatch : Accounts it.program (Handler.standard node.tag (it.host close) node
        ⟨context, stack, scope, .pending, b⟩) _ _ :=
      Host.node_accounts (h := it.host close) hclose hσ (hcontrol node rfl) hstack
    refine .map (.map (Q := State.Sound it.program.Timeless) ?_ fun next hnext ↦ ?_) hrunning
    · rw [hr, Registry.dispatch_standard]
      exact hdispatch
    · split
      · exact .pure (State.follows_settled hnext.stack
          (.error (.defect (.stalled node.tag.name)))).toSound
      · exact .pure hnext
  | value v =>
    cases stack with
    | nil => exact .pure nofun
    | cons f rest =>
      obtain ⟨hf, hrest⟩ := List.forall_mem_cons.1 hstack
      exact .map (Host.resume_accounts (h := it.host close) hclose hσ hf v hrest) hrunning
  | failure cause =>
    refine .map (Host.unwind_accounts (h := it.host close) hclose hσ hstack cause _)
      fun x hx ↦ ?_
    cases x with
    | ok st => exact hrunning st (hx st rfl)
    | error cause => exact .pure nofun
  | pending =>
    exact hrunning _ (State.follows_settled hstack (.error (.defect (.stalled "pending")))).toSound

/-- A round, also one that exceeds the step limit. -/
theorem step_accounts (budget : BudgetId) {st : State S} (hst : st.Sound it.program.Timeless) :
    Accounts it.program (it.step close budget st) (it.stepPauses close closing budget st)
      fun x ↦ ∀ st', x = .running st' → st'.Sound it.program.Timeless := by
  have hchange : ∀ f : World S → World S, (∀ w, (f w).clock = w.clock) →
      (∀ w, (f w).scopes = w.scopes) → Accounts it.program (.modify f) nothing fun _ ↦ True :=
    fun f hclock hscopes ↦ .modify hclock fun w hw ↦ hw.congr (hscopes w)
  have htick : Accounts it.program (it.tick budget) nothing fun _ ↦ True :=
    .map (hchange _ (fun _ ↦ rfl) fun _ ↦ rfl) fun _ _ ↦ (Accounts.gets _).post fun _ _ ↦ trivial
  simp only [step, stepPauses]
  refine .bind htick fun limit _ ↦ ?_
  cases limit with
  | none => exact advance_accounts hr hσ hclose hst
  | some limit =>
    refine .bind (hchange _ (fun _ ↦ rfl) fun _ ↦ rfl) fun _ _ ↦ ?_
    refine .map (Q := fun _ ↦ True) ?_ fun _ _ ↦ .pure nofun
    refine .bind (hchange _ (fun _ ↦ rfl) fun _ ↦ rfl) fun _ _ ↦ ?_
    refine .map (Host.abort_accounts (h := it.host close) hclose _ _) fun cause _ ↦ ?_
    exact .map (hchange _ (fun _ ↦ rfl) fun _ ↦ rfl) fun _ _ ↦ .pure trivial

theorem rounds_accounts (budget : BudgetId) (fuel : Nat) {st : State S}
    (hst : st.Sound it.program.Timeless) :
    Accounts it.program (it.rounds close budget fuel st)
      (it.drivePauses close closing budget fuel st) fun _ ↦ True := by
  induction fuel generalizing st with
  | zero => exact .escape
  | succ fuel ih =>
    rw [rounds_step]
    refine .bind (step_accounts hr hσ hclose budget hst) fun x hx ↦ ?_
    cases x with
    | running st' => exact ih (hx st' rfl)
    | settled outcome => exact .pure trivial

/-- An interpretation, the closing of its root scope included. -/
theorem interpretWith_accounts (fuel : Nat) {node : Node S} (hnode : it.program.Timeless node)
    (context : Context) (budget : BudgetId) :
    Accounts it.program (it.interpretWith close fuel node context budget)
      (it.interpretWithPauses close closing fuel node context budget) fun _ ↦ True := by
  have hstart : ∀ root, (State.start node context root budget).Sound it.program.Timeless := by
    refine fun root ↦ ⟨?_, nofun⟩
    rintro _ ⟨⟩
    exact hnode
  simp only [interpretWith, Machine.inScope, interpretWithPauses]
  refine .bind (.modifyGet (f := World.enterScope) (fun _ ↦ rfl)
    fun _ hw ↦ hw.openScope.congr rfl) fun root _ ↦ ?_
  exact .bind (rounds_accounts hr hσ hclose budget fuel (hstart root)) fun o _ ↦
    .map (hclose root) fun r _ ↦ .pure trivial

end

variable (hcleanup : ∀ c, (it.program.cleanup c).Timeless)
include hr hσ hcleanup

/-- Closing scopes, by induction on how deep they may close in each other. -/
theorem closeScope_accounts (depth : Nat) (s : ScopeId) :
    Accounts it.program (it.closeScope depth s) (it.closeScopePauses depth s) fun _ ↦ True := by
  induction depth generalizing s with
  | zero => exact .escape
  | succ depth ih =>
    exact Host.shut_accounts (h := it.host (it.closeScope depth)) ih hcleanup
      (fun node context b hnode ↦ interpretWith_accounts hr hσ ih depth hnode context b) s

/-- A run moves the clock by its pauses. -/
theorem interpret_accounts (fuel : Nat) {node : Node S} (hnode : it.program.Timeless node)
    (context : Context) :
    Accounts it.program (it.interpret fuel node context) (it.pauses fuel node context)
      fun _ ↦ True :=
  .bind (.modifyGet (f := fun w ↦ w.newBudget {}) (fun _ ↦ rfl) fun _ hw ↦ hw.congr rfl)
    fun budget _ ↦ interpretWith_accounts hr hσ (closeScope_accounts hr hσ hcleanup fuel) fuel
      hnode context budget

/-- **Virtual time is fully accounted for.** After a run whose closures leave the clock alone, the
clock has slept the pauses of the run, in their order, and nothing else, and its reading has moved
by their sum, held to a word. In general a clock reads, after any calls, what it was started at and
the sum of all durations, held to a word; it never goes back, and it remembers what it was asked to
sleep. -/
theorem interpret_sleeps_pauses {fuel : Nat} {node : Node S} {context : Context} {w : World S}
    (hnode : it.program.Timeless node) (hw : w.Timeless it.program)
    (hword : w.clock.nanos ≤ wordMax) :
    (it.interpret fuel node context w).2.clock.sleeps.toList =
      w.clock.sleeps.toList ++ (it.pauses fuel node context w).map Pause.duration ∧
    (it.interpret fuel node context w).2.clock.nanos = min wordMax
      (w.clock.nanos + ((it.pauses fuel node context w).map fun p ↦ p.duration.nanos).sum) ∧
    ∀ (ms : Nat) (calls : List Clock.Call),
      ((Clock.start ms).after calls).nanos = min wordMax
        (ms * nanosPerMilli + (calls.map fun x ↦ x.duration.nanos).sum) ∧
      ((Clock.start ms).after calls).sleeps.toList = calls.filterMap Clock.Call.slept? ∧
      ∀ more, ((Clock.start ms).after calls).nanos ≤
        ((Clock.start ms).after (calls ++ more)).nanos := by
  have hclock := (interpret_accounts hr hσ hcleanup fuel hnode context hw).1
  have hstart : ∀ ms, (Clock.start ms).nanos = min (ms * nanosPerMilli) wordMax := fun _ ↦ rfl
  refine ⟨?_, ?_, fun ms calls ↦ ⟨?_, ?_, fun more ↦ ?_⟩⟩
  · rw [hclock, Clock.sleeps_pause]
  · rw [hclock, Clock.nanos_pause hword]
  · rw [Clock.nanos_after (Clock.nanos_start_le ms), hstart]
    omega
  · exact Clock.sleeps_after _ _
  · rw [Clock.nanos_after (Clock.nanos_start_le ms), Clock.nanos_after (Clock.nanos_start_le ms),
      List.map_append, List.sum_append]
    omega

end Interpreter

/-! ### A run that pauses everywhere -/

/-- A schedule of one retry. -/
def onceMore : Schedule Tally := (Schedule.ofBackoff (.fixed (.ofNanos 5))).upToRetries 1

/-- A region that sleeps when it is left, around a race of a branch that is tried again and fails
and a branch that sleeps. -/
def drowsy : Node Tally :=
  .region fun _ ↦ .done (.node (.bind (.finalizer (.done (.node (.sleep (.ofNanos 3)))))
    fun _ ↦ .done (.effect (.node (.race [.retry (.fail (.fail 7)) onceMore,
      .sleep (.ofNanos 4)])))))

theorem timeless_drowsy : tally.Timeless drowsy := by
  have hleaf : ∀ {n : Node Tally}, (∀ m, ¬tally.Child n m) → n.Timeless tally → tally.Timeless n :=
    fun hn hown ↦ Program.all_of hown fun m hm ↦ (hn m hm).elim
  refine Program.all_of (fun _ ↦ trivial) ?_
  rintro m ⟨s, ⟨⟩⟩
  refine Program.all_of (fun _ ↦ trivial) ?_
  rintro m (rfl | ⟨v, ⟨⟩⟩)
  · refine Program.all_of trivial ?_
    rintro m ⟨⟩
    exact hleaf (fun _ ↦ id) trivial
  · refine Program.all_of trivial fun m hm ↦ ?_
    rcases List.mem_cons.1 hm with rfl | hm
    · refine Program.all_of (fun jitter f ↦ ?_) ?_
      · show (onceMore.decideFrom jitter f).Timeless
        rw [Schedule.decideFrom]
        split <;> trivial
      · rintro m ⟨⟩
        exact hleaf (fun _ ↦ id) trivial
    · rcases List.mem_singleton.1 hm with rfl
      exact hleaf (fun _ ↦ id) trivial

/-- It pauses for the retry, for the branch and for the release effect, in this order. -/
theorem interpret_sleeps_pauses_drowsy :
    ∃ it : Interpreter Tally, it.registry = .standard ∧ it.strategy = .sync ∧
      (∀ c, (it.program.cleanup c).Timeless) ∧ it.program.Timeless drowsy ∧
      tallyWorld.Timeless it.program ∧ tallyWorld.clock.nanos ≤ wordMax ∧
      (it.interpret 20 drowsy .empty tallyWorld).2.clock.sleeps.toList =
        [.ofNanos 5, .ofNanos 4, .ofNanos 3] ∧
      (it.interpret 20 drowsy .empty tallyWorld).2.clock.nanos = 12 := by
  have hcleanup : ∀ c, (tally.cleanup c).Timeless := fun _ _ ↦ trivial
  have hworld : tallyWorld.Timeless tally := fun _ _ hf ↦ nomatch hf
  have hword : tallyWorld.clock.nanos ≤ wordMax := by decide
  have hpauses : (Interpreter.plain tally "drowsy" false).pauses 20 drowsy .empty tallyWorld =
      [.awaited (.ofNanos 5), .slept (.ofNanos 4), .slept (.ofNanos 3)] := rfl
  obtain ⟨hsleeps, hnanos, -⟩ := @Interpreter.interpret_sleeps_pauses _
    (.plain tally "drowsy" false) rfl rfl hcleanup 20 drowsy .empty tallyWorld timeless_drowsy
    hworld hword
  rw [hpauses] at hsleeps hnanos
  exact ⟨_, rfl, rfl, hcleanup, timeless_drowsy, hworld, hword, hsleeps, hnanos⟩

end EffectMachine
