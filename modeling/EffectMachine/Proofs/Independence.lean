import EffectMachine.Proofs.Courses

/-!
# What does not depend on how scopes close

Closures that close no scope have no use for a closer. So what they do, and with them all moves of a
quiet effect that do not leave a region, is the same whatever the closer is. It always ends, too:
fuel is for loops and for closing scopes, and here is neither.

`Machine.Firm` says both things of a pair of computations, and is closed under sequencing.
-/

namespace EffectMachine

variable {S : Signature} {α β : Type}

/-- The two computations are the same, and fuel does not matter to them. -/
structure Machine.Firm (m m' : Machine S α) : Prop where
  eq : m' = m
  ends : ∀ w, (m w).1 ≠ .error .exhausted

open Machine (Firm)

namespace Machine.Firm

variable {m m' : Machine S α} {f f' : α → Machine S β}

theorem pure (a : α) : Firm (Pure.pure a : Machine S α) (Pure.pure a) := ⟨rfl, nofun⟩

theorem panic (p : Panic) : Firm (escape (.panic p) : Machine S α) (escape (.panic p)) :=
  ⟨rfl, nofun⟩

theorem modifyGet (f : World S → α × World S) : Firm (Machine.modifyGet f) (Machine.modifyGet f) :=
  ⟨rfl, nofun⟩

theorem modify (f : World S → World S) : Firm (Machine.modify f) (Machine.modify f) := ⟨rfl, nofun⟩

theorem gets (f : World S → α) : Firm (Machine.gets f) (Machine.gets f) := ⟨rfl, nofun⟩

theorem bind (h : Firm m m') (hf : ∀ a, Firm (f a) (f' a)) : Firm (m >>= f) (m' >>= f') where
  eq := by
    rw [h.eq]
    exact bind_congr fun a ↦ (hf a).eq
  ends w hw := by
    rcases hm : (m >>= f) w with ⟨x, w'⟩
    rw [hm] at hw
    rcases bind_eq hm with ⟨a, w₁, -, ha⟩ | ⟨e, he, rfl⟩
    · exact (hf a).ends w₁ (by rw [ha, ← hw])
    · exact h.ends w (by rw [he, Except.error.inj hw])

theorem guard (h : Firm m m') : Firm m.guard m'.guard where
  eq := by rw [h.eq]
  ends w hw := by
    rw [guard_apply] at hw
    exact h.ends w (guarded_eq_exhausted.1 hw)

end Machine.Firm

/-! ### Closures -/

namespace Host

/-- The host with another way of closing scopes. -/
def closingBy (h : Host S) (close : Closer S) : Host S := { h with close }

variable (h : Host S) (close : Closer S)

theorem perform_firm {a : Action S α} (ha : a.Quiet) :
    Firm (h.perform a) ((h.closingBy close).perform a) := by
  induction a with
  | done a => exact .pure a
  | panic p => exact .panic p
  | closeScope s k => exact ha.elim
  | read k ih =>
    rw [perform_read, perform_read]
    exact .bind (.gets _) fun s ↦ ih s (ha s)
  | write s k ih =>
    rw [perform_write, perform_write]
    exact .bind (.modify _) fun _ ↦ ih ha
  | now k ih =>
    rw [perform_now, perform_now]
    exact .bind (.gets _) fun t ↦ ih t (ha t)
  | advance d k ih =>
    rw [perform_advance, perform_advance]
    exact .bind (.modify _) fun _ ↦ ih ha
  | sleep d k ih =>
    rw [perform_sleep, perform_sleep]
    exact .bind (.modify _) fun _ ↦ ih ha
  | draw k ih =>
    rw [perform_draw, perform_draw]
    exact .bind (.modifyGet _) fun x ↦ ih x (ha x)
  | openScope k ih =>
    rw [perform_openScope, perform_openScope]
    exact .bind (.modifyGet _) fun s ↦ ih s (ha s)
  | addCleanup s c k ih =>
    rw [perform_addCleanup, perform_addCleanup]
    exact .bind (.modifyGet _) fun r ↦ ih r (ha r)
  | inspect s k ih =>
    rw [perform_inspect, perform_inspect]
    exact .bind (.gets _) fun st ↦ ih st (ha st)
  | settle s o k ih =>
    rw [perform_settle, perform_settle]
    exact .bind (.modifyGet _) fun r ↦ ih r (ha r)
  | take s k ih =>
    rw [perform_take, perform_take]
    exact .bind (.modifyGet _) fun o ↦ ih o (ha o)

theorem attempt_firm {a : Action S α} (ha : a.Quiet) :
    Firm (h.attempt a) ((h.closingBy close).attempt a) :=
  (h.perform_firm close ha).guard

theorem build_firm {a : Action S (Plan S)} (ha : (h.program.building a).Quiet) :
    Firm (h.build a) ((h.closingBy close).build a) :=
  h.attempt_firm close ha

/-! ### Branches -/

variable (hσ : h.strategy.Quiet h.program)
include hσ

theorem forkAll_firm (context : Context) (ns : List (Node S)) :
    Firm (h.forkAll context ns) ((h.closingBy close).forkAll context ns) := by
  induction ns with
  | nil => exact .pure []
  | cons n ns ih =>
    have hfork : Firm (h.fork ⟨n, context⟩) ((h.closingBy close).fork ⟨n, context⟩) :=
      .bind (h.perform_firm close (hσ.fork ⟨n, context⟩)) fun s ↦
        .bind (.modifyGet _) fun id ↦ .pure _
    exact .bind hfork fun f ↦ .bind ih fun fs ↦ .pure _

theorem turn_firm (f : Fork S) : Firm (h.turn f) ((h.closingBy close).turn f) := by
  obtain ⟨id, s⟩ := f
  cases s with
  | deferred | settled => exact .pure _
  | external handle => exact .bind (h.perform_firm close (hσ.join id handle)) fun o ↦ .pure _

variable {collect : List Value → Action S (Except Defect Value)} (st : State S)

theorem nextParallel_firm (hcollect : ∀ vs, (collect vs).Quiet) (fs : List (Fork S))
    (collected : List Value) :
    Firm (h.nextParallel collect fs collected st)
      ((h.closingBy close).nextParallel collect fs collected st) := by
  induction fs generalizing collected with
  | nil =>
    refine .bind (h.attempt_firm close (hcollect _)) fun x ↦ ?_
    rcases x with d | d | v <;> exact .pure _
  | cons f fs ih =>
    refine .bind (h.turn_firm close hσ f) fun t ↦ ?_
    rcases t with job | c | v
    · exact .pure _
    · exact .pure _
    · exact ih (v :: collected)

theorem nextRace_firm (fs : List (Fork S)) (failures : List (Cause S.Error)) :
    Firm (h.nextRace fs failures st) ((h.closingBy close).nextRace fs failures st) := by
  induction fs generalizing failures with
  | nil => exact .pure _
  | cons f fs ih =>
    refine .bind (h.turn_firm close hσ f) fun t ↦ ?_
    rcases t with job | c | v
    · exact .pure _
    · exact ih (c :: failures)
    · exact .pure _

/-! ### Handlers and frames -/

theorem standard_firm {node : Node S} (hn : h.program.Gentle node) :
    Firm (Handler.standard node.tag h node st)
      (Handler.standard node.tag (h.closingBy close) node st) := by
  cases node with
  | fail | bind | recover => exact .pure _
  | service key =>
    simp only [Node.tag, Handler.standard, Handler.onService]
    cases st.context.find? key <;> exact .pure _
  | suspend thunk => exact .bind (h.build_firm close hn) fun x ↦ .pure _
  | pure make =>
    refine .bind (h.attempt_firm close hn) fun x ↦ ?_
    cases x <;> exact .pure _
  | provide layer inner =>
    refine .bind (h.attempt_firm close (hn _)) fun x ↦ ?_
    rcases x with _ | _ | _ <;> exact .pure _
  | sleep d => exact .bind (h.perform_firm close (hσ.sleep d)) fun _ ↦ .pure _
  | async start =>
    refine .bind (.modifyGet _) fun slot ↦ .bind (h.attempt_firm close (hn slot)) fun x ↦ ?_
    rcases x with d | ⟨⟩
    · exact .pure _
    · exact .bind (h.perform_firm close (hσ.await slot)) fun o ↦ .pure _
  | parallel branches collect =>
    exact .bind (h.forkAll_firm close hσ st.context branches) fun fs ↦
      h.nextParallel_firm close hσ st hn fs []
  | race branches =>
    cases branches with
    | nil => exact .pure _
    | cons n ns =>
      exact .bind (h.forkAll_firm close hσ st.context (n :: ns)) fun fs ↦
        h.nextRace_firm close hσ st fs []
  | retry | timeout => exact .bind (.gets _) fun startedAt ↦ .pure _
  | region body =>
    exact .bind (.modifyGet _) fun child ↦ .bind (h.build_firm close (hn child)) fun x ↦ .pure _
  | finalizer release =>
    refine .bind (.modifyGet _) fun x ↦ ?_
    cases x <;> exact .pure _

/-- Handing a value to any frame of a quiet effect that closes no scope. -/
theorem resume_firm {f : Frame S} (hf : f.From h.program.Quiet)
    (hclose : ∀ s parent, f ≠ .closeScope s parent) (v : Value) :
    Firm (h.resume f v st) ((h.closingBy close).resume f v st) := by
  cases f with
  | closeScope s parent => exact absurd rfl (hclose s parent)
  | recover | retry | race | restoreContext => exact .pure _
  | timeout limit startedAt => exact .bind (.gets _) fun elapsed ↦ .pure _
  | resume next =>
    obtain ⟨source, hn⟩ := hf
    have hnext := Program.Descends.first hn v
    refine .bind (h.attempt_firm close hnext) fun x ↦ ?_
    cases x <;> exact .pure _
  | parallel rest collected collect =>
    obtain ⟨-, branches, hn⟩ := hf
    exact h.nextParallel_firm close hσ st (Program.Descends.first hn) rest (v :: collected)

theorem consult_firm {session : RetrySession S}
    (hs : h.program.Quiet (.retry session.source session.schedule)) (cause : Cause S.Error) :
    Firm (h.consult session cause) ((h.closingBy close).consult session cause) := by
  have hdecide := Program.Descends.first hs
  cases cause with
  | fail error =>
    refine .bind (.gets _) fun elapsed ↦ .bind (h.attempt_firm close (hdecide _ _)) fun x ↦ ?_
    rcases x with d | ⟨_ | delay, jitter⟩
    · exact .pure _
    · exact .pure _
    · exact .bind (h.perform_firm close (hσ.sleep delay)) fun _ ↦ .pure _
  | validation | serviceNotFound | timeout | composite | defect => exact .pure _

/-- A failure that falls on any frame of a quiet effect that closes no scope. -/
theorem fall_firm {f : Frame S} (hf : f.From h.program.Quiet)
    (hclose : ∀ s parent, f ≠ .closeScope s parent) (cause : Cause S.Error) :
    Firm (h.fall f cause st) ((h.closingBy close).fall f cause st) := by
  cases f with
  | closeScope s parent => exact absurd rfl (hclose s parent)
  | resume | timeout | parallel | restoreContext => exact .pure _
  | race rest failures =>
    exact .bind (h.nextRace_firm close hσ st rest (cause :: failures)) fun st ↦ .pure _
  | recover accepts handler =>
    obtain ⟨source, hn⟩ := hf
    have hgentle := Program.Descends.first hn cause
    refine .bind (h.attempt_firm close hgentle.1) fun x ↦ ?_
    rcases x with d | _ | _
    · exact .pure _
    · exact .pure _
    · exact .bind (h.build_firm close hgentle.2) fun x ↦ .pure _
  | retry session =>
    refine .bind (h.consult_firm close hσ hf cause) fun x ↦ ?_
    cases x <;> exact .pure _

end Host

namespace Interpreter

variable {it : Interpreter S} (close close' : Closer S)

/-- Dispatching a quiet effect. -/
theorem dispatch_firm (hr : it.registry = .standard) (hσ : it.strategy.Quiet it.program)
    {node : Node S} (hn : it.program.Quiet node) (st : State S) :
    Firm (it.dispatch close node st) (it.dispatch close' node st) := by
  have hgentle := Program.Descends.first hn
  rw [dispatch, dispatch, hr, Registry.dispatch_standard, Registry.dispatch_standard]
  exact .bind ((it.host close).standard_firm close' hσ st hgentle) fun st' ↦ .pure _

end Interpreter

end EffectMachine
