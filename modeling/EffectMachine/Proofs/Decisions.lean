import EffectMachine.Proofs.Along
import EffectMachine.Proofs.Moves

/-!
# Every round decides

The hand of a state is emptied at the beginning of each round, and whoever acts in the round has to
put something into it again. Handlers need not do so, and they may return any state that they like:
what has to be shown does not depend on the state in which a round begins, nor on the frames that
it finds.

**Each part decides for itself.** A continuation answers with something to hold
(`Program.control_decided`), the branches of an effect come to something to hold
(`Host.nextParallel_decides`, `Host.nextRace_decides`), and so do the frames that a value or a
failure meets (`Host.resume_decides`, `Host.fall_decides`). A dispatch decides because it looks at
what the handler returned and reports one that has decided nothing
(`Interpreter.dispatch_decides`). Closing scopes on the way does not matter: nothing is assumed
about how scopes close, so whatever is said holds of the interpretations of release effects too.

**The loop has a case too many.** What it does with an empty hand makes no difference to any run
(`Interpreter.driveOr_eq_drive`).
-/

namespace EffectMachine

variable {S : Signature}

open Machine (Answers)

/-- Something is in hand. -/
def State.Decided (st : State S) : Prop := st.control.isPending = false

/-- What is in hand is an effect, a value or a failure. -/
theorem State.Decided.cases {st : State S} (h : st.Decided) :
    (∃ node, st.control = .effect node) ∨ (∃ v, st.control = .value v) ∨
      ∃ cause, st.control = .failure cause := by
  rw [Decided] at h
  cases hc : st.control with
  | effect node => exact .inl ⟨node, rfl⟩
  | value v => exact .inr (.inl ⟨v, rfl⟩)
  | failure cause => exact .inr (.inr ⟨cause, rfl⟩)
  | pending =>
    rw [hc] at h
    cases h

theorem State.decided_iff {st : State S} : st.Decided ↔ st.control ≠ .pending := by
  rw [Decided]
  cases st.control with
  | effect | value | failure => exact ⟨fun _ ↦ nofun, fun _ ↦ rfl⟩
  | pending => exact ⟨nofun, fun h ↦ (h rfl).elim⟩

theorem State.decided_continueBuilt (st : State S) (x : Except Defect (Node S)) :
    (st.continueBuilt x).Decided := by
  cases x <;> rfl

/-- A continuation answers with something to hold. -/
theorem Program.control_decided (p : Program S) {s : Step S} {c : Control S}
    (h : (p.control s).Yields c) (st : State S) : (st.holding c).Decided := by
  cases s with
  | value v =>
    cases h
    rfl
  | failure cause =>
    cases h
    rfl
  | effect plan =>
    obtain ⟨node, -, rfl⟩ := Action.yields_bind.1 h
    rfl

/-! ### Frames -/

namespace Host

variable (h : Host S)

/-- Branching always decides what to hold in hand. -/
theorem nextParallel_decides (collect : List Value → Action S (Except Defect Value))
    (fs : List (Fork S)) (collected : List Value) (st : State S) :
    Answers (h.nextParallel collect fs collected st) State.Decided := by
  induction fs generalizing collected with
  | nil =>
    refine .after fun x ↦ ?_
    rcases x with d | d | v <;> exact .pure rfl
  | cons f fs ih =>
    refine .after fun t ↦ ?_
    rcases t with job | c | v
    · exact .pure rfl
    · exact .pure rfl
    · exact ih (v :: collected)

theorem nextRace_decides (fs : List (Fork S)) (failures : List (Cause S.Error)) (st : State S) :
    Answers (h.nextRace fs failures st) State.Decided := by
  induction fs generalizing failures with
  | nil => exact .pure rfl
  | cons f fs ih =>
    refine .after fun t ↦ ?_
    rcases t with job | c | v
    · exact .pure rfl
    · exact ih (c :: failures)
    · exact .pure rfl

/-- A frame that takes a value decides. -/
theorem resume_decides (f : Frame S) (v : Value) (st : State S) :
    Answers (h.resume f v st) State.Decided := by
  cases f with
  | recover | retry | race | restoreContext => exact .pure rfl
  | parallel rest collected collect => exact h.nextParallel_decides collect rest (v :: collected) st
  | resume next =>
    refine .bind (h.attempt_answers _) fun x hx ↦ ?_
    cases x with
    | error d => exact .pure rfl
    | ok c =>
      obtain ⟨s, -, hs⟩ := Action.yields_bind.1 (hx c rfl)
      exact .pure (h.program.control_decided hs st)
  | closeScope s parent =>
    refine .after fun r ↦ ?_
    cases r <;> exact .pure rfl
  | timeout limit startedAt =>
    refine .after fun elapsed ↦ .pure ?_
    split <;> rfl

/-- A frame that recovers from a failure decides. -/
theorem fall_decides (f : Frame S) (cause : Cause S.Error) (st : State S) :
    Answers (h.fall f cause st) fun x ↦ ∀ st', x = .caught st' → st'.Decided := by
  cases f with
  | resume | timeout | parallel | restoreContext => exact .pure nofun
  | closeScope s parent => exact .after fun c ↦ .pure nofun
  | race rest failures =>
    refine .bind (h.nextRace_decides rest (cause :: failures) st) fun st₁ h₁ ↦ .pure ?_
    rintro _ ⟨⟩
    exact h₁
  | recover accepts handler =>
    refine .after fun x ↦ ?_
    rcases x with d | _ | _
    · exact .pure nofun
    · exact .pure nofun
    · refine .after fun x ↦ .pure ?_
      rintro _ ⟨⟩
      exact st.decided_continueBuilt x
  | retry session =>
    refine .after fun x ↦ ?_
    cases x with
    | giveUp c => exact .pure nofun
    | again session =>
      refine .pure ?_
      rintro _ ⟨⟩
      rfl

/-- If unwinding a stack does not fail in the end, a frame has decided. -/
theorem unwind_decides (fs : List (Frame S)) (cause : Cause S.Error) (st : State S) :
    Answers (h.unwind fs cause st) fun o ↦ ∀ st', o = .ok st' → st'.Decided := by
  induction fs generalizing cause st with
  | nil => exact .pure nofun
  | cons f fs ih =>
    refine .bind (h.fall_decides f cause _) fun x hx ↦ ?_
    cases x with
    | on cause' st' => exact ih cause' st'
    | caught st' =>
      refine .pure ?_
      rintro _ ⟨⟩
      exact hx st' rfl

end Host

/-! ### Rounds -/

namespace Interpreter

variable (it : Interpreter S) (close : Closer S) (budget : BudgetId)

/-- What a handler returned, or a report that it has decided nothing: the rest of the state is as
the handler left it. -/
def reported (node : Node S) (st : State S) : State S :=
  if st.control.isPending then st.die (.stalled node.tag.name) else st

theorem decided_reported (node : Node S) (st : State S) : (reported node st).Decided := by
  rw [reported]
  cases hc : st.control.isPending with
  | true => rfl
  | false => exact hc

theorem dispatch_decides (node : Node S) (st : State S) :
    Answers (it.dispatch close node st) State.Decided :=
  .after fun next ↦ .pure (decided_reported node next)

/-- **A round decides**, whatever was in hand when it began. -/
theorem advance_decides (st : State S) :
    Answers (it.advance close st) fun x ↦ ∀ st', x = .running st' → st'.Decided := by
  have running {m : Machine S (State S)} (hm : Answers m State.Decided) :
      Answers (m >>= fun st ↦ pure (Progress.running st)) fun x ↦
        ∀ st', x = .running st' → st'.Decided := by
    refine .bind hm fun st₁ h₁ ↦ .pure ?_
    rintro _ ⟨⟩
    exact h₁
  obtain ⟨context, stack, scope, control, b⟩ := st
  cases control with
  | effect node => exact running (it.dispatch_decides close node _)
  | pending =>
    refine .pure ?_
    rintro _ ⟨⟩
    rfl
  | value v =>
    cases stack with
    | nil => exact .pure nofun
    | cons f rest => exact running ((it.host close).resume_decides f v _)
  | failure cause =>
    refine .bind ((it.host close).unwind_decides stack cause _) fun o ho ↦ ?_
    cases o with
    | error cause' => exact .pure nofun
    | ok st' =>
      refine .pure ?_
      rintro _ ⟨⟩
      exact ho st' rfl

theorem step_decides (st : State S) :
    Answers (it.step close budget st) fun x ↦ ∀ st', x = .running st' → st'.Decided := by
  refine .after fun exceeded ↦ ?_
  cases exceeded with
  | none => exact it.advance_decides close st
  | some limit => exact .after fun _ ↦ .after fun cause ↦ .pure nofun

variable {it close budget} in
/-- From round to round something is in hand. -/
theorem Arrives.decided {st st' : State S} {w w' : World S}
    (h : it.Arrives close budget st w st' w') (hst : st.Decided) : st'.Decided := by
  induction h with
  | here => exact hst
  | round hs _ ih => exact ih (it.step_decides close budget _ hs _ rfl)

/-! ### Rounds that begin with an empty hand -/

/-- The loop, if it did something else in a round that begins with an empty hand. -/
def driveOr (idle : State S → Machine S (Progress S)) :
    Nat → State S → World S → Except Escape (Outcome S.Error Value) × World S
  | 0, _, w => (.error .exhausted, w)
  | fuel + 1, st, w =>
    match (if st.control.isPending then idle st else it.step close budget st) w with
    | (.ok (.running st), w) => driveOr idle fuel st w
    | (.ok (.settled outcome), w) => (.ok outcome, w)
    | (.error e, w) => (.error e, w)

/-- There is no such round. -/
theorem driveOr_eq_drive (idle : State S → Machine S (Progress S)) (fuel : Nat) {st : State S}
    (hst : st.Decided) (w : World S) :
    it.driveOr close budget idle fuel st w = it.drive close budget fuel st w := by
  induction fuel generalizing st w with
  | zero => rfl
  | succ fuel ih =>
    rw [driveOr, drive, if_neg (by rw [hst]; exact Bool.false_ne_true)]
    rcases hs : it.step close budget st w with ⟨e | (st' | o), w'⟩
    · rfl
    · exact ih (it.step_decides close budget st hs st' rfl) w'
    · rfl

/-! ### Handlers that decide nothing -/

/-- In a round that begins in a state and a world, the handler of the node in hand returns a state
in a world. It is given the state with an empty hand. -/
structure HandlerReturns (node : Node S) (st : State S) (w : World S) (st' : State S)
    (w' : World S) : Prop where
  control : st.control = .effect node
  returned : ∃ handler w₁, it.registry.find? node.tag = some handler ∧
    it.tick budget w = (.ok none, w₁) ∧
      handler (it.host close) node st.awaiting w₁ = (.ok st', w')

variable {it close budget} in
/-- The round goes on with what the handler returned, or reports it. -/
theorem HandlerReturns.step {node : Node S} {st st' : State S} {w w' : World S}
    (h : it.HandlerReturns close budget node st w st' w') :
    it.step close budget st w = (.ok (.running (reported node st')), w') := by
  obtain ⟨hcontrol, handler, w₁, hfind, htick, hreturned⟩ := h
  have hdispatch : it.registry.dispatch (it.host close) node st.awaiting w₁ = (.ok st', w') := by
    rw [Registry.dispatch, hfind]
    exact hreturned
  rw [Interpreter.step, Machine.bind_ok htick]
  show it.advance close st w₁ = _
  rw [advance, hcontrol]
  show (it.dispatch close node st.awaiting >>= fun next ↦ pure (Progress.running next)) w₁ = _
  rw [Machine.bind_ok (Machine.bind_ok hdispatch _)]
  rfl

/-- **Every round of every run begins with something in hand**, whatever handlers there are and
whatever states they return, whatever the strategy and the program, and however scopes close, so
in the interpretations of release effects too. What the loop would do with an empty hand is
never done: anything else may stand in its place. A handler that decides nothing is reported by the
kind of the node, as a failure in the state that the handler left, and a state in which a handler
has decided something is the next one. -/
theorem rounds_decide (node : Node S) (context : Context) (root : ScopeId) (b : BudgetId)
    (w₀ : World S) :
    (∀ st w, it.Arrives close budget (.start node context root b) w₀ st w →
      st.control ≠ .pending ∧ ((∃ node, st.control = .effect node) ∨
        (∃ v, st.control = .value v) ∨ ∃ cause, st.control = .failure cause)) ∧
    (∀ idle fuel, it.driveOr close budget idle fuel (.start node context root b) w₀ =
      it.drive close budget fuel (.start node context root b) w₀) ∧
    ∀ node st w st' w', it.HandlerReturns close budget node st w st' w' →
      (st'.control = .pending → it.step close budget st w = (.ok (.running
        { st' with control := .failure (.defect (.stalled node.tag.name)) }), w')) ∧
      (st'.control ≠ .pending → it.step close budget st w = (.ok (.running st'), w')) := by
  have hstart : (State.start node context root b).Decided := rfl
  refine ⟨fun st w h ↦ ⟨State.decided_iff.1 (h.decided hstart), (h.decided hstart).cases⟩,
    fun idle fuel ↦ it.driveOr_eq_drive close budget idle fuel hstart w₀,
    fun node st w st' w' h ↦ ⟨fun hc ↦ ?_, fun hc ↦ ?_⟩⟩
  · rw [h.step, reported, hc]
    rfl
  · rw [h.step, reported, State.decided_iff.2 hc]
    rfl

/-- Its one handler forgets the frames, leaves that of a race and decides nothing. -/
def absentMinded : Interpreter Tally where
  program := tally
  registry := ⟨[(.sleep, fun _ _ st ↦
    pure { st with stack := [.race [] []], control := .pending })]⟩

/-- The handler is reported in the state that it left, where the race records the report, and so
there is something in hand one round later as well. -/
theorem absentMinded_rounds_decide :
    ∃ st w, absentMinded.Arrives (absentMinded.closeScope 9) ⟨0⟩
        (.start (.sleep .zero) .empty ⟨0⟩ ⟨0⟩) tallyWorld st w ∧
      st.control = .failure (.composite [.defect (.stalled "Sleep")]) ∧
        st.control ≠ .pending := by
  obtain ⟨hdecided, -, hstalled⟩ := rounds_decide absentMinded (absentMinded.closeScope 9) ⟨0⟩
    (.sleep .zero) .empty ⟨0⟩ ⟨0⟩ tallyWorld
  have hhandles : ∃ st w, absentMinded.HandlerReturns (absentMinded.closeScope 9) ⟨0⟩ (.sleep .zero)
      (.start (.sleep .zero) .empty ⟨0⟩ ⟨0⟩) tallyWorld st w ∧ st.control = .pending ∧
        st.stack = [.race [] []] :=
    ⟨_, _, ⟨rfl, _, _, rfl, rfl, rfl⟩, rfl, rfl⟩
  obtain ⟨st, w, hhandles, hpending, hstack⟩ := hhandles
  have hreport := (hstalled _ _ _ _ _ hhandles).1 hpending
  obtain ⟨context, stack, scope, control, b⟩ := st
  cases hstack
  have hrecorded : absentMinded.Arrives (absentMinded.closeScope 9) ⟨0⟩
      (.start (.sleep .zero) .empty ⟨0⟩ ⟨0⟩) tallyWorld _ _ :=
    .round hreport (.round rfl (.here _ _))
  exact ⟨_, _, hrecorded, rfl, (hdecided _ _ hrecorded).1⟩

end Interpreter

end EffectMachine
