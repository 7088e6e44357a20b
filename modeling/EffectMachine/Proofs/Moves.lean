import EffectMachine.Proofs.Rounds

/-!
# Moves

A round of the machine that holds a failure may pass many frames. A *move* is less: it hands what
is held to one frame, or to one handler. `Interpreter.move` makes one move, `Interpreter.Moves` is
a sequence of them with steps counted in between, and `Interpreter.Ending` says how the loop ends
after the last one. Every run of the loop is a sequence of moves and an ending
(`Interpreter.drive_ends`), so what a move preserves holds at every moment of a run.

An outcome that is in hand above a frame is about to be seen by that frame. Nothing in a run sees an
outcome otherwise.
-/

namespace EffectMachine

variable {S : Signature}

/-- The scopes that a stack will close, newest first, each with the scope that is in force
afterwards. -/
def regions : List (Frame S) → List (ScopeId × ScopeId)
  | [] => []
  | .closeScope s parent :: fs => (s, parent) :: regions fs
  | _ :: fs => regions fs

/-- The scopes that a stack will close, newest first. -/
def openScopes (fs : List (Frame S)) : List ScopeId := (regions fs).map Prod.fst

/-- Only frames that close a scope count. -/
theorem regions_cons_of_ne {f : Frame S} (hf : ∀ s parent, f ≠ .closeScope s parent)
    (fs : List (Frame S)) : regions (f :: fs) = regions fs := by
  cases f with
  | closeScope s parent => exact absurd rfl (hf s parent)
  | resume | recover | restoreContext | retry | timeout | parallel | race => rfl

/-- The state after a failure has fallen on a frame, given the stack below the frame. -/
def Fall.landing (rest : List (Frame S)) : Fall S → State S
  | .on cause st => { st with stack := rest }.fail cause
  | .caught st => st

namespace Interpreter

variable (it : Interpreter S) (close : Closer S)

/-- Hand an effect to its handler, or an outcome to the newest frame. An outcome without a frame
stays in hand. -/
def move (st : State S) : Machine S (State S) :=
  match st.control with
  | .effect node => it.dispatch close node st.awaiting
  | .value v =>
    match st.stack with
    | [] => return st
    | f :: rest => (it.host close).resume f v { st.awaiting with stack := rest }
  | .failure cause =>
    match st.stack with
    | [] => return st
    | f :: rest => do
      return (← (it.host close).fall f cause { st.awaiting with stack := rest }).landing rest
  | .pending => return st.die (.stalled "pending")

/-- Any number of moves, with steps counted in between. -/
inductive Moves (budget : BudgetId) : State S → World S → State S → World S → Prop where
  | refl (st : State S) (w : World S) : Moves budget st w st w
  | tick {st st' : State S} {w w' : World S} (h : Moves budget st w st' w') :
      Moves budget st w st' (w'.modifyBudget budget Budget.tick)
  | move {st st' st'' : State S} {w w' w'' : World S} (h : Moves budget st w st' w')
      (hm : it.move close st' w' = (.ok st'', w'')) : Moves budget st w st'' w''

/-- How the loop ends after the last move: an outcome meets no frame, or one more step exceeds the
limit, or a move panics. -/
inductive Ending (budget : BudgetId) : State S → World S →
    Except Escape (Outcome S.Error Value) → World S → Prop where
  | settled {st : State S} (w : World S) {o : Outcome S.Error Value} (hs : st.stack = [])
      (hc : st.control = .ofOutcome o) : Ending budget st w (.ok o) w
  | aborted {st : State S} {w w' : World S} {limit : Nat} {x : Except Escape (Cause S.Error)}
      (hl : ((w.modifyBudget budget Budget.tick).budget budget).exceeds it.config.stepLimit =
        some limit)
      (ha : it.abort close limit st
        ((w.modifyBudget budget Budget.tick).record (.exceeded budget limit)) = (x, w')) :
      Ending budget st w (x.map .error) w'
  | panicked {st : State S} {w w' : World S} {p : Panic}
      (hm : it.move close st w = (.error (.panic p), w')) :
      Ending budget st w (.error (.panic p)) w'

variable {it close} {budget : BudgetId} {st st' st'' : State S} {w w' w'' : World S}

/-- An outcome that meets no frame stays in hand. -/
theorem move_of_stack_eq_nil {o : Outcome S.Error Value} (hs : st.stack = [])
    (hc : st.control = .ofOutcome o) : it.move close st = pure st := by
  cases o <;> rw [move, hc, hs] <;> rfl

namespace Moves

theorem trans (h : it.Moves close budget st w st' w') (h' : it.Moves close budget st' w' st'' w'') :
    it.Moves close budget st w st'' w'' := by
  induction h' with
  | refl => exact h
  | tick _ ih => exact (ih h).tick
  | move _ hm ih => exact (ih h).move hm

theorem one (hm : it.move close st w = (.ok st', w')) : it.Moves close budget st w st' w' :=
  .move (.refl st w) hm

end Moves

end Interpreter

/-! ### Runs as sequences of moves -/

/-- A frame that lets a failure pass keeps the stack below it and puts nothing in hand. -/
theorem Host.fall_on {h : Host S} {f : Frame S} {cause cause' : Cause S.Error} {st st' : State S}
    {w w' : World S} (heq : h.fall f cause st w = (.ok (.on cause' st'), w')) :
    st'.control = st.control ∧ st'.stack = st.stack ∧ st'.budget = st.budget := by
  cases f with
  | resume | timeout | parallel | restoreContext =>
    cases heq
    exact ⟨rfl, rfl, rfl⟩
  | closeScope s parent =>
    obtain ⟨c, w₁, -, heq⟩ := Machine.bind_eq_ok heq
    cases heq
    exact ⟨rfl, rfl, rfl⟩
  | race rest failures =>
    obtain ⟨st₁, w₁, -, heq⟩ := Machine.bind_eq_ok heq
    cases heq
  | recover accepts handler =>
    obtain ⟨x, w₁, -, heq⟩ := Machine.bind_eq_ok heq
    rcases x with d | _ | _
    · cases heq
      exact ⟨rfl, rfl, rfl⟩
    · cases heq
      exact ⟨rfl, rfl, rfl⟩
    · obtain ⟨x, w₂, -, heq⟩ := Machine.bind_eq_ok heq
      cases heq
  | retry session =>
    obtain ⟨x, w₁, -, heq⟩ := Machine.bind_eq_ok heq
    cases x with
    | again session => cases heq
    | giveUp c =>
      cases heq
      exact ⟨rfl, rfl, rfl⟩

namespace Interpreter

variable {it : Interpreter S} {close : Closer S} {budget : BudgetId}

/-- What unwinding comes to after its last move: a state that recovered, a failure that meets no
frame, or a panic of the next move. -/
def Unwound (it : Interpreter S) (close : Closer S) (st : State S) (w : World S) :
    Except Escape (Outcome S.Error (State S)) → World S → Prop
  | .ok (.ok st'), w' => st = st' ∧ w = w'
  | .ok (.error cause), w' => st.stack = [] ∧ st.control = .failure cause ∧ w = w'
  | .error e, w' => ∃ p, e = .panic p ∧ it.move close st w = (.error (.panic p), w')

/-- Unwinding is a sequence of moves, one for each frame that the failure falls on. -/
theorem unwind_moves (budget : BudgetId) {fs : List (Frame S)} {cause : Cause S.Error}
    {st : State S} {w w' : World S} {x : Except Escape (Outcome S.Error (State S))}
    (hst : st.control = .pending)
    (heq : (it.host close).unwind fs cause st w = (x, w')) (hx : x ≠ .error .exhausted) :
    ∃ st₁ w₁, it.Moves close budget ({ st with stack := fs }.fail cause) w st₁ w₁ ∧
      it.Unwound close st₁ w₁ x w' := by
  induction fs generalizing cause st w with
  | nil =>
    cases heq
    exact ⟨_, _, .refl _ _, rfl, rfl, rfl⟩
  | cons f rest ih =>
    obtain ⟨context, stack, scope, control, b⟩ := st
    cases hst
    rw [Host.unwind] at heq
    rcases Machine.bind_eq heq with ⟨y, w₁, hy, heq⟩ | ⟨e, hy, rfl⟩
    · have hmove : it.move close ⟨context, f :: rest, scope, .failure cause, b⟩ w =
          (.ok (y.landing rest), w₁) := Machine.bind_ok hy _
      cases y with
      | caught st' =>
        cases heq
        exact ⟨_, _, .one hmove, rfl, rfl⟩
      | on cause' st' =>
        obtain ⟨hcontrol, -, -⟩ := Host.fall_on hy
        obtain ⟨st₁, w₂, hmoves, hend⟩ := ih hcontrol heq
        exact ⟨st₁, w₂, (Moves.one hmove).trans hmoves, hend⟩
    · cases e with
      | exhausted => exact absurd rfl hx
      | panic p => exact ⟨_, _, .refl _ _, p, rfl, Machine.bind_error hy _⟩

/-- A single move from which the loop goes on, or which panics. -/
theorem running_moves (budget : BudgetId) {st : State S} {w w' : World S}
    {x : Except Escape (Progress S)}
    (heq : (it.move close st >>= fun st ↦ pure (Progress.running st)) w = (x, w'))
    (hx : x ≠ .error .exhausted) :
    (∃ st', x = .ok (.running st') ∧ it.Moves close budget st w st' w') ∨
      ∃ st₁ w₁ y, it.Moves close budget st w st₁ w₁ ∧ it.Ending close budget st₁ w₁ y w' ∧
        x = y.map .settled := by
  rcases Machine.bind_eq heq with ⟨st', w₁, hm, heq⟩ | ⟨e, hm, rfl⟩
  · cases heq
    exact .inl ⟨st', rfl, .one hm⟩
  · cases e with
    | exhausted => exact absurd rfl hx
    | panic p => exact .inr ⟨st, w, .error (.panic p), .refl _ _, .panicked hm, rfl⟩

/-- A round within the limit is a sequence of moves, which the loop goes on from or which ends
it. -/
theorem advance_moves (budget : BudgetId) {st : State S} {w w' : World S}
    {x : Except Escape (Progress S)}
    (heq : it.advance close st w = (x, w')) (hx : x ≠ .error .exhausted) :
    (∃ st', x = .ok (.running st') ∧ it.Moves close budget st w st' w') ∨
      ∃ st₁ w₁ y, it.Moves close budget st w st₁ w₁ ∧ it.Ending close budget st₁ w₁ y w' ∧
        x = y.map .settled := by
  obtain ⟨context, stack, scope, control, b⟩ := st
  cases control with
  | effect node => exact running_moves budget heq hx
  | pending => exact running_moves budget heq hx
  | value v =>
    cases stack with
    | nil =>
      cases heq
      exact .inr ⟨_, _, .ok (.ok v), .refl _ _, .settled w rfl rfl, rfl⟩
    | cons f rest => exact running_moves budget heq hx
  | failure cause =>
    rcases Machine.bind_eq (m := (it.host close).unwind stack cause
      ⟨context, [], scope, .pending, b⟩) heq with ⟨y, w₁, hy, heq⟩ | ⟨e, hy, rfl⟩
    · obtain ⟨st₁, w₂, hmoves, hend⟩ := unwind_moves budget rfl hy nofun
      cases y with
      | ok st' =>
        cases heq
        obtain ⟨rfl, rfl⟩ := hend
        exact .inl ⟨_, rfl, hmoves⟩
      | error cause' =>
        cases heq
        obtain ⟨hs, hc, rfl⟩ := hend
        exact .inr ⟨st₁, w₂, .ok (.error cause'), hmoves, .settled w₂ hs hc, rfl⟩
    · obtain ⟨st₁, w₂, hmoves, p, rfl, hm⟩ := unwind_moves budget rfl hy (Escape.ne_exhausted hx)
      exact .inr ⟨st₁, w₂, .error (.panic p), hmoves, .panicked hm, rfl⟩

/-- A round is a sequence of moves, which the loop goes on from or which ends it. -/
theorem step_moves {st : State S} {w w' : World S} {x : Except Escape (Progress S)}
    (heq : it.step close budget st w = (x, w')) (hx : x ≠ .error .exhausted) :
    (∃ st', x = .ok (.running st') ∧ it.Moves close budget st w st' w') ∨
      ∃ st₁ w₁ y, it.Moves close budget st w st₁ w₁ ∧ it.Ending close budget st₁ w₁ y w' ∧
        x = y.map .settled := by
  have hticked : it.Moves close budget st w st (w.modifyBudget budget Budget.tick) :=
    (Moves.refl st w).tick
  have htick : it.tick budget w =
      (.ok (((w.modifyBudget budget Budget.tick).budget budget).exceeds it.config.stepLimit),
        w.modifyBudget budget Budget.tick) := rfl
  rw [step, Machine.bind_ok htick] at heq
  cases hl : ((w.modifyBudget budget Budget.tick).budget budget).exceeds it.config.stepLimit with
  | none =>
    rw [hl] at heq
    rcases advance_moves budget heq hx with ⟨st', rfl, h⟩ | ⟨st₁, w₁, y, h, hend⟩
    · exact .inl ⟨st', rfl, hticked.trans h⟩
    · exact .inr ⟨st₁, w₁, y, hticked.trans h, hend⟩
  | some limit =>
    rw [hl] at heq
    rcases ha : it.abort close limit st ((w.modifyBudget budget Budget.tick).record
      (.exceeded budget limit)) with ⟨y, w₁⟩
    have hend : it.Ending close budget st w (y.map .error) w₁ := .aborted hl ha
    refine .inr ⟨st, w, y.map .error, .refl st w, ?_⟩
    change (it.abort close limit st >>= fun cause ↦ pure (Progress.settled (.error cause)))
      ((w.modifyBudget budget Budget.tick).record (.exceeded budget limit)) = _ at heq
    rcases y with e | cause
    · rw [Machine.bind_error ha] at heq
      cases heq
      exact ⟨hend, rfl⟩
    · rw [Machine.bind_ok ha] at heq
      cases heq
      exact ⟨hend, rfl⟩

/-- Every run of the loop that does not run out of fuel is a sequence of moves and an ending. -/
theorem drive_ends {fuel : Nat} {st : State S} {w w' : World S}
    {x : Except Escape (Outcome S.Error Value)}
    (heq : it.drive close budget fuel st w = (x, w')) (hx : x ≠ .error .exhausted) :
    ∃ st₁ w₁, it.Moves close budget st w st₁ w₁ ∧ it.Ending close budget st₁ w₁ x w' := by
  induction fuel generalizing st w with
  | zero =>
    cases heq
    exact absurd rfl hx
  | succ fuel ih =>
    rw [drive] at heq
    rcases hstep : it.step close budget st w with ⟨y, w₁⟩
    rw [hstep] at heq
    have hy : y ≠ .error .exhausted := by
      rintro rfl
      cases heq
      exact hx rfl
    rcases step_moves hstep hy with ⟨st', rfl, h⟩ | ⟨st₁, w₂, z, h, hend, rfl⟩
    · obtain ⟨st₁, w₂, h', hend⟩ := ih heq
      exact ⟨st₁, w₂, h.trans h', hend⟩
    · rcases z with e | o
      · cases heq
        exact ⟨st₁, w₂, h, hend⟩
      · cases heq
        exact ⟨st₁, w₂, h, hend⟩

/-! ### From round to round -/

/-- The loop, begun in one state, arrives at another one and begins a round there. -/
inductive Arrives (it : Interpreter S) (close : Closer S) (budget : BudgetId) :
    State S → World S → State S → World S → Prop where
  | here (st : State S) (w : World S) : Arrives it close budget st w st w
  | round {st st' st'' : State S} {w w' w'' : World S}
      (h : it.step close budget st w = (.ok (.running st'), w'))
      (h' : Arrives it close budget st' w' st'' w'') : Arrives it close budget st w st'' w''

namespace Arrives

variable {st st' st'' : State S} {w w' w'' : World S}

theorem trans (h : it.Arrives close budget st w st' w')
    (h' : it.Arrives close budget st' w' st'' w'') : it.Arrives close budget st w st'' w'' := by
  induction h with
  | here => exact h'
  | round hs _ ih => exact .round hs (ih h')

/-- Between two rounds there are moves only. -/
theorem moves (h : it.Arrives close budget st w st' w') : it.Moves close budget st w st' w' := by
  induction h with
  | here => exact .refl _ _
  | round hs _ ih =>
    rcases step_moves hs nofun with ⟨_, ⟨⟩, hmoves⟩ | ⟨_, _, y, _, _, hy⟩
    · exact hmoves.trans ih
    · cases y <;> cases hy

/-- The loop goes on from where it has arrived. -/
theorem drive (h : it.Arrives close budget st w st' w') {fuel : Nat}
    {x : Except Escape (Outcome S.Error Value)}
    (heq : it.drive close budget fuel st w = (x, w'')) (hx : x ≠ .error .exhausted) :
    ∃ left, it.drive close budget left st' w' = (x, w'') := by
  induction h generalizing fuel with
  | here => exact ⟨fuel, heq⟩
  | round hs _ ih =>
    cases fuel with
    | zero =>
      cases heq
      exact absurd rfl hx
    | succ fuel =>
      rw [Interpreter.drive, hs] at heq
      exact ih heq

end Arrives

end Interpreter

end EffectMachine
