import EffectMachine.Proofs.Persistence
import EffectMachine.Proofs.StepLimit

/-!
# Where a run counts its steps

A run counts a step at the beginning of every round of its loop, and so do the interpretations of
release effects that it starts while scopes close. All of them count on one budget. A `Moment` is
the beginning of such a round, and `Interpreter.Counts` says that a run comes to it, however deep it
lies in finalizers of finalizers. The relation follows the text of the interpreter: each rule goes
from a part of a run to the part of it that is done next.

Moments inside an abort are left out: there no step exceeds a limit.

A run that comes to a moment and ends has ended the loop at that moment before (`Counts.ends`). So
what had happened by then stays part of its history.
-/

namespace EffectMachine

variable {S : Signature} {α β : Type}

open Machine (Along)

/-- A part of a run, about to be done. -/
inductive Activity (S : Signature) where
  /-- Interpreting an effect in a fresh root scope. -/
  | running (node : Node S) (context : Context)
  /-- Going on in the loop. -/
  | looping (st : State S)
  /-- Acting on what is held in hand, when the step has been counted. -/
  | acting (st : State S)
  | closing (s : ScopeId)
  /-- Invoking the finalizers of a scope that is closing. -/
  | invoking (s : ScopeId) (fs : List (Finalizer S))

/-- The beginning of a round in a run: how deep scopes may still close in each other, and the state
of the interpretation that makes the round. -/
structure Moment (S : Signature) where
  depth : Nat
  state : State S
  world : World S

namespace Interpreter

variable (it : Interpreter S) (b : BudgetId)

/-- Doing its part, a run that counts on the budget comes to the moment. -/
inductive Counts : Nat → Activity S → World S → Moment S → Prop where
  | here (d : Nat) (st : State S) (w : World S) : Counts d (.looping st) w ⟨d, st, w⟩
  /-- The loop makes a round and goes on. -/
  | next {d : Nat} {st st' : State S} {w w' : World S} {m : Moment S}
      (h : it.step (it.closeScope d) b st w = (.ok (.running st'), w'))
      (h' : Counts d (.looping st') w' m) : Counts d (.looping st) w m
  /-- The loop counts a step, which does not exceed the limit. -/
  | within {d : Nat} {st : State S} {w w' : World S} {m : Moment S}
      (h : it.tick b w = (.ok none, w')) (h' : Counts d (.acting st) w' m) :
      Counts d (.looping st) w m
  /-- A failure falls on a frame that lets it pass. -/
  | falls {d : Nat} {st st' : State S} {w w' : World S} {m : Moment S} {f : Frame S}
      {rest : List (Frame S)} {cause cause' : Cause S.Error} (hc : st.control = .failure cause)
      (hs : st.stack = f :: rest)
      (h : (it.host (it.closeScope d)).fall f cause
          { st with stack := rest, control := .pending } w =
        (.ok (.on cause' st'), w'))
      (h' : Counts d (.acting ({ st' with stack := rest }.fail cause')) w' m) :
      Counts d (.acting st) w m
  /-- An outcome leaves a region, whose scope closes. -/
  | leaves {d : Nat} {st : State S} {w : World S} {m : Moment S} {s parent : ScopeId}
      {rest : List (Frame S)} {o : Outcome S.Error Value}
      (hs : st.stack = .closeScope s parent :: rest) (hc : st.control = .ofOutcome o)
      (h : Counts d (.closing s) w m) : Counts d (.acting st) w m
  /-- A scope closes that is open. -/
  | closes {d : Nat} {w : World S} {m : Moment S} {s : ScopeId}
      (hs : (w.scope s).closed = false)
      (h : Counts d (.invoking s (w.scope s).finalizers) (w.shutScope s) m) :
      Counts (d + 1) (.closing s) w m
  /-- A finalizer is invoked, and then others. -/
  | invoked {d : Nat} {w w' : World S} {m : Moment S} {s : ScopeId} {f : Finalizer S}
      {fs : List (Finalizer S)} {o : Outcome S.Error Unit}
      (h : (it.host (it.closeScope d)).invoke (it.interpretOn d) s f w = (.ok o, w'))
      (h' : Counts d (.invoking s fs) w' m) : Counts d (.invoking s (f :: fs)) w m
  /-- A release effect that counts on the budget is built and interpreted. -/
  | releases {d : Nat} {w w' : World S} {m : Moment S} {s : ScopeId} {build : Action S (Plan S)}
      {context : Context} {fs : List (Finalizer S)} {node : Node S}
      (h : (it.host (it.closeScope d)).build build
        (w.record (.invoked s (.release build context b))) = (.ok (.ok node), w'))
      (h' : Counts d (.running node context) w' m) :
      Counts d (.invoking s (.release build context b :: fs)) w m
  /-- An interpretation opens its root scope and begins its loop. -/
  | body {d : Nat} {w : World S} {m : Moment S} {node : Node S} {context : Context}
      (h : Counts d (.looping (.start node context w.enterScope.1 b)) w.enterScope.2 m) :
      Counts d (.running node context) w m
  /-- The loop of an interpretation ends, and its root scope closes. -/
  | root {d : Nat} {w w' : World S} {m : Moment S} {node : Node S} {context : Context}
      {o : Outcome S.Error Value}
      (h : it.rounds (it.closeScope d) b d (.start node context w.enterScope.1 b) w.enterScope.2 =
        (.ok o, w'))
      (h' : Counts d (.closing w.enterScope.1) w' m) : Counts d (.running node context) w m

/-- A loop that arrives at a round comes to the moment there. -/
theorem Arrives.counts {it : Interpreter S} {b : BudgetId} {d : Nat} {st st' : State S}
    {w w' : World S} (h : it.Arrives (it.closeScope d) b st w st' w') :
    it.Counts b d (.looping st) w ⟨d, st', w'⟩ := by
  induction h with
  | here st w => exact .here d st w
  | round hs _ ih => exact .next hs ih

end Interpreter

/-! ### Rounds and frames as computations -/

namespace Interpreter

variable {it : Interpreter S} {close : Closer S} {b : BudgetId} {w w' : World S}

theorem tick_eq : it.tick b w =
    (.ok (((w.modifyBudget b Budget.tick).budget b).exceeds it.config.stepLimit),
      w.modifyBudget b Budget.tick) := rfl

/-- A round whose step is within the limit. -/
theorem step_within (h : it.tick b w = (.ok none, w')) (st : State S) :
    it.step close b st w = it.advance close st w' := by
  rw [step, Machine.bind_ok h]

/-- A round whose step is within the limit, and the rest of the loop. -/
theorem rounds_within (h : it.tick b w = (.ok none, w')) (fuel : Nat) (st : State S) :
    it.rounds close b (fuel + 1) st w = it.pursue close b fuel st w' := by
  rw [rounds, drive, step_within h, pursue, Machine.bind_apply]
  rcases it.advance close st w' with ⟨_ | (st' | o), w₁⟩ <;> rfl

/-- A round whose step exceeds the limit. -/
theorem rounds_exceeded {n : Nat}
    (h : it.tick b w = (.ok (some n), w')) (fuel : Nat) (st : State S) :
    it.rounds close b (fuel + 1) st w =
      (it.abort close n st >>= fun cause ↦ pure (.error cause)) (w'.record (.exceeded b n)) := by
  have hstep : it.step close b st w = (it.abort close n st >>= fun cause ↦
      pure (Progress.settled (.error cause))) (w'.record (.exceeded b n)) := by
    rw [step, Machine.bind_ok h]
    rfl
  rw [rounds, drive, hstep, Machine.bind_apply, Machine.bind_apply]
  rcases it.abort close n st (w'.record (.exceeded b n)) with ⟨e | cause, w₁⟩ <;> rfl

/-- A failure in hand falls on the newest frame first. -/
theorem advance_failure {st : State S} {f : Frame S} {rest : List (Frame S)} {cause : Cause S.Error}
    (hs : st.stack = f :: rest) (hc : st.control = .failure cause) :
    it.advance close st =
      (it.host close).fall f cause { st with stack := rest, control := .pending } >>= fun x ↦
        match x with
        | .caught st => pure (.running st)
        | .on cause st => it.advance close ({ st with stack := rest }.fail cause) := by
  obtain ⟨context, stack, scope, control, b⟩ := st
  cases hs
  cases hc
  funext w
  change ((it.host close).unwind (f :: rest) cause ⟨context, [], scope, .pending, b⟩ >>= _) w = _
  rw [Host.unwind, bind_assoc]
  rcases hx : (it.host close).fall f cause ⟨context, rest, scope, .pending, b⟩ w with ⟨e | x, w'⟩
  · rw [Machine.bind_error hx, Machine.bind_error hx]
  · rw [Machine.bind_ok hx, Machine.bind_ok hx]
    cases x with
    | caught st => rfl
    | on c st =>
      obtain ⟨context', stack', scope', control', b'⟩ := st
      obtain ⟨hcontrol, -, -⟩ := Host.fall_on hx
      cases hcontrol
      change _ = ((it.host close).unwind rest c ⟨context', [], scope', .pending, b'⟩ >>= _) w'
      rw [← Host.unwind_stack]

/-- What is done with the outcome of a region once its scope is closed: a value goes round the loop
again, a failure falls on. -/
def leaving (it : Interpreter S) (close : Closer S) (st : State S) (rest : List (Frame S))
    (parent : ScopeId) (o : Outcome S.Error Value) (r : Outcome S.Error Unit) :
    Machine S (Progress S) :=
  match o with
  | .ok _ => return .running ⟨st.context, rest, parent, .ofOutcome (o.merge r), st.budget⟩
  | .error _ => it.advance close ⟨st.context, rest, parent, .ofOutcome (o.merge r), st.budget⟩

/-- An outcome that leaves a region has its scope closed first. -/
theorem advance_closeScope {st : State S} {s parent : ScopeId} {rest : List (Frame S)}
    {o : Outcome S.Error Value} (hs : st.stack = .closeScope s parent :: rest)
    (hc : st.control = .ofOutcome o) :
    it.advance close st = close s >>= it.leaving close st rest parent o := by
  obtain ⟨context, stack, scope, control, b⟩ := st
  cases hs
  cases hc
  cases o with
  | ok v =>
    change ((it.host close).resume (.closeScope s parent) v ⟨context, rest, scope, .pending, b⟩
      >>= fun st ↦ pure (Progress.running st)) = _
    simp only [Host.resume, host, bind_assoc]
    refine bind_congr fun r ↦ ?_
    rcases r with c | ⟨⟩ <;> rfl
  | error cause =>
    refine (advance_failure rfl rfl).trans ?_
    simp only [Host.fall, Host.closing, host, bind_assoc]
    refine bind_congr fun r ↦ ?_
    rcases r with c | ⟨⟩ <;> rfl

end Interpreter

/-! ### Runs that end -/

/-- The computation ends in the world. -/
def Machine.Ends (m : Machine S α) (w w' : World S) : Prop :=
  ∃ x, m w = (x, w') ∧ x ≠ .error .exhausted

namespace Machine.Ends

variable {m : Machine S α} {f : α → Machine S β} {w w' w'' : World S}

/-- If a sequence ends its first part has ended, and perhaps there was a second part. -/
theorem first {R : World S → World S → Prop} {E : Prop} {Q : β → Prop} (h : (m >>= f).Ends w w'')
    (hR : Drift R) (hf : ∀ a, Along R E (f a) Q) : ∃ w', m.Ends w w' ∧ R w' w'' := by
  obtain ⟨y, heq, hy⟩ := h
  rcases bind_eq heq with ⟨a, w', ha, heq⟩ | ⟨e, he, rfl⟩
  · exact ⟨w', ⟨_, ha, nofun⟩, (hf a heq hy).1⟩
  · exact ⟨w'', ⟨_, he, Escape.ne_exhausted hy⟩, hR.refl w''⟩

theorem second {a : α} (h : (m >>= f).Ends w w'') (ha : m w = (.ok a, w')) :
    (f a).Ends w' w'' := by
  obtain ⟨y, heq, hy⟩ := h
  rw [bind_ok ha] at heq
  exact ⟨y, heq, hy⟩

end Machine.Ends

namespace Interpreter

/-- Doing its part, a run that counts on the budget ends in the world. -/
def Concludes (it : Interpreter S) (b : BudgetId) (d : Nat) : Activity S → World S → World S → Prop
  | .running node context => (it.interpretOn d node context b).Ends
  | .looping st => fun w w' ↦ ∃ fuel, (it.rounds (it.closeScope d) b fuel st).Ends w w'
  | .acting st => (it.advance (it.closeScope d) st).Ends
  | .closing s => (it.closeScope d s).Ends
  | .invoking s fs => ((it.host (it.closeScope d)).invokeAll (it.interpretOn d) s fs).Ends

variable {it : Interpreter S} {b : BudgetId} {R : World S → World S → Prop}

section

variable (hR : Persistent R) (hr : it.registry = .standard) (d : Nat)
include hR hr

theorem leaving_along (st : State S) (rest : List (Frame S)) (parent : ScopeId)
    (o : Outcome S.Error Value) (r : Outcome S.Error Unit) :
    Along R True (it.leaving (it.closeScope d) st rest parent o r) fun _ ↦ True := by
  cases o with
  | ok v => exact .pure hR.toDrift trivial
  | error c => exact advance_along hR.toLasting hr (closeScope_along hR hr d) _

/-- The rest of the loop after a round. -/
theorem going_along (fuel : Nat) (p : Progress S) :
    Along R True (match p with
      | .running st => it.rounds (it.closeScope d) b fuel st
      | .settled o => pure o) fun _ ↦ True := by
  cases p with
  | running st' => exact drive_along hR.toLasting hr (closeScope_along hR hr d) b fuel st'
  | settled o => exact .pure hR.toDrift trivial

theorem invokeAll_along (s : ScopeId) (fs : List (Finalizer S)) :
    Along R False ((it.host (it.closeScope d)).invokeAll (it.interpretOn d) s fs) fun _ ↦ True := by
  have hclose := closeScope_along hR hr d
  exact Host.invokeAll_along hR.toDrift hR.record s fun f _ ↦
    Host.finalize_along hR.toLasting hclose (interpretWith_along hR.toLasting hr hclose d) f

end

/-- An interpretation ends as its loop does and the closing of its root scope. -/
theorem running_concludes {d : Nat} {node : Node S} {context : Context} {w w' : World S}
    (h : it.Concludes b d (.running node context) w w') :
    Machine.Ends (it.rounds (it.closeScope d) b d (.start node context w.enterScope.1 b) >>= fun o ↦
      it.closeScope d w.enterScope.1 >>= fun r ↦ pure (o.merge r)) w.enterScope.2 w' :=
  h

/-- The loop at the moment has ended, and what is left of the run leads to the world. -/
def Concluded (it : Interpreter S) (b : BudgetId) (R : World S → World S → Prop) (m : Moment S)
    (w' : World S) : Prop :=
  ∃ w, it.Concludes b m.depth (.looping m.state) m.world w ∧ R w w'

theorem Concluded.before {m : Moment S} {w w' : World S} (h : it.Concluded b R m w)
    (hR : Persistent R) (hw : R w w') : it.Concluded b R m w' := by
  obtain ⟨w₁, hloop, hrel⟩ := h
  exact ⟨w₁, hloop, hR.trans hrel hw⟩

/-- When the closing of an open scope has ended, the invoking of its finalizers has. -/
theorem closing_concludes (hR : Persistent R) (hr : it.registry = .standard) {d : Nat} {s : ScopeId}
    {w w' : World S} (hs : (w.scope s).closed = false)
    (h : it.Concludes b (d + 1) (.closing s) w w') :
    ∃ w₁, it.Concludes b d (.invoking s (w.scope s).finalizers) (w.shutScope s) w₁ ∧ R w₁ w' := by
  obtain ⟨x, heq, hx⟩ := h
  rcases Host.shut_eq heq with ⟨hc, -⟩ | ⟨-, y, w₁, hinvoke, rfl, hw'⟩
  · cases hs.symm.trans hc
  · have hy : y ≠ .error .exhausted := fun hy ↦ hx (by rw [hy]; rfl)
    -- finalizers are guarded, so that no panic leaves the scope half closed
    have hnone := (invokeAll_along hR hr d s _ hinvoke hy).2.2
    rcases y with (p | _) | causes
    · exact (hnone p rfl).elim
    · exact absurd rfl hy
    · rw [hw' _ rfl]
      exact ⟨w₁, ⟨_, hinvoke, hy⟩, hR.record _ _⟩

/-- When a release effect counts on the budget and its invoking has ended, and that of the
finalizers after it, its interpretation has. -/
theorem releasing_concludes (hR : Persistent R) (hr : it.registry = .standard) {d : Nat}
    {s : ScopeId} {build : Action S (Plan S)} {context : Context} {fs : List (Finalizer S)}
    {node : Node S} {w w₁ w' : World S}
    (hbuild : (it.host (it.closeScope d)).build build
      (w.record (.invoked s (.release build context b))) = (.ok (.ok node), w₁))
    (h : it.Concludes b d (.invoking s (.release build context b :: fs)) w w') :
    ∃ w₂, it.Concludes b d (.running node context) w₁ w₂ ∧ R w₂ w' := by
  have hpure : ∀ {α : Type} (a : α), Along R True (pure a : Machine S α) fun _ ↦ True := fun _ ↦
    .pure hR.toDrift trivial
  rw [Concludes, Host.invokeAll_cons] at h
  obtain ⟨w₂, ⟨x, hinvoke, hx⟩, hrel⟩ := h.first hR.toDrift fun o ↦
    .bind hR.toDrift ((invokeAll_along hR hr d s fs).panics fun _ ↦ trivial) fun causes _ ↦ hpure _
  obtain ⟨y, w₃, o, hy, hne, -, rfl, rfl⟩ := Host.invoke_eq hinvoke hx
  have hfinalize : Machine.Ends _ _ w₃ := ⟨y, hy, hne⟩
  obtain ⟨w₄, hrun, hrel'⟩ := (hfinalize.second hbuild).first hR.toDrift fun o ↦ hpure _
  exact ⟨w₄, hrun, hR.trans hrel' (hR.trans (hR.record _ _) hrel)⟩

/-- A run that comes to a moment and ends has ended the loop at that moment before. -/
theorem Counts.ends (hR : Persistent R) (hr : it.registry = .standard) {d : Nat} {a : Activity S}
    {w w' : World S} {m : Moment S} (h : it.Counts b d a w m) (hend : it.Concludes b d a w w') :
    it.Concluded b R m w' := by
  have hpure : ∀ {α : Type} (a : α), Along R True (pure a : Machine S α) fun _ ↦ True := fun _ ↦
    .pure hR.toDrift trivial
  have hclosing : ∀ (d : Nat) (s : ScopeId) (o : Outcome S.Error Value), Along R True
      (it.closeScope d s >>= fun r ↦ pure (o.merge r)) fun _ ↦ True := fun d s o ↦
    .bind hR.toDrift ((closeScope_along hR hr d s).panics fun _ ↦ trivial) fun r _ ↦ hpure _
  induction h generalizing w' with
  | here d st w => exact ⟨w', hend, hR.refl w'⟩
  | @next d st st' w w₁ m hstep _ ih =>
    obtain ⟨_ | fuel, x, heq, hx⟩ := hend
    · cases heq
      exact absurd rfl hx
    · rw [rounds, drive, hstep] at heq
      exact ih ⟨fuel, x, heq, hx⟩
  | @within d st w w₁ m htick _ ih =>
    obtain ⟨_ | fuel, x, heq, hx⟩ := hend
    · cases heq
      exact absurd rfl hx
    · rw [rounds_within htick] at heq
      have hpursue : (it.pursue (it.closeScope d) b fuel st).Ends w₁ w' := ⟨x, heq, hx⟩
      obtain ⟨w₂, hacting, hrel⟩ := hpursue.first hR.toDrift fun p ↦ going_along hR hr d fuel p
      exact (ih hacting).before hR hrel
  | @falls d st st' w w₁ m f rest cause cause' hc hs hfall _ ih =>
    rw [Concludes, advance_failure hs hc] at hend
    exact ih (hend.second hfall)
  | @leaves d st w m s parent rest o hs hc _ ih =>
    rw [Concludes, advance_closeScope hs hc] at hend
    obtain ⟨w₁, hclosed, hrel⟩ := hend.first hR.toDrift fun r ↦
      leaving_along hR hr d st rest parent o r
    exact (ih hclosed).before hR hrel
  | closes hs _ ih =>
    obtain ⟨w₁, hinvoking, hrel⟩ := closing_concludes hR hr hs hend
    exact (ih hinvoking).before hR hrel
  | invoked hinvoke _ ih =>
    rw [Concludes, Host.invokeAll_cons] at hend
    obtain ⟨w₂, hfs, hrel⟩ := (hend.second hinvoke).first hR.toDrift fun causes ↦ hpure _
    exact (ih hfs).before hR hrel
  | releases hbuild _ ih =>
    obtain ⟨w₂, hrun, hrel⟩ := releasing_concludes hR hr hbuild hend
    exact (ih hrun).before hR hrel
  | @body d w m node context _ ih =>
    obtain ⟨w₁, hbody, hrel⟩ := (running_concludes hend).first hR.toDrift fun o ↦ hclosing d _ o
    exact (ih ⟨d, hbody⟩).before hR hrel
  | root hbody _ ih =>
    obtain ⟨w₂, hroot, hrel⟩ := ((running_concludes hend).second hbody).first hR.toDrift fun r ↦
      hpure _
    exact (ih hroot).before hR hrel

end Interpreter

end EffectMachine
