import EffectMachine.Proofs.Discipline

/-!
# What persists

Everything that an interpreter does to the world it does by a handful of changes. A relation between
worlds is *persistent* if each of these changes respects it. Such a relation holds from the
beginning to the end of every run and of everything a run consists of, whatever effects, closures
and strategies are involved (`Interpreter.drive_along`, `Interpreter.closeScope_along`).

The first example is the history: nothing is ever taken back from it. An abort begins and ends, so a
relation need not hold while it is in progress, only across the whole of it.

Nor need it hold while a scope is closing. A relation is *lasting* if it respects all changes but
the beginning of an invocation. It holds along runs as soon as it holds along closings
(`Interpreter.interpretWith_along`). Other relations hold along the runs of some effects only; for
them what a run consists of has to be respected, move by move (`Interpreter.RunsKeep`).
-/

namespace EffectMachine

variable {S : Signature} {α : Type}

open Machine (Along)

/-- A relation between worlds that every change of the world respects, except perhaps that a closing
scope invokes a finalizer. -/
structure Lasting (R : World S → World S → Prop) : Prop extends Drift R where
  take : ∀ w s, R w (w.takeOutcome s).2
  event : ∀ w e, (∀ s f, e ≠ .invoked s f) → R w (w.record e)
  offer : ∀ w s f, R w (w.addFinalizer s f).2
  shutScope : ∀ w s, R w (w.shutScope s)
  tick : ∀ w b, R w (w.modifyBudget b Budget.tick)
  /-- An abort begins, something happens, and the abort ends. -/
  abort : ∀ {w w'} b, R (w.modifyBudget b Budget.beginAbort) w' →
    R w (w'.modifyBudget b Budget.endAbort)

/-- A relation between worlds that every change of the world respects. -/
structure Persistent (R : World S → World S → Prop) : Prop extends Lasting R where
  invocation : ∀ w s f, R w (w.record (.invoked s f))

/-- Running into the limit, opening a scope for a run or a region and the like. -/
theorem Persistent.record {R : World S → World S → Prop} (hR : Persistent R) (w : World S)
    (e : Event S) : R w (w.record e) := by
  by_cases he : ∃ s f, e = .invoked s f
  · obtain ⟨s, f, rfl⟩ := he
    exact hR.invocation w s f
  · exact hR.event w e fun s f heq ↦ he ⟨s, f, heq⟩

theorem Lasting.enterScope {R : World S → World S → Prop} (hR : Lasting R) (w : World S) :
    R w w.enterScope.2 :=
  hR.trans (hR.openScope w) (hR.event _ _ nofun)

/-- The later world has the history of the earlier one, and perhaps more. -/
def World.Extends (w w' : World S) : Prop := w.history <:+ w'.history

/-- Nothing is taken back from the history. -/
theorem persistent_extends : Persistent (World.Extends : World S → World S → Prop) where
  refl _ := List.suffix_rfl
  trans := List.IsSuffix.trans
  state _ _ := List.suffix_rfl
  clock _ _ := List.suffix_rfl
  noise _ _ := List.suffix_rfl
  newSlot _ := List.suffix_rfl
  settle _ _ _ := List.suffix_rfl
  take _ _ := List.suffix_rfl
  forks _ _ := List.suffix_rfl
  openScope _ := List.suffix_rfl
  addCleanup w s c := by
    unfold World.addFinalizer
    split <;> exact List.suffix_cons _ _
  event _ _ _ := List.suffix_cons _ _
  offer w s f := by
    unfold World.addFinalizer
    split <;> exact List.suffix_cons _ _
  shutScope _ _ := List.suffix_cons _ _
  tick _ _ := List.suffix_rfl
  abort _ h := h
  invocation _ _ _ := List.suffix_cons _ _

variable {R : World S → World S → Prop}

/-! ### Closing scopes -/

namespace Host

variable {h : Host S} {release : Releaser S}

/-- An abort closes scopes, and that is all. -/
theorem abort_along (hR : Drift R) (hclose : ∀ s, Along R False (h.close s) fun _ ↦ True)
    (stack : List (Frame S)) (cause : Cause S.Error) :
    Along R False (h.abort stack cause) fun _ ↦ True := by
  induction stack generalizing cause with
  | nil => exact .pure hR trivial
  | cons f rest ih =>
    cases f with
    | closeScope s parent =>
      have hclosing : Along R False (h.closing s cause) fun _ ↦ True := by
        refine .bind hR (hclose s) fun r _ ↦ ?_
        rcases r with failures | ⟨⟩ <;> exact .pure hR trivial
      exact .bind hR hclosing fun cause _ ↦ ih cause
    | resume | recover | restoreContext | retry | timeout | parallel | race => exact ih cause

section

variable (hR : Drift R) (hrecord : ∀ w e, R w (w.record e))
include hR hrecord

/-- Invoking a finalizer does not panic. -/
theorem invoke_along (s : ScopeId) {f : Finalizer S}
    (hf : Along R True (h.finalize release f) fun _ ↦ True) :
    Along R False (h.invoke release s f) fun _ ↦ True :=
  .bind hR (.modify fun w ↦ hrecord w _) fun _ _ ↦ .bind hR hf.guard fun _ _ ↦
    .bind hR (.modify fun w ↦ hrecord w _) fun _ _ ↦ .pure hR trivial

theorem invokeAll_along (s : ScopeId) {fs : List (Finalizer S)}
    (hfs : ∀ f ∈ fs, Along R True (h.finalize release f) fun _ ↦ True) :
    Along R False (h.invokeAll release s fs) fun _ ↦ True := by
  induction fs with
  | nil => exact .pure hR trivial
  | cons f fs ih =>
    obtain ⟨hf, hfs⟩ := List.forall_mem_cons.1 hfs
    refine .bind hR (invoke_along hR hrecord s hf) fun o _ ↦ ?_
    rcases o with cause | ⟨⟩
    · exact .bind hR (ih hfs) fun _ _ ↦ .pure hR trivial
    · exact ih hfs

end

theorem finalize_along (hR : Lasting R) (hclose : ∀ s, Along R False (h.close s) fun _ ↦ True)
    (hrelease : ∀ node context b, Along R True (release node context b) fun _ ↦ True)
    (f : Finalizer S) :
    Along R True (h.finalize release f) fun _ ↦ True := by
  have D := Discipline.any hR.toDrift hclose hR.take
  cases f with
  | cleanup c => exact (h.keeps hR.toDrift hclose hR.take _).post fun _ _ ↦ trivial
  | release build context b =>
    refine .bind hR.toDrift (D.obeys (.finalizer build) trivial).build fun x _ ↦ ?_
    cases x with
    | error d => exact .pure hR.toDrift trivial
    | ok node =>
      exact .bind hR.toDrift (hrelease node context b) fun _ _ ↦ .pure hR.toDrift trivial

theorem shut_along (hR : Persistent R) (hclose : ∀ s, Along R False (h.close s) fun _ ↦ True)
    (hrelease : ∀ node context b, Along R True (release node context b) fun _ ↦ True)
    (s : ScopeId) : Along R False (h.shut release s) fun _ ↦ True := by
  refine .bind hR.toDrift (.gets hR.toDrift _) fun scope _ ↦ ?_
  cases scope.closed with
  | true => exact .pure hR.toDrift trivial
  | false =>
    refine .bind hR.toDrift (.modify fun w ↦ hR.shutScope w s) fun _ _ ↦ ?_
    refine .bind hR.toDrift (invokeAll_along hR.toDrift hR.record s fun f _ ↦
      finalize_along hR.toLasting hclose hrelease f) fun failures _ ↦ ?_
    refine .bind hR.toDrift (.modify fun w ↦ hR.record w _) fun _ _ ↦ ?_
    cases failures <;> exact .pure hR.toDrift trivial

end Host

/-! ### Runs -/

namespace Interpreter

variable {it : Interpreter S} {close : Closer S}

/-- An abort is bracketed by its beginning and its end. -/
theorem abort_along (hR : Drift R)
    (habort : ∀ {w w'} b, R (w.modifyBudget b Budget.beginAbort) w' →
      R w (w'.modifyBudget b Budget.endAbort))
    (hclose : ∀ s, Along R False (close s) fun _ ↦ True) (n : Nat) (st : State S) :
    Along R False (it.abort close n st) fun _ ↦ True := by
  intro w x w' heq hx
  have hstack := Host.abort_along (h := it.host close) hR hclose st.stack
    (.defect (.stepLimitExceeded n))
  change ((it.host close).abort st.stack (.defect (.stepLimitExceeded n)) >>= fun cause ↦
    Machine.modify (fun w ↦ w.modifyBudget st.budget Budget.endAbort) >>= fun _ ↦ pure cause)
      (w.modifyBudget st.budget Budget.beginAbort) = _ at heq
  rcases Machine.bind_eq heq with ⟨cause, w₁, hcause, heq⟩ | ⟨e, he, rfl⟩
  · cases heq
    exact ⟨habort _ (hstack hcause nofun).1, fun _ _ ↦ trivial, nofun⟩
  · obtain ⟨-, -, hpanic⟩ := hstack he (Escape.ne_exhausted hx)
    rcases e with p | _
    · exact (hpanic p rfl).elim
    · exact absurd rfl hx

/-- What happens after the last move keeps to a relation if another move from there does. -/
theorem Ending.along (hR : Drift R) (hexceeded : ∀ w b n, R w (w.record (.exceeded b n)))
    (htick : ∀ w b, R w (w.modifyBudget b Budget.tick))
    (habort : ∀ {w w'} b, R (w.modifyBudget b Budget.beginAbort) w' →
      R w (w'.modifyBudget b Budget.endAbort))
    (hclose : ∀ s, Along R False (close s) fun _ ↦ True) {b : BudgetId} {st : State S}
    (hmove : Along R True (it.move close st) fun _ ↦ True) {w w' : World S}
    {x : Except Escape (Outcome S.Error Value)} (h : it.Ending close b st w x w')
    (hx : x ≠ .error .exhausted) : R w w' := by
  cases h with
  | settled => exact hR.refl _
  | panicked hm => exact (hmove hm nofun).1
  | aborted hl ha =>
    have haborted := (abort_along hR habort hclose _ _ ha fun he ↦ hx (by rw [he]; rfl)).1
    exact hR.trans (hR.trans (htick _ _) (hexceeded _ _ _)) haborted

/-- All runs keep to the relation that are made of effects with the property. -/
structure RunsKeep (R : World S → World S → Prop) (it : Interpreter S) (close : Closer S)
    (N : Node S → Prop) : Prop where
  drift : Drift R
  enterScope : ∀ w, R w w.enterScope.2
  exceeded : ∀ w b n, R w (w.record (.exceeded b n))
  tick : ∀ w b, R w (w.modifyBudget b Budget.tick)
  abort : ∀ {w w'} b, R (w.modifyBudget b Budget.beginAbort) w' →
    R w (w'.modifyBudget b Budget.endAbort)
  closing : ∀ s, Along R False (close s) fun _ ↦ True
  move : ∀ {st : State S}, st.Sound N → Along R True (it.move close st) (State.Sound N)

namespace RunsKeep

variable {N : Node S → Prop} (h : RunsKeep R it close N) {b : BudgetId} {st st' : State S}
  {w w' : World S}
include h

/-- Everything that happens between two moments of a run. -/
theorem moves (hst : st.Sound N) (hmoves : it.Moves close b st w st' w') :
    st'.Sound N ∧ R w w' := by
  induction hmoves with
  | refl => exact ⟨hst, h.drift.refl _⟩
  | tick _ ih => exact ⟨ih.1, h.drift.trans ih.2 (h.tick _ _)⟩
  | move _ hm ih =>
    obtain ⟨hrel, hsound, -⟩ := h.move ih.1 hm nofun
    exact ⟨hsound _ rfl, h.drift.trans ih.2 hrel⟩

/-- What happens after the last move. -/
theorem ending (hst : st.Sound N) {x : Except Escape (Outcome S.Error Value)}
    (hend : it.Ending close b st w x w') (hx : x ≠ .error .exhausted) : R w w' :=
  hend.along h.drift h.exceeded h.tick h.abort h.closing ((h.move hst).post fun _ _ ↦ trivial) hx

/-- The loop. -/
theorem drive (b : BudgetId) (fuel : Nat) (hst : st.Sound N) :
    Along R True (it.drive close b fuel st) fun _ ↦ True := by
  intro w x w' heq hx
  obtain ⟨st₁, w₁, hmoves, hend⟩ := drive_ends heq hx
  obtain ⟨hst₁, hrel⟩ := h.moves hst hmoves
  exact ⟨h.drift.trans hrel (h.ending hst₁ hend hx), fun _ _ ↦ trivial, fun _ _ ↦ trivial⟩

/-- A run, the closing of its root scope included. -/
theorem interpretWith (fuel : Nat) {node : Node S} (hnode : N node) (context : Context)
    (b : BudgetId) :
    Along R True (it.interpretWith close fuel node context b) fun _ ↦ True := by
  have hstart : ∀ root, (State.start node context root b).Sound N := by
    refine fun root ↦ ⟨?_, nofun⟩
    rintro _ ⟨⟩
    exact hnode
  exact .bind h.drift (.modifyGet h.enterScope) fun root _ ↦
    .bind h.drift (h.drive b fuel (hstart root)) fun _ _ ↦
      .bind h.drift ((h.closing root).panics False.elim) fun _ _ ↦ .pure h.drift trivial

end RunsKeep

section

variable (hR : Lasting R) (hr : it.registry = .standard)
  (hclose : ∀ s, Along R False (close s) fun _ ↦ True)
include hR hr hclose

/-- Nothing need be known of effects for a lasting relation that closings keep to. -/
theorem RunsKeep.of_lasting : RunsKeep R it close fun _ ↦ True where
  drift := hR.toDrift
  enterScope := hR.enterScope
  exceeded w b n := hR.event w (.exceeded b n) nofun
  tick := hR.tick
  abort := hR.abort
  closing := hclose
  move hst := move_sound (.any hR.toDrift hclose hR.take) hr hR.enterScope hclose hst
    fun _ _ w ↦ hR.offer w _ _

/-- Acting on what is held in hand. -/
theorem advance_along (st : State S) : Along R True (it.advance close st) fun _ ↦ True := by
  have h := RunsKeep.of_lasting hR hr hclose
  intro w x w' heq hx
  refine ⟨?_, fun _ _ ↦ trivial, fun _ _ ↦ trivial⟩
  rcases advance_moves st.budget heq hx with ⟨st', -, hmoves⟩ | ⟨st₁, w₁, y, hmoves, hend, rfl⟩
  · exact (h.moves st.sound_any hmoves).2
  · have hy : y ≠ .error .exhausted := by
      rintro rfl
      exact hx rfl
    obtain ⟨hst₁, hrel⟩ := h.moves st.sound_any hmoves
    exact hR.trans hrel (h.ending hst₁ hend hy)

/-- The loop. -/
theorem drive_along (b : BudgetId) (fuel : Nat) (st : State S) :
    Along R True (it.drive close b fuel st) fun _ ↦ True :=
  (RunsKeep.of_lasting hR hr hclose).drive b fuel st.sound_any

theorem interpretWith_along (fuel : Nat) (node : Node S) (context : Context) (b : BudgetId) :
    Along R True (it.interpretWith close fuel node context b) fun _ ↦ True :=
  (RunsKeep.of_lasting hR hr hclose).interpretWith fuel trivial context b

end

/-- Closing a scope. -/
theorem closeScope_along (hR : Persistent R) (hr : it.registry = .standard) (fuel : Nat)
    (s : ScopeId) :
    Along R False (it.closeScope fuel s) fun _ ↦ True := by
  induction fuel generalizing s with
  | zero => exact .exhausted
  | succ fuel ih =>
    exact Host.shut_along (h := it.host (it.closeScope fuel)) hR ih
      (interpretWith_along hR.toLasting hr ih fuel) s

end Interpreter

end EffectMachine
