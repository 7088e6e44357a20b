import EffectMachine.Proofs.Enclosing
import EffectMachine.Proofs.Persistence
import EffectMachine.Proofs.Scopes

/-!
# Effects that provide standard layers

An effect *furnishes* if all effects that interpreting it may visit, its release effects included,
are provided with standard layers only (`Program.Furnishes`). What a run of such an effect relies on
is in its state, and in the finalizers that wait in scopes: each release effect there was registered
in a context, and is going to be interpreted in it. `World.Furnished` says that these contexts are
typed and that the release effects furnish.

So the runs of release effects need no treatment of their own. A scope that closes in a furnished
world begins runs of effects that furnish, in typed contexts, and leaves a furnished world behind
(`Interpreter.closeScope_furnished`, by induction on the depth to which closing may nest); and a run
of an effect that furnishes, begun in a typed context, is within standard layers all the time, and
registers its release effects in typed contexts (`Interpreter.Within.furnished`).
-/

namespace EffectMachine

variable {S : Signature}

open Machine (Along)

/-! ### Effects, finalizers and worlds -/

/-- If the effect provides another one with a layer, the layer is standard. -/
def Node.ProvidesStandard : Node S → Prop
  | .provide layer _ => layer.Standard
  | _ => True

/-- Wherever interpreting the effect may provide another one with a layer, that is standard. -/
def Program.Furnishes (p : Program S) (n : Node S) : Prop :=
  ∀ m, p.Descends n m → m.ProvidesStandard

/-- A release effect that furnishes and was registered in a typed context, or a named finalizer. -/
def Finalizer.Furnished (p : Program S) : Finalizer S → Prop
  | .cleanup _ => True
  | .release build context _ =>
    context.Typed ∧ ∀ n, (p.building build).Yields n → p.Furnishes n

/-- All finalizers that wait in scopes are furnished. -/
def World.Furnished (p : Program S) (w : World S) : Prop := w.Awaits (Finalizer.Furnished p)

/-- A world that is furnished stays so. -/
def World.StaysFurnished (p : Program S) (w w' : World S) : Prop := w.Furnished p → w'.Furnished p

/-- Closures register named finalizers only. -/
theorem World.StaysFurnished.drift (p : Program S) : Drift (World.StaysFurnished p) where
  refl _ := id
  trans h h' := h' ∘ h
  state _ _ h := h.congr rfl
  clock _ _ h := h.congr rfl
  noise _ _ h := h.congr rfl
  newSlot _ h := h.congr rfl
  settle _ _ _ h := h.congr rfl
  forks _ _ h := h.congr rfl
  openScope _ h := h.openScope
  addCleanup _ s _ h := h.addFinalizer s trivial

theorem World.StaysFurnished.takeOutcome {p : Program S} (w : World S) (s : SlotId) :
    w.StaysFurnished p (w.takeOutcome s).2 := fun h ↦ h.congr rfl

theorem World.StaysFurnished.record {p : Program S} (w : World S) (e : Event S) :
    w.StaysFurnished p (w.record e) := fun h ↦ h.congr rfl

/-! ### Scopes that close -/

section

variable {h : Host S} {release : Releaser S}
  (hclose : ∀ s, Along (World.StaysFurnished h.program) False (h.close s) fun _ ↦ True)
include hclose

/-- Furnished finalizers keep the world furnished, if release effects that furnish do. -/
theorem Host.finalize_furnished
    (hrelease : ∀ node context b, context.Typed → h.program.Furnishes node →
      Along (World.StaysFurnished h.program) True (release node context b) fun _ ↦ True)
    {f : Finalizer S} (hf : f.Furnished h.program) :
    Along (World.StaysFurnished h.program) True (h.finalize release f) fun _ ↦ True := by
  have hR := World.StaysFurnished.drift h.program
  cases f with
  | cleanup c =>
    exact (h.keeps hR hclose World.StaysFurnished.takeOutcome _).post fun _ _ ↦ trivial
  | release build context b =>
    obtain ⟨hcontext, hfurnishes⟩ := hf
    have hbuild := ((h.keeps hR hclose World.StaysFurnished.takeOutcome
      (h.program.building build)).post hfurnishes).build (E := True)
    refine .bind hR hbuild fun x hx ↦ ?_
    cases x with
    | error d => exact .pure hR trivial
    | ok node =>
      exact .bind hR (hrelease node context b hcontext (hx node rfl)) fun _ _ ↦ .pure hR trivial

end

namespace Interpreter

variable {it : Interpreter S} {close : Closer S} {b : BudgetId} {st st' : State S}
  {w w' w₀ : World S}

section Runs

variable (hr : it.registry = .standard) (hσ : it.strategy.KeepsJobs)
  (hclose : ∀ s, Along (World.StaysFurnished it.program) False (close s) fun _ ↦ True)
include hr hσ hclose

/-- A move in a typed context of a state that is made of effects that furnish. -/
theorem move_furnished (hst : st.Sound it.program.Furnishes) (hcontext : st.context.Typed) :
    Along (World.StaysFurnished it.program) True (it.move close st)
      (State.Sound it.program.Furnishes) := by
  have D : Discipline (World.StaysFurnished it.program) True (it.host close) it.program.Furnishes :=
    .inherited (World.StaysFurnished.drift _) hclose World.StaysFurnished.takeOutcome hσ
      fun n m hn hm ↦ Program.Child.all hm hn
  exact move_sound D hr (fun _ hw ↦ hw.openScope.congr rfl) hclose hst fun release hf _ hw ↦
    hw.addFinalizer _ ⟨hcontext, fun n hn ↦ Program.Child.all (n := .finalizer release) hn hf⟩

/-- **A run of an effect that furnishes**, begun in a typed context, is within standard layers only,
and keeps a furnished world furnished. -/
theorem Within.furnished {node : Node S} (hnode : it.program.Furnishes node) {context : Context}
    (hcontext : context.Typed) {root : ScopeId} {b' : BudgetId} {ls : List (Layer S)}
    (h : it.Within close b (.start node context root b') w₀ ls st w) :
    (∀ l ∈ ls, l.Standard) ∧ st.Sound it.program.Furnishes ∧
      World.StaysFurnished it.program w₀ w := by
  have hR := World.StaysFurnished.drift it.program
  -- standard layers keep the context in force typed, which the next move relies on
  have hmove : ∀ {ls st st' w w'}, it.Within close b (.start node context root b') w₀ ls st w →
      (∀ l ∈ ls, l.Standard) ∧ st.Sound it.program.Furnishes ∧
        World.StaysFurnished it.program w₀ w → it.move close st w = (.ok st', w') →
      st'.Sound it.program.Furnishes ∧ World.StaysFurnished it.program w₀ w' := by
    intro ls st st' w w' h hst hm
    obtain ⟨hrel, hok, -⟩ :=
      move_furnished hr hσ hclose hst.2.1 (h.typed hr hσ rfl hcontext hst.1) hm nofun
    exact ⟨hok st' rfl, hR.trans hst.2.2 hrel⟩
  induction h with
  | start =>
    refine ⟨nofun, ⟨?_, nofun⟩, id⟩
    rintro _ ⟨⟩
    exact hnode
  | tick _ ih => exact ⟨ih.1, ih.2.1, fun hw ↦ (ih.2.2 hw).congr rfl⟩
  | enters h hc hm _ ih =>
    have hlayer : Layer.Standard _ := Program.Descends.first (ih.2.1.control _ hc)
    exact ⟨List.forall_mem_cons.mpr ⟨hlayer, ih.1⟩, hmove h ih hm⟩
  | leaves h hm _ ih => exact ⟨(List.forall_mem_cons.mp ih.1).2, hmove h ih hm⟩
  | stays h hm _ ih => exact ⟨ih.1, hmove h ih hm⟩

/-- Such a run keeps a furnished world furnished to its end, the closing of its root scope
included. -/
theorem interpretWith_furnished (fuel : Nat) {node : Node S} (hnode : it.program.Furnishes node)
    {context : Context} (hcontext : context.Typed) (b : BudgetId) :
    Along (World.StaysFurnished it.program) True (it.interpretWith close fuel node context b)
      fun _ ↦ True := by
  have hR := World.StaysFurnished.drift it.program
  have henter : ∀ w : World S, w.StaysFurnished it.program w.enterScope.2 := fun w hw ↦
    hw.openScope.congr rfl
  have hdrive : ∀ root, Along (World.StaysFurnished it.program) True
      (it.drive close b fuel (.start node context root b)) fun _ ↦ True := by
    intro root w x w' heq hx
    refine ⟨?_, fun _ _ ↦ trivial, fun _ _ ↦ trivial⟩
    obtain ⟨st₁, w₁, hmoves, hend⟩ := drive_ends heq hx
    obtain ⟨ls, hwithin⟩ := hmoves.within hr hσ rfl
    obtain ⟨hls, hsound, hw₁⟩ := hwithin.furnished hr hσ hclose hnode hcontext
    have hmove := move_furnished hr hσ hclose hsound (hwithin.typed hr hσ rfl hcontext hls)
    exact hR.trans hw₁ (hend.along hR (fun _ _ _ ↦ .record _ _) (fun _ _ h ↦ h.congr rfl)
      (fun _ h hw ↦ (h (hw.congr rfl)).congr rfl) hclose (hmove.post fun _ _ ↦ trivial) hx)
  exact .bind hR (.modifyGet henter) fun root _ ↦ .bind hR (hdrive root) fun _ _ ↦
    .bind hR ((hclose root).panics False.elim) fun _ _ ↦ .pure hR trivial

end Runs

/-- **Closing a scope of a furnished world leaves a furnished world behind**, whatever release
effects are interpreted. -/
theorem closeScope_furnished (hr : it.registry = .standard) (hσ : it.strategy.KeepsJobs)
    (depth : Nat) (s : ScopeId) :
    Along (World.StaysFurnished it.program) False (it.closeScope depth s) fun _ ↦ True := by
  refine closeScope_along_of_awaits hr (World.StaysFurnished.drift _) World.StaysFurnished.record
    (fun w s hw ↦ hw.shutScope s) (fun h hw ↦ h hw hw) (fun depth hclose f hf ↦ ?_) depth s
  exact Host.finalize_furnished (h := it.host (it.closeScope depth)) hclose
    (fun node context b hcontext hnode ↦
      interpretWith_furnished hr hσ hclose depth hnode hcontext b) hf

end Interpreter

end EffectMachine
