import EffectMachine.Proofs.Persistence
import EffectMachine.Proofs.Scopes
import EffectMachine.Proofs.Slots

/-!
# Outcomes are taken by the visit that made the slot

The handle of an asynchronous effect can be called on, and that is all: closures settle slots, they
take nothing out of them (`Program.SettlesOnly`). What takes an outcome is the visit of an
asynchronous effect when its registration has returned, and the slot is the one that it made. So of
the slots that there are when something begins, none loses its outcome until it ends
(`World.TakesNew`): whatever is taken was put into a slot that has been made on the way.

**Other effects come in.** A registration, or any other closure, may close a scope, and release
effects are interpreted then that were registered before. That these only settle slots as well is
said of the world (`Finalizer.SettlesOnly`) and kept by all that happens, so that the statement is
about both, `World.TakesOwn`. Closings have it by induction on how deep scopes may close in each
other; the steps of a run have it because of their closures, except that awaiting takes an outcome.
There the slot counts as new from the beginning of the visit, and not from the awaiting itself.
-/

namespace EffectMachine

variable {S : Signature} {α : Type}

open Machine (Along)

/-- The closures of a release effect, and of what it leads to, take no outcome out of a slot. -/
def Finalizer.SettlesOnly (p : Program S) : Finalizer S → Prop
  | .cleanup _ => True
  | .release build _ _ => p.SettlesOnly (.finalizer build)

/-! ### Slots made on the way -/

namespace World

variable {w w' w'' : World S} {s : SlotId}

/-- From the one world to the other, outcomes were taken only out of slots that were made on the
way. -/
def TakesNew (w w' : World S) : Prop :=
  ∃ rs, w.Accounts rs w' ∧ ∀ s, .take s ∈ rs → w.slots.size ≤ s.index

namespace TakesNew

/-- Nothing happened to slots. -/
theorem of_slots (h : w'.slots = w.slots) : w.TakesNew w' := ⟨[], .of_slots h, nofun⟩

theorem trans (h : w.TakesNew w') (h' : w'.TakesNew w'') : w.TakesNew w'' := by
  obtain ⟨rs, hrs, hnew⟩ := h
  obtain ⟨rs', hrs', hnew'⟩ := h'
  refine ⟨rs ++ rs', hrs.trans hrs', fun s hs ↦ ?_⟩
  rcases List.mem_append.1 hs with hs | hs
  · exact hnew s hs
  · exact Nat.le_trans hrs.size_le (hnew' s hs)

theorem newSlot (w : World S) : w.TakesNew w.newSlot.2 :=
  ⟨_, .newSlot w, by simp⟩

theorem settle (w : World S) (s : SlotId) (o : Outcome S.Error Value) :
    w.TakesNew (w.settle s o).2 :=
  ⟨_, .settle w s o, by simp⟩

/-- The outcome of a slot that was made on the way is taken. -/
theorem takeOutcome (h : w.TakesNew w') (hs : w.slots.size ≤ s.index) :
    w.TakesNew (w'.takeOutcome s).2 := by
  obtain ⟨rs, hrs, hnew⟩ := h
  refine ⟨rs ++ [.take s], hrs.trans (.takeOutcome w' s), fun s' hs' ↦ ?_⟩
  rcases List.mem_append.1 hs' with hs' | hs'
  · exact hnew s' hs'
  · cases List.mem_singleton.1 hs'
    exact hs

/-- Nothing was taken out of a slot that was there before. -/
theorem exists_not_mem (h : w.TakesNew w') (hs : s.index < w.slots.size) :
    ∃ rs, w.Accounts rs w' ∧ .take s ∉ rs := by
  obtain ⟨rs, hrs, hnew⟩ := h
  exact ⟨rs, hrs, fun hmem ↦ Nat.not_le_of_lt hs (hnew s hmem)⟩

end TakesNew

/-- If all that waits in scopes only settles slots, that stays so, and outcomes are taken only out
of slots that are made on the way. -/
def TakesOwn (p : Program S) (w w' : World S) : Prop :=
  w.Awaits (Finalizer.SettlesOnly p) → w'.Awaits (Finalizer.SettlesOnly p) ∧ w.TakesNew w'

namespace TakesOwn

variable {p : Program S}

/-- Neither scopes nor slots are touched. -/
theorem silent (hscopes : w'.scopes = w.scopes) (hslots : w'.slots = w.slots) : w.TakesOwn p w' :=
  fun h ↦ ⟨h.congr hscopes, .of_slots hslots⟩

theorem addFinalizer (w : World S) (s : ScopeId) {f : Finalizer S} (hf : f.SettlesOnly p) :
    w.TakesOwn p (w.addFinalizer s f).2 :=
  fun h ↦ ⟨h.addFinalizer s hf, .of_slots (w.slots_addFinalizer s f)⟩

theorem shutScope (w : World S) (s : ScopeId) : w.TakesOwn p (w.shutScope s) :=
  fun h ↦ ⟨h.shutScope s, .of_slots rfl⟩

theorem enterScope (w : World S) : w.TakesOwn p w.enterScope.2 :=
  fun h ↦ ⟨h.openScope.congr rfl, .of_slots rfl⟩

theorem drift (p : Program S) : Drift (TakesOwn p) where
  refl _ := silent rfl rfl
  trans h h' hw := ⟨(h' (h hw).1).1, (h hw).2.trans (h' (h hw).1).2⟩
  state _ _ := silent rfl rfl
  clock _ _ := silent rfl rfl
  noise _ _ := silent rfl rfl
  newSlot w h := ⟨h.congr rfl, .newSlot w⟩
  settle w s o h := ⟨h.congr rfl, .settle w s o⟩
  forks _ _ := silent rfl rfl
  openScope _ h := ⟨h.openScope, .of_slots rfl⟩
  addCleanup w s _ := addFinalizer w s trivial

end TakesOwn

end World

/-! ### Visits -/

section

variable {h : Host S}
  (hclose : ∀ s, Along (World.TakesOwn h.program) False (h.close s) fun _ ↦ True)
include hclose

/-- A closure that only settles slots takes nothing. -/
theorem Host.keeps_of_settlesOnly {a : Action S α} (ha : a.SettlesOnly) :
    h.Keeps (World.TakesOwn h.program) a :=
  (h.perform_along (World.TakesOwn.drift _) a (.inr hclose) (.inl ha)).panics fun _ ↦ trivial

/-- Effects that only settle slots lead to such effects, and a visit takes an outcome only out of
the slot that it made. -/
theorem Discipline.settlesOnly (hσ : h.strategy = .sync) :
    Discipline (World.TakesOwn h.program) True h h.program.SettlesOnly where
  drift := World.TakesOwn.drift _
  obeys n hn := by
    have hown : h.program.Closures (fun _ a ↦ a.SettlesOnly) n := Program.Descends.first hn
    exact Node.obeys_of_children (fun m hm ↦ hm.all hn)
      (hown.mono fun _ _ ha ↦ h.keeps_of_settlesOnly hclose ha)
  fork job hjob := by
    rw [hσ]
    refine .pure (World.TakesOwn.drift _) ?_
    rintro _ ⟨⟩
    exact hjob
  join id v := by
    rw [hσ]
    exact .pure (World.TakesOwn.drift _) trivial
  await w := by
    rw [hσ]
    rintro v _ _ ⟨⟩ -
    refine ⟨fun hv hw ↦ ?_, fun _ _ ↦ trivial, nofun⟩
    obtain ⟨hawaits, hnew⟩ := hv (hw.congr rfl)
    exact ⟨hawaits.congr rfl, ((World.TakesNew.newSlot w).trans hnew).takeOutcome (Nat.le_refl _)⟩
  sleep d := by
    rw [hσ]
    exact (h.keeps_of_settlesOnly hclose (a := .sleep d (.done ())) trivial).post fun _ _ ↦ trivial

end

/-! ### Scopes that close -/

/-- Finalizers that only settle slots take nothing, if the release effects that are interpreted do
so. -/
theorem Host.finalize_takesOwn {h : Host S} {release : Releaser S}
    (hclose : ∀ s, Along (World.TakesOwn h.program) False (h.close s) fun _ ↦ True)
    (hcleanup : h.program.CleanupsSettleOnly)
    (hrelease : ∀ node context b, h.program.SettlesOnly node →
      Along (World.TakesOwn h.program) True (release node context b) fun _ ↦ True)
    {f : Finalizer S} (hf : f.SettlesOnly h.program) :
    Along (World.TakesOwn h.program) True (h.finalize release f) fun _ ↦ True := by
  have hR := World.TakesOwn.drift h.program
  cases f with
  | cleanup c => exact (h.keeps_of_settlesOnly hclose (hcleanup c)).post fun _ _ ↦ trivial
  | release build context b =>
    have hown : (h.program.building build).SettlesOnly := Program.Descends.first hf
    have hbuild := ((h.keeps_of_settlesOnly hclose hown).post fun n hn ↦
      Program.Child.all (n := .finalizer build) hn hf).build (E := True)
    refine .bind hR hbuild fun x hx ↦ ?_
    cases x with
    | error d => exact .pure hR trivial
    | ok node => exact .bind hR (hrelease node context b (hx node rfl)) fun _ _ ↦ .pure hR trivial

namespace Interpreter

variable {it : Interpreter S} {close : Closer S}

section

variable (hr : it.registry = .standard) (hσ : it.strategy = .sync)
  (hclose : ∀ s, Along (World.TakesOwn it.program) False (close s) fun _ ↦ True)
include hr hσ hclose

/-- Runs of effects that only settle slots. -/
theorem runsKeep_takesOwn :
    RunsKeep (World.TakesOwn it.program) it close it.program.SettlesOnly where
  drift := World.TakesOwn.drift _
  enterScope := World.TakesOwn.enterScope
  exceeded _ _ _ := .silent rfl rfl
  tick _ _ := .silent rfl rfl
  abort _ h hw := (h (hw.congr rfl)).imp_left fun h ↦ h.congr rfl
  closing := hclose
  move hst := move_sound (.settlesOnly (h := it.host close) hclose hσ) hr World.TakesOwn.enterScope
    hclose hst fun _ hf w ↦ .addFinalizer w _ hf

end

/-- **Closing a scope takes outcomes only out of slots that the visits of its release effects have
made.** -/
theorem closeScope_takesOwn (hr : it.registry = .standard) (hσ : it.strategy = .sync)
    (hcleanup : it.program.CleanupsSettleOnly) (depth : Nat) (s : ScopeId) :
    Along (World.TakesOwn it.program) False (it.closeScope depth s) fun _ ↦ True := by
  refine closeScope_along_of_awaits hr (World.TakesOwn.drift _) (fun _ _ ↦ .silent rfl rfl)
    World.TakesOwn.shutScope (fun h hw ↦ h hw hw) (fun depth hclose f hf ↦ ?_) depth s
  have hruns := runsKeep_takesOwn hr hσ hclose
  exact Host.finalize_takesOwn (h := it.host (it.closeScope depth)) hclose hcleanup
    (fun node context b hnode ↦ hruns.interpretWith depth hnode context b) hf

/-- **The machine takes outcomes only out of slots that its own visits have made**, as long as
closures do nothing to slots but settle them. -/
structure TakesOwn (it : Interpreter S) (fuel : Nat) : Prop where
  closures : ∀ {α : Type} (a : Action S α), a.SettlesOnly →
    Along (World.TakesOwn it.program) True ((it.host (it.closeScope fuel)).perform a)
      fun _ ↦ True
  rounds : ∀ b n (st : State S), st.Sound it.program.SettlesOnly →
    Along (World.TakesOwn it.program) True (it.rounds (it.closeScope fuel) b n st) fun _ ↦ True
  runs : ∀ node context b, it.program.SettlesOnly node →
    Along (World.TakesOwn it.program) True (it.interpretOn fuel node context b) fun _ ↦ True
  closings : ∀ s, Along (World.TakesOwn it.program) False (it.closeScope fuel s) fun _ ↦ True

theorem takesOwn (hr : it.registry = .standard) (hσ : it.strategy = .sync)
    (hcleanup : it.program.CleanupsSettleOnly) (fuel : Nat) : it.TakesOwn fuel := by
  have hclose := closeScope_takesOwn hr hσ hcleanup fuel
  exact {
    closures a ha := (Host.keeps_of_settlesOnly (h := it.host (it.closeScope fuel)) hclose ha).post
      fun _ _ ↦ trivial
    rounds b n st hst := (runsKeep_takesOwn hr hσ hclose).drive b n hst
    runs node context b hnode :=
      (runsKeep_takesOwn hr hσ hclose).interpretWith fuel hnode context b
    closings := hclose }

end Interpreter

end EffectMachine
