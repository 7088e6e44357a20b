import EffectMachine.Proofs.Composition

/-!
# Time does not run backwards

Whatever a computation is asked to do and wherever it stops, the clock has not gone back
(`World.Later`). That includes computations that run out of fuel, of which relations along
computations say nothing. The operations on the world do not turn the clock back, so nothing that
is put together from them does (`Machine.Forward.compositional`).

A clock that has reached the largest word stays there. So if it has not reached it in the end, no
reading on the way was cut off.
-/

namespace EffectMachine

variable {S : Signature} {α β : Type}

/-- The clock of the later world has not gone back, nor beyond the largest word. -/
structure World.Later (w w' : World S) : Prop where
  le : min w.clock.nanos wordMax ≤ w'.clock.nanos
  word : w.clock.nanos ≤ wordMax → w'.clock.nanos ≤ wordMax

namespace World.Later

variable {w w' w'' : World S}

/-- Nothing has happened to the clock. -/
theorem of_clock (h : w'.clock = w.clock) : w.Later w' where
  le := h ▸ Nat.min_le_left _ _
  word hw := h ▸ hw

/-- A clock that has not reached the largest word had not reached it before. -/
theorem lt_of_lt (h : w.Later w') (hlt : w'.clock.nanos < wordMax) : w.clock.nanos < wordMax := by
  have hle := h.le
  omega

theorem trans (h : w.Later w') (h' : w'.Later w'') : w.Later w'' where
  le := by
    have hle := h.le
    have hle' := h'.le
    omega
  word hw := h'.word (h.word hw)

theorem advance (w : World S) (d : Duration) : w.Later (w.modifyClock fun c ↦ c.advance d) where
  le := by
    show _ ≤ min (w.clock.nanos + min d.nanos wordMax) wordMax
    omega
  word _ := Nat.min_le_right _ _

theorem sleep (w : World S) (d : Duration) : w.Later (w.modifyClock fun c ↦ c.sleep d) :=
  (advance w d).trans (⟨Nat.min_le_left _ _, id⟩)

end World.Later

/-- The clock has not gone back when the computation stops, with whatever answer. -/
def Machine.Forward (m : Machine S α) : Prop := ∀ w : World S, w.Later (m w).2

namespace Machine.Forward

variable {m : Machine S α} {f : α → Machine S β}

theorem pure (a : α) : Forward (S := S) (Pure.pure a) := fun _ ↦ .of_clock rfl

theorem escape (e : Escape) : Forward (S := S) (Machine.escape e : Machine S α) :=
  fun _ ↦ .of_clock rfl

theorem bind (h : m.Forward) (hf : ∀ a, (f a).Forward) : (m >>= f).Forward := by
  intro w
  rcases hm : m w with ⟨e | a, w₁⟩
  · have hfirst := h w
    rw [bind_error hm]
    rw [hm] at hfirst
    exact hfirst
  · have hfirst := h w
    rw [bind_ok hm]
    rw [hm] at hfirst
    exact hfirst.trans (hf a w₁)

/-- If the second part does not turn the clock back, a clock that has not stopped after it had not
stopped before it. -/
theorem lt_of_bind (hf : ∀ a, (f a).Forward) {w : World S}
    (hlt : ((m >>= f) w).2.clock.nanos < wordMax) : (m w).2.clock.nanos < wordMax := by
  rcases hm : m w with ⟨e | a, w₁⟩
  · rw [bind_error hm] at hlt
    exact hlt
  · rw [bind_ok hm] at hlt
    exact (hf a w₁).lt_of_lt hlt

theorem gets (f : World S → α) : Forward (Machine.gets f) := fun _ ↦ .of_clock rfl

theorem modifyGet {f : World S → α × World S} (hf : ∀ w : World S, w.Later (f w).2) :
    Forward (Machine.modifyGet f) :=
  hf

theorem modify {f : World S → World S} (hf : ∀ w : World S, w.Later (f w)) :
    Forward (Machine.modify f) :=
  hf

theorem guard (h : m.Forward) : m.guard.Forward := by
  intro w
  rw [guard_apply]
  exact h w

end Machine.Forward

open Machine (Forward Compositional)

namespace World

theorem later_addFinalizer (w : World S) (s : ScopeId) (f : Finalizer S) :
    w.Later (w.addFinalizer s f).2 := by
  unfold addFinalizer
  split <;> exact .of_clock rfl

end World

namespace Machine.Forward

/-- Nothing that is put together from operations on the world turns the clock back. -/
theorem compositional :
    Compositional.Closing (S := S) fun ⦃α⦄ (m : Machine S α) ↦ m.Forward where
  pure := pure
  escape := escape
  bind := bind
  guard := guard
  gets f _ := gets f
  write _ := modify fun _ ↦ .of_clock rfl
  advance d := modify fun w ↦ .advance w d
  sleep d := modify fun w ↦ .sleep w d
  draw := modifyGet fun _ ↦ .of_clock rfl
  openScope := modifyGet fun _ ↦ .of_clock rfl
  enterScope := modifyGet fun _ ↦ .of_clock rfl
  addFinalizer s f := modifyGet fun w ↦ w.later_addFinalizer s f
  newSlot := modifyGet fun _ ↦ .of_clock rfl
  settle _ _ := modifyGet fun _ ↦ .of_clock rfl
  takeOutcome _ := modifyGet fun _ ↦ .of_clock rfl
  newFork := modifyGet fun _ ↦ .of_clock rfl
  newBudget _ := modifyGet fun _ ↦ .of_clock rfl
  modifyBudget _ _ := modify fun _ ↦ .of_clock rfl
  exceeded _ _ := modify fun _ ↦ .of_clock rfl
  shutScope _ := modify fun _ ↦ .of_clock rfl
  record _ := modify fun _ ↦ .of_clock rfl

end Machine.Forward

/-! ### Parts of a run -/

namespace Host

variable {h : Host S} (hclose : ∀ s, (h.close s).Forward)
include hclose

theorem judge_forward (session : RetrySession S) (error : S.Error) (elapsed : Duration) :
    (h.judge session error elapsed).Forward :=
  judge_composed Forward.compositional.toCompositional hclose session error elapsed

theorem unwind_forward (stack : List (Frame S)) (cause : Cause S.Error) (st : State S) :
    (h.unwind stack cause st).Forward :=
  unwind_composed Forward.compositional.toCompositional hclose stack cause st

theorem abort_forward (stack : List (Frame S)) (cause : Cause S.Error) :
    (h.abort stack cause).Forward :=
  abort_composed Forward.compositional.toCompositional hclose stack cause

theorem invokeAll_forward {release : Releaser S}
    (hrelease : ∀ node context b, (release node context b).Forward) (s : ScopeId)
    (fs : List (Finalizer S)) : (h.invokeAll release s fs).Forward :=
  invokeAll_composed Forward.compositional hclose hrelease s fs

end Host

namespace Interpreter

variable {it : Interpreter S} {close : Closer S} (hr : it.registry = .standard)
include hr

section

variable (hclose : ∀ s, (close s).Forward)
include hclose

theorem drive_forward (b : BudgetId) (fuel : Nat) (st : State S) :
    (it.rounds close b fuel st).Forward :=
  rounds_composed Forward.compositional.toCompositional (.of_eq hr) hclose b fuel st

theorem proceed_forward (b : BudgetId) (fuel : Nat) (x : Progress S) :
    (it.proceed close b fuel x).Forward :=
  proceed_composed Forward.compositional.toCompositional (.of_eq hr) hclose b fuel x

theorem interpretWith_forward (fuel : Nat) (node : Node S) (context : Context) (b : BudgetId) :
    (it.interpretWith close fuel node context b).Forward :=
  interpretWith_composed Forward.compositional.toCompositional (.of_eq hr) hclose fuel node
    context b

end

/-- Closing a scope. -/
theorem closeScope_forward (fuel : Nat) (s : ScopeId) : (it.closeScope fuel s).Forward :=
  closeScope_composed Forward.compositional (.of_eq hr) fuel s

end Interpreter

end EffectMachine
