import EffectMachine.Failure.Cause

/-!
# Slots

A slot receives the outcome of an asynchronous effect. The first settlement counts and later ones
change nothing, also after the outcome has been taken out.
-/

namespace EffectMachine

/-- A slot for one outcome. -/
structure Slot (ε : Type) where
  settled : Bool := false
  outcome : Option (Outcome ε Value) := none

namespace Slot

variable {ε : Type}

/-- A slot that nothing has settled. -/
def fresh : Slot ε := {}

/-- Settle a slot unless it is settled. -/
def settle (s : Slot ε) (o : Outcome ε Value) : Slot ε :=
  if s.settled then s else ⟨true, some o⟩

/-- Take the outcome out. -/
def take (s : Slot ε) : Slot ε := { s with outcome := none }

@[simp] theorem settled_settle (s : Slot ε) (o : Outcome ε Value) :
    (s.settle o).settled = true := by
  unfold settle
  split <;> simp_all

/-- A settled slot ignores further settlements. -/
theorem settle_of_settled {s : Slot ε} (h : s.settled = true) (o : Outcome ε Value) :
    s.settle o = s := by
  simp [settle, h]

end Slot

end EffectMachine
