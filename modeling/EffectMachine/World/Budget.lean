import EffectMachine.Data.Duration

/-!
# Step budgets

A budget counts the steps of a run, together with the steps of the finalizers that the run
registers. While an abort closes scopes the budget is exempt from limits; aborts may nest.
-/

namespace EffectMachine

/-- Steps taken, and aborts in progress. -/
structure Budget where
  used : Nat := 0
  aborting : Nat := 0
deriving DecidableEq

namespace Budget

/-- Count one step; the count saturates at the largest word. -/
def tick (b : Budget) : Budget := { b with used := min (b.used + 1) wordMax }

/-- Whether an abort is in progress. -/
def isAborting (b : Budget) : Bool := 0 < b.aborting

/-- An abort begins. -/
def beginAbort (b : Budget) : Budget := { b with aborting := b.aborting + 1 }

/-- An abort ends. -/
def endAbort (b : Budget) : Budget := { b with aborting := b.aborting - 1 }

/-- Whether the steps taken exceed a limit that is in force. -/
def exceeds (b : Budget) (limit : Option Nat) : Option Nat :=
  limit.filter fun l ↦ l < b.used && !b.isAborting

end Budget

end EffectMachine
