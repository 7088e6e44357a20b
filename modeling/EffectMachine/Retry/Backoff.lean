import EffectMachine.Data.Duration

/-!
# Backoffs

A backoff proposes a delay for each retry: always the same, or growing by a multiple, by doubling
or along the Fibonacci numbers. Factors saturate at 64 bits and delays at the longest duration.
-/

namespace EffectMachine

/-- How delays grow from retry to retry. -/
inductive Backoff where
  | fixed (delay : Duration)
  | linear (delay : Duration)
  | exponential (delay : Duration)
  | fibonacci (delay : Duration)
deriving DecidableEq

namespace Backoff

/-- The next pair of neighbours in the saturating Fibonacci sequence. -/
def fibonacciStep (p : Nat × Nat) : Nat × Nat :=
  (p.2, min (p.1 + p.2) wordMax)

/-- The `n`-th number of 1, 1, 2, 3, 5, …, saturating at 64 bits. From the ninety-third on every
number is the largest word, so no further step is taken. -/
def fibonacciFactor (n : Nat) : Nat :=
  (Nat.repeat fibonacciStep (min n 93) (1, 1)).1

theorem fibonacci_saturated (n : Nat) :
    Nat.repeat fibonacciStep (n + 93) (1, 1) = (wordMax, wordMax) := by
  induction n with
  | zero => decide +kernel
  | succ n ih => rw [Nat.succ_add, Nat.repeat, ih]; decide

/-- Stopping at the ninety-third number changes none. -/
theorem fibonacciFactor_eq (n : Nat) :
    fibonacciFactor n = (Nat.repeat fibonacciStep n (1, 1)).1 := by
  by_cases h : n ≤ 93
  · rw [fibonacciFactor, Nat.min_eq_left h]
  · obtain ⟨m, rfl⟩ : ∃ m, n = m + 93 := ⟨n - 93, by omega⟩
    rw [fibonacciFactor, fibonacci_saturated, Nat.min_eq_right (by omega)]
    exact congrArg Prod.fst (fibonacci_saturated 0)

/-- Two to the `n`, saturating at 64 bits. -/
def exponentialFactor (n : Nat) : Nat :=
  if n < 64 then 1 <<< n else wordMax

/-- The delay proposed before retry number `attempt`, counted from zero. -/
def delay (b : Backoff) (attempt : Nat) : Duration :=
  match b with
  | .fixed d => d
  | .linear d => d.scale (attempt + 1)
  | .exponential d => d.scale (exponentialFactor attempt)
  | .fibonacci d => d.scale (fibonacciFactor attempt)

end Backoff

end EffectMachine
