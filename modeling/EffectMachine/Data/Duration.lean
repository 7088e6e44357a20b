/-!
# Durations

A duration is a whole number of nanoseconds, at most `2 ^ 64 - 1` seconds and 999999999
nanoseconds. `Duration.ofNanos` is the saturating constructor, `Duration.scale` multiplies by a
count and saturates, and `Duration.text` writes a duration in the largest unit that leaves a
whole part.

**Saturation happens in stages.** A product is first held to 128 bits and then to 64 bits of
seconds. `Duration.nanos_scale` says that the stages together are one cut at the longest
duration, so that no stage loses more than the last one would.
-/

namespace EffectMachine

/-- The largest 64-bit word: the ceiling of clock readings and of counted steps. -/
def wordMax : Nat := UInt64.size - 1

/-- Nanoseconds in a second. -/
def nanosPerSecond : Nat := 1000000000

/-- Nanoseconds in a millisecond. -/
def nanosPerMilli : Nat := 1000000

/-- Nanoseconds in the longest duration. -/
def maxNanos : Nat := wordMax * nanosPerSecond + 999999999

/-- A span of time in nanoseconds. -/
structure Duration where
  /-- The length in nanoseconds. -/
  nanos : Nat
  nanos_le : nanos ≤ maxNanos := by decide
deriving DecidableEq

namespace Duration

theorem ext_nanos {a b : Duration} (h : a.nanos = b.nanos) : a = b := by
  cases a; cases b; cases h; rfl

/-- No time at all. -/
def zero : Duration := ⟨0, Nat.zero_le _⟩

/-- The longest duration. -/
def longest : Duration := ⟨maxNanos, Nat.le_refl _⟩

instance : Inhabited Duration := ⟨zero⟩

/-- The duration of `n` nanoseconds, or the longest one if that is shorter. -/
def ofNanos (n : Nat) : Duration := ⟨min n maxNanos, Nat.min_le_right _ _⟩

@[simp] theorem nanos_ofNanos (n : Nat) : (ofNanos n).nanos = min n maxNanos := rfl

instance : LT Duration := ⟨fun a b ↦ a.nanos < b.nanos⟩

instance : LE Duration := ⟨fun a b ↦ a.nanos ≤ b.nanos⟩

instance (a b : Duration) : Decidable (a < b) := Nat.decLt a.nanos b.nanos

instance (a b : Duration) : Decidable (a ≤ b) := Nat.decLe a.nanos b.nanos

/-- The shorter of two durations. -/
def shorter (a b : Duration) : Duration := if a ≤ b then a else b

/-- Whole seconds. -/
def seconds (d : Duration) : Nat := d.nanos / nanosPerSecond

/-- Nanoseconds beyond the whole seconds. -/
def subsecond (d : Duration) : Nat := d.nanos % nanosPerSecond

/-! ### Scaling -/

/-- `k` times a duration. The product saturates at 128 bits, and a product whose seconds do not
fit 64 bits becomes the longest duration. -/
def scale (d : Duration) (k : Nat) : Duration :=
  let product := min (d.nanos * k) (UInt64.size * UInt64.size - 1)
  if product / nanosPerSecond ≤ wordMax then
    ofNanos (product / nanosPerSecond * nanosPerSecond + product % nanosPerSecond)
  else longest

theorem maxNanos_eq : maxNanos = 18446744073709551615999999999 := rfl

/-- **Scaling is exact up to one final cut** at the longest duration. -/
theorem nanos_scale (d : Duration) (k : Nat) : (d.scale k).nanos = min (d.nanos * k) maxNanos := by
  have hw : wordMax = 18446744073709551615 := rfl
  have hs : nanosPerSecond = 1000000000 := rfl
  have hp : UInt64.size * UInt64.size - 1 = 340282366920938463463374607431768211455 := rfl
  rw [scale, hp, hw, hs]
  generalize d.nanos * k = n
  split
  · rw [nanos_ofNanos, maxNanos_eq]
    omega
  · change maxNanos = min n maxNanos
    rw [maxNanos_eq]
    omega

/-! ### Text -/

/-- `n` of units of which `size` make one larger unit, as a decimal of the larger unit: the whole
part, then the remainder in `digits` places without trailing zeros. -/
def decimalText (n size digits : Nat) : String :=
  let fraction := toString (n % size)
  let padded := String.ofList (List.replicate (digits - fraction.length) '0') ++ fraction
  let trimmed := (padded.toList.reverse.dropWhile (· == '0')).reverse
  if trimmed.isEmpty then toString (n / size)
  else toString (n / size) ++ "." ++ String.ofList trimmed

/-- The text of a duration in the largest of seconds, milliseconds, microseconds and nanoseconds
that leaves a whole part; no time at all is in nanoseconds. -/
def text (d : Duration) : String :=
  if nanosPerSecond ≤ d.nanos then decimalText d.nanos nanosPerSecond 9 ++ "s"
  else if nanosPerMilli ≤ d.nanos then decimalText d.nanos nanosPerMilli 6 ++ "ms"
  else if 1000 ≤ d.nanos then decimalText d.nanos 1000 3 ++ "µs"
  else toString d.nanos ++ "ns"

end Duration

end EffectMachine
