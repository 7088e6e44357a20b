import EffectMachine.Data.Duration
import EffectMachine.Decimal.Binary

/-!
# Durations as seconds

A duration and a double number of seconds are read as one another: `Duration.asSeconds` adds the
whole seconds and the fraction as doubles, and `Duration.ofSeconds?` rounds a double to the
nearest nanosecond, a tie to the even one. Negative numbers, numbers that are no number and
numbers of `2 ^ 64` seconds or more are no duration.
-/

namespace EffectMachine.Duration

/-- The length in seconds, as a double. -/
def asSeconds (d : Duration) : Float :=
  d.seconds.toUInt64.toFloat + d.subsecond.toUInt64.toFloat / 1000000000.0

/-- The nanoseconds of a finite magnitude of seconds, to the nearest. -/
def nanosOfMagnitude (significand scale : Nat) : Nat :=
  roundEven ((significand <<< scale) * nanosPerSecond) (1 <<< Binary.places)

/-- The duration nearest to a number of seconds. A negative zero is no time. -/
def ofSeconds? (x : Float) : Option Duration :=
  let b := Binary.ofFloat x
  match b.magnitude with
  | .nan | .infinite => none
  | .finite significand scale _ =>
    if b.negative && significand != 0 then none
    else
      let nanos := nanosOfMagnitude significand scale
      if h : nanos ≤ maxNanos then some ⟨nanos, h⟩ else none

end EffectMachine.Duration
