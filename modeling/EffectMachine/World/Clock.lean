import EffectMachine.Data.Duration
import EffectMachine.Text.Layout

/-!
# The clock

Time is a reading in nanoseconds that moves only when told to, saturating at the largest word.
Sleeping moves it and is remembered with the duration asked for, however far the clock got.
-/

namespace EffectMachine

/-- A clock: its reading, and the durations slept on it in order. -/
structure Clock where
  nanos : Nat := 0
  sleeps : Array Duration := #[]

namespace Clock

/-- A clock that starts at a number of milliseconds. -/
def start (millis : Nat) : Clock := { nanos := min (millis * nanosPerMilli) wordMax }

/-- Move forward. -/
def advance (c : Clock) (d : Duration) : Clock :=
  { c with nanos := min (c.nanos + min d.nanos wordMax) wordMax }

/-- Move forward and remember the duration. -/
def sleep (c : Clock) (d : Duration) : Clock :=
  { c.advance d with sleeps := c.sleeps.push d }

/-- Whole milliseconds of the reading. -/
def millis (c : Clock) : Nat := c.nanos / nanosPerMilli

/-- The time since an earlier reading; none if the reading is later. -/
def since (c : Clock) (earlier : Nat) : Duration := .ofNanos (c.nanos - earlier)

@[simp] theorem sleeps_advance (c : Clock) (d : Duration) : (c.advance d).sleeps = c.sleeps := rfl

@[simp] theorem nanos_sleep (c : Clock) (d : Duration) :
    (c.sleep d).nanos = (c.advance d).nanos := rfl

/-- The description of a clock. -/
def text (c : Clock) : String :=
  Layout.record "VirtualClock" [
    ("millis", toString c.millis),
    ("sleeps", toString c.sleeps.size)]

end Clock

end EffectMachine
