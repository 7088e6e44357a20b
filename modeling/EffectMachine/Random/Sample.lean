import EffectMachine.Random.Keystream

/-!
# Samples

A `Sample` is a number from zero up to one, in units of `2 ^ -53`: what the upper bits of a random
word are read as. `Noise` is a generator that a whole program shares. **What it yields is not up to
the program**, so its samples are given once and for all and what moves is how many of them have
been drawn; a statement about every world is one about every noise.
-/

namespace EffectMachine

/-- A number from zero up to one, as a multiple of `2 ^ -53`. -/
structure Sample where
  units : Nat
  units_lt : units < 9007199254740992
deriving DecidableEq

namespace Sample

/-- The upper 53 bits of a word as a binary fraction. -/
def ofWord (w : UInt64) : Sample where
  units := (w >>> 11).toNat
  units_lt := by
    have hw := w.toNat_lt
    rw [UInt64.toNat_shiftRight, Nat.shiftRight_eq_div_pow]
    show w.toNat / 2 ^ 11 < 9007199254740992
    omega

/-- The number. -/
def value (x : Sample) : Rat := mkRat x.units 9007199254740992

theorem value_nonneg (x : Sample) : 0 ≤ x.value := by
  have hunits : (0 : Rat) ≤ (x.units : Int) := Rat.intCast_nonneg.mpr (Int.natCast_nonneg _)
  rw [value, Rat.mkRat_eq_div]
  grind

theorem value_lt_one (x : Sample) : x.value < 1 := by
  have hunits : ((x.units : Int) : Rat) < (9007199254740992 : Nat) :=
    Rat.intCast_lt_intCast.mpr (Int.ofNat_lt.mpr x.units_lt)
  rw [value, Rat.mkRat_eq_div]
  grind

/-- The number in floating point, where it is exact. -/
def toFloat (x : Sample) : Float := x.units.toUInt64.toFloat * (1.0 / 9007199254740992.0)

end Sample

/-- A generator of samples. -/
structure Noise where
  /-- All the samples it will ever yield. -/
  samples : Nat → Sample
  /-- Samples drawn so far. -/
  drawn : Nat := 0

namespace Noise

/-- The sample that is drawn next. -/
def next (n : Noise) : Sample := n.samples n.drawn

/-- Go past the next sample. -/
def advance (n : Noise) : Noise := { n with drawn := n.drawn + 1 }

/-- The generator that yields the stream of a seed. -/
def ofSeed (seed : UInt64) : Noise := { samples := fun n ↦ .ofWord (Keystream.word seed n) }

end Noise

end EffectMachine
