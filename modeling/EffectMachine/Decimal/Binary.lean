/-!
# Doubles as exact numbers

A finite double is a natural number of units of `2 ^ (-1074)`, the smallest positive double, with
a sign. `Binary.decode` takes the sign, the significand and the scale from the bits, and every
later computation on the double is exact arithmetic on natural numbers. `roundEven` is division
rounded to the nearest whole number, a tie going to the even one.
-/

namespace EffectMachine

/-- The magnitude of a double. -/
inductive Magnitude where
  | nan
  | infinite
  /-- `significand * 2 ^ scale` units of `2 ^ (-1074)`. The flag tells that the next smaller
  double is only half as far away as the next larger one. -/
  | finite (significand scale : Nat) (narrowBelow : Bool)
deriving DecidableEq

/-- A double taken apart. -/
structure Binary where
  negative : Bool
  magnitude : Magnitude
deriving DecidableEq

namespace Binary

/-- Binary places below the point at the unit of magnitudes. -/
def places : Nat := 1074

/-- The leading bit of most significands, which the fraction leaves out. -/
def leadingBit : Nat := 1 <<< 52

/-- How many exponents there are. -/
def exponents : Nat := 1 <<< 11

/-- Take a double apart: one sign bit, eleven bits of exponent, fifty-two of fraction. -/
def ofBits (bits : Nat) : Binary :=
  let fraction := bits % leadingBit
  let exponent := bits / leadingBit % exponents
  { negative := bits / leadingBit / exponents % 2 == 1
    magnitude :=
      if exponent = exponents - 1 then (if fraction = 0 then .infinite else .nan)
      else if exponent = 0 then .finite fraction 0 false
      else .finite (leadingBit + fraction) (exponent - 1) (fraction = 0 && 1 < exponent) }

/-- Take a double apart. -/
def ofFloat (x : Float) : Binary := ofBits x.toBits.toNat

end Binary

/-- `n / d` rounded to the nearest whole number, a tie to the even one. -/
def roundEven (n d : Nat) : Nat :=
  let q := n / d
  let r := n % d
  if 2 * r < d then q
  else if d < 2 * r then q + 1
  else if q % 2 = 0 then q else q + 1

/-- **Rounding errs by half a unit at most**, from either side. -/
theorem roundEven_bounds (n d : Nat) (hd : 0 < d) :
    2 * (roundEven n d * d) ≤ 2 * n + d ∧ 2 * n ≤ 2 * (roundEven n d * d) + d := by
  have h := Nat.div_add_mod n d
  have hr := Nat.mod_lt n hd
  have hq : n / d * d = d * (n / d) := Nat.mul_comm _ _
  have hs : (n / d + 1) * d = d * (n / d) + d := by rw [Nat.add_mul, hq, Nat.one_mul]
  unfold roundEven
  dsimp only
  split
  · omega
  · split
    · omega
    · split <;> omega

end EffectMachine
