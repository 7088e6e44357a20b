import EffectMachine.Decimal.Binary

/-!
# The shortest decimal of a double

The doubles' neighbours leave around each double an interval of numbers that are nearer to it
than to any other; the ends belong to it when the significand is even. `Shortest.select` takes the
coarsest decimal grid with a point in that interval, and of its points the nearest to the double.
`Shortest.text` lays the digits out: positionally from `10 ^ (-4)` up to `10 ^ 16`, with a mark
and an exponent beyond.
-/

namespace EffectMachine.Shortest

/-- A positive decimal `digits * 10 ^ exponent`. -/
structure Decimal where
  digits : Nat
  exponent : Int
deriving DecidableEq

/-- The interval of numbers that a double stands for, all in units of
`2 ^ (-1076)`, a quarter of the smallest double. -/
structure Interval where
  low : Nat
  value : Nat
  high : Nat
  /-- Whether the ends belong to the interval. -/
  closed : Bool

/-- One in the units of an interval. -/
def one : Nat := 1 <<< (Binary.places + 2)

/-- The `n`-th power of ten. -/
def tens (n : Nat) : Nat := Nat.pow 10 n

/-- The interval around `significand * 2 ^ scale` smallest doubles. -/
def Interval.around (significand scale : Nat) (narrowBelow : Bool) : Interval :=
  let step := 1 <<< scale
  { low := 4 * significand * step - (if narrowBelow then step else 2 * step)
    value := 4 * significand * step
    high := 4 * significand * step + 2 * step
    closed := significand % 2 == 0 }

/-- Whether `point / grain` lies in the interval. -/
def Interval.contains (i : Interval) (point grain : Nat) : Bool :=
  if i.closed then i.low * grain ≤ point && point ≤ i.high * grain
  else i.low * grain < point && point < i.high * grain

/-- The power of ten just below or at a positive number of units. -/
def leadingExponent (value : Nat) : Int :=
  if one ≤ value then (toString (value / one)).length - 1
  else -((List.range 400).find? fun j ↦ one ≤ value * tens j).getD 0

/-- The point of the grid `10 ^ exponent` that is nearest to the interval's value among its two
neighbours in the interval, if there is one; the upper one in a tie. -/
def Interval.onGrid? (i : Interval) (exponent : Int) : Option Decimal :=
  let grain := tens (-exponent).toNat
  let step := one * tens exponent.toNat
  let below := i.value * grain / step
  let lowerHit := i.contains (below * step) grain
  let upperHit := i.contains ((below + 1) * step) grain
  let gap := i.value * grain - below * step
  if lowerHit && (!upperHit || 2 * gap < step) then some ⟨below, exponent⟩
  else if upperHit then some ⟨below + 1, exponent⟩
  else none

/-- The shortest decimal in the interval: grids from one digit up to seventeen. -/
def Interval.select (i : Interval) : Decimal :=
  let top := leadingExponent i.value
  ((List.range 17).findSome? fun (n : Nat) ↦ i.onGrid? (top - n)).getD ⟨0, 0⟩

/-- Drop trailing zeros of a digit text. -/
def stripZeros (s : String) : String :=
  String.ofList (s.toList.reverse.dropWhile (· == '0')).reverse

/-- `n` zeros. -/
def zeros (n : Nat) : String := String.ofList (List.replicate n '0')

/-- Lay out a positive decimal. Magnitudes from `10 ^ (-4)` below `10 ^ 16` are positional and
keep at least one place; others take a mark `e` and an exponent without padding. -/
def Decimal.layout (d : Decimal) : String :=
  let all := toString d.digits
  let digits := stripZeros all
  let lead : Int := d.exponent + all.length - 1
  if lead < -4 || 16 ≤ lead then
    let mantissa :=
      if digits.length ≤ 1 then digits
      else String.ofList (digits.toList.take 1) ++ "." ++ String.ofList (digits.toList.drop 1)
    mantissa ++ "e" ++ toString lead
  else if lead < 0 then "0." ++ zeros (-lead - 1).toNat ++ digits
  else
    let whole := lead.toNat + 1
    if digits.length ≤ whole then digits ++ zeros (whole - digits.length) ++ ".0"
    else String.ofList (digits.toList.take whole) ++ "." ++ String.ofList (digits.toList.drop whole)

/-- The shortest text of a double. -/
def text (x : Float) : String :=
  let b := Binary.ofFloat x
  let sign := if b.negative then "-" else ""
  match b.magnitude with
  | .nan => "NaN"
  | .infinite => sign ++ "inf"
  | .finite 0 _ _ => sign ++ "0.0"
  | .finite significand scale narrowBelow =>
    sign ++ (Interval.around significand scale narrowBelow).select.layout

end EffectMachine.Shortest
