import EffectMachine.Action
import EffectMachine.Data.Seconds

/-!
# Jitter

Jitter scales a delay by a random factor around one. A retry session owns a `JitterSource`. A seeded
one draws the stream of its seed from the start, so that every session of a schedule sees the same
samples. One without a seed draws from the noise of the world, which it shares with all the others
and with whatever else draws from it; so its samples go on where the last draw left off.
-/

namespace EffectMachine

/-- Where a retry session draws its samples from. -/
inductive JitterSource where
  /-- The stream of a seed, of which so many samples have been drawn. -/
  | seeded (seed : UInt64) (drawn : Nat)
  /-- The noise of the world. -/
  | shared
deriving DecidableEq

namespace JitterSource

/-- Whether the source has a seed. -/
def isSeeded : JitterSource → Bool
  | .seeded _ _ => true
  | .shared => false

/-- Draw one sample. -/
def draw {S : Signature} : JitterSource → Action S (Sample × JitterSource)
  | .seeded seed drawn =>
    .done (.ofWord (Keystream.word seed drawn), .seeded seed (drawn + 1))
  | .shared => .draw fun x ↦ .done (x, .shared)

end JitterSource

/-- By how much delays are perturbed, and whether from a seed. -/
structure Jitter where
  factor : Float
  seed : Option UInt64

namespace Jitter

/-- Hold a factor between zero and one; what is no number counts as zero. -/
def unitFactor (x : Float) : Float :=
  if x.isNaN then 0.0 else if x < 0.0 then 0.0 else if 1.0 < x then 1.0 else x

/-- A jitter with its factor held between zero and one. -/
def ofFactor (factor : Float) (seed : Option UInt64) : Jitter := ⟨unitFactor factor, seed⟩

/-- A source for a new session: the stream of the seed from its start, or else the noise of the
world. -/
def source (j : Jitter) : JitterSource :=
  match j.seed with
  | some seed => .seeded seed 0
  | none => .shared

/-- A delay scaled by one plus or minus a share of the factor. A scaled delay that is no duration
leaves the delay as it was. -/
def perturb (j : Jitter) (x : Sample) (delay : Duration) : Duration :=
  let spread := (x.toFloat * 2.0 - 1.0) * j.factor
  (Duration.ofSeconds? (delay.asSeconds * (1.0 + spread))).getD delay

/-- Draw one sample and perturb a delay with it. -/
def apply {S : Signature} (j : Jitter) (source : JitterSource) (delay : Duration) :
    Action S (Duration × JitterSource) := do
  let (x, source) ← source.draw
  return (j.perturb x delay, source)

end Jitter

end EffectMachine
