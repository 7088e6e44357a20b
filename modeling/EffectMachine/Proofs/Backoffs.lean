import Mathlib.Data.Nat.Fib.Basic
import EffectMachine.Retry.Schedule

/-!
# What backoffs propose

The delays of the four backoffs in closed form, for delays of any length and for every number of
retries. Factors are held to a word and products to the longest duration; cutting every sum of the
Fibonacci sequence is cutting the sequence (`Backoff.repeat_fibonacciStep`).

**No intermediate result is lost.** `Backoff.delay?` is the same arithmetic in words: durations are
64 bits of seconds and 32 bits of nanoseconds, factors are 64 bits wide and products 128. Operations
that would leave their width have no result. `Backoff.delay?_eq` says that there always is a result
and that it is the delay proposed, and `Duration.words_injective` that words tell durations apart.
-/

namespace EffectMachine

/-! ### Words -/

namespace Word

variable {w : Nat}

/-- The sum of two words, unless it leaves their width. -/
def add? (x y : BitVec w) : Option (BitVec w) :=
  if x.uaddOverflow y then none else some (x + y)

/-- The product of two words, unless it leaves their width. -/
def mul? (x y : BitVec w) : Option (BitVec w) :=
  if x.umulOverflow y then none else some (x * y)

/-- A word shifted to the left, unless by its width or more. -/
def shiftLeft? (x : BitVec w) (n : Nat) : Option (BitVec w) :=
  if n < w then some (x <<< n) else none

/-- A word in another width, unless that is too narrow for it. -/
def resize? (x : BitVec w) (v : Nat) : Option (BitVec v) :=
  if x.toNat < 2 ^ v then some (x.setWidth v) else none

/-- The sum of two words, or the largest word. -/
def addSaturating (x y : BitVec w) : BitVec w := (add? x y).getD (BitVec.allOnes w)

/-- The product of two words, or the largest word. -/
def mulSaturating (x y : BitVec w) : BitVec w := (mul? x y).getD (BitVec.allOnes w)

theorem add?_of_lt {x y : BitVec w} (h : x.toNat + y.toNat < 2 ^ w) : add? x y = some (x + y) := by
  have hfits : x.uaddOverflow y = false := decide_eq_false (Nat.not_le_of_lt h)
  simp [add?, hfits]

theorem add?_of_le {x y : BitVec w} (h : 2 ^ w ≤ x.toNat + y.toNat) : add? x y = none := by
  have hover : x.uaddOverflow y = true := decide_eq_true h
  simp [add?, hover]

theorem mul?_of_lt {x y : BitVec w} (h : x.toNat * y.toNat < 2 ^ w) : mul? x y = some (x * y) := by
  have hfits : x.umulOverflow y = false := decide_eq_false (Nat.not_le_of_lt h)
  simp [mul?, hfits]

theorem mul?_of_le {x y : BitVec w} (h : 2 ^ w ≤ x.toNat * y.toNat) : mul? x y = none := by
  have hover : x.umulOverflow y = true := decide_eq_true h
  simp [mul?, hover]

theorem resize?_of_lt {x : BitVec w} {v : Nat} (h : x.toNat < 2 ^ v) :
    resize? x v = some (x.setWidth v) := if_pos h

theorem resize?_of_le {x : BitVec w} {v : Nat} (h : 2 ^ v ≤ x.toNat) : resize? x v = none :=
  if_neg (Nat.not_lt_of_le h)

theorem toNat_addSaturating (x y : BitVec w) :
    (addSaturating x y).toNat = min (x.toNat + y.toNat) (2 ^ w - 1) := by
  rcases Nat.lt_or_ge (x.toNat + y.toNat) (2 ^ w) with h | h
  · rw [addSaturating, add?_of_lt h, Option.getD_some, BitVec.toNat_add_of_lt h]
    omega
  · rw [addSaturating, add?_of_le h, Option.getD_none, BitVec.toNat_allOnes]
    omega

theorem toNat_mulSaturating (x y : BitVec w) :
    (mulSaturating x y).toNat = min (x.toNat * y.toNat) (2 ^ w - 1) := by
  rcases Nat.lt_or_ge (x.toNat * y.toNat) (2 ^ w) with h | h
  · rw [mulSaturating, mul?_of_lt h, Option.getD_some, BitVec.toNat_mul_of_lt h]
    omega
  · rw [mulSaturating, mul?_of_le h, Option.getD_none, BitVec.toNat_allOnes]
    omega

end Word

/-! ### Durations in words -/

/-- A duration in words. -/
structure Duration.Words where
  seconds : BitVec 64
  subsecond : BitVec 32

namespace Duration

/-- The words of a duration. -/
def words (d : Duration) : Words :=
  ⟨BitVec.ofNat 64 d.seconds, BitVec.ofNat 32 d.subsecond⟩

/-- The longest duration in words. -/
def Words.longest : Words := ⟨BitVec.allOnes 64, 999999999⟩

/-- Seconds and nanoseconds in words, whole seconds among the nanoseconds carried over. -/
def Words.carry? (seconds : BitVec 64) (nanos : BitVec 32) : Option Words := do
  if nanos.toNat < nanosPerSecond then return ⟨seconds, nanos⟩
  let seconds ← Word.add? seconds ((nanos / BitVec.ofNat 32 nanosPerSecond).setWidth 64)
  return ⟨seconds, nanos % BitVec.ofNat 32 nanosPerSecond⟩

/-- The nanoseconds of a duration in words. -/
def Words.nanos? (s : Words) : Option (BitVec 128) := do
  let whole ← Word.mul? (s.seconds.setWidth 128) (BitVec.ofNat 128 nanosPerSecond)
  Word.add? whole (s.subsecond.setWidth 128)

/-- A multiple of a duration in words. -/
def Words.scale? (s : Words) (factor : BitVec 64) : Option Words := do
  let product := Word.mulSaturating (← s.nanos?) (factor.setWidth 128)
  match Word.resize? (product / BitVec.ofNat 128 nanosPerSecond) 64 with
  | none => return longest
  | some seconds => do
    Words.carry? seconds (← Word.resize? (product % BitVec.ofNat 128 nanosPerSecond) 32)

/-- Different durations have different words. -/
theorem words_injective : Function.Injective words := by
  intro d e h
  have hs : nanosPerSecond = 1000000000 := rfl
  have hd := d.nanos_le
  have he := e.nanos_le
  rw [Duration.maxNanos_eq] at hd he
  have hseconds := congrArg (fun s ↦ s.seconds.toNat) h
  have hsubsecond := congrArg (fun s ↦ s.subsecond.toNat) h
  simp only [words, BitVec.toNat_ofNat, Duration.seconds, Duration.subsecond, hs]
    at hseconds hsubsecond
  apply Duration.ext_nanos
  omega

theorem nanos?_words (d : Duration) :
    ∃ nanos, d.words.nanos? = some nanos ∧ nanos.toNat = d.nanos := by
  have hs : nanosPerSecond = 1000000000 := rfl
  have hd := d.nanos_le
  rw [Duration.maxNanos_eq] at hd
  have hseconds : (d.words.seconds.setWidth 128).toNat = d.nanos / 1000000000 := by
    simp only [words, Duration.seconds, hs, BitVec.toNat_setWidth, BitVec.toNat_ofNat]
    omega
  have hsubsecond : (d.words.subsecond.setWidth 128).toNat = d.nanos % 1000000000 := by
    simp only [words, Duration.subsecond, hs, BitVec.toNat_setWidth, BitVec.toNat_ofNat]
    omega
  have hbillion : (BitVec.ofNat 128 nanosPerSecond).toNat = 1000000000 := by simp [hs]
  have hmul : (d.words.seconds.setWidth 128).toNat *
      (BitVec.ofNat 128 nanosPerSecond).toNat < 2 ^ 128 := by
    rw [hseconds, hbillion]
    omega
  have hadd : (d.words.seconds.setWidth 128 * BitVec.ofNat 128 nanosPerSecond).toNat +
      (d.words.subsecond.setWidth 128).toNat < 2 ^ 128 := by
    rw [BitVec.toNat_mul_of_lt hmul, hseconds, hsubsecond, hbillion]
    omega
  refine ⟨d.words.seconds.setWidth 128 * BitVec.ofNat 128 nanosPerSecond +
    d.words.subsecond.setWidth 128, ?_, ?_⟩
  · rw [Words.nanos?, Word.mul?_of_lt hmul, Option.bind_eq_bind, Option.bind_some,
      Word.add?_of_lt hadd]
  · rw [BitVec.toNat_add_of_lt hadd, BitVec.toNat_mul_of_lt hmul, hseconds, hsubsecond, hbillion]
    omega

/-- Nothing is carried over from a remainder. -/
theorem Words.carry?_of_lt {seconds : BitVec 64} {nanos : BitVec 32}
    (h : nanos.toNat < nanosPerSecond) :
    Words.carry? seconds nanos = some ⟨seconds, nanos⟩ := by
  rw [Words.carry?, if_pos h]
  rfl

/-- Scaling in words is scaling. -/
theorem scale?_words (d : Duration) (factor : BitVec 64) :
    d.words.scale? factor = some (d.scale factor.toNat).words := by
  have hs : nanosPerSecond = 1000000000 := rfl
  obtain ⟨nanos, hnanos, htoNat⟩ := nanos?_words d
  have hscale := d.nanos_scale factor.toNat
  have hproduct : (Word.mulSaturating nanos (factor.setWidth 128)).toNat =
      min (d.nanos * factor.toNat) (2 ^ 128 - 1) := by
    rw [Word.toNat_mulSaturating, htoNat, BitVec.toNat_setWidth_of_le (by decide)]
  rw [Duration.maxNanos_eq] at hscale
  simp only [Words.scale?, hnanos, Option.bind_eq_bind, Option.bind_some]
  generalize Word.mulSaturating nanos (factor.setWidth 128) = product at hproduct
  generalize d.scale factor.toNat = scaled at hscale
  generalize d.nanos * factor.toNat = n at hscale hproduct
  have hbillion : (BitVec.ofNat 128 nanosPerSecond).toNat = 1000000000 := by simp [hs]
  have hseconds : (product / BitVec.ofNat 128 nanosPerSecond).toNat =
      product.toNat / 1000000000 := by rw [BitVec.toNat_udiv, hbillion]
  have hsubsecond : (product % BitVec.ofNat 128 nanosPerSecond).toNat =
      product.toNat % 1000000000 := by rw [BitVec.toNat_umod, hbillion]
  by_cases hfits : product.toNat / 1000000000 < 2 ^ 64
  · have hexact : scaled.nanos = product.toNat := by omega
    have hwhole := Word.resize?_of_lt (hseconds ▸ hfits)
    have hrest : (product % BitVec.ofNat 128 nanosPerSecond).toNat < 2 ^ 32 := by omega
    have hcarry : ((product % BitVec.ofNat 128 nanosPerSecond).setWidth 32).toNat <
        nanosPerSecond := by
      rw [BitVec.toNat_setWidth, hsubsecond, hs]
      omega
    simp only [hwhole, Word.resize?_of_lt hrest, Option.bind_some]
    rw [Words.carry?_of_lt hcarry, words, Duration.seconds, Duration.subsecond, hexact, hs,
      ← hseconds, ← hsubsecond, BitVec.ofNat_toNat, BitVec.ofNat_toNat, hs]
  · have hlongest : scaled = .longest := by
      apply Duration.ext_nanos
      show scaled.nanos = maxNanos
      rw [Duration.maxNanos_eq]
      omega
    have hover : 2 ^ 64 ≤ (product / BitVec.ofNat 128 nanosPerSecond).toNat := by omega
    simp only [Word.resize?_of_le hover]
    rw [hlongest]
    rfl

end Duration

/-! ### Backoffs in words -/

namespace Backoff

/-- The next pair of neighbours in the Fibonacci sequence, in words. -/
def fibonacciWords (p : BitVec 64 × BitVec 64) : BitVec 64 × BitVec 64 :=
  (p.2, Word.addSaturating p.1 p.2)

/-- The delay proposed before a retry, in words. -/
def delay? (b : Backoff) (attempt : BitVec 32) : Option Duration.Words :=
  match b with
  | .fixed d => some d.words
  | .linear d => do d.words.scale? (← Word.add? (attempt.setWidth 64) 1)
  | .exponential d =>
    d.words.scale? ((Word.shiftLeft? 1 attempt.toNat).getD (BitVec.allOnes 64))
  | .fibonacci d =>
    d.words.scale? (Nat.repeat fibonacciWords attempt.toNat (1, 1)).1

theorem toNat_fibonacciWords (n : Nat) :
    ((Nat.repeat fibonacciWords n (1, 1)).1.toNat, (Nat.repeat fibonacciWords n (1, 1)).2.toNat) =
      Nat.repeat fibonacciStep n (1, 1) := by
  induction n with
  | zero => rfl
  | succ n ih =>
    simp only [Nat.repeat, fibonacciWords, fibonacciStep, ← ih, Word.toNat_addSaturating]
    rfl

theorem toNat_shiftLeft (n : Nat) :
    ((Word.shiftLeft? (1 : BitVec 64) n).getD (BitVec.allOnes 64)).toNat = exponentialFactor n := by
  rw [Word.shiftLeft?, exponentialFactor]
  by_cases h : n < 64
  · have hlt : 2 ^ n < 2 ^ 64 := Nat.pow_lt_pow_right (by decide) h
    rw [if_pos h, if_pos h, Option.getD_some, BitVec.toNat_shiftLeft, Nat.one_shiftLeft,
      show (1 : BitVec 64).toNat = 1 from rfl, Nat.one_shiftLeft, Nat.mod_eq_of_lt hlt]
  · rw [if_neg h, if_neg h]
    rfl

/-- **No operation on words wraps, fails or loses digits.** -/
theorem delay?_eq (b : Backoff) (attempt : BitVec 32) :
    b.delay? attempt = some (b.delay attempt.toNat).words := by
  cases b with
  | fixed d => rfl
  | linear d =>
    have hattempt : (attempt.setWidth 64).toNat = attempt.toNat :=
      BitVec.toNat_setWidth_of_le (by decide)
    have hfits : (attempt.setWidth 64).toNat + (1 : BitVec 64).toNat < 2 ^ 64 := by
      have := attempt.isLt
      rw [hattempt, show (1 : BitVec 64).toNat = 1 from rfl]
      omega
    rw [delay?, Word.add?_of_lt hfits, Option.bind_eq_bind, Option.bind_some,
      Duration.scale?_words, BitVec.toNat_add_of_lt hfits, hattempt]
    rfl
  | exponential d =>
    rw [delay?, Duration.scale?_words, toNat_shiftLeft, delay]
  | fibonacci d =>
    have hfactor := congrArg Prod.fst (toNat_fibonacciWords attempt.toNat)
    rw [delay?, Duration.scale?_words, delay, fibonacciFactor_eq, ← hfactor]

/-! ### Closed forms -/

/-- Shifting, or not, takes the power of two that is held to a word. -/
theorem exponentialFactor_eq_min (n : Nat) : exponentialFactor n = min (2 ^ n) (2 ^ 64 - 1) := by
  rw [exponentialFactor]
  split
  · rename_i h
    have hle : 2 ^ n ≤ 2 ^ 63 := Nat.pow_le_pow_right (by decide) (by omega)
    rw [Nat.one_shiftLeft]
    omega
  · have hle : 2 ^ 64 ≤ 2 ^ n := Nat.pow_le_pow_right (by decide) (by omega)
    rw [show wordMax = 2 ^ 64 - 1 from rfl]
    omega

/-- Cutting every sum cuts the sequence: the neighbours after `n` steps are Fibonacci numbers held
to a word. -/
theorem repeat_fibonacciStep (n : Nat) : Nat.repeat fibonacciStep n (1, 1) =
    (min (Nat.fib (n + 1)) (2 ^ 64 - 1), min (Nat.fib (n + 2)) (2 ^ 64 - 1)) := by
  induction n with
  | zero => rfl
  | succ n ih =>
    have hfib : Nat.fib (n + 1 + 2) = Nat.fib (n + 1) + Nat.fib (n + 2) := Nat.fib_add_two
    rw [Nat.repeat, ih, fibonacciStep, show wordMax = 2 ^ 64 - 1 from rfl, hfib]
    congr 1
    omega

theorem fibonacciFactor_eq_min (n : Nat) :
    fibonacciFactor n = min (Nat.fib (n + 1)) (2 ^ 64 - 1) := by
  rw [fibonacciFactor_eq, repeat_fibonacciStep]

/-- Backoffs grow. -/
theorem nanos_delay_monotone (b : Backoff) : Monotone fun n ↦ (b.delay n).nanos := by
  intro m n h
  have hcut {d : Duration} {j k : Nat} (hjk : j ≤ k) : (d.scale j).nanos ≤ (d.scale k).nanos := by
    rw [Duration.nanos_scale, Duration.nanos_scale]
    have := Nat.mul_le_mul_left d.nanos hjk
    omega
  cases b with
  | fixed d => exact Nat.le_refl _
  | linear d => exact hcut (by omega)
  | exponential d =>
    have hpow : 2 ^ m ≤ 2 ^ n := Nat.pow_le_pow_right (by decide) h
    exact hcut (by rw [exponentialFactor_eq_min, exponentialFactor_eq_min]; omega)
  | fibonacci d =>
    have hfib : Nat.fib (m + 1) ≤ Nat.fib (n + 1) := Nat.fib_mono (by omega)
    exact hcut (by rw [fibonacciFactor_eq_min, fibonacciFactor_eq_min]; omega)

end Backoff

/-! ### Schedules of one backoff -/

variable {S : Signature}

/-- Before retry number `n` the rules of a schedule propose a delay of `nanos` nanoseconds,
whatever the error and however much time has passed. -/
def Schedule.Proposes (s : Schedule S) (n nanos : Nat) : Prop :=
  ∀ f : Failed S.Error, f.attempt = n →
    ∃ d : Duration, d.nanos = nanos ∧ Schedule.consult f s.rules none = return some (some d)

theorem Schedule.proposes_ofBackoff {b : Backoff} {n nanos : Nat}
    (h : (b.delay n).nanos = nanos) : (ofBackoff b : Schedule S).Proposes n nanos := by
  rintro f rfl
  exact ⟨b.delay f.attempt, h, rfl⟩

/-- **Backoffs are exact, saturating and monotone.** Before retry number `attempt` they propose the
delay, the delay as often as there were attempts, or the delay times a power of two or a Fibonacci
number that is held to a word, all held to the longest duration. In words, which tell durations
apart, no operation leaves its width. From retry to retry no proposal shrinks. -/
theorem Schedule.backoffs_exact (d : Duration) (attempt : BitVec 32) :
    (ofBackoff (.fixed d) : Schedule S).Proposes attempt.toNat d.nanos ∧
    (ofBackoff (.linear d) : Schedule S).Proposes attempt.toNat
      (min (d.nanos * (attempt.toNat + 1)) maxNanos) ∧
    (ofBackoff (.exponential d) : Schedule S).Proposes attempt.toNat
      (min (d.nanos * min (2 ^ attempt.toNat) (2 ^ 64 - 1)) maxNanos) ∧
    (ofBackoff (.fibonacci d) : Schedule S).Proposes attempt.toNat
      (min (d.nanos * min (Nat.fib (attempt.toNat + 1)) (2 ^ 64 - 1)) maxNanos) ∧
    Function.Injective Duration.words ∧
    ∀ b : Backoff, b.delay? attempt = some (b.delay attempt.toNat).words ∧
      Monotone fun n ↦ (b.delay n).nanos := by
  refine ⟨proposes_ofBackoff rfl, proposes_ofBackoff ?_, proposes_ofBackoff ?_,
    proposes_ofBackoff ?_, Duration.words_injective,
    fun b ↦ ⟨b.delay?_eq attempt, b.nanos_delay_monotone⟩⟩
  · rw [Backoff.delay, Duration.nanos_scale]
  · rw [Backoff.delay, Duration.nanos_scale, Backoff.exponentialFactor_eq_min]
  · rw [Backoff.delay, Duration.nanos_scale, Backoff.fibonacciFactor_eq_min]

end EffectMachine
