/-!
# A seeded stream of random words

ChaCha with twelve rounds, a 64-bit block counter and no nonce, keyed by a 64-bit seed that a
linear congruential generator with permuted output stretches to eight words. The stream is a
function of the seed and the position, so a generator is a seed with a count of words drawn.
-/

namespace EffectMachine.Keystream

/-- The sixteen words of a block. -/
abbrev Block := Vector UInt32 16

/-- Rotate a word to the left. -/
def rotateLeft (x : UInt32) (n : UInt32) : UInt32 :=
  (x <<< n) ||| (x >>> (32 - n))

/-- One quarter round on the words at four places. -/
def quarterRound (s : Block) (a b c d : Fin 16) : Block :=
  let s := s.set a (s[a] + s[b])
  let s := s.set d (rotateLeft (s[d] ^^^ s[a]) 16)
  let s := s.set c (s[c] + s[d])
  let s := s.set b (rotateLeft (s[b] ^^^ s[c]) 12)
  let s := s.set a (s[a] + s[b])
  let s := s.set d (rotateLeft (s[d] ^^^ s[a]) 8)
  let s := s.set c (s[c] + s[d])
  s.set b (rotateLeft (s[b] ^^^ s[c]) 7)

/-- A column round followed by a diagonal round. -/
def doubleRound (s : Block) : Block :=
  let s := quarterRound s 0 4 8 12
  let s := quarterRound s 1 5 9 13
  let s := quarterRound s 2 6 10 14
  let s := quarterRound s 3 7 11 15
  let s := quarterRound s 0 5 10 15
  let s := quarterRound s 1 6 11 12
  let s := quarterRound s 2 7 8 13
  quarterRound s 3 4 9 14

/-- The block at a counter under a key of eight words: six double rounds, then the input added
word by word. -/
def block (key : Vector UInt32 8) (counter : UInt64) : Block :=
  let input : Block := #v[0x61707865, 0x3320646e, 0x79622d32, 0x6b206574,
    key[0], key[1], key[2], key[3], key[4], key[5], key[6], key[7],
    counter.toUInt32, (counter >>> 32).toUInt32, 0, 0]
  let mixed := Nat.repeat doubleRound 6 input
  input.zipWith (· + ·) mixed

/-- Advance the state that stretches a seed. -/
def stretchStep (s : UInt64) : UInt64 :=
  s * 6364136223846793005 + 11634580027462260723

/-- The word that a stretching state yields. -/
def stretchWord (s : UInt64) : UInt32 :=
  let x := (((s >>> 18) ^^^ s) >>> 27).toUInt32
  let n := (s >>> 59).toUInt32
  (x >>> n) ||| (x <<< ((32 - n) % 32))

/-- The key that a seed stretches to: word `i` comes from the state after `i + 1` steps. -/
def key (seed : UInt64) : Vector UInt32 8 :=
  Vector.ofFn fun i ↦ stretchWord (Nat.repeat stretchStep (i.val + 1) seed)

/-- The `n`-th 64-bit word of the stream of a seed: two words of a block, the first one low. -/
def word (seed : UInt64) (n : Nat) : UInt64 :=
  let b := block (key seed) (n / 8).toUInt64
  let low := b.get ⟨2 * (n % 8), by omega⟩
  let high := b.get ⟨2 * (n % 8) + 1, by omega⟩
  low.toUInt64 ||| (high.toUInt64 <<< 32)

end EffectMachine.Keystream
