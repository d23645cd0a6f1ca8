import NUClear.Foundation.CheckedLoop

/-!
# The hashes of names

`xxhash32` and `xxhash64` hash a byte string with a seed.  The loops over the stripes, the words and
the bytes follow each other with one pointer, and the words are read byte by byte.  `read32` and
`read64` put the bytes together in one order on a little-endian host and in the other order on a
big-endian one.

* `XXH32`, `XXH64`: the algorithm, over a function that reads the lanes.  It has no loop: the
  stripes, the words and the bytes are folds over their numbers.
* `xxhash32_eq`, `xxhash64_eq`: the code computes it with the lanes in the order of the host, and
  reads no byte outside of the input.
* `xxhash_eq_iff`: the hashes are those of the algorithm, whose lanes are little-endian, for all
  inputs if and only if the host is little-endian, and on a big-endian one exactly for the inputs
  that collide with themselves with the bytes of each lane in the other order.

## The proof

The code is a checked computation (`Foundation.Checked`), so that its result and that nothing goes
wrong are one equation.

* `read32_eq`, `read64_eq`: a word is a lane.
* `chunk32_eq` and so on: the body of each loop is a step of a fold.
* `chunks32_eq` and so on: each loop is a fold, over as many rounds as the algorithm has
  (`forBelow_eq`).
* `hash32_congr`, `hash64_congr`: what the hashes depend on, so that a host with the other order
  hashes a rearranged input (`hash32_bigEndian`, `hash64_bigEndian`).
-/

namespace NUClear
namespace Util
namespace Xxhash

open Foundation

/-- The accumulators of the stripes, four of them for the four lanes of a stripe. -/
structure Accumulators (w : ℕ) where
  v1 : BitVec w
  v2 : BitVec w
  v3 : BitVec w
  v4 : BitVec w
  deriving DecidableEq, Repr

/-! ## The algorithm -/

/-- The `i`-th lane of `k` bytes, as a word of `w` bits. -/
def lane (value : Bytes → ℕ) (w k : ℕ) (input : Bytes) (i : ℕ) : BitVec w :=
  BitVec.ofNat w (value ((input.drop (k * i)).take k))

namespace XXH32

def prime1 : BitVec 32 := 0x9E3779B1
def prime2 : BitVec 32 := 0x85EBCA77
def prime3 : BitVec 32 := 0xC2B2AE3D
def prime4 : BitVec 32 := 0x27D4EB2F
def prime5 : BitVec 32 := 0x165667B1

def initial (seed : BitVec 32) : Accumulators 32 :=
  ⟨seed + prime1 + prime2, seed + prime2, seed, seed - prime1⟩

def round (acc lane : BitVec 32) : BitVec 32 := (acc + lane * prime2).rotateLeft 13 * prime1

/-- The `i`-th stripe. -/
def stripe (lane : ℕ → BitVec 32) (v : Accumulators 32) (i : ℕ) : Accumulators 32 :=
  ⟨round v.v1 (lane (4 * i)), round v.v2 (lane (4 * i + 1)), round v.v3 (lane (4 * i + 2)),
    round v.v4 (lane (4 * i + 3))⟩

def converge (v : Accumulators 32) : BitVec 32 :=
  v.v1.rotateLeft 1 + v.v2.rotateLeft 7 + v.v3.rotateLeft 12 + v.v4.rotateLeft 18

def word (acc lane : BitVec 32) : BitVec 32 := (acc + lane * prime3).rotateLeft 17 * prime4

def byte (acc : BitVec 32) (b : Byte) : BitVec 32 :=
  (acc + b.setWidth 32 * prime5).rotateLeft 11 * prime1

def avalanche (acc : BitVec 32) : BitVec 32 :=
  let acc := (acc ^^^ acc >>> 15) * prime2
  let acc := (acc ^^^ acc >>> 13) * prime3
  acc ^^^ acc >>> 16

/-- The hash, where `value` is the number of the bytes of a lane. -/
def hash (value : Bytes → ℕ) (input : Bytes) (seed : BitVec 32) : BitVec 32 :=
  let n := input.length
  let lane := lane value 32 4 input
  let acc :=
    if n < 16 then seed + prime5 else converge
      ((List.range (n / 16)).foldl (stripe lane) (initial seed))
  let acc := acc + BitVec.ofNat 32 n
  let acc := (List.range (n % 16 / 4)).foldl (fun acc i => word acc (lane (n / 16 * 4 + i))) acc
  avalanche ((input.drop (n / 4 * 4)).foldl byte acc)

end XXH32

namespace XXH64

def prime1 : BitVec 64 := 0x9E3779B185EBCA87
def prime2 : BitVec 64 := 0xC2B2AE3D27D4EB4F
def prime3 : BitVec 64 := 0x165667B19E3779F9
def prime4 : BitVec 64 := 0x85EBCA77C2B2AE63
def prime5 : BitVec 64 := 0x27D4EB2F165667C5

def initial (seed : BitVec 64) : Accumulators 64 :=
  ⟨seed + prime1 + prime2, seed + prime2, seed, seed - prime1⟩

def round (acc lane : BitVec 64) : BitVec 64 := (acc + lane * prime2).rotateLeft 31 * prime1

/-- The `i`-th stripe. -/
def stripe (lane : ℕ → BitVec 64) (v : Accumulators 64) (i : ℕ) : Accumulators 64 :=
  ⟨round v.v1 (lane (4 * i)), round v.v2 (lane (4 * i + 1)), round v.v3 (lane (4 * i + 2)),
    round v.v4 (lane (4 * i + 3))⟩

def mergeAccumulator (acc v : BitVec 64) : BitVec 64 := (acc ^^^ round 0 v) * prime1 + prime4

def converge (v : Accumulators 64) : BitVec 64 :=
  let acc := v.v1.rotateLeft 1 + v.v2.rotateLeft 7 + v.v3.rotateLeft 12 + v.v4.rotateLeft 18
  let acc := mergeAccumulator acc v.v1
  let acc := mergeAccumulator acc v.v2
  let acc := mergeAccumulator acc v.v3
  mergeAccumulator acc v.v4

def word (acc lane : BitVec 64) : BitVec 64 :=
  (acc ^^^ round 0 lane).rotateLeft 27 * prime1 + prime4

def halfWord (acc lane : BitVec 64) : BitVec 64 :=
  (acc ^^^ lane * prime1).rotateLeft 23 * prime2 + prime3

def byte (acc : BitVec 64) (b : Byte) : BitVec 64 :=
  (acc ^^^ b.setWidth 64 * prime5).rotateLeft 11 * prime1

def avalanche (acc : BitVec 64) : BitVec 64 :=
  let acc := (acc ^^^ acc >>> 33) * prime2
  let acc := (acc ^^^ acc >>> 29) * prime3
  acc ^^^ acc >>> 32

/-- The hash, where `value` is the number of the bytes of a lane. -/
def hash (value : Bytes → ℕ) (input : Bytes) (seed : BitVec 64) : BitVec 64 :=
  let n := input.length
  let acc :=
    if n < 32 then seed + prime5
    else converge ((List.range (n / 32)).foldl (stripe (lane value 64 8 input)) (initial seed))
  let acc := acc + BitVec.ofNat 64 n
  let acc := (List.range (n % 32 / 8)).foldl
    (fun acc i => word acc (lane value 64 8 input (n / 32 * 4 + i))) acc
  let acc := (List.range (n % 8 / 4)).foldl
    (fun acc i => halfWord acc (lane value 64 4 input (n / 8 * 2 + i))) acc
  avalanche ((input.drop (n / 4 * 4)).foldl byte acc)

end XXH64

/-- XXH32: the lanes are little-endian words. -/
def xxh32 (input : Bytes) (seed : BitVec 32) : BitVec 32 := XXH32.hash leValue input seed

/-- XXH64: the lanes are little-endian words. -/
def xxh64 (input : Bytes) (seed : BitVec 64) : BitVec 64 := XXH64.hash leValue input seed

/-- The ASCII codes of `Rocket` and of `Judge`. -/
example : xxh32 [0x52, 0x6f, 0x63, 0x6b, 0x65, 0x74] 0 = 0x25f912cf ∧
    xxh64 [0x4a, 0x75, 0x64, 0x67, 0x65] 0x4e55436c = 0x15d6a92f71e0e057 := by decide +kernel

/-! ## The code -/

/-- A word is read at a place of the input, byte by byte, in the order of the host. -/
def read32 (littleEndian : Bool) (input : Bytes) (v : ℕ) : Checked (BitVec 32) := do
  let v0 ← readByte input v
  let v1 ← readByte input (v + 1)
  let v2 ← readByte input (v + 2)
  let v3 ← readByte input (v + 3)
  return if littleEndian then
      v0.setWidth 32 ||| v1.setWidth 32 <<< 8 ||| v2.setWidth 32 <<< 16 ||| v3.setWidth 32 <<< 24
    else v3.setWidth 32 ||| v2.setWidth 32 <<< 8 ||| v1.setWidth 32 <<< 16 ||| v0.setWidth 32 <<< 24

def read64 (littleEndian : Bool) (input : Bytes) (v : ℕ) : Checked (BitVec 64) := do
  let v0 ← readByte input v
  let v1 ← readByte input (v + 1)
  let v2 ← readByte input (v + 2)
  let v3 ← readByte input (v + 3)
  let v4 ← readByte input (v + 4)
  let v5 ← readByte input (v + 5)
  let v6 ← readByte input (v + 6)
  let v7 ← readByte input (v + 7)
  return if littleEndian then
      v0.setWidth 64 ||| v1.setWidth 64 <<< 8 ||| v2.setWidth 64 <<< 16 |||
        v3.setWidth 64 <<< 24 |||
        v4.setWidth 64 <<< 32 ||| v5.setWidth 64 <<< 40 ||| v6.setWidth 64 <<< 48 |||
          v7.setWidth 64 <<< 56
    else
      v7.setWidth 64 ||| v6.setWidth 64 <<< 8 ||| v5.setWidth 64 <<< 16 |||
        v4.setWidth 64 <<< 24 |||
        v3.setWidth 64 <<< 32 ||| v2.setWidth 64 <<< 40 ||| v1.setWidth 64 <<< 48 |||
          v0.setWidth 64 <<< 56

def rotl {w : ℕ} (x : BitVec w) (r : ℕ) : BitVec w := x <<< r ||| x >>> (w - r)

namespace Code32

def PRIME1 : BitVec 32 := 0x9E3779B1
def PRIME2 : BitVec 32 := 0x85EBCA77
def PRIME3 : BitVec 32 := 0xC2B2AE3D
def PRIME4 : BitVec 32 := 0x27D4EB2F
def PRIME5 : BitVec 32 := 0x165667B1

/-- The body of the loop over the chunks of 16 bytes: each accumulator takes one word. -/
def chunk (littleEndian : Bool) (input : Bytes) (v : Accumulators 32) (p : ℕ) :
    Checked (Accumulators 32) := do
  let v1 := rotl (v.v1 + (← read32 littleEndian input p) * PRIME2) 13 * PRIME1
  let v2 := rotl (v.v2 + (← read32 littleEndian input (p + 4)) * PRIME2) 13 * PRIME1
  let v3 := rotl (v.v3 + (← read32 littleEndian input (p + 8)) * PRIME2) 13 * PRIME1
  let v4 := rotl (v.v4 + (← read32 littleEndian input (p + 12)) * PRIME2) 13 * PRIME1
  return ⟨v1, v2, v3, v4⟩

/-- The body of the loop over the words. -/
def word (littleEndian : Bool) (input : Bytes) (h : BitVec 32) (p : ℕ) : Checked (BitVec 32) := do
  return rotl (h + (← read32 littleEndian input p) * PRIME3) 17 * PRIME4

/-- The body of the loop over the remainder. -/
def byte (input : Bytes) (h : BitVec 32) (p : ℕ) : Checked (BitVec 32) := do
  return rotl (h + (← readByte input p).setWidth 32 * PRIME5) 11 * PRIME1

end Code32

open Code32 in
/-- `xxhash32`, loop by loop.  The input starts at 0, and `length & ~m` is `length.ldiff m`. -/
def xxhash32 (littleEndian : Bool) (input : Bytes) (seed : BitVec 32) : Checked (BitVec 32) := do
  let length := input.length
  let (h, p) ←
    if 16 ≤ length then do
      let (v, p) ← forBelow (length.ldiff 0xF) 16 (chunk littleEndian input) length 0
        ⟨seed + PRIME1 + PRIME2, seed + PRIME2, seed, seed - PRIME1⟩
      pure (rotl v.v1 1 + rotl v.v2 7 + rotl v.v3 12 + rotl v.v4 18, p)
    else pure (seed + PRIME5, 0)
  let h := h + BitVec.ofNat 32 length
  let (h, p) ← forBelow (length.ldiff 0x3) 4 (word littleEndian input) length p h
  let (h, _) ← forBelow length 1 (byte input) length p h
  let h := (h ^^^ h >>> 15) * PRIME2
  let h := (h ^^^ h >>> 13) * PRIME3
  let h := h ^^^ h >>> 16
  return h

namespace Code64

def PRIME1 : BitVec 64 := 11400714785074694791
def PRIME2 : BitVec 64 := 14029467366897019727
def PRIME3 : BitVec 64 := 1609587929392839161
def PRIME4 : BitVec 64 := 9650029242287828579
def PRIME5 : BitVec 64 := 2870177450012600261

/-- The body of the loop over the chunks of 32 bytes: each accumulator takes one word. -/
def chunk (littleEndian : Bool) (input : Bytes) (v : Accumulators 64) (p : ℕ) :
    Checked (Accumulators 64) := do
  let v1 := rotl (v.v1 + (← read64 littleEndian input p) * PRIME2) 31 * PRIME1
  let v2 := rotl (v.v2 + (← read64 littleEndian input (p + 8)) * PRIME2) 31 * PRIME1
  let v3 := rotl (v.v3 + (← read64 littleEndian input (p + 16)) * PRIME2) 31 * PRIME1
  let v4 := rotl (v.v4 + (← read64 littleEndian input (p + 24)) * PRIME2) 31 * PRIME1
  return ⟨v1, v2, v3, v4⟩

/-- The mixing of one accumulator into the hash, behind the loop over the chunks. -/
def mix (h v : BitVec 64) : BitVec 64 := (h ^^^ rotl (v * PRIME2) 31 * PRIME1) * PRIME1 + PRIME4

/-- The body of the loop over the chunks of 8 bytes. -/
def word (littleEndian : Bool) (input : Bytes) (h : BitVec 64) (p : ℕ) : Checked (BitVec 64) := do
  return rotl (h ^^^ rotl ((← read64 littleEndian input p) * PRIME2) 31 * PRIME1) 27 *
    PRIME1 + PRIME4

/-- The body of the loop over the chunks of 4 bytes. -/
def halfWord (littleEndian : Bool) (input : Bytes) (h : BitVec 64) (p : ℕ) :
    Checked (BitVec 64) := do
  return rotl (h ^^^ (← read32 littleEndian input p).setWidth 64 * PRIME1) 23 * PRIME2 + PRIME3

/-- The body of the loop over the remainder. -/
def byte (input : Bytes) (h : BitVec 64) (p : ℕ) : Checked (BitVec 64) := do
  return rotl (h ^^^ (← readByte input p).setWidth 64 * PRIME5) 11 * PRIME1

end Code64

open Code64 in
def xxhash64 (littleEndian : Bool) (input : Bytes) (seed : BitVec 64) : Checked (BitVec 64) := do
  let length := input.length
  let (h, p) ←
    if 32 ≤ length then do
      let (v, p) ← forBelow (length.ldiff 0x1F) 32 (chunk littleEndian input) length 0
        ⟨seed + PRIME1 + PRIME2, seed + PRIME2, seed, seed - PRIME1⟩
      let h := rotl v.v1 1 + rotl v.v2 7 + rotl v.v3 12 + rotl v.v4 18
      pure (mix (mix (mix (mix h v.v1) v.v2) v.v3) v.v4, p)
    else pure (seed + PRIME5, 0)
  let h := h + BitVec.ofNat 64 length
  let (h, p) ← forBelow (length.ldiff 0x7) 8 (word littleEndian input) length p h
  let (h, p) ← forBelow (length.ldiff 0x3) 4 (halfWord littleEndian input) length p h
  let (h, _) ← forBelow length 1 (byte input) length p h
  let h := (h ^^^ h >>> 33) * PRIME2
  let h := (h ^^^ h >>> 29) * PRIME3
  let h := h ^^^ h >>> 32
  return h

/-! ## The words -/

/-- The number of the bytes of a word in the order of the host, which is how the code reads it. -/
def hostValue (littleEndian : Bool) (b : Bytes) : ℕ :=
  if littleEndian then leValue b else leValue b.reverse

theorem hostValue_lt {littleEndian : Bool} {b : Bytes} (k : ℕ) (h : b.length ≤ k) :
    hostValue littleEndian b < 256 ^ k := by
  have hpow : 256 ^ b.length ≤ 256 ^ k := Nat.pow_le_pow_right (by decide) h
  cases littleEndian
  · have hlt : leValue b.reverse < 256 ^ b.reverse.length := leValue_lt b.reverse
    rw [List.length_reverse] at hlt
    exact hlt.trans_le hpow
  · exact (leValue_lt b).trans_le hpow

theorem rotl_eq {w r : ℕ} (h : r < w) (x : BitVec w) : rotl x r = x.rotateLeft r := by
  rw [BitVec.rotateLeft_def, Nat.mod_eq_of_lt h, rotl]

theorem ofNat_leValue_four (a b c d : Byte) :
    a.setWidth 32 ||| b.setWidth 32 <<< 8 ||| c.setWidth 32 <<< 16 ||| d.setWidth 32 <<< 24 =
      BitVec.ofNat 32 (leValue [a, b, c, d]) := by
  rw [← packBytes_eq]
  simp only [packBytes, BitVec.shiftLeft_or_distrib, ← BitVec.shiftLeft_add, BitVec.or_assoc,
    BitVec.zero_shiftLeft,
    BitVec.or_zero, Nat.reduceAdd]

theorem ofNat_leValue_eight (a b c d e f g h : Byte) :
    a.setWidth 64 ||| b.setWidth 64 <<< 8 ||| c.setWidth 64 <<< 16 ||| d.setWidth 64 <<< 24 |||
        e.setWidth 64 <<< 32 ||| f.setWidth 64 <<< 40 ||| g.setWidth 64 <<< 48 |||
          h.setWidth 64 <<< 56 =
      BitVec.ofNat 64 (leValue [a, b, c, d, e, f, g, h]) := by
  rw [← packBytes_eq]
  simp only [packBytes, BitVec.shiftLeft_or_distrib, ← BitVec.shiftLeft_add, BitVec.or_assoc,
    BitVec.zero_shiftLeft,
    BitVec.or_zero, Nat.reduceAdd]

section

variable {littleEndian : Bool} {input : Bytes} {p i : ℕ}

theorem read32_eq (hp : p = 4 * i) (h : p + 4 ≤ input.length) :
    read32 littleEndian input p = pure (lane (hostValue littleEndian) 32 4 input i) := by
  subst hp
  rw [read32, readByte_eq (by omega), readByte_eq (by omega), readByte_eq (by omega),
    readByte_eq (by omega)]
  simp only [Checked.pure_bind]
  rw [lane, take_drop_eq h, hostValue]
  cases littleEndian
  · exact congrArg pure (ofNat_leValue_four ..)
  · exact congrArg pure (ofNat_leValue_four ..)

theorem read64_eq (hp : p = 8 * i) (h : p + 8 ≤ input.length) :
    read64 littleEndian input p = pure (lane (hostValue littleEndian) 64 8 input i) := by
  subst hp
  rw [read64, readByte_eq (by omega), readByte_eq (by omega), readByte_eq (by omega),
    readByte_eq (by omega),
    readByte_eq (by omega), readByte_eq (by omega), readByte_eq (by omega), readByte_eq (by omega)]
  simp only [Checked.pure_bind]
  rw [lane, take_drop_eq h, hostValue]
  cases littleEndian
  · exact congrArg pure (ofNat_leValue_eight ..)
  · exact congrArg pure (ofNat_leValue_eight ..)

/-- A word of four bytes in 64 bits. -/
theorem setWidth_lane : (lane (hostValue littleEndian) 32 4 input i).setWidth 64 =
    lane (hostValue littleEndian) 64 4 input i := by
  have hlt : hostValue littleEndian ((input.drop (4 * i)).take 4) < 2 ^ 32 :=
    hostValue_lt 4 (List.length_take_le ..)
  rw [lane, lane, BitVec.setWidth_ofNat_of_le_of_lt (by decide) hlt]

/-! ## The bodies of the loops -/

theorem chunk32_eq (hp : p = 16 * i) (h : p + 16 ≤ input.length) (v : Accumulators 32) :
    Code32.chunk littleEndian input v p =
      pure (XXH32.stripe (lane (hostValue littleEndian) 32 4 input) v i) := by
  have h1 := @read32_eq littleEndian input p (4 * i) (by omega) (by omega)
  have h2 := @read32_eq littleEndian input (p + 4) (4 * i + 1) (by omega) (by omega)
  have h3 := @read32_eq littleEndian input (p + 8) (4 * i + 2) (by omega) (by omega)
  have h4 := @read32_eq littleEndian input (p + 12) (4 * i + 3) (by omega) (by omega)
  rw [Code32.chunk, h1, h2, h3, h4]
  simp (disch := decide) only [Checked.pure_bind, rotl_eq]
  rfl

theorem word32_eq (hp : p = 4 * i) (h : p + 4 ≤ input.length) (acc : BitVec 32) :
    Code32.word littleEndian input acc p =
      pure (XXH32.word acc (lane (hostValue littleEndian) 32 4 input i)) := by
  rw [Code32.word, read32_eq hp h, Checked.pure_bind, rotl_eq (by decide)]
  rfl

theorem byte32_eq (h : p < input.length) (acc : BitVec 32) :
    Code32.byte input acc p = pure (XXH32.byte acc (input.getD p 0)) := by
  rw [Code32.byte, readByte_eq h, Checked.pure_bind, rotl_eq (by decide)]
  rfl

/-- A round of an accumulator that is zero: only the lane is mixed, as by the code for one
accumulator. -/
theorem round_zero (lane : BitVec 64) : XXH64.round 0 lane = rotl (lane * Code64.PRIME2) 31 *
    Code64.PRIME1 := by
  rw [XXH64.round, zero_add, rotl_eq (by decide)]
  rfl

theorem chunk64_eq (hp : p = 32 * i) (h : p + 32 ≤ input.length) (v : Accumulators 64) :
    Code64.chunk littleEndian input v p =
      pure (XXH64.stripe (lane (hostValue littleEndian) 64 8 input) v i) := by
  have h1 := @read64_eq littleEndian input p (4 * i) (by omega) (by omega)
  have h2 := @read64_eq littleEndian input (p + 8) (4 * i + 1) (by omega) (by omega)
  have h3 := @read64_eq littleEndian input (p + 16) (4 * i + 2) (by omega) (by omega)
  have h4 := @read64_eq littleEndian input (p + 24) (4 * i + 3) (by omega) (by omega)
  rw [Code64.chunk, h1, h2, h3, h4]
  simp (disch := decide) only [Checked.pure_bind, rotl_eq]
  rfl

theorem mix_eq (acc v : BitVec 64) : Code64.mix acc v = XXH64.mergeAccumulator acc v := by
  rw [Code64.mix, ← round_zero]
  rfl

theorem word64_eq (hp : p = 8 * i) (h : p + 8 ≤ input.length) (acc : BitVec 64) :
    Code64.word littleEndian input acc p =
      pure (XXH64.word acc (lane (hostValue littleEndian) 64 8 input i)) := by
  rw [Code64.word, read64_eq hp h, Checked.pure_bind, ← round_zero, rotl_eq (by decide)]
  rfl

theorem halfWord_eq (hp : p = 4 * i) (h : p + 4 ≤ input.length) (acc : BitVec 64) :
    Code64.halfWord littleEndian input acc p =
      pure (XXH64.halfWord acc (lane (hostValue littleEndian) 64 4 input i)) := by
  rw [Code64.halfWord, read32_eq hp h, Checked.pure_bind, setWidth_lane, rotl_eq (by decide)]
  rfl

theorem byte64_eq (h : p < input.length) (acc : BitVec 64) :
    Code64.byte input acc p = pure (XXH64.byte acc (input.getD p 0)) := by
  rw [Code64.byte, readByte_eq h, Checked.pure_bind, rotl_eq (by decide)]
  rfl

end

/-! ## The loops -/

section

variable (littleEndian : Bool) (input : Bytes)

/-- The loop over the bytes that are left goes through them one by one, to the end of the input. -/
theorem forBelow_bytes {σ : Type} {body : σ → ℕ → Checked σ} {f : σ → Byte → σ} {p : ℕ}
    (hp : p ≤ input.length) (hbody : ∀ s q, q < input.length →
      body s q = pure (f s (input.getD q 0))) (s : σ) :
    forBelow input.length 1 body input.length p s =
      pure ((input.drop p).foldl f s, input.length) := by
  have hend : p + (input.length - p) = input.length := by omega
  rw [← foldl_range_getD f input hend]
  refine forBelow_eq Nat.one_pos _ _ _ _ (by omega) (by omega) fun s i hi => ?_
  rw [Nat.one_mul]
  exact hbody s (p + i) (by omega)

theorem chunks32_eq (v : Accumulators 32) :
    forBelow (input.length.ldiff 0xF) 16 (Code32.chunk littleEndian input) input.length 0 v =
      pure ((List.range (input.length / 16)).foldl
        (XXH32.stripe (lane (hostValue littleEndian) 32 4 input)) v,
        16 * (input.length / 16)) := by
  have hstop : input.length.ldiff 0xF = 16 * (input.length / 16) :=
    ldiff_two_pow_sub_one input.length 4
  rw [hstop]
  exact forBelow_eq (by decide) _ _ _ _ (by omega) (by omega)
    fun v i hi => chunk32_eq (by omega) (by omega) v

theorem words32_eq (h : BitVec 32) :
    forBelow (input.length.ldiff 0x3) 4 (Code32.word littleEndian input) input.length
      (16 * (input.length / 16)) h =
      pure ((List.range (input.length % 16 / 4)).foldl (fun acc i =>
        XXH32.word acc (lane (hostValue littleEndian) 32 4 input (input.length / 16 * 4 + i))) h,
        input.length / 4 * 4) := by
  have hstop : input.length.ldiff 0x3 = input.length / 4 * 4 :=
    (ldiff_two_pow_sub_one input.length 2).trans (Nat.mul_comm ..)
  rw [hstop]
  exact forBelow_eq (by decide) _ _ _ _ (by omega) (by omega)
    fun acc i hi => word32_eq (by omega) (by omega) acc

theorem chunks64_eq (v : Accumulators 64) :
    forBelow (input.length.ldiff 0x1F) 32 (Code64.chunk littleEndian input) input.length 0 v =
      pure ((List.range (input.length / 32)).foldl
        (XXH64.stripe (lane (hostValue littleEndian) 64 8 input)) v,
        32 * (input.length / 32)) := by
  have hstop : input.length.ldiff 0x1F = 32 * (input.length / 32) :=
    ldiff_two_pow_sub_one input.length 5
  rw [hstop]
  exact forBelow_eq (by decide) _ _ _ _ (by omega) (by omega)
    fun v i hi => chunk64_eq (by omega) (by omega) v

theorem words64_eq (h : BitVec 64) :
    forBelow (input.length.ldiff 0x7) 8 (Code64.word littleEndian input) input.length
      (32 * (input.length / 32)) h =
      pure ((List.range (input.length % 32 / 8)).foldl (fun acc i =>
        XXH64.word acc (lane (hostValue littleEndian) 64 8 input (input.length / 32 * 4 + i))) h,
        8 * (input.length / 8)) := by
  have hstop : input.length.ldiff 0x7 = 8 * (input.length / 8) :=
    ldiff_two_pow_sub_one input.length 3
  rw [hstop]
  exact forBelow_eq (by decide) _ _ _ _ (by omega) (by omega)
    fun acc i hi => word64_eq (by omega) (by omega) acc

theorem halfWords_eq (h : BitVec 64) :
    forBelow (input.length.ldiff 0x3) 4 (Code64.halfWord littleEndian input) input.length
      (8 * (input.length / 8)) h =
      pure ((List.range (input.length % 8 / 4)).foldl (fun acc i =>
        XXH64.halfWord acc (lane (hostValue littleEndian) 64 4 input (input.length / 8 * 2 + i))) h,
        input.length / 4 * 4) := by
  have hstop : input.length.ldiff 0x3 = input.length / 4 * 4 :=
    (ldiff_two_pow_sub_one input.length 2).trans (Nat.mul_comm ..)
  rw [hstop]
  exact forBelow_eq (by decide) _ _ _ _ (by omega) (by omega)
    fun acc i hi => halfWord_eq (by omega) (by omega) acc

/-! ## The hashes -/

theorem primes32 : Code32.PRIME1 = XXH32.prime1 ∧ Code32.PRIME2 = XXH32.prime2 ∧
    Code32.PRIME3 = XXH32.prime3 ∧
    Code32.PRIME4 = XXH32.prime4 ∧ Code32.PRIME5 = XXH32.prime5 := ⟨rfl, rfl, rfl, rfl, rfl⟩

theorem primes64 : Code64.PRIME1 = XXH64.prime1 ∧ Code64.PRIME2 = XXH64.prime2 ∧
    Code64.PRIME3 = XXH64.prime3 ∧
    Code64.PRIME4 = XXH64.prime4 ∧ Code64.PRIME5 = XXH64.prime5 := ⟨rfl, rfl, rfl, rfl, rfl⟩

/-- **The code of `xxhash32`** computes the algorithm over the lanes in the order of the host, and
reads nothing outside of the input. -/
theorem xxhash32_eq (seed : BitVec 32) :
    xxhash32 littleEndian input seed = pure (XXH32.hash (hostValue littleEndian) input seed) := by
  have hbytes := forBelow_bytes input (Nat.div_mul_le_self input.length 4)
    (fun s q hq => byte32_eq hq s)
  rw [xxhash32, XXH32.hash]
  by_cases h16 : 16 ≤ input.length
  · rw [if_pos h16, if_neg (by omega), chunks32_eq]
    simp (disch := decide) only [Checked.pure_bind, rotl_eq, words32_eq, hbytes,
      primes32, XXH32.initial,
      XXH32.converge, XXH32.avalanche]
  · have hnone : input.length / 16 = 0 := by omega
    have hwords := words32_eq littleEndian input
    rw [hnone, Nat.mul_zero] at hwords
    rw [if_neg h16, if_pos (by omega), hnone]
    simp only [Checked.pure_bind, hwords, hbytes, primes32, XXH32.avalanche]

/-- **The code of `xxhash64`** computes the algorithm over the lanes in the order of the host, and
reads nothing outside of the input. -/
theorem xxhash64_eq (seed : BitVec 64) :
    xxhash64 littleEndian input seed = pure (XXH64.hash (hostValue littleEndian) input seed) := by
  have hbytes := forBelow_bytes input (Nat.div_mul_le_self input.length 4)
    (fun s q hq => byte64_eq hq s)
  rw [xxhash64, XXH64.hash]
  by_cases h32 : 32 ≤ input.length
  · rw [if_pos h32, if_neg (by omega), chunks64_eq]
    simp (disch := decide) only [Checked.pure_bind, rotl_eq, mix_eq, words64_eq, halfWords_eq,
      hbytes, primes64,
      XXH64.initial, XXH64.converge, XXH64.avalanche]
  · have hnone : input.length / 32 = 0 := by omega
    have hwords := words64_eq littleEndian input
    rw [hnone, Nat.mul_zero] at hwords
    rw [if_neg h32, if_pos (by omega), hnone]
    simp only [Checked.pure_bind, hwords, halfWords_eq, hbytes, primes64, XXH64.avalanche]

end

/-! ## The order of the bytes -/

/-- The bytes at other places: the byte at a place is that of the place which the function gives for
it. -/
def rearrange (place : ℕ → ℕ → ℕ) (input : Bytes) : Bytes :=
  (List.range input.length).map fun p => input.getD (place input.length p) 0

/-- The bytes of each lane of `k` in the other order; what is left behind the lanes stays. -/
def mirror (k n p : ℕ) : ℕ := if p < n / k * k then p / k * k + (k - 1 - p % k) else p

/-- The lanes of XXH64: those of eight bytes, and one of four if as many are left. -/
def mirror64 (n p : ℕ) : ℕ := if p < n / 8 * 8 then mirror 8 n p else mirror 4 n p

section

variable {place : ℕ → ℕ → ℕ} {input : Bytes} {i k w : ℕ}

@[simp] theorem length_rearrange : (rearrange place input).length = input.length := by
  rw [rearrange, List.length_map, List.length_range]

theorem getD_rearrange {p : ℕ} (h : p < input.length) :
    (rearrange place input).getD p 0 = input.getD (place input.length p) 0 := by
  rw [List.getD_eq_getElem _ _ (by rwa [length_rearrange])]
  simp only [rearrange, List.getElem_map, List.getElem_range]

/-- What is left behind the lanes stays. -/
theorem drop_rearrange {q : ℕ} (hq : q ≤ input.length) (h : ∀ p, q ≤ p → place input.length p = p) :
    (rearrange place input).drop q = input.drop q := by
  have hrange : ∀ b : Bytes, b.length = input.length →
      b.drop q = (List.range (input.length - q)).map fun i => b.getD (q + i) 0 := by
    intro b hb
    rw [← take_drop_eq (by omega), List.take_of_length_le (by rw [List.length_drop]; omega)]
  rw [hrange _ length_rearrange, hrange _ rfl]
  refine List.map_congr_left fun i hi => ?_
  rw [List.mem_range] at hi
  rw [getD_rearrange (by omega), h _ (by omega)]

/-- A lane whose bytes are in the other order is read as the same word in the other order. -/
theorem lane_rearrange (hi : k * i + k ≤ input.length)
    (h : ∀ j < k, place input.length (k * i + j) = k * i + (k - 1 - j)) :
    lane leValue w k (rearrange place input) i = lane (hostValue false) w k input i := by
  have hlane : ((rearrange place input).drop (k * i)).take k =
    ((input.drop (k * i)).take k).reverse := by
    rw [take_drop_eq (by rwa [length_rearrange]), take_drop_eq hi]
    refine List.ext_getElem (by simp) fun j hj _ => ?_
    rw [List.length_map, List.length_range] at hj
    rw [List.getElem_reverse]
    simp only [List.getElem_map, List.getElem_range, List.length_map, List.length_range]
    rw [getD_rearrange (by omega), h j hj]
  rw [lane, hlane]
  rfl

end

/-! ## What the hashes depend on -/

section

variable {value value' : Bytes → ℕ} {b b' : Bytes}

/-- XXH32 depends on the lanes, the bytes behind them, and the length. -/
theorem hash32_congr (hlength : b.length = b'.length)
    (hlane : ∀ i < b'.length / 4, lane value 32 4 b i = lane value' 32 4 b' i)
    (hrest : b.drop (b'.length / 4 * 4) = b'.drop (b'.length / 4 * 4)) (seed : BitVec 32) :
    XXH32.hash value b seed = XXH32.hash value' b' seed := by
  have hstripe : ∀ v, ∀ i ∈ List.range (b'.length / 16),
      XXH32.stripe (lane value 32 4 b) v i = XXH32.stripe (lane value' 32 4 b') v i := by
    intro v i hi
    rw [List.mem_range] at hi
    rw [XXH32.stripe, hlane _ (by omega), hlane _ (by omega), hlane _ (by omega),
      hlane _ (by omega)]
    rfl
  have hword : ∀ acc, ∀ i ∈ List.range (b'.length % 16 / 4),
      XXH32.word acc (lane value 32 4 b (b'.length / 16 * 4 + i)) =
        XXH32.word acc (lane value' 32 4 b' (b'.length / 16 * 4 + i)) := by
    intro acc i hi
    rw [List.mem_range] at hi
    rw [hlane _ (by omega)]
  rw [XXH32.hash, XXH32.hash, hlength]
  simp only [List.foldl_ext _ _ _ hstripe, List.foldl_ext _ _ _ hword, hrest]

/-- XXH64 depends on the lanes of eight bytes, the one of four bytes behind them, the bytes behind
that, and the length. -/
theorem hash64_congr (hlength : b.length = b'.length)
    (hlane : ∀ i < b'.length / 8, lane value 64 8 b i = lane value' 64 8 b' i)
    (hhalf : ∀ i < b'.length % 8 / 4,
      lane value 64 4 b (b'.length / 8 * 2 + i) = lane value' 64 4 b' (b'.length / 8 * 2 + i))
    (hrest : b.drop (b'.length / 4 * 4) = b'.drop (b'.length / 4 * 4)) (seed : BitVec 64) :
    XXH64.hash value b seed = XXH64.hash value' b' seed := by
  have hstripe : ∀ v, ∀ i ∈ List.range (b'.length / 32),
      XXH64.stripe (lane value 64 8 b) v i = XXH64.stripe (lane value' 64 8 b') v i := by
    intro v i hi
    rw [List.mem_range] at hi
    rw [XXH64.stripe, hlane _ (by omega), hlane _ (by omega), hlane _ (by omega),
      hlane _ (by omega)]
    rfl
  have hword : ∀ acc, ∀ i ∈ List.range (b'.length % 32 / 8),
      XXH64.word acc (lane value 64 8 b (b'.length / 32 * 4 + i)) =
        XXH64.word acc (lane value' 64 8 b' (b'.length / 32 * 4 + i)) := by
    intro acc i hi
    rw [List.mem_range] at hi
    rw [hlane _ (by omega)]
  have hhalfWord : ∀ acc, ∀ i ∈ List.range (b'.length % 8 / 4),
      XXH64.halfWord acc (lane value 64 4 b (b'.length / 8 * 2 + i)) =
        XXH64.halfWord acc (lane value' 64 4 b' (b'.length / 8 * 2 + i)) := by
    intro acc i hi
    rw [hhalf i (List.mem_range.mp hi)]
  rw [XXH64.hash, XXH64.hash, hlength]
  simp only [List.foldl_ext _ _ _ hstripe, List.foldl_ext _ _ _ hword,
    List.foldl_ext _ _ _ hhalfWord, hrest]

end

/-- On a big-endian host the bytes of each lane are taken in the other order. -/
theorem hash32_bigEndian (input : Bytes) (seed : BitVec 32) :
    XXH32.hash (hostValue false) input seed = xxh32 (rearrange (mirror 4) input) seed := by
  refine (hash32_congr length_rearrange (fun i hi => ?_) ?_ seed).symm
  · refine lane_rearrange (by omega) fun j hj => ?_
    rw [mirror, if_pos (by omega)]
    omega
  · refine drop_rearrange (by omega) fun p hp => ?_
    rw [mirror, if_neg (by omega)]

theorem hash64_bigEndian (input : Bytes) (seed : BitVec 64) :
    XXH64.hash (hostValue false) input seed = xxh64 (rearrange mirror64 input) seed := by
  refine (hash64_congr length_rearrange (fun i hi => ?_) (fun i hi => ?_) ?_ seed).symm
  · refine lane_rearrange (by omega) fun j hj => ?_
    rw [mirror64, if_pos (by omega), mirror, if_pos (by omega)]
    omega
  · refine lane_rearrange (by omega) fun j hj => ?_
    rw [mirror64, if_neg (by omega), mirror, if_pos (by omega)]
    omega
  · refine drop_rearrange (by omega) fun p hp => ?_
    rw [mirror64, if_neg (by omega), mirror, if_neg (by omega)]

/-! ## The property -/

section

variable (littleEndian : Bool) (input : Bytes)

theorem xxhash32_eq_iff (seed : BitVec 32) :
    xxhash32 littleEndian input seed = pure (xxh32 input seed) ↔
    littleEndian = true ∨ xxh32 (rearrange (mirror 4) input) seed = xxh32 input seed := by
  rw [xxhash32_eq, Checked.pure_eq_iff]
  cases littleEndian
  · rw [hash32_bigEndian]
    exact (or_iff_right Bool.false_ne_true).symm
  · exact iff_of_true rfl (.inl rfl)

theorem xxhash64_eq_iff (seed : BitVec 64) :
    xxhash64 littleEndian input seed = pure (xxh64 input seed) ↔
    littleEndian = true ∨ xxh64 (rearrange mirror64 input) seed = xxh64 input seed := by
  rw [xxhash64_eq, Checked.pure_eq_iff]
  cases littleEndian
  · rw [hash64_bigEndian]
    exact (or_iff_right Bool.false_ne_true).symm
  · exact iff_of_true rfl (.inl rfl)

/-- Both hashes are those of the algorithm, for every seed, and nothing goes wrong. -/
def Hashes : Prop :=
  (∀ seed, xxhash32 littleEndian input seed = pure (xxh32 input seed)) ∧
    ∀ seed, xxhash64 littleEndian input seed = pure (xxh64 input seed)

end

/-- The lanes of four bytes and of eight bytes that the hashes read are the same in both orders. -/
def Alike (input : Bytes) : Prop := rearrange (mirror 4) input = input ∧
    rearrange mirror64 input = input

instance (input : Bytes) : Decidable (Alike input) := inferInstanceAs (Decidable (_ ∧ _))

theorem hashes_of_alike {littleEndian : Bool} {input : Bytes}
    (h : littleEndian = true ∨ Alike input) :
    Hashes littleEndian input :=
  ⟨fun seed => (xxhash32_eq_iff ..).mpr (h.imp_right fun halike => by rw [halike.1]),
    fun seed => (xxhash64_eq_iff ..).mpr (h.imp_right fun halike => by rw [halike.2])⟩

/-- A big-endian host hashes four bytes otherwise, since it reads them as another word. -/
theorem not_hashes_four : ¬ Hashes false [1, 0, 0, 0] := by
  intro h
  exact absurd ((xxhash32_eq_iff ..).mp (h.1 0)) (by decide +kernel)

/-- **The hashes.**  One is that of the algorithm if and only if the host is little-endian, or the
algorithm gives the same for the input with the bytes of each lane in the other order.  On a
big-endian host this is so for the inputs whose lanes are the same in both orders, and it is not so
for all inputs. -/
theorem xxhash_eq_iff (littleEndian : Bool) :
    (∀ input seed, xxhash32 littleEndian input seed = pure (xxh32 input seed) ↔
      littleEndian = true ∨ xxh32 (rearrange (mirror 4) input) seed = xxh32 input seed) ∧
    (∀ input seed, xxhash64 littleEndian input seed = pure (xxh64 input seed) ↔
      littleEndian = true ∨ xxh64 (rearrange mirror64 input) seed = xxh64 input seed) ∧
    (∀ input, littleEndian = true ∨ Alike input → Hashes littleEndian input) ∧
    ((∀ input, Hashes littleEndian input) ↔ littleEndian = true) := by
  refine ⟨xxhash32_eq_iff littleEndian, xxhash64_eq_iff littleEndian,
    fun input h => hashes_of_alike h, fun h => ?_,
    fun h input => hashes_of_alike (.inl h)⟩
  cases littleEndian
  · exact absurd (h [1, 0, 0, 0]) not_hashes_four
  · rfl

theorem not_hashes_bigEndian : ¬ ∀ (littleEndian : Bool) (input : Bytes),
    Hashes littleEndian input :=
  fun h => not_hashes_four (h false [1, 0, 0, 0])

end Xxhash
end Util
end NUClear
