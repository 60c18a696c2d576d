import Brlib.Unaligned.Basic

/-!
# The functions of `xxhash.c`

`xxh32` and `xxh64` have one shape at two widths, which the model has in common: `k` is the
number of bytes of a word, a stripe is four words, and the loops get their rounds as
parameters.

Addresses are those of `Brlib.Hash.String`, and comparing pointers compares addresses.  A
state keeps the bytes of `mem32` or `mem64` itself; their address comes as a parameter.
-/

namespace Brlib
namespace Xxhash

open Hash Words Unaligned

section Loops

/-- `xxh_rotl32`, `xxh_rotl64` -/
def xxhRotl {w : ℕ} (x : BitVec w) (r : ℕ) : BitVec w :=
  x <<< r ||| x >>> (w - r)

/-- `v1`, `v2`, `v3` and `v4` -/
structure Lanes (w : ℕ) where
  v1 : BitVec w
  v2 : BitVec w
  v3 : BitVec w
  v4 : BitVec w
deriving DecidableEq, Repr

variable (cpu : Cpu) {k : ℕ} (round : BitVec (8 * k) → BitVec (8 * k) → BitVec (8 * k))

/-- Four words from `p` on, each for its own accumulator. -/
def stripe (mem : Bytes) (p : UInt64) (v : Lanes (8 * k)) :
    Option (UInt64 × Lanes (8 * k)) := do
  let input ← getUnalignedLe cpu k mem p
  let v1 := round v.v1 input
  let p := p + UInt64.ofNat k
  let input ← getUnalignedLe cpu k mem p
  let v2 := round v.v2 input
  let p := p + UInt64.ofNat k
  let input ← getUnalignedLe cpu k mem p
  let v3 := round v.v3 input
  let p := p + UInt64.ofNat k
  let input ← getUnalignedLe cpu k mem p
  let v4 := round v.v4 input
  let p := p + UInt64.ofNat k
  some (p, { v1, v2, v3, v4 })

/-- `do { ... } while (p <= limit)` -/
def stripeLoop (mem : Bytes) (limit : UInt64) :
    ℕ → UInt64 → Lanes (8 * k) → Option (UInt64 × Lanes (8 * k))
  | 0, _, _ => none
  | fuel + 1, p, v => do
      let (p, v) ← stripe cpu round mem p v
      if p ≤ limit then stripeLoop mem limit fuel p v
      else some (p, v)

variable {w : ℕ}

/-- `while (p + k <= b_end)`, which mixes a word into the hash. -/
def wordLoop (mix : BitVec w → BitVec (8 * k) → BitVec w) (mem : Bytes) (bEnd : UInt64) :
    ℕ → UInt64 → BitVec w → Option (UInt64 × BitVec w)
  | 0, _, _ => none
  | fuel + 1, p, hash =>
      if p + UInt64.ofNat k ≤ bEnd then do
        let input ← getUnalignedLe cpu k mem p
        wordLoop mix mem bEnd fuel (p + UInt64.ofNat k) (mix hash input)
      else some (p, hash)

/-- `while (p < b_end)`, which mixes a byte into the hash. -/
def byteLoop (mix : BitVec w → BitVec w → BitVec w) (mem : Bytes) (bEnd : UInt64) :
    ℕ → UInt64 → BitVec w → Option (BitVec w)
  | 0, _, _ => none
  | fuel + 1, p, hash =>
      if p < bEnd then do
        let byte ← readWord w mem p 0
        byteLoop mix mem bEnd fuel (p + 1) (mix hash byte)
      else some hash

end Loops

section States

/-- An array of `n` bytes. -/
structure Buffer (n : ℕ) where
  bytes : List UInt8
  size : bytes.length = n

namespace Buffer

variable {n : ℕ}

/-- `memset` to zero -/
def zero (n : ℕ) : Buffer n :=
  ⟨List.replicate n 0, List.length_replicate⟩

/-- The array as a memory, from `base` on. -/
def at' (buf : Buffer n) (base : UInt64) : Bytes :=
  fun q => buf.bytes[(q - base).toNat]?

/-- The bytes `s` from the offset `off` on. -/
def write (buf : Buffer n) (off : ℕ) (s : List UInt8) (h : off + s.length ≤ n) : Buffer n where
  bytes := buf.bytes.take off ++ s ++ buf.bytes.drop (off + s.length)
  size := by
    have hsize := buf.size
    simp only [List.length_append, List.length_take, List.length_drop, hsize]
    omega

/-- `memcpy(buf + off, src, len)`, which must not leave the array. -/
def memcpy (buf : Buffer n) (off : ℕ) (mem : Bytes) (src : UInt64) (len : ℕ) :
    Option (Buffer n) := do
  let s ← readBytes mem len src
  if h : off + s.length ≤ n then some (buf.write off s h) else none

end Buffer

/-- What the states of both widths have: the accumulators, and in the first `memsize` bytes of
`mem` the input that waits for a full stripe. -/
structure Buffered (w n : ℕ) where
  lanes : Lanes w
  mem : Buffer n
  memsize : BitVec 32

/-- `-EINVAL` -/
def einval : ℤ := -22

/-- The `if` of the update functions about data left from a previous update. -/
def fillStripe (cpu : Cpu) {k n : ℕ}
    (round : BitVec (8 * k) → BitVec (8 * k) → BitVec (8 * k)) (base : UInt64) (mem : Bytes)
    (input : UInt64) (state : Buffered (8 * k) n) : Option (UInt64 × Buffered (8 * k) n) :=
  if state.memsize ≠ 0 then do
    let missing := BitVec.ofNat 32 n - state.memsize
    let buf ← state.mem.memcpy state.memsize.toNat mem input missing.toNat
    let (_, lanes) ← stripe cpu round (buf.at' base) base state.lanes
    some (input + UInt64.ofNat missing.toNat, { lanes, mem := buf, memsize := 0 })
  else some (input, state)

/-- The `if` of the update functions about full stripes.  Its test is `more`. -/
def moreStripes (fuel : ℕ) (cpu : Cpu) {k : ℕ} (n : ℕ)
    (round : BitVec (8 * k) → BitVec (8 * k) → BitVec (8 * k)) (more : UInt64 → UInt64 → Bool)
    (mem : Bytes) (bEnd p : UInt64) (lanes : Lanes (8 * k)) :
    Option (UInt64 × Lanes (8 * k)) :=
  if more p bEnd then stripeLoop cpu round mem (bEnd - UInt64.ofNat n) fuel p lanes
  else some (p, lanes)

/-- The `if` of the update functions about what fills no stripe. -/
def keepRest {w n : ℕ} (mem : Bytes) (bEnd p : UInt64) (state : Buffered w n) :
    Option (Buffered w n) :=
  if p < bEnd then do
    let buf ← state.mem.memcpy 0 mem p (bEnd - p).toNat
    some { state with mem := buf, memsize := BitVec.ofNat 32 (bEnd - p).toNat }
  else some state

/-- What the update functions do behind the lengths. -/
def updateBuffered (fuel : ℕ) (cpu : Cpu) {k n : ℕ}
    (round : BitVec (8 * k) → BitVec (8 * k) → BitVec (8 * k)) (more : UInt64 → UInt64 → Bool)
    (base : UInt64) (mem : Bytes) (input len : UInt64) (state : Buffered (8 * k) n) :
    Option (Buffered (8 * k) n) := do
  let bEnd := input + len
  if UInt64.ofNat state.memsize.toNat + len < UInt64.ofNat n then
    let buf ← state.mem.memcpy state.memsize.toNat mem input len.toNat
    some { state with mem := buf, memsize := state.memsize + BitVec.ofNat 32 len.toNat }
  else
    let (p, state) ← fillStripe cpu round base mem input state
    let (p, lanes) ← moreStripes fuel cpu n round more mem bEnd p state.lanes
    keepRest mem bEnd p { state with lanes }

end States

section Xxh32

/-- `struct xxh32_state` -/
structure Xxh32State extends Buffered 32 16 where
  totalLen32 : BitVec 32
  largeLen : BitVec 32

/-- `PRIME32_1` -/
def prime32x1 : BitVec 32 := 2654435761

/-- `PRIME32_2` -/
def prime32x2 : BitVec 32 := 2246822519

/-- `PRIME32_3` -/
def prime32x3 : BitVec 32 := 3266489917

/-- `PRIME32_4` -/
def prime32x4 : BitVec 32 := 668265263

/-- `PRIME32_5` -/
def prime32x5 : BitVec 32 := 374761393

/-- `xxh32_round` -/
def xxh32Round (seed input : BitVec 32) : BitVec 32 :=
  xxhRotl (seed + input * prime32x2) 13 * prime32x1

/-- The first values of the accumulators. -/
def xxh32Lanes (seed : BitVec 32) : Lanes 32 where
  v1 := seed + prime32x1 + prime32x2
  v2 := seed + prime32x2
  v3 := seed + 0
  v4 := seed - prime32x1

/-- The accumulators in one word. -/
def xxh32Merge (v : Lanes 32) : BitVec 32 :=
  xxhRotl v.v1 1 + xxhRotl v.v2 7 + xxhRotl v.v3 12 + xxhRotl v.v4 18

/-- The body of the loop over the words that fill no stripe. -/
def xxh32Word (h32 input : BitVec 32) : BitVec 32 :=
  xxhRotl (h32 + input * prime32x3) 17 * prime32x4

/-- The body of the loop over the bytes that fill no word. -/
def xxh32Byte (h32 byte : BitVec 32) : BitVec 32 :=
  xxhRotl (h32 + byte * prime32x5) 11 * prime32x1

/-- The last lines of `xxh32` and `xxh32_digest`. -/
def xxh32Avalanche (h32 : BitVec 32) : BitVec 32 :=
  let h32 := h32 ^^^ h32 >>> 15
  let h32 := h32 * prime32x2
  let h32 := h32 ^^^ h32 >>> 13
  let h32 := h32 * prime32x3
  h32 ^^^ h32 >>> 16

/-- `xxh32` and `xxh32_digest` behind the length. -/
def xxh32Finish (fuel : ℕ) (cpu : Cpu) (mem : Bytes) (bEnd p : UInt64) (h32 : BitVec 32) :
    Option (BitVec 32) := do
  let (p, h32) ← wordLoop cpu (k := 4) xxh32Word mem bEnd fuel p h32
  let h32 ← byteLoop xxh32Byte mem bEnd fuel p h32
  some (xxh32Avalanche h32)

/-- `xxh32` -/
def xxh32 (fuel : ℕ) (cpu : Cpu) (mem : Bytes) (input len : UInt64) (seed : BitVec 32) :
    Option (BitVec 32) := do
  let p := input
  let bEnd := p + len
  let (p, h32) ←
    if 16 ≤ len then do
      let (p, v) ← stripeLoop cpu (k := 4) xxh32Round mem (bEnd - 16) fuel p (xxh32Lanes seed)
      some (p, xxh32Merge v)
    else some (p, seed + prime32x5)
  xxh32Finish fuel cpu mem bEnd p (h32 + BitVec.ofNat 32 len.toNat)

/-- `xxh32_reset` -/
def xxh32Reset (seed : BitVec 32) : Xxh32State where
  lanes := xxh32Lanes seed
  mem := Buffer.zero 16
  memsize := 0
  totalLen32 := 0
  largeLen := 0

/-- `xxh32_update`; returns the state and the error code. -/
def xxh32Update (fuel : ℕ) (cpu : Cpu) (mem32 : UInt64) (mem : Bytes)
    (input len : UInt64) (state : Xxh32State) : Option (Xxh32State × ℤ) :=
  if input = 0 then some (state, einval)
  else do
    let totalLen32 := state.totalLen32 + BitVec.ofNat 32 len.toNat
    let largeLen := state.largeLen |||
      ((if 16 ≤ len then 1 else 0) ||| (if 16 ≤ totalLen32 then 1 else 0))
    let buffered ← updateBuffered fuel cpu (k := 4) xxh32Round (fun p bEnd => p ≤ bEnd - 16)
      mem32 mem input len state.toBuffered
    some ({ buffered with totalLen32, largeLen }, 0)

/-- `xxh32_digest` -/
def xxh32Digest (fuel : ℕ) (cpu : Cpu) (mem32 : UInt64) (state : Xxh32State) :
    Option (BitVec 32) :=
  let p := mem32
  let bEnd := mem32 + UInt64.ofNat state.memsize.toNat
  let h32 :=
    if state.largeLen ≠ 0 then xxh32Merge state.lanes
    else state.lanes.v3 + prime32x5
  xxh32Finish fuel cpu (state.mem.at' mem32) bEnd p (h32 + state.totalLen32)

end Xxh32

section Xxh64

/-- `struct xxh64_state` -/
structure Xxh64State extends Buffered 64 32 where
  totalLen : UInt64

/-- `PRIME64_1` -/
def prime64x1 : BitVec 64 := 11400714785074694791

/-- `PRIME64_2` -/
def prime64x2 : BitVec 64 := 14029467366897019727

/-- `PRIME64_3` -/
def prime64x3 : BitVec 64 := 1609587929392839161

/-- `PRIME64_4` -/
def prime64x4 : BitVec 64 := 9650029242287828579

/-- `PRIME64_5` -/
def prime64x5 : BitVec 64 := 2870177450012600261

/-- `xxh64_round` -/
def xxh64Round (acc input : BitVec 64) : BitVec 64 :=
  xxhRotl (acc + input * prime64x2) 31 * prime64x1

/-- `xxh64_merge_round` -/
def xxh64MergeRound (acc val : BitVec 64) : BitVec 64 :=
  (acc ^^^ xxh64Round 0 val) * prime64x1 + prime64x4

/-- The first values of the accumulators. -/
def xxh64Lanes (seed : BitVec 64) : Lanes 64 where
  v1 := seed + prime64x1 + prime64x2
  v2 := seed + prime64x2
  v3 := seed + 0
  v4 := seed - prime64x1

/-- The accumulators in one word. -/
def xxh64Merge (v : Lanes 64) : BitVec 64 :=
  let h64 := xxhRotl v.v1 1 + xxhRotl v.v2 7 + xxhRotl v.v3 12 + xxhRotl v.v4 18
  let h64 := xxh64MergeRound h64 v.v1
  let h64 := xxh64MergeRound h64 v.v2
  let h64 := xxh64MergeRound h64 v.v3
  xxh64MergeRound h64 v.v4

/-- The body of the loop over the words that fill no stripe. -/
def xxh64Word (h64 input : BitVec 64) : BitVec 64 :=
  xxhRotl (h64 ^^^ xxh64Round 0 input) 27 * prime64x1 + prime64x4

/-- The half of a word that is left. -/
def xxh64Half (h64 : BitVec 64) (input : BitVec 32) : BitVec 64 :=
  xxhRotl (h64 ^^^ input.setWidth 64 * prime64x1) 23 * prime64x2 + prime64x3

/-- The body of the loop over the bytes that fill no half of a word. -/
def xxh64Byte (h64 byte : BitVec 64) : BitVec 64 :=
  xxhRotl (h64 ^^^ byte * prime64x5) 11 * prime64x1

/-- The last lines of `xxh64` and `xxh64_digest`. -/
def xxh64Avalanche (h64 : BitVec 64) : BitVec 64 :=
  let h64 := h64 ^^^ h64 >>> 33
  let h64 := h64 * prime64x2
  let h64 := h64 ^^^ h64 >>> 29
  let h64 := h64 * prime64x3
  h64 ^^^ h64 >>> 32

/-- The `if` about half a word. -/
def xxh64Halves (cpu : Cpu) (mem : Bytes) (bEnd p : UInt64) (h64 : BitVec 64) :
    Option (UInt64 × BitVec 64) :=
  if p + 4 ≤ bEnd then do
    let input ← getUnalignedLe32 cpu mem p
    some (p + 4, xxh64Half h64 input)
  else some (p, h64)

/-- `xxh64` and `xxh64_digest` behind the length. -/
def xxh64Finish (fuel : ℕ) (cpu : Cpu) (mem : Bytes) (bEnd p : UInt64) (h64 : BitVec 64) :
    Option (BitVec 64) := do
  let (p, h64) ← wordLoop cpu (k := 8) xxh64Word mem bEnd fuel p h64
  let (p, h64) ← xxh64Halves cpu mem bEnd p h64
  let h64 ← byteLoop xxh64Byte mem bEnd fuel p h64
  some (xxh64Avalanche h64)

/-- `xxh64` -/
def xxh64 (fuel : ℕ) (cpu : Cpu) (mem : Bytes) (input len : UInt64) (seed : BitVec 64) :
    Option (BitVec 64) := do
  let p := input
  let bEnd := p + len
  let (p, h64) ←
    if 32 ≤ len then do
      let (p, v) ← stripeLoop cpu (k := 8) xxh64Round mem (bEnd - 32) fuel p (xxh64Lanes seed)
      some (p, xxh64Merge v)
    else some (p, seed + prime64x5)
  xxh64Finish fuel cpu mem bEnd p (h64 + len.toBitVec)

/-- `xxh64_reset` -/
def xxh64Reset (seed : BitVec 64) : Xxh64State where
  lanes := xxh64Lanes seed
  mem := Buffer.zero 32
  memsize := 0
  totalLen := 0

/-- `xxh64_update`; returns the state and the error code. -/
def xxh64Update (fuel : ℕ) (cpu : Cpu) (mem64 : UInt64) (mem : Bytes)
    (input len : UInt64) (state : Xxh64State) : Option (Xxh64State × ℤ) :=
  if input = 0 then some (state, einval)
  else do
    let buffered ← updateBuffered fuel cpu (k := 8) xxh64Round (fun p bEnd => p + 32 ≤ bEnd)
      mem64 mem input len state.toBuffered
    some ({ buffered with totalLen := state.totalLen + len }, 0)

/-- `xxh64_digest` -/
def xxh64Digest (fuel : ℕ) (cpu : Cpu) (mem64 : UInt64) (state : Xxh64State) :
    Option (BitVec 64) :=
  let p := mem64
  let bEnd := mem64 + UInt64.ofNat state.memsize.toNat
  let h64 :=
    if 32 ≤ state.totalLen then xxh64Merge state.lanes
    else state.lanes.v3 + prime64x5
  xxh64Finish fuel cpu (state.mem.at' mem64) bEnd p (h64 + state.totalLen.toBitVec)

end Xxh64

end Xxhash
end Brlib
