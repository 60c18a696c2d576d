import Brlib.Xxhash.Loops

/-!
# The hash of a string of bytes

`xxh32` and `xxh64` compute `xxh32Value` and `xxh64Value` of the bytes they are given, for
which it does not matter where the bytes are and which byte order the CPU has.
-/

namespace Brlib
namespace Xxhash

open Hash Words Unaligned Blocks

/-- A buffer with the bytes `s`, which has room for a stripe before and behind it. -/
def Stocked (mem : Bytes) (input : UInt64) (s : List UInt8) : Prop :=
  Span mem input (input + UInt64.ofNat s.length) s

/-- The rest of a string that fills no stripe. -/
def xxh32Tail (h32 : BitVec 32) (s : List UInt8) : BitVec 32 :=
  let rest := absorb (fun h32 blk => xxh32Word h32 (word 4 blk)) 4 h32 s
  xxh32Avalanche (rest.2.foldl (fun h32 byte => xxh32Byte h32 (byte.toBitVec.setWidth 32)) rest.1)

/-- The stripes of a string, and the rest. -/
def xxh32Stripes (seed : BitVec 32) (s : List UInt8) : Lanes 32 × List UInt8 :=
  absorb (stripeStep (k := 4) xxh32Round) 16 (xxh32Lanes seed) s

/-- The hash that `xxh32` computes of the bytes `s`. -/
def xxh32Value (seed : BitVec 32) (s : List UInt8) : BitVec 32 :=
  let h32 :=
    if 16 ≤ s.length then xxh32Merge (xxh32Stripes seed s).1
    else seed + prime32x5
  xxh32Tail (h32 + BitVec.ofNat 32 s.length) (xxh32Stripes seed s).2

/-- A half word, if there is one. -/
def xxh64HalfStep (h64 : BitVec 64) (s : List UInt8) : BitVec 64 × List UInt8 :=
  if 4 ≤ s.length then (xxh64Half h64 (word 4 (s.take 4)), s.drop 4) else (h64, s)

/-- The rest of a string that fills no stripe. -/
def xxh64Tail (h64 : BitVec 64) (s : List UInt8) : BitVec 64 :=
  let rest := absorb (fun h64 blk => xxh64Word h64 (word 8 blk)) 8 h64 s
  let rest := xxh64HalfStep rest.1 rest.2
  xxh64Avalanche (rest.2.foldl (fun h64 byte => xxh64Byte h64 (byte.toBitVec.setWidth 64)) rest.1)

/-- The stripes of a string, and the rest. -/
def xxh64Stripes (seed : BitVec 64) (s : List UInt8) : Lanes 64 × List UInt8 :=
  absorb (stripeStep (k := 8) xxh64Round) 32 (xxh64Lanes seed) s

/-- The hash that `xxh64` computes of the bytes `s`. -/
def xxh64Value (seed : BitVec 64) (s : List UInt8) : BitVec 64 :=
  let h64 :=
    if 32 ≤ s.length then xxh64Merge (xxh64Stripes seed s).1
    else seed + prime64x5
  xxh64Tail (h64 + BitVec.ofNat 64 s.length) (xxh64Stripes seed s).2

variable {mem : Bytes} {p bEnd input len : UInt64} {s : List UInt8} {fuel : ℕ}
variable {cpu : Cpu}

theorem Span.length_lt (hspan : Span mem p bEnd s) : s.length < 2 ^ 64 := by
  have hsize := hspan.size
  have hhigh := hspan.high
  omega

instance decidableStored (mem : Bytes) : (p : UInt64) → (s : List UInt8) →
    Decidable (Stored mem p s)
  | _, [] => inferInstanceAs (Decidable True)
  | p, byte :: s =>
      have := decidableStored mem (p + 1) s
      inferInstanceAs (Decidable (mem p = some byte ∧ Stored mem (p + 1) s))

theorem stocked_of_stored (hstored : Stored mem p s) (hlow : 32 ≤ p.toNat)
    (hhigh : p.toNat + s.length + 32 < 2 ^ 64) : Stocked mem p s := by
  have hend : (p + UInt64.ofNat s.length).toNat = p.toNat + s.length := by
    rw [UInt64.toNat_add, UInt64.toNat_ofNat']
    omega
  exact ⟨hstored, hlow, hend.symm, by omega⟩

section Xxh32

variable {seed h32 : BitVec 32}

theorem xxh32Finish_eq (cpu : Cpu) (h32 : BitVec 32) (hspan : Span mem p bEnd s) (hfuel : s.length < fuel) :
    xxh32Finish fuel cpu mem bEnd p h32 = some (xxh32Tail h32 s) := by
  obtain ⟨q, hwords, hspan'⟩ := wordLoop_eq cpu (k := 4) xxh32Word h32 (by decide) (by decide)
    hspan hfuel
  have hle := length_absorb_le (f := fun h32 blk => xxh32Word h32 (word 4 blk)) (a := h32)
    (show 0 < 4 by decide) s
  have hbytes := byteLoop_eq xxh32Byte
    (absorb (fun h32 blk => xxh32Word h32 (word 4 blk)) 4 h32 s).1 hspan'
    (lt_of_le_of_lt hle hfuel)
  simp only [xxh32Finish, hwords, hbytes, Option.bind_eq_bind, Option.bind_some]
  rfl

/-- `xxh32` depends on the bytes and the seed only. -/
theorem xxh32_eq (hstocked : Stocked mem input s) (hfuel : s.length < fuel) :
    xxh32 fuel cpu mem input (UInt64.ofNat s.length) seed = some (xxh32Value seed s) := by
  have hlen : (UInt64.ofNat s.length).toNat = s.length := by
    rw [UInt64.toNat_ofNat', Nat.mod_eq_of_lt (Span.length_lt hstocked)]
  have hlong : (16 : UInt64) ≤ UInt64.ofNat s.length ↔ 16 ≤ s.length := by
    rw [UInt64.le_iff_toNat_le, hlen]
    rfl
  by_cases hs : 16 ≤ s.length
  · obtain ⟨q, hloop, hspan⟩ := stripeLoop_eq cpu (k := 4) xxh32Round (xxh32Lanes seed)
      (by decide) (by decide) hstocked hs hfuel
    have hloop' : stripeLoop cpu (k := 4) xxh32Round mem
        (input + UInt64.ofNat s.length - 16) fuel input (xxh32Lanes seed) =
          some (q, (xxh32Stripes seed s).1) := hloop
    have hle : (xxh32Stripes seed s).2.length ≤ s.length := length_absorb_le (by decide) s
    have hfinish := xxh32Finish_eq cpu
      (xxh32Merge (xxh32Stripes seed s).1 + BitVec.ofNat 32 s.length) hspan
      (lt_of_le_of_lt hle hfuel)
    simp only [xxh32, if_pos (hlong.mpr hs), hloop', hlen, Option.bind_eq_bind, Option.bind_some,
      hfinish, xxh32Value, if_pos hs]
    rfl
  · have hrest : (xxh32Stripes seed s).2 = s := by
      rw [xxh32Stripes, absorb_short (by omega)]
    have hfinish := xxh32Finish_eq cpu (seed + prime32x5 + BitVec.ofNat 32 s.length) hstocked
      hfuel
    simp only [xxh32, if_neg (hlong.not.mpr hs), hlen, Option.bind_eq_bind, Option.bind_some,
      hfinish, xxh32Value, if_neg hs, hrest]

end Xxh32

section Xxh64

variable {seed h64 : BitVec 64}

theorem xxh64Halves_eq (cpu : Cpu) (h64 : BitVec 64) (hspan : Span mem p bEnd s) :
    ∃ q, xxh64Halves cpu mem bEnd p h64 = some (q, (xxh64HalfStep h64 s).1) ∧
      Span mem q bEnd (xxh64HalfStep h64 s).2 := by
  have hhalf : p + 4 ≤ bEnd ↔ 4 ≤ s.length := hspan.add_le_iff (n := 4) (by decide)
  by_cases hs : 4 ≤ s.length
  · have hlen : (s.take 4).length = 4 := List.length_take_of_le hs
    rw [← List.take_append_drop 4 s] at hspan
    have hspan' : Span mem (p + 4) bEnd (s.drop 4) := by
      have hdrop := hspan.drop
      rw [hlen] at hdrop
      exact hdrop
    have hword : getUnalignedLe32 cpu mem p = some (word 4 (s.take 4)) := hspan.get_word hlen
    refine ⟨p + 4, ?_, by simpa only [xxh64HalfStep, if_pos hs] using hspan'⟩
    simp only [xxh64Halves, if_pos (hhalf.mpr hs), hword, Option.bind_eq_bind, Option.bind_some,
      xxh64HalfStep, if_pos hs]
  · refine ⟨p, ?_, by simpa only [xxh64HalfStep, if_neg hs] using hspan⟩
    simp only [xxh64Halves, if_neg (hhalf.not.mpr hs), xxh64HalfStep, if_neg hs]

theorem xxh64Finish_eq (cpu : Cpu) (h64 : BitVec 64) (hspan : Span mem p bEnd s) (hfuel : s.length < fuel) :
    xxh64Finish fuel cpu mem bEnd p h64 = some (xxh64Tail h64 s) := by
  obtain ⟨q, hwords, hspan₁⟩ := wordLoop_eq cpu (k := 8) xxh64Word h64 (by decide) (by decide)
    hspan hfuel
  obtain ⟨q', hhalf, hspan₂⟩ := xxh64Halves_eq cpu
    (absorb (fun h64 blk => xxh64Word h64 (word 8 blk)) 8 h64 s).1 hspan₁
  have hle : (absorb (fun h64 blk => xxh64Word h64 (word 8 blk)) 8 h64 s).2.length ≤ s.length :=
    length_absorb_le (by decide) s
  have hle' : ∀ (h : BitVec 64) (t : List UInt8), (xxh64HalfStep h t).2.length ≤ t.length := by
    intro h t
    unfold xxh64HalfStep
    split <;> simp
  have hbytes := byteLoop_eq xxh64Byte (xxh64HalfStep
    (absorb (fun h64 blk => xxh64Word h64 (word 8 blk)) 8 h64 s).1
    (absorb (fun h64 blk => xxh64Word h64 (word 8 blk)) 8 h64 s).2).1 hspan₂
    (lt_of_le_of_lt ((hle' _ _).trans hle) hfuel)
  simp only [xxh64Finish, hwords, hhalf, hbytes, Option.bind_eq_bind, Option.bind_some]
  rfl

theorem xxh64_eq (hstocked : Stocked mem input s) (hfuel : s.length < fuel) :
    xxh64 fuel cpu mem input (UInt64.ofNat s.length) seed = some (xxh64Value seed s) := by
  have hlen : (UInt64.ofNat s.length).toNat = s.length := by
    rw [UInt64.toNat_ofNat', Nat.mod_eq_of_lt (Span.length_lt hstocked)]
  have hbits : (UInt64.ofNat s.length).toBitVec = BitVec.ofNat 64 s.length := rfl
  have hlong : (32 : UInt64) ≤ UInt64.ofNat s.length ↔ 32 ≤ s.length := by
    rw [UInt64.le_iff_toNat_le, hlen]
    rfl
  by_cases hs : 32 ≤ s.length
  · obtain ⟨q, hloop, hspan⟩ := stripeLoop_eq cpu (k := 8) xxh64Round (xxh64Lanes seed)
      (by decide) (by decide) hstocked hs hfuel
    have hloop' : stripeLoop cpu (k := 8) xxh64Round mem
        (input + UInt64.ofNat s.length - 32) fuel input (xxh64Lanes seed) =
          some (q, (xxh64Stripes seed s).1) := hloop
    have hle : (xxh64Stripes seed s).2.length ≤ s.length := length_absorb_le (by decide) s
    have hfinish := xxh64Finish_eq cpu
      (xxh64Merge (xxh64Stripes seed s).1 + BitVec.ofNat 64 s.length) hspan
      (lt_of_le_of_lt hle hfuel)
    simp only [xxh64, if_pos (hlong.mpr hs), hloop', hbits, Option.bind_eq_bind, Option.bind_some,
      hfinish, xxh64Value, if_pos hs]
    rfl
  · have hrest : (xxh64Stripes seed s).2 = s := by
      rw [xxh64Stripes, absorb_short (by omega)]
    have hfinish := xxh64Finish_eq cpu (seed + prime64x5 + BitVec.ofNat 64 s.length) hstocked
      hfuel
    simp only [xxh64, if_neg (hlong.not.mpr hs), hbits, Option.bind_eq_bind, Option.bind_some,
      hfinish, xxh64Value, if_neg hs, hrest]

end Xxh64

end Xxhash
end Brlib
