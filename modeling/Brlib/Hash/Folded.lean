import Brlib.Bits.Folding
import Brlib.Hash.Uniform

/-!
# The hashes that fold a word

Where a `long` has 32 bits, `hash_64` mixes the hash of the high half of the key into the low
half, and hashes the outcome.  `hash32_ptr` mixes the high half of a pointer into the low one.
Neither favours an outcome (`folded_uniform`).
-/

namespace Brlib
namespace Hash

open Bits

/-- `hash_64_generic`, where a `long` has 32 bits; the halves are truncations to 32 bits. -/
def hash64Generic32 (val : UInt64) (bits : UInt32) : Option UInt32 :=
  hash32 (val.toUInt32 ^^^ _hash32Generic (val >>> 32).toUInt32) bits

/-- `hash_ptr`, where a `long` has 64 bits. -/
def hashPtr (ptr : UInt64) (bits : UInt32) : Option UInt32 :=
  hash64Generic ptr bits

/-- `hash32_ptr`, where a `long` has 64 bits. -/
def hash32Ptr (ptr : UInt64) : UInt32 :=
  (ptr ^^^ (ptr >>> 32)).toUInt32

variable {bits b : UInt32}

theorem card_uint32 : Nat.card UInt32 = 2 ^ 32 := by
  have hrange : Set.range UInt32.toNat = (Finset.range (2 ^ 32) : Finset ℕ) := by
    ext x
    simpa [eq_comm] using (lt_iff_exists_uint32 x).symm
  rw [← Set.ncard_univ, ← Set.ncard_image_of_injective _ fun _ _ => UInt32.toNat_inj.mp,
    Set.image_univ, hrange, Set.ncard_coe_finset, Finset.card_range]

theorem ncard_hash64Generic32 (hpos : 1 ≤ bits.toNat) (hle : bits.toNat ≤ 32)
    (hb : b.toNat < 2 ^ bits.toNat) :
    {val | hash64Generic32 val bits = some b}.ncard = 2 ^ (64 - bits.toNat) := by
  have hfold := ncard_fold halves (fun high => xorPerm (_hash32Generic high))
    fun x => hash32 x bits = some b
  rw [card_uint32, ncard_hash32 hpos hle hb, ← pow_add] at hfold
  calc {val | hash64Generic32 val bits = some b}.ncard
      = 2 ^ (32 + (32 - bits.toNat)) := hfold
    _ = 2 ^ (64 - bits.toNat) := by
        congr 1
        omega

/-- Every word is the fold of as many pointers. -/
theorem ncard_hash32Ptr (x : UInt32) : {ptr | hash32Ptr ptr = x}.ncard = 2 ^ 32 := by
  have hfold := ncard_fold halves xorPerm fun y => y = x
  have hone : {y : UInt32 | y = x}.ncard = 1 := Set.ncard_singleton x
  rw [card_uint32, hone, mul_one] at hfold
  rw [← hfold]
  congr 1
  ext ptr
  simp [hash32Ptr, halves, xorPerm]

/-- **The folding hashes are evenly spread.**  Every bucket of a table gets as many keys of 64
bits where a `long` has 32, as it gets where a `long` has 64; a table of the double size splits
each bucket in two; and every word of 32 bits is the fold of as many pointers. -/
theorem folded_uniform (bits : UInt32) :
    (1 ≤ bits.toNat → bits.toNat ≤ 32 → ∀ b : UInt32, b.toNat < 2 ^ bits.toNat →
      {val | hash64Generic32 val bits = some b}.ncard = 2 ^ (64 - bits.toNat) ∧
      {val | hash64Generic32 val bits = some b}.ncard = {ptr | hashPtr ptr bits = some b}.ncard) ∧
    (1 ≤ bits.toNat → bits.toNat < 32 → ∀ val, ∃ idx,
      hash64Generic32 val (bits + 1) = some idx ∧ hash64Generic32 val bits = some (idx >>> 1)) ∧
    ∀ x, {ptr | hash32Ptr ptr = x}.ncard = 2 ^ 32 := by
  refine ⟨fun hpos hle b hb => ?_, fun hpos hlt val => ?_, ncard_hash32Ptr⟩
  · have hfolded := ncard_hash64Generic32 hpos hle hb
    exact ⟨hfolded, hfolded.trans (ncard_hash64 hpos hle hb).symm⟩
  · exact hashMin_double hpos hlt (.u32 (val.toUInt32 ^^^ _hash32Generic (val >>> 32).toUInt32))

theorem folded_uniform_eightBuckets :
    {val | hash64Generic32 val 3 = some 5}.ncard = 2 ^ 61 ∧
      {ptr | hash32Ptr ptr = 7}.ncard = 2 ^ 32 ∧
      ∃ idx, hash64Generic32 100 4 = some idx ∧ hash64Generic32 100 3 = some (idx >>> 1) := by
  obtain ⟨heven, hdouble, hfold⟩ := folded_uniform 3
  exact ⟨(heven (by decide) (by decide) 5 (by decide)).1, hfold 7,
    hdouble (by decide) (by decide) 100⟩

end Hash
end Brlib
