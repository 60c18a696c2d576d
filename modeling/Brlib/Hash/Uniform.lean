import Brlib.Hash.Basic

/-!
# The spread of the integer hashes

Both hashes are the top bits of a product with an odd number modulo the size of the word.
So every bucket gets the same number of keys, and a table of the double size splits
each bucket into two neighbouring ones (`hash_uniform`).
-/

namespace Brlib
namespace Hash

open Bits

variable {bits b : UInt32}

theorem goldenRatio32_odd : Odd goldenRatio32.toNat := by decide

theorem goldenRatio64_odd : Odd goldenRatio64.toNat := by decide

theorem lt_iff_exists_uint32 (x : ℕ) : x < 2 ^ 32 ↔ ∃ val : UInt32, val.toNat = x := by
  constructor
  · intro hx
    exact ⟨UInt32.ofNat x, UInt32.toNat_ofNat_of_lt' hx⟩
  · rintro ⟨val, rfl⟩
    exact val.toNat_lt

theorem lt_iff_exists_uint64 (x : ℕ) : x < 2 ^ 64 ↔ ∃ val : UInt64, val.toNat = x := by
  constructor
  · intro hx
    exact ⟨UInt64.ofNat x, UInt64.toNat_ofNat_of_lt' hx⟩
  · rintro ⟨val, rfl⟩
    exact val.toNat_lt

section Values

variable (hpos : 1 ≤ bits.toNat) (hle : bits.toNat ≤ 32)
include hpos hle

theorem hash32_eq_some_iff (val : UInt32) :
    hash32 val bits = some b ↔
      topBits 32 bits.toNat (val.toNat * goldenRatio32.toNat % 2 ^ 32) = b.toNat := by
  obtain ⟨idx, hidx, heq⟩ := hash32_eq val hpos hle
  rw [_hash32Generic, UInt32.toNat_mul] at heq
  rw [hidx, Option.some.injEq, topBits, ← heq, UInt32.toNat_inj]

theorem hash64_eq_some_iff (val : UInt64) :
    hash64Generic val bits = some b ↔
      topBits 64 bits.toNat (val.toNat * goldenRatio64.toNat % 2 ^ 64) = b.toNat := by
  obtain ⟨idx, hidx, heq⟩ := hash64_eq val hpos hle
  rw [UInt64.toNat_mul] at heq
  rw [hidx, Option.some.injEq, topBits, ← heq, UInt32.toNat_inj]

theorem ncard_hash32 (hb : b.toNat < 2 ^ bits.toNat) :
    {val | hash32 val bits = some b}.ncard = 2 ^ (32 - bits.toNat) := by
  simp only [hash32_eq_some_iff hpos hle]
  exact ncard_topBits_mul (fun _ _ => UInt32.toNat_inj.mp) lt_iff_exists_uint32
    goldenRatio32_odd hle hb

theorem ncard_hash64 (hb : b.toNat < 2 ^ bits.toNat) :
    {val | hash64Generic val bits = some b}.ncard = 2 ^ (64 - bits.toNat) := by
  simp only [hash64_eq_some_iff hpos hle]
  exact ncard_topBits_mul (fun _ _ => UInt64.toNat_inj.mp) lt_iff_exists_uint64
    goldenRatio64_odd (by omega) hb

end Values

section Doubling

theorem toNat_bits_succ (hlt : bits.toNat < 32) : (bits + 1).toNat = bits.toNat + 1 := by
  rw [UInt32.toNat_add]
  exact Nat.mod_eq_of_lt (by show bits.toNat + 1 < _; omega)

theorem eq_shiftRight_of_half {idx idx' : UInt32} (h : idx.toNat = idx'.toNat / 2) :
    idx = idx' >>> 1 := by
  apply UInt32.toNat_inj.mp
  rw [h, UInt32.toNat_shiftRight]
  exact (Nat.shiftRight_eq_div_pow _ 1).symm

/-- For each key there is a word of which all its hashes are the top bits. -/
theorem hashMin_topBits (key : Key) :
    ∃ w x, 32 ≤ w ∧ ∀ bits : UInt32, 1 ≤ bits.toNat → bits.toNat ≤ 32 →
      ∃ idx, hashMin key bits = some idx ∧ idx.toNat = topBits w bits.toNat x := by
  cases key with
  | u32 val => exact ⟨32, _, le_rfl, fun bits hpos hle => hash32_eq val hpos hle⟩
  | u64 val => exact ⟨64, _, by decide, fun bits hpos hle => hash64_eq val hpos hle⟩

theorem hashMin_double (hpos : 1 ≤ bits.toNat) (hlt : bits.toNat < 32) (key : Key) :
    ∃ idx, hashMin key (bits + 1) = some idx ∧ hashMin key bits = some (idx >>> 1) := by
  obtain ⟨w, x, hw, hvalue⟩ := hashMin_topBits key
  have hsucc := toNat_bits_succ hlt
  obtain ⟨idx, hidx, heq⟩ := hvalue bits hpos hlt.le
  obtain ⟨idx', hidx', heq'⟩ := hvalue (bits + 1) (by omega) (by omega)
  rw [hsucc] at heq'
  rw [topBits_half (by omega), ← heq'] at heq
  exact ⟨idx', hidx', eq_shiftRight_of_half heq ▸ hidx⟩

end Doubling

/-- **The hashes are evenly spread and refine under table doubling.**  For 1 to 32 bits every
bucket is the hash of the same number of keys, and there is no other hash.  With less than 32
bits, what hash a key has is the hash with one bit more, shifted down by one; it has none
without any bit. -/
theorem hash_uniform (bits : UInt32) :
    (1 ≤ bits.toNat → bits.toNat ≤ 32 →
      (∀ b : UInt32, b.toNat < 2 ^ bits.toNat →
        {val | hash32 val bits = some b}.ncard = 2 ^ (32 - bits.toNat) ∧
        {val | hash64Generic val bits = some b}.ncard = 2 ^ (64 - bits.toNat)) ∧
      ∀ key, ∃ idx, hashMin key bits = some idx ∧ idx.toNat < 2 ^ bits.toNat) ∧
    (bits.toNat < 32 → ∀ key idx, hashMin key bits = some idx →
      ∃ idx', hashMin key (bits + 1) = some idx' ∧ idx = idx' >>> 1) := by
  constructor
  · intro hpos hle
    exact ⟨fun b hb => ⟨ncard_hash32 hpos hle hb, ncard_hash64 hpos hle hb⟩,
      fun key => hashMin_lt key hpos hle⟩
  · intro hlt key idx hidx
    by_cases hzero : bits.toNat = 0
    · obtain rfl : bits = 0 := UInt32.toNat_inj.mp hzero
      rw [hashMin_zero] at hidx
      exact absurd hidx (by simp)
    · obtain ⟨idx', hidx', hhalf⟩ := hashMin_double (Nat.pos_of_ne_zero hzero) hlt key
      rw [hidx] at hhalf
      exact ⟨idx', hidx', Option.some.inj hhalf⟩

theorem hash_uniform_eightBuckets :
    {val | hash32 val 3 = some 5}.ncard = 2 ^ 29 ∧
      {val | hash64Generic val 3 = some 5}.ncard = 2 ^ 61 ∧
      ∃ idx, hashMin (.u32 100) 4 = some idx ∧ (1 : UInt32) = idx >>> 1 := by
  obtain ⟨heven, hdouble⟩ := hash_uniform 3
  obtain ⟨h32, h64⟩ := (heven (by decide) (by decide)).1 5 (by decide)
  exact ⟨h32, h64, hdouble (by decide) (.u32 100) 1 (by decide)⟩

end Hash
end Brlib
