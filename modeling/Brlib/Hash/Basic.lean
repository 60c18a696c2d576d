import Brlib.Bits.TopBits

/-!
# The integer hashes of `hash.h`

The hash of a key is the high bits of a product modulo the word size.  A shift by the
width of its operand or more is undefined, so the functions may have no result; for 1 to
32 bits they have one, and it has no more than these bits (`hashMin_lt`).
-/

namespace Brlib
namespace Hash

/-- `GOLDEN_RATIO_32` -/
def goldenRatio32 : UInt32 := 0x61C88647

/-- `GOLDEN_RATIO_64` -/
def goldenRatio64 : UInt64 := 0x61C8864680B583EB

/-- `val >> n` of a 32-bit word. -/
def shr32 (val n : UInt32) : Option UInt32 :=
  if n < 32 then some (val >>> n) else none

/-- `val >> n` of a 64-bit word. -/
def shr64 (val : UInt64) (n : UInt32) : Option UInt64 :=
  if n < 64 then some (val >>> n.toUInt64) else none

/-- `__hash_32_generic` -/
def _hash32Generic (val : UInt32) : UInt32 :=
  val * goldenRatio32

/-- `hash_32` -/
def hash32 (val bits : UInt32) : Option UInt32 :=
  shr32 (_hash32Generic val) (32 - bits)

/-- `hash_64_generic`, where a `long` has 64 bits; the result is truncated to 32. -/
def hash64Generic (val : UInt64) (bits : UInt32) : Option UInt32 :=
  (shr64 (val * goldenRatio64) (64 - bits)).map UInt64.toUInt32

/-- A key of 32 or of 64 bits. -/
inductive Key where
  | u32 (val : UInt32)
  | u64 (val : UInt64)
deriving DecidableEq, Repr

/-- `hash_min`, which chooses by the size of the key; `hash_long` is `hash_64`. -/
def hashMin : Key → UInt32 → Option UInt32
  | .u32 val, bits => hash32 val bits
  | .u64 val, bits => hash64Generic val bits

open Bits

variable {bits : UInt32}

theorem hash32_eq (val : UInt32) (hpos : 1 ≤ bits.toNat) (hle : bits.toNat ≤ 32) :
    ∃ idx, hash32 val bits = some idx ∧
      idx.toNat = (_hash32Generic val).toNat / 2 ^ (32 - bits.toNat) := by
  have hsub : (32 - bits).toNat = 32 - bits.toNat := by
    exact UInt32.toNat_sub_of_le _ _ (UInt32.le_iff_toNat_le.mpr hle)
  have hlt : 32 - bits < 32 := by
    rw [UInt32.lt_iff_toNat_lt, hsub]
    show 32 - bits.toNat < 32
    omega
  refine ⟨_hash32Generic val >>> (32 - bits), ?_, ?_⟩
  · simp [hash32, shr32, hlt]
  · rw [UInt32.toNat_shiftRight, hsub, Nat.mod_eq_of_lt (by omega), Nat.shiftRight_eq_div_pow]

theorem hash64_eq (val : UInt64) (hpos : 1 ≤ bits.toNat) (hle : bits.toNat ≤ 32) :
    ∃ idx, hash64Generic val bits = some idx ∧
      idx.toNat = (val * goldenRatio64).toNat / 2 ^ (64 - bits.toNat) := by
  have hsub : (64 - bits).toNat = 64 - bits.toNat := by
    refine UInt32.toNat_sub_of_le _ _ (UInt32.le_iff_toNat_le.mpr ?_)
    show bits.toNat ≤ 64
    omega
  have hlt : 64 - bits < 64 := by
    rw [UInt32.lt_iff_toNat_lt, hsub]
    show 64 - bits.toNat < 64
    omega
  refine ⟨((val * goldenRatio64) >>> (64 - bits).toUInt64).toUInt32, ?_, ?_⟩
  · simp [hash64Generic, shr64, hlt]
  · have hval : ((val * goldenRatio64) >>> (64 - bits).toUInt64).toNat =
        (val * goldenRatio64).toNat / 2 ^ (64 - bits.toNat) := by
      rw [UInt64.toNat_shiftRight, UInt32.toNat_toUInt64, hsub, Nat.mod_eq_of_lt (by omega),
        Nat.shiftRight_eq_div_pow]
    have hword : (val * goldenRatio64).toNat < 2 ^ 64 := UInt64.toNat_lt _
    have hsmall : (val * goldenRatio64).toNat / 2 ^ (64 - bits.toNat) < 2 ^ 32 := by
      rw [Nat.div_lt_iff_lt_mul (Nat.two_pow_pos _), ← pow_add]
      exact hword.trans_le (Nat.pow_le_pow_right (by decide) (by omega))
    rw [UInt64.toNat_toUInt32, hval, Nat.mod_eq_of_lt hsmall]

/-- Without any bit the shift is by the full width. -/
theorem hashMin_zero (key : Key) : hashMin key 0 = none := by
  cases key with
  | u32 val => rfl
  | u64 val => rfl

theorem hashMin_lt (key : Key) (hpos : 1 ≤ bits.toNat) (hle : bits.toNat ≤ 32) :
    ∃ idx, hashMin key bits = some idx ∧ idx.toNat < 2 ^ bits.toNat := by
  cases key with
  | u32 val =>
      obtain ⟨idx, hidx, heq⟩ := hash32_eq val hpos hle
      refine ⟨idx, hidx, ?_⟩
      rw [heq]
      exact topBits_lt hle (UInt32.toNat_lt _)
  | u64 val =>
      obtain ⟨idx, hidx, heq⟩ := hash64_eq val hpos hle
      refine ⟨idx, hidx, ?_⟩
      rw [heq]
      exact topBits_lt (by omega) (UInt64.toNat_lt _)

end Hash
end Brlib
