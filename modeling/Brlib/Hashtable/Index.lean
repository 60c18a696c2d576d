import Brlib.Hashtable.Basic

/-!
# The index of a bucket

`hash_add` and `hash_for_each_possible` find the bucket of a key with `hash_min` and the
number of bits that `HASH_BITS` recovers from the size of the table.  The shift distance is
the width of the key without these bits, which for a table of one bucket is the full width:
there the index is undefined (`hashMin_inRange_iff`).
-/

namespace Brlib
namespace Hashtable

open Heap SlotMem Hash

/-- `HASH_SIZE` of the table that `DEFINE_HASHTABLE(name, bits)` defines. -/
def hashSize (bits : UInt32) : UInt64 :=
  1 <<< bits.toUInt64

variable {bits : UInt32} {ilog2 : UInt64 → UInt32}

theorem hashSize_toNat (hbits : bits.toNat ≤ 30) : (hashSize bits).toNat = 2 ^ bits.toNat := by
  have hlt : 2 ^ bits.toNat < 2 ^ 64 := Nat.pow_lt_pow_right (by decide) (by omega)
  have hmod : bits.toNat % 64 = bits.toNat := Nat.mod_eq_of_lt (by omega)
  rw [hashSize, UInt64.toNat_shiftLeft, UInt32.toNat_toUInt64, hmod]
  show 1 <<< bits.toNat % 2 ^ 64 = _
  rw [Nat.shiftLeft_eq, Nat.one_mul, Nat.mod_eq_of_lt hlt]

theorem ilog2_hashSize (hilog2 : ∀ n, n ≠ 0 → (ilog2 n).toNat = Nat.log2 n.toNat)
    (hbits : bits.toNat ≤ 30) : ilog2 (hashSize bits) = bits := by
  have hsize := hashSize_toNat hbits
  have hne : hashSize bits ≠ 0 := by
    intro hzero
    rw [hzero] at hsize
    exact absurd hsize.symm (Nat.two_pow_pos bits.toNat).ne'
  apply UInt32.toNat_inj.mp
  rw [hilog2 _ hne, hsize, Nat.log2_two_pow]

/-- The index of the bucket of a key is defined and in the table if and only if the table has
more than one bucket. -/
theorem hashMin_inRange_iff (hilog2 : ∀ n, n ≠ 0 → (ilog2 n).toNat = Nat.log2 n.toNat)
    (hbits : bits.toNat ≤ 30) (key : Key) :
    (∃ idx, hashMin key (ilog2 (hashSize bits)) = some idx ∧
      idx.toNat < (hashSize bits).toNat) ↔ bits ≠ 0 := by
  rw [ilog2_hashSize hilog2 hbits, hashSize_toNat hbits]
  constructor
  · rintro ⟨idx, hidx, -⟩ rfl
    rw [hashMin_zero] at hidx
    exact absurd hidx (by simp)
  · intro hne
    have hpos : 1 ≤ bits.toNat := Nat.pos_of_ne_zero fun hzero => hne (UInt32.toNat_inj.mp hzero)
    exact hashMin_lt key hpos (by omega)

/-- The exact base-2 logarithm. -/
def exactLog2 (n : UInt64) : UInt32 :=
  UInt32.ofNat (Nat.log2 n.toNat)

theorem exactLog2_toNat (n : UInt64) (hn : n ≠ 0) : (exactLog2 n).toNat = Nat.log2 n.toNat := by
  have hne : n.toNat ≠ 0 := fun hzero => hn (UInt64.toNat_inj.mp hzero)
  have hlt : Nat.log2 n.toNat < 64 := (Nat.log2_lt hne).mpr n.toNat_lt
  exact UInt32.toNat_ofNat_of_lt' (hlt.trans (by decide))

theorem hashMin_inRange_iff_eightBuckets :
    (∃ idx, hashMin (.u64 100) (exactLog2 (hashSize 3)) = some idx ∧
      idx.toNat < (hashSize 3).toNat) ↔ (3 : UInt32) ≠ 0 :=
  hashMin_inRange_iff exactLog2_toNat (by decide) (.u64 100)

def oneBucket : SlotMem Nat Nat where
  liveHead i := decide (i < 1)
  live _ := true
  first _ := .null
  next _ := .null
  pprev _ := .null

/-- In a table of one bucket no key has a bucket, and `hash_add` is undefined. -/
theorem oneBucket_undefined :
    (hashSize 0).toNat = 1 ∧
      ¬ (∃ idx, hashMin (.u32 1) (exactLog2 (hashSize 0)) = some idx ∧
        idx.toNat < (hashSize 0).toNat) ∧
      ¬ (∃ idx, hashMin (.u64 1) (exactLog2 (hashSize 0)) = some idx ∧
        idx.toNat < (hashSize 0).toNat) ∧
      hashAdd exactLog2 (hashSize 0) (.addr 0) (.u32 1) oneBucket = none := by
  have hbits : exactLog2 (hashSize 0) = 0 := by decide
  have hnone : ∀ key, ¬ ∃ idx, hashMin key 0 = some idx ∧ idx.toNat < (hashSize 0).toNat := by
    rintro key ⟨idx, hidx, -⟩
    rw [hashMin_zero] at hidx
    exact absurd hidx (by simp)
  refine ⟨by decide, ?_, ?_, ?_⟩
  · rw [hbits]
    exact hnone _
  · rw [hbits]
    exact hnone _
  · rw [hashAdd, hbits, hashMin_zero]
    rfl

end Hashtable
end Brlib
