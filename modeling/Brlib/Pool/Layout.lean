import Brlib.Pool.Basic

/-!
# The layout of a block

A block is a header of 16 bytes and `growsize` elements of `eltsize` bytes.  Its size
and the addresses of its elements are computed separately, both modulo `2 ^ 64`.  As
long as the size does not overflow (`NoOverflow`) both are exact: the elements lie in
the block behind the header, and apart from one another.
-/

namespace Brlib
namespace Pool

open Heap Alloc

/-- The size of a block of the pool fits in a `size_t`. -/
def NoOverflow (f : PoolFields) : Prop :=
  16 + f.eltsize.toNat * f.growsize.toNat < 2 ^ 64

instance (f : PoolFields) : Decidable (NoOverflow f) := by
  unfold NoOverflow
  infer_instance

/-- The bytes of the element at `a`. -/
def elem (f : PoolFields) (a : UInt64) : Region :=
  ⟨a.toNat, f.eltsize.toNat⟩

/-- What `malloc` returned for the block at `b`. -/
def blockRegion (f : PoolFields) (b : UInt64) : Region :=
  ⟨b.toNat, (blockSize f).toNat⟩

variable {f : PoolFields} {b : UInt64} {i j : UInt32}

theorem newPool_eltsize (name : List UInt8) (growsize : UInt32) (eltsize : UInt64) :
    (newPool name growsize eltsize).eltsize.toNat = max eltsize.toNat 16 := by
  unfold newPool sizeofListHead
  simp only
  split
  · rename_i hlt
    have hlt' : eltsize.toNat < 16 := UInt64.lt_iff_toNat_lt.mp hlt
    simp only [UInt64.reduceToNat]
    omega
  · rename_i hge
    have hge' : 16 ≤ eltsize.toNat := UInt64.not_lt.mp hge
    omega

theorem newPool_eltsize_ge (name : List UInt8) (growsize : UInt32) (eltsize : UInt64) :
    16 ≤ (newPool name growsize eltsize).eltsize.toNat := by
  rw [newPool_eltsize]
  exact le_max_right _ _

theorem blockSize_toNat (f : PoolFields) :
    (blockSize f).toNat = (16 + f.eltsize.toNat * f.growsize.toNat) % 2 ^ 64 := by
  unfold blockSize sizeofBlock
  rw [UInt64.toNat_add, UInt64.toNat_mul]
  simp

/-- The requested size is exact unless it overflows. -/
theorem blockSize_exact_iff :
    (blockSize f).toNat = 16 + f.eltsize.toNat * f.growsize.toNat ↔ NoOverflow f := by
  rw [blockSize_toNat]
  unfold NoOverflow
  omega

theorem newPool_noOverflow_iff (name : List UInt8) (growsize : UInt32) (eltsize : UInt64) :
    NoOverflow (newPool name growsize eltsize) ↔
      16 + max eltsize.toNat 16 * growsize.toNat < 2 ^ 64 := by
  unfold NoOverflow
  rw [newPool_eltsize]
  rfl

section Exact

variable (hsize : NoOverflow f) (hfits : b.toNat + (blockSize f).toNat ≤ 2 ^ 64)
include hsize hfits

/-- The address of an element is exact. -/
theorem slotAddr_toNat (helt : 0 < f.eltsize.toNat) (hi : i < f.growsize) :
    (slotAddr f b i).toNat = b.toNat + 16 + i.toNat * f.eltsize.toNat := by
  have hi' : i.toNat < f.growsize.toNat := UInt32.lt_iff_toNat_lt.mp hi
  have hmul : (i.toNat + 1) * f.eltsize.toNat ≤ f.growsize.toNat * f.eltsize.toNat :=
    Nat.mul_le_mul_right _ hi'
  have hsucc : (i.toNat + 1) * f.eltsize.toNat = i.toNat * f.eltsize.toNat + f.eltsize.toNat :=
    Nat.succ_mul _ _
  rw [blockSize_exact_iff.mpr hsize, Nat.mul_comm f.eltsize.toNat] at hfits
  unfold slotAddr sizeofBlock
  rw [UInt64.toNat_add, UInt64.toNat_add, UInt64.toNat_mul]
  simp only [UInt64.reduceToNat, UInt32.toNat_toUInt64]
  rw [Nat.mod_eq_of_lt (show b.toNat + 16 < 2 ^ 64 by omega),
    Nat.mod_eq_of_lt (show i.toNat * f.eltsize.toNat < 2 ^ 64 by omega), Nat.mod_eq_of_lt]
  omega

/-- The elements are slots of the data of the block. -/
theorem elem_eq_slot (helt : 0 < f.eltsize.toNat) (hi : i < f.growsize) :
    elem f (slotAddr f b i) = Region.slot (b.toNat + 16) f.eltsize.toNat i.toNat := by
  unfold elem Region.slot
  rw [slotAddr_toNat hsize hfits helt hi]

theorem elem_within_data (helt : 0 < f.eltsize.toNat) (hi : i < f.growsize) :
    (elem f (slotAddr f b i)).Within
      ⟨b.toNat + 16, f.growsize.toNat * f.eltsize.toNat⟩ := by
  rw [elem_eq_slot hsize hfits helt hi]
  exact Region.slot_within (UInt32.lt_iff_toNat_lt.mp hi)

omit hfits in
theorem data_within_block :
    Region.Within ⟨b.toNat + 16, f.growsize.toNat * f.eltsize.toNat⟩ (blockRegion f b) := by
  unfold blockRegion Region.Within
  rw [blockSize_exact_iff.mpr hsize, Nat.mul_comm f.eltsize.toNat]
  simp only
  omega

theorem elem_within_block (helt : 0 < f.eltsize.toNat) (hi : i < f.growsize) :
    (elem f (slotAddr f b i)).Within (blockRegion f b) :=
  (elem_within_data hsize hfits helt hi).trans (data_within_block hsize)

theorem header_disjoint_elem (helt : 0 < f.eltsize.toNat) (hi : i < f.growsize) :
    (cell b).Disjoint (elem f (slotAddr f b i)) := by
  left
  exact (elem_within_data hsize hfits helt hi).1

theorem elem_disjoint_elem (helt : 0 < f.eltsize.toNat) (hi : i < f.growsize)
    (hj : j < f.growsize) (hij : i ≠ j) :
    (elem f (slotAddr f b i)).Disjoint (elem f (slotAddr f b j)) := by
  rw [elem_eq_slot hsize hfits helt hi, elem_eq_slot hsize hfits helt hj]
  exact Region.slot_disjoint fun heq => hij (UInt32.toNat_inj.mp heq)

end Exact

/-- A pool requests the exact size of its blocks, and lays the elements into them
apart from one another, if and only if the size does not overflow. -/
theorem block_layout_iff (name : List UInt8) (growsize : UInt32) (eltsize : UInt64)
    (hf : f.eltsize = (newPool name growsize eltsize).eltsize ∧ f.growsize = growsize)
    (hfits : b.toNat + (blockSize f).toNat ≤ 2 ^ 64) :
    ((blockSize f).toNat = 16 + f.eltsize.toNat * f.growsize.toNat ∧
      (∀ i < f.growsize, (elem f (slotAddr f b i)).Within (blockRegion f b)) ∧
      ∀ i < f.growsize, ∀ j < f.growsize, i ≠ j →
        (elem f (slotAddr f b i)).Disjoint (elem f (slotAddr f b j))) ↔
      16 + max eltsize.toNat 16 * growsize.toNat < 2 ^ 64 := by
  have hno : NoOverflow f ↔ 16 + max eltsize.toNat 16 * growsize.toNat < 2 ^ 64 := by
    rw [← newPool_noOverflow_iff name]
    unfold NoOverflow
    rw [hf.1, hf.2]
    rfl
  have helt : 0 < f.eltsize.toNat := by
    have hge := newPool_eltsize_ge name growsize eltsize
    rw [hf.1]
    omega
  rw [← hno]
  constructor
  · exact fun h => blockSize_exact_iff.mp h.1
  · intro hsize
    refine ⟨blockSize_exact_iff.mpr hsize, fun i hi => ?_, fun i hi j hj hij => ?_⟩
    · exact elem_within_block hsize hfits helt hi
    · exact elem_disjoint_elem hsize hfits helt hi hj hij

/-- A pool of elements of 24 bytes, four in a block. -/
def smallPool : PoolFields := newPool [112] 4 24

theorem block_layout_iff_smallPool :
    ((blockSize smallPool).toNat = 16 + smallPool.eltsize.toNat * smallPool.growsize.toNat ∧
      (∀ i < smallPool.growsize,
        (elem smallPool (slotAddr smallPool 4096 i)).Within (blockRegion smallPool 4096)) ∧
      ∀ i < smallPool.growsize, ∀ j < smallPool.growsize, i ≠ j →
        (elem smallPool (slotAddr smallPool 4096 i)).Disjoint
          (elem smallPool (slotAddr smallPool 4096 j))) ↔
      16 + max (24 : UInt64).toNat 16 * (4 : UInt32).toNat < 2 ^ 64 :=
  block_layout_iff [112] 4 24 ⟨rfl, rfl⟩ (by decide)

/-- A pool of elements of half the address space, two in a block. -/
def hugePool : PoolFields := newPool [112] 2 0x8000000000000000

/-- The huge pool requests blocks of 16 bytes, and no element lies in them. -/
theorem hugePool_layout :
    (blockSize hugePool).toNat = 16 ∧ (4096 : UInt64).toNat + (blockSize hugePool).toNat ≤ 2 ^ 64 ∧
      ¬ ((blockSize hugePool).toNat = 16 + hugePool.eltsize.toNat * hugePool.growsize.toNat ∧
        (∀ i < hugePool.growsize,
          (elem hugePool (slotAddr hugePool 4096 i)).Within (blockRegion hugePool 4096)) ∧
        ∀ i < hugePool.growsize, ∀ j < hugePool.growsize, i ≠ j →
          (elem hugePool (slotAddr hugePool 4096 i)).Disjoint
            (elem hugePool (slotAddr hugePool 4096 j))) ∧
      ¬ (elem hugePool (slotAddr hugePool 4096 0)).Within (blockRegion hugePool 4096) := by
  have hsize : (blockSize hugePool).toNat = 16 := by decide
  have hexact : 16 + hugePool.eltsize.toNat * hugePool.growsize.toNat = 2 ^ 64 + 16 := by decide
  refine ⟨hsize, by decide, fun h => ?_, by decide⟩
  rw [hsize, hexact] at h
  omega

end Pool
end Brlib
