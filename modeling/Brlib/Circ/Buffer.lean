import Brlib.Circ.Arc

/-!
# The macros of `circ_buf.h`

An `int` is a word of 32 bits in two's complement.  The size of the buffer is a power of two of
at most `1 << 30`, and head and tail are cells of it, so no operation overflows.

The cells from the tail on are in use, and those from the head on are free, but for the one in
front of the tail; the `TO_END` macros give the parts of both that need no wrap
(`circ_partition`).  A producer that looks at an old tail, or a consumer that looks at an old
head, gets less than there is.
-/

namespace Brlib
namespace Circ

/-- `CIRC_CNT` -/
def circCnt (head tail size : BitVec 32) : BitVec 32 :=
  (head - tail) &&& (size - 1)

/-- `CIRC_SPACE` -/
def circSpace (head tail size : BitVec 32) : BitVec 32 :=
  circCnt tail (head + 1) size

/-- `CIRC_CNT_TO_END` -/
def circCntToEnd (head tail size : BitVec 32) : BitVec 32 :=
  let end' := size - tail
  let n := (head + end') &&& (size - 1)
  if n.slt end' then n else end'

/-- `CIRC_SPACE_TO_END` -/
def circSpaceToEnd (head tail size : BitVec 32) : BitVec 32 :=
  let end' := size - 1 - head
  let n := (end' + tail) &&& (size - 1)
  if n.sle end' then n else end' + 1

open Finset

/-- A buffer of `2 ^ k` cells, with its head and tail. -/
structure Indices (k : ℕ) (head tail size : BitVec 32) : Prop where
  small : k ≤ 30
  size : size.toNat = 2 ^ k
  head : head.toNat < 2 ^ k
  tail : tail.toNat < 2 ^ k

variable {k : ℕ} {head tail size x y : BitVec 32}

theorem two_pow_le (hk : k ≤ 30) : 2 ^ k ≤ 2 ^ 30 :=
  Nat.pow_le_pow_right (by decide) hk

/-- A mask of the low bits is a remainder. -/
theorem toNat_mask (hk : k ≤ 30) (hsize : size.toNat = 2 ^ k) :
    (x &&& (size - 1)).toNat = x.toNat % 2 ^ k := by
  have hle := two_pow_le hk
  have hpos : 0 < 2 ^ k := Nat.two_pow_pos k
  have hmask : (size - 1).toNat = 2 ^ k - 1 := by
    rw [BitVec.toNat_sub, hsize]
    simp
    omega
  rw [BitVec.toNat_and, hmask, Nat.and_two_pow_sub_one_eq_mod]

theorem sub_mod_word (hk : k ≤ 30) {h t : ℕ} (ht : t ≤ 2 ^ k) :
    (2 ^ 32 - t + h) % 2 ^ k = (2 ^ k - t + h) % 2 ^ k := by
  have hword : 2 ^ 32 = 2 ^ k * 2 ^ (32 - k) := by
    rw [← pow_add]
    congr 1
    omega
  have hone : 1 ≤ 2 ^ (32 - k) := Nat.one_le_two_pow
  have hsplit : 2 ^ 32 - t + h = 2 ^ k - t + h + 2 ^ k * (2 ^ (32 - k) - 1) := by
    rw [hword, Nat.mul_sub, Nat.mul_one]
    have hmul : 2 ^ k ≤ 2 ^ k * 2 ^ (32 - k) := Nat.le_mul_of_pos_right _ hone
    omega
  rw [hsplit, Nat.add_mul_mod_self_left]

theorem toNat_circCnt (hk : k ≤ 30) (hsize : size.toNat = 2 ^ k) (htail : tail.toNat ≤ 2 ^ k) :
    (circCnt head tail size).toNat = (2 ^ k - tail.toNat + head.toNat) % 2 ^ k := by
  have hdvd : 2 ^ k ∣ 2 ^ 32 := Nat.pow_dvd_pow 2 (by omega)
  rw [circCnt, toNat_mask hk hsize, BitVec.toNat_sub, Nat.mod_mod_of_dvd _ hdvd,
    sub_mod_word hk htail]

theorem toInt_small (hx : x.toNat ≤ 2 ^ 30) : x.toInt = x.toNat :=
  BitVec.toInt_eq_toNat_of_lt (by omega)

section Values

variable (hidx : Indices k head tail size)
include hidx

theorem Indices.cnt :
    (circCnt head tail size).toNat = (2 ^ k - tail.toNat + head.toNat) % 2 ^ k :=
  toNat_circCnt hidx.small hidx.size hidx.tail.le

theorem Indices.space :
    (circSpace head tail size).toNat = (2 ^ k - (head.toNat + 1) + tail.toNat) % 2 ^ k := by
  have hle := two_pow_le hidx.small
  have hhead := hidx.head
  have hsucc : (head + 1).toNat = head.toNat + 1 := by
    rw [BitVec.toNat_add]
    exact Nat.mod_eq_of_lt (by simp; omega)
  rw [circSpace, toNat_circCnt hidx.small hidx.size (by omega), hsucc]

theorem Indices.cntToEnd :
    (circCntToEnd head tail size).toNat =
      min (circCnt head tail size).toNat (2 ^ k - tail.toNat) := by
  have hle := two_pow_le hidx.small
  have hhead := hidx.head
  have htail := hidx.tail
  have hend : (size - tail).toNat = 2 ^ k - tail.toNat := by
    rw [BitVec.toNat_sub, hidx.size]
    omega
  have hn : ((head + (size - tail)) &&& (size - 1)).toNat = (circCnt head tail size).toNat := by
    rw [toNat_mask hidx.small hidx.size, BitVec.toNat_add, hend, hidx.cnt]
    congr 1
    omega
  have hcnt : (circCnt head tail size).toNat < 2 ^ k := by
    rw [hidx.cnt]
    exact Nat.mod_lt _ (Nat.two_pow_pos k)
  simp only [circCntToEnd, BitVec.slt, toInt_small (hn.le.trans (by omega)),
    toInt_small (hend.le.trans (by omega)), hn, hend]
  split_ifs with hlt <;> simp only [decide_eq_true_eq, Nat.cast_lt] at hlt <;> omega

theorem Indices.spaceToEnd :
    (circSpaceToEnd head tail size).toNat =
      min (circSpace head tail size).toNat (2 ^ k - head.toNat) := by
  have hle := two_pow_le hidx.small
  have hhead := hidx.head
  have htail := hidx.tail
  have hmask : (size - 1).toNat = 2 ^ k - 1 := by
    rw [BitVec.toNat_sub, hidx.size]
    simp
    omega
  have hend : (size - 1 - head).toNat = 2 ^ k - 1 - head.toNat := by
    rw [BitVec.toNat_sub, hmask]
    omega
  have hend' : (size - 1 - head + 1).toNat = 2 ^ k - head.toNat := by
    rw [BitVec.toNat_add, hend]
    simp
    omega
  have hn : ((size - 1 - head + tail) &&& (size - 1)).toNat = (circSpace head tail size).toNat := by
    rw [toNat_mask hidx.small hidx.size, BitVec.toNat_add, hend, hidx.space]
    congr 1
    omega
  have hspace : (circSpace head tail size).toNat < 2 ^ k := by
    rw [hidx.space]
    exact Nat.mod_lt _ (Nat.two_pow_pos k)
  simp only [circSpaceToEnd, BitVec.sle, toInt_small (hn.le.trans (by omega)),
    toInt_small (hend.le.trans (by omega)), hn, hend]
  split_ifs with hlt <;> simp only [decide_eq_true_eq, Nat.cast_le] at hlt <;> omega

theorem Indices.counts :
    (circCnt head tail size).toNat + (circSpace head tail size).toNat = 2 ^ k - 1 ∧
      (tail.toNat + (circCnt head tail size).toNat) % 2 ^ k = head.toNat := by
  have hpos : 0 < 2 ^ k := Nat.two_pow_pos k
  have hhead := hidx.head
  have htail := hidx.tail
  have hturns {z : ℕ} (hz : z < 2 * 2 ^ k) : z % 2 ^ k = if z < 2 ^ k then z else z - 2 ^ k := by
    split_ifs with hlt
    · exact Nat.mod_eq_of_lt hlt
    · rw [Nat.mod_eq_sub_mod (by omega), Nat.mod_eq_of_lt (by omega)]
  constructor
  · rw [hidx.cnt, hidx.space, hturns (by omega), hturns (by omega)]
    split_ifs <;> omega
  · rw [hidx.cnt, Nat.add_mod_mod, ← Nat.add_assoc, Nat.add_sub_cancel' htail.le,
      Nat.add_mod_left, Nat.mod_eq_of_lt hhead]

/-- The count is the one number of cells that leads from the tail to the head. -/
theorem Indices.cnt_unique {c : ℕ} (hc : c < 2 ^ k) (hcell : (tail.toNat + c) % 2 ^ k = head.toNat) :
    (circCnt head tail size).toNat = c := by
  have hcnt : (circCnt head tail size).toNat < 2 ^ k := by
    rw [hidx.cnt]
    exact Nat.mod_lt _ (Nat.two_pow_pos k)
  have hmod : (circCnt head tail size).toNat ≡ c [MOD 2 ^ k] :=
    Nat.ModEq.add_left_cancel' tail.toNat (hidx.counts.2.trans hcell.symm)
  exact Nat.ModEq.eq_of_lt_of_lt hmod hcnt hc

theorem Indices.advance {i j : BitVec 32} (hi : i.toNat < 2 ^ k) (hj : j.toNat < 2 ^ k) :
    ((i + j) &&& (size - 1)).toNat = (i.toNat + j.toNat) % 2 ^ k := by
  have hle := two_pow_le hidx.small
  rw [toNat_mask hidx.small hidx.size, BitVec.toNat_add, @Nat.mod_eq_of_lt _ (2 ^ 32) (by omega)]

/-- **The cells of a circular buffer.**  Those in use and those that are free are all cells but
the one in front of the tail.  Each part is the run that the `TO_END` macro gives, within the
buffer, and the rest of it from the first cell on. -/
theorem circ_partition :
    (circCnt head tail size).toNat + (circSpace head tail size).toNat = 2 ^ k - 1 ∧
    arc (2 ^ k) tail.toNat (circCnt head tail size).toNat =
      Ico tail.toNat (tail.toNat + (circCntToEnd head tail size).toNat) ∪
        range ((circCnt head tail size).toNat - (circCntToEnd head tail size).toNat) ∧
    arc (2 ^ k) head.toNat (circSpace head tail size).toNat =
      Ico head.toNat (head.toNat + (circSpaceToEnd head tail size).toNat) ∪
        range ((circSpace head tail size).toNat - (circSpaceToEnd head tail size).toNat) ∧
    Disjoint (arc (2 ^ k) tail.toNat (circCnt head tail size).toNat)
      (arc (2 ^ k) head.toNat (circSpace head tail size).toNat) ∧
    arc (2 ^ k) tail.toNat (circCnt head tail size).toNat ∪
        arc (2 ^ k) head.toNat (circSpace head tail size).toNat =
      (range (2 ^ k)).erase ((tail.toNat + (2 ^ k - 1)) % 2 ^ k) := by
  have hpos : 0 < 2 ^ k := Nat.two_pow_pos k
  obtain ⟨hsum, hhead⟩ := hidx.counts
  refine ⟨hsum, ?_, ?_, ?_, ?_⟩
  · rw [hidx.cntToEnd]
    exact arc_eq hidx.tail (by omega)
  · rw [hidx.spaceToEnd]
    exact arc_eq hidx.head (by omega)
  · have hdisj := @disjoint_arc (2 ^ k) tail.toNat (circCnt head tail size).toNat
      (circSpace head tail size).toNat (by omega)
    rwa [hhead] at hdisj
  · have hadd := @arc_add (2 ^ k) tail.toNat (circCnt head tail size).toNat
      (circSpace head tail size).toNat
    rw [hhead, hsum] at hadd
    rw [← hadd, arc_but_last hpos]

end Values

/-- A buffer of eight cells in which those from 6 on are in use, over the end. -/
theorem circ_partition_eight :
    (circCnt 2 6 8).toNat + (circSpace 2 6 8).toNat = 7 ∧
      arc 8 6 4 = Ico 6 8 ∪ range 2 ∧ arc 8 2 3 = Ico 2 5 ∪ range 0 ∧
      Disjoint (arc 8 6 4) (arc 8 2 3) ∧ arc 8 6 4 ∪ arc 8 2 3 = (range 8).erase 5 :=
  @circ_partition 3 2 6 8 ⟨by decide, rfl, by decide, by decide⟩

/-- **Old indices are safe.**  The consumer takes elements, and the producer computes with the
old tail: it gets less space than there is, and so does a consumer that computes with an old
head.  Between them, the counts change by the number of elements. -/
theorem circ_stale (hidx : Indices k head tail size) (j : BitVec 32) :
    (j.toNat ≤ (circCnt head tail size).toNat →
      let tail' := (tail + j) &&& (size - 1)
      Indices k head tail' size ∧
        (circCnt head tail' size).toNat + j.toNat = (circCnt head tail size).toNat ∧
        (circSpace head tail' size).toNat = (circSpace head tail size).toNat + j.toNat ∧
        (circSpaceToEnd head tail size).toNat ≤ (circSpaceToEnd head tail' size).toNat ∧
        arc (2 ^ k) head.toNat (circSpace head tail size).toNat ⊆
          arc (2 ^ k) head.toNat (circSpace head tail' size).toNat) ∧
    (j.toNat ≤ (circSpace head tail size).toNat →
      let head' := (head + j) &&& (size - 1)
      Indices k head' tail size ∧
        (circSpace head' tail size).toNat + j.toNat = (circSpace head tail size).toNat ∧
        (circCnt head' tail size).toNat = (circCnt head tail size).toNat + j.toNat ∧
        (circCntToEnd head tail size).toNat ≤ (circCntToEnd head' tail size).toNat ∧
        arc (2 ^ k) tail.toNat (circCnt head tail size).toNat ⊆
          arc (2 ^ k) tail.toNat (circCnt head' tail size).toNat) := by
  have hpos : 0 < 2 ^ k := Nat.two_pow_pos k
  obtain ⟨hsum, hcell⟩ := hidx.counts
  constructor
  · intro hj tail'
    have htail : tail'.toNat = (tail.toNat + j.toNat) % 2 ^ k :=
      hidx.advance hidx.tail (by omega)
    have hidx' : Indices k head tail' size :=
      ⟨hidx.small, hidx.size, hidx.head, htail ▸ Nat.mod_lt _ hpos⟩
    have hcnt : (circCnt head tail' size).toNat = (circCnt head tail size).toNat - j.toNat := by
      refine hidx'.cnt_unique (by omega) ?_
      rw [htail, Nat.mod_add_mod, Nat.add_assoc, Nat.add_sub_cancel' hj, hcell]
    have hspace : (circSpace head tail' size).toNat =
        (circSpace head tail size).toNat + j.toNat := by
      have hsum' := hidx'.counts.1
      omega
    refine ⟨hidx', by omega, hspace, ?_, arc_mono (by omega)⟩
    rw [hidx.spaceToEnd, hidx'.spaceToEnd]
    omega
  · intro hj head'
    have hhead : head'.toNat = (head.toNat + j.toNat) % 2 ^ k :=
      hidx.advance hidx.head (by omega)
    have hidx' : Indices k head' tail size :=
      ⟨hidx.small, hidx.size, hhead ▸ Nat.mod_lt _ hpos, hidx.tail⟩
    have hcnt : (circCnt head' tail size).toNat = (circCnt head tail size).toNat + j.toNat := by
      refine hidx'.cnt_unique (by omega) ?_
      rw [hhead, ← Nat.add_assoc, ← Nat.mod_add_mod, hcell]
    have hspace : (circSpace head' tail size).toNat + j.toNat =
        (circSpace head tail size).toNat := by
      have hsum' := hidx'.counts.1
      omega
    refine ⟨hidx', hspace, hcnt, ?_, arc_mono (by omega)⟩
    rw [hidx.cntToEnd, hidx'.cntToEnd]
    omega

/-- The consumer takes three of the four elements. -/
theorem circ_stale_eight :
    Indices 3 2 1 8 ∧ (circCnt 2 1 8).toNat + 3 = 4 ∧ (circSpace 2 1 8).toNat = 3 + 3 ∧
      (circSpaceToEnd 2 6 8).toNat ≤ (circSpaceToEnd 2 1 8).toNat ∧ arc 8 2 3 ⊆ arc 8 2 6 :=
  (@circ_stale 3 2 6 8 ⟨by decide, rfl, by decide, by decide⟩ 3).1 (by decide)

end Circ
end Brlib
