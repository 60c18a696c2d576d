import Mathlib.Tactic
import Brlib.Bits.Highest
import Brlib.Bits.SetBits

/-!
# Finding a bit by halving

The lowest set bit of a word (`LowSearch`): if the lower half of the bits looked at is clear,
shift the upper half down and count the shift.  The highest set bit (`HighSearch`): if the
upper half is not clear, shift it down and count the shift.  Each step halves the number of
bits to look at, and the shifts counted add up to the position.
-/

namespace Brlib
namespace Bits

variable {w t : ℕ} {n₀ n : BitVec w} {r : BitVec 32}

section Low

theorem Lowest.and_mask_eq_zero {k s : ℕ} {mask : BitVec w} (h : Lowest n k)
    (hmask : mask.toNat = 2 ^ s - 1) : n &&& mask = 0#w ↔ s ≤ k := by
  have hbit (i : ℕ) : mask.getLsbD i = decide (i < s) := by
    rw [← BitVec.testBit_toNat, hmask, Nat.testBit_two_pow_sub_one]
  constructor
  · intro hzero
    by_contra hlt
    have hk : (n &&& mask).getLsbD k = true := by
      rw [BitVec.getLsbD_and, h.set, hbit, decide_eq_true (Nat.lt_of_not_le hlt)]
      rfl
    simp [hzero] at hk
  · intro hle
    apply BitVec.eq_of_getLsbD_eq
    intro i _
    rw [BitVec.getLsbD_and, hbit, BitVec.getLsbD_zero]
    by_cases hi : i < s
    · rw [h.clear i (by omega), Bool.false_and]
    · simp [hi]

theorem Lowest.ushiftRight {k s : ℕ} (h : Lowest n k) (hs : s ≤ k) :
    Lowest (n >>> s) (k - s) where
  set := by
    rw [BitVec.getLsbD_ushiftRight, Nat.add_sub_cancel' hs]
    exact h.set
  clear i hi := by
    rw [BitVec.getLsbD_ushiftRight]
    exact h.clear _ (by omega)

/-- The search for the lowest bit of `n₀`: it is one of the lowest `2 ^ t` bits of `n`, which
was shifted down by `r`. -/
def LowSearch (n₀ n : BitVec w) (r : BitVec 32) (t : ℕ) : Prop :=
  ∃ k < 2 ^ t, Lowest n k ∧ Lowest n₀ (r.toNat + k)

namespace LowSearch

theorem start {k : ℕ} (h : Lowest n k) (hw : w ≤ 2 ^ t) : LowSearch n n 0#32 t :=
  ⟨k, h.lt.trans_le hw, h, by simpa using h⟩

theorem step_clear {mask : BitVec w} {q : BitVec 32} (h : LowSearch n₀ n r (t + 1))
    (hmask : mask.toNat = 2 ^ 2 ^ t - 1) (hq : q.toNat = 2 ^ t) (hw : w < 2 ^ 32)
    (hzero : n &&& mask = 0#w) : LowSearch n₀ (n >>> 2 ^ t) (r + q) t := by
  obtain ⟨k, hk, hn, hn₀⟩ := h
  have hle := (hn.and_mask_eq_zero hmask).mp hzero
  have hlt := hn₀.lt
  have hadd : (r + q).toNat = r.toNat + 2 ^ t := by
    rw [BitVec.toNat_add, hq]
    exact Nat.mod_eq_of_lt (by omega)
  refine ⟨k - 2 ^ t, by rw [pow_succ] at hk; omega, hn.ushiftRight hle, ?_⟩
  rwa [hadd, Nat.add_assoc, Nat.add_sub_cancel' hle]

theorem step_set {mask : BitVec w} (h : LowSearch n₀ n r (t + 1))
    (hmask : mask.toNat = 2 ^ 2 ^ t - 1) (hzero : n &&& mask ≠ 0#w) : LowSearch n₀ n r t := by
  obtain ⟨k, -, hn, hn₀⟩ := h
  rw [Ne, hn.and_mask_eq_zero hmask] at hzero
  exact ⟨k, by omega, hn, hn₀⟩

theorem last (h : LowSearch n₀ n r 0) : Lowest n₀ r.toNat := by
  obtain ⟨k, hk, -, hn₀⟩ := h
  obtain rfl : k = 0 := by omega
  exact hn₀

end LowSearch

end Low

section High

/-- The search for the highest bit of `n₀`: the word `n` has at most `2 ^ t` bits and was
shifted down by `r`, in steps larger than those to come. -/
structure HighSearch (n₀ n : BitVec w) (r : BitVec 32) (t : ℕ) : Prop where
  ne : n ≠ 0#w
  lt : n.toNat < 2 ^ 2 ^ t
  log : n₀.toNat.log2 = r.toNat + n.toNat.log2
  dvd : 2 ^ t ∣ r.toNat

namespace HighSearch

theorem start (hn : n ≠ 0#w) (hw : w ≤ 2 ^ t) : HighSearch n n 0#32 t where
  ne := hn
  lt := n.isLt.trans_le (Nat.pow_le_pow_right (by decide) hw)
  log := by simp
  dvd := by simp

/-- The shift counted is small against the shifts before, so or-ing adds it. -/
theorem toNat_or {q : ℕ} (hr : 2 ^ t ∣ r.toNat) (hq : q < 2 ^ t) :
    r.toNat ||| q = r.toNat + q := by
  obtain ⟨a, ha⟩ := hr
  rw [ha, Nat.two_pow_add_eq_or_of_lt hq]

theorem step {q : BitVec 32} (h : HighSearch n₀ n r (t + 1))
    (hq : q.toNat = if 2 ^ 2 ^ t ≤ n.toNat then 2 ^ t else 0) :
    HighSearch n₀ (n >>> q) (r ||| q) t := by
  have hpos := Nat.two_pow_pos t
  have hq_lt : q.toNat < 2 ^ (t + 1) := by
    rw [pow_succ]
    split at hq <;> omega
  have hor : (r ||| q).toNat = r.toNat + q.toNat := by
    rw [BitVec.toNat_or, toNat_or h.dvd hq_lt]
  have hn := toNat_ne_zero h.ne
  have hshift : (n >>> q).toNat = n.toNat / 2 ^ q.toNat := by
    rw [BitVec.ushiftRight_eq', BitVec.toNat_ushiftRight, Nat.shiftRight_eq_div_pow]
  have hq_le : 2 ^ q.toNat ≤ n.toNat := by
    split at hq
    · rwa [hq]
    · rw [hq]
      omega
  have hlog : (n >>> q).toNat.log2 = n.toNat.log2 - q.toNat := by
    rw [hshift, Nat.log2_eq_log_two, Nat.log2_eq_log_two, Nat.log_div_base_pow]
  have hle : q.toNat ≤ n.toNat.log2 := (Nat.le_log2 hn).mpr hq_le
  constructor
  · intro hzero
    have hdiv : 0 < n.toNat / 2 ^ q.toNat := Nat.div_pos hq_le (Nat.two_pow_pos _)
    rw [← hshift, hzero] at hdiv
    simp at hdiv
  · rw [hshift]
    split at hq
    · rw [hq, Nat.div_lt_iff_lt_mul (Nat.two_pow_pos _), ← pow_add, ← two_mul, ← pow_succ']
      exact h.lt
    · rw [hq, pow_zero, Nat.div_one]
      omega
  · rw [hor, hlog, h.log]
    omega
  · rw [hor]
    apply Nat.dvd_add
    · exact (pow_dvd_pow 2 (Nat.le_succ t)).trans h.dvd
    · split at hq <;> simp [hq]

theorem last (h : HighSearch n₀ n r 1) : r.toNat ||| n.toNat / 2 = n₀.toNat.log2 := by
  have hlt : n.toNat < 4 := h.lt
  rw [toNat_or h.dvd (by omega), h.log, Nat.log2_def]
  split
  · rw [show n.toNat / 2 = 1 by omega]
    rfl
  · omega

end HighSearch

end High

end Bits
end Brlib
