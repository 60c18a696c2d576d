import Mathlib.Tactic

/-!
# The set bits of a word

`setBits` lists the positions of the bits that are set, the lowest one first.  The number of
set bits, of trailing zeros, and the position of the first set bit are read off the list.

Subtracting one from a word changes its bits up to the lowest one that is set, and no other
(`Lowest.getLsbD_sub_one`).  This is what the usual tricks rest on: to clear the lowest set
bit, to isolate it, and to set all bits up to it.
-/

namespace Brlib
namespace Bits

variable {w : ℕ}

/-- The positions of the set bits, in increasing order. -/
def setBits (n : BitVec w) : List ℕ :=
  (List.range w).filter fun i => n.getLsbD i

/-- The number of set bits. -/
def popcount (n : BitVec w) : ℕ :=
  (setBits n).length

/-- The position of the lowest set bit; the width, if there is none. -/
def trailingZeros (n : BitVec w) : ℕ :=
  (setBits n).headD w

/-- One plus the position of the lowest set bit; zero, if there is none. -/
def findFirstSet (n : BitVec w) : ℕ :=
  match setBits n with
  | [] => 0
  | k :: _ => k + 1

/-- One plus the position of the lowest clear bit; zero, if all bits are set. -/
def findFirstClear (n : BitVec w) : ℕ :=
  match (List.range w).filter fun i => !n.getLsbD i with
  | [] => 0
  | k :: _ => k + 1

/-- The lowest set bit is at `k`. -/
structure Lowest (n : BitVec w) (k : ℕ) : Prop where
  set : n.getLsbD k = true
  clear : ∀ i < k, n.getLsbD i = false

variable {n m : BitVec w} {k i : ℕ} {R : List ℕ}

theorem mem_setBits : k ∈ setBits n ↔ n.getLsbD k = true := by
  unfold setBits
  rw [List.mem_filter, List.mem_range]
  constructor
  · exact fun h => h.2
  · exact fun h => ⟨BitVec.lt_of_getLsbD h, h⟩

theorem setBits_sorted (n : BitVec w) : (setBits n).Pairwise (· < ·) :=
  List.pairwise_lt_range.filter _

theorem setBits_eq_nil : setBits n = [] ↔ n = 0#w := by
  constructor
  · intro h
    refine BitVec.eq_of_getLsbD_eq fun i _ => ?_
    rw [BitVec.getLsbD_zero, Bool.eq_false_iff]
    intro hi
    have hmem := mem_setBits.mpr hi
    simp [h] at hmem
  · rintro rfl
    simp [setBits]

/-- The list of the set bits is the only one in increasing order. -/
theorem setBits_eq {L : List ℕ} (hsorted : L.Pairwise (· < ·))
    (hmem : ∀ i, i ∈ L ↔ n.getLsbD i = true) : setBits n = L :=
  (setBits_sorted n).eq_of_mem_iff hsorted fun i => mem_setBits.trans (hmem i).symm

theorem exists_setBits (hn : n ≠ 0#w) : ∃ k R, setBits n = k :: R :=
  List.exists_cons_of_ne_nil fun h => hn (setBits_eq_nil.mp h)

theorem ne_zero_of_setBits (h : setBits n = k :: R) : n ≠ 0#w := fun h0 => by
  simp [setBits_eq_nil.mpr h0] at h

theorem lowest_of_setBits (h : setBits n = k :: R) : Lowest n k where
  set := mem_setBits.mp (by simp [h])
  clear i hi := by
    rw [Bool.eq_false_iff]
    intro hset
    have hmem := mem_setBits.mpr hset
    have hsorted := setBits_sorted n
    rw [h] at hmem hsorted
    rcases List.mem_cons.mp hmem with rfl | hmem
    · exact lt_irrefl _ hi
    · exact absurd ((List.pairwise_cons.mp hsorted).1 i hmem) (by omega)

/-- The first clear bit is the first set bit of the complement. -/
theorem findFirstSet_not (n : BitVec w) : findFirstSet (~~~n) = findFirstClear n := by
  have hbits : setBits (~~~n) = (List.range w).filter fun i => !n.getLsbD i := by
    apply List.filter_congr
    intro i hi
    rw [BitVec.getLsbD_not, decide_eq_true (List.mem_range.mp hi), Bool.true_and]
  rw [findFirstSet, findFirstClear, hbits]

theorem getLsbD_one_shiftLeft (hi : i < w) : (1#w <<< k).getLsbD i = decide (i = k) := by
  rw [BitVec.getLsbD_shiftLeft, BitVec.getLsbD_one]
  rcases Nat.lt_trichotomy i k with hik | rfl | hik
  · simp [hik, hik.ne]
  · simp [hi, Nat.zero_lt_of_lt hi]
  · simp [hi, hik.ne', show ¬ i < k by omega, show i - k ≠ 0 by omega]

theorem setBits_erase (h : setBits n = k :: R)
    (hm : ∀ i < w, m.getLsbD i = (n.getLsbD i && decide (i ≠ k))) : setBits m = R := by
  have hfilter : setBits m = (setBits n).filter fun i => decide (i ≠ k) := by
    unfold setBits
    rw [List.filter_filter]
    refine List.filter_congr fun i hi => ?_
    rw [hm i (List.mem_range.mp hi), Bool.and_comm]
  have hsorted := setBits_sorted n
  rw [h] at hfilter hsorted
  rw [hfilter, List.filter_cons_of_neg (by simp), List.filter_eq_self]
  intro i hi
  have hlt := (List.pairwise_cons.mp hsorted).1 i hi
  simp
  omega

namespace Lowest

theorem lt (h : Lowest n k) : k < w :=
  BitVec.lt_of_getLsbD h.set

theorem unique {k' : ℕ} (h : Lowest n k) (h' : Lowest n k') : k = k' := by
  rcases Nat.lt_trichotomy k k' with hlt | heq | hlt
  · exact absurd (h.set.symm.trans (h'.clear k hlt)) (by decide)
  · exact heq
  · exact absurd (h'.set.symm.trans (h.clear k' hlt)) (by decide)

theorem exists_toNat (h : Lowest n k) : ∃ q, n.toNat = 2 ^ (k + 1) * q + 2 ^ k := by
  refine ⟨n.toNat / 2 ^ (k + 1), ?_⟩
  have hmod : n.toNat % 2 ^ (k + 1) = 2 ^ k := by
    refine Nat.eq_of_testBit_eq fun i => ?_
    rw [Nat.testBit_mod_two_pow, Nat.testBit_two_pow, BitVec.testBit_toNat]
    rcases Nat.lt_trichotomy i k with hi | rfl | hi
    · simp [h.clear i hi, show k ≠ i by omega]
    · simp [h.set]
    · simp [show ¬ i < k + 1 by omega, show k ≠ i by omega]
  rw [← hmod, Nat.div_add_mod]

theorem dvd_iff (h : Lowest n k) : 2 ^ k ∣ n.toNat ∧ ¬ 2 ^ (k + 1) ∣ n.toNat := by
  obtain ⟨q, hq⟩ := h.exists_toNat
  constructor
  · rw [hq, pow_succ]
    exact ⟨2 * q + 1, by ring⟩
  · intro hdvd
    rw [hq, Nat.dvd_add_right ⟨q, rfl⟩] at hdvd
    exact absurd (Nat.le_of_dvd (Nat.two_pow_pos k) hdvd)
      (Nat.not_le.mpr (Nat.pow_lt_pow_right (by decide) (Nat.lt_succ_self k)))

/-- Subtracting one sets the bits below the lowest set bit and clears it. -/
theorem getLsbD_sub_one (h : Lowest n k) (hi : i < w) :
    (n - 1#w).getLsbD i = if i < k then true else n.getLsbD i && decide (i ≠ k) := by
  obtain ⟨q, hq⟩ := h.exists_toNat
  have hpos := Nat.two_pow_pos k
  have hw : 0 < w := Nat.zero_lt_of_lt hi
  have hone : 1#w ≤ n := by
    rw [BitVec.le_def, BitVec.toNat_ofNat, Nat.mod_eq_of_lt (Nat.one_lt_two_pow hw.ne')]
    omega
  have hsub : (n - 1#w).toNat = 2 ^ (k + 1) * q + (2 ^ k - 1) := by
    rw [BitVec.toNat_sub_of_le hone, BitVec.toNat_ofNat,
      Nat.mod_eq_of_lt (Nat.one_lt_two_pow hw.ne'), hq]
    omega
  have hlt : 2 ^ k < 2 ^ (k + 1) := Nat.pow_lt_pow_right (by decide) (Nat.lt_succ_self k)
  rw [← BitVec.testBit_toNat, ← BitVec.testBit_toNat, hsub, hq,
    Nat.testBit_two_pow_mul_add _ (by omega), Nat.testBit_two_pow_mul_add _ hlt,
    Nat.testBit_two_pow_sub_one, Nat.testBit_two_pow]
  rcases Nat.lt_trichotomy i k with hik | rfl | hik
  · simp [hik, show i < k + 1 by omega]
  · simp
  · simp [show ¬ i < k by omega, show ¬ i < k + 1 by omega, show i ≠ k by omega]

end Lowest

section Tricks

variable (h : setBits n = k :: R)
include h

theorem trailingZeros_of_setBits : trailingZeros n = k := by
  rw [trailingZeros, h, List.headD_cons]

theorem findFirstSet_of_setBits : findFirstSet n = k + 1 := by
  rw [findFirstSet, h]

/-- `n & (n - 1)` clears the lowest set bit. -/
theorem setBits_and_sub_one : setBits (n &&& (n - 1#w)) = R := by
  have hlowest := lowest_of_setBits h
  refine setBits_erase h fun i hi => ?_
  rw [BitVec.getLsbD_and, hlowest.getLsbD_sub_one hi]
  by_cases hik : i < k
  · simp [hlowest.clear i hik]
  · rw [if_neg hik, ← Bool.and_assoc, Bool.and_self]

/-- `n ^ (1 << k)` clears the bit `k`, if it is set. -/
theorem setBits_xor_shiftLeft : setBits (n ^^^ 1#w <<< k) = R := by
  have hlowest := lowest_of_setBits h
  refine setBits_erase h fun i hi => ?_
  rw [BitVec.getLsbD_xor, getLsbD_one_shiftLeft hi]
  by_cases hik : i = k
  · simp [hik, hlowest.set]
  · simp [hik]

/-- `n & -n` is the lowest set bit alone. -/
theorem setBits_and_neg : setBits (n &&& -n) = [k] := by
  have hlowest := lowest_of_setBits h
  have hneg : -n = ~~~(n - 1#w) := by rw [← BitVec.not_neg, BitVec.not_not]
  refine setBits_eq (List.pairwise_singleton _ k) fun i => ?_
  rw [List.mem_singleton, hneg, BitVec.getLsbD_and]
  constructor
  · rintro rfl
    rw [hlowest.set, BitVec.getLsbD_not, hlowest.getLsbD_sub_one hlowest.lt]
    simp [hlowest.lt]
  · intro hi
    obtain ⟨hn, hnot⟩ := Bool.and_eq_true_iff.mp hi
    have hiw := BitVec.lt_of_getLsbD hn
    by_contra hik
    rw [BitVec.getLsbD_not, hlowest.getLsbD_sub_one hiw] at hnot
    by_cases hlt : i < k
    · simp [hlowest.clear i hlt] at hn
    · simp [hlt, hn, hik] at hnot

/-- `n ^ ~-n` has all bits up to the lowest set bit. -/
theorem setBits_xor_not_neg : setBits (n ^^^ ~~~(-n)) = List.range (k + 1) := by
  have hlowest := lowest_of_setBits h
  refine setBits_eq List.pairwise_lt_range fun i => ?_
  rw [List.mem_range, BitVec.not_neg, BitVec.getLsbD_xor]
  by_cases hiw : i < w
  · rw [hlowest.getLsbD_sub_one hiw]
    rcases Nat.lt_trichotomy i k with hik | rfl | hik
    · simp [hik, hlowest.clear i hik, show i < k + 1 by omega]
    · simp [hlowest.set]
    · simp [show ¬ i < k by omega, show ¬ i < k + 1 by omega, hik.ne']
  · have hkw := hlowest.lt
    rw [BitVec.getLsbD_of_ge n i (by omega), BitVec.getLsbD_of_ge _ i (by omega)]
    simp
    omega

end Tricks

end Bits
end Brlib
