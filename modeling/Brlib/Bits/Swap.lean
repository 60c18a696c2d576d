import Mathlib.Data.Nat.Bitwise
import Mathlib.Tactic

/-!
# Reversing the bytes of a word

A word is reversed by swapping neighbouring bytes, then neighbouring pairs of bytes, and so
on up to its halves.  One swap of blocks of `2 ^ j` bits moves the bit at `i` to `i ^^^ 2 ^ j`
(`getLsbD_swapBlocks`).
-/

namespace Brlib
namespace Bits

variable {w j i : ℕ} {n m k : BitVec w}

/-- The bytes of a word in little-endian order. -/
def bytes (n : BitVec w) : List (BitVec 8) :=
  (List.range (w / 8)).map fun b => n.extractLsb' (8 * b) 8

section Swap

theorem xor_two_pow_of_clear (h : i.testBit j = false) : i ^^^ 2 ^ j = i + 2 ^ j := by
  have hpos := Nat.two_pow_pos j
  have heven : Even (i / 2 ^ j) := by
    rw [Nat.testBit_eq_decide_div_mod_eq, decide_eq_false_iff_not] at h
    exact Nat.even_iff.mpr (by omega)
  have hdiv : (i ^^^ 2 ^ j) / 2 ^ j = i / 2 ^ j + 1 := by
    rw [Nat.xor_div_two_pow, Nat.div_self hpos, Nat.xor_one_of_even heven]
  have hmod : (i ^^^ 2 ^ j) % 2 ^ j = i % 2 ^ j := by
    rw [Nat.xor_mod_two_pow, Nat.mod_self, Nat.xor_zero]
  rw [← Nat.div_add_mod (i ^^^ 2 ^ j) (2 ^ j), hdiv, hmod, Nat.mul_add, Nat.mul_one,
    Nat.add_right_comm, Nat.div_add_mod]

theorem xor_two_pow_of_set (h : i.testBit j = true) : (i ^^^ 2 ^ j) + 2 ^ j = i := by
  have hclear : (i ^^^ 2 ^ j).testBit j = false := by
    rw [Nat.testBit_xor, h, Nat.testBit_two_pow_self, Bool.xor_self]
  rw [← xor_two_pow_of_clear hclear, Nat.xor_assoc, Nat.xor_self, Nat.xor_zero]

theorem xor_two_pow_lt (hw : 2 ^ (j + 1) ∣ w) (hi : i < w) : i ^^^ 2 ^ j < w := by
  obtain ⟨a, rfl⟩ := hw
  have hlt : (i ^^^ 2 ^ j) / 2 ^ (j + 1) < a := by
    rw [Nat.xor_div_two_pow, Nat.div_eq_of_lt (Nat.pow_lt_pow_right (by decide) (by omega)),
      Nat.xor_zero]
    exact Nat.div_lt_of_lt_mul hi
  rw [Nat.div_lt_iff_lt_mul (Nat.two_pow_pos _)] at hlt
  rwa [Nat.mul_comm]

/-- Swapping the blocks of `2 ^ j` bits in pairs; the mask `k` has the lower block of each. -/
theorem getLsbD_swapBlocks (j : ℕ) (hw : 2 ^ (j + 1) ∣ w)
    (hk : ∀ i < w, k.getLsbD i = !i.testBit j) (hi : i < w) :
    (((n >>> 2 ^ j) &&& k) ||| ((n &&& k) <<< 2 ^ j)).getLsbD i = n.getLsbD (i ^^^ 2 ^ j) := by
  rw [BitVec.getLsbD_or, BitVec.getLsbD_and, BitVec.getLsbD_ushiftRight,
    BitVec.getLsbD_shiftLeft, BitVec.getLsbD_and, hk i hi]
  cases hbit : i.testBit j with
  | false =>
    -- the bit comes from the upper block; what is shifted up is masked there
    have hup : decide (i < 2 ^ j) = true ∨ (k.getLsbD (i - 2 ^ j)) = false := by
      by_cases hlt : i < 2 ^ j
      · exact .inl (decide_eq_true hlt)
      · right
        rw [hk _ (by omega), ← Nat.testBit_two_pow_add_eq, Nat.add_sub_cancel' (by omega), hbit]
    rw [xor_two_pow_of_clear hbit, Nat.add_comm]
    rcases hup with h | h <;> simp [h]
  | true =>
    have hge := xor_two_pow_of_set hbit
    have hlow : i - 2 ^ j = i ^^^ 2 ^ j := by omega
    have hclear : (i ^^^ 2 ^ j).testBit j = false := by
      rw [Nat.testBit_xor, hbit, Nat.testBit_two_pow_self, Bool.xor_self]
    rw [hlow, hk _ (xor_two_pow_lt hw hi), hclear]
    simp [hi, show ¬ i < 2 ^ j by omega]

theorem getLsbD_swapHalves (j : ℕ) (hw : w = 2 ^ (j + 1)) (hi : i < w) :
    ((n >>> 2 ^ j) ||| (n <<< 2 ^ j)).getLsbD i = n.getLsbD (i ^^^ 2 ^ j) := by
  rw [BitVec.getLsbD_or, BitVec.getLsbD_ushiftRight, BitVec.getLsbD_shiftLeft]
  by_cases hlt : i < 2 ^ j
  · rw [xor_two_pow_of_clear (Nat.testBit_lt_two_pow hlt), Nat.add_comm]
    simp [hlt]
  · have hset : i.testBit j = true := by
      rw [← Nat.add_sub_cancel' (Nat.le_of_not_lt hlt), Nat.testBit_two_pow_add_eq,
        Nat.testBit_lt_two_pow (by rw [pow_succ] at hw; omega)]
      rfl
    have hge := xor_two_pow_of_set hset
    rw [show i - 2 ^ j = i ^^^ 2 ^ j by omega, BitVec.getLsbD_of_ge n _ (by
      rw [pow_succ] at hw
      omega)]
    simp [hi, hlt]

end Swap

section Bytes

variable {x : ℕ} (hbits : ∀ i < w, m.getLsbD i = n.getLsbD (i ^^^ x))
include hbits

/-- The bits move byte by byte, to the place counted from the other end. -/
theorem bytes_eq_reverse
    (hx : ∀ b < w / 8, ∀ i < 8, (8 * b + i) ^^^ x = 8 * (w / 8 - 1 - b) + i) :
    bytes m = (bytes n).reverse := by
  apply List.ext_getElem
  · simp [bytes]
  · intro b hb hb'
    have hbw : b < w / 8 := by simpa [bytes] using hb
    simp only [bytes, List.getElem_reverse, List.getElem_map, List.getElem_range, List.length_map,
      List.length_range]
    apply BitVec.eq_of_getLsbD_eq
    intro i hi
    rw [BitVec.getLsbD_extractLsb', BitVec.getLsbD_extractLsb', hbits _ (by omega), hx b hbw i hi]

omit hbits in
theorem involutive_of_getLsbD {f : BitVec w → BitVec w}
    (hf : ∀ n, ∀ i < w, (f n).getLsbD i = n.getLsbD (i ^^^ x)) (hx : ∀ i < w, i ^^^ x < w) :
    Function.Involutive f := by
  intro n
  apply BitVec.eq_of_getLsbD_eq
  intro i hi
  rw [hf _ i hi, hf _ _ (hx i hi), Nat.xor_assoc, Nat.xor_self, Nat.xor_zero]

end Bytes

end Bits
end Brlib
