import Mathlib.Tactic

/-!
# The highest set bit of a word

The highest set bit of a word that is not zero is at `Nat.log2` of its value.  Or-ing a word
with itself, shifted down by 1, 2, 4 and so on, sets all bits below the highest one
(`Smeared`).
-/

namespace Brlib
namespace Bits

variable {w d i : ℕ} {n m : BitVec w}

theorem toNat_ne_zero (hn : n ≠ 0#w) : n.toNat ≠ 0 := fun h =>
  hn (BitVec.eq_of_toNat_eq (by simpa using h))

theorem log2_lt_width (hn : n ≠ 0#w) : n.toNat.log2 < w :=
  (Nat.log2_lt (toNat_ne_zero hn)).mpr n.isLt

theorem getLsbD_log2 (hn : n ≠ 0#w) : n.getLsbD n.toNat.log2 = true := by
  rw [← BitVec.testBit_toNat]
  exact Nat.testBit_log2 (toNat_ne_zero hn)

theorem getLsbD_of_log2_lt (hi : n.toNat.log2 < i) : n.getLsbD i = false := by
  rw [← BitVec.testBit_toNat]
  exact Nat.testBit_lt_two_pow (Nat.lt_log2_self.trans_le (Nat.pow_le_pow_right (by decide) hi))

section Smear

/-- A bit of `m` is set if one of the `d` bits of `n` from there on is. -/
def Smeared (n m : BitVec w) (d : ℕ) : Prop :=
  ∀ i, m.getLsbD i = true ↔ ∃ j < d, n.getLsbD (i + j) = true

theorem Smeared.refl (n : BitVec w) : Smeared n n 1 := by
  intro i
  constructor
  · exact fun h => ⟨0, Nat.one_pos, h⟩
  · rintro ⟨j, hj, h⟩
    obtain rfl : j = 0 := by omega
    exact h

/-- One step doubles the number of bits. -/
theorem Smeared.step (h : Smeared n m d) : Smeared n (m ||| m >>> d) (d + d) := by
  intro i
  rw [BitVec.getLsbD_or, BitVec.getLsbD_ushiftRight, Bool.or_eq_true, h i, h (d + i)]
  constructor
  · rintro (⟨j, hj, hbit⟩ | ⟨j, hj, hbit⟩)
    · exact ⟨j, by omega, hbit⟩
    · exact ⟨d + j, by omega, by rwa [← Nat.add_assoc, Nat.add_comm i d]⟩
  · rintro ⟨j, hj, hbit⟩
    by_cases hjd : j < d
    · exact .inl ⟨j, hjd, hbit⟩
    · refine .inr ⟨j - d, by omega, ?_⟩
      rwa [show d + i + (j - d) = i + j by omega]

theorem Smeared.toNat_eq (h : Smeared n m w) (hn : n ≠ 0#w) :
    m.toNat = 2 ^ (n.toNat.log2 + 1) - 1 := by
  refine Nat.eq_of_testBit_eq fun i => ?_
  rw [Nat.testBit_two_pow_sub_one, BitVec.testBit_toNat, Bool.eq_iff_iff, h i, decide_eq_true_eq]
  constructor
  · rintro ⟨j, -, hbit⟩
    by_contra hi
    have hout : n.getLsbD (i + j) = false := getLsbD_of_log2_lt (by omega)
    simp [hbit] at hout
  · intro hi
    have hlt := log2_lt_width hn
    refine ⟨n.toNat.log2 - i, by omega, ?_⟩
    rw [show i + (n.toNat.log2 - i) = n.toNat.log2 by omega]
    exact getLsbD_log2 hn

end Smear

end Bits
end Brlib
