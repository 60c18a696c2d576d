import Mathlib.Tactic

/-!
# Rotating a word

A rotation to the left moves the bit at `i` to `(i + r) % w`, one to the right moves the bit
at `(i + r) % w` to `i`.  So they undo each other, and rotations to the left add up.
-/

namespace Brlib
namespace Bits

variable {w i j r s : ℕ} {n m : BitVec w}

theorem exists_add_mod (r : ℕ) (hj : j < w) : ∃ i < w, (i + r) % w = j := by
  have hw : 0 < w := Nat.zero_lt_of_lt hj
  have hr := Nat.mod_lt r hw
  refine ⟨(j + (w - r % w)) % w, Nat.mod_lt _ hw, ?_⟩
  have hsum : j + (w - r % w) + r = j + w * (r / w + 1) := by
    have hdiv := Nat.div_add_mod r w
    rw [Nat.mul_add, Nat.mul_one]
    omega
  rw [Nat.mod_add_mod, hsum, Nat.add_mul_mod_self_left, Nat.mod_eq_of_lt hj]

theorem add_mod_eq (r : ℕ) (hi : i < w) :
    (i + r) % w = if i + r % w < w then i + r % w else i + r % w - w := by
  have hr := Nat.mod_lt r (Nat.zero_lt_of_lt hi)
  rw [← Nat.add_mod_mod]
  split
  · next h => exact Nat.mod_eq_of_lt h
  · next h => rw [Nat.mod_eq_sub_mod (by omega), Nat.mod_eq_of_lt (by omega)]

theorem rotateLeft_zero (n : BitVec w) : n.rotateLeft 0 = n := by
  rw [BitVec.rotateLeft_def, Nat.zero_mod, Nat.sub_zero, BitVec.ushiftRight_eq_zero le_rfl]
  simp

theorem rotateRight_zero (n : BitVec w) : n.rotateRight 0 = n := by
  rw [BitVec.rotateRight_def, Nat.zero_mod, Nat.sub_zero, BitVec.shiftLeft_eq_zero le_rfl]
  simp

theorem getLsbD_rotateLeft_add (hi : i < w) :
    (n.rotateLeft r).getLsbD ((i + r) % w) = n.getLsbD i := by
  have hr := Nat.mod_lt r (Nat.zero_lt_of_lt hi)
  rw [add_mod_eq r hi, BitVec.getLsbD_rotateLeft]
  split
  · next h =>
    rw [Bool.cond_decide, if_neg (by omega), Nat.add_sub_cancel, decide_eq_true h, Bool.true_and]
  · next h =>
    rw [Bool.cond_decide, if_pos (by omega), show w - r % w + (i + r % w - w) = i by omega]

theorem getLsbD_rotateRight_eq (hi : i < w) :
    (n.rotateRight r).getLsbD i = n.getLsbD ((i + r) % w) := by
  have hr := Nat.mod_lt r (Nat.zero_lt_of_lt hi)
  rw [add_mod_eq r hi, BitVec.getLsbD_rotateRight]
  split
  · next h => rw [Bool.cond_decide, if_pos (by omega), Nat.add_comm]
  · next h =>
    rw [Bool.cond_decide, if_neg (by omega), decide_eq_true hi, Bool.true_and,
      show i - (w - r % w) = i + r % w - w by omega]

theorem rotateRight_rotateLeft (n : BitVec w) (r : ℕ) : (n.rotateLeft r).rotateRight r = n := by
  apply BitVec.eq_of_getLsbD_eq
  intro i hi
  rw [getLsbD_rotateRight_eq hi, getLsbD_rotateLeft_add hi]

theorem rotateLeft_rotateLeft (n : BitVec w) (r s : ℕ) :
    (n.rotateLeft r).rotateLeft s = n.rotateLeft (r + s) := by
  apply BitVec.eq_of_getLsbD_eq
  intro j hj
  obtain ⟨i, hi, rfl⟩ := exists_add_mod (r + s) hj
  have hmod : (i + (r + s)) % w = ((i + r) % w + s) % w := by
    rw [Nat.mod_add_mod, Nat.add_assoc]
  rw [getLsbD_rotateLeft_add hi, hmod,
    getLsbD_rotateLeft_add (Nat.mod_lt _ (Nat.zero_lt_of_lt hi)), getLsbD_rotateLeft_add hi]

/-- The second shift of a rotation is never one of the width, for which it has no value in
C; it is zero instead. -/
theorem shiftLeft_or_shiftRight (hw : 0 < w) (n : BitVec w) (r : ℕ) :
    n <<< (r % w) ||| n >>> ((w - r % w) % w) = n.rotateLeft r := by
  rw [BitVec.rotateLeft_def]
  by_cases h : r % w = 0
  · rw [h, Nat.sub_zero, Nat.mod_self, BitVec.ushiftRight_eq_zero le_rfl]
    simp
  · have hleft : (w - r % w) % w = w - r % w := Nat.mod_eq_of_lt (by omega)
    rw [hleft]

theorem shiftRight_or_shiftLeft (hw : 0 < w) (n : BitVec w) (r : ℕ) :
    n >>> (r % w) ||| n <<< ((w - r % w) % w) = n.rotateRight r := by
  rw [BitVec.rotateRight_def]
  by_cases h : r % w = 0
  · rw [h, Nat.sub_zero, Nat.mod_self, BitVec.shiftLeft_eq_zero le_rfl]
    simp
  · have hleft : (w - r % w) % w = w - r % w := Nat.mod_eq_of_lt (by omega)
    rw [hleft]

end Bits
end Brlib
