import Brlib.Bits.Rotate
import Brlib.Bits.TopBits

/-!
# Steps that lose nothing

A rotation, a multiplication by an odd number and the exclusive or of a word with itself
shifted down are injective, and so is everything that is made of them.
-/

namespace Brlib
namespace Bits

variable {w r : ℕ} {n m p : BitVec w}

theorem rotateLeft_injective (r : ℕ) : Function.Injective fun n : BitVec w => n.rotateLeft r :=
  Function.LeftInverse.injective (g := fun n => n.rotateRight r)
    fun n => rotateRight_rotateLeft n r

theorem mul_odd_injective (hodd : Odd p.toNat) : Function.Injective fun n : BitVec w => n * p := by
  intro n m heq
  have hnat := congrArg BitVec.toNat heq
  simp only [BitVec.toNat_mul] at hnat
  exact BitVec.eq_of_toNat_eq
    (mul_mod_injOn w hodd (by simpa using n.isLt) (by simpa using m.isLt) hnat)

/-- The bits come back from the highest one down. -/
theorem xor_ushiftRight_injective (hr : 0 < r) :
    Function.Injective fun n : BitVec w => n ^^^ n >>> r := by
  intro n m heq
  have hbits : ∀ d i, w ≤ i + d → n.getLsbD i = m.getLsbD i := by
    intro d
    induction d with
    | zero => exact fun i hi => by rw [BitVec.getLsbD_of_ge n i hi, BitVec.getLsbD_of_ge m i hi]
    | succ d ih =>
        intro i hi
        have hbit := congrArg (fun x : BitVec w => x.getLsbD i) heq
        simp only [BitVec.getLsbD_xor, BitVec.getLsbD_ushiftRight] at hbit
        rwa [ih (r + i) (by omega), Bool.xor_left_inj] at hbit
  exact BitVec.eq_of_getLsbD_eq fun i _ => hbits w i (by omega)

end Bits
end Brlib
