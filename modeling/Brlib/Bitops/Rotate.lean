import Mathlib.Tactic
import Brlib.Bits.Rotate

/-!
# The rotations of `bitops.h`

The macros have the same text at every width, and mask their two shifts so that neither is
of the width or more.  An operand of 8 or 16 bits is promoted to `int`, so what is shifted
out at the top is not lost; the values here are never negative, and one of `2 ^ 31` or more
has no value as an `int`.
-/

namespace Brlib
namespace Bitops

open Bits

section Macros

/-- `num << s` of an `int` that is not negative. -/
def intShiftLeft (num s : ℕ) : Option ℕ :=
  if num <<< s < 2 ^ 31 then some (num <<< s) else none

/-- `((num << (n & mask)) | (num >> ((-n) & mask)))` of an `int` -/
def rolInt (mask : BitVec 32) (num : ℕ) (n : BitVec 32) : Option ℕ := do
  let high ← intShiftLeft num (n &&& mask).toNat
  some (high ||| num >>> (-n &&& mask).toNat)

/-- `((num >> (n & mask)) | (num << ((-n) & mask)))` of an `int` -/
def rorInt (mask : BitVec 32) (num : ℕ) (n : BitVec 32) : Option ℕ := do
  let high ← intShiftLeft num (-n &&& mask).toNat
  some (num >>> (n &&& mask).toNat ||| high)

/-- `((num << (n & mask)) | (num >> ((-n) & mask)))` of an unsigned word -/
def rolWord {w : ℕ} (mask : BitVec 32) (num : BitVec w) (n : BitVec 32) : BitVec w :=
  num <<< (n &&& mask) ||| num >>> (-n &&& mask)

/-- `((num >> (n & mask)) | (num << ((-n) & mask)))` of an unsigned word -/
def rorWord {w : ℕ} (mask : BitVec 32) (num : BitVec w) (n : BitVec 32) : BitVec w :=
  num >>> (n &&& mask) ||| num <<< (-n &&& mask)

/-- `rol8` -/
def rol8 : ℕ → BitVec 32 → Option ℕ :=
  rolInt 7#32

/-- `rol16` -/
def rol16 : ℕ → BitVec 32 → Option ℕ :=
  rolInt 15#32

/-- `rol32` -/
def rol32 : BitVec 32 → BitVec 32 → BitVec 32 :=
  rolWord 31#32

/-- `rol64` -/
def rol64 : BitVec 64 → BitVec 32 → BitVec 64 :=
  rolWord 63#32

/-- `ror8` -/
def ror8 : ℕ → BitVec 32 → Option ℕ :=
  rorInt 7#32

/-- `ror16` -/
def ror16 : ℕ → BitVec 32 → Option ℕ :=
  rorInt 15#32

/-- `ror32` -/
def ror32 : BitVec 32 → BitVec 32 → BitVec 32 :=
  rorWord 31#32

/-- `ror64` -/
def ror64 : BitVec 64 → BitVec 32 → BitVec 64 :=
  rorWord 63#32

end Macros

section Masks

variable {t : ℕ} {mask : BitVec 32}

/-- The first shift, for a width of `2 ^ t` bits. -/
theorem toNat_and_mask (hmask : mask.toNat = 2 ^ t - 1) (n : BitVec 32) :
    (n &&& mask).toNat = n.toNat % 2 ^ t := by
  rw [BitVec.toNat_and, hmask, Nat.and_two_pow_sub_one_eq_mod]

/-- The second shift, for a width of `2 ^ t` bits: the negation wraps at a multiple of it. -/
theorem toNat_neg_and_mask (hmask : mask.toNat = 2 ^ t - 1) (ht : t ≤ 32) (n : BitVec 32) :
    (-n &&& mask).toNat = (2 ^ t - n.toNat % 2 ^ t) % 2 ^ t := by
  have hpos := Nat.two_pow_pos t
  have hn := Nat.div_add_mod n.toNat (2 ^ t)
  obtain ⟨K, hK⟩ : 2 ^ t ∣ 2 ^ 32 := Nat.pow_dvd_pow 2 ht
  have hq : n.toNat / 2 ^ t < K := Nat.div_lt_of_lt_mul (hK ▸ n.isLt)
  obtain ⟨d, hd⟩ := Nat.exists_eq_add_of_le (Nat.succ_le_of_lt hq)
  have hsplit : 2 ^ 32 - n.toNat = 2 ^ t - n.toNat % 2 ^ t + 2 ^ t * d := by
    have hmul : 2 ^ t * K = 2 ^ t * (n.toNat / 2 ^ t) + 2 ^ t + 2 ^ t * d := by
      rw [hd, Nat.succ_eq_add_one]
      ring
    rw [hK]
    omega
  rw [toNat_and_mask hmask, BitVec.toNat_neg, Nat.mod_mod_of_dvd _ ⟨K, hK⟩, hsplit,
    Nat.add_mul_mod_self_left]

end Masks

/-- What the rotations of a width are to be: a group action.  `val` is the value of a word
in the macros, after its promotion. -/
structure RotationLaws {w : ℕ} {V : Type} (val : BitVec w → V)
    (rol ror : V → BitVec 32 → Option V) (num : BitVec w) (a b : BitVec 32) : Prop where
  rol_eq : rol (val num) a = some (val (num.rotateLeft (a.toNat % w)))
  ror_eq : ror (val num) a = some (val (num.rotateRight (a.toNat % w)))
  ror_rol : (rol (val num) a).bind (fun x => ror x a) = some (val num)
  rol_rol : (rol (val num) a).bind (fun x => rol x b) = rol (val num) (a + b)

section Words

variable {t : ℕ} {mask : BitVec 32}

theorem rolWord_eq (hmask : mask.toNat = 2 ^ t - 1) (ht : t ≤ 32) (num : BitVec (2 ^ t))
    (n : BitVec 32) : rolWord mask num n = num.rotateLeft n.toNat := by
  rw [rolWord, BitVec.shiftLeft_eq', BitVec.ushiftRight_eq', toNat_and_mask hmask,
    toNat_neg_and_mask hmask ht, shiftLeft_or_shiftRight (Nat.two_pow_pos t)]

theorem rorWord_eq (hmask : mask.toNat = 2 ^ t - 1) (ht : t ≤ 32) (num : BitVec (2 ^ t))
    (n : BitVec 32) : rorWord mask num n = num.rotateRight n.toNat := by
  rw [rorWord, BitVec.shiftLeft_eq', BitVec.ushiftRight_eq', toNat_and_mask hmask,
    toNat_neg_and_mask hmask ht, shiftRight_or_shiftLeft (Nat.two_pow_pos t)]

/-- Unsigned words lose what is shifted out, so the laws hold. -/
theorem rotationLaws_word (hmask : mask.toNat = 2 ^ t - 1) (ht : t ≤ 32) (num : BitVec (2 ^ t))
    (a b : BitVec 32) :
    RotationLaws id (fun x n => some (rolWord mask x n)) (fun x n => some (rorWord mask x n))
      num a b where
  rol_eq := by
    rw [rolWord_eq hmask ht, BitVec.rotateLeft_mod_eq_rotateLeft]
    rfl
  ror_eq := by
    rw [rorWord_eq hmask ht, BitVec.rotateRight_mod_eq_rotateRight]
    rfl
  ror_rol := by
    show some (rorWord mask (rolWord mask num a) a) = some num
    rw [rorWord_eq hmask ht, rolWord_eq hmask ht, rotateRight_rotateLeft]
  rol_rol := by
    -- the sum of the counts wraps at a multiple of the width
    have hwrap : num.rotateLeft (a + b).toNat = num.rotateLeft (a.toNat + b.toNat) := by
      rw [← BitVec.rotateLeft_mod_eq_rotateLeft, BitVec.toNat_add,
        Nat.mod_mod_of_dvd _ (Nat.pow_dvd_pow 2 ht), BitVec.rotateLeft_mod_eq_rotateLeft]
    show some (rolWord mask (rolWord mask num a) b) = some (rolWord mask num (a + b))
    rw [rolWord_eq hmask ht, rolWord_eq hmask ht, rolWord_eq hmask ht, rotateLeft_rotateLeft,
      hwrap]

end Words

section Ints

variable {t num v : ℕ} {mask n : BitVec 32}

theorem rolInt_eq (hmask : mask.toNat = 2 ^ t - 1) (ht : t ≤ 32) (num : ℕ) (n : BitVec 32) :
    rolInt mask num n = (intShiftLeft num (n.toNat % 2 ^ t)).map
      fun high => high ||| num >>> ((2 ^ t - n.toNat % 2 ^ t) % 2 ^ t) := by
  rw [rolInt, toNat_and_mask hmask, toNat_neg_and_mask hmask ht]
  cases intShiftLeft num (n.toNat % 2 ^ t) <;> rfl

theorem rorInt_eq (hmask : mask.toNat = 2 ^ t - 1) (ht : t ≤ 32) (num : ℕ) (n : BitVec 32) :
    rorInt mask num n = (intShiftLeft num ((2 ^ t - n.toNat % 2 ^ t) % 2 ^ t)).map
      fun high => num >>> (n.toNat % 2 ^ t) ||| high := by
  rw [rorInt, toNat_neg_and_mask hmask ht, toNat_and_mask hmask]
  cases intShiftLeft num ((2 ^ t - n.toNat % 2 ^ t) % 2 ^ t) <;> rfl

theorem eq_shiftLeft_of_intShiftLeft {s : ℕ} (h : intShiftLeft num s = some v) :
    v = num * 2 ^ s := by
  unfold intShiftLeft at h
  split at h
  · rw [← Option.some_inj.mp h, Nat.shiftLeft_eq]
  · exact absurd h.symm (Option.some_ne_none v)

theorem shiftLeft_le_of_rolInt (hmask : mask.toNat = 2 ^ t - 1) (ht : t ≤ 32)
    (h : rolInt mask num n = some v) : num * 2 ^ (n.toNat % 2 ^ t) ≤ v := by
  rw [rolInt_eq hmask ht, Option.map_eq_some_iff] at h
  obtain ⟨high, hhigh, rfl⟩ := h
  rw [← eq_shiftLeft_of_intShiftLeft hhigh]
  exact Nat.left_le_or

theorem shiftLeft_le_of_rorInt (hmask : mask.toNat = 2 ^ t - 1) (ht : t ≤ 32)
    (h : rorInt mask num n = some v) :
    num * 2 ^ ((2 ^ t - n.toNat % 2 ^ t) % 2 ^ t) ≤ v := by
  rw [rorInt_eq hmask ht, Option.map_eq_some_iff] at h
  obtain ⟨high, hhigh, rfl⟩ := h
  rw [← eq_shiftLeft_of_intShiftLeft hhigh]
  exact Nat.right_le_or

/-- A rotation there and back shifts the operand up by the width, unless it does not shift. -/
theorem eq_zero_of_rorInt_rolInt (hmask : mask.toNat = 2 ^ t - 1) (ht : t ≤ 32)
    (h : (rolInt mask num n).bind (fun x => rorInt mask x n) = some num) :
    num = 0 ∨ n.toNat % 2 ^ t = 0 := by
  rw [or_iff_not_imp_right]
  intro hs
  have hlt := Nat.mod_lt n.toNat (Nat.two_pow_pos t)
  obtain ⟨v, hrol, hror⟩ := Option.bind_eq_some_iff.mp h
  have hup := shiftLeft_le_of_rolInt hmask ht hrol
  have hback := shiftLeft_le_of_rorInt hmask ht hror
  rw [Nat.mod_eq_of_lt (by omega : 2 ^ t - n.toNat % 2 ^ t < 2 ^ t)] at hback
  have hle : num * 2 ^ 2 ^ t ≤ num :=
    calc num * 2 ^ 2 ^ t
        = num * 2 ^ (n.toNat % 2 ^ t) * 2 ^ (2 ^ t - n.toNat % 2 ^ t) := by
          rw [Nat.mul_assoc, ← pow_add, Nat.add_sub_cancel' hlt.le]
      _ ≤ v * 2 ^ (2 ^ t - n.toNat % 2 ^ t) := Nat.mul_le_mul_right _ hup
      _ ≤ num := hback
  have hone : 1 < 2 ^ 2 ^ t := Nat.one_lt_two_pow (Nat.two_pow_pos t).ne'
  by_contra hnum
  exact absurd hle (Nat.not_le.mpr (lt_mul_of_one_lt_right (Nat.pos_of_ne_zero hnum) hone))

theorem rotInt_of_mod_eq_zero (hmask : mask.toNat = 2 ^ t - 1) (ht : t ≤ 32)
    (hs : n.toNat % 2 ^ t = 0) (hnum : num < 2 ^ 31) :
    rolInt mask num n = some num ∧ rorInt mask num n = some num := by
  have hshift : intShiftLeft num 0 = some num := by
    rw [intShiftLeft, Nat.shiftLeft_zero, if_pos hnum]
  rw [rolInt_eq hmask ht, rorInt_eq hmask ht, hs, Nat.sub_zero, Nat.mod_self, hshift]
  simp

theorem rotInt_zero (mask n : BitVec 32) :
    rolInt mask 0 n = some 0 ∧ rorInt mask 0 n = some 0 := by
  have hshift (s : ℕ) : intShiftLeft 0 s = some 0 := by
    rw [intShiftLeft, Nat.zero_shiftLeft, if_pos (by decide)]
  simp [rolInt, rorInt, hshift]

/-- An `int` does not lose what is shifted out, so the laws hold just where nothing is. -/
theorem rotationLaws_int_iff (hmask : mask.toNat = 2 ^ t - 1) (ht : t ≤ 4)
    (num : BitVec (2 ^ t)) (a b : BitVec 32) :
    RotationLaws BitVec.toNat (rolInt mask) (rorInt mask) num a b ↔
      num = 0#(2 ^ t) ∨ a.toNat % 2 ^ t = 0 := by
  have ht' : t ≤ 32 := by omega
  constructor
  · intro h
    have hzero := eq_zero_of_rorInt_rolInt hmask ht' h.ror_rol
    exact hzero.imp_left fun hnum => BitVec.eq_of_toNat_eq (by simpa using hnum)
  · rintro (rfl | hs)
    · have hl (n : BitVec 32) := (rotInt_zero mask n).1
      have hr (n : BitVec 32) := (rotInt_zero mask n).2
      constructor <;> simp [hl, hr, BitVec.rotateLeft_def, BitVec.rotateRight_def]
    · have hlt : num.toNat < 2 ^ 31 :=
        num.isLt.trans_le (Nat.pow_le_pow_right (by decide)
          ((Nat.pow_le_pow_right (by decide) ht).trans (by decide)))
      obtain ⟨hl, hr⟩ := rotInt_of_mod_eq_zero hmask ht' hs hlt
      have hsum : (a + b).toNat % 2 ^ t = b.toNat % 2 ^ t := by
        rw [BitVec.toNat_add, Nat.mod_mod_of_dvd _ (Nat.pow_dvd_pow 2 ht'), Nat.add_mod, hs,
          Nat.zero_add, Nat.mod_mod]
      constructor
      · rw [hl, hs, rotateLeft_zero]
      · rw [hr, hs, rotateRight_zero]
      · rw [hl, Option.bind_some, hr]
      · rw [hl, Option.bind_some, rolInt_eq hmask ht', rolInt_eq hmask ht', hsum]

end Ints

/-- **The rotations are a group action at 32 and 64 bits, but not at 8 and 16**, where what
is shifted out at the top stays in the `int`: there the laws hold just of zero, and of counts
that do not rotate. -/
theorem rotation_laws (a b : BitVec 32) :
    (∀ num : BitVec 8, RotationLaws BitVec.toNat rol8 ror8 num a b ↔
      num = 0#8 ∨ a.toNat % 8 = 0) ∧
    (∀ num : BitVec 16, RotationLaws BitVec.toNat rol16 ror16 num a b ↔
      num = 0#16 ∨ a.toNat % 16 = 0) ∧
    (∀ num : BitVec 32, RotationLaws id (fun x n => some (rol32 x n))
      (fun x n => some (ror32 x n)) num a b) ∧
    (∀ num : BitVec 64, RotationLaws id (fun x n => some (rol64 x n))
      (fun x n => some (ror64 x n)) num a b) := by
  refine ⟨?_, ?_, ?_, ?_⟩
  · exact fun num => rotationLaws_int_iff (t := 3) rfl (by decide) num a b
  · exact fun num => rotationLaws_int_iff (t := 4) rfl (by decide) num a b
  · exact fun num => rotationLaws_word (t := 5) rfl (by decide) num a b
  · exact fun num => rotationLaws_word (t := 6) rfl (by decide) num a b

/-- `rol8(0x81, 1)` is `0x103`. -/
theorem rol8_overflows :
    rol8 0x81 1#32 = some 0x103 ∧
      ¬ RotationLaws BitVec.toNat rol8 ror8 0x81#8 1#32 0#32 := by
  refine ⟨by decide, fun h => ?_⟩
  exact absurd h.rol_eq (by decide)

end Bitops
end Brlib
