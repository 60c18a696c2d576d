import Brlib.Bitops.Emulated

/-!
# The odd part of a word

`__ctz32_emulated2` and its sibling are macros that do to their argument what
`__ctz32_emulated` does to a copy: they count the zeros below the lowest set bit, and leave the
word without them.  `is_pow2` holds just if nothing but the lowest bit is left
(`ctz2_odd_part`).
-/

namespace Brlib
namespace Bitops

open Bits

variable {w : ℕ}

/-- `__ctz32_emulated2(n)` of a variable `n`: the count, and what `n` holds afterwards. -/
def _ctz32Emulated2 (n : BitVec 32) : BitVec 32 × BitVec 32 :=
  let x := (n, 0#32)
  let x := ctzStep 0xffff#32 16 x
  let x := ctzStep 0xff#32 8 x
  let x := ctzStep 0xf#32 4 x
  let x := ctzStep 3#32 2 x
  let x := ctzStep 1#32 1 x
  (x.2, x.1)

/-- `__ctz64_emulated2(n)` of a variable `n`: the count, and what `n` holds afterwards. -/
def _ctz64Emulated2 (n : BitVec 64) : BitVec 32 × BitVec 64 :=
  let x := (n, 0#32)
  let x := ctzStep 0xffffffff#64 32 x
  let x := ctzStep 0xffff#64 16 x
  let x := ctzStep 0xff#64 8 x
  let x := ctzStep 0xf#64 4 x
  let x := ctzStep 3#64 2 x
  let x := ctzStep 1#64 1 x
  (x.2, x.1)

/-- `is_pow2` -/
def isPow2 (n : BitVec w) : Bool :=
  n ≠ 0#w ∧ n &&& (n - 1#w) = 0#w

/-- What was shifted out is what was counted. -/
structure Shifted (n : BitVec w) (x : BitVec w × BitVec 32) (bound : ℕ) : Prop where
  word : x.1 = n >>> x.2.toNat
  le : x.2.toNat ≤ bound

theorem ctzStep_shifted {n : BitVec w} {x : BitVec w × BitVec 32} {bound s : ℕ} (mask : BitVec w)
    (h : Shifted n x bound) (hs : bound + s < 2 ^ 32) :
    Shifted n (ctzStep mask s x) (bound + s) := by
  have hle := h.le
  unfold ctzStep
  split
  · have hadd : (x.2 + BitVec.ofNat 32 s).toNat = x.2.toNat + s := by
      rw [BitVec.toNat_add, BitVec.toNat_ofNat, Nat.add_mod_mod]
      exact Nat.mod_eq_of_lt (by omega)
    refine ⟨?_, hadd.le.trans (by omega)⟩
    rw [hadd, h.word, BitVec.shiftRight_add]
  · exact ⟨h.word, by omega⟩

theorem _ctz32Emulated2_shifted (n : BitVec 32) :
    (_ctz32Emulated2 n).2 = n >>> (_ctz32Emulated2 n).1.toNat := by
  have h0 : Shifted n (n, 0#32) 0 := ⟨by simp, by simp⟩
  have h1 := ctzStep_shifted 0xffff#32 h0 (show 0 + 16 < 2 ^ 32 by decide)
  have h2 := ctzStep_shifted 0xff#32 h1 (show 0 + 16 + 8 < 2 ^ 32 by decide)
  have h3 := ctzStep_shifted 0xf#32 h2 (show 0 + 16 + 8 + 4 < 2 ^ 32 by decide)
  have h4 := ctzStep_shifted 3#32 h3 (show 0 + 16 + 8 + 4 + 2 < 2 ^ 32 by decide)
  have h5 := ctzStep_shifted 1#32 h4 (show 0 + 16 + 8 + 4 + 2 + 1 < 2 ^ 32 by decide)
  exact h5.word

theorem _ctz64Emulated2_shifted (n : BitVec 64) :
    (_ctz64Emulated2 n).2 = n >>> (_ctz64Emulated2 n).1.toNat := by
  have h0 : Shifted n (n, 0#32) 0 := ⟨by simp, by simp⟩
  have h1 := ctzStep_shifted 0xffffffff#64 h0 (show 0 + 32 < 2 ^ 32 by decide)
  have h2 := ctzStep_shifted 0xffff#64 h1 (show 0 + 32 + 16 < 2 ^ 32 by decide)
  have h3 := ctzStep_shifted 0xff#64 h2 (show 0 + 32 + 16 + 8 < 2 ^ 32 by decide)
  have h4 := ctzStep_shifted 0xf#64 h3 (show 0 + 32 + 16 + 8 + 4 < 2 ^ 32 by decide)
  have h5 := ctzStep_shifted 3#64 h4 (show 0 + 32 + 16 + 8 + 4 + 2 < 2 ^ 32 by decide)
  have h6 := ctzStep_shifted 1#64 h5 (show 0 + 32 + 16 + 8 + 4 + 2 + 1 < 2 ^ 32 by decide)
  exact h6.word

theorem isPowerOfTwo_odd_mul {a k : ℕ} (hodd : a % 2 = 1) :
    (a * 2 ^ k).isPowerOfTwo ↔ a = 1 := by
  constructor
  · rintro ⟨m, hm⟩
    have hdvd : a ∣ 2 ^ m := ⟨2 ^ k, hm.symm⟩
    obtain ⟨j, -, rfl⟩ := (Nat.dvd_prime_pow Nat.prime_two).mp hdvd
    cases j with
    | zero => rfl
    | succ j => omega
  · rintro rfl
    exact ⟨k, Nat.one_mul _⟩

theorem isPow2_iff {n : BitVec w} (hn : n ≠ 0#w) : isPow2 n = true ↔ n.toNat.isPowerOfTwo := by
  have hpos : n.toNat ≠ 0 := toNat_ne_zero hn
  have hone : (1#w).toNat ≤ n.toNat := by
    rw [BitVec.toNat_ofNat]
    exact (Nat.mod_le _ _).trans (Nat.one_le_iff_ne_zero.mpr hpos)
  have hw : 1 < 2 ^ w := by
    have hlt := n.isLt
    omega
  have hpred : (n - 1#w).toNat = n.toNat - 1 := by
    rw [BitVec.toNat_sub_of_le hone, BitVec.toNat_ofNat, Nat.mod_eq_of_lt hw]
  rw [← Nat.and_sub_one_eq_zero_iff_isPowerOfTwo hpos, ← hpred, ← BitVec.toNat_and]
  simp [isPow2, hn, ← BitVec.toNat_inj]

theorem odd_part {n : BitVec w} {r : ℕ} (h : Lowest n r) (hn : n ≠ 0#w) :
    n.toNat = (n >>> r).toNat * 2 ^ r ∧ (n >>> r).toNat % 2 = 1 ∧
      (isPow2 n = true ↔ (n >>> r).toNat = 1) := by
  obtain ⟨q, hq⟩ := h.exists_toNat
  have hfactor : n.toNat = (2 * q + 1) * 2 ^ r := by
    rw [hq, pow_succ]
    ring
  have hshift : (n >>> r).toNat = 2 * q + 1 := by
    rw [BitVec.toNat_ushiftRight, Nat.shiftRight_eq_div_pow, hfactor,
      Nat.mul_div_cancel _ (Nat.two_pow_pos r)]
  have hodd : (2 * q + 1) % 2 = 1 := by omega
  refine ⟨by rw [hshift, hfactor], by rw [hshift, hodd], ?_⟩
  rw [isPow2_iff hn, hfactor, isPowerOfTwo_odd_mul hodd, hshift]

/-- **The macros leave the odd part.**  They count what the functions count; of a word that is
not zero they leave the odd number that it is a multiple of by a power of two, and `is_pow2`
holds just if this number is one. -/
theorem ctz2_odd_part :
    (∀ n : BitVec 32, (_ctz32Emulated2 n).1 = _ctz32Emulated n ∧ (n ≠ 0#32 →
      n.toNat = (_ctz32Emulated2 n).2.toNat * 2 ^ (_ctz32Emulated2 n).1.toNat ∧
      (_ctz32Emulated2 n).2.toNat % 2 = 1 ∧
      (isPow2 n = true ↔ (_ctz32Emulated2 n).2.toNat = 1))) ∧
    ∀ n : BitVec 64, (_ctz64Emulated2 n).1 = _ctz64Emulated n ∧ (n ≠ 0#64 →
      n.toNat = (_ctz64Emulated2 n).2.toNat * 2 ^ (_ctz64Emulated2 n).1.toNat ∧
      (_ctz64Emulated2 n).2.toNat % 2 = 1 ∧
      (isPow2 n = true ↔ (_ctz64Emulated2 n).2.toNat = 1)) := by
  refine ⟨fun n => ⟨rfl, fun hn => ?_⟩, fun n => ⟨rfl, fun hn => ?_⟩⟩
  · obtain ⟨k, R, hbits⟩ := exists_setBits hn
    rw [_ctz32Emulated2_shifted n]
    exact odd_part (_ctz32Emulated_lowest (lowest_of_setBits hbits)) hn
  · obtain ⟨k, R, hbits⟩ := exists_setBits hn
    rw [_ctz64Emulated2_shifted n]
    exact odd_part (_ctz64Emulated_lowest (lowest_of_setBits hbits)) hn

theorem ctz2_odd_part_forty :
    (40 : ℕ) = (_ctz32Emulated2 40#32).2.toNat * 2 ^ (_ctz32Emulated2 40#32).1.toNat ∧
      (isPow2 64#64 = true ↔ (_ctz64Emulated2 64#64).2.toNat = 1) :=
  ⟨((ctz2_odd_part.1 40#32).2 (by decide)).1, ((ctz2_odd_part.2 64#64).2 (by decide)).2.2⟩

end Bitops
end Brlib
