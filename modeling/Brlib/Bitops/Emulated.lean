import Brlib.Bits.Halving
import Brlib.Bits.Swap
import Brlib.Bitops.Basic

/-!
# The emulated bit operations

`__ctz32_emulated` and `__clz32_emulated` find a bit by halving, `__ilog2_32_emulated` by
smearing and a table, and `__bswap32_emulated` swaps blocks of bytes; so do their siblings
of 64 bits.  Each one computes its reference, of every word.
-/

namespace Brlib
namespace Bitops

open Bits

variable {w t : ℕ}

section Ctz

/-- One step of the emulated `ctz` is one of the search for the lowest bit. -/
theorem ctzStep_search {n₀ : BitVec w} {x : BitVec w × BitVec 32} (mask : BitVec w)
    (h : LowSearch n₀ x.1 x.2 (t + 1)) (hmask : mask.toNat = 2 ^ 2 ^ t - 1)
    (ht : 2 ^ t < 2 ^ 32) (hw : w < 2 ^ 32) :
    LowSearch n₀ (ctzStep mask (2 ^ t) x).1 (ctzStep mask (2 ^ t) x).2 t := by
  unfold ctzStep
  split
  · next hzero =>
    apply h.step_clear hmask _ hw hzero
    rw [BitVec.toNat_ofNat, Nat.mod_eq_of_lt ht]
  · next hzero => exact h.step_set hmask hzero

theorem _ctz32Emulated_lowest {n : BitVec 32} {k : ℕ} (h : Lowest n k) :
    Lowest n (_ctz32Emulated n).toNat := by
  have h5 : LowSearch n (n, 0#32).1 (n, 0#32).2 5 := LowSearch.start h (by decide)
  have h4 := ctzStep_search 0xffff#32 h5 rfl (by decide) (by decide)
  have h3 := ctzStep_search 0xff#32 h4 rfl (by decide) (by decide)
  have h2 := ctzStep_search 0xf#32 h3 rfl (by decide) (by decide)
  have h1 := ctzStep_search 3#32 h2 rfl (by decide) (by decide)
  have h0 := ctzStep_search 1#32 h1 rfl (by decide) (by decide)
  exact h0.last

theorem _ctz64Emulated_lowest {n : BitVec 64} {k : ℕ} (h : Lowest n k) :
    Lowest n (_ctz64Emulated n).toNat := by
  have h6 : LowSearch n (n, 0#32).1 (n, 0#32).2 6 := LowSearch.start h (by decide)
  have h5 := ctzStep_search 0xffffffff#64 h6 rfl (by decide) (by decide)
  have h4 := ctzStep_search 0xffff#64 h5 rfl (by decide) (by decide)
  have h3 := ctzStep_search 0xff#64 h4 rfl (by decide) (by decide)
  have h2 := ctzStep_search 0xf#64 h3 rfl (by decide) (by decide)
  have h1 := ctzStep_search 3#64 h2 rfl (by decide) (by decide)
  have h0 := ctzStep_search 1#64 h1 rfl (by decide) (by decide)
  exact h0.last

end Ctz

section Clz

theorem toNat_truth_shiftLeft {n : BitVec w} (bound : BitVec w)
    (hbound : bound.toNat = 2 ^ 2 ^ t - 1) (ht : t < 32) :
    (truth (n > bound) <<< t).toNat = if 2 ^ 2 ^ t ≤ n.toNat then 2 ^ t else 0 := by
  have hpos := Nat.two_pow_pos (2 ^ t)
  have hiff : n > bound ↔ 2 ^ 2 ^ t ≤ n.toNat := by
    show bound < n ↔ _
    rw [BitVec.lt_def, hbound]
    omega
  by_cases h : 2 ^ 2 ^ t ≤ n.toNat
  · rw [if_pos h, decide_eq_true (hiff.mpr h), truth, if_pos rfl, BitVec.toNat_shiftLeft,
      BitVec.toNat_ofNat, Nat.one_mod_two_pow (by decide), Nat.one_shiftLeft]
    exact Nat.mod_eq_of_lt (Nat.pow_lt_pow_right (by decide) ht)
  · rw [if_neg h, decide_eq_false (mt hiff.mp h), truth, if_neg Bool.false_ne_true]
    simp

theorem ofNat_sub_eq {r : BitVec 32} {m k : ℕ} (hr : r.toNat = k) (hk : k ≤ m) :
    BitVec.ofNat 32 m - r = BitVec.ofNat 32 (m - k) := by
  obtain rfl : r = BitVec.ofNat 32 k := BitVec.eq_of_toNat_eq (by
    rw [hr, BitVec.toNat_ofNat, Nat.mod_eq_of_lt (by omega)])
  exact BitVec.ofNat_sub_ofNat_of_le m k (by omega) hk

theorem _clz32Emulated_eq {n : BitVec 32} (hn : n ≠ 0#32) :
    _clz32Emulated n = BitVec.ofNat 32 (31 - n.toNat.log2) := by
  have h5 : HighSearch n n 0#32 5 := HighSearch.start hn (by decide)
  have h4 := h5.step (toNat_truth_shiftLeft 0xFFFF#32 rfl (by decide))
  rw [BitVec.zero_or] at h4
  have h3 := h4.step (toNat_truth_shiftLeft 0xFF#32 rfl (by decide))
  have h2 := h3.step (toNat_truth_shiftLeft 0xF#32 rfl (by decide))
  have h1 := h2.step (toNat_truth_shiftLeft 0x3#32 rfl (by decide))
  apply ofNat_sub_eq _ (Nat.le_of_lt_succ (log2_lt_width hn))
  rw [BitVec.toNat_or, BitVec.toNat_ushiftRight, Nat.shiftRight_eq_div_pow]
  exact h1.last

theorem _clz64Emulated_eq {n : BitVec 64} (hn : n ≠ 0#64) :
    _clz64Emulated n = BitVec.ofNat 32 (63 - n.toNat.log2) := by
  have hlt := log2_lt_width hn
  have h6 : HighSearch n n 0#32 6 := HighSearch.start hn (by decide)
  have h5 := h6.step (toNat_truth_shiftLeft 0xFFFFFFFF#64 rfl (by decide))
  rw [BitVec.zero_or] at h5
  have h4 := h5.step (toNat_truth_shiftLeft 0xFFFF#64 rfl (by decide))
  have h3 := h4.step (toNat_truth_shiftLeft 0xFF#64 rfl (by decide))
  have h2 := h3.step (toNat_truth_shiftLeft 0xF#64 rfl (by decide))
  have h1 := h2.step (toNat_truth_shiftLeft 0x3#64 rfl (by decide))
  apply ofNat_sub_eq _ (Nat.le_of_lt_succ hlt)
  rw [BitVec.toNat_setWidth, BitVec.toNat_or, BitVec.toNat_ushiftRight, BitVec.toNat_setWidth,
    Nat.shiftRight_eq_div_pow, Nat.mod_eq_of_lt ((BitVec.isLt _).trans (by decide)), pow_one,
    h1.last]
  exact Nat.mod_eq_of_lt (by omega)

variable (c : Compiler)

theorem clz32_eq {n : BitVec 32} (hn : n ≠ 0#32) :
    clz32 c n = BitVec.ofNat 32 (31 - n.toNat.log2) := by
  unfold clz32 builtinClz
  rw [if_neg hn, _clz32Emulated_eq hn, ite_self]

theorem clz64_eq {n : BitVec 64} (hn : n ≠ 0#64) :
    clz64 c n = BitVec.ofNat 32 (63 - n.toNat.log2) := by
  unfold clz64 builtinClz
  rw [if_neg hn, _clz64Emulated_eq hn, ite_self]

theorem msb32_eq {n : BitVec 32} (hn : n ≠ 0#32) :
    msb32 c n = BitVec.ofNat 32 n.toNat.log2 := by
  have hflip : ∀ k < 32, 31#32 ^^^ BitVec.ofNat 32 (31 - k) = BitVec.ofNat 32 k := by decide
  rw [msb32, clz32_eq c hn, hflip _ (log2_lt_width hn)]

theorem msb64_eq {n : BitVec 64} (hn : n ≠ 0#64) :
    msb64 c n = BitVec.ofNat 32 n.toNat.log2 := by
  have hflip : ∀ k < 64, 63#32 ^^^ BitVec.ofNat 32 (63 - k) = BitVec.ofNat 32 k := by decide
  rw [msb64, clz64_eq c hn, hflip _ (log2_lt_width hn)]

theorem fls32_eq {n : BitVec 32} (hn : n ≠ 0#32) :
    fls32 c n = BitVec.ofNat 32 (n.toNat.log2 + 1) := by
  have hsub : ∀ k < 32, 32#32 - BitVec.ofNat 32 (31 - k) = BitVec.ofNat 32 (k + 1) := by decide
  rw [fls32, if_pos hn, clz32_eq c hn, hsub _ (log2_lt_width hn)]

theorem fls64_eq {n : BitVec 64} (hn : n ≠ 0#64) :
    fls64 c n = BitVec.ofNat 32 (n.toNat.log2 + 1) := by
  have hsub : ∀ k < 64, 64#32 - BitVec.ofNat 32 (63 - k) = BitVec.ofNat 32 (k + 1) := by decide
  rw [fls64, if_pos hn, clz64_eq c hn, hsub _ (log2_lt_width hn)]

end Clz

section Ilog2

/-- The table has the logarithm of every word of ones at its place. -/
theorem _ilog2_32Table_eq : ∀ k < 32,
    _ilog2_32Table[((BitVec.ofNat 32 (2 ^ (k + 1) - 1) * 0x07C4ACDD#32) >>> 27).toNat]? =
      some (BitVec.ofNat 32 k) := by
  decide

theorem _ilog2_64Table_eq : ∀ k < 64,
    _ilog2_64Table[(((BitVec.ofNat 64 (2 ^ (k + 1) - 1) - BitVec.ofNat 64 (2 ^ (k + 1) - 1) >>> 1)
      * 0x07EDD5E59A4E28C2#64) >>> 58).toNat]? = some (BitVec.ofNat 32 k) := by
  decide +kernel

theorem _ilog2_32Emulated_eq {n : BitVec 32} (hn : n ≠ 0#32) :
    _ilog2_32Emulated n = some (BitVec.ofNat 32 n.toNat.log2) := by
  have hsmeared := (Smeared.refl n).step.step.step.step.step
  rw [← _ilog2_32Table_eq _ (log2_lt_width hn), ← hsmeared.toNat_eq hn, BitVec.ofNat_toNat,
    BitVec.setWidth_eq]
  rfl

theorem _ilog2_64Emulated_eq {n : BitVec 64} (hn : n ≠ 0#64) :
    _ilog2_64Emulated n = some (BitVec.ofNat 32 n.toNat.log2) := by
  have hsmeared := (Smeared.refl n).step.step.step.step.step.step
  rw [← _ilog2_64Table_eq _ (log2_lt_width hn), ← hsmeared.toNat_eq hn, BitVec.ofNat_toNat,
    BitVec.setWidth_eq]
  rfl

end Ilog2

section Bswap

theorem getLsbD_bswap32Emulated (n : BitVec 32) (i : ℕ) (hi : i < 32) :
    (_bswap32Emulated n).getLsbD i = n.getLsbD (i ^^^ 24) := by
  have hmask : ∀ i < 32, (0x00FF00FF#32).getLsbD i = !i.testBit 3 := by decide
  have hlt : i ^^^ 2 ^ 4 < 32 := xor_two_pow_lt (by decide) hi
  calc
    _ = _ := getLsbD_swapHalves 4 rfl hi
    _ = n.getLsbD (i ^^^ 2 ^ 4 ^^^ 2 ^ 3) := getLsbD_swapBlocks 3 (by decide) hmask hlt
    _ = n.getLsbD (i ^^^ 24) := by rw [Nat.xor_assoc]; rfl

theorem getLsbD_bswap64Emulated (n : BitVec 64) (i : ℕ) (hi : i < 64) :
    (_bswap64Emulated n).getLsbD i = n.getLsbD (i ^^^ 56) := by
  have hmask1 : ∀ i < 64, (0x00FF00FF00FF00FF#64).getLsbD i = !i.testBit 3 := by decide
  have hmask2 : ∀ i < 64, (0x0000FFFF0000FFFF#64).getLsbD i = !i.testBit 4 := by decide
  have hlt1 : i ^^^ 2 ^ 5 < 64 := xor_two_pow_lt (by decide) hi
  have hlt2 : i ^^^ 2 ^ 5 ^^^ 2 ^ 4 < 64 := xor_two_pow_lt (by decide) hlt1
  calc
    _ = _ := getLsbD_swapHalves 5 rfl hi
    _ = _ := getLsbD_swapBlocks 4 (by decide) hmask2 hlt1
    _ = n.getLsbD (i ^^^ 2 ^ 5 ^^^ 2 ^ 4 ^^^ 2 ^ 3) :=
      getLsbD_swapBlocks 3 (by decide) hmask1 hlt2
    _ = n.getLsbD (i ^^^ 56) := by rw [Nat.xor_assoc, Nat.xor_assoc]; rfl

theorem bytes_bswap32Emulated (n : BitVec 32) :
    bytes (_bswap32Emulated n) = (bytes n).reverse :=
  bytes_eq_reverse (getLsbD_bswap32Emulated n) (by decide)

theorem bytes_bswap64Emulated (n : BitVec 64) :
    bytes (_bswap64Emulated n) = (bytes n).reverse :=
  bytes_eq_reverse (getLsbD_bswap64Emulated n) (by decide)

theorem _bswap32Emulated_involutive : Function.Involutive _bswap32Emulated :=
  involutive_of_getLsbD getLsbD_bswap32Emulated (by decide)

theorem _bswap64Emulated_involutive : Function.Involutive _bswap64Emulated :=
  involutive_of_getLsbD getLsbD_bswap64Emulated (by decide)

end Bswap

/-- What the operations give for a word that is not zero. -/
structure BitReferences (n : BitVec w) (ctz clz msb fls ilog2 : BitVec 32)
    (table : Option (BitVec 32)) : Prop where
  ctz_dvd : 2 ^ ctz.toNat ∣ n.toNat
  ctz_not_dvd : ¬ 2 ^ (ctz.toNat + 1) ∣ n.toNat
  clz_lt : clz.toNat < w
  le_of_clz : 2 ^ (w - 1 - clz.toNat) ≤ n.toNat
  lt_of_clz : n.toNat < 2 ^ (w - clz.toNat)
  msb_eq : msb.toNat = n.toNat.log2
  fls_eq : fls.toNat = n.toNat.log2 + 1
  ilog2_eq : ilog2.toNat = n.toNat.log2
  table_eq : table = some ilog2

theorem bitReferences {n : BitVec w} {ctz : BitVec 32} (hn : n ≠ 0#w) (hw : w < 2 ^ 31)
    (hctz : Lowest n ctz.toNat) :
    BitReferences n ctz (BitVec.ofNat 32 (w - 1 - n.toNat.log2)) (BitVec.ofNat 32 n.toNat.log2)
      (BitVec.ofNat 32 (n.toNat.log2 + 1)) (BitVec.ofNat 32 n.toNat.log2)
      (some (BitVec.ofNat 32 n.toNat.log2)) := by
  have hlt := log2_lt_width hn
  have hclz : (BitVec.ofNat 32 (w - 1 - n.toNat.log2)).toNat = w - 1 - n.toNat.log2 :=
    Nat.mod_eq_of_lt (by omega)
  have hlog : (BitVec.ofNat 32 n.toNat.log2).toNat = n.toNat.log2 := Nat.mod_eq_of_lt (by omega)
  constructor
  · exact hctz.dvd_iff.1
  · exact hctz.dvd_iff.2
  · rw [hclz]
    omega
  · rw [hclz, show w - 1 - (w - 1 - n.toNat.log2) = n.toNat.log2 by omega]
    exact Nat.log2_self_le (toNat_ne_zero hn)
  · rw [hclz, show w - (w - 1 - n.toNat.log2) = n.toNat.log2 + 1 by omega]
    exact Nat.lt_log2_self
  · exact hlog
  · exact Nat.mod_eq_of_lt (by omega)
  · exact hlog
  · rfl

/-- **The emulated operations are right.**  For every word that is not zero, `ctz`, `clz`,
what is derived from `clz`, and the table of `ilog2` give the references; for every word at
all, `bswap` reverses its bytes and undoes itself. -/
theorem emulated_correct :
    (∀ n : BitVec 32, n ≠ 0#32 → ∀ c : Compiler,
      BitReferences n (_ctz32Emulated n) (_clz32Emulated n) (msb32 c n) (fls32 c n)
        (ilog2_32 c n) (_ilog2_32Emulated n)) ∧
    (∀ n : BitVec 64, n ≠ 0#64 → ∀ c : Compiler,
      BitReferences n (_ctz64Emulated n) (_clz64Emulated n) (msb64 c n) (fls64 c n)
        (ilog2_64 c n) (_ilog2_64Emulated n)) ∧
    (∀ n : BitVec 32, bytes (_bswap32Emulated n) = (bytes n).reverse ∧
      _bswap32Emulated (_bswap32Emulated n) = n) ∧
    (∀ n : BitVec 64, bytes (_bswap64Emulated n) = (bytes n).reverse ∧
      _bswap64Emulated (_bswap64Emulated n) = n) := by
  refine ⟨?_, ?_, ?_, ?_⟩
  · intro n hn c
    obtain ⟨k, R, hbits⟩ := exists_setBits hn
    have hctz := _ctz32Emulated_lowest (lowest_of_setBits hbits)
    rw [_clz32Emulated_eq hn, ilog2_32, msb32_eq c hn, fls32_eq c hn, _ilog2_32Emulated_eq hn]
    exact bitReferences hn (by decide) hctz
  · intro n hn c
    obtain ⟨k, R, hbits⟩ := exists_setBits hn
    have hctz := _ctz64Emulated_lowest (lowest_of_setBits hbits)
    rw [_clz64Emulated_eq hn, ilog2_64, msb64_eq c hn, fls64_eq c hn, _ilog2_64Emulated_eq hn]
    exact bitReferences hn (by decide) hctz
  · exact fun n => ⟨bytes_bswap32Emulated n, _bswap32Emulated_involutive n⟩
  · exact fun n => ⟨bytes_bswap64Emulated n, _bswap64Emulated_involutive n⟩

theorem emulated_correct_forty :
    BitReferences 40#32 3#32 26#32 5#32 6#32 5#32 (some 5#32) ∧
      BitReferences 40#64 3#32 58#32 5#32 6#32 5#32 (some 5#32) :=
  ⟨emulated_correct.1 40#32 (by decide) noBuiltins,
    emulated_correct.2.1 40#64 (by decide) noBuiltins⟩

end Bitops
end Brlib
