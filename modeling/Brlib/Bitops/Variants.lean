import Brlib.Bitops.Emulated
import Brlib.Bitops.Iteration

/-!
# The implementations that the preprocessor selects from

Three of the implementations differ from the builtin that they stand for.

* `__popcount_emulated` counts right, but clears the variable that it counts in.
* `__ctz32_popcount` counts the bits of `n & -n`, which is one bit, and so gives zero for
  every word.  The loops over `ctz` clear a wrong bit then, and do not end.
* `__ffs32_popcount` gives the width for zero, not zero.  It exists with the builtin `popcount`
  only, and without it `__ffs32_emulated` does not compile; `__ffs32_ctz` exists with the
  builtin `ctz` only.
-/

namespace Brlib
namespace Bitops

open Bits

variable {w : ℕ}

section Popcount

/-- The loop clears the bits of the variable one by one, and counts them. -/
theorem _popcountLoop_eq (fuel : ℕ) (count : BitVec 32) {n : BitVec w} {L : List ℕ}
    (h : setBits n = L) :
    _popcountLoop fuel count n =
      if L.length < fuel then some (count + BitVec.ofNat 32 L.length, 0#w) else none := by
  induction L generalizing fuel count n with
  | nil =>
    obtain rfl := setBits_eq_nil.mp h
    cases fuel with
    | zero => rfl
    | succ fuel =>
      rw [_popcountLoop, if_pos rfl]
      simp
  | cons k R ih =>
    cases fuel with
    | zero => rfl
    | succ fuel =>
      have hcount : count + 1#32 + BitVec.ofNat 32 R.length =
          count + BitVec.ofNat 32 (R.length + 1) := by
        rw [BitVec.ofNat_add, BitVec.add_assoc, BitVec.add_comm 1#32]
      rw [_popcountLoop, if_neg (ne_zero_of_setBits h), ih fuel _ (setBits_and_sub_one h), hcount]
      simp only [List.length_cons, Nat.add_lt_add_iff_right]

theorem _popcountEmulated_eq (fuel : ℕ) (n : BitVec w) :
    _popcountEmulated fuel n =
      if popcount n < fuel then some (builtinPopcount n, 0#w) else none := by
  rw [_popcountEmulated, _popcountLoop_eq fuel 0#32 rfl, BitVec.zero_add]
  rfl

/-- `__popcount_emulated` does to a variable what the builtin does, and the macro `popcountW`
of the width does the same whatever the builtins. -/
def PopcountAgrees (popcountW : Compiler → ℕ → BitVec w → Option (BitVec 32 × BitVec w))
    (n : BitVec w) : Prop :=
  ∃ fuel₀, ∀ fuel, fuel₀ ≤ fuel →
    _popcountEmulated fuel n = some (builtinPopcount n, n) ∧
      ∀ c c', popcountW c fuel n = popcountW c' fuel n

theorem popcountAgrees_iff
    {popcountW : Compiler → ℕ → BitVec w → Option (BitVec 32 × BitVec w)}
    (hpopcount : ∀ c fuel n, popcountW c fuel n =
      if c.hasPopcount then some (builtinPopcount n, n) else _popcountEmulated fuel n)
    (n : BitVec w) : PopcountAgrees popcountW n ↔ n = 0#w := by
  constructor
  · rintro ⟨fuel₀, h⟩
    have hsome := (h (fuel₀ + popcount n + 1) (by omega)).1
    rw [_popcountEmulated_eq, if_pos (by omega), Option.some_inj, Prod.mk.injEq] at hsome
    exact hsome.2.symm
  · rintro rfl
    refine ⟨popcount 0#w + 1, fun fuel hfuel => ?_⟩
    have hsome : _popcountEmulated fuel 0#w = some (builtinPopcount 0#w, 0#w) := by
      rw [_popcountEmulated_eq, if_pos (by omega)]
    refine ⟨hsome, fun c c' => ?_⟩
    rw [hpopcount, hpopcount, hsome, ite_self, ite_self]

/-- **The emulated `popcount` counts, but clears the variable.**  So it does what the
builtin does just if the variable is zero already. -/
theorem popcount_agrees (n : BitVec 32) (m : BitVec 64) :
    (∀ fuel, popcount n < fuel → _popcountEmulated fuel n = some (builtinPopcount n, 0#32)) ∧
    (∀ fuel, popcount m < fuel → _popcountEmulated fuel m = some (builtinPopcount m, 0#64)) ∧
    (PopcountAgrees popcount32 n ↔ n = 0#32) ∧
    (PopcountAgrees popcount64 m ↔ m = 0#64) := by
  refine ⟨?_, ?_, ?_, ?_⟩
  · exact fun fuel h => by rw [_popcountEmulated_eq, if_pos h]
  · exact fun fuel h => by rw [_popcountEmulated_eq, if_pos h]
  · exact popcountAgrees_iff (fun _ _ _ => rfl) n
  · exact popcountAgrees_iff (fun _ _ _ => rfl) m

theorem popcount_clears : ¬ PopcountAgrees popcount32 1#32 := by
  rintro ⟨fuel₀, h⟩
  have hsome := (h fuel₀ le_rfl).1
  rw [_popcountEmulated_eq] at hsome
  split at hsome <;> simp at hsome

end Popcount

section Ctz

variable {n : BitVec w} {k : ℕ} {R : List ℕ}

theorem popcount_and_neg_sub_one (hn : n ≠ 0#w) : builtinPopcount (n &&& -n) - 1#32 = 0#32 := by
  obtain ⟨k, R, h⟩ := exists_setBits hn
  rw [builtinPopcount, popcount, setBits_and_neg h]
  exact BitVec.sub_self 1#32

theorem ctzCorrect_of_lowest {ctz : BitVec w → BitVec 32}
    (h : ∀ {n k}, Lowest n k → Lowest n (ctz n).toNat) : CtzCorrect ctz := by
  intro n hn
  obtain ⟨k, R, hbits⟩ := exists_setBits hn
  have hlowest := lowest_of_setBits hbits
  rw [trailingZeros_of_setBits hbits, ← (h hlowest).unique hlowest, BitVec.ofNat_toNat,
    BitVec.setWidth_eq]

theorem ctzCorrect_emulated32 : CtzCorrect _ctz32Emulated :=
  ctzCorrect_of_lowest _ctz32Emulated_lowest

theorem ctzCorrect_emulated64 : CtzCorrect _ctz64Emulated :=
  ctzCorrect_of_lowest _ctz64Emulated_lowest

theorem getLsbD_zero_iff (hn : n ≠ 0#w) (hw : w < 2 ^ 32) :
    n.getLsbD 0 = true ↔ BitVec.ofNat 32 (trailingZeros n) = 0#32 := by
  obtain ⟨k, R, h⟩ := exists_setBits hn
  have hlowest := lowest_of_setBits h
  have hk := hlowest.lt
  rw [trailingZeros_of_setBits h]
  constructor
  · intro hset
    cases k with
    | zero => rfl
    | succ k => simp [hlowest.clear 0 k.succ_pos] at hset
  · intro hzero
    have hmod : k % 2 ^ 32 = 0 := congrArg BitVec.toNat hzero
    rw [Nat.mod_eq_of_lt (hk.trans hw)] at hmod
    obtain rfl := hmod
    exact hlowest.set

/-- The implementations of `ctz` of a width give the number of trailing zeros of a word, and
`ctz` and `lsb` do so whatever the builtins. -/
structure CtzAgrees (popcountCtz emulatedCtz : BitVec w → BitVec 32)
    (ctz lsb : Compiler → BitVec w → BitVec 32) (n : BitVec w) : Prop where
  popcount_eq : popcountCtz n = BitVec.ofNat 32 (trailingZeros n)
  emulated_eq : emulatedCtz n = BitVec.ofNat 32 (trailingZeros n)
  ctz_eq : ∀ c c', ctz c n = ctz c' n
  lsb_eq : ∀ c c', lsb c n = lsb c' n

/-- How `ctz` of a width is selected. -/
def SelectsCtz (popcountCtz emulatedCtz : BitVec w → BitVec 32)
    (ctz : Compiler → BitVec w → BitVec 32) : Prop :=
  ∀ c n, ctz c n = if c.hasCtz then builtinCtz c n
    else if c.hasPopcount then popcountCtz n else emulatedCtz n

variable {popcountCtz emulatedCtz : BitVec w → BitVec 32}
  {ctz lsb : Compiler → BitVec w → BitVec 32}

theorem ctzAgrees_iff (hpopcount : ∀ n, n ≠ 0#w → popcountCtz n = 0#32)
    (hemulated : CtzCorrect emulatedCtz) (hctz : SelectsCtz popcountCtz emulatedCtz ctz)
    (hlsb : SelectsCtz popcountCtz emulatedCtz lsb) (hw : w < 2 ^ 32) (hn : n ≠ 0#w) :
    CtzAgrees popcountCtz emulatedCtz ctz lsb n ↔ n.getLsbD 0 = true := by
  rw [getLsbD_zero_iff hn hw]
  constructor
  · intro h
    rw [← h.popcount_eq, hpopcount n hn]
  · intro hzero
    have hsame {f : Compiler → BitVec w → BitVec 32} (hf : SelectsCtz popcountCtz emulatedCtz f)
        (c : Compiler) : f c n = BitVec.ofNat 32 (trailingZeros n) := by
      rw [hf, ctzCorrect_builtin c n hn, hpopcount n hn, hemulated n hn, hzero, ite_self, ite_self]
    constructor
    · rw [hpopcount n hn, hzero]
    · exact hemulated n hn
    · exact fun c c' => (hsame hctz c).trans (hsame hctz c').symm
    · exact fun c c' => (hsame hlsb c).trans (hsame hlsb c').symm

end Ctz

section ForEach

variable {σ : Type} {find : BitVec w → BitVec 32} {tmp u : BitVec w}

theorem xorBit_zero (hw : 0 < w) : xorBit tmp 0#32 = some (tmp ^^^ 1#w) := by
  unfold xorBit oneShiftLeft
  rw [BitVec.toNat_ofNat, Nat.zero_mod, if_pos hw, BitVec.shiftLeft_zero]
  rfl

/-- **The loops over a `ctz` that gives zero do not end** when the word has another bit:
each round toggles the bit 0. -/
theorem bitFor_xorBit_diverges (hw : 0 < w) (hfind : ∀ n, n ≠ 0#w → find n = 0#32)
    (body : BitVec 32 → σ → σ) (fuel : ℕ) {i : ℕ} (hi : i ≠ 0) (htmp : tmp.getLsbD i = true)
    (s : σ) : bitFor find xorBit body fuel tmp (find tmp) s = none := by
  induction fuel generalizing tmp s with
  | zero => rfl
  | succ fuel ih =>
    have hne : tmp ≠ 0#w := fun h => by simp [h] at htmp
    have hstays : (tmp ^^^ 1#w).getLsbD i = true := by
      rw [BitVec.getLsbD_xor, htmp, BitVec.getLsbD_one]
      simp [hi]
    rw [bitFor, if_neg hne, hfind tmp hne, xorBit_zero hw]
    exact ih hstays (body 0#32 s)

theorem eq_zero_or_one (h : ∀ i, i ≠ 0 → u.getLsbD i = false) : u = 0#w ∨ u = 1#w := by
  cases h0 : u.getLsbD 0 with
  | false =>
    left
    apply BitVec.eq_of_getLsbD_eq
    intro i _
    rw [BitVec.getLsbD_zero]
    by_cases hi : i = 0
    · rw [hi, h0]
    · exact h i hi
  | true =>
    right
    apply BitVec.eq_of_getLsbD_eq
    intro i hiw
    rw [BitVec.getLsbD_one]
    by_cases hi : i = 0
    · simp [hi, h0, Nat.zero_lt_of_lt hiw]
    · simp [hi, h i hi]

theorem setBits_one (hw : 0 < w) : setBits 1#w = [0] := by
  refine setBits_eq (List.pairwise_singleton _ 0) fun i => ?_
  rw [List.mem_singleton, BitVec.getLsbD_one]
  simp [hw]

theorem bitFor_xorBit_of_le_one (hw : 0 < w) (hfind : ∀ n, n ≠ 0#w → find n = 0#32)
    (hu : u = 0#w ∨ u = 1#w) (body : BitVec 32 → σ → σ) (fuel : ℕ) (s : σ) :
    bitFor find xorBit body fuel u (find u) s =
      if popcount u < fuel then some (runBody body (BitVec.ofNat 32) (setBits u) s) else none := by
  have hzero (fuel : ℕ) (pos : BitVec 32) (s : σ) : bitFor find xorBit body fuel 0#w pos s =
      if 0 < fuel then some s else none := by
    cases fuel with
    | zero => rfl
    | succ fuel => rw [bitFor, if_pos rfl, if_pos fuel.succ_pos]
  rcases hu with rfl | rfl
  · rw [hzero, popcount, setBits_eq_nil.mpr rfl]
    rfl
  · have hone : 1#w ≠ 0#w := ne_zero_of_setBits (setBits_one hw)
    rw [popcount, setBits_one hw]
    cases fuel with
    | zero => rfl
    | succ fuel =>
      rw [bitFor, if_neg hone, hfind _ hone, xorBit_zero hw, BitVec.xor_self]
      simp only [Option.bind_eq_bind, Option.bind_some, hzero, List.length_singleton,
        Nat.lt_add_left_iff_pos]
      rfl

/-- `bit_for_each` of a width does the same whatever the builtins. -/
def ForEachAgrees (ctz : Compiler → BitVec w → BitVec 32) (u : BitVec w) : Prop :=
  ∀ (σ : Type) (body : BitVec 32 → σ → σ) (fuel : ℕ) (s : σ) (c c' : Compiler),
    bitFor (ctz c) xorBit body fuel u (ctz c u) s = bitFor (ctz c') xorBit body fuel u (ctz c' u) s

variable {popcountCtz emulatedCtz : BitVec w → BitVec 32}
  {ctz : Compiler → BitVec w → BitVec 32}

theorem forEachAgrees_iff (hpopcount : ∀ n, n ≠ 0#w → popcountCtz n = 0#32)
    (hemulated : CtzCorrect emulatedCtz) (hctz : SelectsCtz popcountCtz emulatedCtz ctz)
    (hpos : 0 < w) (hw : w < 2 ^ 32) (u : BitVec w) :
    ForEachAgrees ctz u ↔ u = 0#w ∨ u = 1#w := by
  -- a compiler that selects the popcount, and one that does not
  have hwrong {c : Compiler} (hc : c.hasCtz = false) (hp : c.hasPopcount = true) :
      ∀ n, n ≠ 0#w → ctz c n = 0#32 := by
    intro n hn
    rw [hctz, hc, hp]
    exact hpopcount n hn
  have hright {c : Compiler} (hc : c.hasCtz = true ∨ c.hasPopcount = false) :
      CtzCorrect (ctz c) := by
    intro n hn
    rw [hctz]
    rcases hc with hc | hc
    · rw [hc, if_pos rfl, ctzCorrect_builtin c n hn]
    · rw [hc, if_neg Bool.false_ne_true, ctzCorrect_builtin c n hn, hemulated n hn, ite_self]
  constructor
  · intro h
    apply eq_zero_or_one
    intro i hi
    rw [Bool.eq_false_iff]
    intro hset
    have hsame := h Unit (fun _ s => s) (popcount u + 1) () noBuiltins
      { noBuiltins with hasPopcount := true }
    rw [bitFor_xorBit (hright (.inr rfl)) hw, if_pos (Nat.lt_succ_self _),
      bitFor_xorBit_diverges hpos (hwrong rfl rfl) _ _ hi hset] at hsame
    exact Option.some_ne_none _ hsame
  · intro hu σ body fuel s c c'
    have hrun (c : Compiler) : bitFor (ctz c) xorBit body fuel u (ctz c u) s =
        if popcount u < fuel then some (runBody body (BitVec.ofNat 32) (setBits u) s)
        else none := by
      by_cases hc : c.hasCtz = true ∨ c.hasPopcount = false
      · exact bitFor_xorBit (hright hc) hw body fuel u s
      · rw [not_or, Bool.not_eq_true, Bool.not_eq_false] at hc
        exact bitFor_xorBit_of_le_one hpos (hwrong hc.1 hc.2) hu body fuel s
    rw [hrun c, hrun c']

/-- **The `ctz` of the builtin `popcount` is wrong** of even words.  So the implementations
agree, and `ctz` and `lsb` do not change with the builtins, just for odd words; and
`bit_for_each` does not change just for 0 and 1. -/
theorem ctz_agrees (n : BitVec 32) (m : BitVec 64) :
    (n ≠ 0#32 →
      (CtzAgrees _ctz32Popcount _ctz32Emulated ctz32 lsb32 n ↔ n.getLsbD 0 = true)) ∧
    (m ≠ 0#64 →
      (CtzAgrees _ctz64Popcount _ctz64Emulated ctz64 lsb64 m ↔ m.getLsbD 0 = true)) ∧
    ((∀ (σ : Type) (body : BitVec 32 → σ → σ) (fuel : ℕ) (s : σ) (c c' : Compiler),
        bitForEach32 (ctz32 c) body fuel n s = bitForEach32 (ctz32 c') body fuel n s) ↔
      n = 0#32 ∨ n = 1#32) ∧
    ((∀ (σ : Type) (body : BitVec 32 → σ → σ) (fuel : ℕ) (s : σ) (c c' : Compiler),
        bitForEach64 (ctz64 c) body fuel m s = bitForEach64 (ctz64 c') body fuel m s) ↔
      m = 0#64 ∨ m = 1#64) := by
  have h32 : ∀ n, n ≠ 0#32 → _ctz32Popcount n = 0#32 := fun n => popcount_and_neg_sub_one
  have h64 : ∀ n, n ≠ 0#64 → _ctz64Popcount n = 0#32 := fun n => popcount_and_neg_sub_one
  have hselect32 : SelectsCtz _ctz32Popcount _ctz32Emulated ctz32 := fun c n => rfl
  have hselect64 : SelectsCtz _ctz64Popcount _ctz64Emulated ctz64 := fun c n => rfl
  refine ⟨?_, ?_, ?_, ?_⟩
  · intro hn
    exact ctzAgrees_iff h32 ctzCorrect_emulated32 hselect32 hselect32 (by decide) hn
  · intro hm
    exact ctzAgrees_iff h64 ctzCorrect_emulated64 hselect64 hselect64 (by decide) hm
  · exact forEachAgrees_iff h32 ctzCorrect_emulated32 hselect32 (by decide) (by decide) n
  · exact forEachAgrees_iff h64 ctzCorrect_emulated64 hselect64 (by decide) (by decide) m

theorem ctz_agrees_three :
    CtzAgrees _ctz32Popcount _ctz32Emulated ctz32 lsb32 3#32 ∧
      CtzAgrees _ctz64Popcount _ctz64Emulated ctz64 lsb64 3#64 :=
  ⟨((ctz_agrees 3#32 3#64).1 (by decide)).mpr rfl,
    ((ctz_agrees 3#32 3#64).2.1 (by decide)).mpr rfl⟩

/-- `__ctz32_popcount(2)` is 0. -/
theorem ctz_popcount_two :
    _ctz32Popcount 2#32 = 0#32 ∧
      ¬ CtzAgrees _ctz32Popcount _ctz32Emulated ctz32 lsb32 2#32 := by
  refine ⟨by decide, fun h => ?_⟩
  exact absurd h.popcount_eq (by decide)

end ForEach

section Ffs

variable {n : BitVec w} {c : Compiler}

/-- `popcount(n ^ ~-n)` counts the bits up to the lowest set bit. -/
theorem popcount_xor_not_neg (hn : n ≠ 0#w) : builtinPopcount (n ^^^ ~~~(-n)) = builtinFfs n := by
  obtain ⟨k, R, h⟩ := exists_setBits hn
  rw [builtinPopcount, popcount, setBits_xor_not_neg h, List.length_range, builtinFfs,
    findFirstSet_of_setBits h]

/-- The implementations of `ffs` of a width exist and give the reference, zero for zero. -/
structure FfsAgrees (popcountFfs ctzFfs emulatedFfs : BitVec w → Option (BitVec 32))
    (n : BitVec w) : Prop where
  popcount_eq : popcountFfs n = some (BitVec.ofNat 32 (findFirstSet n))
  ctz_eq : ctzFfs n = some (BitVec.ofNat 32 (findFirstSet n))
  emulated_eq : emulatedFfs n = some (BitVec.ofNat 32 (findFirstSet n))

variable {popcountFfs ctzFfs emulatedFfs : BitVec w → Option (BitVec 32)}

theorem popcountFfs_eq_iff (hzero : builtinPopcount (0#w ^^^ ~~~(-0#w)) ≠ builtinFfs 0#w) :
    builtinPopcount (n ^^^ ~~~(-n)) = builtinFfs n ↔ n ≠ 0#w := by
  constructor
  · rintro h rfl
    exact hzero h
  · exact popcount_xor_not_neg

theorem ctzFfs_eq (c : Compiler) (n : BitVec w) :
    (if n ≠ 0#w then builtinCtz c n + 1#32 else 0#32) = builtinFfs n := by
  split
  · next hn =>
    obtain ⟨k, R, h⟩ := exists_setBits hn
    rw [ctzCorrect_builtin c n hn, builtinFfs, trailingZeros_of_setBits h,
      findFirstSet_of_setBits h, BitVec.ofNat_add]
  · next hn =>
    obtain rfl := not_not.mp hn
    rw [builtinFfs, findFirstSet, setBits_eq_nil.mpr rfl]

/-- The three exist just with both builtins, and agree just where the popcount ones are
right. -/
theorem ffsAgrees_iff (hzero : builtinPopcount (0#w ^^^ ~~~(-0#w)) ≠ builtinFfs 0#w)
    (hpopcount : popcountFfs n =
      if c.hasPopcount then some (builtinPopcount (n ^^^ ~~~(-n))) else none)
    (hctz : ctzFfs n =
      if c.hasCtz then some (if n ≠ 0#w then builtinCtz c n + 1#32 else 0#32) else none)
    (hemulated : emulatedFfs n = popcountFfs n) :
    FfsAgrees popcountFfs ctzFfs emulatedFfs n ↔
      c.hasPopcount = true ∧ c.hasCtz = true ∧ n ≠ 0#w := by
  have hpopcount_iff : popcountFfs n = some (builtinFfs n) ↔ c.hasPopcount = true ∧ n ≠ 0#w := by
    rw [hpopcount, Option.ite_none_right_eq_some, Option.some_inj, popcountFfs_eq_iff hzero]
  have hctz_iff : ctzFfs n = some (builtinFfs n) ↔ c.hasCtz = true := by
    rw [hctz, Option.ite_none_right_eq_some, ctzFfs_eq, eq_self, and_true]
  constructor
  · intro h
    obtain ⟨hc, hn⟩ := hpopcount_iff.mp h.popcount_eq
    exact ⟨hc, hctz_iff.mp h.ctz_eq, hn⟩
  · rintro ⟨hc, hc', hn⟩
    have heq := hpopcount_iff.mpr ⟨hc, hn⟩
    exact ⟨heq, hctz_iff.mpr hc', hemulated.trans heq⟩

theorem ffs32_eq_iff (c : Compiler) (n : BitVec 32) :
    ffs32 c n = some (builtinFfs n) ↔ c.hasFfs = true ∨ (c.hasPopcount = true ∧ n ≠ 0#32) ∨
      (c.hasPopcount = false ∧ c.hasCtz = true) := by
  have hpopcount : builtinPopcount (n ^^^ ~~~(-n)) = builtinFfs n ↔ n ≠ 0#32 :=
    popcountFfs_eq_iff (by decide)
  unfold ffs32 _ffs32Emulated _ffs32Popcount _ffs32Ctz
  rw [ctzFfs_eq]
  cases c.hasFfs <;> cases c.hasPopcount <;> cases c.hasCtz <;> simp [hpopcount]

theorem ffs64_eq_iff (c : Compiler) (n : BitVec 64) :
    ffs64 c n = some (builtinFfs n) ↔
      c.hasFfs = true ∨ (c.hasPopcount = true ∧ n ≠ 0#64) := by
  have hpopcount : builtinPopcount (n ^^^ ~~~(-n)) = builtinFfs n ↔ n ≠ 0#64 :=
    popcountFfs_eq_iff (by decide)
  unfold ffs64 _ffs64Emulated _ffs64Popcount
  cases c.hasFfs <;> cases c.hasPopcount <;> cases c.hasCtz <;> simp [hpopcount]

theorem not_ne_zero_iff (n : BitVec w) : ~~~n ≠ 0#w ↔ n ≠ BitVec.allOnes w := by
  rw [Ne, Ne, ← BitVec.not_zero, BitVec.not_eq_comm]

/-- **The `ffs` of the builtin `popcount` is wrong of zero**, and the one of the emulated
`popcount` does not compile.  So the implementations agree just for other words and with
the builtins that they need; and `ffz` is right just with the builtin `ffs`, with the builtin `popcount` for
words that have a clear bit, and, of 32 bits, with the builtin `ctz` and no `popcount`. -/
theorem ffs_agrees (c : Compiler) (n : BitVec 32) (m : BitVec 64) :
    (FfsAgrees (_ffs32Popcount c) (_ffs32Ctz c) (_ffs32Emulated c) n ↔
      c.hasPopcount = true ∧ c.hasCtz = true ∧ n ≠ 0#32) ∧
    (FfsAgrees (_ffs64Popcount c) (_ffs64Ctz c) (_ffs64Emulated c) m ↔
      c.hasPopcount = true ∧ c.hasCtz = true ∧ m ≠ 0#64) ∧
    (ffz32 c n = some (BitVec.ofNat 32 (findFirstClear n)) ↔
      c.hasFfs = true ∨ (c.hasPopcount = true ∧ n ≠ BitVec.allOnes 32) ∨
        (c.hasPopcount = false ∧ c.hasCtz = true)) ∧
    (ffz64 c m = some (BitVec.ofNat 32 (findFirstClear m)) ↔
      c.hasFfs = true ∨ (c.hasPopcount = true ∧ m ≠ BitVec.allOnes 64)) := by
  refine ⟨?_, ?_, ?_, ?_⟩
  · exact ffsAgrees_iff (by decide) rfl rfl rfl
  · exact ffsAgrees_iff (by decide) rfl rfl rfl
  · rw [← not_ne_zero_iff, ← ffs32_eq_iff, builtinFfs, findFirstSet_not, ffz32]
  · rw [← not_ne_zero_iff, ← ffs64_eq_iff, builtinFfs, findFirstSet_not, ffz64]

/-- With the builtins `popcount` and `ctz`, `__ffs32_popcount(0)` is 32. -/
theorem ffs_popcount_zero :
    _ffs32Popcount { noBuiltins with hasPopcount := true, hasCtz := true } 0#32 = some 32#32 ∧
      ¬ FfsAgrees (_ffs32Popcount { noBuiltins with hasPopcount := true, hasCtz := true })
        (_ffs32Ctz { noBuiltins with hasPopcount := true, hasCtz := true })
        (_ffs32Emulated { noBuiltins with hasPopcount := true, hasCtz := true }) 0#32 := by
  refine ⟨by decide, fun h => ?_⟩
  exact absurd h.popcount_eq (by decide)

end Ffs

end Bitops
end Brlib
