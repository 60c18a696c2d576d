import Mathlib.Tactic
import Brlib.Bits.SetBits
import Brlib.Bitops.Basic

/-!
# The bit iteration macros of `bitops.h`

The macros are `for` loops over what is left of a word, `tmp`, with the position `pos` of
its lowest set bit, which `ctz` or `ffs` finds.  The body of a loop is a function on the
state of the program, and does not change the two variables.

`ctz` of zero is not defined, and the last step of a loop evaluates it; but then the loop
ends, and the position is not used.
-/

namespace Brlib
namespace Bitops

open Bits

variable {w : ℕ} {σ : Type}

/-- `1U << pos` and `1UL << pos`; undefined for a negative shift and for one of the width. -/
def oneShiftLeft (pos : BitVec 32) : Option (BitVec w) :=
  if pos.toNat < w then some (1#w <<< pos.toNat) else none

/-- `tmp ^= 1U << pos` and `tmp ^= 1UL << pos` -/
def xorBit (tmp : BitVec w) (pos : BitVec 32) : Option (BitVec w) := do
  let bit ← oneShiftLeft pos
  some (tmp ^^^ bit)

/-- `tmp &= (tmp - 1)` -/
def andPred (tmp : BitVec w) (_ : BitVec 32) : Option (BitVec w) :=
  some (tmp &&& (tmp - 1#w))

/-- `for (…; tmp; clear, pos = find(tmp)) body`, with `fuel` evaluations of the condition. -/
def bitFor (find : BitVec w → BitVec 32) (clear : BitVec w → BitVec 32 → Option (BitVec w))
    (body : BitVec 32 → σ → σ) : ℕ → BitVec w → BitVec 32 → σ → Option σ
  | 0, _, _, _ => none
  | fuel + 1, tmp, pos, s =>
    if tmp = 0#w then some s
    else do
      let s := body pos s
      let tmp ← clear tmp pos
      bitFor find clear body fuel tmp (find tmp) s

/-- `bit_for_each32` -/
def bitForEach32 (ctz32 : BitVec 32 → BitVec 32) (body : BitVec 32 → σ → σ) (fuel : ℕ)
    (u : BitVec 32) (s : σ) : Option σ :=
  bitFor ctz32 xorBit body fuel u (ctz32 u) s

/-- `bit_for_each64` -/
def bitForEach64 (ctz64 : BitVec 64 → BitVec 32) (body : BitVec 32 → σ → σ) (fuel : ℕ)
    (ul : BitVec 64) (s : σ) : Option σ :=
  bitFor ctz64 xorBit body fuel ul (ctz64 ul) s

/-- `bit_for_each64_ffs` -/
def bitForEach64Ffs (ffs64 : BitVec 64 → BitVec 32) (body : BitVec 32 → σ → σ) (fuel : ℕ)
    (u : BitVec 64) (s : σ) : Option σ :=
  bitFor ffs64 andPred body fuel u (ffs64 u) s

/-- `bit_for_each32_ffs` -/
def bitForEach32Ffs (ffs32 : BitVec 32 → BitVec 32) (body : BitVec 32 → σ → σ) (fuel : ℕ)
    (ul : BitVec 32) (s : σ) : Option σ :=
  bitFor ffs32 andPred body fuel ul (ffs32 ul) s

/-- The body, run once for each of the positions. -/
def runBody (body : BitVec 32 → σ → σ) (pos : ℕ → BitVec 32) (L : List ℕ) (s : σ) : σ :=
  L.foldl (fun s k => body (pos k) s) s

section Loop

variable {find : BitVec w → BitVec 32} {clear : BitVec w → BitVec 32 → Option (BitVec w)}
  {pos : ℕ → BitVec 32}

/-- **The loop rule.**  If `find` gives a position for the lowest set bit, and `clear` clears
this bit, then the loop runs its body once for each set bit, the lowest one first. -/
theorem bitFor_eq (hfind : ∀ n k R, setBits n = k :: R → find n = pos k)
    (hclear : ∀ n k R, setBits n = k :: R → ∃ m, clear n (pos k) = some m ∧ setBits m = R)
    (body : BitVec 32 → σ → σ) (fuel : ℕ) {u : BitVec w} {L : List ℕ} (hu : setBits u = L) (s : σ) :
    bitFor find clear body fuel u (find u) s =
      if L.length < fuel then some (runBody body pos L s) else none := by
  induction L generalizing fuel u s with
  | nil =>
    obtain rfl := setBits_eq_nil.mp hu
    cases fuel with
    | zero => rfl
    | succ fuel =>
      rw [bitFor, if_pos rfl]
      simp [runBody]
  | cons k R ih =>
    have hne := ne_zero_of_setBits hu
    obtain ⟨m, hm, hR⟩ := hclear u k R hu
    cases fuel with
    | zero => rfl
    | succ fuel =>
      rw [bitFor, if_neg hne, hfind u k R hu, hm]
      show bitFor find clear body fuel m (find m) (body (pos k) s) = _
      rw [ih fuel hR]
      simp only [List.length_cons, Nat.add_lt_add_iff_right]
      rfl

end Loop

section Clear

variable {n : BitVec w} {k : ℕ} {R : List ℕ}

theorem xorBit_eq (h : setBits n = k :: R) (hw : w < 2 ^ 32) :
    ∃ m, xorBit n (BitVec.ofNat 32 k) = some m ∧ setBits m = R := by
  have hk := (lowest_of_setBits h).lt
  have hpos : (BitVec.ofNat 32 k).toNat = k := Nat.mod_eq_of_lt (hk.trans hw)
  refine ⟨n ^^^ 1#w <<< k, ?_, setBits_xor_shiftLeft h⟩
  unfold xorBit oneShiftLeft
  rw [hpos, if_pos hk]
  rfl

theorem andPred_eq (h : setBits n = k :: R) (pos : BitVec 32) :
    ∃ m, andPred n pos = some m ∧ setBits m = R :=
  ⟨n &&& (n - 1#w), rfl, setBits_and_sub_one h⟩

end Clear

/-- A `ctz` that is right of every word but zero. -/
def CtzCorrect (ctz : BitVec w → BitVec 32) : Prop :=
  ∀ n, n ≠ 0#w → ctz n = BitVec.ofNat 32 (trailingZeros n)

/-- A `ffs` that is right of every word but zero. -/
def FfsCorrect (ffs : BitVec w → BitVec 32) : Prop :=
  ∀ n, n ≠ 0#w → ffs n = BitVec.ofNat 32 (findFirstSet n)

variable {ctz ffs : BitVec w → BitVec 32}

theorem bitFor_xorBit (hctz : CtzCorrect ctz) (hw : w < 2 ^ 32) (body : BitVec 32 → σ → σ)
    (fuel : ℕ) (u : BitVec w) (s : σ) :
    bitFor ctz xorBit body fuel u (ctz u) s =
      if popcount u < fuel then some (runBody body (BitVec.ofNat 32) (setBits u) s) else none := by
  apply bitFor_eq _ _ body fuel rfl
  · intro n k R h
    rw [hctz n (ne_zero_of_setBits h), trailingZeros_of_setBits h]
  · exact fun n k R h => xorBit_eq h hw

theorem bitFor_andPred (hffs : FfsCorrect ffs) (body : BitVec 32 → σ → σ)
    (fuel : ℕ) (u : BitVec w) (s : σ) :
    bitFor ffs andPred body fuel u (ffs u) s =
      if popcount u < fuel then
        some (runBody body (fun k => BitVec.ofNat 32 (k + 1)) (setBits u) s)
      else none := by
  apply bitFor_eq _ _ body fuel rfl
  · intro n k R h
    rw [hffs n (ne_zero_of_setBits h), findFirstSet_of_setBits h]
  · exact fun n k R h => andPred_eq h _

/-- What the two loops over the bits of a word do: they run the body once for each set bit,
in increasing order, with the position and with one plus the position. -/
structure Iterates (σ : Type) (u : BitVec w)
    (loop loopFfs : (BitVec 32 → σ → σ) → ℕ → BitVec w → σ → Option σ) : Prop where
  sorted : (setBits u).Pairwise (· < ·)
  mem : ∀ k, k ∈ setBits u ↔ u.getLsbD k = true
  loop_eq : ∀ body fuel s, loop body fuel u s =
    if popcount u < fuel then some (runBody body (BitVec.ofNat 32) (setBits u) s) else none
  loopFfs_eq : ∀ body fuel s, loopFfs body fuel u s =
    if popcount u < fuel then
      some (runBody body (fun k => BitVec.ofNat 32 (k + 1)) (setBits u) s)
    else none

/-- **Bit iteration.**  With a `ctz` and a `ffs` that are right of every word but zero, the
loops over a word run their body once for each set bit, in increasing order, and end after
as many rounds as there are set bits. -/
theorem bitForEach_iterates {ctz32 ffs32 : BitVec 32 → BitVec 32}
    {ctz64 ffs64 : BitVec 64 → BitVec 32} (hctz32 : CtzCorrect ctz32) (hffs32 : FfsCorrect ffs32)
    (hctz64 : CtzCorrect ctz64) (hffs64 : FfsCorrect ffs64) (σ : Type) :
    (∀ u : BitVec 32, Iterates σ u (bitForEach32 ctz32) (bitForEach32Ffs ffs32)) ∧
      (∀ u : BitVec 64, Iterates σ u (bitForEach64 ctz64) (bitForEach64Ffs ffs64)) := by
  constructor
  · intro u
    constructor
    · exact setBits_sorted u
    · exact fun k => mem_setBits
    · exact fun body fuel s => bitFor_xorBit hctz32 (by decide) body fuel u s
    · exact fun body fuel s => bitFor_andPred hffs32 body fuel u s
  · intro u
    constructor
    · exact setBits_sorted u
    · exact fun k => mem_setBits
    · exact fun body fuel s => bitFor_xorBit hctz64 (by decide) body fuel u s
    · exact fun body fuel s => bitFor_andPred hffs64 body fuel u s

theorem ctzCorrect_builtin (c : Compiler) : CtzCorrect (builtinCtz (w := w) c) := fun n hn => by
  rw [builtinCtz, if_neg hn]

theorem ffsCorrect_builtin : FfsCorrect (builtinFfs (w := w)) := fun _ _ => rfl

theorem bitForEach_iterates_builtin :
    Iterates (List (BitVec 32)) 0x80000005#32 (bitForEach32 (builtinCtz noBuiltins))
      (bitForEach32Ffs builtinFfs) :=
  (bitForEach_iterates (ctzCorrect_builtin noBuiltins) ffsCorrect_builtin
    (ctzCorrect_builtin noBuiltins) ffsCorrect_builtin _).1 0x80000005#32

end Bitops
end Brlib
