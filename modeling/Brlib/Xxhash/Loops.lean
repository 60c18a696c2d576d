import Brlib.Blocks.Stream
import Brlib.Unaligned.Spec
import Brlib.Xxhash.Basic

/-!
# The loops of `xxhash.c` on the bytes they read

A loop over stripes or words is `Blocks.absorb` on the bytes between its two pointers
(`stripeLoop_eq`, `wordLoop_eq`), and leaves the pointers around the rest.  The loops step over
the end of the input before they compare, and the update functions compare with a limit in
front of it, so that the input must keep away from both ends of the address space (`Span`).
-/

namespace Brlib
namespace Xxhash

open Hash Words Unaligned Blocks

/-- The bytes `s` lie between the pointers `p` and `bEnd`, with room for a stripe before and
behind them. -/
structure Span (mem : Bytes) (p bEnd : UInt64) (s : List UInt8) : Prop where
  stored : Stored mem p s
  low : 32 ≤ p.toNat
  size : p.toNat + s.length = bEnd.toNat
  high : bEnd.toNat + 32 < 2 ^ 64

/-- The word of `k` bytes that is stored as `s`. -/
def word (k : ℕ) (s : List UInt8) : BitVec (8 * k) :=
  BitVec.ofNat _ (leValue s)

/-- What a stripe does to the accumulators. -/
def stripeStep {k : ℕ} (round : BitVec (8 * k) → BitVec (8 * k) → BitVec (8 * k))
    (v : Lanes (8 * k)) (blk : List UInt8) : Lanes (8 * k) where
  v1 := round v.v1 (word k (blk.take k))
  v2 := round v.v2 (word k ((blk.drop k).take k))
  v3 := round v.v3 (word k ((blk.drop (2 * k)).take k))
  v4 := round v.v4 (word k ((blk.drop (3 * k)).take k))

variable {mem : Bytes} {p bEnd : UInt64} {s t blk : List UInt8} {fuel k w : ℕ}
variable {cpu : Cpu}

section Span

theorem stored_drop (hstored : Stored mem p (s ++ t)) :
    Stored mem (p + UInt64.ofNat s.length) t := by
  induction s generalizing p with
  | nil => simpa using hstored
  | cons byte s ih =>
      rw [List.length_cons, add_ofNat_succ]
      exact ih hstored.2

theorem Span.toNat_add (hspan : Span mem p bEnd s) {i : ℕ} (hi : i ≤ s.length + 32) :
    (p + UInt64.ofNat i).toNat = p.toNat + i := by
  have hsize := hspan.size
  have hhigh := hspan.high
  rw [UInt64.toNat_add, UInt64.toNat_ofNat']
  omega

theorem Span.drop (hspan : Span mem p bEnd (s ++ t)) :
    Span mem (p + UInt64.ofNat s.length) bEnd t := by
  have hadd := hspan.toNat_add (i := s.length) (by rw [List.length_append]; omega)
  have hlow := hspan.low
  have hsize := hspan.size
  rw [List.length_append] at hsize
  exact ⟨stored_drop hspan.stored, by omega, by omega, hspan.high⟩

theorem Span.lt_iff (hspan : Span mem p bEnd s) : p < bEnd ↔ 0 < s.length := by
  have hsize := hspan.size
  rw [UInt64.lt_iff_toNat_lt]
  omega

theorem Span.add_le_iff (hspan : Span mem p bEnd s) {n : ℕ} (hn : n ≤ 32) :
    p + UInt64.ofNat n ≤ bEnd ↔ n ≤ s.length := by
  have hadd := hspan.toNat_add (i := n) (by omega)
  have hsize := hspan.size
  rw [UInt64.le_iff_toNat_le, hadd]
  omega

theorem Span.le_sub_iff (hspan : Span mem p bEnd s) {n : ℕ} (hn : n ≤ 32) :
    p ≤ bEnd - UInt64.ofNat n ↔ n ≤ s.length := by
  have hsub : (bEnd - UInt64.ofNat n).toNat = bEnd.toNat - n := by
    have hlow := hspan.low
    have hsize := hspan.size
    have hlt := bEnd.toNat_lt
    rw [UInt64.toNat_sub, UInt64.toNat_ofNat']
    omega
  have hlow := hspan.low
  have hsize := hspan.size
  rw [UInt64.le_iff_toNat_le, hsub]
  omega

theorem Span.get_word (hspan : Span mem p bEnd (s ++ t)) (hs : s.length = k) :
    getUnalignedLe cpu k mem p = some (word k s) := by
  subst hs
  exact getUnalignedLe_eq cpu hspan.stored

end Span

section Loops

variable {round : BitVec (8 * k) → BitVec (8 * k) → BitVec (8 * k)} {v : Lanes (8 * k)}

theorem exists_append {α : Type} {s : List α} {n m : ℕ} (hs : s.length = n + m) :
    ∃ a b, s = a ++ b ∧ a.length = n ∧ b.length = m :=
  ⟨s.take n, s.drop n, (List.take_append_drop n s).symm, List.length_take_of_le (by omega),
    by rw [List.length_drop]; omega⟩

theorem stripeStep_append {a b c d : List UInt8} (ha : a.length = k) (hb : b.length = k)
    (hc : c.length = k) (hd : d.length = k) :
    stripeStep round v (a ++ (b ++ (c ++ d))) =
      ⟨round v.v1 (word k a), round v.v2 (word k b), round v.v3 (word k c),
        round v.v4 (word k d)⟩ := by
  have hdrop₁ : (a ++ (b ++ (c ++ d))).drop k = b ++ (c ++ d) := List.drop_left' ha
  have hdrop₂ : (a ++ (b ++ (c ++ d))).drop (2 * k) = c ++ d := by
    rw [Nat.two_mul, ← List.drop_drop, hdrop₁, List.drop_left' hb]
  have hdrop₃ : (a ++ (b ++ (c ++ d))).drop (3 * k) = d := by
    rw [show 3 * k = 2 * k + k by omega, ← List.drop_drop, hdrop₂, List.drop_left' hc]
  rw [stripeStep, hdrop₁, hdrop₂, hdrop₃, List.take_left' ha, List.take_left' hb,
    List.take_left' hc, List.take_of_length_le hd.le]

variable (cpu round v)

/-- The stripe between the pointers goes into the accumulators. -/
theorem stripe_eq (hspan : Span mem p bEnd (blk ++ s)) (hblk : blk.length = 4 * k) :
    ∃ q, stripe cpu round mem p v = some (q, stripeStep round v blk) ∧ Span mem q bEnd s := by
  obtain ⟨a, blk', rfl, ha, hblk'⟩ := exists_append (show blk.length = k + 3 * k by omega)
  obtain ⟨b, blk'', rfl, hb, hblk''⟩ := exists_append (show blk'.length = k + 2 * k by omega)
  obtain ⟨c, d, rfl, hc, hd⟩ := exists_append (show blk''.length = k + k by omega)
  simp only [List.append_assoc] at hspan
  have hspan₁ := hspan.drop
  rw [ha] at hspan₁
  have hspan₂ := hspan₁.drop
  rw [hb] at hspan₂
  have hspan₃ := hspan₂.drop
  rw [hc] at hspan₃
  have hspan₄ := hspan₃.drop
  rw [hd] at hspan₄
  refine ⟨_, ?_, hspan₄⟩
  rw [stripeStep_append ha hb hc hd]
  simp only [stripe, hspan.get_word ha, hspan₁.get_word hb, hspan₂.get_word hc,
    hspan₃.get_word hd, Option.bind_eq_bind, Option.bind_some]

theorem stripeLoop_eq (hk : 0 < k) (hstripe : 4 * k ≤ 32) (hspan : Span mem p bEnd s)
    (hs : 4 * k ≤ s.length) (hfuel : s.length < fuel) :
    ∃ q, stripeLoop cpu round mem (bEnd - UInt64.ofNat (4 * k)) fuel p v =
        some (q, (absorb (stripeStep round) (4 * k) v s).1) ∧
      Span mem q bEnd (absorb (stripeStep round) (4 * k) v s).2 := by
  have hpos : 0 < 4 * k := by omega
  induction s using block_induction hpos generalizing p v fuel with
  | hshort s hshort => omega
  | hblock blk s hblk ih =>
      obtain ⟨fuel, rfl⟩ : ∃ n, fuel = n + 1 := ⟨fuel - 1, by omega⟩
      obtain ⟨q, hstripe_eq, hspan'⟩ := stripe_eq cpu round v hspan hblk
      rw [absorb_block hpos hblk]
      simp only [stripeLoop, hstripe_eq, Option.bind_eq_bind, Option.bind_some,
        hspan'.le_sub_iff hstripe]
      by_cases hmore : 4 * k ≤ s.length
      · rw [if_pos hmore]
        rw [List.length_append] at hfuel
        exact ih _ hspan' hmore (by omega)
      · rw [if_neg hmore, absorb_short (by omega)]
        exact ⟨q, rfl, hspan'⟩

theorem wordLoop_eq (mix : BitVec w → BitVec (8 * k) → BitVec w) (hash : BitVec w) (hk : 0 < k)
    (hword : k ≤ 32) (hspan : Span mem p bEnd s) (hfuel : s.length < fuel) :
    ∃ q, wordLoop cpu mix mem bEnd fuel p hash =
        some (q, (absorb (fun hash blk => mix hash (word k blk)) k hash s).1) ∧
      Span mem q bEnd (absorb (fun hash blk => mix hash (word k blk)) k hash s).2 := by
  induction s using block_induction hk generalizing p hash fuel with
  | hshort s hs =>
      obtain ⟨fuel, rfl⟩ : ∃ n, fuel = n + 1 := ⟨fuel - 1, by omega⟩
      rw [absorb_short hs, wordLoop, if_neg ((hspan.add_le_iff hword).not.mpr (by omega))]
      exact ⟨p, rfl, hspan⟩
  | hblock blk s hblk ih =>
      obtain ⟨fuel, rfl⟩ : ∃ n, fuel = n + 1 := ⟨fuel - 1, by omega⟩
      have hle : p + UInt64.ofNat k ≤ bEnd :=
        (hspan.add_le_iff hword).mpr (by rw [List.length_append]; omega)
      have hspan' := hspan.drop
      rw [hblk] at hspan'
      rw [List.length_append] at hfuel
      rw [absorb_block hk hblk]
      simp only [wordLoop, if_pos hle, hspan.get_word hblk, Option.bind_eq_bind, Option.bind_some]
      exact ih _ hspan' (by omega)

theorem byteLoop_eq (mix : BitVec w → BitVec w → BitVec w) (hash : BitVec w)
    (hspan : Span mem p bEnd s) (hfuel : s.length < fuel) :
    byteLoop mix mem bEnd fuel p hash =
      some (s.foldl (fun hash byte => mix hash (byte.toBitVec.setWidth w)) hash) := by
  induction s generalizing p hash fuel with
  | nil =>
      obtain ⟨fuel, rfl⟩ : ∃ n, fuel = n + 1 := ⟨fuel - 1, by omega⟩
      rw [byteLoop, if_neg (hspan.lt_iff.not.mpr (by simp))]
      rfl
  | cons byte s ih =>
      obtain ⟨fuel, rfl⟩ : ∃ n, fuel = n + 1 := ⟨fuel - 1, by omega⟩
      have hspan' : Span mem (p + 1) bEnd s := Span.drop (s := [byte]) hspan
      simp only [byteLoop, if_pos (hspan.lt_iff.mpr (by simp)), readWord, UInt64.add_zero,
        hspan.stored.1, Option.bind_eq_bind, Option.bind_some, List.foldl_cons]
      exact ih _ hspan' (by simpa using hfuel)

end Loops

end Xxhash
end Brlib
