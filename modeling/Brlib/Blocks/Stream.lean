import Mathlib.Tactic

/-!
# A stream cut into blocks

`absorb` folds a function over the full blocks of a list and keeps what is left.  It does so
as well when the list comes in pieces: the rest of one piece goes in front of the next
(`absorb_append`).
-/

namespace Brlib
namespace Blocks

universe u v

variable {α : Type u} {σ : Type v}

/-- Fold `f` over the full blocks of `n` elements of `s`; what is left comes back. -/
def absorb (f : σ → List α → σ) (n : ℕ) (a : σ) (s : List α) : σ × List α :=
  if _h : 0 < n ∧ n ≤ s.length then absorb f n (f a (s.take n)) (s.drop n) else (a, s)
termination_by s.length
decreasing_by
  rw [List.length_drop]
  omega

variable {f : σ → List α → σ} {n : ℕ} {a b : σ} {s t blk : List α}

theorem absorb_short (hs : s.length < n) : absorb f n a s = (a, s) := by
  rw [absorb, dif_neg (by omega)]

theorem absorb_block (hn : 0 < n) (hblk : blk.length = n) :
    absorb f n a (blk ++ s) = absorb f n (f a blk) s := by
  rw [absorb, dif_pos ⟨hn, by simp [hblk]⟩, List.take_left' hblk, List.drop_left' hblk]

theorem block_induction {P : List α → Prop} (hn : 0 < n) (hshort : ∀ s, s.length < n → P s)
    (hblock : ∀ blk s, blk.length = n → P s → P (blk ++ s)) (s : List α) : P s := by
  induction hlen : s.length using Nat.strong_induction_on generalizing s with
  | _ m ih =>
      by_cases hs : s.length < n
      · exact hshort s hs
      · have htake : (s.take n).length = n := List.length_take_of_le (by omega)
        have hrest := ih (s.drop n).length (by rw [List.length_drop]; omega) _ rfl
        have hwhole := hblock (s.take n) (s.drop n) htake hrest
        rwa [List.take_append_drop] at hwhole

theorem length_absorb_lt (hn : 0 < n) (s : List α) : (absorb f n a s).2.length < n := by
  induction s using block_induction hn generalizing a with
  | hshort s hs => simpa [absorb_short hs] using hs
  | hblock blk s hblk ih =>
      rw [absorb_block hn hblk]
      exact ih

theorem exists_append_absorb (hn : 0 < n) (s : List α) :
    ∃ pre, s = pre ++ (absorb f n a s).2 ∧ n ∣ pre.length := by
  induction s using block_induction hn generalizing a with
  | hshort s hs => exact ⟨[], by simp [absorb_short hs], by simp⟩
  | hblock blk s hblk ih =>
      obtain ⟨pre, hpre, hdvd⟩ := @ih (f a blk)
      refine ⟨blk ++ pre, ?_, ?_⟩
      · rw [absorb_block hn hblk, List.append_assoc, ← hpre]
      · rw [List.length_append, hblk]
        exact (Nat.dvd_add_right (dvd_refl n)).mpr hdvd

theorem length_absorb_le (hn : 0 < n) (s : List α) : (absorb f n a s).2.length ≤ s.length := by
  obtain ⟨pre, hpre, -⟩ := exists_append_absorb (f := f) (a := a) hn s
  have hlen := congrArg List.length hpre
  rw [List.length_append] at hlen
  omega

/-- The next piece of a stream goes behind what is left of the pieces so far. -/
theorem absorb_append (hn : 0 < n) (s t : List α) :
    absorb f n a (s ++ t) = absorb f n (absorb f n a s).1 ((absorb f n a s).2 ++ t) := by
  induction s using block_induction hn generalizing a with
  | hshort s hs => rw [absorb_short hs]
  | hblock blk s hblk ih => rw [List.append_assoc, absorb_block hn hblk, absorb_block hn hblk, ih]

theorem absorb_append_of_dvd (hn : 0 < n) (hs : n ∣ s.length) (t : List α) :
    absorb f n a (s ++ t) = absorb f n (absorb f n a s).1 t := by
  have hnil : (absorb f n a s).2 = [] := by
    obtain ⟨pre, hpre, hdvd⟩ := exists_append_absorb (f := f) (a := a) hn s
    have hlt := length_absorb_lt (f := f) (a := a) hn s
    have hrest : n ∣ (absorb f n a s).2.length := by
      have hlen := congrArg List.length hpre
      rw [List.length_append] at hlen
      exact (Nat.dvd_add_right hdvd).mp (hlen ▸ hs)
    exact List.length_eq_zero_iff.mp (Nat.eq_zero_of_dvd_of_lt hrest hlt)
  rw [absorb_append hn, hnil, List.nil_append]

theorem absorb_rest (g : σ → List α → σ) (hn : 0 < n) (s : List α) :
    (absorb f n a s).2 = (absorb g n b s).2 := by
  induction s using block_induction hn generalizing a b with
  | hshort s hs => rw [absorb_short hs, absorb_short hs]
  | hblock blk s hblk ih =>
      rw [absorb_block hn hblk, absorb_block hn hblk]
      exact ih

/-- A relation of two accumulators that every block keeps is kept by a stream. -/
theorem absorb_rel {R : σ → σ → Prop} (hn : 0 < n)
    (hstep : ∀ blk x y, blk.length = n → R x y → R (f x blk) (f y blk)) (hab : R a b) :
    R (absorb f n a s).1 (absorb f n b s).1 := by
  induction s using block_induction hn generalizing a b with
  | hshort s hs => simpa [absorb_short hs] using hab
  | hblock blk s hblk ih =>
      rw [absorb_block hn hblk, absorb_block hn hblk]
      exact ih (hstep blk a b hblk hab)

end Blocks
end Brlib
