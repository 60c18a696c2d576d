import Mathlib.Tactic

/-!
# Arcs of a circle of cells

The cells of a circular buffer are the numbers below `n`, and behind the last one comes the
first again.  An arc is a run of cells; it is one interval up to the last cell, and another one
from the first cell on (`arc_eq`).  Arcs that follow one another do not overlap as long as they
take at most one turn (`disjoint_arc`).
-/

namespace Brlib
namespace Circ

open Finset

variable {n a c d : ℕ}

/-- The `c` cells from the cell `a` on. -/
def arc (n a c : ℕ) : Finset ℕ :=
  (range c).image fun j => (a + j) % n

theorem mem_arc {x : ℕ} : x ∈ arc n a c ↔ ∃ j < c, (a + j) % n = x := by
  simp [arc]

theorem arc_mono (hcd : c ≤ d) : arc n a c ⊆ arc n a d :=
  image_subset_image (range_subset_range.mpr hcd)

theorem arc_add : arc n a (c + d) = arc n a c ∪ arc n ((a + c) % n) d := by
  ext x
  simp only [mem_union, mem_arc, Nat.mod_add_mod]
  constructor
  · rintro ⟨j, hj, rfl⟩
    by_cases hjc : j < c
    · exact .inl ⟨j, hjc, rfl⟩
    · refine .inr ⟨j - c, by omega, ?_⟩
      rw [Nat.add_assoc, Nat.add_sub_cancel' (by omega)]
  · rintro (⟨j, hj, rfl⟩ | ⟨j, hj, rfl⟩)
    · exact ⟨j, by omega, rfl⟩
    · exact ⟨c + j, by omega, by rw [Nat.add_assoc]⟩

/-- Within one turn no cell is met twice. -/
theorem offset_injOn (hc : c ≤ n) : Set.InjOn (fun j => (a + j) % n) (range c) := by
  intro i hi j hj heq
  rw [mem_coe, mem_range] at hi hj
  have hmod : i ≡ j [MOD n] := Nat.ModEq.add_left_cancel' a heq
  exact Nat.ModEq.eq_of_lt_of_lt hmod (by omega) (by omega)

theorem card_arc (hc : c ≤ n) : #(arc n a c) = c := by
  rw [arc, card_image_of_injOn (offset_injOn hc), card_range]

theorem disjoint_arc (hcd : c + d ≤ n) : Disjoint (arc n a c) (arc n ((a + c) % n) d) := by
  rw [← card_union_eq_card_add_card, ← arc_add, card_arc hcd, card_arc (by omega),
    card_arc (by omega)]

theorem arc_eq (ha : a < n) (hc : c ≤ n) :
    arc n a c = Ico a (a + min c (n - a)) ∪ range (c - min c (n - a)) := by
  ext x
  simp only [mem_arc, mem_union, mem_Ico, mem_range]
  constructor
  · rintro ⟨j, hj, rfl⟩
    by_cases hend : a + j < n
    · rw [Nat.mod_eq_of_lt hend]
      omega
    · have hwrap : (a + j) % n = a + j - n := by
        rw [Nat.mod_eq_sub_mod (by omega), Nat.mod_eq_of_lt (by omega)]
      omega
  · rintro (hx | hx)
    · exact ⟨x - a, by omega, by rw [Nat.add_sub_cancel' hx.1, Nat.mod_eq_of_lt (by omega)]⟩
    · refine ⟨x + n - a, by omega, ?_⟩
      rw [show a + (x + n - a) = x + n by omega, Nat.add_mod_right, Nat.mod_eq_of_lt (by omega)]

/-- One turn is the whole circle, and without its last cell all of it but that cell. -/
theorem arc_but_last (hn : 0 < n) : arc n a (n - 1) = (range n).erase ((a + (n - 1)) % n) := by
  have hsub : arc n a n ⊆ range n := by
    intro x hx
    obtain ⟨j, -, rfl⟩ := mem_arc.mp hx
    exact mem_range.mpr (Nat.mod_lt _ hn)
  have hall : arc n a n = range n :=
    eq_of_subset_of_card_le hsub (by rw [card_range, card_arc le_rfl])
  have hlast : arc n a n = arc n a (n - 1) ∪ {(a + (n - 1)) % n} := by
    have hadd := @arc_add n a (n - 1) 1
    rw [Nat.sub_add_cancel hn] at hadd
    simpa [arc] using hadd
  have hout : (a + (n - 1)) % n ∉ arc n a (n - 1) := by
    have hdisj := @disjoint_arc n a (n - 1) 1 (by omega)
    simpa [arc] using disjoint_right.mp hdisj (mem_arc.mpr ⟨0, Nat.one_pos, rfl⟩)
  rw [← hall, hlast, union_comm, ← insert_eq, erase_insert hout]

end Circ
end Brlib
