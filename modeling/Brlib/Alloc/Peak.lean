import Mathlib.Algebra.Order.Floor.Div
import Mathlib.Algebra.Order.Floor.Semiring
import Brlib.Alloc.Lifo

/-!
# Allocators that grow only when they must

When an allocator grows by blocks of `g` slots, and only when no slot is free, then the number
of its blocks is what its greatest demand needs: the peak of the number of slots handed out,
divided by `g` and rounded up (`Lazy.blocks_eq`).
-/

namespace Brlib
namespace Alloc
namespace Lifo

variable {β : Type*} {l : Lifo β} {g peak k : ℕ} {x : β} {xs free : List β}

/-- The allocator has `k` blocks of `g` slots, and `peak` slots at most were handed out at a
time, which fewer blocks do not have. -/
structure Lazy (g peak k : ℕ) (l : Lifo β) : Prop where
  sound : l.Sound
  slots : l.slots.length = g * k
  held_le : l.held.length ≤ peak
  peak_le : peak ≤ g * k
  peak_gt : g * k < peak + g

namespace Lazy

theorem empty (hg : 0 < g) : Lazy g 0 0 (Lifo.empty : Lifo β) :=
  ⟨empty_sound, rfl, le_rfl, Nat.zero_le _, by simpa using hg⟩

/-- No more slots are handed out than there are. -/
theorem length_eq (h : l.Lazy g peak k) : l.free.length + l.held.length = g * k := by
  rw [← List.length_append, h.sound.partition.length_eq, h.slots]

theorem blocks_eq (h : l.Lazy g peak k) : k = peak ⌈/⌉ g := by
  have hg : 0 < g := by
    have hle := h.peak_le
    have hgt := h.peak_gt
    omega
  apply le_antisymm
  · by_contra hlt
    have hle : peak ⌈/⌉ g ≤ k - 1 := by omega
    rw [ceilDiv_le_iff_le_mul hg, Nat.mul_sub, Nat.mul_one] at hle
    have hgt := h.peak_gt
    have hpos : 1 ≤ k := by omega
    have hmul : g * 1 ≤ g * k := Nat.mul_le_mul_left g hpos
    omega
  · exact (ceilDiv_le_iff_le_mul hg).mpr h.peak_le

theorem get (h : l.Lazy g peak k) (hfree : l.free ≠ []) :
    l.get.Lazy g (max peak l.get.held.length) k := by
  have hlength := h.length_eq
  obtain ⟨y, free, hcons⟩ := List.exists_cons_of_ne_nil hfree
  have hsound := h.sound.get
  rw [get_cons hcons] at hsound ⊢
  rw [hcons, List.length_cons] at hlength
  have hle := h.peak_le
  have hgt := h.peak_gt
  refine ⟨hsound, h.slots, le_max_right _ _, max_le hle ?_, ?_⟩
  · rw [List.length_cons]
    omega
  · omega

theorem add [DecidableEq β] (h : l.Lazy g peak k) (hx : x ∈ l.held) :
    (l.add x).Lazy g (max peak (l.add x).held.length) k := by
  have hle : (l.add x).held.length ≤ peak :=
    (List.length_erase_le).trans h.held_le
  rw [max_eq_left hle]
  exact ⟨h.sound.add hx, h.slots, hle, h.peak_le, h.peak_gt⟩

/-- No slot is free: a new block is needed for the slot that goes out. -/
theorem grow_get (h : l.Lazy g peak k) (hfree : l.free = []) (hsound : (l.grow xs).Sound)
    (hxs : xs.length = g) (hg : 0 < g) :
    (l.grow xs).get.Lazy g (max peak (l.grow xs).get.held.length) (k + 1) := by
  have hlength := h.length_eq
  rw [hfree, List.length_nil, Nat.zero_add] at hlength
  obtain ⟨y, ys, rfl⟩ : ∃ y ys, xs = y :: ys :=
    List.exists_cons_of_length_pos (hxs.symm ▸ hg)
  have hcons : (l.grow (y :: ys)).free = y :: (ys ++ l.free) := rfl
  have hget := hsound.get
  rw [get_cons hcons] at hget ⊢
  have hle := h.peak_le
  have hheld := h.held_le
  have hheld_length : (y :: (l.grow (y :: ys)).held).length = g * k + 1 := by
    rw [List.length_cons]
    exact congrArg Nat.succ hlength
  have hmul : g * (k + 1) = g * k + g := Nat.mul_succ g k
  rw [hheld_length]
  refine ⟨hget, ?_, ?_, max_le (by omega) (by omega), by omega⟩
  · show ((y :: ys) ++ l.slots).length = _
    rw [List.length_append, hxs, h.slots, hmul, Nat.add_comm]
  · exact hheld_length.le.trans (le_max_right _ _)

theorem stay (h : l.Lazy g peak k) : l.Lazy g (max peak l.held.length) k := by
  rw [max_eq_left h.held_le]
  exact h

end Lazy

end Lifo
end Alloc
end Brlib
