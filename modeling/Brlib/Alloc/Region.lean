import Mathlib.Tactic

/-!
# Regions of memory

A region is a run of addresses.  An allocator carves regions into slots: the slots
of a block are disjoint and lie within the block (`slot_disjoint`, `slot_within`),
and whatever lies within disjoint regions is disjoint (`Disjoint.mono`).
-/

namespace Brlib
namespace Alloc

/-- The addresses from `base` on, `size` of them. -/
structure Region where
  base : ℕ
  size : ℕ
deriving DecidableEq, Repr

namespace Region

/-- Every address of `r` is one of `q`. -/
def Within (r q : Region) : Prop :=
  q.base ≤ r.base ∧ r.base + r.size ≤ q.base + q.size

/-- No address of `r` is one of `q`. -/
def Disjoint (r q : Region) : Prop :=
  r.base + r.size ≤ q.base ∨ q.base + q.size ≤ r.base

instance (r q : Region) : Decidable (r.Within q) := by
  unfold Within
  infer_instance

instance (r q : Region) : Decidable (r.Disjoint q) := by
  unfold Disjoint
  infer_instance

/-- The `i`th of the slots of `elt` addresses each that begin at `base`. -/
def slot (base elt i : ℕ) : Region :=
  ⟨base + i * elt, elt⟩

variable {r r' q q' : Region} {base elt i j n : ℕ}

theorem Within.refl (r : Region) : r.Within r :=
  ⟨le_refl _, le_refl _⟩

theorem Within.trans (h : r.Within q) (h' : q.Within q') : r.Within q' := by
  unfold Within at *
  omega

theorem Disjoint.symm (h : r.Disjoint q) : q.Disjoint r :=
  Or.symm h

instance : Std.Symm Region.Disjoint :=
  ⟨fun _ _ => Disjoint.symm⟩

theorem Disjoint.mono (h : r.Disjoint q) (hr : r'.Within r) (hq : q'.Within q) :
    r'.Disjoint q' := by
  unfold Within Disjoint at *
  omega

/-- Disjoint regions begin at different addresses, unless one of them is empty. -/
theorem Disjoint.base_ne (h : r.Disjoint q) (hr : 0 < r.size) (hq : 0 < q.size) :
    r.base ≠ q.base := by
  unfold Disjoint at h
  omega

theorem slot_within (hi : i < n) : (slot base elt i).Within ⟨base, n * elt⟩ := by
  have hmul : (i + 1) * elt ≤ n * elt := Nat.mul_le_mul_right elt hi
  have hsucc : (i + 1) * elt = i * elt + elt := Nat.succ_mul i elt
  unfold Within slot
  simp only
  omega

theorem slot_disjoint (hij : i ≠ j) : (slot base elt i).Disjoint (slot base elt j) := by
  rcases Nat.lt_or_gt_of_ne hij with h | h
  · have hwithin : (slot base elt i).Within ⟨base, j * elt⟩ := slot_within h
    unfold Within slot at hwithin
    unfold Disjoint slot
    simp only at hwithin ⊢
    omega
  · have hwithin : (slot base elt j).Within ⟨base, i * elt⟩ := slot_within h
    unfold Within slot at hwithin
    unfold Disjoint slot
    simp only at hwithin ⊢
    omega

end Region
end Alloc
end Brlib
