import Mathlib.Data.List.Cycle
import Brlib.Heap.Ring

/-!
# A heap of disjoint rings

The abstract view of a memory of linked cells is a multiset of cycles: finite
sequences up to rotation, since a ring has no first cell of its own.
`Mem.Rings` relates the two: every cycle is a well-formed ring of the memory and
no cell occurs twice, neither on one ring nor on two.

A cell that is on a ring can always be brought to the front of its cycle, so
`Rings.cons_iff` is the only access to the relation the operations need, and
`Rings.frame` is what they leave behind.
-/

namespace Brlib
namespace Heap

variable {α : Type*}

/-- All the cells of a collection of cycles. -/
def cells (C : Multiset (Cycle α)) : Multiset α :=
  C.bind Cycle.toMultiset

/-- The cycle of a list of cells; no cells make no cycle. -/
def cycleOf : List α → Multiset (Cycle α)
  | [] => 0
  | x :: l => {((x :: l : List α) : Cycle α)}

section Cells

variable {x : α} {l : List α} {C D : Multiset (Cycle α)}

@[simp] theorem cells_zero : cells (0 : Multiset (Cycle α)) = 0 := rfl

@[simp] theorem cells_cons : cells ((l : Cycle α) ::ₘ C) = l + cells C := by
  simp [cells]

@[simp] theorem cells_add : cells (C + D) = cells C + cells D := by
  simp [cells]

@[simp] theorem cycleOf_nil : cycleOf ([] : List α) = 0 := rfl

@[simp] theorem cycleOf_cons : cycleOf (x :: l) = {((x :: l : List α) : Cycle α)} := rfl

@[simp] theorem cells_cycleOf : cells (cycleOf l) = l := by
  cases l with
  | nil => rfl
  | cons x l => simp [cells]

theorem coe_append_comm (l k : List α) :
    ((l ++ k : List α) : Cycle α) = ((k ++ l : List α) : Cycle α) :=
  Cycle.coe_eq_coe.mpr List.isRotated_append

theorem cycleOf_append_cons (k : List α) :
    cycleOf (l ++ x :: k) = {((x :: (k ++ l) : List α) : Cycle α)} := by
  rw [← List.cons_append, ← coe_append_comm l (x :: k)]
  cases l <;> rfl

theorem mem_cells_of_mem {c : Cycle α} (hc : c ∈ C) (hx : x ∈ c.toMultiset) : x ∈ cells C :=
  Multiset.mem_bind.mpr ⟨c, hc, hx⟩

end Cells

namespace Mem

/-- The memory holds the rings `C`, and no two of them share a cell. -/
structure Rings (m : Mem α) (C : Multiset (Cycle α)) : Prop where
  ring : ∀ c ∈ C, ∃ h l, c = ((h :: l : List α) : Cycle α) ∧ m.Ring h l
  nodup : (cells C).Nodup

variable {m m' : Mem α} {h x : α} {l l' k xs : List α} {C D : Multiset (Cycle α)}

/-- Two lists of the same cycle are rings of the same memories. -/
theorem Ring.of_cycle_eq {h' : α} (hring : m.Ring h l)
    (heq : ((h :: l : List α) : Cycle α) = ((h' :: l' : List α) : Cycle α)) :
    m.Ring h' l' := by
  obtain ⟨a, b, hab, hba⟩ : ∃ a b, h :: l = a ++ b ∧ h' :: l' = b ++ a := by
    obtain ⟨n, hn, hrot⟩ := List.isRotated_iff_mod.mp (Cycle.coe_eq_coe.mp heq)
    rw [List.rotate_eq_drop_append_take hn] at hrot
    exact ⟨_, _, (List.take_append_drop n (h :: l)).symm, hrot.symm⟩
  rcases a with _ | ⟨y, a⟩
  · obtain ⟨rfl, rfl⟩ := List.cons.inj (hab.trans (hba.trans (List.append_nil b)).symm)
    exact hring
  · obtain ⟨rfl, rfl⟩ := List.cons.inj hab
    rcases b with _ | ⟨z, b⟩
    · obtain ⟨rfl, rfl⟩ := List.cons.inj hba
      simpa using hring
    · obtain ⟨rfl, rfl⟩ := List.cons.inj hba
      exact hring.rotate

/-- The predecessor of an anchor and the cell after that predecessor: inserting
before the anchor is inserting after its predecessor. -/
theorem Ring.exists_turn (hring : m.Ring h l) :
    ∃ p r, m.prev h = .addr p ∧ firstOr p r = h ∧
      ∀ t : List α,
        ((p :: (t ++ r) : List α) : Cycle α) = ((h :: (l ++ t) : List α) : Cycle α) := by
  rcases List.eq_nil_or_concat' l with rfl | ⟨l', p, rfl⟩
  · exact ⟨h, [], by simpa using hring.prev_head, rfl, fun t => by simp⟩
  · refine ⟨p, h :: l', by simpa using hring.prev_head, rfl, fun t => ?_⟩
    simpa using coe_append_comm (p :: t) (h :: l')

theorem Rings.cons_iff :
    m.Rings (((h :: l : List α) : Cycle α) ::ₘ C) ↔
      m.Ring h l ∧ m.Rings C ∧ ∀ x ∈ h :: l, x ∉ cells C := by
  constructor
  · intro hrings
    have hnodup : (((h :: l : List α) : Multiset α) + cells C).Nodup := by
      simpa using hrings.nodup
    obtain ⟨-, hC, hdisj⟩ := Multiset.nodup_add.mp hnodup
    obtain ⟨h', l', heq, hring⟩ := hrings.ring _ (Multiset.mem_cons_self _ _)
    refine ⟨hring.of_cycle_eq heq.symm, ⟨?_, hC⟩, ?_⟩
    · exact fun c hc => hrings.ring c (Multiset.mem_cons_of_mem hc)
    · exact fun x hx => Multiset.disjoint_left.mp hdisj (Multiset.mem_coe.mpr hx)
  · rintro ⟨hring, hrings, hdisj⟩
    refine ⟨fun c hc => ?_, ?_⟩
    · rcases Multiset.mem_cons.mp hc with rfl | hc
      · exact ⟨h, l, rfl, hring⟩
      · exact hrings.ring c hc
    · rw [cells_cons]
      refine Multiset.nodup_add.mpr ⟨?_, hrings.nodup, ?_⟩
      · exact Multiset.coe_nodup.mpr hring.nodup
      · exact Multiset.disjoint_left.mpr fun hx => hdisj _ (Multiset.mem_coe.mp hx)

theorem Rings.frame (hrings : m.Rings C) (hsame : SameOutside m m' xs)
    (hout : ∀ x ∈ cells C, x ∉ xs) : m'.Rings C where
  ring c hc := by
    obtain ⟨h, l, rfl, hring⟩ := hrings.ring c hc
    refine ⟨h, l, rfl, hring.frame hsame fun x hx => hout x ?_⟩
    exact mem_cells_of_mem hc (Multiset.mem_coe.mpr hx)
  nodup := hrings.nodup

/-- A cell alone on its ring is on no other ring, so a cell of a longer ring is
not alone. -/
theorem Rings.not_alone {y : α}
    (hrings : m.Rings (((x :: l : List α) : Cycle α) ::ₘ C)) (hy : y ∈ l) :
    (([y] : List α) : Cycle α) ∉ (((x :: l : List α) : Cycle α) ::ₘ C) := by
  obtain ⟨hring, -, hdisj⟩ := Rings.cons_iff.mp hrings
  intro hmem
  rcases Multiset.mem_cons.mp hmem with heq | hmem
  · have hlen := congrArg Cycle.length heq
    simp only [Cycle.length_coe, List.length_cons, List.length_nil] at hlen
    rw [List.length_eq_zero_iff.mp (Nat.succ.inj hlen).symm] at hy
    exact absurd hy List.not_mem_nil
  · refine hdisj y (List.mem_cons_of_mem x hy) ?_
    exact mem_cells_of_mem hmem (by simp)

theorem Rings.update (hrings : m.Rings C) (hring : m'.Ring h l)
    (hsame : SameOutside m m' xs) (hxs : ∀ x ∈ xs, x ∉ cells C)
    (hl : ∀ x ∈ h :: l, x ∉ cells C) :
    m'.Rings (((h :: l : List α) : Cycle α) ::ₘ C) :=
  Rings.cons_iff.mpr
    ⟨hring, hrings.frame hsame fun x hx hmem => hxs x hmem hx, hl⟩

end Mem

end Heap
end Brlib
