import Mathlib.Data.List.Perm.Basic
import Mathlib.Logic.Relation
import Mathlib.Tactic

/-!
# Last-in first-out allocators

An allocator of slots keeps a stack of free slots.  It hands out the slot on top,
takes slots back onto the top, and grows by slots that it did not have before.
In every state that is reached so, the slots are partitioned into the free ones
and those that are handed out (`Sound`).
-/

namespace Brlib
namespace Alloc

/-- All slots, the stack of the free ones, and those handed out. -/
structure Lifo (β : Type*) where
  slots : List β
  free : List β
  held : List β

namespace Lifo

variable {β : Type*}

/-- No slot at all. -/
def empty : Lifo β :=
  ⟨[], [], []⟩

/-- The new slots `xs` on top of the free ones. -/
def grow (xs : List β) (l : Lifo β) : Lifo β :=
  ⟨xs ++ l.slots, xs ++ l.free, l.held⟩

/-- The slot on top goes out. -/
def get (l : Lifo β) : Lifo β :=
  match l.free with
  | [] => l
  | x :: free => ⟨l.slots, free, x :: l.held⟩

/-- A slot comes back. -/
def add [DecidableEq β] (x : β) (l : Lifo β) : Lifo β :=
  ⟨l.slots, x :: l.free, l.held.erase x⟩

/-- No slot is listed twice, and each is either free or handed out. -/
structure Sound (l : Lifo β) : Prop where
  nodup : l.slots.Nodup
  partition : (l.free ++ l.held).Perm l.slots

variable {l : Lifo β} {x : β} {xs free : List β}

theorem empty_sound : (empty : Lifo β).Sound :=
  ⟨List.nodup_nil, List.Perm.refl _⟩

theorem Sound.grow (h : l.Sound) (hxs : xs.Nodup) (hnew : ∀ x ∈ xs, x ∉ l.slots) :
    (l.grow xs).Sound where
  nodup := List.nodup_append.mpr ⟨hxs, h.nodup, fun x hx y hy heq => hnew x hx (heq ▸ hy)⟩
  partition := by
    show (xs ++ l.free ++ l.held).Perm (xs ++ l.slots)
    rw [List.append_assoc]
    exact h.partition.append_left xs

theorem Sound.grow_inv (h : (l.grow xs).Sound) : xs.Nodup ∧ ∀ x ∈ xs, x ∉ l.slots := by
  obtain ⟨hxs, -, hdisjoint⟩ := List.nodup_append.mp h.nodup
  exact ⟨hxs, fun x hx hmem => hdisjoint x hx x hmem rfl⟩

theorem get_cons (hfree : l.free = x :: free) : l.get = ⟨l.slots, free, x :: l.held⟩ := by
  unfold get
  rw [hfree]

theorem Sound.get (h : l.Sound) : l.get.Sound := by
  cases hfree : l.free with
  | nil =>
      have heq : l.get = l := by
        unfold Lifo.get
        rw [hfree]
      rwa [heq]
  | cons x free =>
      rw [get_cons hfree]
      refine ⟨h.nodup, List.perm_middle.trans ?_⟩
      have hpart := h.partition
      rwa [hfree] at hpart

theorem Sound.add [DecidableEq β] (h : l.Sound) (hx : x ∈ l.held) : (l.add x).Sound where
  nodup := h.nodup
  partition := by
    show (x :: l.free ++ l.held.erase x).Perm l.slots
    have herase : (x :: l.held.erase x).Perm l.held := (List.perm_cons_erase hx).symm
    refine List.Perm.trans ?_ h.partition
    exact List.perm_middle.symm.trans (herase.append_left l.free)

/-- What an allocator may do. -/
inductive Step [DecidableEq β] : Lifo β → Lifo β → Prop
  | get (l : Lifo β) : Step l l.get
  | add (l : Lifo β) (x : β) (hx : x ∈ l.held) : Step l (l.add x)
  | grow (l : Lifo β) (xs : List β) (hxs : xs.Nodup) (hnew : ∀ x ∈ xs, x ∉ l.slots) :
      Step l (l.grow xs)

theorem Step.sound [DecidableEq β] {l' : Lifo β} (hstep : Step l l') (h : l.Sound) :
    l'.Sound := by
  cases hstep with
  | get => exact h.get
  | add x hx => exact h.add hx
  | grow xs hxs hnew => exact h.grow hxs hnew

/-- Every run of the allocator keeps the partition. -/
theorem sound_of_run [DecidableEq β] (hrun : Relation.ReflTransGen Step (empty : Lifo β) l) :
    l.Sound := by
  induction hrun with
  | refl => exact empty_sound
  | tail _ hstep ih => exact hstep.sound ih

theorem Sound.nodup_free_held (h : l.Sound) : (l.free ++ l.held).Nodup :=
  h.partition.nodup_iff.mpr h.nodup

theorem Sound.mem_slots (h : l.Sound) : x ∈ l.slots ↔ x ∈ l.free ∨ x ∈ l.held := by
  rw [← h.partition.mem_iff, List.mem_append]

theorem Sound.not_held (h : l.Sound) (hx : x ∈ l.free) : x ∉ l.held := fun hx' =>
  List.disjoint_of_nodup_append h.nodup_free_held hx hx'

end Lifo
end Alloc
end Brlib
