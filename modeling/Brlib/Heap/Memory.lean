import Mathlib.Logic.Function.Basic
import Mathlib.Tactic

/-!
# A memory of doubly linked cells

The memory maps the address of every cell to its two pointer fields, `next` and
`prev`.  Addresses are an arbitrary type `α`: one instance uses machine words,
another one uses symbolic names of the fields of a structure.

Every access through a pointer may fault.  A pointer faults when it is null,
when it is one of the junk constants a program stores to poison a field, or
when the cell it points to is not live (never allocated, or released).  A
faulting access has no successor memory, so a program that returns a memory has
dereferenced live cells only.
-/

namespace Brlib
namespace Heap

/-- The value of a pointer: null, a recognizable constant that is the address
of no object, or the address of a cell. -/
inductive Ptr (α : Type*) where
  | null
  | junk (tag : Nat)
  | addr (a : α)
deriving DecidableEq, Repr

/-- Two pointer fields for each address, and which addresses are live. -/
structure Mem (α : Type*) where
  live : α → Bool
  next : α → Ptr α
  prev : α → Ptr α

namespace Mem

variable {α : Type*}

/-- The address a pointer leads to; none is a fault. -/
def deref (m : Mem α) : Ptr α → Option α
  | .addr a => if m.live a then some a else none
  | _ => none

/-- The total update of one `next` field. -/
def putNext [DecidableEq α] (m : Mem α) (a : α) (v : Ptr α) : Mem α :=
  { m with next := Function.update m.next a v }

/-- The total update of one `prev` field. -/
def putPrev [DecidableEq α] (m : Mem α) (a : α) (v : Ptr α) : Mem α :=
  { m with prev := Function.update m.prev a v }

/-- Read `p->next`. -/
def getNext (m : Mem α) (p : Ptr α) : Option (Ptr α) :=
  (m.deref p).map m.next

/-- Read `p->prev`. -/
def getPrev (m : Mem α) (p : Ptr α) : Option (Ptr α) :=
  (m.deref p).map m.prev

/-- Write `p->next = v`. -/
def setNext [DecidableEq α] (m : Mem α) (p v : Ptr α) : Option (Mem α) :=
  (m.deref p).map fun a => m.putNext a v

/-- Write `p->prev = v`. -/
def setPrev [DecidableEq α] (m : Mem α) (p v : Ptr α) : Option (Mem α) :=
  (m.deref p).map fun a => m.putPrev a v

section Fields

variable [DecidableEq α] (m : Mem α) (a b : α) (v : Ptr α)

@[simp] theorem putNext_next :
    (m.putNext a v).next b = if b = a then v else m.next b := by
  simp [putNext, Function.update_apply]

@[simp] theorem putNext_prev : (m.putNext a v).prev = m.prev := rfl

@[simp] theorem putNext_live : (m.putNext a v).live = m.live := rfl

@[simp] theorem putPrev_next : (m.putPrev a v).next = m.next := rfl

@[simp] theorem putPrev_prev :
    (m.putPrev a v).prev b = if b = a then v else m.prev b := by
  simp [putPrev, Function.update_apply]

@[simp] theorem putPrev_live : (m.putPrev a v).live = m.live := rfl

end Fields

section Access

variable {m : Mem α} {a : α}

@[simp] theorem deref_null : m.deref .null = none := rfl

@[simp] theorem deref_junk (tag : Nat) : m.deref (.junk tag) = none := rfl

@[simp] theorem deref_addr (hlive : m.live a = true) :
    m.deref (.addr a) = some a := by
  simp [deref, hlive]

@[simp] theorem getNext_addr (hlive : m.live a = true) :
    m.getNext (.addr a) = some (m.next a) := by
  simp [getNext, hlive]

@[simp] theorem getPrev_addr (hlive : m.live a = true) :
    m.getPrev (.addr a) = some (m.prev a) := by
  simp [getPrev, hlive]

@[simp] theorem setNext_addr [DecidableEq α] (hlive : m.live a = true) (v : Ptr α) :
    m.setNext (.addr a) v = some (m.putNext a v) := by
  simp [setNext, hlive]

@[simp] theorem setPrev_addr [DecidableEq α] (hlive : m.live a = true) (v : Ptr α) :
    m.setPrev (.addr a) v = some (m.putPrev a v) := by
  simp [setPrev, hlive]

theorem live_of_setNext [DecidableEq α] {m' : Mem α} {p v : Ptr α} (h : m.setNext p v = some m') :
    (∀ a, p = .addr a → m.live a = true) ∧ m'.live = m.live := by
  unfold setNext at h
  obtain ⟨b, hb, rfl⟩ := Option.map_eq_some_iff.mp h
  refine ⟨?_, rfl⟩
  rintro a rfl
  unfold deref at hb
  by_contra hdead
  simp [hdead] at hb

theorem live_of_setPrev [DecidableEq α] {m' : Mem α} {p v : Ptr α} (h : m.setPrev p v = some m') :
    m'.live = m.live := by
  unfold setPrev at h
  obtain ⟨b, -, rfl⟩ := Option.map_eq_some_iff.mp h
  rfl

end Access

/-- `SameOutside m m' xs`: the fields of every cell not listed in `xs` are the
same in both memories, and the same cells are live. -/
structure SameOutside (m m' : Mem α) (xs : List α) : Prop where
  live : m'.live = m.live
  next : ∀ x, x ∉ xs → m'.next x = m.next x
  prev : ∀ x, x ∉ xs → m'.prev x = m.prev x

namespace SameOutside

variable {m m' m'' : Mem α} {xs ys : List α}

theorem refl (m : Mem α) (xs : List α) : SameOutside m m xs :=
  ⟨rfl, fun _ _ => rfl, fun _ _ => rfl⟩

theorem trans (h : SameOutside m m' xs) (h' : SameOutside m' m'' xs) :
    SameOutside m m'' xs where
  live := h'.live.trans h.live
  next x hx := (h'.next x hx).trans (h.next x hx)
  prev x hx := (h'.prev x hx).trans (h.prev x hx)

theorem mono (h : SameOutside m m' xs) (hsub : xs ⊆ ys) :
    SameOutside m m' ys where
  live := h.live
  next x hx := h.next x fun hmem => hx (hsub hmem)
  prev x hx := h.prev x fun hmem => hx (hsub hmem)

theorem putNext [DecidableEq α] {a : α} (h : SameOutside m m' xs) (ha : a ∈ xs) (v : Ptr α) :
    SameOutside m (m'.putNext a v) xs where
  live := h.live
  next x hx := by
    have hne : x ≠ a := fun heq => hx (heq ▸ ha)
    simpa [hne] using h.next x hx
  prev x hx := by simpa using h.prev x hx

theorem putPrev [DecidableEq α] {a : α} (h : SameOutside m m' xs) (ha : a ∈ xs) (v : Ptr α) :
    SameOutside m (m'.putPrev a v) xs where
  live := h.live
  next x hx := by simpa using h.next x hx
  prev x hx := by
    have hne : x ≠ a := fun heq => hx (heq ▸ ha)
    simpa [hne] using h.prev x hx

end SameOutside

end Mem

end Heap
end Brlib
