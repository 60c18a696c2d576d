import Brlib.Heap.Slot
import Brlib.ListHead.Basic

/-!
# The null-terminated lists of `list.h`

`struct hlist_head` and `struct hlist_node`; a `struct hlist_node **` is a pointer to a
slot.  The functions stand in the order of the source, and a function that follows an
invalid pointer returns nothing.
-/

namespace Brlib
namespace Hlist

open Heap SlotMem ListHead

variable {β α : Type}

/-- `&h->first` -/
def firstSlot : Ptr β → Ptr (Slot β α)
  | .addr h => .addr (.first h)
  | _ => .junk 0

/-- `&n->next` -/
def nextSlot : Ptr α → Ptr (Slot β α)
  | .addr n => .addr (.next n)
  | _ => .junk 0

variable [DecidableEq β] [DecidableEq α]

/-- `hlist_unhashed` -/
def hlistUnhashed (h : Ptr α) (m : SlotMem β α) : Option Bool := do
  let pprev ← m.getPprev h
  some (pprev = .null)

omit [DecidableEq β] in
/-- `hlist_empty` -/
def hlistEmpty (h : Ptr β) (m : SlotMem β α) : Option Bool := do
  let first ← m.load (firstSlot h)
  some (first = .null)

/-- `INIT_HLIST_HEAD` -/
def initHlistHead (ptr : Ptr β) (m : SlotMem β α) : Option (SlotMem β α) :=
  m.store (firstSlot ptr) .null

/-- `INIT_HLIST_NODE` -/
def initHlistNode (h : Ptr α) (m : SlotMem β α) : Option (SlotMem β α) := do
  let m ← m.store (nextSlot h) .null
  m.setPprev h .null

/-- `__hlist_del` -/
def _hlistDel (n : Ptr α) (m : SlotMem β α) : Option (SlotMem β α) := do
  let next ← m.load (nextSlot n)
  let pprev ← m.getPprev n
  let m ← m.store pprev next
  if next ≠ .null then m.setPprev next pprev else some m

/-- `hlist_del` -/
def hlistDel (n : Ptr α) (m : SlotMem β α) : Option (SlotMem β α) := do
  let m ← _hlistDel n m
  let m ← m.store (nextSlot n) listPoison1
  m.setPprev n listPoison2

/-- `hlist_del_init` -/
def hlistDelInit (n : Ptr α) (m : SlotMem β α) : Option (SlotMem β α) := do
  let unhashed ← hlistUnhashed n m
  if !unhashed then
    let m ← _hlistDel n m
    initHlistNode n m
  else some m

/-- The second store of `hlist_add_head`: `first->pprev = &n->next`, unless null. -/
def setFirstPprev (first n : Ptr α) (m : SlotMem β α) : Option (SlotMem β α) :=
  if first ≠ .null then m.setPprev first (nextSlot n) else some m

/-- `hlist_add_head` -/
def hlistAddHead (n : Ptr α) (h : Ptr β) (m : SlotMem β α) : Option (SlotMem β α) := do
  let first ← m.load (firstSlot h)
  let m ← m.store (nextSlot n) first
  let m ← setFirstPprev first n m
  let m ← m.store (firstSlot h) n
  m.setPprev n (firstSlot h)

/-- `hlist_add_before` -/
def hlistAddBefore (n next : Ptr α) (m : SlotMem β α) : Option (SlotMem β α) := do
  let pprev ← m.getPprev next
  let m ← m.setPprev n pprev
  let m ← m.store (nextSlot n) next
  let m ← m.setPprev next (nextSlot n)
  let slot ← m.getPprev n
  m.store slot n

/-- `hlist_add_behind` -/
def hlistAddBehind (n prev : Ptr α) (m : SlotMem β α) : Option (SlotMem β α) := do
  let next ← m.load (nextSlot prev)
  let m ← m.store (nextSlot n) next
  let m ← m.store (nextSlot prev) n
  let m ← m.setPprev n (nextSlot prev)
  let next ← m.load (nextSlot n)
  if next ≠ .null then m.setPprev next (nextSlot n) else some m

/-- `hlist_add_fake` -/
def hlistAddFake (n : Ptr α) (m : SlotMem β α) : Option (SlotMem β α) :=
  m.setPprev n (nextSlot n)

/-- `hlist_fake` -/
def hlistFake (h : Ptr α) (m : SlotMem β α) : Option Bool := do
  let pprev ← m.getPprev h
  some (pprev = nextSlot h)

/-- `hlist_is_singular_node` -/
def hlistIsSingularNode (n : Ptr α) (h : Ptr β) (m : SlotMem β α) : Option Bool := do
  let next ← m.load (nextSlot n)
  if next = .null then
    let pprev ← m.getPprev n
    some (pprev = firstSlot h)
  else some false

/-- `hlist_move_list` -/
def hlistMoveList (old new : Ptr β) (m : SlotMem β α) : Option (SlotMem β α) := do
  let first ← m.load (firstSlot old)
  let m ← m.store (firstSlot new) first
  let first ← m.load (firstSlot new)
  let m ← if first ≠ .null then m.setPprev first (firstSlot new) else some m
  m.store (firstSlot old) .null

end Hlist
end Brlib
