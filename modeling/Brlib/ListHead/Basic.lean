import Brlib.Heap.Memory

/-!
# The circular lists of `list.h`

`struct list_head` is a cell of the memory, and a pointer to it is a `Ptr`.
Each function takes the memory before the call and returns the memory after
it, or nothing when the call dereferences an invalid pointer.  The stores and
loads stand in the order of the source, since neighbours may coincide with one
another and with the arguments.
-/

namespace Brlib
namespace ListHead

open Heap

variable {α : Type}

/-- `LIST_POISON1` -/
def listPoison1 : Ptr α := .junk 0x100

/-- `LIST_POISON2` -/
def listPoison2 : Ptr α := .junk 0x200

section Stores

variable [DecidableEq α]

/-- `INIT_LIST_HEAD` -/
def initListHead (list : Ptr α) (m : Mem α) : Option (Mem α) := do
  let m ← m.setNext list list
  m.setPrev list list

/-- `__list_add` -/
def _listAdd (new prev next : Ptr α) (m : Mem α) : Option (Mem α) := do
  let m ← m.setPrev next new
  let m ← m.setNext new next
  let m ← m.setPrev new prev
  m.setNext prev new

/-- `list_add` -/
def listAdd (new head : Ptr α) (m : Mem α) : Option (Mem α) := do
  let next ← m.getNext head
  _listAdd new head next m

/-- `list_add_tail` -/
def listAddTail (new head : Ptr α) (m : Mem α) : Option (Mem α) := do
  let prev ← m.getPrev head
  _listAdd new prev head m

/-- `__list_del` -/
def _listDel (prev next : Ptr α) (m : Mem α) : Option (Mem α) := do
  let m ← m.setPrev next prev
  m.setNext prev next

/-- `__list_del_entry` -/
def _listDelEntry (entry : Ptr α) (m : Mem α) : Option (Mem α) := do
  let prev ← m.getPrev entry
  let next ← m.getNext entry
  _listDel prev next m

/-- `list_del` -/
def listDel (entry : Ptr α) (m : Mem α) : Option (Mem α) := do
  let m ← _listDelEntry entry m
  let m ← m.setNext entry listPoison1
  m.setPrev entry listPoison2

/-- `list_replace` -/
def listReplace (old new : Ptr α) (m : Mem α) : Option (Mem α) := do
  let oldNext ← m.getNext old
  let m ← m.setNext new oldNext
  let newNext ← m.getNext new
  let m ← m.setPrev newNext new
  let oldPrev ← m.getPrev old
  let m ← m.setPrev new oldPrev
  let newPrev ← m.getPrev new
  m.setNext newPrev new

/-- `list_replace_init` -/
def listReplaceInit (old new : Ptr α) (m : Mem α) : Option (Mem α) := do
  let m ← listReplace old new m
  initListHead old m

/-- `list_swap` -/
def listSwap (entry1 entry2 : Ptr α) (m : Mem α) : Option (Mem α) := do
  let pos ← m.getPrev entry2
  let m ← listDel entry2 m
  let m ← listReplace entry1 entry2 m
  let pos := if pos = entry1 then entry2 else pos
  listAdd entry1 pos m

/-- `list_del_init` -/
def listDelInit (entry : Ptr α) (m : Mem α) : Option (Mem α) := do
  let m ← _listDelEntry entry m
  initListHead entry m

/-- `list_move` -/
def listMove (list head : Ptr α) (m : Mem α) : Option (Mem α) := do
  let m ← _listDelEntry list m
  listAdd list head m

/-- `list_move_tail` -/
def listMoveTail (list head : Ptr α) (m : Mem α) : Option (Mem α) := do
  let m ← _listDelEntry list m
  listAddTail list head m

/-- `list_bulk_move_tail` -/
def listBulkMoveTail (head first last : Ptr α) (m : Mem α) : Option (Mem α) := do
  let lastNext ← m.getNext last
  let firstPrev ← m.getPrev first
  let m ← m.setNext firstPrev lastNext
  let firstPrev ← m.getPrev first
  let lastNext ← m.getNext last
  let m ← m.setPrev lastNext firstPrev
  let headPrev ← m.getPrev head
  let m ← m.setNext headPrev first
  let headPrev ← m.getPrev head
  let m ← m.setPrev first headPrev
  let m ← m.setNext last head
  m.setPrev head last

end Stores

/-- `list_empty` -/
def listEmpty [DecidableEq α] (head : Ptr α) (m : Mem α) : Option Bool := do
  let next ← m.getNext head
  return decide (next = head)

/-- `list_is_singular` -/
def listIsSingular [DecidableEq α] (head : Ptr α) (m : Mem α) : Option Bool := do
  if ← listEmpty head m then
    return false
  else
    let next ← m.getNext head
    let prev ← m.getPrev head
    return decide (next = prev)

section Regroup

variable [DecidableEq α]

/-- `list_rotate_left` -/
def listRotateLeft (head : Ptr α) (m : Mem α) : Option (Mem α) := do
  if ← listEmpty head m then
    return m
  else
    let first ← m.getNext head
    listMoveTail first head m

/-- `list_rotate_to_front` -/
def listRotateToFront (list head : Ptr α) (m : Mem α) : Option (Mem α) :=
  listMoveTail head list m

/-- `__list_cut_position` -/
def _listCutPosition (list head entry : Ptr α) (m : Mem α) : Option (Mem α) := do
  let newFirst ← m.getNext entry
  let headNext ← m.getNext head
  let m ← m.setNext list headNext
  let listNext ← m.getNext list
  let m ← m.setPrev listNext list
  let m ← m.setPrev list entry
  let m ← m.setNext entry list
  let m ← m.setNext head newFirst
  m.setPrev newFirst head

/-- `list_cut_position` -/
def listCutPosition (list head entry : Ptr α) (m : Mem α) : Option (Mem α) := do
  if ← listEmpty head m then
    return m
  else
    let singular ← listIsSingular head m
    let headNext ← m.getNext head
    if singular && (headNext ≠ entry && head ≠ entry) then
      return m
    else if entry = head then
      initListHead list m
    else
      _listCutPosition list head entry m

/-- `list_cut_before` -/
def listCutBefore (list head entry : Ptr α) (m : Mem α) : Option (Mem α) := do
  let headNext ← m.getNext head
  if headNext = entry then
    initListHead list m
  else
    let m ← m.setNext list headNext
    let listNext ← m.getNext list
    let m ← m.setPrev listNext list
    let entryPrev ← m.getPrev entry
    let m ← m.setPrev list entryPrev
    let listPrev ← m.getPrev list
    let m ← m.setNext listPrev list
    let m ← m.setNext head entry
    m.setPrev entry head

/-- `__list_splice` -/
def _listSplice (list prev next : Ptr α) (m : Mem α) : Option (Mem α) := do
  let first ← m.getNext list
  let last ← m.getPrev list
  let m ← m.setPrev first prev
  let m ← m.setNext prev first
  let m ← m.setNext last next
  m.setPrev next last

/-- `list_splice` -/
def listSplice (list head : Ptr α) (m : Mem α) : Option (Mem α) := do
  if ← listEmpty list m then
    return m
  else
    let next ← m.getNext head
    _listSplice list head next m

/-- `list_splice_tail` -/
def listSpliceTail (list head : Ptr α) (m : Mem α) : Option (Mem α) := do
  if ← listEmpty list m then
    return m
  else
    let prev ← m.getPrev head
    _listSplice list prev head m

/-- `list_splice_init` -/
def listSpliceInit (list head : Ptr α) (m : Mem α) : Option (Mem α) := do
  if ← listEmpty list m then
    return m
  else
    let next ← m.getNext head
    let m ← _listSplice list head next m
    initListHead list m

/-- `list_splice_tail_init` -/
def listSpliceTailInit (list head : Ptr α) (m : Mem α) : Option (Mem α) := do
  if ← listEmpty list m then
    return m
  else
    let prev ← m.getPrev head
    let m ← _listSplice list prev head m
    initListHead list m

end Regroup

end ListHead
end Brlib
