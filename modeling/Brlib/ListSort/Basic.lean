import Brlib.Heap.Chain

/-!
# The functions of `list_sort.c`

Each definition is the C function of its docstring, statement by statement.  A
`struct list_head **` is a `Slot`: it points to a local variable or to a field.
A loop takes an amount of fuel; running out of it is a failure, like a fault,
so a result is a result within the fuel.

The comparison `cmp(priv, a, b)` reads the two elements it is given, so a call
with a pointer that leads to no element is a fault.  What it does to the private
data is its own affair, and may change its later answers.
-/

namespace Brlib
namespace ListSort

open Heap Heap.Mem

variable {α π : Type}

/-- `list_cmp_func_t`; the private data is passed in and returned. -/
abbrev ListCmpFunc (π α : Type) := π → α → α → Int × π

/-- What a `struct list_head **` points to: the local variable of the function
at hand, or a field of `*p`. -/
inductive Slot (α : Type) where
  | var
  | field (p : Ptr α)
deriving DecidableEq, Repr

/-- `*tail = v`, where `tail` is `&head` or `&p->next`. -/
def Slot.storeNext [DecidableEq α] (tail : Slot α) (v head : Ptr α) (m : Mem α) :
    Option (Ptr α × Mem α) :=
  match tail with
  | .var => some (v, m)
  | .field p => (m.setNext p v).map fun m => (head, m)

/-- `*tail`, where `tail` is `&pending` or `&p->prev`. -/
def Slot.loadPrev (tail : Slot α) (pending : Ptr α) (m : Mem α) : Option (Ptr α) :=
  match tail with
  | .var => some pending
  | .field p => m.getPrev p

/-- `*tail = v`, where `tail` is `&pending` or `&p->prev`. -/
def Slot.storePrev [DecidableEq α] (tail : Slot α) (v pending : Ptr α) (m : Mem α) :
    Option (Ptr α × Mem α) :=
  match tail with
  | .var => some (v, m)
  | .field p => (m.setPrev p v).map fun m => (pending, m)

variable (cmp : ListCmpFunc π α)

/-- The call `cmp(priv, a, b)`. -/
def callCmp (priv : π) (a b : Ptr α) (m : Mem α) : Option (Int × π) := do
  let x ← m.deref a
  let y ← m.deref b
  some (cmp priv x y)

/-- `if (unlikely(!count)) cmp(priv, b, b);` -/
def callOnWrap (count : Nat) (priv : π) (b : Ptr α) (m : Mem α) : Option π :=
  if count = 0 then (callCmp cmp priv b b m).map Prod.snd else some priv

variable [DecidableEq α]

/-- The loop of `merge`. -/
def mergeLoop : Nat → Ptr α → Ptr α → Slot α → Ptr α → π → Mem α →
    Option (Ptr α × π × Mem α)
  | 0, _, _, _, _, _, _ => none
  | fuel + 1, a, b, tail, head, priv, m => do
      let (c, priv) ← callCmp cmp priv a b m
      if c ≤ 0 then
        let (head, m) ← tail.storeNext a head m
        let tail := Slot.field a
        let a ← m.getNext a
        if a = .null then
          let (head, m) ← tail.storeNext b head m
          some (head, priv, m)
        else mergeLoop fuel a b tail head priv m
      else
        let (head, m) ← tail.storeNext b head m
        let tail := Slot.field b
        let b ← m.getNext b
        if b = .null then
          let (head, m) ← tail.storeNext a head m
          some (head, priv, m)
        else mergeLoop fuel a b tail head priv m

/-- `merge`: returns a list organized in an intermediate format suited to
chaining of `merge` calls: null-terminated, `prev` links not maintained.  The
variable `head` has no value until the first store through `tail`. -/
def merge (fuel : Nat) (priv : π) (a b : Ptr α) (m : Mem α) : Option (Ptr α × π × Mem α) :=
  mergeLoop cmp fuel a b .var .null priv m

/-- The first loop of `merge_final`; returns `tail` and `b`. -/
def mergeFinalLoop : Nat → Ptr α → Ptr α → Ptr α → π → Mem α →
    Option (Ptr α × Ptr α × π × Mem α)
  | 0, _, _, _, _, _ => none
  | fuel + 1, tail, a, b, priv, m => do
      let (c, priv) ← callCmp cmp priv a b m
      if c ≤ 0 then
        let m ← m.setNext tail a
        let m ← m.setPrev a tail
        let tail := a
        let a ← m.getNext a
        if a = .null then some (tail, b, priv, m)
        else mergeFinalLoop fuel tail a b priv m
      else
        let m ← m.setNext tail b
        let m ← m.setPrev b tail
        let tail := b
        let b ← m.getNext b
        if b = .null then some (tail, a, priv, m)
        else mergeFinalLoop fuel tail a b priv m

/-- The second loop of `merge_final`, with its `u8 count`; returns `tail`. -/
def remainderLoop : Nat → Nat → Ptr α → Ptr α → π → Mem α → Option (Ptr α × π × Mem α)
  | 0, _, _, _, _, _ => none
  | fuel + 1, count, tail, b, priv, m => do
      let count := (count + 1) % 2 ^ 8
      let priv ← callOnWrap cmp count priv b m
      let m ← m.setPrev b tail
      let tail := b
      let b ← m.getNext b
      if b = .null then some (tail, priv, m)
      else remainderLoop fuel count tail b priv m

/-- The part of `merge_final` after its first loop: finish linking the remainder
of list `b` on to `tail`, and the final links to make a circular doubly-linked
list. -/
def finishLinking (fuel : Nat) (head tail b : Ptr α) (priv : π) (m : Mem α) :
    Option (π × Mem α) := do
  let m ← m.setNext tail b
  let (tail, priv, m) ← remainderLoop cmp fuel 0 tail b priv m
  let m ← m.setNext tail head
  let m ← m.setPrev head tail
  some (priv, m)

/-- `merge_final`. -/
def mergeFinal (fuel : Nat) (priv : π) (head a b : Ptr α) (m : Mem α) : Option (π × Mem α) := do
  let (tail, b, priv, m) ← mergeFinalLoop cmp fuel head a b priv m
  finishLinking cmp fuel head tail b priv m

omit [DecidableEq α] in
/-- `for (bits = count; bits & 1; bits >>= 1) tail = &(*tail)->prev;` returns
`bits` and `tail`. -/
def skipOnes (bits : Nat) (tail : Slot α) (pending : Ptr α) (m : Mem α) :
    Option (Nat × Slot α) :=
  if bits % 2 = 1 then do
    let p ← tail.loadPrev pending m
    skipOnes (bits / 2) (.field p) pending m
  else some (bits, tail)
termination_by bits

/-- The indicated merge: the merged result is installed in place of the
inputs. -/
def mergeAtTail (fuel bits : Nat) (tail : Slot α) (pending : Ptr α) (priv : π) (m : Mem α) :
    Option (Ptr α × π × Mem α) :=
  if bits ≠ 0 then do
    let a ← tail.loadPrev pending m
    let b ← m.getPrev a
    let (a, priv, m) ← merge cmp fuel priv b a m
    let p ← m.getPrev b
    let m ← m.setPrev a p
    let (pending, m) ← tail.storePrev a pending m
    some (pending, priv, m)
  else some (pending, priv, m)

/-- The main loop: each round does the indicated merge and moves one element
from the input list to `pending`.  Returns `pending`. -/
def mainLoop (fuel : Nat) : Nat → Ptr α → Ptr α → Nat → π → Mem α →
    Option (Ptr α × π × Mem α)
  | 0, _, _, _, _, _ => none
  | rounds + 1, list, pending, count, priv, m => do
      let (bits, tail) ← skipOnes count .var pending m
      let (pending, priv, m) ← mergeAtTail cmp fuel bits tail pending priv m
      let m ← m.setPrev list pending
      let pending := list
      let list ← m.getNext list
      let m ← m.setNext pending .null
      let count := (count + 1) % 2 ^ 64
      if list = .null then some (pending, priv, m)
      else mainLoop fuel rounds list pending count priv m

/-- The loop after the end of the input: merge together all the pending lists
but the last.  Returns `list` and `pending`. -/
def mergePending (fuel : Nat) : Nat → Ptr α → Ptr α → π → Mem α →
    Option (Ptr α × Ptr α × π × Mem α)
  | 0, _, _, _, _ => none
  | rounds + 1, list, pending, priv, m => do
      let next ← m.getPrev pending
      if next = .null then some (list, pending, priv, m)
      else
        let (list, priv, m) ← merge cmp fuel priv pending list m
        mergePending fuel rounds list next priv m

/-- `list_sort`. -/
def listSort (fuel : Nat) (priv : π) (head : Ptr α) (m : Mem α) : Option (π × Mem α) := do
  let list ← m.getNext head
  let last ← m.getPrev head
  if list = last then some (priv, m)
  else
    let last ← m.getPrev head
    let m ← m.setNext last .null
    let (pending, priv, m) ← mainLoop cmp fuel fuel list .null 0 priv m
    let list := pending
    let pending ← m.getPrev list
    let (list, pending, priv, m) ← mergePending cmp fuel fuel list pending priv m
    mergeFinal cmp fuel priv head pending list m

end ListSort
end Brlib
