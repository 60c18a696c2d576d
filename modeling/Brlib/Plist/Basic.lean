import Brlib.ListHead.Basic

/-!
# The functions of `plist.c` and `plist.h`

A `struct plist_node` embeds two `struct list_head`, so the cells of the memory
are named after the structures they belong to: `head h` and `node n` are the
`node_list` fields, `prio n` is the `prio_list` field.  A pointer to a
`struct plist_node` is represented by the pointer to its `node_list`, and
`container_of` from a `prio_list` is `prioEntry`.

This is the build with `DEBUG_PLIST` and `BUG_ON`: the consistency checks and
`warn_on` count the warnings they print, and a `bug_on` that holds aborts, which
is a fault.
-/

namespace Brlib
namespace Plist

open Heap Heap.Mem ListHead

/-- The list heads embedded in the structures: `plist_head.node_list`,
`plist_node.prio_list` and `plist_node.node_list`. -/
inductive Link (η ν : Type) where
  | head (h : η)
  | prio (n : ν)
  | node (n : ν)
deriving DecidableEq, Repr

/-- The memory of all plists: the list heads, the `prio` field of each node, and
the number of warnings printed so far. -/
structure PlistMem (η ν : Type) where
  mem : Mem (Link η ν)
  prio : ν → Int
  warnings : Nat

variable {η ν : Type}

/-- `&node->prio_list` -/
def prioList : Ptr (Link η ν) → Ptr (Link η ν)
  | .addr (.node n) => .addr (.prio n)
  | _ => .junk 0

/-- `list_entry(ptr, struct plist_node, prio_list)` -/
def prioEntry : Ptr (Link η ν) → Ptr (Link η ν)
  | .addr (.prio n) => .addr (.node n)
  | _ => .junk 0

namespace PlistMem

/-- `node->prio` -/
def getPrio (s : PlistMem η ν) : Ptr (Link η ν) → Option Int
  | .addr (.node n) => if s.mem.live (.node n) then some (s.prio n) else none
  | _ => none

/-- `node->prio = prio` -/
def setPrio [DecidableEq ν] (s : PlistMem η ν) (prio : Int) :
    Ptr (Link η ν) → Option (PlistMem η ν)
  | .addr (.node n) =>
      if s.mem.live (.node n) then some { s with prio := Function.update s.prio n prio } else none
  | _ => none

/-- `warn(expr, ...)` -/
def warn (s : PlistMem η ν) (expr : Bool) : PlistMem η ν :=
  if expr then { s with warnings := s.warnings + 1 } else s

/-- `bug_on(expr)` -/
def bugOn (s : PlistMem η ν) (expr : Bool) : Option (PlistMem η ν) :=
  if expr then none else some s

/-- A function of `list.h` on the list heads. -/
def onMem (s : PlistMem η ν) (f : Mem (Link η ν) → Option (Mem (Link η ν))) :
    Option (PlistMem η ν) :=
  (f s.mem).map fun mem => { s with mem }

end PlistMem

variable [DecidableEq η] [DecidableEq ν]

/-- `plist_head_init` -/
def plistHeadInit (head : Ptr (Link η ν)) (s : PlistMem η ν) : Option (PlistMem η ν) :=
  s.onMem (initListHead head)

/-- `plist_node_init` -/
def plistNodeInit (node : Ptr (Link η ν)) (prio : Int) (s : PlistMem η ν) :
    Option (PlistMem η ν) := do
  let s ← s.setPrio prio node
  let s ← s.onMem (initListHead (prioList node))
  s.onMem (initListHead node)

/-- `plist_head_empty` -/
def plistHeadEmpty (head : Ptr (Link η ν)) (s : PlistMem η ν) : Option Bool :=
  listEmpty head s.mem

/-- `plist_node_empty` -/
def plistNodeEmpty (node : Ptr (Link η ν)) (s : PlistMem η ν) : Option Bool :=
  listEmpty node s.mem

omit [DecidableEq η] [DecidableEq ν] in
/-- `plist_first` -/
def plistFirst (head : Ptr (Link η ν)) (s : PlistMem η ν) : Option (Ptr (Link η ν)) :=
  s.mem.getNext head

omit [DecidableEq η] [DecidableEq ν] in
/-- `plist_last` -/
def plistLast (head : Ptr (Link η ν)) (s : PlistMem η ν) : Option (Ptr (Link η ν)) :=
  s.mem.getPrev head

omit [DecidableEq η] [DecidableEq ν] in
/-- `plist_next` -/
def plistNext (pos : Ptr (Link η ν)) (s : PlistMem η ν) : Option (Ptr (Link η ν)) :=
  s.mem.getNext pos

/-- `plist_check_prev_next`: a message shows the fields of all three list
heads. -/
def plistCheckPrevNext (t p n : Ptr (Link η ν)) (s : PlistMem η ν) : Option (PlistMem η ν) := do
  let prev ← s.mem.getPrev n
  let next ← s.mem.getNext p
  if prev ≠ p ∨ next ≠ n then (s.mem.deref t).map fun _ => s.warn true
  else some s

/-- The loop of `plist_check_list`. -/
def plistCheckLoop (top : Ptr (Link η ν)) :
    Nat → Ptr (Link η ν) → PlistMem η ν → Option (PlistMem η ν)
  | 0, _, _ => none
  | fuel + 1, next, s =>
      if next = top then some s
      else do
        let prev := next
        let next ← s.mem.getNext prev
        let s ← plistCheckPrevNext top prev next s
        plistCheckLoop top fuel next s

/-- `plist_check_list` -/
def plistCheckList (fuel : Nat) (top : Ptr (Link η ν)) (s : PlistMem η ν) :
    Option (PlistMem η ν) := do
  let next ← s.mem.getNext top
  let s ← plistCheckPrevNext top top next s
  plistCheckLoop top fuel next s

/-- `plist_check_head` -/
def plistCheckHead (fuel : Nat) (head : Ptr (Link η ν)) (s : PlistMem η ν) :
    Option (PlistMem η ν) :=
  (plistHeadEmpty head s).bind fun empty =>
    if empty then plistCheckList fuel head s
    else do
      let first ← plistFirst head s
      let s ← plistCheckList fuel (prioList first) s
      plistCheckList fuel head s

/-- The loop of `plist_add`: returns `prev`, `iter` and `node_next`. -/
def plistAddLoop (node first : Ptr (Link η ν)) (s : PlistMem η ν) :
    Nat → Ptr (Link η ν) → Ptr (Link η ν) → Ptr (Link η ν) →
      Option (Ptr (Link η ν) × Ptr (Link η ν) × Ptr (Link η ν))
  | 0, _, _, _ => none
  | fuel + 1, prev, iter, nodeNext => do
      let p ← s.getPrio node
      let q ← s.getPrio iter
      if p < q then some (prev, iter, iter)
      else
        let prev := iter
        let next ← s.mem.getNext (prioList iter)
        let iter := prioEntry next
        if iter ≠ first then plistAddLoop node first s fuel prev iter nodeNext
        else some (prev, iter, nodeNext)

/-- `!prev || prev->prio != node->prio` -/
def opensGroup (prev node : Ptr (Link η ν)) (s : PlistMem η ν) : Option Bool :=
  if prev = .null then some true
  else do
    let p ← s.getPrio prev
    let q ← s.getPrio node
    some (p ≠ q)

/-- The part of `plist_add` up to the label `ins_node`: returns `node_next`. -/
def plistAddPrio (fuel : Nat) (node head : Ptr (Link η ν)) (s : PlistMem η ν) :
    Option (Ptr (Link η ν) × PlistMem η ν) := do
  let empty ← plistHeadEmpty head s
  if empty then some (head, s)
  else
    let first ← plistFirst head s
    let (prev, iter, nodeNext) ← plistAddLoop node first s fuel .null first head
    let opens ← opensGroup prev node s
    if opens then
      let s ← s.onMem (listAddTail (prioList node) (prioList iter))
      some (nodeNext, s)
    else some (nodeNext, s)

/-- `plist_add` -/
def plistAdd (fuel : Nat) (node head : Ptr (Link η ν)) (s : PlistMem η ν) :
    Option (PlistMem η ν) := do
  let s ← plistCheckHead fuel head s
  let nodeEmpty ← plistNodeEmpty node s
  let s := s.warn (!nodeEmpty)
  let prioEmpty ← listEmpty (prioList node) s.mem
  let s := s.warn (!prioEmpty)
  let (nodeNext, s) ← plistAddPrio fuel node head s
  let s ← s.onMem (listAddTail node nodeNext)
  plistCheckHead fuel head s

/-- `plist_add` without `DEBUG_PLIST`, where `plist_check_head` does nothing. -/
def plistAddUnchecked (fuel : Nat) (node head : Ptr (Link η ν)) (s : PlistMem η ν) :
    Option (PlistMem η ν) := do
  let nodeEmpty ← plistNodeEmpty node s
  let s := s.warn (!nodeEmpty)
  let prioEmpty ← listEmpty (prioList node) s.mem
  let s := s.warn (!prioEmpty)
  let (nodeNext, s) ← plistAddPrio fuel node head s
  s.onMem (listAddTail node nodeNext)

/-- The promotion in `plist_del`: add the next `plist_node` into `prio_list`. -/
def plistPromote (node head : Ptr (Link η ν)) (s : PlistMem η ν) : Option (PlistMem η ν) := do
  let next ← s.mem.getNext node
  if next ≠ head then
    let empty ← listEmpty (prioList next) s.mem
    if empty then s.onMem (listAdd (prioList next) (prioList node)) else some s
  else some s

/-- The part of `plist_del` about `prio_list`. -/
def plistDelPrio (node head : Ptr (Link η ν)) (s : PlistMem η ν) : Option (PlistMem η ν) := do
  let empty ← listEmpty (prioList node) s.mem
  if !empty then
    let s ← plistPromote node head s
    s.onMem (listDelInit (prioList node))
  else some s

/-- `plist_del` -/
def plistDel (fuel : Nat) (node head : Ptr (Link η ν)) (s : PlistMem η ν) :
    Option (PlistMem η ν) := do
  let s ← plistCheckHead fuel head s
  let s ← plistDelPrio node head s
  let s ← s.onMem (listDelInit node)
  plistCheckHead fuel head s

/-- The `plist_for_each_continue` loop of `plist_requeue`, from the position
`pos` on: returns `node_next`. -/
def plistRequeueLoop (node head : Ptr (Link η ν)) (s : PlistMem η ν) :
    Nat → Ptr (Link η ν) → Option (Ptr (Link η ν))
  | 0, _ => none
  | fuel + 1, pos =>
      if pos = head then some head
      else do
        let p ← s.getPrio node
        let q ← s.getPrio pos
        if p ≠ q then some pos
        else
          let pos ← plistNext pos s
          plistRequeueLoop node head s fuel pos

/-- `plist_requeue` -/
def plistRequeue (fuel : Nat) (node head : Ptr (Link η ν)) (s : PlistMem η ν) :
    Option (PlistMem η ν) := do
  let s ← plistCheckHead fuel head s
  let headEmpty ← plistHeadEmpty head s
  let s ← s.bugOn headEmpty
  let nodeEmpty ← plistNodeEmpty node s
  let s ← s.bugOn nodeEmpty
  let last ← plistLast head s
  if node = last then some s
  else
    let iter ← plistNext node s
    let p ← s.getPrio node
    let q ← s.getPrio iter
    if p ≠ q then some s
    else
      let s ← plistDel fuel node head s
      let pos ← plistNext iter s
      let nodeNext ← plistRequeueLoop node head s fuel pos
      let s ← s.onMem (listAddTail node nodeNext)
      plistCheckHead fuel head s

end Plist
end Brlib
