import Brlib.Hash.Basic
import Brlib.Hlist.Basic

/-!
# The functions and macros of `hashtable.h`

A hash table is an array of heads; the head of the bucket `i` is named by its index, and
it is live when the array has it.  `size` is `HASH_SIZE`, and `ilog2` is a parameter
(`HASH_BITS` is `ilog2` of the size).

The iteration macros are functions that note the entries that they visit, in order.  The
body of `hash_for_each_safe` calls `hash_del` on entries of its choice: `dels` chooses
them by the entries visited so far.
-/

namespace Brlib
namespace Hashtable

open Heap SlotMem Hlist Hash

variable {α : Type} [DecidableEq α]

/-- The loop of `__hash_init`, from the bucket `i` on. -/
def hashInitLoop : Nat → Nat → SlotMem Nat α → Option (SlotMem Nat α)
  | 0, _, m => some m
  | n + 1, i, m => do
      let m ← initHlistHead (.addr i) m
      hashInitLoop n (i + 1) m

/-- `hash_init` -/
def hashInit (size : UInt64) (m : SlotMem Nat α) : Option (SlotMem Nat α) :=
  hashInitLoop size.toNat 0 m

/-- `hash_add` -/
def hashAdd (ilog2 : UInt64 → UInt32) (size : UInt64) (node : Ptr α) (key : Key)
    (m : SlotMem Nat α) : Option (SlotMem Nat α) := do
  let idx ← hashMin key (ilog2 size)
  hlistAddHead node (.addr idx.toNat) m

/-- `hash_hashed` -/
def hashHashed (node : Ptr α) (m : SlotMem Nat α) : Option Bool :=
  (hlistUnhashed node m).map not

/-- The loop of `__hash_empty`, from the bucket `i` on. -/
def hashEmptyLoop (m : SlotMem Nat α) : Nat → Nat → Option Bool
  | 0, _ => some true
  | n + 1, i => do
      let empty ← hlistEmpty (.addr i) m
      if !empty then some false else hashEmptyLoop m n (i + 1)

/-- `hash_empty` -/
def hashEmpty (size : UInt64) (m : SlotMem Nat α) : Option Bool :=
  hashEmptyLoop m size.toNat 0

/-- `hash_del` -/
def hashDel (node : Ptr α) (m : SlotMem Nat α) : Option (SlotMem Nat α) :=
  hlistDelInit node m

omit [DecidableEq α] in
/-- `hlist_for_each_entry` from the position `pos` on: returns the last position and the
entries visited. -/
def hlistForEachEntry (m : SlotMem Nat α) :
    Nat → Ptr α → List α → Option (Ptr α × List α)
  | 0, _, _ => none
  | _ + 1, .null, visited => some (.null, visited)
  | _ + 1, .junk _, _ => none
  | fuel + 1, .addr pos, visited => do
      let next ← m.load (nextSlot (.addr pos))
      hlistForEachEntry m fuel next (visited ++ [pos])

/-- The outer loop of `hash_for_each`, from the bucket `bkt` on. -/
def hashForEachLoop (fuel : Nat) (m : SlotMem Nat α) :
    Nat → Nat → Ptr α → List α → Option (List α)
  | 0, _, _, visited => some visited
  | n + 1, bkt, obj, visited =>
      if obj ≠ .null then some visited
      else do
        let first ← m.load (firstSlot (.addr bkt))
        let (obj, visited) ← hlistForEachEntry m fuel first visited
        hashForEachLoop fuel m n (bkt + 1) obj visited

/-- `hash_for_each` -/
def hashForEach (fuel : Nat) (size : UInt64) (m : SlotMem Nat α) : Option (List α) :=
  hashForEachLoop fuel m size.toNat 0 .null []

omit [DecidableEq α] in
/-- `hash_for_each_possible` -/
def hashForEachPossible (fuel : Nat) (ilog2 : UInt64 → UInt32) (size : UInt64) (key : Key)
    (m : SlotMem Nat α) : Option (List α) := do
  let idx ← hashMin key (ilog2 size)
  let first ← m.load (firstSlot (.addr idx.toNat))
  let (_, visited) ← hlistForEachEntry m fuel first []
  some visited

/-- The body of the iteration: `hash_del` of each of the entries. -/
def hashDels : List α → SlotMem Nat α → Option (SlotMem Nat α)
  | [], m => some m
  | n :: ns, m => do
      let m ← hashDel (.addr n) m
      hashDels ns m

/-- `hlist_for_each_entry_safe` from the position `pos` on. -/
def hlistForEachEntrySafe (dels : List α → List α) :
    Nat → Ptr α → List α → SlotMem Nat α → Option (Ptr α × List α × SlotMem Nat α)
  | 0, _, _, _ => none
  | _ + 1, .null, visited, m => some (.null, visited, m)
  | _ + 1, .junk _, _, _ => none
  | fuel + 1, .addr pos, visited, m => do
      let n ← m.load (nextSlot (.addr pos))
      let m ← hashDels (dels (visited ++ [pos])) m
      hlistForEachEntrySafe dels fuel n (visited ++ [pos]) m

/-- The outer loop of `hash_for_each_safe`, from the bucket `bkt` on. -/
def hashForEachSafeLoop (dels : List α → List α) (fuel : Nat) :
    Nat → Nat → Ptr α → List α → SlotMem Nat α → Option (List α × SlotMem Nat α)
  | 0, _, _, visited, m => some (visited, m)
  | n + 1, bkt, obj, visited, m =>
      if obj ≠ .null then some (visited, m)
      else do
        let first ← m.load (firstSlot (.addr bkt))
        let (obj, visited, m) ← hlistForEachEntrySafe dels fuel first visited m
        hashForEachSafeLoop dels fuel n (bkt + 1) obj visited m

/-- `hash_for_each_safe` -/
def hashForEachSafe (dels : List α → List α) (fuel : Nat) (size : UInt64)
    (m : SlotMem Nat α) : Option (List α × SlotMem Nat α) :=
  hashForEachSafeLoop dels fuel size.toNat 0 .null [] m

end Hashtable
end Brlib
