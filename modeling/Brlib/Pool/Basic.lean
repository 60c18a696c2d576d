import Brlib.Alloc.Region
import Brlib.ListHead.Basic

/-!
# The functions of `pool.c`

Addresses are machine words.  The two lists of a `pool_t` and the `list_blocks` of
each `block_t` are cells of the memory, and so is every element of the pool while
it is on `list_available`; the other fields of a `pool_t` are in a record.

`malloc` is an argument of the functions that call it: its answer for each size.  A
block that it returns becomes one of the allocated regions, and the cells within it
become live with whatever they held before.
-/

namespace Brlib
namespace Pool

open Heap Heap.Mem ListHead Alloc

/-- `POOL_NAME_LENGTH` -/
def poolNameLength : Nat := 16

/-- `sizeof (struct list_head)` -/
def sizeofListHead : UInt64 := 16

/-- `sizeof (block_t)`, which is also the offset of `data` -/
def sizeofBlock : UInt64 := 16

/-- `sizeof (pool_t)` -/
def sizeofPool : UInt64 := 72

/-- `ENOMEM` -/
def enomem : Int := 12

/-- The fields of a `pool_t` that are not list heads. -/
structure PoolFields where
  name : List UInt8
  eltsize : UInt64
  available : UInt32
  allocated : UInt32
  growsize : UInt32
  nblocks : UInt32
deriving DecidableEq, Repr

/-- The memory of a program that uses pools. -/
structure PoolMem where
  mem : Mem UInt64
  pools : UInt64 → Option PoolFields
  regions : List Region
  errno : Int

/-- `&pool->list_available` -/
def listAvailable : Ptr UInt64 → Ptr UInt64
  | .addr pool => .addr (pool + 40)
  | _ => .junk 0

/-- `&pool->list_blocks` -/
def listBlocks : Ptr UInt64 → Ptr UInt64
  | .addr pool => .addr (pool + 56)
  | _ => .junk 0

/-- The addresses of the list head at `a`. -/
def cell (a : UInt64) : Region :=
  ⟨a.toNat, 16⟩

namespace PoolMem

/-- Read the fields of `*pool`. -/
def getPool (s : PoolMem) : Ptr UInt64 → Option PoolFields
  | .addr pool => s.pools pool
  | _ => none

/-- Write the fields of `*pool`. -/
def setPool (s : PoolMem) (f : PoolFields) : Ptr UInt64 → Option PoolMem
  | .addr pool =>
      if (s.pools pool).isSome then some { s with pools := Function.update s.pools pool (some f) }
      else none
  | _ => none

/-- A function of `list.h` on the list heads. -/
def onMem (s : PoolMem) (f : Mem UInt64 → Option (Mem UInt64)) : Option PoolMem :=
  (f s.mem).map fun mem => { s with mem }

/-- The memory after `malloc(size)` returned the address `a`. -/
def malloced (s : PoolMem) (a size : UInt64) : PoolMem :=
  { s with
    mem := { s.mem with live := fun c => s.mem.live c || (cell c).Within ⟨a.toNat, size.toNat⟩ }
    regions := ⟨a.toNat, size.toNat⟩ :: s.regions }

end PoolMem

/-- `strncpy` to `n` bytes: the string up to its end, padded with zeros. -/
def strncpy (name : List UInt8) (n : Nat) : List UInt8 :=
  let chars := (name.takeWhile (· ≠ 0)).take n
  chars ++ List.replicate (n - chars.length) 0

/-- The fields that `pool_create` stores: an element has room for a list head. -/
def newPool (name : List UInt8) (growsize : UInt32) (eltsize : UInt64) : PoolFields where
  name := strncpy name (poolNameLength - 1) ++ [0]
  eltsize := if eltsize < sizeofListHead then sizeofListHead else eltsize
  available := 0
  allocated := 0
  growsize := growsize
  nblocks := 0

/-- `pool_create` -/
def poolCreate (malloc : UInt64 → Ptr UInt64) (name : List UInt8) (growsize : UInt32)
    (eltsize : UInt64) (s : PoolMem) : Option (Ptr UInt64 × PoolMem) :=
  match malloc sizeofPool with
  | .addr pool => do
      let s := s.malloced pool sizeofPool
      let fields := newPool name growsize eltsize
      let s := { s with pools := Function.update s.pools pool (some fields) }
      let s ← s.onMem (initListHead (listAvailable (.addr pool)))
      let s ← s.onMem (initListHead (listBlocks (.addr pool)))
      some (.addr pool, s)
  | _ => some (.null, { s with errno := enomem })

/-- `_pool_add` -/
def _poolAdd (pool elt : Ptr UInt64) (s : PoolMem) : Option (UInt32 × PoolMem) := do
  let s ← s.onMem (listAdd elt (listAvailable pool))
  let f ← s.getPool pool
  let available := f.available + 1
  let s ← s.setPool { f with available } pool
  some (available, s)

/-- `pool_add` -/
def poolAdd (pool elt : Ptr UInt64) (s : PoolMem) : Option (UInt32 × PoolMem) :=
  _poolAdd pool elt s

/-- `_pool_get` -/
def _poolGet (pool : Ptr UInt64) (s : PoolMem) : Option (Ptr UInt64 × PoolMem) := do
  let res ← s.mem.getNext (listAvailable pool)
  let f ← s.getPool pool
  let s ← s.setPool { f with available := f.available - 1 } pool
  let s ← s.onMem (listDel res)
  some (res, s)

/-- The size that `pool_get` requests from `malloc`. -/
def blockSize (f : PoolFields) : UInt64 :=
  sizeofBlock + f.eltsize * f.growsize.toUInt64

/-- `block->data + i * pool->eltsize` -/
def slotAddr (f : PoolFields) (block : UInt64) (i : UInt32) : UInt64 :=
  block + sizeofBlock + i.toUInt64 * f.eltsize

/-- The loop of `pool_get` from the index `i` on, with `n` iterations to go: no
iteration changes `growsize`. -/
def poolGrowLoop (pool : Ptr UInt64) (block : UInt64) :
    Nat → UInt32 → PoolMem → Option PoolMem
  | 0, _, s => some s
  | n + 1, i, s => do
      let f ← s.getPool pool
      let cur := slotAddr f block i
      let (_, s) ← _poolAdd pool (.addr cur) s
      poolGrowLoop pool block n (i + 1) s

/-- The part of `pool_get` behind a successful `malloc`. -/
def poolGrow (pool : Ptr UInt64) (block : UInt64) (s : PoolMem) : Option PoolMem := do
  let s ← s.onMem (listAdd (.addr block) (listBlocks pool))
  let f ← s.getPool pool
  let s ← s.setPool { f with nblocks := f.nblocks + 1 } pool
  let f ← s.getPool pool
  let s ← s.setPool { f with allocated := f.allocated + f.growsize } pool
  poolGrowLoop pool block f.growsize.toNat 0 s

/-- `pool_get` -/
def poolGet (malloc : UInt64 → Ptr UInt64) (pool : Ptr UInt64) (s : PoolMem) :
    Option (Ptr UInt64 × PoolMem) :=
  if pool = .null then some (.null, s)
  else do
    let f ← s.getPool pool
    if f.available ≠ 0 then _poolGet pool s
    else
      match malloc (blockSize f) with
      | .addr block => do
          let s ← poolGrow pool block (s.malloced block (blockSize f))
          _poolGet pool s
      | _ => some (.null, { s with errno := enomem })

end Pool
end Brlib
