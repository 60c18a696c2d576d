import Brlib.ListHead.RingsSpec

/-!
# The list operations refine operations on finite sequences

`ListOp.Effect` is the abstract meaning of each operation: what it does to the
cyclic sequences of a heap of rings, and the calls it is meant for.
`ListOp.exec` is the function of `list.h`.  The refinement theorem runs `exec`
on any memory that holds the rings and finds the rings of the effect.

One call of `list_swap` is not covered.  It looks up the position of `entry2`
as `entry2->prev`, and allows for that predecessor being `entry1`; it does not
allow for it being `entry2` itself, when `entry2` is alone on its ring.
-/

namespace Brlib
namespace ListHead

open Heap Heap.Mem

variable {α : Type}

/-- A call of one of the operations of `list.h`. -/
inductive ListOp (α : Type) where
  | add (new head : α)
  | addTail (new head : α)
  | del (entry : α)
  | delInit (entry : α)
  | replace (old new : α)
  | replaceInit (old new : α)
  | swap (entry1 entry2 : α)
  | move (list head : α)
  | moveTail (list head : α)
  | bulkMoveTail (head first last : α)
  | rotateLeft (head : α)
  | rotateToFront (list head : α)
  | splice (list head : α)
  | spliceTail (list head : α)
  | spliceInit (list head : α)
  | spliceTailInit (list head : α)
deriving DecidableEq, Repr

namespace ListOp

/-- The function of `list.h` a call stands for. -/
def exec [DecidableEq α] : ListOp α → Mem α → Option (Mem α)
  | add new head => listAdd (.addr new) (.addr head)
  | addTail new head => listAddTail (.addr new) (.addr head)
  | del entry => listDel (.addr entry)
  | delInit entry => listDelInit (.addr entry)
  | replace old new => listReplace (.addr old) (.addr new)
  | replaceInit old new => listReplaceInit (.addr old) (.addr new)
  | swap entry1 entry2 => listSwap (.addr entry1) (.addr entry2)
  | move list head => listMove (.addr list) (.addr head)
  | moveTail list head => listMoveTail (.addr list) (.addr head)
  | bulkMoveTail head first last =>
      listBulkMoveTail (.addr head) (.addr first) (.addr last)
  | rotateLeft head => listRotateLeft (.addr head)
  | rotateToFront list head => listRotateToFront (.addr list) (.addr head)
  | splice list head => listSplice (.addr list) (.addr head)
  | spliceTail list head => listSpliceTail (.addr list) (.addr head)
  | spliceInit list head => listSpliceInit (.addr list) (.addr head)
  | spliceTailInit list head => listSpliceTailInit (.addr list) (.addr head)

/-- The effect of a call on the rings, `C` before and `D` after.  The cell to
insert is live and on no ring; the cell to delete, move or replace is on a ring
and is not the anchor; the two cells to swap are distinct; a run to move is
contiguous and its anchor stands outside of it; the two lists to splice are
different rings.  An anchor is written at the front of its cycle, which is no
restriction: a cycle has no first cell. -/
inductive Effect (live : α → Bool) :
    ListOp α → Multiset (Cycle α) → Multiset (Cycle α) → Prop
  | add {new head l C} (hnew : new ∉ cells (((head :: l : List α) : Cycle α) ::ₘ C))
      (hlive : live new = true) :
      Effect live (add new head) (((head :: l : List α) : Cycle α) ::ₘ C)
        (((head :: new :: l : List α) : Cycle α) ::ₘ C)
  | addTail {new head l C} (hnew : new ∉ cells (((head :: l : List α) : Cycle α) ::ₘ C))
      (hlive : live new = true) :
      Effect live (addTail new head) (((head :: l : List α) : Cycle α) ::ₘ C)
        (((head :: (l ++ [new]) : List α) : Cycle α) ::ₘ C)
  | del {entry l C} :
      Effect live (del entry) (((entry :: l : List α) : Cycle α) ::ₘ C) (cycleOf l + C)
  | delInit {entry l C} :
      Effect live (delInit entry) (((entry :: l : List α) : Cycle α) ::ₘ C)
        ((([entry] : List α) : Cycle α) ::ₘ (cycleOf l + C))
  | replace {old new l C} (hnew : new ∉ cells (((old :: l : List α) : Cycle α) ::ₘ C))
      (hlive : live new = true) :
      Effect live (replace old new) (((old :: l : List α) : Cycle α) ::ₘ C)
        (((new :: l : List α) : Cycle α) ::ₘ C)
  | replaceInit {old new l C} (hnew : new ∉ cells (((old :: l : List α) : Cycle α) ::ₘ C))
      (hlive : live new = true) :
      Effect live (replaceInit old new) (((old :: l : List α) : Cycle α) ::ₘ C)
        ((([old] : List α) : Cycle α) ::ₘ ((new :: l : List α) : Cycle α) ::ₘ C)
  | swapSame {entry1 entry2 l k C} :
      Effect live (swap entry1 entry2)
        (((entry1 :: (l ++ entry2 :: k) : List α) : Cycle α) ::ₘ C)
        (((entry2 :: (l ++ entry1 :: k) : List α) : Cycle α) ::ₘ C)
  | swapTwo {entry1 entry2 l k C} :
      Effect live (swap entry1 entry2)
        (((entry1 :: l : List α) : Cycle α) ::ₘ ((entry2 :: k : List α) : Cycle α) ::ₘ C)
        (((entry2 :: l : List α) : Cycle α) ::ₘ ((entry1 :: k : List α) : Cycle α) ::ₘ C)
  | move {list head r l C D}
      (hanchor : cycleOf r + C = ((head :: l : List α) : Cycle α) ::ₘ D) :
      Effect live (move list head) (((list :: r : List α) : Cycle α) ::ₘ C)
        (((head :: list :: l : List α) : Cycle α) ::ₘ D)
  | moveTail {list head r l C D}
      (hanchor : cycleOf r + C = ((head :: l : List α) : Cycle α) ::ₘ D) :
      Effect live (moveTail list head) (((list :: r : List α) : Cycle α) ::ₘ C)
        (((head :: (l ++ [list]) : List α) : Cycle α) ::ₘ D)
  | bulkMoveTail {head first last l k r C} (hlast : last = lastOr first k) :
      Effect live (bulkMoveTail head first last)
        (((head :: (l ++ first :: k ++ r) : List α) : Cycle α) ::ₘ C)
        (((head :: (l ++ r ++ first :: k) : List α) : Cycle α) ::ₘ C)
  | rotateLeftAlone {head C} :
      Effect live (rotateLeft head) ((([head] : List α) : Cycle α) ::ₘ C)
        ((([head] : List α) : Cycle α) ::ₘ C)
  | rotateLeft {head first l C} :
      Effect live (rotateLeft head) (((head :: first :: l : List α) : Cycle α) ::ₘ C)
        (((head :: (l ++ [first]) : List α) : Cycle α) ::ₘ C)
  | rotateToFront {list head l k C} :
      Effect live (rotateToFront list head)
        (((head :: (l ++ list :: k) : List α) : Cycle α) ::ₘ C)
        (((head :: list :: (k ++ l) : List α) : Cycle α) ::ₘ C)
  | spliceEmpty {list head l C} :
      Effect live (splice list head)
        ((([list] : List α) : Cycle α) ::ₘ ((head :: l : List α) : Cycle α) ::ₘ C)
        ((([list] : List α) : Cycle α) ::ₘ ((head :: l : List α) : Cycle α) ::ₘ C)
  | splice {list head x k l C} :
      Effect live (splice list head)
        (((list :: x :: k : List α) : Cycle α) ::ₘ ((head :: l : List α) : Cycle α) ::ₘ C)
        (((head :: (x :: k ++ l) : List α) : Cycle α) ::ₘ C)
  | spliceTailEmpty {list head l C} :
      Effect live (spliceTail list head)
        ((([list] : List α) : Cycle α) ::ₘ ((head :: l : List α) : Cycle α) ::ₘ C)
        ((([list] : List α) : Cycle α) ::ₘ ((head :: l : List α) : Cycle α) ::ₘ C)
  | spliceTail {list head x k l C} :
      Effect live (spliceTail list head)
        (((list :: x :: k : List α) : Cycle α) ::ₘ ((head :: l : List α) : Cycle α) ::ₘ C)
        (((head :: (l ++ x :: k) : List α) : Cycle α) ::ₘ C)
  | spliceInit {list head k l C} :
      Effect live (spliceInit list head)
        (((list :: k : List α) : Cycle α) ::ₘ ((head :: l : List α) : Cycle α) ::ₘ C)
        ((([list] : List α) : Cycle α) ::ₘ ((head :: (k ++ l) : List α) : Cycle α) ::ₘ C)
  | spliceTailInit {list head k l C} :
      Effect live (spliceTailInit list head)
        (((list :: k : List α) : Cycle α) ::ₘ ((head :: l : List α) : Cycle α) ::ₘ C)
        ((([list] : List α) : Cycle α) ::ₘ ((head :: (l ++ k) : List α) : Cycle α) ::ₘ C)

/-- The call swaps with an `entry2` that is alone on its ring. -/
def SwapsAlone : ListOp α → Multiset (Cycle α) → Prop
  | swap _ entry2, C => (([entry2] : List α) : Cycle α) ∈ C
  | _, _ => False

variable [DecidableEq α] {m : Mem α} {C D : Multiset (Cycle α)} {op : ListOp α}

/-- A call that does not swap with a lone `entry2` has its effect. -/
theorem exec_rings (hrings : m.Rings C) (heffect : op.Effect m.live C D)
    (hswap : ¬ op.SwapsAlone C) : ∃ m', op.exec m = some m' ∧ m'.Rings D := by
  cases heffect with
  | add hnew hlive => exact listAdd_rings hrings hnew hlive
  | addTail hnew hlive => exact listAddTail_rings hrings hnew hlive
  | del =>
      obtain ⟨m', hrun, hrings', -, -⟩ := listDel_rings hrings
      exact ⟨m', hrun, hrings'⟩
  | delInit => exact listDelInit_rings hrings
  | replace hnew hlive =>
      obtain ⟨m', hrun, hrings', -, -⟩ := listReplace_rings hrings hnew hlive
      exact ⟨m', hrun, hrings'⟩
  | replaceInit hnew hlive => exact listReplaceInit_rings hrings hnew hlive
  | swapSame => exact listSwap_rings_same hrings
  | swapTwo =>
      refine listSwap_rings_two (fun hk => hswap ?_) hrings
      simp [SwapsAlone, hk]
  | move hanchor => exact listMove_rings hrings hanchor
  | moveTail hanchor => exact listMoveTail_rings hrings hanchor
  | bulkMoveTail hlast =>
      subst hlast
      exact listBulkMoveTail_rings hrings
  | rotateLeftAlone =>
      exact ⟨m, listRotateLeft_alone (Rings.cons_iff.mp hrings).1, hrings⟩
  | rotateLeft => exact listRotateLeft_rings hrings
  | rotateToFront => exact listRotateToFront_rings hrings
  | spliceEmpty =>
      exact ⟨m, (listSplice_empty (Rings.cons_iff.mp hrings).1 _).1, hrings⟩
  | splice =>
      obtain ⟨m', hrun, hrings', -, -⟩ := listSplice_rings hrings
      exact ⟨m', hrun, hrings'⟩
  | spliceTailEmpty =>
      exact ⟨m, (listSplice_empty (Rings.cons_iff.mp hrings).1 _).2.1, hrings⟩
  | spliceTail =>
      obtain ⟨m', hrun, hrings', -, -⟩ := listSpliceTail_rings hrings
      exact ⟨m', hrun, hrings'⟩
  | @spliceInit list head k l C =>
      have hring := (Rings.cons_iff.mp hrings).1
      cases k with
      | nil => exact ⟨m, (listSplice_empty hring _).2.2.1, by simpa using hrings⟩
      | cons x k =>
          obtain ⟨m₁, hrun, hrings₁, hlive, hout⟩ := listSplice_rings hrings
          obtain ⟨m₂, hinit, hrings₂⟩ := initListHead_rings hrings₁ hout hlive
          exact ⟨m₂, by simp [exec, listSpliceInit_eq hring, hrun, hinit], hrings₂⟩
  | @spliceTailInit list head k l C =>
      have hring := (Rings.cons_iff.mp hrings).1
      cases k with
      | nil => exact ⟨m, (listSplice_empty hring _).2.2.2, by simpa using hrings⟩
      | cons x k =>
          obtain ⟨m₁, hrun, hrings₁, hlive, hout⟩ := listSpliceTail_rings hrings
          obtain ⟨m₂, hinit, hrings₂⟩ := initListHead_rings hrings₁ hout hlive
          exact ⟨m₂, by simp [exec, listSpliceTailInit_eq hring, hrun, hinit], hrings₂⟩

/-- `list_swap` with a lone `entry2` joins it to the ring of `entry1`, which
follows it. -/
theorem listSwap_rings_alone {x y : α} {l : List α}
    (hrings : m.Rings
      (((x :: l : List α) : Cycle α) ::ₘ (([y] : List α) : Cycle α) ::ₘ C)) :
    ∃ m', listSwap (.addr x) (.addr y) m = some m' ∧
      m'.Rings (((y :: x :: l : List α) : Cycle α) ::ₘ C) := by
  obtain ⟨hring, hrest, hdisj⟩ := Rings.cons_iff.mp hrings
  obtain ⟨hat, -, -⟩ := Rings.cons_iff.mp hrest
  have hpos : m.prev y = .addr y := hat.prev_head
  have hne : y ≠ x := fun heq => hdisj x List.mem_cons_self (by simp [heq])
  rw [Multiset.cons_swap] at hrings
  obtain ⟨m₁, hdel, hrings₁, hlive₁, hout₁⟩ := listDel_rings hrings
  rw [cycleOf_nil, zero_add] at hrings₁ hout₁
  obtain ⟨m₂, hrep, hrings₂, hlive₂, hout₂⟩ := listReplace_rings hrings₁ hout₁ hlive₁
  obtain ⟨m₃, hadd, hrings₃⟩ := listAdd_rings hrings₂ hout₂ hlive₂
  refine ⟨m₃, ?_, hrings₃⟩
  simp [listSwap, hat.live_head, hpos, hdel, hrep, hadd, hne]

/-- Swapping with a lone `entry2` never has its effect. -/
theorem not_exec_rings_of_swapsAlone (hrings : m.Rings C)
    (heffect : op.Effect m.live C D) (hswap : op.SwapsAlone C) :
    ¬ ∃ m', op.exec m = some m' ∧ m'.Rings D := by
  rintro ⟨m', hrun, hrings'⟩
  cases heffect with
  | @swapSame x y l k C =>
      exact hrings.not_alone (show y ∈ l ++ y :: k by simp) hswap
  | @swapTwo x y l k C =>
      obtain ⟨-, hrest, hdisj⟩ := Rings.cons_iff.mp hrings
      -- the ring of `entry2` that is alone is the ring of the effect
      obtain rfl : k = [] := by
        cases k with
        | nil => rfl
        | cons z k =>
            exfalso
            rcases Multiset.mem_cons.mp hswap with heq | hmem
            · have hxy : x ∈ (([y] : List α) : Cycle α) :=
                heq ▸ Cycle.mem_coe_iff.mpr List.mem_cons_self
              apply hdisj x List.mem_cons_self
              have hx : x = y := by simpa using hxy
              simp [hx]
            · have hturn : ((y :: z :: k : List α) : Cycle α) =
                  ((z :: (k ++ [y]) : List α) : Cycle α) := coe_append_comm [y] (z :: k)
              rw [hturn] at hrest hmem
              exact hrest.not_alone (show y ∈ k ++ [y] by simp) hmem
      obtain ⟨m'', hrun', hjoined⟩ := listSwap_rings_alone hrings
      obtain rfl : m'' = m' := Option.some.inj (hrun'.symm.trans hrun)
      have hnext : m''.next y = .addr x := (Rings.cons_iff.mp hjoined).1.next_head
      obtain ⟨hring, -, hdisj'⟩ := Rings.cons_iff.mp hrings'
      have hnext' : m''.next y = .addr (firstOr y l) := hring.next_head
      have hx : x ∈ y :: l := by
        have hfirst := firstOr_mem y l
        rw [← Ptr.addr.inj (hnext.symm.trans hnext')] at hfirst
        simpa [or_comm] using hfirst
      exact hdisj' x hx (by simp)
  | _ => exact hswap

/-- Every operation of `list.h` has its effect on every heap of rings, except
`list_swap` with an `entry2` that is alone on its ring, which never has. -/
theorem exec_refines_iff (hrings : m.Rings C) (heffect : op.Effect m.live C D) :
    (∃ m', op.exec m = some m' ∧ m'.Rings D) ↔ ¬ op.SwapsAlone C :=
  ⟨fun hexec hswap => not_exec_rings_of_swapsAlone hrings heffect hswap hexec,
    exec_rings hrings heffect⟩

/-- A memory in which every cell is alone on its ring. -/
def selfLinked : Mem Nat where
  live _ := true
  next x := .addr x
  prev x := .addr x

theorem selfLinked_two :
    selfLinked.Rings ((([1] : List Nat) : Cycle Nat) ::ₘ (([2] : List Nat) : Cycle Nat) ::ₘ 0) := by
  have hring (x : Nat) : selfLinked.Ring x [] := Ring.nil_iff.mpr ⟨rfl, rfl, rfl⟩
  have hnone : selfLinked.Rings 0 := ⟨by simp, by simp⟩
  refine Rings.cons_iff.mpr ⟨hring 1, Rings.cons_iff.mpr ⟨hring 2, hnone, ?_⟩, ?_⟩
  · simp
  · intro x hx
    rw [cells_cons, List.mem_singleton.mp hx]
    simp

/-- Moving the list head `1` before the list head `2`. -/
theorem exec_refines_iff_moveTail :
    (∃ m', (moveTail 1 2).exec selfLinked = some m' ∧
        m'.Rings ((([2, 1] : List Nat) : Cycle Nat) ::ₘ 0)) ↔
      ¬ (moveTail 1 2).SwapsAlone
        ((([1] : List Nat) : Cycle Nat) ::ₘ (([2] : List Nat) : Cycle Nat) ::ₘ 0) :=
  exec_refines_iff selfLinked_two (Effect.moveTail (show cycleOf [] + _ = _ from zero_add _))

/-- Two list heads, each alone: swapping them should leave two rings, and leaves
one. -/
theorem swap_selfLinked :
    selfLinked.Rings
        ((([1] : List Nat) : Cycle Nat) ::ₘ (([2] : List Nat) : Cycle Nat) ::ₘ 0) ∧
      (swap 1 2).Effect selfLinked.live
        ((([1] : List Nat) : Cycle Nat) ::ₘ (([2] : List Nat) : Cycle Nat) ::ₘ 0)
        ((([2] : List Nat) : Cycle Nat) ::ₘ (([1] : List Nat) : Cycle Nat) ::ₘ 0) ∧
      ¬ ∃ m', (swap 1 2).exec selfLinked = some m' ∧
        m'.Rings ((([2] : List Nat) : Cycle Nat) ::ₘ (([1] : List Nat) : Cycle Nat) ::ₘ 0) :=
  ⟨selfLinked_two, Effect.swapTwo,
    not_exec_rings_of_swapsAlone selfLinked_two Effect.swapTwo (by simp [SwapsAlone])⟩

end ListOp

end ListHead
end Brlib
