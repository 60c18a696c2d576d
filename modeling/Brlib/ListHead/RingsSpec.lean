import Brlib.Heap.Rings
import Brlib.ListHead.Spec

/-!
# What each list operation does to a heap of rings

The theorems of `Brlib.ListHead.Spec` are about the rings an operation works
on.  Here the same operations act on the abstract heap, a multiset of cycles:
what is said about one ring holds with any other rings beside it.

Taking a cell out (`unlink_rings`) and putting one in (`listAdd_rings`,
`listAddTail_rings`) are the two halves of the operations that move a cell, so
those are obtained by composition, whatever the rings the two halves meet.
-/

namespace Brlib
namespace ListHead

open Heap Heap.Mem

variable {α : Type} [DecidableEq α] {m : Mem α} {h e s new x y : α} {l k r : List α}
  {C D : Multiset (Cycle α)}

/-- `__list_del_entry` takes a cell out of its ring, which disappears with its
last cell. -/
theorem unlink_rings (hrings : m.Rings (((e :: l : List α) : Cycle α) ::ₘ C)) :
    ∃ m', _listDelEntry (.addr e) m = some m' ∧ m'.Rings (cycleOf l + C) ∧
      m'.live e = true ∧ e ∉ cells (cycleOf l + C) := by
  obtain ⟨hring, hC, hdisj⟩ := Rings.cons_iff.mp hrings
  have hout : e ∉ cells (cycleOf l + C) := by
    simp only [cells_add, cells_cycleOf, Multiset.mem_add, Multiset.mem_coe, not_or]
    exact ⟨(List.nodup_cons.mp hring.nodup).1, hdisj e List.mem_cons_self⟩
  cases l with
  | nil =>
      exact ⟨m, _listDelEntry_alone hring, by simpa using hC, hring.live_head, hout⟩
  | cons x l =>
      have hring' : m.Ring x (l ++ e :: []) := by
        refine hring.of_cycle_eq ?_
        exact coe_append_comm [e] (x :: l)
      obtain ⟨m', hrun, hx, hsame⟩ := _listDelEntry_spec hring'
      rw [List.append_nil] at hx hsame
      have hsub : ∀ y ∈ x :: l, y ∉ cells C :=
        fun y hy => hdisj y (List.mem_cons_of_mem e hy)
      refine ⟨m', hrun, ?_, ?_, hout⟩
      · simpa using hC.update hx hsame (by simpa using hsub) hsub
      · rw [hsame.live]
        exact hring.live_head

theorem listAdd_rings (hrings : m.Rings (((h :: l : List α) : Cycle α) ::ₘ C))
    (hnew : new ∉ cells (((h :: l : List α) : Cycle α) ::ₘ C))
    (hlive : m.live new = true) :
    ∃ m', listAdd (.addr new) (.addr h) m = some m' ∧
      m'.Rings (((h :: new :: l : List α) : Cycle α) ::ₘ C) := by
  obtain ⟨hring, hC, hdisj⟩ := Rings.cons_iff.mp hrings
  simp only [cells_cons, Multiset.mem_add, Multiset.mem_coe, not_or] at hnew
  obtain ⟨m', hrun, hring', hsame⟩ := listAdd_spec hring hnew.1 hlive
  have hall : ∀ y ∈ new :: h :: l, y ∉ cells C := by
    intro y hy
    rcases List.mem_cons.mp hy with rfl | hy
    · exact hnew.2
    · exact hdisj y hy
  refine ⟨m', hrun, hC.update hring' hsame hall fun y hy => hall y ?_⟩
  simp only [List.mem_cons] at hy ⊢
  tauto

theorem listAddTail_rings (hrings : m.Rings (((h :: l : List α) : Cycle α) ::ₘ C))
    (hnew : new ∉ cells (((h :: l : List α) : Cycle α) ::ₘ C))
    (hlive : m.live new = true) :
    ∃ m', listAddTail (.addr new) (.addr h) m = some m' ∧
      m'.Rings (((h :: (l ++ [new]) : List α) : Cycle α) ::ₘ C) := by
  obtain ⟨hring, hC, hdisj⟩ := Rings.cons_iff.mp hrings
  simp only [cells_cons, Multiset.mem_add, Multiset.mem_coe, not_or] at hnew
  obtain ⟨m', hrun, hring', hsame⟩ := listAddTail_spec hring hnew.1 hlive
  have hall : ∀ y ∈ new :: h :: l, y ∉ cells C := by
    intro y hy
    rcases List.mem_cons.mp hy with rfl | hy
    · exact hnew.2
    · exact hdisj y hy
  refine ⟨m', hrun, hC.update hring' hsame hall fun y hy => hall y ?_⟩
  simp only [List.mem_cons, List.mem_append, List.not_mem_nil, or_false] at hy ⊢
  tauto

theorem initListHead_rings (hrings : m.Rings C) (hx : x ∉ cells C)
    (hlive : m.live x = true) :
    ∃ m', initListHead (.addr x) m = some m' ∧
      m'.Rings ((([x] : List α) : Cycle α) ::ₘ C) := by
  obtain ⟨m', hrun, hring, hsame⟩ := initListHead_spec hlive
  exact ⟨m', hrun, hrings.update hring hsame (by simpa using hx) (by simpa using hx)⟩

theorem listDel_rings (hrings : m.Rings (((e :: l : List α) : Cycle α) ::ₘ C)) :
    ∃ m', listDel (.addr e) m = some m' ∧ m'.Rings (cycleOf l + C) ∧
      m'.live e = true ∧ e ∉ cells (cycleOf l + C) := by
  obtain ⟨m₁, hrun, hrings₁, hlive, hout⟩ := unlink_rings hrings
  have hwritten : SameOutside m₁ ((m₁.putNext e listPoison1).putPrev e listPoison2) [e] :=
    ((SameOutside.refl m₁ _).putNext List.mem_cons_self _).putPrev List.mem_cons_self _
  refine ⟨(m₁.putNext e listPoison1).putPrev e listPoison2, ?_, ?_, hlive, hout⟩
  · simp [listDel, hrun, hlive]
  · refine hrings₁.frame hwritten fun x hx hmem => ?_
    rw [List.mem_singleton] at hmem
    exact hout (hmem ▸ hx)

theorem listDelInit_rings (hrings : m.Rings (((e :: l : List α) : Cycle α) ::ₘ C)) :
    ∃ m', listDelInit (.addr e) m = some m' ∧
      m'.Rings ((([e] : List α) : Cycle α) ::ₘ (cycleOf l + C)) := by
  obtain ⟨m₁, hrun, hrings₁, hlive, hout⟩ := unlink_rings hrings
  obtain ⟨m₂, hinit, hrings₂⟩ := initListHead_rings hrings₁ hout hlive
  exact ⟨m₂, by simp [listDelInit, hrun, hinit], hrings₂⟩

/-- `list_move`: the cell leaves its ring and goes right after the anchor. -/
theorem listMove_rings (hrings : m.Rings (((e :: r : List α) : Cycle α) ::ₘ C))
    (hanchor : cycleOf r + C = ((h :: l : List α) : Cycle α) ::ₘ D) :
    ∃ m', listMove (.addr e) (.addr h) m = some m' ∧
      m'.Rings (((h :: e :: l : List α) : Cycle α) ::ₘ D) := by
  obtain ⟨m₁, hrun, hrings₁, hlive, hout⟩ := unlink_rings hrings
  rw [hanchor] at hrings₁ hout
  obtain ⟨m₂, hadd, hrings₂⟩ := listAdd_rings hrings₁ hout hlive
  exact ⟨m₂, by simp [listMove, hrun, hadd], hrings₂⟩

theorem listMoveTail_rings (hrings : m.Rings (((e :: r : List α) : Cycle α) ::ₘ C))
    (hanchor : cycleOf r + C = ((h :: l : List α) : Cycle α) ::ₘ D) :
    ∃ m', listMoveTail (.addr e) (.addr h) m = some m' ∧
      m'.Rings (((h :: (l ++ [e]) : List α) : Cycle α) ::ₘ D) := by
  obtain ⟨m₁, hrun, hrings₁, hlive, hout⟩ := unlink_rings hrings
  rw [hanchor] at hrings₁ hout
  obtain ⟨m₂, hadd, hrings₂⟩ := listAddTail_rings hrings₁ hout hlive
  exact ⟨m₂, by simp [listMoveTail, hrun, hadd], hrings₂⟩

theorem listReplace_rings (hrings : m.Rings (((e :: l : List α) : Cycle α) ::ₘ C))
    (hnew : new ∉ cells (((e :: l : List α) : Cycle α) ::ₘ C))
    (hlive : m.live new = true) :
    ∃ m', listReplace (.addr e) (.addr new) m = some m' ∧
      m'.Rings (((new :: l : List α) : Cycle α) ::ₘ C) ∧
      m'.live e = true ∧ e ∉ cells (((new :: l : List α) : Cycle α) ::ₘ C) := by
  obtain ⟨hring, hC, hdisj⟩ := Rings.cons_iff.mp hrings
  simp only [cells_cons, Multiset.mem_add, Multiset.mem_coe, not_or] at hnew
  obtain ⟨m', hrun, hring', hsame⟩ := listReplace_spec hring hnew.1 hlive
  have hall : ∀ y ∈ new :: e :: l, y ∉ cells C := by
    intro y hy
    rcases List.mem_cons.mp hy with rfl | hy
    · exact hnew.2
    · exact hdisj y hy
  refine ⟨m', hrun, hC.update hring' hsame hall fun y hy => hall y ?_, ?_, ?_⟩
  · simp only [List.mem_cons] at hy ⊢
    tauto
  · rw [hsame.live]
    exact hring.live_head
  · have hnodup := hring.nodup
    simp only [cells_cons, Multiset.mem_add, Multiset.mem_coe, List.mem_cons, not_or] at hnew ⊢
    exact ⟨⟨Ne.symm hnew.1.1, (List.nodup_cons.mp hnodup).1⟩, hdisj e List.mem_cons_self⟩

/-- `list_replace_init` also leaves the old cell alone on a ring of its own. -/
theorem listReplaceInit_rings (hrings : m.Rings (((e :: l : List α) : Cycle α) ::ₘ C))
    (hnew : new ∉ cells (((e :: l : List α) : Cycle α) ::ₘ C))
    (hlive : m.live new = true) :
    ∃ m', listReplaceInit (.addr e) (.addr new) m = some m' ∧
      m'.Rings ((([e] : List α) : Cycle α) ::ₘ ((new :: l : List α) : Cycle α) ::ₘ C) := by
  obtain ⟨m₁, hrun, hrings₁, hlive₁, hout⟩ := listReplace_rings hrings hnew hlive
  obtain ⟨m₂, hinit, hrings₂⟩ := initListHead_rings hrings₁ hout hlive₁
  exact ⟨m₂, by simp [listReplaceInit, hrun, hinit], hrings₂⟩

theorem listSwap_rings_same
    (hrings : m.Rings (((x :: (l ++ y :: k) : List α) : Cycle α) ::ₘ C)) :
    ∃ m', listSwap (.addr x) (.addr y) m = some m' ∧
      m'.Rings (((y :: (l ++ x :: k) : List α) : Cycle α) ::ₘ C) := by
  obtain ⟨hring, -, -⟩ := Rings.cons_iff.mp hrings
  have hat : m.Ring y (k ++ x :: l) := hring.rotate
  have hpos : m.prev y = .addr (lastOr x l) := by simpa using hat.prev_head
  have hturn : ((x :: (l ++ y :: k) : List α) : Cycle α) =
      ((y :: (k ++ x :: l) : List α) : Cycle α) := coe_append_comm (x :: l) (y :: k)
  rw [hturn] at hrings
  obtain ⟨m₁, hdel, hrings₁, hlive₁, hout₁⟩ := listDel_rings hrings
  rw [cycleOf_append_cons, Multiset.singleton_add] at hrings₁ hout₁
  obtain ⟨m₂, hrep, hrings₂, hlive₂, hout₂⟩ := listReplace_rings hrings₁ hout₁ hlive₁
  rcases List.eq_nil_or_concat' l with rfl | ⟨l', p, rfl⟩
  · -- `entry1` stood right before `entry2`: it goes right after it
    obtain ⟨m₃, hadd, hrings₃⟩ := listAdd_rings hrings₂ hout₂ hlive₂
    refine ⟨m₃, ?_, by simpa using hrings₃⟩
    simp [listSwap, hat.live_head, hpos, hdel, hrep, hadd]
  · have hturn₂ : ((y :: (l' ++ [p] ++ k) : List α) : Cycle α) =
        ((p :: (k ++ y :: l') : List α) : Cycle α) := by
      simpa using coe_append_comm (y :: l') (p :: k)
    rw [hturn₂] at hrings₂ hout₂
    obtain ⟨m₃, hadd, hrings₃⟩ := listAdd_rings hrings₂ hout₂ hlive₂
    have hne : p ≠ x := fun heq => by
      have := hring.nodup
      simp [heq] at this
    refine ⟨m₃, ?_, ?_⟩
    · simp [listSwap, hat.live_head, hpos, hdel, hrep, hadd, hne]
    · have hturn₃ : ((p :: x :: (k ++ y :: l') : List α) : Cycle α) =
          ((y :: (l' ++ [p] ++ x :: k) : List α) : Cycle α) := by
        simpa using coe_append_comm (p :: x :: k) (y :: l')
      rwa [hturn₃] at hrings₃

/-- `list_swap` across two rings; `entry2` must have company on its ring, since
its position is found through its predecessor. -/
theorem listSwap_rings_two (hk : k ≠ [])
    (hrings : m.Rings (((x :: l : List α) : Cycle α) ::ₘ ((y :: k : List α) : Cycle α) ::ₘ C)) :
    ∃ m', listSwap (.addr x) (.addr y) m = some m' ∧
      m'.Rings (((y :: l : List α) : Cycle α) ::ₘ ((x :: k : List α) : Cycle α) ::ₘ C) := by
  obtain ⟨hring, hrest, hdisj⟩ := Rings.cons_iff.mp hrings
  obtain ⟨hat, -, -⟩ := Rings.cons_iff.mp hrest
  obtain ⟨k', p, rfl⟩ := (List.eq_nil_or_concat' k).resolve_left hk
  have hpos : m.prev y = .addr p := by simpa using hat.prev_head
  have hne : p ≠ x := fun heq => hdisj x List.mem_cons_self (by simp [← heq])
  rw [Multiset.cons_swap] at hrings
  obtain ⟨m₁, hdel, hrings₁, hlive₁, hout₁⟩ := listDel_rings hrings
  rw [cycleOf_append_cons, List.nil_append, Multiset.singleton_add, Multiset.cons_swap]
    at hrings₁ hout₁
  obtain ⟨m₂, hrep, hrings₂, hlive₂, hout₂⟩ := listReplace_rings hrings₁ hout₁ hlive₁
  rw [Multiset.cons_swap] at hrings₂ hout₂
  obtain ⟨m₃, hadd, hrings₃⟩ := listAdd_rings hrings₂ hout₂ hlive₂
  refine ⟨m₃, ?_, ?_⟩
  · simp [listSwap, hat.live_head, hpos, hdel, hrep, hadd, hne]
  · have hturn₃ : ((p :: x :: k' : List α) : Cycle α) =
        ((x :: (k' ++ [p]) : List α) : Cycle α) := coe_append_comm [p] (x :: k')
    rwa [hturn₃, Multiset.cons_swap] at hrings₃

/-- `list_bulk_move_tail`: the run goes right before the anchor. -/
theorem listBulkMoveTail_rings
    (hrings : m.Rings (((h :: (l ++ x :: k ++ r) : List α) : Cycle α) ::ₘ C)) :
    ∃ m', listBulkMoveTail (.addr h) (.addr x) (.addr (lastOr x k)) m = some m' ∧
      m'.Rings (((h :: (l ++ r ++ x :: k) : List α) : Cycle α) ::ₘ C) := by
  obtain ⟨hring, hC, hdisj⟩ := Rings.cons_iff.mp hrings
  obtain ⟨m', hrun, hring', hsame⟩ := listBulkMoveTail_spec hring
  have hdisj' : ∀ y ∈ h :: l ++ x :: k ++ r, y ∉ cells C := by simpa using hdisj
  refine ⟨m', hrun, hC.update hring' hsame hdisj' fun y hy => hdisj' y ?_⟩
  simp only [List.mem_cons, List.mem_append] at hy ⊢
  tauto

theorem listRotateLeft_rings
    (hrings : m.Rings (((h :: x :: l : List α) : Cycle α) ::ₘ C)) :
    ∃ m', listRotateLeft (.addr h) m = some m' ∧
      m'.Rings (((h :: (l ++ [x]) : List α) : Cycle α) ::ₘ C) := by
  obtain ⟨hring, -, -⟩ := Rings.cons_iff.mp hrings
  have hnext : m.next h = .addr x := by simpa using hring.next_head
  have hturn : ((h :: x :: l : List α) : Cycle α) = ((x :: (l ++ [h]) : List α) : Cycle α) :=
    coe_append_comm [h] (x :: l)
  rw [hturn] at hrings
  obtain ⟨m', hrun, hrings'⟩ := listMoveTail_rings hrings
    (show cycleOf (l ++ [h]) + C = ((h :: l : List α) : Cycle α) ::ₘ C by
      simp [cycleOf_append_cons])
  refine ⟨m', ?_, hrings'⟩
  simp [listRotateLeft, listEmpty_eq hring, getNext_addr hring.live_head, hnext, hrun]

theorem listRotateLeft_alone (hring : m.Ring h []) :
    listRotateLeft (.addr h) m = some m := by
  simp [listRotateLeft, listEmpty_eq hring]

theorem listRotateToFront_rings
    (hrings : m.Rings (((h :: (l ++ x :: k) : List α) : Cycle α) ::ₘ C)) :
    ∃ m', listRotateToFront (.addr x) (.addr h) m = some m' ∧
      m'.Rings (((h :: x :: (k ++ l) : List α) : Cycle α) ::ₘ C) := by
  obtain ⟨m', hrun, hrings'⟩ := listMoveTail_rings hrings
    (show cycleOf (l ++ x :: k) + C = ((x :: (k ++ l) : List α) : Cycle α) ::ₘ C by
      simp [cycleOf_append_cons])
  have hturn : ((x :: (k ++ l ++ [h]) : List α) : Cycle α) =
      ((h :: x :: (k ++ l) : List α) : Cycle α) := coe_append_comm (x :: (k ++ l)) [h]
  rw [hturn] at hrings'
  exact ⟨m', by simpa [listRotateToFront] using hrun, hrings'⟩

theorem _listSplice_rings {p : α}
    (hrings : m.Rings
      (((s :: x :: k : List α) : Cycle α) ::ₘ ((p :: r : List α) : Cycle α) ::ₘ C)) :
    ∃ m', _listSplice (.addr s) (.addr p) (.addr (firstOr p r)) m = some m' ∧
      m'.Rings (((p :: (x :: k ++ r) : List α) : Cycle α) ::ₘ C) ∧
      m'.live s = true ∧ s ∉ cells (((p :: (x :: k ++ r) : List α) : Cycle α) ::ₘ C) := by
  obtain ⟨hring, hrest, hdisj⟩ := Rings.cons_iff.mp hrings
  obtain ⟨hat, hC, hdisj'⟩ := Rings.cons_iff.mp hrest
  simp only [cells_cons, Multiset.mem_add, Multiset.mem_coe, not_or] at hdisj
  obtain ⟨m', hrun, hring', hsame⟩ := _listSplice_spec hring hat
    fun y hy => (hdisj y (List.mem_cons_of_mem s hy)).1
  have hall : ∀ y ∈ p :: r ++ x :: k, y ∉ cells C := by
    intro y hy
    rcases List.mem_append.mp hy with hy | hy
    · exact hdisj' y hy
    · exact (hdisj y (List.mem_cons_of_mem s hy)).2
  have hs := hdisj s List.mem_cons_self
  refine ⟨m', hrun, hC.update hring' hsame hall fun y hy => hall y ?_, ?_, ?_⟩
  · simp only [List.mem_cons, List.mem_append] at hy ⊢
    tauto
  · rw [hsame.live]
    exact hring.live_head
  · have hnodup := (List.nodup_cons.mp hring.nodup).1
    simp only [List.mem_cons, not_or] at hs hnodup
    simp only [cells_cons, Multiset.mem_add, Multiset.mem_coe, List.mem_cons,
      List.mem_append, List.cons_append, not_or]
    exact ⟨⟨hs.1.1, hnodup.1, hnodup.2, hs.1.2⟩, hs.2⟩

theorem listSplice_rings
    (hrings : m.Rings
      (((s :: x :: k : List α) : Cycle α) ::ₘ ((h :: l : List α) : Cycle α) ::ₘ C)) :
    ∃ m', listSplice (.addr s) (.addr h) m = some m' ∧
      m'.Rings (((h :: (x :: k ++ l) : List α) : Cycle α) ::ₘ C) ∧
      m'.live s = true ∧ s ∉ cells (((h :: (x :: k ++ l) : List α) : Cycle α) ::ₘ C) := by
  obtain ⟨hring, hrest, -⟩ := Rings.cons_iff.mp hrings
  obtain ⟨hat, -, -⟩ := Rings.cons_iff.mp hrest
  obtain ⟨m', hrun, hspliced⟩ := _listSplice_rings hrings
  refine ⟨m', ?_, hspliced⟩
  simp [listSplice, listEmpty_eq hring, getNext_addr hat.live_head, hat.next_head, hrun]

theorem listSpliceTail_rings
    (hrings : m.Rings
      (((s :: x :: k : List α) : Cycle α) ::ₘ ((h :: l : List α) : Cycle α) ::ₘ C)) :
    ∃ m', listSpliceTail (.addr s) (.addr h) m = some m' ∧
      m'.Rings (((h :: (l ++ x :: k) : List α) : Cycle α) ::ₘ C) ∧
      m'.live s = true ∧ s ∉ cells (((h :: (l ++ x :: k) : List α) : Cycle α) ::ₘ C) := by
  obtain ⟨hring, hrest, -⟩ := Rings.cons_iff.mp hrings
  obtain ⟨hat, -, -⟩ := Rings.cons_iff.mp hrest
  obtain ⟨p, r, hprev, hfirst, hturn⟩ := hat.exists_turn
  have hturn₀ := hturn []
  rw [List.nil_append, List.append_nil] at hturn₀
  rw [← hturn₀] at hrings
  obtain ⟨m', hrun, hspliced⟩ := _listSplice_rings hrings
  rw [hturn (x :: k)] at hspliced
  rw [hfirst] at hrun
  refine ⟨m', ?_, hspliced⟩
  simp [listSpliceTail, listEmpty_eq hring, getPrev_addr hat.live_head, hprev, hrun]

/-- The two `_init` variants end by making the emptied head a ring by itself. -/
theorem listSpliceInit_eq (hring : m.Ring s (x :: k)) (head : Ptr α) :
    listSpliceInit (.addr s) head m =
      (listSplice (.addr s) head m).bind (initListHead (.addr s)) := by
  simp [listSpliceInit, listSplice, listEmpty_eq hring, Option.bind_assoc]

theorem listSpliceTailInit_eq (hring : m.Ring s (x :: k)) (head : Ptr α) :
    listSpliceTailInit (.addr s) head m =
      (listSpliceTail (.addr s) head m).bind (initListHead (.addr s)) := by
  simp [listSpliceTailInit, listSpliceTail, listEmpty_eq hring, Option.bind_assoc]

/-- None of the four functions touches an empty list. -/
theorem listSplice_empty (hring : m.Ring s []) (head : Ptr α) :
    listSplice (.addr s) head m = some m ∧ listSpliceTail (.addr s) head m = some m ∧
      listSpliceInit (.addr s) head m = some m ∧
      listSpliceTailInit (.addr s) head m = some m := by
  simp [listSplice, listSpliceTail, listSpliceInit, listSpliceTailInit, listEmpty_eq hring]

end ListHead
end Brlib
