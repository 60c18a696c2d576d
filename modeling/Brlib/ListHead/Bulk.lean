import Brlib.Heap.TwoLists
import Brlib.ListHead.Cut
import Brlib.ListHead.RingsSpec

/-!
# The bulk operations as sequences of moves

`list_splice_init`, `list_splice_tail_init`, `list_bulk_move_tail`, `list_cut_position`,
`list_cut_before` and `list_rotate_to_front` store to a handful of cells, however many nodes
they move.  Each of them leaves exactly the memory that the nodes leave when they are moved
one by one with `list_move` or `list_move_tail`.
-/

namespace Brlib
namespace ListHead

open Heap Heap.Mem

variable {α : Type} [DecidableEq α] {m : Mem α} {h s x : α} {l k r A B : List α}

/-- The nodes are moved one after the other. -/
def moveEach (move : Ptr α → Ptr α → Mem α → Option (Mem α)) (head : Ptr α) :
    List α → Mem α → Option (Mem α)
  | [], m => some m
  | x :: xs, m => do
      let m ← move (.addr x) head m
      moveEach move head xs m

section Moves

/-- A node leaves the second list: what remains of that list and the first one stay apart. -/
theorem unlink_two (h₂ : m.TwoLists h l s (A ++ x :: B)) :
    ∃ m', _listDelEntry (.addr x) m = some m' ∧ m'.TwoLists h l s (A ++ B) ∧
      x ∉ h :: l ∧ x ∉ s :: (A ++ B) ∧ m'.live x = true ∧
      SameOutside m m' ((h :: l) ++ (s :: (A ++ x :: B))) := by
  obtain ⟨m', hrun, hring, hsame⟩ := _listDelEntry_spec h₂.second
  have hsub : s :: (A ++ B) ⊆ s :: (A ++ x :: B) := fun y hy => by
    simp only [List.mem_cons, List.mem_append] at hy ⊢
    tauto
  have hx : x ∉ s :: (A ++ B) :=
    (List.nodup_cons.mp ((@List.perm_middle _ x (s :: A) B).nodup_iff.mp h₂.second.nodup)).1
  refine ⟨m', hrun, ?_, fun hmem => h₂.apart x hmem (by simp), hx, ?_, ?_⟩
  · exact (h₂.symm.update_first hring hsame (fun y hy => h₂.symm.apart y (hsub hy))
      fun y hy => h₂.symm.apart y (hsub hy)).symm
  · rw [hsame.live]
    exact h₂.second.live_mem (by simp)
  · exact hsame.mono fun y hy => List.mem_append_right _ (hsub hy)

theorem listMoveTail_two (h₂ : m.TwoLists h l s (A ++ x :: B)) :
    ∃ m', listMoveTail (.addr x) (.addr h) m = some m' ∧ m'.TwoLists h (l ++ [x]) s (A ++ B) ∧
      SameOutside m m' ((h :: l) ++ (s :: (A ++ x :: B))) := by
  obtain ⟨m₁, hrun₁, hlists₁, hxh, hxs, hlive, hsame₁⟩ := unlink_two h₂
  obtain ⟨m₂, hrun₂, hring₂, hsame₂⟩ := listAddTail_spec hlists₁.first hxh hlive
  have hout : ∀ y ∈ x :: h :: l, y ∉ s :: (A ++ B) :=
    List.forall_mem_cons.mpr ⟨hxs, hlists₁.apart⟩
  refine ⟨m₂, by simp [listMoveTail, hrun₁, hrun₂], ?_, hsame₁.trans (hsame₂.mono ?_)⟩
  · refine hlists₁.update_first hring₂ hsame₂ hout fun y hy => hout y ?_
    simp only [List.mem_cons, List.mem_append] at hy ⊢
    tauto
  · intro y hy
    simp only [List.mem_cons, List.mem_append] at hy ⊢
    tauto

theorem listMove_two (h₂ : m.TwoLists h l s (A ++ x :: B)) :
    ∃ m', listMove (.addr x) (.addr h) m = some m' ∧ m'.TwoLists h (x :: l) s (A ++ B) ∧
      SameOutside m m' ((h :: l) ++ (s :: (A ++ x :: B))) := by
  obtain ⟨m₁, hrun₁, hlists₁, hxh, hxs, hlive, hsame₁⟩ := unlink_two h₂
  obtain ⟨m₂, hrun₂, hring₂, hsame₂⟩ := listAdd_spec hlists₁.first hxh hlive
  have hout : ∀ y ∈ x :: h :: l, y ∉ s :: (A ++ B) :=
    List.forall_mem_cons.mpr ⟨hxs, hlists₁.apart⟩
  refine ⟨m₂, by simp [listMove, hrun₁, hrun₂], ?_, hsame₁.trans (hsame₂.mono ?_)⟩
  · refine hlists₁.update_first hring₂ hsame₂ hout fun y hy => hout y ?_
    simp only [List.mem_cons] at hy ⊢
    tauto
  · intro y hy
    simp only [List.mem_cons, List.mem_append] at hy ⊢
    tauto

theorem moveEach_tail (h₂ : m.TwoLists h l s (k ++ r)) :
    ∃ m', moveEach listMoveTail (.addr h) k m = some m' ∧ m'.TwoLists h (l ++ k) s r ∧
      SameOutside m m' ((h :: l) ++ (s :: (k ++ r))) := by
  induction k generalizing m l with
  | nil => exact ⟨m, rfl, by simpa using h₂, SameOutside.refl m _⟩
  | cons x k ih =>
      obtain ⟨m₁, hrun₁, hlists₁, hsame₁⟩ :=
        listMoveTail_two (show m.TwoLists h l s ([] ++ x :: (k ++ r)) from h₂)
      obtain ⟨m₂, hrun₂, hlists₂, hsame₂⟩ := ih hlists₁
      refine ⟨m₂, by simp [moveEach, hrun₁, hrun₂], by simpa using hlists₂,
        hsame₁.trans (hsame₂.mono fun y hy => ?_)⟩
      simp only [List.mem_cons, List.mem_append, List.nil_append, List.not_mem_nil] at hy ⊢
      tauto

/-- The last nodes of a list, moved to the front of another one by one, the last one first. -/
theorem moveEach_front (h₂ : m.TwoLists h l s (r ++ k)) :
    ∃ m', moveEach listMove (.addr h) k.reverse m = some m' ∧ m'.TwoLists h (k ++ l) s r ∧
      SameOutside m m' ((h :: l) ++ (s :: (r ++ k))) := by
  induction hk : k.reverse generalizing m l k with
  | nil =>
      obtain rfl := List.reverse_eq_nil_iff.mp hk
      exact ⟨m, rfl, by simpa using h₂, SameOutside.refl m _⟩
  | cons x k' ih =>
      obtain rfl : k = k'.reverse ++ [x] := by
        rw [← List.reverse_reverse k, hk, List.reverse_cons]
      rw [← List.append_assoc] at h₂
      obtain ⟨m₁, hrun₁, hlists₁, hsame₁⟩ := listMove_two h₂
      rw [List.append_nil] at hlists₁
      obtain ⟨m₂, hrun₂, hlists₂, hsame₂⟩ := ih hlists₁ (List.reverse_reverse k')
      refine ⟨m₂, by simp [moveEach, hrun₁, hrun₂], by simpa using hlists₂, ?_⟩
      rw [← List.append_assoc]
      refine hsame₁.trans (hsame₂.mono fun y hy => ?_)
      simp only [List.mem_cons, List.mem_append, List.not_mem_nil] at hy ⊢
      tauto

theorem listMoveTail_same (hring : m.Ring h (A ++ x :: B)) :
    ∃ m', listMoveTail (.addr x) (.addr h) m = some m' ∧ m'.Ring h (A ++ B ++ [x]) ∧
      SameOutside m m' (h :: (A ++ x :: B)) := by
  obtain ⟨m₁, hrun₁, hring₁, hsame₁⟩ := _listDelEntry_spec hring
  have hx : x ∉ h :: (A ++ B) :=
    (List.nodup_cons.mp ((@List.perm_middle _ x (h :: A) B).nodup_iff.mp hring.nodup)).1
  have hlive : m₁.live x = true := by
    rw [hsame₁.live]
    exact hring.live_mem (by simp)
  obtain ⟨m₂, hrun₂, hring₂, hsame₂⟩ := listAddTail_spec hring₁ hx hlive
  refine ⟨m₂, by simp [listMoveTail, hrun₁, hrun₂], hring₂, (hsame₁.mono ?_).trans (hsame₂.mono ?_)⟩
  · intro y hy
    simp only [List.cons_append, List.mem_cons, List.mem_append] at hy ⊢
    tauto
  · intro y hy
    simp only [List.mem_cons, List.mem_append] at hy ⊢
    tauto

theorem moveEach_run (hring : m.Ring h (A ++ k ++ B)) :
    ∃ m', moveEach listMoveTail (.addr h) k m = some m' ∧ m'.Ring h (A ++ B ++ k) ∧
      SameOutside m m' (h :: (A ++ k ++ B)) := by
  induction k generalizing m B with
  | nil => exact ⟨m, rfl, by simpa using hring, SameOutside.refl m _⟩
  | cons x k ih =>
      have hring' : m.Ring h (A ++ x :: (k ++ B)) := by simpa using hring
      obtain ⟨m₁, hrun₁, hring₁, hsame₁⟩ := listMoveTail_same hring'
      obtain ⟨m₂, hrun₂, hring₂, hsame₂⟩ := @ih m₁ (B ++ [x]) (by simpa using hring₁)
      refine ⟨m₂, by simp [moveEach, hrun₁, hrun₂], by simpa using hring₂,
        (hsame₁.mono ?_).trans (hsame₂.mono ?_)⟩
      · simp
      · intro y hy
        simp only [List.mem_cons, List.mem_append, List.not_mem_nil] at hy ⊢
        tauto

end Moves

section Splice

/-- `INIT_LIST_HEAD` of the head of a list whose nodes have all gone to another one. -/
theorem initListHead_two (hring : m.Ring h l) (hs : s ∉ h :: l) (hlive : m.live s = true) :
    ∃ m', initListHead (.addr s) m = some m' ∧ m'.TwoLists h l s [] ∧ SameOutside m m' [s] := by
  obtain ⟨m', hrun, halone, hsame⟩ := initListHead_spec hlive
  have hout : ∀ y ∈ h :: l, y ∉ [s] := fun y hy hmem => hs (List.mem_singleton.mp hmem ▸ hy)
  exact ⟨m', hrun, ⟨hring.frame hsame hout, halone, hout⟩, hsame⟩

/-- What the two functions have in common: the cells of `s` are linked into the ring, and then
its head is initialised. -/
theorem splice_then_init {m₁ : Mem α} {l' : List α} (h₂ : m.TwoLists h l s k)
    (hring₁ : m₁.Ring h l') (hsame₁ : SameOutside m m₁ ((h :: l) ++ k))
    (hperm : l'.Perm (l ++ k)) :
    ∃ m', initListHead (.addr s) m₁ = some m' ∧ m'.TwoLists h l' s [] ∧
      SameOutside m m' ((h :: l) ++ (s :: k)) := by
  have hs : s ∉ h :: l' := fun hmem => by
    have hmem' : s ∈ (h :: l) ++ k := (hperm.cons h).mem_iff.mp hmem
    rcases List.mem_append.mp hmem' with hmem | hmem
    · exact h₂.apart s hmem List.mem_cons_self
    · exact (List.nodup_cons.mp h₂.second.nodup).1 hmem
  have hlive : m₁.live s = true := by
    rw [hsame₁.live]
    exact h₂.second.live_head
  obtain ⟨m', hrun, hlists, hsame⟩ := initListHead_two hring₁ hs hlive
  refine ⟨m', hrun, hlists, (hsame₁.mono ?_).trans (hsame.mono ?_)⟩
  · intro y hy
    simp only [List.mem_append, List.mem_cons] at hy ⊢
    tauto
  · simp

theorem listSpliceInit_two (h₂ : m.TwoLists h l s k) :
    ∃ m', listSpliceInit (.addr s) (.addr h) m = some m' ∧ m'.TwoLists h (k ++ l) s [] ∧
      SameOutside m m' ((h :: l) ++ (s :: k)) := by
  cases k with
  | nil =>
      exact ⟨m, (listSplice_empty h₂.second _).2.2.1, h₂, SameOutside.refl m _⟩
  | cons x k =>
      have hdisj : ∀ y ∈ x :: k, y ∉ h :: l := fun y hy hmem =>
        h₂.apart y hmem (List.mem_cons_of_mem s hy)
      obtain ⟨m₁, hrun₁, hring₁, hsame₁⟩ := _listSplice_spec h₂.second h₂.first hdisj
      obtain ⟨m', hinit, hlists, hsame⟩ :=
        splice_then_init h₂ hring₁ hsame₁ List.perm_append_comm
      refine ⟨m', ?_, hlists, hsame⟩
      rw [listSpliceInit_eq h₂.second]
      simp [listSplice, listEmpty_eq h₂.second, getNext_addr h₂.first.live_head,
        h₂.first.next_head, hrun₁, hinit]

theorem listSpliceTailInit_two (h₂ : m.TwoLists h l s k) :
    ∃ m', listSpliceTailInit (.addr s) (.addr h) m = some m' ∧ m'.TwoLists h (l ++ k) s [] ∧
      SameOutside m m' ((h :: l) ++ (s :: k)) := by
  cases k with
  | nil =>
      exact ⟨m, (listSplice_empty h₂.second _).2.2.2, by simpa using h₂, SameOutside.refl m _⟩
  | cons x k =>
      -- the last node of the list, from which the ring is read
      obtain ⟨p, r, hprev, hfirst, hturn⟩ := h₂.first.exists_turn
      have hcells : ∀ y, y ∈ p :: r ↔ y ∈ h :: l := fun y => by
        have heq := congrArg (fun c : Cycle α => y ∈ c) (hturn [])
        simpa using heq
      have hat : m.Ring p r := h₂.first.of_cycle_eq (by simpa using (hturn []).symm)
      have hdisj : ∀ y ∈ x :: k, y ∉ p :: r := fun y hy hmem =>
        h₂.apart y ((hcells y).mp hmem) (List.mem_cons_of_mem s hy)
      obtain ⟨m₁, hrun₁, hring₁, hsame₁⟩ := _listSplice_spec h₂.second hat hdisj
      rw [hfirst] at hrun₁
      obtain ⟨m', hinit, hlists, hsame⟩ := splice_then_init h₂ (hring₁.of_cycle_eq (hturn (x :: k)))
        (hsame₁.mono fun y hy => List.mem_append.mpr
          ((List.mem_append.mp hy).imp_left (hcells y).mp)) (.refl _)
      refine ⟨m', ?_, hlists, hsame⟩
      rw [listSpliceTailInit_eq h₂.second]
      simp [listSpliceTail, listEmpty_eq h₂.second, getPrev_addr h₂.first.live_head, hprev, hrun₁,
        hinit]

/-- **Splicing a list is moving its nodes one by one**: to the end in order, or to the front
from the last one on.  The memories are the same. -/
theorem listSplice_eq_moves (h₂ : m.TwoLists h l s k) :
    ∃ m₁ m₂, listSpliceTailInit (.addr s) (.addr h) m = some m₁ ∧
      moveEach listMoveTail (.addr h) k m = some m₁ ∧
      listSpliceInit (.addr s) (.addr h) m = some m₂ ∧
      moveEach listMove (.addr h) k.reverse m = some m₂ := by
  obtain ⟨m₁, hrun₁, hlists₁, hsame₁⟩ := listSpliceTailInit_two h₂
  obtain ⟨m₁', hrun₁', hlists₁', hsame₁'⟩ :=
    moveEach_tail (r := []) (by rw [List.append_nil]; exact h₂)
  obtain ⟨m₂, hrun₂, hlists₂, hsame₂⟩ := listSpliceInit_two h₂
  obtain ⟨m₂', hrun₂', hlists₂', hsame₂'⟩ := moveEach_front (r := []) h₂
  rw [List.append_nil] at hsame₁'
  obtain rfl : m₁ = m₁' := hlists₁.eq_of_sameOutside (by simp) hlists₁' hsame₁ hsame₁'
  obtain rfl : m₂ = m₂' := hlists₂.eq_of_sameOutside (by simpa using List.perm_append_comm)
    hlists₂' hsame₂ hsame₂'
  exact ⟨m₁, m₂, hrun₁, hrun₁', hrun₂, hrun₂'⟩

theorem listSplice_eq_moves_twoHeads :
    ∃ m₁ m₂, listSpliceTailInit (.addr 5) (.addr 0) twoHeads = some m₁ ∧
      moveEach listMoveTail (.addr 0) [6, 7] twoHeads = some m₁ ∧
      listSpliceInit (.addr 5) (.addr 0) twoHeads = some m₂ ∧
      moveEach listMove (.addr 0) [7, 6] twoHeads = some m₂ :=
  listSplice_eq_moves ⟨twoHeads_ring, twoHeads_second, by decide⟩

end Splice

section Runs

/-- **Moving a run of nodes to the end is moving them one by one.** -/
theorem listBulkMoveTail_eq_moves (hring : m.Ring h (A ++ x :: k ++ B)) :
    ∃ m', listBulkMoveTail (.addr h) (.addr x) (.addr (lastOr x k)) m = some m' ∧
      moveEach listMoveTail (.addr h) (x :: k) m = some m' := by
  obtain ⟨m₁, hrun₁, hring₁, hsame₁⟩ := listBulkMoveTail_spec hring
  obtain ⟨m₂, hrun₂, hring₂, hsame₂⟩ := moveEach_run hring
  have hperm : (A ++ B ++ x :: k).Perm (A ++ x :: k ++ B) := by
    rw [List.append_assoc, List.append_assoc]
    exact List.perm_append_comm.append_left A
  obtain rfl : m₁ = m₂ := Ring.eq_of_sameOutside hperm hring₁ hring₂ hsame₁ hsame₂
  exact ⟨m₁, hrun₁, hrun₂⟩

theorem listBulkMoveTail_eq_moves_twoHeads :
    ∃ m', listBulkMoveTail (.addr 0) (.addr 2) (.addr 3) twoHeads = some m' ∧
      moveEach listMoveTail (.addr 0) [2, 3] twoHeads = some m' :=
  @listBulkMoveTail_eq_moves _ _ twoHeads 0 2 [3] [1] [4] twoHeads_ring

/-- `list_rotate_left`, `n` times. -/
def rotateLeftTimes (head : Ptr α) : ℕ → Mem α → Option (Mem α)
  | 0, m => some m
  | n + 1, m => do
      let m ← listRotateLeft head m
      rotateLeftTimes head n m

theorem listRotateLeft_spec (hring : m.Ring h (x :: l)) :
    ∃ m', listRotateLeft (.addr h) m = some m' ∧ m'.Ring h (l ++ [x]) ∧
      SameOutside m m' (h :: x :: l) := by
  obtain ⟨m', hrun, hring', hsame⟩ :=
    listMoveTail_same (show m.Ring h ([] ++ x :: l) from hring)
  refine ⟨m', ?_, hring', hsame⟩
  have hnext : m.next h = .addr x := by simpa using hring.next_head
  simp [listRotateLeft, listEmpty_eq hring, getNext_addr hring.live_head, hnext, hrun]

/-- As many rotations as there are nodes in front move these to the end. -/
theorem rotateLeftTimes_spec (hring : m.Ring h (A ++ B)) :
    ∃ m', rotateLeftTimes (.addr h) A.length m = some m' ∧ m'.Ring h (B ++ A) ∧
      SameOutside m m' (h :: (A ++ B)) := by
  induction A generalizing m B with
  | nil => exact ⟨m, rfl, by simpa using hring, SameOutside.refl m _⟩
  | cons x A ih =>
      obtain ⟨m₁, hrun₁, hring₁, hsame₁⟩ :=
        listRotateLeft_spec (show m.Ring h (x :: (A ++ B)) from hring)
      obtain ⟨m₂, hrun₂, hring₂, hsame₂⟩ := @ih m₁ (B ++ [x]) (by simpa using hring₁)
      refine ⟨m₂, by simp [rotateLeftTimes, hrun₁, hrun₂], by simpa using hring₂,
        hsame₁.trans (hsame₂.mono fun y hy => ?_)⟩
      simp only [List.mem_cons, List.mem_append, List.not_mem_nil] at hy ⊢
      tauto

theorem listRotateToFront_spec (hring : m.Ring h (A ++ x :: B)) :
    ∃ m', listRotateToFront (.addr x) (.addr h) m = some m' ∧ m'.Ring h (x :: B ++ A) ∧
      SameOutside m m' (h :: (A ++ x :: B)) := by
  -- the head is moved to the end of the list that is read from `x`
  obtain ⟨m', hrun, hring', hsame⟩ := listMoveTail_same hring.rotate
  refine ⟨m', hrun, ?_, hsame.mono ?_⟩
  · simpa using (show m'.Ring x (B ++ A ++ h :: []) from hring').rotate
  · intro y hy
    simp only [List.mem_cons, List.mem_append] at hy ⊢
    tauto

/-- **Rotating to the front is rotating to the left** as often as there are nodes in front. -/
theorem listRotateToFront_eq_rotations (hring : m.Ring h (A ++ x :: B)) :
    ∃ m', listRotateToFront (.addr x) (.addr h) m = some m' ∧
      rotateLeftTimes (.addr h) A.length m = some m' := by
  obtain ⟨m₁, hrun₁, hring₁, hsame₁⟩ := listRotateToFront_spec hring
  obtain ⟨m₂, hrun₂, hring₂, hsame₂⟩ := rotateLeftTimes_spec hring
  obtain rfl : m₁ = m₂ := Ring.eq_of_sameOutside List.perm_append_comm hring₁ hring₂ hsame₁ hsame₂
  exact ⟨m₁, hrun₁, hrun₂⟩

theorem listRotateToFront_eq_rotations_twoHeads :
    ∃ m', listRotateToFront (.addr 3) (.addr 0) twoHeads = some m' ∧
      rotateLeftTimes (.addr 0) 2 twoHeads = some m' :=
  @listRotateToFront_eq_rotations _ _ twoHeads 0 3 [1, 2] [4] twoHeads_ring

end Runs

section Cuts

theorem cutLinks_two (h₂ : m.TwoLists h (x :: k ++ r) s []) :
    (cutLinks m s h x k r).TwoLists h r s (x :: k) ∧
      SameOutside m (cutLinks m s h x k r) ((h :: (x :: k ++ r)) ++ [s]) := by
  have hs : s ∉ h :: (x :: k ++ r) := fun hmem => h₂.apart s hmem List.mem_cons_self
  obtain ⟨hcut, hrest, hsame⟩ := cutLinks_spec h₂.first hs h₂.second.live_head
  have hnodup : (h :: r ++ x :: k).Nodup :=
    (List.Perm.cons h List.perm_append_comm).nodup_iff.mp h₂.first.nodup
  refine ⟨⟨hrest, hcut, fun y hy hmem => ?_⟩, hsame.mono fun y hy => ?_⟩
  · rcases List.mem_cons.mp hmem with rfl | hmem
    · refine hs ?_
      simp only [List.mem_cons, List.mem_append] at hy ⊢
      tauto
    · exact List.disjoint_of_nodup_append hnodup hy hmem
  · simp only [List.mem_cons, List.mem_append, List.not_mem_nil] at hy ⊢
    tauto

theorem initListHead_same (hring : m.Ring s []) : initListHead (.addr s) m = some m := by
  obtain ⟨m', hrun, hring', hsame⟩ := initListHead_spec hring.live_head
  obtain rfl : m' = m := Ring.eq_of_sameOutside .nil hring' hring hsame (SameOutside.refl m _)
  exact hrun

variable {entry : α}

theorem through_append_after (head entry : α) (l : List α) :
    throughEntry head entry l ++ afterEntry head entry l = l := by
  unfold throughEntry afterEntry
  split
  · rfl
  · exact List.take_append_drop _ l

theorem before_append_from (head entry : α) (l : List α) :
    beforeEntry head entry l ++ fromEntry head entry l = l := by
  unfold beforeEntry fromEntry
  split
  · exact List.append_nil l
  · exact List.take_append_drop _ l

theorem listCutPosition_two (h₂ : m.TwoLists h l s []) (hentry : entry ∈ h :: l) :
    ∃ m', listCutPosition (.addr s) (.addr h) (.addr entry) m = some m' ∧
      m'.TwoLists h (afterEntry h entry l) s (throughEntry h entry l) ∧
      SameOutside m m' ((h :: l) ++ [s]) := by
  cases l with
  | nil =>
      obtain rfl : entry = h := by simpa using hentry
      refine ⟨m, ?_, by simpa [throughEntry, afterEntry] using h₂, SameOutside.refl m _⟩
      simp [listCutPosition, listEmpty_eq h₂.first]
  | cons x l =>
      rcases List.mem_cons.mp hentry with rfl | hmem
      · refine ⟨m, ?_, by simpa [throughEntry, afterEntry] using h₂, SameOutside.refl m _⟩
        rw [listCutPosition_head h₂.first, initListHead_same h₂.second]
      · obtain ⟨y, k, r, heq, rfl⟩ := exists_through_of_mem hmem
        rw [heq] at h₂
        obtain ⟨hthrough, hafter⟩ := through_after_eq h₂.first.nodup
        obtain ⟨hlists, hsame⟩ := cutLinks_two h₂
        rw [← heq] at hthrough hafter h₂ hsame
        rw [hthrough, hafter]
        refine ⟨_, ?_, hlists, hsame⟩
        rw [listCutPosition_node h₂.first hmem]
        exact _listCutPosition_eq (heq ▸ h₂.first) h₂.second.live_head

theorem listCutBefore_two (h₂ : m.TwoLists h l s []) (hentry : entry ∈ h :: l) :
    ∃ m', listCutBefore (.addr s) (.addr h) (.addr entry) m = some m' ∧
      m'.TwoLists h (fromEntry h entry l) s (beforeEntry h entry l) ∧
      SameOutside m m' ((h :: l) ++ [s]) := by
  obtain ⟨run, rest, rfl, rfl⟩ := exists_before_of_mem hentry
  obtain ⟨hbefore, hfrom⟩ := before_from_eq h₂.first.nodup
  rw [hbefore, hfrom]
  cases run with
  | nil =>
      refine ⟨m, ?_, h₂, SameOutside.refl m _⟩
      rw [listCutBefore_first (show m.Ring h rest from h₂.first), initListHead_same h₂.second]
  | cons x k =>
      obtain ⟨hlists, hsame⟩ := cutLinks_two h₂
      refine ⟨_, listCutBefore_eq h₂.first ?_ h₂.second.live_head, hlists, hsame⟩
      exact fun hmem => h₂.apart s hmem List.mem_cons_self

/-- A cut leaves what the moves of its nodes leave, and splicing undoes it. -/
theorem cut_eq_moves {m₁ : Mem α} (h₂ : m.TwoLists h (k ++ r) s []) (hcut : m₁.TwoLists h r s k)
    (hsame : SameOutside m m₁ ((h :: (k ++ r)) ++ [s])) :
    moveEach listMoveTail (.addr s) k m = some m₁ ∧
      listSpliceInit (.addr s) (.addr h) m₁ = some m := by
  obtain ⟨m₂, hrun₂, hlists₂, hsame₂⟩ := moveEach_tail h₂.symm
  obtain ⟨m₃, hrun₃, hlists₃, hsame₃⟩ := listSpliceInit_two hcut
  have hsame₃' : SameOutside m m₃ ((h :: (k ++ r)) ++ [s]) := by
    refine hsame.trans (hsame₃.mono fun y hy => ?_)
    simp only [List.mem_cons, List.mem_append, List.not_mem_nil] at hy ⊢
    tauto
  have hsame₂' : SameOutside m m₂ ((h :: (k ++ r)) ++ [s]) := hsame₂.mono fun y hy => by
    simp only [List.mem_cons, List.mem_append, List.not_mem_nil] at hy ⊢
    tauto
  obtain rfl : m₂ = m₁ := hlists₂.symm.eq_of_sameOutside (by simpa using List.perm_append_comm)
    hcut hsame₂' hsame
  obtain rfl : m₃ = m := hlists₃.eq_of_sameOutside (.refl _) h₂ hsame₃' (SameOutside.refl m _)
  exact ⟨hrun₂, hrun₃⟩

/-- **Cutting a list is moving the nodes one by one**, and `list_splice_init` undoes it: every
link of the memory is what it was. -/
theorem listCut_eq_moves (h₂ : m.TwoLists h l s []) (hentry : entry ∈ h :: l) :
    ∃ m₁ m₂, listCutPosition (.addr s) (.addr h) (.addr entry) m = some m₁ ∧
      moveEach listMoveTail (.addr s) (throughEntry h entry l) m = some m₁ ∧
      listSpliceInit (.addr s) (.addr h) m₁ = some m ∧
      listCutBefore (.addr s) (.addr h) (.addr entry) m = some m₂ ∧
      moveEach listMoveTail (.addr s) (beforeEntry h entry l) m = some m₂ ∧
      listSpliceInit (.addr s) (.addr h) m₂ = some m := by
  obtain ⟨m₁, hrun₁, hlists₁, hsame₁⟩ := listCutPosition_two h₂ hentry
  obtain ⟨m₂, hrun₂, hlists₂, hsame₂⟩ := listCutBefore_two h₂ hentry
  have hthrough := through_append_after h entry l
  have hbefore := before_append_from h entry l
  obtain ⟨hmoves₁, hundo₁⟩ := cut_eq_moves (by rwa [hthrough]) hlists₁ (by rwa [hthrough])
  obtain ⟨hmoves₂, hundo₂⟩ := cut_eq_moves (by rwa [hbefore]) hlists₂ (by rwa [hbefore])
  exact ⟨m₁, m₂, hrun₁, hmoves₁, hundo₁, hrun₂, hmoves₂, hundo₂⟩

theorem listCut_eq_moves_twoHeads :
    ∃ m₁ m₂, listCutPosition (.addr 8) (.addr 0) (.addr 3) twoHeads = some m₁ ∧
      moveEach listMoveTail (.addr 8) [1, 2, 3] twoHeads = some m₁ ∧
      listSpliceInit (.addr 8) (.addr 0) m₁ = some twoHeads ∧
      listCutBefore (.addr 8) (.addr 0) (.addr 3) twoHeads = some m₂ ∧
      moveEach listMoveTail (.addr 8) [1, 2] twoHeads = some m₂ ∧
      listSpliceInit (.addr 8) (.addr 0) m₂ = some twoHeads :=
  @listCut_eq_moves _ _ twoHeads 0 8 [1, 2, 3, 4] 3 ⟨twoHeads_ring,
    ⟨⟨⟨rfl, rfl⟩, trivial⟩, by decide, fun _ _ => rfl⟩, by decide⟩ (by decide)

end Cuts

end ListHead
end Brlib
