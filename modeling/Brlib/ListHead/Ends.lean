import Brlib.ListHead.Iteration
import Brlib.ListHead.Spec

/-!
# The ends of a list

`list_is_first` and `list_is_last` look at one pointer of the element; the entry macros are
`container_of` of one pointer of the head.  On a list without elements, `list_first_entry` and
`list_last_entry` are the structure that would be around the head.
-/

namespace Brlib
namespace ListHead

open Heap Heap.Mem

variable {α ε : Type} [DecidableEq α]

/-- `list_is_first` -/
def listIsFirst (list head : Ptr α) (m : Mem α) : Option Bool := do
  let prev ← m.getPrev list
  some (prev = head)

/-- `list_is_last` -/
def listIsLast (list head : Ptr α) (m : Mem α) : Option Bool := do
  let next ← m.getNext list
  some (next = head)

omit [DecidableEq α] in
/-- `list_first_entry` -/
def listFirstEntry (member : ε ≃ α) (ptr : Ptr α) (m : Mem α) : Option (Ptr ε) :=
  (m.getNext ptr).map (listEntry member)

omit [DecidableEq α] in
/-- `list_last_entry` -/
def listLastEntry (member : ε ≃ α) (ptr : Ptr α) (m : Mem α) : Option (Ptr ε) :=
  (m.getPrev ptr).map (listEntry member)

/-- `list_first_entry_or_null` -/
def listFirstEntryOrNull (member : ε ≃ α) (head : Ptr α) (m : Mem α) : Option (Ptr ε) := do
  let pos ← m.getNext head
  some (if pos ≠ head then listEntry member pos else .null)

variable {m : Mem α} {h x : α} {l A R : List α}

theorem list_ends (member : ε ≃ α) (hring : m.Ring h (A ++ x :: R)) :
    listIsFirst (.addr x) (.addr h) m = some (decide (A = [])) ∧
      listIsLast (.addr x) (.addr h) m = some (decide (R = [])) ∧
      listFirstEntry member (.addr h) m = some (.addr (member.symm (firstOr x A))) ∧
      listLastEntry member (.addr h) m = some (.addr (member.symm (lastOr x R))) ∧
      listFirstEntryOrNull member (.addr h) m = some (.addr (member.symm (firstOr x A))) := by
  have hat : m.Ring x (R ++ h :: A) := hring.rotate
  have hnodup : (h :: (A ++ x :: R)).Nodup := hring.nodup
  have hnext := hring.next_head
  have hprev := hring.prev_head
  rw [firstOr_append, firstOr_cons] at hnext
  rw [lastOr_append, lastOr_cons] at hprev
  have hfirst : firstOr x A ≠ h := fun heq => by
    have hmem := firstOr_mem x A
    rw [heq] at hmem
    refine (List.nodup_cons.mp hnodup).1 ?_
    simp only [List.mem_append, List.mem_cons, List.not_mem_nil, or_false] at hmem ⊢
    tauto
  have hbefore : lastOr h A = h ↔ A = [] := by
    constructor
    · intro heq
      rcases List.eq_nil_or_concat A with rfl | ⟨A, y, rfl⟩
      · rfl
      · simp at heq
        simp [heq] at hnodup
    · rintro rfl
      rfl
  have hbehind : firstOr h R = h ↔ R = [] := by
    cases R with
    | nil => simp
    | cons y R =>
        have hy : y ≠ h := fun heq => by simp [heq] at hnodup
        simp [hy]
  refine ⟨?_, ?_, ?_, ?_, ?_⟩
  · rw [listIsFirst, getPrev_addr hat.live_head, hat.prev_head]
    simp [hbefore]
  · rw [listIsLast, getNext_addr hat.live_head, hat.next_head]
    simp [hbehind]
  · rw [listFirstEntry, getNext_addr hring.live_head, hnext]
    rfl
  · rw [listLastEntry, getPrev_addr hring.live_head, hprev]
    rfl
  · rw [listFirstEntryOrNull, getNext_addr hring.live_head, hnext]
    simp [hfirst, listEntry]

theorem listFirstEntryOrNull_nil (member : ε ≃ α) (hring : m.Ring h []) :
    listFirstEntryOrNull member (.addr h) m = some .null := by
  have hnext : m.next h = .addr h := hring.next_head
  simp [listFirstEntryOrNull, getNext_addr hring.live_head, hnext]

end ListHead
end Brlib
