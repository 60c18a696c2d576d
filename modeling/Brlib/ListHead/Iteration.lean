import Mathlib.Logic.Equiv.Defs
import Brlib.Heap.Lookahead
import Brlib.ListHead.Basic

/-!
# The removal-safe iteration macros of `list.h`

The body of a loop is a function on the state of the program, `σ`, of which the memory of
the lists is a part.  A body that breaks or that changes the cursors is not one of these.

The macros for entries have cursors of the type of the entry.  `member` leads from the
address of an entry to the address of the list head in it, so its inverse is
`container_of`: both add a constant to an address.

The look-ahead cursor stands on the next element or on the head.  As long as the body
leaves the elements alone that are left, they are the end of the ring, and the cursor
leads through them (`listForEachSafe_run`, `listForEachEntrySafe_run`).
-/

namespace Brlib
namespace ListHead

open Heap Heap.Mem

variable {α ε σ : Type} [DecidableEq α]

/-- `&pos->member` -/
def memberPtr (member : ε ≃ α) : Ptr ε → Ptr α
  | .addr pos => .addr (member pos)
  | _ => .junk 0

/-- `list_entry`, which is `container_of` -/
def listEntry (member : ε ≃ α) : Ptr α → Ptr ε
  | .addr ptr => .addr (member.symm ptr)
  | _ => .junk 0

section Lists

variable (mem : σ → Mem α) (body : Ptr α → σ → Option σ)

/-- `list_for_each_safe` -/
def listForEachSafe (fuel : Nat) (head : Ptr α) (s : σ) : Option σ := do
  let pos ← (mem s).getNext head
  let n ← (mem s).getNext pos
  lookahead (fun pos => pos = head) (fun n s => (mem s).getNext n) body fuel pos n s

/-- `list_for_each_prev_safe` -/
def listForEachPrevSafe (fuel : Nat) (head : Ptr α) (s : σ) : Option σ := do
  let pos ← (mem s).getPrev head
  let n ← (mem s).getPrev pos
  lookahead (fun pos => pos = head) (fun n s => (mem s).getPrev n) body fuel pos n s

end Lists

section Entries

variable (member : ε ≃ α) (mem : σ → Mem α) (body : Ptr ε → σ → Option σ)

omit [DecidableEq α] in
/-- `list_next_entry` -/
def listNextEntry (pos : Ptr ε) (s : σ) : Option (Ptr ε) :=
  ((mem s).getNext (memberPtr member pos)).map (listEntry member)

omit [DecidableEq α] in
/-- `list_prev_entry` -/
def listPrevEntry (pos : Ptr ε) (s : σ) : Option (Ptr ε) :=
  ((mem s).getPrev (memberPtr member pos)).map (listEntry member)

/-- `list_entry_is_head` -/
def listEntryIsHead (head : Ptr α) (pos : Ptr ε) : Bool :=
  memberPtr member pos = head

/-- `list_for_each_entry_safe` -/
def listForEachEntrySafe (fuel : Nat) (head : Ptr α) (s : σ) : Option σ := do
  let first ← (mem s).getNext head
  let pos := listEntry member first
  let n ← listNextEntry member mem pos s
  lookahead (listEntryIsHead member head) (listNextEntry member mem) body fuel pos n s

/-- `list_for_each_entry_safe_reverse` -/
def listForEachEntrySafeReverse (fuel : Nat) (head : Ptr α) (s : σ) : Option σ := do
  let last ← (mem s).getPrev head
  let pos := listEntry member last
  let n ← listPrevEntry member mem pos s
  lookahead (listEntryIsHead member head) (listPrevEntry member mem) body fuel pos n s

end Entries

variable {m : Mem α} {h y : α} {l A R : List α} {fuel : ℕ}

section Cursors

omit [DecidableEq α]

theorem cursor_addr (l : List α) : cursor Ptr.addr (Ptr.addr h) l = .addr (firstOr h l) := by
  cases l <;> rfl

theorem cursor_entry (member : ε ≃ α) (l : List α) :
    cursor (fun x => Ptr.addr (member.symm x)) (Ptr.addr (member.symm h)) l =
      .addr (member.symm (firstOr h l)) := by
  cases l <;> rfl

theorem getNext_mem (hring : m.Ring h (A ++ y :: R)) :
    m.getNext (.addr y) = some (.addr (firstOr h R)) := by
  have hat : m.Ring y (R ++ h :: A) := hring.rotate
  rw [getNext_addr hat.live_head, hat.next_head, firstOr_append, firstOr_cons]

/-- Where the cursor goes that stands on the first of the cells that are left. -/
theorem getNext_cursor (hring : m.Ring h (A ++ R)) :
    ∃ z, m.getNext (.addr (firstOr h R)) = some (.addr z) ∧ (R ≠ [] → z = firstOr h R.tail) := by
  cases R with
  | nil =>
      refine ⟨firstOr h A, ?_, fun hne => absurd rfl hne⟩
      rw [List.append_nil] at hring
      rw [firstOr_nil, getNext_addr hring.live_head, hring.next_head]
  | cons y R => exact ⟨firstOr h R, getNext_mem hring, fun _ => rfl⟩

theorem head_ne_mem (hring : m.Ring h (A ++ y :: R)) : y ≠ h := by
  rintro rfl
  exact (List.nodup_cons.mp hring.nodup).1 (by simp)

end Cursors

section Rules

variable {mem : σ → Mem α} {Inv : List α → σ → Prop} {s : σ}

theorem listForEachSafe_run {body : Ptr α → σ → Option σ}
    (hring : ∀ R s, Inv R s → ∃ A, (mem s).Ring h (A ++ R))
    (hstep : ∀ x R s, Inv (x :: R) s → ∃ s', body (.addr x) s = some s' ∧ Inv R s')
    (hl : (mem s).Ring h l) (hinv : Inv l s) (hfuel : l.length < fuel) :
    ∃ s', listForEachSafe mem body fuel (.addr h) s = some s' ∧ Inv [] s' := by
  obtain ⟨z, hz, hz_eq⟩ := getNext_cursor (A := []) hl
  have hrun := @lookahead_run _ _ _ (fun pos => pos = Ptr.addr h)
    (fun n s => (mem s).getNext n) body Ptr.addr (Ptr.addr h) Inv (by simp) ?_ ?_ l s (.addr z)
    fuel hinv ?_ hfuel
  · obtain ⟨s', hrun, hinv'⟩ := hrun
    refine ⟨s', ?_, hinv'⟩
    rw [cursor_addr] at hrun
    simp [listForEachSafe, getNext_addr hl.live_head, hl.next_head, hz, hrun]
  · intro x R s hinv
    obtain ⟨A, hA⟩ := hring _ s hinv
    simpa using head_ne_mem hA
  · intro x R s hinv
    obtain ⟨s', hbody, hinv'⟩ := hstep x R s hinv
    obtain ⟨A, hA⟩ := hring R s' hinv'
    obtain ⟨z', hz', hz'_eq⟩ := getNext_cursor hA
    refine ⟨s', .addr z', hbody, hinv', ?_, fun hne => ?_⟩
    · rw [cursor_addr]
      exact hz'
    · rw [cursor_addr, hz'_eq hne]
  · intro hne
    rw [cursor_addr, hz_eq hne]

theorem listForEachEntrySafe_run {member : ε ≃ α} {body : Ptr ε → σ → Option σ}
    (hring : ∀ R s, Inv R s → ∃ A, (mem s).Ring h (A ++ R))
    (hstep : ∀ x R s, Inv (x :: R) s →
      ∃ s', body (.addr (member.symm x)) s = some s' ∧ Inv R s')
    (hl : (mem s).Ring h l) (hinv : Inv l s) (hfuel : l.length < fuel) :
    ∃ s', listForEachEntrySafe member mem body fuel (.addr h) s = some s' ∧ Inv [] s' := by
  obtain ⟨z, hz, hz_eq⟩ := getNext_cursor (A := []) hl
  have hrun := @lookahead_run _ _ _ (listEntryIsHead member (.addr h))
    (listNextEntry member mem) body (fun x => Ptr.addr (member.symm x))
    (Ptr.addr (member.symm h)) Inv (by simp [listEntryIsHead, memberPtr]) ?_ ?_ l s
    (.addr (member.symm z)) fuel hinv ?_ hfuel
  · obtain ⟨s', hrun, hinv'⟩ := hrun
    refine ⟨s', ?_, hinv'⟩
    rw [cursor_entry] at hrun
    simp [listForEachEntrySafe, listNextEntry, memberPtr, listEntry, getNext_addr hl.live_head,
      hl.next_head, hz, hrun]
  · intro x R s hinv
    obtain ⟨A, hA⟩ := hring _ s hinv
    simpa [listEntryIsHead, memberPtr] using head_ne_mem hA
  · intro x R s hinv
    obtain ⟨s', hbody, hinv'⟩ := hstep x R s hinv
    obtain ⟨A, hA⟩ := hring R s' hinv'
    obtain ⟨z', hz', hz'_eq⟩ := getNext_cursor hA
    refine ⟨s', .addr (member.symm z'), hbody, hinv', ?_, fun hne => ?_⟩
    · rw [cursor_entry]
      simp [listNextEntry, memberPtr, listEntry, hz']
    · rw [cursor_entry, hz'_eq hne]
  · intro hne
    rw [cursor_entry, hz_eq hne]

/-- Backwards, a loop is what it is forwards in the memory with both fields exchanged. -/
theorem listForEachPrevSafe_eq (body : Ptr α → σ → Option σ) :
    listForEachPrevSafe mem body = listForEachSafe (fun s => (mem s).flip) body := rfl

theorem listForEachEntrySafeReverse_eq (member : ε ≃ α) (body : Ptr ε → σ → Option σ) :
    listForEachEntrySafeReverse member mem body =
      listForEachEntrySafe member (fun s => (mem s).flip) body := rfl

end Rules

end ListHead
end Brlib
