import Brlib.Heap.Scan
import Brlib.ListHead.Iteration
import Brlib.ListHead.Spec

/-!
# The other iteration macros of `list.h`

These loops read the next pointer of the current element behind the body, so the body must
leave that element on the list.  It may put elements in anywhere, and take any other element
out: the loop does on the ring what a loop over a sequence does that has a part done and a part
left (`Brlib.ListHead.Editing`).  A body that leaves the list alone is called for the elements
from the one that the loop begins with to the head (`listForEachEntry_folds`).

The macros for entries are those for list heads, with `container_of` in front of the body
(`listForEachEntry_eq`, and so on), and the macros that go backwards are those that go forwards
in the memory with both fields exchanged.
-/

namespace Brlib
namespace ListHead

open Heap Heap.Mem

variable {α ε σ : Type} [DecidableEq α]

section Lists

variable (mem : σ → Mem α) (body : Ptr α → σ → Option σ)

/-- `list_for_each` -/
def listForEach (fuel : Nat) (head : Ptr α) (s : σ) : Option σ := do
  let pos ← (mem s).getNext head
  scan (fun pos => pos = head) (fun pos s => (mem s).getNext pos) body fuel pos s

/-- `list_for_each_continue` -/
def listForEachContinue (fuel : Nat) (pos head : Ptr α) (s : σ) : Option σ := do
  let pos ← (mem s).getNext pos
  scan (fun pos => pos = head) (fun pos s => (mem s).getNext pos) body fuel pos s

/-- `list_for_each_prev` -/
def listForEachPrev (fuel : Nat) (head : Ptr α) (s : σ) : Option σ := do
  let pos ← (mem s).getPrev head
  scan (fun pos => pos = head) (fun pos s => (mem s).getPrev pos) body fuel pos s

end Lists

section Entries

variable (member : ε ≃ α) (mem : σ → Mem α) (body : Ptr ε → σ → Option σ)

/-- `list_for_each_entry` -/
def listForEachEntry (fuel : Nat) (head : Ptr α) (s : σ) : Option σ := do
  let first ← (mem s).getNext head
  scan (listEntryIsHead member head) (listNextEntry member mem) body fuel
    (listEntry member first) s

/-- `list_for_each_entry_reverse` -/
def listForEachEntryReverse (fuel : Nat) (head : Ptr α) (s : σ) : Option σ := do
  let last ← (mem s).getPrev head
  scan (listEntryIsHead member head) (listPrevEntry member mem) body fuel
    (listEntry member last) s

omit [DecidableEq α] in
/-- `list_prepare_entry` -/
def listPrepareEntry (pos : Ptr ε) (head : Ptr α) : Ptr ε :=
  match pos with
  | .null => listEntry member head
  | pos => pos

/-- `list_for_each_entry_continue` -/
def listForEachEntryContinue (fuel : Nat) (pos : Ptr ε) (head : Ptr α) (s : σ) : Option σ := do
  let pos ← listNextEntry member mem pos s
  scan (listEntryIsHead member head) (listNextEntry member mem) body fuel pos s

/-- `list_for_each_entry_continue_reverse` -/
def listForEachEntryContinueReverse (fuel : Nat) (pos : Ptr ε) (head : Ptr α) (s : σ) :
    Option σ := do
  let pos ← listPrevEntry member mem pos s
  scan (listEntryIsHead member head) (listPrevEntry member mem) body fuel pos s

/-- `list_for_each_entry_from` -/
def listForEachEntryFrom (fuel : Nat) (pos : Ptr ε) (head : Ptr α) (s : σ) : Option σ :=
  scan (listEntryIsHead member head) (listNextEntry member mem) body fuel pos s

/-- `list_for_each_entry_from_reverse` -/
def listForEachEntryFromReverse (fuel : Nat) (pos : Ptr ε) (head : Ptr α) (s : σ) : Option σ :=
  scan (listEntryIsHead member head) (listPrevEntry member mem) body fuel pos s

end Entries

variable {m m' : Mem α} {h x y : α} {l A R : List α} {fuel : ℕ} {s : σ}

section Equations

variable {mem : σ → Mem α} {member : ε ≃ α} {body : Ptr ε → σ → Option σ}

omit [DecidableEq α] in
theorem listNextEntry_listEntry (pos : Ptr α) :
    listNextEntry member mem (listEntry member pos) s =
      ((mem s).getNext pos).map (listEntry member) := by
  cases pos with
  | addr a => simp [listNextEntry, listEntry, memberPtr]
  | null | junk => rfl

/-- A loop over entries is a loop over the list heads in them. -/
theorem scan_entry (pos : Ptr α) :
    scan (listEntryIsHead member (.addr h)) (listNextEntry member mem) body fuel
        (listEntry member pos) s =
      scan (fun pos => pos = Ptr.addr h) (fun pos s => (mem s).getNext pos)
        (fun pos => body (listEntry member pos)) fuel pos s := by
  have hhead : listEntryIsHead member (.addr h) (listEntry member pos) =
      decide (pos = Ptr.addr h) := by
    cases pos <;> simp [listEntryIsHead, listEntry, memberPtr]
  induction fuel generalizing pos s with
  | zero => rfl
  | succ fuel ih =>
      simp only [scan, hhead, Option.bind_eq_bind]
      cases body (listEntry member pos) s with
      | none => rfl
      | some s₁ =>
          simp only [Option.bind_some, listNextEntry_listEntry]
          cases (mem s₁).getNext pos with
          | none => rfl
          | some n =>
              have hn : listEntryIsHead member (.addr h) (listEntry member n) =
                  decide (n = Ptr.addr h) := by
                cases n <;> simp [listEntryIsHead, listEntry, memberPtr]
              simp only [Option.map_some, Option.bind_some, ih n hn]

theorem listForEachEntry_eq : listForEachEntry member mem body fuel (.addr h) s =
    listForEach mem (fun pos => body (listEntry member pos)) fuel (.addr h) s := by
  unfold listForEachEntry listForEach
  cases (mem s).getNext (.addr h) with
  | none => rfl
  | some first => simp only [Option.bind_eq_bind, Option.bind_some, scan_entry]

theorem listForEachEntryContinue_eq (pos : Ptr α) :
    listForEachEntryContinue member mem body fuel (listEntry member pos) (.addr h) s =
      listForEachContinue mem (fun pos => body (listEntry member pos)) fuel pos (.addr h) s := by
  unfold listForEachEntryContinue listForEachContinue
  rw [listNextEntry_listEntry]
  cases (mem s).getNext pos with
  | none => rfl
  | some n => simp only [Option.map_some, Option.bind_eq_bind, Option.bind_some, scan_entry]

end Equations

section Folds

variable {mem : σ → Mem α} {member : ε ≃ α}

theorem scan_ring {body : Ptr α → σ → Option σ} (hring : (mem s).Ring h (A ++ R))
    (hbody : ∀ x ∈ R, ∀ s s', (mem s).Ring h (A ++ R) → body (.addr x) s = some s' →
      (mem s').Ring h (A ++ R))
    (hfuel : R.length < fuel) :
    scan (fun pos => pos = Ptr.addr h) (fun pos s => (mem s).getNext pos) body fuel
        (.addr (firstOr h R)) s = R.foldlM (fun s x => body (.addr x) s) s := by
  rw [← cursor_addr]
  refine scan_fold (fun s => (mem s).Ring h (A ++ R)) (by simp) (fun x hx => ?_) hbody
    (fun P x Q s hR hs => ?_) hring hfuel
  · have hne : x ≠ h := fun heq => (List.nodup_cons.mp hring.nodup).1
      (heq ▸ List.mem_append_right A hx)
    simpa using hne
  · rw [hR, ← List.append_assoc] at hs
    rw [cursor_addr]
    exact getNext_mem hs

omit [DecidableEq α] in
theorem firstOr_reverse (a : α) (l : List α) : firstOr a l.reverse = lastOr a l := by
  rcases List.eq_nil_or_concat l with rfl | ⟨l, x, rfl⟩ <;> simp

omit [DecidableEq α] in
theorem lastOr_reverse (a : α) (l : List α) : lastOr a l.reverse = firstOr a l := by
  rw [← firstOr_reverse, List.reverse_reverse]

omit [DecidableEq α] in
theorem getNext_lastOr (hring : m.Ring h (A ++ R)) :
    m.getNext (.addr (lastOr h A)) = some (.addr (firstOr h R)) := by
  rcases List.eq_nil_or_concat A with rfl | ⟨A, x, rfl⟩
  · rw [lastOr_nil, getNext_addr hring.live_head, hring.next_head, List.nil_append]
  · rw [List.concat_eq_append, List.append_assoc] at hring
    rw [List.concat_eq_append, lastOr_append, lastOr_cons, lastOr_nil]
    exact getNext_mem hring

theorem listForEachContinue_fold {body : Ptr α → σ → Option σ} (hring : (mem s).Ring h (A ++ R))
    (hbody : ∀ x ∈ R, ∀ s s', (mem s).Ring h (A ++ R) → body (.addr x) s = some s' →
      (mem s').Ring h (A ++ R))
    (hfuel : R.length < fuel) :
    listForEachContinue mem body fuel (.addr (lastOr h A)) (.addr h) s =
      R.foldlM (fun s x => body (.addr x) s) s := by
  rw [listForEachContinue, getNext_lastOr hring]
  exact scan_ring hring hbody hfuel

section Entries

variable {body : Ptr ε → σ → Option σ}

theorem forwards_fold (hring : (mem s).Ring h (A ++ R))
    (hbody : ∀ x ∈ A ++ R, ∀ s s', (mem s).Ring h (A ++ R) →
      body (.addr (member.symm x)) s = some s' → (mem s').Ring h (A ++ R))
    (hfuel : (A ++ R).length < fuel) :
    listForEachEntry member mem body fuel (.addr h) s =
        (A ++ R).foldlM (fun s x => body (.addr (member.symm x)) s) s ∧
      listForEachEntryContinue member mem body fuel (.addr (member.symm (lastOr h A))) (.addr h) s =
        R.foldlM (fun s x => body (.addr (member.symm x)) s) s ∧
      listForEachEntryFrom member mem body fuel (.addr (member.symm (firstOr h R))) (.addr h) s =
        R.foldlM (fun s x => body (.addr (member.symm x)) s) s := by
  have hrest : R.length < fuel := Nat.lt_of_le_of_lt (by simp) hfuel
  have hbodyRest := fun x hx => hbody x (List.mem_append_right A hx)
  have hall : (mem s).Ring h ([] ++ (A ++ R)) := hring
  refine ⟨?_, ?_, ?_⟩
  · exact listForEachEntry_eq.trans (listForEachContinue_fold hall hbody hfuel)
  · exact (listForEachEntryContinue_eq (.addr (lastOr h A))).trans
      (listForEachContinue_fold hring hbodyRest hrest)
  · exact (scan_entry (.addr (firstOr h R))).trans (scan_ring hring hbodyRest hrest)

/-- A list that is cut in two anywhere: the loops that begin at the cut call a body that leaves
the list alone for the entries on their side of it, in the order of the list or in the reverse
one, and the loops over the list call it for all of them.  `list_prepare_entry` stands for the
cut, and for the head if there is no entry in front of it. -/
theorem listForEachEntry_folds (hring : (mem s).Ring h (A ++ R))
    (hbody : ∀ x ∈ A ++ R, ∀ s s', (mem s).Ring h (A ++ R) →
      body (.addr (member.symm x)) s = some s' → (mem s').Ring h (A ++ R))
    (hfuel : (A ++ R).length < fuel) :
    (listForEachEntry member mem body fuel (.addr h) s =
        (A ++ R).foldlM (fun s x => body (.addr (member.symm x)) s) s ∧
      listForEachEntryContinue member mem body fuel (.addr (member.symm (lastOr h A))) (.addr h) s =
        R.foldlM (fun s x => body (.addr (member.symm x)) s) s ∧
      listForEachEntryFrom member mem body fuel (.addr (member.symm (firstOr h R))) (.addr h) s =
        R.foldlM (fun s x => body (.addr (member.symm x)) s) s) ∧
      listForEachEntryReverse member mem body fuel (.addr h) s =
        (A ++ R).reverse.foldlM (fun s x => body (.addr (member.symm x)) s) s ∧
      listForEachEntryContinueReverse member mem body fuel (.addr (member.symm (firstOr h R)))
          (.addr h) s =
        A.reverse.foldlM (fun s x => body (.addr (member.symm x)) s) s ∧
      listForEachEntryFromReverse member mem body fuel (.addr (member.symm (lastOr h A)))
          (.addr h) s =
        A.reverse.foldlM (fun s x => body (.addr (member.symm x)) s) s ∧
      ∀ pos, pos = .null ∧ A = [] ∨ pos = .addr (member.symm (lastOr h A)) →
        listForEachEntryContinue member mem body fuel (listPrepareEntry member pos (.addr h))
          (.addr h) s = R.foldlM (fun s x => body (.addr (member.symm x)) s) s := by
  have hforwards := forwards_fold hring hbody hfuel
  refine ⟨hforwards, ?_⟩
  -- in the memory with both fields exchanged the list is the reversed one
  have hflip : (mem s).flip.Ring h (R.reverse ++ A.reverse) := by
    simpa using hring.flip
  have hbodyFlip : ∀ x ∈ R.reverse ++ A.reverse, ∀ s s',
      (mem s).flip.Ring h (R.reverse ++ A.reverse) →
      body (.addr (member.symm x)) s = some s' → (mem s').flip.Ring h (R.reverse ++ A.reverse) := by
    intro x hx s s' hs hrun
    have hback : (mem s).Ring h (R.reverse ++ A.reverse).reverse := Ring.flip hs
    have hx' : x ∈ A ++ R := by simpa [or_comm] using hx
    have hs' := hbody x hx' s s' (by simpa using hback) hrun
    simpa using hs'.flip
  have hfold := @forwards_fold _ _ _ _ h R.reverse A.reverse fuel s (fun s => (mem s).flip)
    member body hflip hbodyFlip (by simpa [Nat.add_comm] using hfuel)
  rw [lastOr_reverse, firstOr_reverse, ← List.reverse_append] at hfold
  refine ⟨hfold.1, hfold.2.1, hfold.2.2, ?_⟩
  -- without a cursor the loop goes on from the head
  rintro pos (⟨rfl, rfl⟩ | rfl)
  · exact hforwards.2.1
  · exact hforwards.2.1

end Entries

/-- The list of the elements 1, 2 and 3. -/
def threeElements : Mem Nat where
  live _ := true
  next x := .addr (if x = 3 then 0 else x + 1)
  prev x := .addr (if x = 0 then 3 else x - 1)

theorem threeElements_ring : threeElements.Ring 0 [1, 2, 3] :=
  ⟨⟨⟨rfl, rfl⟩, ⟨rfl, rfl⟩, ⟨rfl, rfl⟩, ⟨rfl, rfl⟩, trivial⟩, by decide, fun _ _ => rfl⟩

/-- A body that writes down the entries that it is called for. -/
def collect : Ptr Nat → Mem Nat × List Nat → Option (Mem Nat × List Nat)
  | .addr x, (m, seen) => some (m, seen ++ [x])
  | _, _ => none

theorem listForEachEntry_folds_threeElements :
    listForEachEntryContinue (.refl Nat) Prod.fst collect 4 (.addr 1) (.addr 0)
        (threeElements, []) = some (threeElements, [2, 3]) ∧
      listForEachEntryReverse (.refl Nat) Prod.fst collect 4 (.addr 0) (threeElements, []) =
        some (threeElements, [3, 2, 1]) := by
  have hfolds := @listForEachEntry_folds _ _ _ _ 0 [1] [2, 3] 4 (threeElements, []) Prod.fst
    (.refl Nat) collect threeElements_ring (by
      rintro x - ⟨m, seen⟩ ⟨m', seen'⟩ hring hrun
      obtain rfl : m = m' := (Prod.mk.inj (Option.some.inj hrun)).1
      exact hring) (by decide)
  exact ⟨hfolds.1.2.1, hfolds.2.1⟩

end Folds

end ListHead
end Brlib
