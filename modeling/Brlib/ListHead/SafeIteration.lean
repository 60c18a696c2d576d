import Brlib.ListHead.Iteration
import Brlib.ListHead.Spec

/-!
# Iteration over a list that loses elements

The body of a loop keeps the element that it is called for, deletes it, overwrites its
links behind the deletion, or moves it to another list.  It may choose by the element, by
what it carries from one element to the next, and by the memory.

One call of the body takes the element out of the ring or leaves it there
(`Action.exec_spec`), and the elements that are left are not affected (`Visiting.step`).
So each of the macros visits all elements, and those that were kept are what is left of
the list.
-/

namespace Brlib
namespace ListHead

open Heap Heap.Mem

variable {α ε σ : Type} [DecidableEq α] {m : Mem α} {h x : α} {l l₁ l₂ R : List α} {fuel : ℕ}

/-- What a body does to the element that it is called for. -/
inductive Action (α : Type) where
  | keep
  | del
  | delInit
  /-- `list_del`, and then other links. -/
  | overwrite (next prev : Ptr α)
  | move (head : α)
  | moveTail (head : α)

namespace Action

/-- Call the functions of `list.h` on the element `x`. -/
def exec (x : α) : Action α → Mem α → Option (Mem α)
  | keep, m => some m
  | del, m => listDel (.addr x) m
  | delInit, m => listDelInit (.addr x) m
  | overwrite next prev, m => do
      let m ← listDel (.addr x) m
      let m ← m.setNext (.addr x) next
      m.setPrev (.addr x) prev
  | move head, m => listMove (.addr x) (.addr head) m
  | moveTail head, m => listMoveTail (.addr x) (.addr head) m

def keeps : Action α → Bool
  | keep => true
  | _ => false

/-- An element is moved to a well-formed list that is not the list `l` of `h`. -/
def Legal (m : Mem α) (h : α) (l : List α) : Action α → Prop
  | move head | moveTail head => ∃ k, m.Ring head k ∧ ∀ y ∈ head :: k, y ∉ h :: l
  | _ => True

/-- The first half of a move: both lists are well formed when the element is on neither. -/
theorem unlink_spec {g : α} {k : List α} (hring : m.Ring h (l₁ ++ x :: l₂)) (hg : m.Ring g k)
    (hapart : ∀ y ∈ g :: k, y ∉ h :: (l₁ ++ x :: l₂)) :
    ∃ m', _listDelEntry (.addr x) m = some m' ∧ m'.Ring h (l₁ ++ l₂) ∧ m'.Ring g k ∧
      x ∉ g :: k ∧ m'.live x = true ∧ ∀ y ∈ h :: (l₁ ++ l₂), y ∉ x :: g :: k := by
  obtain ⟨m', hrun, hring', hsame⟩ := _listDelEntry_spec hring
  have hsub : ∀ y ∈ h :: (l₁ ++ l₂), y ∈ h :: (l₁ ++ x :: l₂) := by
    intro y hy
    simp only [List.mem_cons, List.mem_append] at hy ⊢
    tauto
  refine ⟨m', hrun, hring', hg.frame hsame fun y hy hmem => ?_, fun hmem => ?_, ?_, ?_⟩
  · exact hapart y hy (hsub y hmem)
  · exact hapart x hmem (by simp)
  · rw [hsame.live]
    exact hring.live_mem (by simp)
  · intro y hy hmem
    rcases List.mem_cons.mp hmem with rfl | hmem
    · have hnodup := (@List.perm_middle _ y (h :: l₁) l₂).nodup_iff.mp hring.nodup
      exact (List.nodup_cons.mp hnodup).1 hy
    · exact hapart y hmem (hsub y hy)

theorem frame_removed {m' : Mem α} (hring : m.Ring h (l₁ ++ x :: l₂)) (hout : m'.Ring h (l₁ ++ l₂))
    (next prev : Ptr α) : ((m'.putNext x next).putPrev x prev).Ring h (l₁ ++ l₂) := by
  have hsame : SameOutside m' ((m'.putNext x next).putPrev x prev) [x] :=
    ((SameOutside.refl m' _).putNext List.mem_cons_self _).putPrev List.mem_cons_self _
  refine hout.frame hsame fun y hy hmem => ?_
  obtain rfl : y = x := by simpa using hmem
  have hnodup := (@List.perm_middle _ y (h :: l₁) l₂).nodup_iff.mp hring.nodup
  exact (List.nodup_cons.mp hnodup).1 hy

theorem exec_spec {act : Action α} (hring : m.Ring h (l₁ ++ x :: l₂))
    (hlegal : act.Legal m h (l₁ ++ x :: l₂)) :
    ∃ m', act.exec x m = some m' ∧ m'.Ring h (l₁ ++ (if act.keeps then x :: l₂ else l₂)) := by
  cases act with
  | keep => exact ⟨m, rfl, hring⟩
  | del =>
      obtain ⟨m', hrun, hring', -⟩ := listDel_spec hring
      exact ⟨m', hrun, hring'⟩
  | delInit =>
      obtain ⟨m', hrun, hring', -⟩ := listDelInit_spec hring
      exact ⟨m', hrun, hring'⟩
  | overwrite next prev =>
      obtain ⟨m', hrun, hring', hsame, -⟩ := listDel_spec hring
      have hlive : m'.live x = true := by
        rw [hsame.live]
        exact hring.live_mem (by simp)
      refine ⟨(m'.putNext x next).putPrev x prev, ?_, frame_removed hring hring' next prev⟩
      simp [exec, hrun, hlive]
  | move g =>
      obtain ⟨k, hg, hapart⟩ := hlegal
      obtain ⟨m₁, hdel, hring₁, hg₁, hx, hlive, hout⟩ := unlink_spec hring hg hapart
      obtain ⟨m₂, hadd, -, hsame⟩ := listAdd_spec hg₁ hx hlive
      exact ⟨m₂, by simp [exec, listMove, hdel, hadd], hring₁.frame hsame hout⟩
  | moveTail g =>
      obtain ⟨k, hg, hapart⟩ := hlegal
      obtain ⟨m₁, hdel, hring₁, hg₁, hx, hlive, hout⟩ := unlink_spec hring hg hapart
      obtain ⟨m₂, hadd, -, hsame⟩ := listAddTail_spec hg₁ hx hlive
      exact ⟨m₂, by simp [exec, listMoveTail, hdel, hadd], hring₁.frame hsame hout⟩

end Action

/-- What the body of a loop over the list of `h` may do: it moves no element to that list. -/
def actions (h : α) : Actions (Mem α) (Action α) α where
  exec x act := act.exec x
  keeps := Action.keeps
  Legal m act := ∀ l, m.Ring h l → act.Legal m h l

/-- The body, for a cursor of type `struct list_head *`. -/
def visitAt (h : α) (choice : Choice (Mem α) (Action α) σ α) (pos : Ptr α)
    (t : Iteration (Mem α) (Action α) σ α) : Option (Iteration (Mem α) (Action α) σ α) :=
  match pos with
  | .addr x => (actions h).visit choice x t
  | _ => none

@[simp] theorem visitAt_addr (h : α) (choice : Choice (Mem α) (Action α) σ α) (x : α) :
    visitAt h choice (.addr x) = (actions h).visit choice x := rfl

/-- The list that is iterated over: what was kept, and what is left. -/
def Forwards (h : α) (m : Mem α) (K R : List α) : Prop :=
  m.Ring h (K ++ R)

/-- The same, from the last element on. -/
def Backwards (h : α) (m : Mem α) (K R : List α) : Prop :=
  m.flip.Ring h (K ++ R)

omit [DecidableEq α] in
theorem Backwards.ring {K : List α} (hinv : Backwards h m K R) : m.Ring h (K ++ R).reverse :=
  Ring.flip hinv

theorem Forwards.exec {K : List α} {act : Action α} (hinv : Forwards h m K (x :: R))
    (hlegal : (actions h).Legal m act) :
    ∃ m', (actions h).exec x act m = some m' ∧
      Forwards h m' (if act.keeps then K ++ [x] else K) R := by
  obtain ⟨m', hrun, hring⟩ := Action.exec_spec hinv (hlegal _ hinv)
  refine ⟨m', hrun, ?_⟩
  unfold Forwards
  cases hkeeps : act.keeps <;> simpa [hkeeps] using hring

theorem Backwards.exec {K : List α} {act : Action α} (hinv : Backwards h m K (x :: R))
    (hlegal : (actions h).Legal m act) :
    ∃ m', (actions h).exec x act m = some m' ∧
      Backwards h m' (if act.keeps then K ++ [x] else K) R := by
  have hring : m.Ring h (R.reverse ++ x :: K.reverse) := by
    simpa using hinv.ring
  obtain ⟨m', hrun, hring'⟩ := Action.exec_spec hring (hlegal _ hring)
  refine ⟨m', hrun, ?_⟩
  have hflip := hring'.flip
  unfold Backwards
  cases hkeeps : act.keeps <;> simpa [hkeeps] using hflip

section Loops

variable {choice : Choice (Mem α) (Action α) σ α} {s : σ}
variable (hring : m.Ring h l) (hfuel : l.length < fuel)
include hring hfuel

theorem listForEachSafe_visits (hlegal : (actions h).LegalRun choice l s m) :
    ∃ t, listForEachSafe Iteration.mem (visitAt h choice) fuel (.addr h) ⟨m, s, []⟩ = some t ∧
      t.visited.map Prod.fst = l ∧ t.mem.Ring h ((actions h).kept t.visited) := by
  obtain ⟨t, hrun, hdone⟩ := @listForEachSafe_run _ _ _ h l fuel Iteration.mem
    ((actions h).Visiting choice (Forwards h) l) ⟨m, s, []⟩ (visitAt h choice)
    (fun R t ht => ⟨_, ht.inv⟩) (fun x R t ht => ht.step fun _ _ _ _ _ => Forwards.exec) hring
    ⟨hring, rfl, hlegal⟩ hfuel
  obtain ⟨hvisited, hleft⟩ := hdone.done
  exact ⟨t, hrun, hvisited, by simpa [Forwards] using hleft⟩

theorem listForEachEntrySafe_visits (member : ε ≃ α) (hlegal : (actions h).LegalRun choice l s m) :
    ∃ t, listForEachEntrySafe member Iteration.mem
        (fun pos => visitAt h choice (memberPtr member pos)) fuel (.addr h) ⟨m, s, []⟩ = some t ∧
      t.visited.map Prod.fst = l ∧ t.mem.Ring h ((actions h).kept t.visited) := by
  have hstep : ∀ x R t, (actions h).Visiting choice (Forwards h) l (x :: R) t →
      ∃ t', visitAt h choice (memberPtr member (.addr (member.symm x))) t = some t' ∧
        (actions h).Visiting choice (Forwards h) l R t' := by
    intro x R t ht
    simpa [memberPtr] using ht.step fun _ _ _ _ _ => Forwards.exec
  obtain ⟨t, hrun, hdone⟩ := @listForEachEntrySafe_run _ _ _ _ h l fuel Iteration.mem
    ((actions h).Visiting choice (Forwards h) l) ⟨m, s, []⟩ member
    (fun pos => visitAt h choice (memberPtr member pos)) (fun R t ht => ⟨_, ht.inv⟩) hstep hring
    ⟨hring, rfl, hlegal⟩ hfuel
  obtain ⟨hvisited, hleft⟩ := hdone.done
  exact ⟨t, hrun, hvisited, by simpa [Forwards] using hleft⟩

theorem listForEachPrevSafe_visits (hlegal : (actions h).LegalRun choice l.reverse s m) :
    ∃ t, listForEachPrevSafe Iteration.mem (visitAt h choice) fuel (.addr h) ⟨m, s, []⟩ = some t ∧
      t.visited.map Prod.fst = l.reverse ∧
      t.mem.Ring h ((actions h).kept t.visited).reverse := by
  rw [← List.length_reverse] at hfuel
  rw [listForEachPrevSafe_eq]
  obtain ⟨t, hrun, hdone⟩ := @listForEachSafe_run _ _ _ h l.reverse fuel
    (fun t : Iteration (Mem α) (Action α) σ α => t.mem.flip)
    ((actions h).Visiting choice (Backwards h) l.reverse) ⟨m, s, []⟩ (visitAt h choice)
    (fun R t ht => ⟨_, ht.inv⟩) (fun x R t ht => ht.step fun _ _ _ _ _ => Backwards.exec)
    hring.flip ⟨hring.flip, rfl, hlegal⟩ hfuel
  obtain ⟨hvisited, hleft⟩ := hdone.done
  exact ⟨t, hrun, hvisited, by simpa using hleft.ring⟩

theorem listForEachEntrySafeReverse_visits (member : ε ≃ α)
    (hlegal : (actions h).LegalRun choice l.reverse s m) :
    ∃ t, listForEachEntrySafeReverse member Iteration.mem
        (fun pos => visitAt h choice (memberPtr member pos)) fuel (.addr h) ⟨m, s, []⟩ = some t ∧
      t.visited.map Prod.fst = l.reverse ∧
      t.mem.Ring h ((actions h).kept t.visited).reverse := by
  rw [← List.length_reverse] at hfuel
  have hstep : ∀ x R t, (actions h).Visiting choice (Backwards h) l.reverse (x :: R) t →
      ∃ t', visitAt h choice (memberPtr member (.addr (member.symm x))) t = some t' ∧
        (actions h).Visiting choice (Backwards h) l.reverse R t' := by
    intro x R t ht
    simpa [memberPtr] using ht.step fun _ _ _ _ _ => Backwards.exec
  rw [listForEachEntrySafeReverse_eq]
  obtain ⟨t, hrun, hdone⟩ := @listForEachEntrySafe_run _ _ _ _ h l.reverse fuel
    (fun t : Iteration (Mem α) (Action α) σ α => t.mem.flip)
    ((actions h).Visiting choice (Backwards h) l.reverse) ⟨m, s, []⟩ member
    (fun pos => visitAt h choice (memberPtr member pos)) (fun R t ht => ⟨_, ht.inv⟩) hstep
    hring.flip ⟨hring.flip, rfl, hlegal⟩ hfuel
  obtain ⟨hvisited, hleft⟩ := hdone.done
  exact ⟨t, hrun, hvisited, by simpa using hleft.ring⟩

end Loops

end ListHead
end Brlib
