import Brlib.ListHead.SafeIteration
import Brlib.ListHead.Traversal

/-!
# Removal-safe loops that begin inside a list

`list_for_each_entry_safe_continue` and `list_for_each_entry_safe_from` do to the elements from
their starting point on what `list_for_each_entry_safe` does to all of them.  The elements in
front of it stay where they are.
-/

namespace Brlib
namespace ListHead

open Heap Heap.Mem

variable {α ε σ : Type} [DecidableEq α]

section Macros

variable (member : ε ≃ α) (mem : σ → Mem α) (body : Ptr ε → σ → Option σ)

/-- `list_for_each_entry_safe_continue` -/
def listForEachEntrySafeContinue (fuel : Nat) (pos : Ptr ε) (head : Ptr α) (s : σ) :
    Option σ := do
  let pos ← listNextEntry member mem pos s
  let n ← listNextEntry member mem pos s
  lookahead (listEntryIsHead member head) (listNextEntry member mem) body fuel pos n s

/-- `list_for_each_entry_safe_from` -/
def listForEachEntrySafeFrom (fuel : Nat) (pos : Ptr ε) (head : Ptr α) (s : σ) : Option σ := do
  let n ← listNextEntry member mem pos s
  lookahead (listEntryIsHead member head) (listNextEntry member mem) body fuel pos n s

end Macros

variable {m : Mem α} {h x : α} {A R : List α} {fuel : ℕ}

section Rules

variable {mem : σ → Mem α} {Inv : List α → σ → Prop} {s : σ} {member : ε ≃ α}
variable {body : Ptr ε → σ → Option σ}

theorem listForEachEntrySafeFrom_run
    (hring : ∀ R s, Inv R s → ∃ A, (mem s).Ring h (A ++ R))
    (hstep : ∀ x R s, Inv (x :: R) s →
      ∃ s', body (.addr (member.symm x)) s = some s' ∧ Inv R s')
    (hinv : Inv R s) (hfuel : R.length < fuel) :
    ∃ s', listForEachEntrySafeFrom member mem body fuel (.addr (member.symm (firstOr h R)))
        (.addr h) s = some s' ∧ Inv [] s' := by
  obtain ⟨A, hA⟩ := hring R s hinv
  obtain ⟨z, hz, hz_eq⟩ := getNext_cursor hA
  have hrun := @lookahead_run _ _ _ (listEntryIsHead member (.addr h))
    (listNextEntry member mem) body (fun x => Ptr.addr (member.symm x))
    (Ptr.addr (member.symm h)) Inv (by simp [listEntryIsHead, memberPtr]) ?_ ?_ R s
    (.addr (member.symm z)) fuel hinv ?_ hfuel
  · rw [cursor_entry] at hrun
    simpa [listForEachEntrySafeFrom, listNextEntry, memberPtr, listEntry, hz] using hrun
  · intro x R s hinv
    obtain ⟨A, hA⟩ := hring _ s hinv
    simpa [listEntryIsHead, memberPtr] using head_ne_mem hA
  · intro x R s hinv
    obtain ⟨s', hbody, hinv'⟩ := hstep x R s hinv
    obtain ⟨A, hA⟩ := hring R s' hinv'
    obtain ⟨z', hz', hz'_eq⟩ := getNext_cursor hA
    refine ⟨s', .addr (member.symm z'), hbody, hinv', ?_, fun hne => ?_⟩
    · rw [cursor_entry]
      simp [listNextEntry, memberPtr, listEntry, hz']
    · rw [cursor_entry, hz'_eq hne]
  · intro hne
    rw [cursor_entry, hz_eq hne]

/-- Going on behind an element is beginning at the next one. -/
theorem listForEachEntrySafeContinue_eq (hring : (mem s).Ring h (A ++ R)) :
    listForEachEntrySafeContinue member mem body fuel (.addr (member.symm (lastOr h A))) (.addr h)
        s =
      listForEachEntrySafeFrom member mem body fuel (.addr (member.symm (firstOr h R))) (.addr h)
        s := by
  have hnext : listNextEntry member mem (.addr (member.symm (lastOr h A))) s =
      some (.addr (member.symm (firstOr h R))) := by
    simp [listNextEntry, memberPtr, listEntry, getNext_lastOr hring]
  rw [listForEachEntrySafeContinue, hnext]
  rfl

end Rules

/-- The list that is iterated over behind the elements `A`. -/
def Behind (A : List α) (h : α) (m : Mem α) (K R : List α) : Prop :=
  m.Ring h (A ++ K ++ R)

theorem Behind.exec {K : List α} {act : Action α} (hinv : Behind A h m K (x :: R))
    (hlegal : (actions h).Legal m act) :
    ∃ m', (actions h).exec x act m = some m' ∧
      Behind A h m' (if act.keeps then K ++ [x] else K) R := by
  obtain ⟨m', hrun, hring⟩ := Action.exec_spec hinv (hlegal _ hinv)
  refine ⟨m', hrun, ?_⟩
  unfold Behind
  cases hkeeps : act.keeps <;> simpa [hkeeps] using hring

variable {choice : Choice (Mem α) (Action α) σ α} {s : σ}

/-- From anywhere in a list, the removal-safe loops visit the entries up to the head, in order.
The elements in front of them stay, and of the others those that were kept. -/
theorem listForEachEntrySafeFrom_visits (member : ε ≃ α) (hring : m.Ring h (A ++ R))
    (hfuel : R.length < fuel) (hlegal : (actions h).LegalRun choice R s m) :
    ∃ t, listForEachEntrySafeFrom member Iteration.mem
        (fun pos => visitAt h choice (memberPtr member pos)) fuel
        (.addr (member.symm (firstOr h R))) (.addr h) ⟨m, s, []⟩ = some t ∧
      listForEachEntrySafeContinue member Iteration.mem
        (fun pos => visitAt h choice (memberPtr member pos)) fuel
        (.addr (member.symm (lastOr h A))) (.addr h) ⟨m, s, []⟩ = some t ∧
      t.visited.map Prod.fst = R ∧ t.mem.Ring h (A ++ (actions h).kept t.visited) := by
  have hstep : ∀ x R' t, (actions h).Visiting choice (Behind A h) R (x :: R') t →
      ∃ t', visitAt h choice (memberPtr member (.addr (member.symm x))) t = some t' ∧
        (actions h).Visiting choice (Behind A h) R R' t' := by
    intro x R' t ht
    simpa [memberPtr] using ht.step fun _ _ _ _ _ => Behind.exec
  have hstart : (actions h).Visiting choice (Behind A h) R R
      (⟨m, s, []⟩ : Iteration (Mem α) (Action α) σ α) :=
    ⟨by simpa [Behind, Actions.kept] using hring, rfl, hlegal⟩
  obtain ⟨t, hrun, hdone⟩ := @listForEachEntrySafeFrom_run _ _ _ _ h R fuel Iteration.mem
    ((actions h).Visiting choice (Behind A h) R) _ member
    (fun pos => visitAt h choice (memberPtr member pos)) (fun R t ht => ⟨_, ht.inv⟩) hstep
    hstart hfuel
  obtain ⟨hvisited, hleft⟩ := hdone.done
  refine ⟨t, hrun, ?_, hvisited, by simpa [Behind] using hleft⟩
  rw [listForEachEntrySafeContinue_eq hring]
  exact hrun

/-- Everything behind the element 1 is deleted. -/
theorem listForEachEntrySafeFrom_visits_threeElements :
    ∃ t, listForEachEntrySafeFrom (.refl Nat) Iteration.mem
        (fun pos => visitAt 0 (fun _ _ _ => (.del, ())) (memberPtr (.refl Nat) pos)) 3
        (.addr 2) (.addr 0) ⟨threeElements, (), []⟩ = some t ∧
      listForEachEntrySafeContinue (.refl Nat) Iteration.mem
        (fun pos => visitAt 0 (fun _ _ _ => (.del, ())) (memberPtr (.refl Nat) pos)) 3
        (.addr 1) (.addr 0) ⟨threeElements, (), []⟩ = some t ∧
      t.visited.map Prod.fst = [2, 3] ∧ t.mem.Ring 0 ([1] ++ (actions 0).kept t.visited) :=
  @listForEachEntrySafeFrom_visits _ _ _ _ threeElements 0 [1] [2, 3] 3 (fun _ _ _ => (.del, ()))
    () (.refl Nat) threeElements_ring (by decide)
    ⟨fun _ _ => trivial, fun _ _ => ⟨fun _ _ => trivial, fun _ _ => trivial⟩⟩

end ListHead
end Brlib
