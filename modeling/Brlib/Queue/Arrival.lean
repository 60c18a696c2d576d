import Brlib.Queue.Stable

/-!
# A queue sorts what it is given

The elements of a queue leave in the order of their keys and, for equal keys, in the order in
which they arrived.  So a queue that is filled and emptied is a stable sort.
-/

namespace Brlib
namespace Queue

variable {ν κ : Type*} [LinearOrder κ] (key : ν → κ)

/-- In the order of the keys and, for equal keys, in that of `arrivals`. -/
def ByArrival (arrivals l : List ν) : Prop :=
  l.Pairwise fun x y => key x < key y ∨ key x = key y ∧ [x, y].Sublist arrivals

/-- The queue `l` after the arrival of the elements `xs`. -/
def enqueueAll (l xs : List ν) : List ν :=
  xs.foldl (fun l x => enqueue key x l) l

variable {key} {x : ν} {l xs arrivals : List ν}

theorem ByArrival.ascending (hl : ByArrival key arrivals l) : Ascending key l :=
  hl.imp fun h => h.elim le_of_lt fun h => h.1.le

theorem Ascending.byArrival (hl : Ascending key l) : ByArrival key l l := by
  refine List.pairwise_iff_forall_sublist.mpr fun {x y} hsub => ?_
  have hle : key x ≤ key y := List.pairwise_iff_forall_sublist.mp hl hsub
  exact hle.lt_or_eq.imp_right fun heq => ⟨heq, hsub⟩

theorem ByArrival.enqueue (hl : ByArrival key arrivals l) (hsub : l ⊆ arrivals) :
    ByArrival key (arrivals ++ [x]) (enqueue key x l) := by
  obtain ⟨A, B, rfl, hA, hB⟩ := hl.ascending.exists_split x
  have hold : ByArrival key (arrivals ++ [x]) (A ++ B) := hl.imp fun h =>
    h.imp_right fun h => ⟨h.1, h.2.trans (List.sublist_append_left arrivals [x])⟩
  obtain ⟨hA', hB', hAB⟩ := List.pairwise_append.mp hold
  rw [enqueue_split hA hB]
  refine List.pairwise_append.mpr
    ⟨hA', List.pairwise_cons.mpr ⟨fun b hb => .inl (hB b hb), hB'⟩, fun a ha b hb => ?_⟩
  rcases List.mem_cons.mp hb with rfl | hb
  · -- the new element is behind its equals, which arrived before it
    have hmem : [a].Sublist arrivals :=
      List.singleton_sublist.mpr (hsub (List.mem_append_left B ha))
    exact (hA a ha).lt_or_eq.imp_right fun heq => ⟨heq, hmem.append (List.Sublist.refl [b])⟩
  · exact hAB a ha b hb

theorem enqueueAll_perm (l xs : List ν) : (enqueueAll key l xs).Perm (l ++ xs) := by
  induction xs generalizing l with
  | nil => simp [enqueueAll]
  | cons x xs ih =>
      have hperm : (enqueueAll key l (x :: xs)).Perm (enqueue key x l ++ xs) := ih _
      exact hperm.trans (((enqueue_perm x l).append_right xs).trans List.perm_middle.symm)

theorem ByArrival.enqueueAll (hl : ByArrival key arrivals l) (hperm : l.Perm arrivals) :
    ByArrival key (arrivals ++ xs) (enqueueAll key l xs) := by
  induction xs generalizing l arrivals with
  | nil => simpa [Queue.enqueueAll] using hl
  | cons x xs ih =>
      have hperm' : (Queue.enqueue key x l).Perm (arrivals ++ [x]) :=
        (enqueue_perm x l).trans ((List.perm_append_singleton x l).symm.trans
          (hperm.append_right [x]))
      have h := ih (hl.enqueue (x := x) hperm.subset) hperm'
      rwa [List.append_assoc] at h

end Queue
end Brlib
