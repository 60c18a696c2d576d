import Brlib.ListHead.Spec
import Brlib.Plist.Basic
import Brlib.Queue.Stable

/-!
# The two rings of a plist

`PlistInv s h L` says that the plist `h` holds the sequence `L`: the `node_list`
ring is `L`, the `prio_list` ring is the leaders of `L`, every other node of `L`
is alone on its `prio_list`, and `L` is in ascending order.

The `prio_list` ring has no head, so it is read from its first leader, and every
insertion and removal turns it to the place at hand and back.  The consistency
checks walk both rings; on a plist that keeps the invariant they find nothing.
-/

namespace Brlib
namespace Plist

open Heap Heap.Mem ListHead Queue

variable {η ν : Type}

/-- The `prio_list` ring of the leaders `Q`. -/
def PrioRing (m : Mem (Link η ν)) : List ν → Prop
  | [] => True
  | q :: Q => m.Ring (.prio q) (Q.map .prio)

/-- The plist `h` holds the nodes `L`. -/
structure PlistInv (s : PlistMem η ν) (h : η) (L : List ν) : Prop where
  nodes : s.mem.Ring (.head h) (L.map .node)
  prios : PrioRing s.mem (leaders s.prio L)
  followers : ∀ x ∈ L, x ∉ leaders s.prio L → s.mem.Ring (.prio x) []
  ascending : Ascending s.prio L

/-- A node that is on no plist: both its list heads are alone. -/
structure Idle (s : PlistMem η ν) (x : ν) : Prop where
  prio : s.mem.Ring (.prio x) []
  node : s.mem.Ring (.node x) []

section Decide

variable [DecidableEq η] [DecidableEq ν] {s : PlistMem η ν}

instance (m : Mem (Link η ν)) : ∀ Q : List ν, Decidable (PrioRing m Q)
  | [] => isTrue trivial
  | q :: Q => inferInstanceAs (Decidable (m.Ring (.prio q) (Q.map .prio)))

instance (h : η) (L : List ν) : Decidable (PlistInv s h L) :=
  decidable_of_iff (s.mem.Ring (.head h) (L.map .node) ∧ PrioRing s.mem (leaders s.prio L) ∧
      (∀ x ∈ L, x ∉ leaders s.prio L → s.mem.Ring (.prio x) []) ∧
      L.Pairwise fun x y => s.prio x ≤ s.prio y)
    ⟨fun ⟨hnodes, hprios, hfollowers, hasc⟩ => ⟨hnodes, hprios, hfollowers, hasc⟩,
      fun hinv => ⟨hinv.nodes, hinv.prios, hinv.followers, hinv.ascending⟩⟩

instance (x : ν) : Decidable (Idle s x) :=
  decidable_of_iff (s.mem.Ring (.prio x) [] ∧ s.mem.Ring (.node x) [])
    ⟨fun ⟨hprio, hnode⟩ => ⟨hprio, hnode⟩, fun hidle => ⟨hidle.prio, hidle.node⟩⟩

end Decide

/-- Two plists, which hold 1, 2, 3, 4 and 5; the nodes 2, 3 and 5 have the same priority. -/
def twoPlists : PlistMem Bool Nat where
  mem :=
    { live := fun _ => true
      next := fun
        | .head false => .addr (.node 1)
        | .head true => .addr (.node 5)
        | .node 4 => .addr (.head false)
        | .node 5 => .addr (.head true)
        | .node n => .addr (.node (if n < 4 then n + 1 else n))
        | .prio 1 => .addr (.prio 2)
        | .prio 2 => .addr (.prio 4)
        | .prio 4 => .addr (.prio 1)
        | .prio n => .addr (.prio n)
      prev := fun
        | .head false => .addr (.node 4)
        | .head true => .addr (.node 5)
        | .node 1 => .addr (.head false)
        | .node 5 => .addr (.head true)
        | .node n => .addr (.node (if n < 5 then n - 1 else n))
        | .prio 1 => .addr (.prio 4)
        | .prio 2 => .addr (.prio 1)
        | .prio 4 => .addr (.prio 2)
        | .prio n => .addr (.prio n) }
  prio
    | 1 => 3
    | 4 => 7
    | _ => 5
  warnings := 0

theorem twoPlists_first : PlistInv twoPlists false [1, 2, 3, 4] := by
  decide

theorem twoPlists_second : PlistInv twoPlists true [5] := by
  decide

/-- The node 6 is on neither. -/
theorem twoPlists_idle : Idle twoPlists 6 := by
  decide

/-- The list heads an operation on the plist `h` with the nodes `L` may write. -/
def links (h : η) (L : List ν) : List (Link η ν) :=
  .head h :: (L.map .node ++ L.map .prio)

section Links

variable {h : η} {x y : ν} {L K : List ν}

@[simp] theorem node_mem_links : Link.node x ∈ links h L ↔ x ∈ L := by
  simp [links]

@[simp] theorem prio_mem_links : Link.prio x ∈ links h L ↔ x ∈ L := by
  simp [links]

theorem links_subset (hsub : L ⊆ K) : links h L ⊆ links h K := by
  intro z hz
  cases z with
  | head h' => simpa [links] using hz
  | prio y => exact prio_mem_links.mpr (hsub (prio_mem_links.mp hz))
  | node y => exact node_mem_links.mpr (hsub (node_mem_links.mp hz))

theorem prios_subset_links : L.map Link.prio ⊆ links h L := by
  intro z hz
  simp only [links, List.mem_cons, List.mem_append]
  exact .inr (.inr hz)

theorem nodes_subset_links : .head h :: L.map Link.node ⊆ links h L := by
  intro z hz
  simp only [links, List.mem_cons, List.mem_append] at hz ⊢
  tauto

theorem nodes_not_mem_prios : ∀ z ∈ Link.head h :: L.map Link.node, z ∉ K.map Link.prio := by
  intro z hz hmem
  obtain ⟨y, -, rfl⟩ := List.mem_map.mp hmem
  simp at hz

end Links

section PrioRing

variable {m m' : Mem (Link η ν)} {x y : ν} {Q R : List ν}

@[simp] theorem prioRing_cons :
    PrioRing m (x :: Q) ↔ m.Ring (.prio x) (Q.map .prio) := Iff.rfl

/-- The ring has no first leader of its own. -/
theorem PrioRing.turn (hring : PrioRing m (Q ++ R)) : PrioRing m (R ++ Q) := by
  cases Q with
  | nil => simpa using hring
  | cons q Q =>
      cases R with
      | nil => simpa using hring
      | cons r R =>
          have hq : m.Ring (.prio q) (Q.map .prio ++ .prio r :: R.map .prio) := by
            simpa using hring
          simpa using hq.rotate

theorem PrioRing.nodup (hring : PrioRing m Q) : Q.Nodup := by
  cases Q with
  | nil => exact List.nodup_nil
  | cons q Q =>
      have hnodup : ((q :: Q).map (Link.prio : ν → Link η ν)).Nodup := hring.nodup
      exact hnodup.of_map

theorem PrioRing.live (hring : PrioRing m Q) (hx : x ∈ Q) : m.live (.prio x) = true := by
  cases Q with
  | nil => exact absurd hx List.not_mem_nil
  | cons q Q => exact hring.live _ (by simpa using hx)

theorem PrioRing.frame {xs : List (Link η ν)} (hring : PrioRing m Q)
    (hsame : SameOutside m m' xs) (hout : ∀ y ∈ Q, Link.prio y ∉ xs) : PrioRing m' Q := by
  cases Q with
  | nil => trivial
  | cons q Q =>
      refine Ring.frame hring hsame fun z hz => ?_
      obtain ⟨y, hy, rfl⟩ : ∃ y ∈ q :: Q, Link.prio y = z := by
        simpa [eq_comm] using hz
      exact hout y hy

variable [DecidableEq η] [DecidableEq ν]

theorem PrioRing.addTail {K : List ν} (hring : PrioRing m (Q ++ R)) (hy : R ++ Q = y :: K)
    (hx : x ∉ Q ++ R) (hlive : m.live (.prio x) = true) :
    ∃ m', listAddTail (.addr (.prio x)) (.addr (.prio y)) m = some m' ∧
      PrioRing m' (Q ++ x :: R) ∧ SameOutside m m' ((x :: (Q ++ R)).map .prio) := by
  have hturn : m.Ring (.prio y) (K.map .prio) := by
    have := hring.turn
    rwa [hy] at this
  have hmem : ∀ z, z ∈ y :: K → z ∈ Q ++ R := fun z hz => by
    rw [← hy] at hz
    simpa [or_comm] using hz
  have hout : Link.prio x ∉ .prio y :: K.map (Link.prio : ν → Link η ν) := by
    intro hmem'
    exact hx (hmem x (by simpa using hmem'))
  obtain ⟨m', hadd, hring', hsame⟩ := listAddTail_spec hturn hout hlive
  refine ⟨m', hadd, ?_, hsame.mono fun z hz => ?_⟩
  · have hlast : PrioRing m' (R ++ (Q ++ [x])) := by
      have hcons : PrioRing m' (y :: K ++ [x]) := by simpa using hring'
      rwa [← hy, List.append_assoc] at hcons
    simpa using hlast.turn
  · rcases List.mem_cons.mp hz with rfl | hz
    · simp
    · obtain ⟨u, hu, rfl⟩ : ∃ u ∈ y :: K, Link.prio u = z := by simpa [eq_comm] using hz
      exact List.mem_map_of_mem (List.mem_cons_of_mem x (hmem u hu))

theorem PrioRing.add (hring : PrioRing m (Q ++ y :: R)) (hx : x ∉ Q ++ y :: R)
    (hlive : m.live (.prio x) = true) :
    ∃ m', listAdd (.addr (.prio x)) (.addr (.prio y)) m = some m' ∧
      PrioRing m' (Q ++ y :: x :: R) ∧ SameOutside m m' ((x :: (Q ++ y :: R)).map .prio) := by
  have hturn : m.Ring (.prio y) ((R ++ Q).map .prio) := hring.turn
  have hout : Link.prio x ∉ .prio y :: (R ++ Q).map (Link.prio : ν → Link η ν) := by
    intro hmem
    apply hx
    simp only [List.mem_cons, List.mem_map, List.mem_append, Link.prio.injEq, exists_eq_right]
      at hmem ⊢
    tauto
  obtain ⟨m', hadd, hring', hsame⟩ := listAdd_spec hturn hout hlive
  refine ⟨m', hadd, ?_, hsame.mono fun z hz => ?_⟩
  · have hcons : PrioRing m' ((y :: x :: R) ++ Q) := by simpa using hring'
    exact hcons.turn
  · simp only [List.map_cons, List.map_append, List.mem_cons, List.mem_append] at hz ⊢
    tauto

theorem PrioRing.delInit (hring : PrioRing m (Q ++ x :: R)) :
    ∃ m', listDelInit (.addr (.prio x)) m = some m' ∧ PrioRing m' (Q ++ R) ∧
      m'.Ring (.prio x) [] ∧ SameOutside m m' ((Q ++ x :: R).map .prio) := by
  have hturn : PrioRing m ((x :: R) ++ Q) := hring.turn
  cases hrest : R ++ Q with
  | nil =>
      obtain ⟨rfl, rfl⟩ := List.append_eq_nil_iff.mp hrest
      obtain ⟨m', hdel, halone, hsame⟩ := listDelInit_alone hring
      exact ⟨m', hdel, trivial, halone, by simpa using hsame⟩
  | cons y K =>
      have hcons : PrioRing m ([x] ++ (y :: K)) := by
        rw [List.cons_append, hrest] at hturn
        exact hturn
      have hy : m.Ring (.prio y) (K.map .prio ++ .prio x :: []) := by
        simpa using hcons.turn
      obtain ⟨m', hdel, hring', halone, hsame⟩ := listDelInit_spec hy
      have hmem : ∀ z ∈ y :: K, z ∈ Q ++ R := fun z hz => by
        rw [← hrest] at hz
        simpa [or_comm] using hz
      refine ⟨m', hdel, ?_, halone, hsame.mono fun z hz => ?_⟩
      · have hturn' : PrioRing m' (R ++ Q) := by
          rw [hrest]
          simpa using hring'
        exact hturn'.turn
      · obtain ⟨u, hu, rfl⟩ : ∃ u ∈ x :: y :: K, Link.prio u = z := by
          simp only [List.cons_append, List.mem_cons, List.mem_append, List.mem_map,
            List.not_mem_nil, or_false] at hz ⊢
          rcases hz with rfl | ⟨u, hu, rfl⟩ | rfl
          · exact ⟨y, by simp, rfl⟩
          · exact ⟨u, by simp [hu], rfl⟩
          · exact ⟨x, by simp, rfl⟩
        refine List.mem_map_of_mem ?_
        rcases List.mem_cons.mp hu with rfl | hu
        · simp
        · have := hmem u hu
          simp only [List.mem_append, List.mem_cons] at this ⊢
          tauto

theorem PrioRing.listEmpty_eq (hring : PrioRing m (Q ++ x :: R)) :
    listEmpty (.addr (.prio x)) m = some (decide (Q ++ R = [])) := by
  have hturn : m.Ring (.prio x) ((R ++ Q).map .prio) := hring.turn
  rw [ListHead.listEmpty_eq hturn]
  simp [and_comm]

end PrioRing

section Check

variable [DecidableEq η] [DecidableEq ν] {s : PlistMem η ν} {h : η} {L : List ν}
variable {a p n t : Link η ν} {l : List (Link η ν)}

theorem plistCheckPrevNext_link {t : Ptr (Link η ν)} (hlink : s.mem.Link p n)
    (hp : s.mem.live p = true) (hn : s.mem.live n = true) :
    plistCheckPrevNext t (.addr p) (.addr n) s = some s := by
  simp [plistCheckPrevNext, hp, hn, hlink.1, hlink.2]

theorem plistCheckLoop_path {fuel : Nat} (hpath : s.mem.Path a (l ++ [t])) (ht : t ∉ l)
    (hlive : ∀ z ∈ t :: l, s.mem.live z = true) (hfuel : l.length < fuel) :
    plistCheckLoop (.addr t) fuel (.addr (firstOr t l)) s = some s := by
  induction l generalizing a fuel with
  | nil =>
      obtain ⟨fuel, rfl⟩ : ∃ k, fuel = k + 1 := ⟨fuel - 1, by simp at hfuel; omega⟩
      simp [plistCheckLoop]
  | cons x l ih =>
      obtain ⟨fuel, rfl⟩ : ∃ k, fuel = k + 1 := ⟨fuel - 1, by simp at hfuel; omega⟩
      simp only [List.mem_cons, not_or] at ht
      have hx : s.mem.live x = true := hlive x (by simp)
      have hpath' : s.mem.Path x (l ++ [t]) := hpath.2
      have hnext : s.mem.next x = .addr (firstOr t l) := hpath'.next_eq
      have hfirst : s.mem.live (firstOr t l) = true := by
        refine hlive _ ?_
        have hmem := firstOr_mem t l
        simp only [List.mem_append, List.mem_cons, List.not_mem_nil, or_false] at hmem ⊢
        tauto
      have hlink : s.mem.Link x (firstOr t l) := by
        cases l with
        | nil => exact hpath'.1
        | cons y l => exact hpath'.1
      have hrest := ih hpath' ht.2 (fun z hz => hlive z (by
        simp only [List.mem_cons] at hz ⊢
        tauto)) (show l.length < fuel by simpa using hfuel)
      simp [plistCheckLoop, Ne.symm ht.1, hx, hnext, plistCheckPrevNext_link hlink hx hfirst, hrest]

theorem plistCheckList_ring {fuel : Nat} (hring : s.mem.Ring t l) (hfuel : l.length < fuel) :
    plistCheckList fuel (.addr t) s = some s := by
  have hlink : s.mem.Link t (firstOr t l) := by
    cases l with
    | nil => exact hring.closed.1
    | cons x l => exact hring.closed.1
  have hloop := plistCheckLoop_path hring.closed (List.nodup_cons.mp hring.nodup).1 hring.live hfuel
  simp [plistCheckList, hring.live_head, hring.next_head,
    plistCheckPrevNext_link hlink hring.live_head hring.live_firstOr, hloop]

theorem plistHeadEmpty_eq (hinv : PlistInv s h L) :
    plistHeadEmpty (.addr (.head h)) s = some (decide (L = [])) := by
  rw [plistHeadEmpty, listEmpty_eq hinv.nodes]
  simp

omit [DecidableEq η] [DecidableEq ν] in
theorem plistFirst_cons {x : ν} (hinv : PlistInv s h (x :: L)) :
    plistFirst (.addr (.head h)) s = some (.addr (.node x)) := by
  have hnext : s.mem.next (.head h) = .addr (.node x) := hinv.nodes.next_head
  rw [plistFirst, getNext_addr hinv.nodes.live_head, hnext]

/-- The checks of a plist find nothing. -/
theorem plistCheckHead_inv {fuel : Nat} (hinv : PlistInv s h L) (hfuel : L.length < fuel) :
    plistCheckHead fuel (.addr (.head h)) s = some s := by
  have hnodes := plistCheckList_ring hinv.nodes (show (L.map Link.node).length < fuel by simpa)
  rw [plistCheckHead, plistHeadEmpty_eq hinv]
  cases L with
  | nil => simpa using hnodes
  | cons x L =>
      have hprios : s.mem.Ring (.prio x)
          (((leaders s.prio L).filter fun y => s.prio y ≠ s.prio x).map .prio) := hinv.prios
      have hlen : (((leaders s.prio L).filter fun y => s.prio y ≠ s.prio x).map
          (Link.prio : ν → Link η ν)).length < fuel := by
        have hfilter := List.length_filter_le (fun y => decide (s.prio y ≠ s.prio x))
          (leaders s.prio L)
        have hsub : (leaders s.prio L).length ≤ L.length := (leaders_sublist L).length_le
        rw [List.length_map]
        rw [List.length_cons] at hfuel
        omega
      have hcheck := plistCheckList_ring hprios hlen
      simp [plistFirst_cons hinv, prioList, hcheck, hnodes]

end Check

end Plist
end Brlib
