import Brlib.Heap.Chain
import Brlib.Plist.Spec

/-!
# `plist_requeue` is `plist_del` followed by `plist_add`

`plist_requeue` returns early for the last node and for the last node of its
priority, and otherwise looks for its new place along `node_list`.  The invariant
fixes every list head of the plist (`PlistInv.agree`), so it is enough that both
ways leave the same sequence of nodes.
-/

namespace Brlib
namespace Plist

open Heap Heap.Mem ListHead Queue

variable {η ν : Type} [DecidableEq η] [DecidableEq ν] {s s' : PlistMem η ν} {h : η} {x y : ν}
variable {L A B : List ν}

/-- The loop of `plist_requeue` passes the nodes `Q` of the priority of the node and
stops at the next one or, behind the last one, at the head. -/
theorem plistRequeueLoop_spec {fuel : Nat} {D Q R : List ν} (hinv : PlistInv s h (D ++ (Q ++ R)))
    (hx : s.mem.live (.node x) = true) (hQ : ∀ q ∈ Q, s.prio x = s.prio q)
    (hR : ∀ r ∈ R, s.prio x < s.prio r) (hfuel : Q.length < fuel) :
    plistRequeueLoop (.addr (.node x)) (.addr (.head h)) s fuel
        (.addr (firstOr (.head h) ((Q ++ R).map .node))) =
      some (.addr (firstOr (.head h) (R.map .node))) := by
  have hlive : ∀ a ∈ D ++ (Q ++ R), s.mem.live (.node a) = true := fun a ha =>
    hinv.nodes.live_mem (List.mem_map_of_mem ha)
  induction Q generalizing D fuel with
  | nil =>
      obtain ⟨fuel, rfl⟩ : ∃ k, fuel = k + 1 := ⟨fuel - 1, by simp at hfuel; omega⟩
      cases R with
      | nil => simp [plistRequeueLoop]
      | cons r R =>
          have hr : s.getPrio (.addr (.node r)) = some (s.prio r) :=
            getPrio_node (hlive r (by simp))
          have hne : s.prio x ≠ s.prio r := (hR r List.mem_cons_self).ne
          simp [plistRequeueLoop, getPrio_node hx, hr, hne]
  | cons q Q ih =>
      obtain ⟨fuel, rfl⟩ : ∃ k, fuel = k + 1 := ⟨fuel - 1, by simp at hfuel; omega⟩
      have hq : s.getPrio (.addr (.node q)) = some (s.prio q) :=
        getPrio_node (hlive q (by simp))
      obtain ⟨hlive_q, hnext⟩ := hinv.next_node
      have hloop := @ih fuel (D ++ [q]) (by simpa using hinv)
        (fun y hy => hQ y (List.mem_cons_of_mem q hy)) (by simpa using hfuel) (by simpa using hlive)
      have heq : s.prio x = s.prio q := hQ q List.mem_cons_self
      simp [plistRequeueLoop, getPrio_node hx, hq, heq, plistNext, hlive_q, hnext]
      simpa using hloop

omit [DecidableEq η] [DecidableEq ν] in
theorem plistLast_eq (hinv : PlistInv s h L) :
    plistLast (.addr (.head h)) s = some (.addr (lastOr (.head h) (L.map .node))) := by
  rw [plistLast, getPrev_addr hinv.nodes.live_head, hinv.nodes.prev_head]

/-- The part of `plist_requeue` behind the early returns: the next node has the
priority of the node. -/
theorem plistRequeue_move {fuel : Nat} (hinv : PlistInv s h (A ++ x :: y :: B))
    (heq : s.prio x = s.prio y) (hfuel : (A ++ x :: y :: B).length < fuel) :
    ∃ s₁ s₂ next pos,
      plistDel fuel (.addr (.node x)) (.addr (.head h)) s = some s₁ ∧
      plistNext (.addr (.node y)) s₁ = some next ∧
      plistRequeueLoop (.addr (.node x)) (.addr (.head h)) s₁ fuel next = some pos ∧
      s₁.onMem (listAddTail (.addr (.node x)) pos) = some s₂ ∧
      PlistInv s₂ h (enqueue s.prio x (A ++ y :: B)) ∧
      Quiet s s₂ (links h (A ++ x :: y :: B)) := by
  obtain ⟨-, hx_asc, hAx⟩ := List.pairwise_append.mp hinv.ascending
  obtain ⟨hx_le, hy_asc⟩ := List.pairwise_cons.mp hx_asc
  obtain ⟨s₁, hdel, hinv₁, hidle, hquiet₁⟩ := plistDel_spec hinv hfuel
  have hprio₁ : s₁.prio = s.prio := hquiet₁.prio
  obtain ⟨Q, R, rfl, hQ, hR⟩ := Ascending.exists_split (List.pairwise_cons.mp hy_asc).2 x
  -- the nodes that the loop passes have the priority of the node
  have hA' : ∀ a ∈ A ++ y :: Q, s.prio a ≤ s.prio x := by
    intro a ha
    rcases List.mem_append.mp ha with ha | ha
    · exact hAx a ha x List.mem_cons_self
    · rcases List.mem_cons.mp ha with rfl | ha
      · exact heq.ge
      · exact hQ a ha
  have hQ_eq : ∀ q ∈ Q, s₁.prio x = s₁.prio q := fun q hq => by
    rw [hprio₁]
    exact le_antisymm (hx_le q (by simp [hq])) (hQ q hq)
  have hR₁ : ∀ r ∈ R, s₁.prio x < s₁.prio r := by rwa [hprio₁]
  have hlive : s₁.mem.live (.node x) = true := hidle.node.live_head
  have hlen : Q.length < fuel := by
    simp only [List.length_append, List.length_cons] at hfuel
    omega
  have hinv_loop : PlistInv s₁ h ((A ++ [y]) ++ (Q ++ R)) := by simpa using hinv₁
  have hloop := plistRequeueLoop_spec hinv_loop hlive hQ_eq hR₁ hlen
  obtain ⟨hlive_y, hnext⟩ := hinv₁.next_node
  -- the node comes back behind them, as a follower
  have hlist : A ++ y :: (Q ++ R) = (A ++ y :: Q) ++ R := by simp
  have hinsert : leaders s.prio ((A ++ y :: Q) ++ x :: R) =
      leaders s.prio ((A ++ y :: Q) ++ R) := by
    rw [leaders_insert_old hR hA' ⟨y, by simp, heq.symm⟩,
      leaders_append_of_lt fun a ha b hb => (hA' a ha).trans_lt (hR b hb)]
  have hx_out : x ∉ (A ++ y :: Q) ++ R := by
    have hperm : (A ++ x :: y :: (Q ++ R)).Perm (x :: ((A ++ y :: Q) ++ R)) := by
      rw [← hlist]
      exact List.perm_middle
    exact (List.nodup_cons.mp (hperm.nodup_iff.mp hinv.nodup)).1
  have hfollowers : ∀ z ∈ (A ++ y :: Q) ++ x :: R,
      z ∉ leaders s₁.prio ((A ++ y :: Q) ++ x :: R) → s₁.mem.Ring (.prio z) [] := by
    intro z hz hnot
    rw [hprio₁, hinsert, ← hprio₁, ← hlist] at hnot
    by_cases hzx : z = x
    · exact hzx ▸ hidle.prio
    · refine hinv₁.followers z ?_ hnot
      simp only [List.mem_append, List.mem_cons] at hz ⊢
      tauto
  have hasc : Ascending s₁.prio ((A ++ y :: Q) ++ x :: R) := by
    rw [hprio₁, ← enqueue_split hA' hR, ← hlist, ← hprio₁]
    exact hinv₁.ascending.enqueue x
  obtain ⟨s₂, hrun, hinv₂, hquiet₂⟩ := insNode_spec (hlist ▸ hinv₁.nodes)
    (by rw [hprio₁, hinsert, ← hlist, ← hprio₁]; exact hinv₁.prios) hfollowers hasc hx_out hlive
  refine ⟨s₁, s₂, _, _, hdel, ?_, hloop, hrun, ?_, hquiet₁.trans (hquiet₂.mono ?_)⟩
  · rw [plistNext, getNext_addr hlive_y, hnext]
  · rwa [hlist, enqueue_split hA' hR]
  · apply links_subset
    intro z hz
    simp only [List.mem_append, List.mem_cons] at hz ⊢
    tauto

/-- `plist_requeue` moves a node behind the other nodes of its priority. -/
theorem plistRequeue_spec {fuel : Nat} (hinv : PlistInv s h (A ++ x :: B))
    (hfuel : (A ++ x :: B).length < fuel) :
    ∃ s', plistRequeue fuel (.addr (.node x)) (.addr (.head h)) s = some s' ∧
      PlistInv s' h (enqueue s.prio x (A ++ B)) ∧ Quiet s s' (links h (A ++ x :: B)) := by
  have hcheck := plistCheckHead_inv hinv hfuel
  have hempty : plistHeadEmpty (.addr (.head h)) s = some false := by
    rw [plistHeadEmpty_eq hinv]
    simp
  have hat : s.mem.Ring (.node x) (B.map .node ++ .head h :: A.map .node) := by
    apply Ring.rotate
    simpa using hinv.nodes
  have hnode : plistNodeEmpty (.addr (.node x)) s = some false := by
    rw [plistNodeEmpty, listEmpty_eq hat]
    simp
  have hlast := plistLast_eq hinv
  obtain ⟨-, hx_asc, hAx⟩ := List.pairwise_append.mp hinv.ascending
  have hA : ∀ a ∈ A, s.prio a ≤ s.prio x := fun a ha => hAx a ha x List.mem_cons_self
  have hlive : ∀ a ∈ A ++ x :: B, s.mem.live (.node a) = true := fun a ha =>
    hinv.nodes.live_mem (List.mem_map_of_mem ha)
  have hx_live : s.mem.live (.node x) = true := hlive x (by simp)
  obtain ⟨-, hnext⟩ := hinv.next_node
  cases B with
  | nil =>
      -- the last node stays where it is
      refine ⟨s, ?_, ?_, Quiet.refl s _⟩
      · simp [plistRequeue, hcheck, hempty, hnode, hlast, PlistMem.bugOn]
      · rwa [enqueue_split hA (by simp)]
  | cons y B =>
      obtain ⟨z, hz, hz_eq⟩ : ∃ z ∈ y :: B, Link.node z =
          lastOr (Link.head h) ((A ++ x :: y :: B).map .node) := by
        have hmem : lastOr (Link.node y : Link η ν) (B.map .node) ∈ (y :: B).map .node :=
          lastOr_mem _ _
        simpa [eq_comm] using hmem
      have hzx : x ≠ z := fun heq => by
        have hnodup : (x :: y :: B).Nodup := (List.nodup_append.mp hinv.nodup).2.1
        exact (List.nodup_cons.mp hnodup).1 (heq ▸ hz)
      rw [← hz_eq] at hlast
      have hnext' : plistNext (.addr (.node x)) s = some (.addr (.node y)) := by
        rw [plistNext, getNext_addr hx_live, hnext]
        rfl
      have hy : s.getPrio (.addr (.node y)) = some (s.prio y) :=
        getPrio_node (hlive y (by simp))
      by_cases heq : s.prio x = s.prio y
      · obtain ⟨s₁, s₂, next, pos, hdel, hnext₁, hloop, hrun, hinv₂, hquiet⟩ :=
          plistRequeue_move hinv heq hfuel
        have hlen : (enqueue s.prio x (A ++ y :: B)).length < fuel := by
          have hperm := (@enqueue_perm _ _ _ s.prio x (A ++ y :: B)).length_eq
          simp only [List.length_append, List.length_cons] at hfuel hperm
          omega
        have hcheck₂ := plistCheckHead_inv hinv₂ hlen
        refine ⟨s₂, ?_, hinv₂, hquiet⟩
        simp [plistRequeue, hcheck, hempty, hnode, hlast, PlistMem.bugOn, hzx, hnext',
          getPrio_node hx_live, hy, heq, hdel, hnext₁, hloop, hrun, hcheck₂]
      · -- the next node opens the next group: the node is the last of its own
        have hlt : s.prio x < s.prio y :=
          lt_of_le_of_ne ((List.pairwise_cons.mp hx_asc).1 y List.mem_cons_self) heq
        have hB : ∀ b ∈ y :: B, s.prio x < s.prio b := by
          obtain ⟨hy_le, -⟩ := List.pairwise_cons.mp (List.pairwise_cons.mp hx_asc).2
          exact List.forall_mem_cons.mpr ⟨hlt, fun b hb => hlt.trans_le (hy_le b hb)⟩
        refine ⟨s, ?_, ?_, Quiet.refl s _⟩
        · simp [plistRequeue, hcheck, hempty, hnode, hlast, PlistMem.bugOn, hnext',
            getPrio_node hx_live, hy, heq]
        · rwa [enqueue_split hA hB]

omit [DecidableEq η] [DecidableEq ν] in
/-- The sequence of the nodes fixes the list heads of a plist. -/
theorem PlistInv.agree (hinv : PlistInv s h L) (hinv' : PlistInv s' h L)
    (hprio : s'.prio = s.prio) :
    ∀ z ∈ links h L, s.mem.next z = s'.mem.next z ∧ s.mem.prev z = s'.mem.prev z := by
  have hprios : PrioRing s'.mem (leaders s.prio L) := hprio ▸ hinv'.prios
  have hfollowers : ∀ z ∈ L, z ∉ leaders s.prio L → s'.mem.Ring (.prio z) [] :=
    hprio ▸ hinv'.followers
  intro z hz
  cases z with
  | head h' =>
      refine hinv.nodes.agree hinv'.nodes _ ?_
      simpa [links] using hz
  | node z => exact hinv.nodes.agree hinv'.nodes _ (by simpa using hz)
  | prio z =>
      by_cases hlead : z ∈ leaders s.prio L
      · have hring : PrioRing s.mem (leaders s.prio L) := hinv.prios
        cases hQ : leaders s.prio L with
        | nil => simp [hQ] at hlead
        | cons q Q =>
            rw [hQ] at hlead hring hprios
            exact Ring.agree hring hprios _ (by simpa using hlead)
      · exact Ring.agree (hinv.followers z (by simpa using hz) hlead)
          (hfollowers z (by simpa using hz) hlead) _ (by simp)

/-- `plist_requeue` ends in the very state of `plist_del` followed by `plist_add`,
and in it the plist holds the sequence without the node, put back behind the nodes
of at most its priority. -/
theorem plistRequeue_eq_del_add {fuel : Nat} (hinv : PlistInv s h L) (hx : x ∈ L)
    (hfuel : L.length < fuel) :
    ∃ s', plistRequeue fuel (.addr (.node x)) (.addr (.head h)) s = some s' ∧
      (plistDel fuel (.addr (.node x)) (.addr (.head h)) s).bind
        (plistAdd fuel (.addr (.node x)) (.addr (.head h))) = some s' ∧
      PlistInv s' h (enqueue s.prio x (L.erase x)) ∧
      s'.prio = s.prio ∧ s'.warnings = s.warnings := by
  obtain ⟨A, B, rfl, herase, hx_out⟩ := hinv.exists_split hx
  have hlen : (A ++ B).length + 1 < fuel := by
    simp only [List.length_append, List.length_cons] at hfuel ⊢
    omega
  obtain ⟨s₁, hrequeue, hinv₁, hquiet₁⟩ := plistRequeue_spec hinv hfuel
  obtain ⟨s₂, hdel, hinv₂, hidle, hquiet₂⟩ := plistDel_spec hinv hfuel
  obtain ⟨s₃, hadd, hinv₃, hquiet₃⟩ := plistAdd_spec hinv₂ hidle hx_out hlen
  rw [hquiet₂.prio] at hinv₃
  -- both ways write the list heads of the plist only
  have hsub : links h (x :: (A ++ B)) ⊆ links h (A ++ x :: B) :=
    links_subset List.perm_middle.symm.subset
  have hquiet : Quiet s s₃ (links h (A ++ x :: B)) := hquiet₂.trans (hquiet₃.mono hsub)
  have hmem : s₁.mem = s₃.mem := by
    refine hquiet₁.mem.eq_of_agree hquiet.mem fun z hz => ?_
    refine hinv₁.agree hinv₃ (hquiet.prio.trans hquiet₁.prio.symm) z ?_
    refine links_subset ?_ hz
    exact ((enqueue_perm x (A ++ B)).trans List.perm_middle.symm).symm.subset
  have heq : s₁ = s₃ := by
    have hprio : s₁.prio = s₃.prio := hquiet₁.prio.trans hquiet.prio.symm
    have hwarnings : s₁.warnings = s₃.warnings := hquiet₁.warnings.trans hquiet.warnings.symm
    cases s₁
    cases s₃
    simp_all
  rw [herase]
  exact ⟨s₁, hrequeue, by rw [hdel, Option.bind_some, hadd, heq], hinv₁, hquiet₁.prio,
    hquiet₁.warnings⟩

theorem plistRequeue_eq_del_add_twoPlists :
    ∃ s', plistRequeue 5 (.addr (.node 2)) (.addr (.head false)) twoPlists = some s' ∧
      (plistDel 5 (.addr (.node 2)) (.addr (.head false)) twoPlists).bind
        (plistAdd 5 (.addr (.node 2)) (.addr (.head false))) = some s' ∧
      PlistInv s' false [1, 3, 2, 4] ∧ s'.prio = twoPlists.prio ∧ s'.warnings = 0 :=
  plistRequeue_eq_del_add twoPlists_first (by decide) (by decide)

end Plist
end Brlib
