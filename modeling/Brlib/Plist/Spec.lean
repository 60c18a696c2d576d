import Brlib.Plist.Invariant

/-!
# The plist functions keep the two rings in step

Each function is specified by the sequence it leaves: `enqueue` for `plist_add`
and `plist_requeue`, removal for `plist_del`.  `Quiet` is the rest of each
specification: no warning is printed, no priority changes, and only the list
heads of the plist and of the node at hand are written.
-/

namespace Brlib
namespace Plist

open Heap Heap.Mem ListHead Queue

variable {η ν : Type}

/-- No warning, no change of a priority, and only the list heads `xs` are
written. -/
structure Quiet (s s' : PlistMem η ν) (xs : List (Link η ν)) : Prop where
  prio : s'.prio = s.prio
  warnings : s'.warnings = s.warnings
  mem : SameOutside s.mem s'.mem xs

section Quiet

variable {s s' s'' : PlistMem η ν} {xs ys : List (Link η ν)} {x : ν}

theorem Quiet.refl (s : PlistMem η ν) (xs : List (Link η ν)) : Quiet s s xs :=
  ⟨rfl, rfl, SameOutside.refl _ _⟩

theorem Quiet.trans (h : Quiet s s' xs) (h' : Quiet s' s'' xs) : Quiet s s'' xs :=
  ⟨h'.prio.trans h.prio, h'.warnings.trans h.warnings, h.mem.trans h'.mem⟩

theorem Quiet.mono (h : Quiet s s' xs) (hsub : xs ⊆ ys) : Quiet s s' ys :=
  ⟨h.prio, h.warnings, h.mem.mono hsub⟩

theorem onMem_quiet {f : Mem (Link η ν) → Option (Mem (Link η ν))} {m' : Mem (Link η ν)}
    (hf : f s.mem = some m') (hsame : SameOutside s.mem m' xs) :
    s.onMem f = some { s with mem := m' } ∧ Quiet s { s with mem := m' } xs := by
  constructor
  · simp [PlistMem.onMem, hf]
  · exact ⟨rfl, rfl, hsame⟩

theorem getPrio_node (hlive : s.mem.live (.node x) = true) :
    s.getPrio (.addr (.node x)) = some (s.prio x) := by
  simp [PlistMem.getPrio, hlive]

end Quiet

variable [DecidableEq η] [DecidableEq ν] {s s' : PlistMem η ν} {h : η} {x y : ν}
variable {L A B : List ν}

section Add

/-- Where the loop of `plist_add` leaves `prev`: at the last leader passed. -/
def lastPassed (prev : Ptr (Link η ν)) : List ν → Ptr (Link η ν)
  | [] => prev
  | q :: Q => .addr (.node (lastOr q Q))

omit [DecidableEq η] [DecidableEq ν] in
theorem lastPassed_cons (prev : Ptr (Link η ν)) (q : ν) (Q : List ν) :
    lastPassed prev (q :: Q) = lastPassed (.addr (.node q)) Q := by
  cases Q <;> rfl

/-- Where the loop of `plist_add` leaves `node_next`. -/
def nextGroup (nodeNext : Ptr (Link η ν)) : List ν → Ptr (Link η ν)
  | [] => nodeNext
  | r :: _ => .addr (.node r)

/-- The loop of `plist_add` passes the leaders `Q` of at most the priority of the
new node, and stops at the next one or, behind the last one, at the first leader
`f`. -/
theorem plistAddLoop_spec {fuel : Nat} {prev nodeNext : Ptr (Link η ν)} {D Q R T : List ν} {f : ν}
    (hring : PrioRing s.mem (D ++ (Q ++ R))) (hall : D ++ (Q ++ R) = f :: T) (hne : Q ++ R ≠ [])
    (hQ : ∀ q ∈ Q, s.prio q ≤ s.prio x) (hR : ∀ r ∈ R, s.prio x < s.prio r)
    (hx : s.mem.live (.node x) = true) (hlive : ∀ q ∈ Q ++ R, s.mem.live (.node q) = true)
    (hfuel : Q.length < fuel) :
    plistAddLoop (.addr (.node x)) (.addr (.node f)) s fuel prev
        (.addr (.node (firstOr f (Q ++ R)))) nodeNext =
      some (lastPassed prev Q, .addr (.node (firstOr f R)), nextGroup nodeNext R) := by
  induction Q generalizing prev D fuel with
  | nil =>
      obtain ⟨fuel, rfl⟩ : ∃ k, fuel = k + 1 := ⟨fuel - 1, by simp at hfuel; omega⟩
      cases R with
      | nil => exact absurd rfl hne
      | cons r R =>
          have hr : s.getPrio (.addr (.node r)) = some (s.prio r) :=
            getPrio_node (hlive r (by simp))
          have hlt : s.prio x < s.prio r := hR r List.mem_cons_self
          simp [plistAddLoop, getPrio_node hx, hr, hlt, lastPassed, nextGroup]
  | cons q Q ih =>
      obtain ⟨fuel, rfl⟩ : ∃ k, fuel = k + 1 := ⟨fuel - 1, by simp at hfuel; omega⟩
      have hq : s.getPrio (.addr (.node q)) = some (s.prio q) :=
        getPrio_node (hlive q (by simp))
      have hle : ¬ s.prio x < s.prio q := not_lt.mpr (hQ q List.mem_cons_self)
      have hlive_q : s.mem.live (.prio q) = true := hring.live (by simp)
      -- the next leader, or the first one again behind the last
      have hnext : s.mem.next (.prio q) = .addr (.prio (firstOr f (Q ++ R))) := by
        have hturn : PrioRing s.mem ((q :: (Q ++ R)) ++ D) := hring.turn
        have hat : s.mem.Ring (.prio q) ((Q ++ R ++ D).map .prio) := hturn
        rw [hat.next_head]
        cases hrest : Q ++ R with
        | cons z W => simp
        | nil =>
            rw [List.cons_append, hrest] at hall
            cases D with
            | nil => simp [(List.cons.inj hall).1]
            | cons d D => simp [(List.cons.inj hall).1]
      rw [List.cons_append, firstOr_cons, lastPassed_cons]
      cases hrest : Q ++ R with
      | nil =>
          obtain ⟨rfl, rfl⟩ := List.append_eq_nil_iff.mp hrest
          rw [List.nil_append, firstOr_nil] at hnext
          simp [plistAddLoop, getPrio_node hx, hq, hle, prioList, hlive_q, hnext, prioEntry,
            lastPassed, nextGroup]
      | cons z W =>
          have hz : z ≠ f := by
            intro heq
            have hnodup : (D ++ [q] ++ z :: W).Nodup := by
              have hring_nodup := hring.nodup
              rw [List.cons_append, hrest] at hring_nodup
              simpa using hring_nodup
            have hf : f ∈ D ++ [q] := by
              rw [List.cons_append, hrest] at hall
              cases D with
              | nil => simp [(List.cons.inj hall).1]
              | cons d D => simp [(List.cons.inj hall).1]
            exact List.disjoint_of_nodup_append hnodup hf (by simp [heq])
          have hloop := @ih fuel (.addr (.node q)) (D ++ [q]) (by simpa using hring)
            (by simpa using hall) (by simp [hrest]) (fun y hy => hQ y (List.mem_cons_of_mem q hy))
            (fun y hy => hlive y (List.mem_cons_of_mem q hy)) (by simpa using hfuel)
          rw [hrest, firstOr_cons] at hloop hnext
          simp [plistAddLoop, getPrio_node hx, hq, hle, prioList, hlive_q, hnext, prioEntry, hz,
            hloop]

omit [DecidableEq η] [DecidableEq ν] in
theorem nextGroup_leaders (prio : ν → Int) (h : η) (B : List ν) :
    nextGroup (.addr (.head h)) (leaders prio B) = .addr (firstOr (.head h) (B.map .node)) := by
  cases B <;> rfl

omit [DecidableEq ν] in
/-- The new node opens a group when no node has its priority. -/
theorem opensGroup_spec [DecidableEq ν] (hA : Ascending s.prio A)
    (hle : ∀ a ∈ A, s.prio a ≤ s.prio x) (hx : s.mem.live (.node x) = true)
    (hlive : ∀ a ∈ A, s.mem.live (.node a) = true) :
    opensGroup (lastPassed .null (leaders s.prio A)) (.addr (.node x)) s =
      some (decide (∀ a ∈ A, s.prio a ≠ s.prio x)) := by
  rcases List.eq_nil_or_concat' (leaders s.prio A) with hnil | ⟨Q, q, hQ⟩
  · have hA_nil : A = [] := by
      by_contra hne
      exact leaders_ne_nil hne hnil
    subst hA_nil
    simp [opensGroup, lastPassed]
  · have hq : q ∈ leaders s.prio A := by simp [hQ]
    have hlast : lastPassed .null (leaders s.prio A) = (.addr (.node q) : Ptr (Link η ν)) := by
      rw [hQ]
      cases Q with
      | nil => rfl
      | cons q' Q => simp [lastPassed]
    have hq_live : s.mem.live (.node q) = true := hlive q (leaders_subset A hq)
    have hiff : s.prio q ≠ s.prio x ↔ ∀ a ∈ A, s.prio a ≠ s.prio x := by
      rw [Ne, last_leader_key_iff hA hle hQ]
      simp
    rw [hlast]
    simp only [opensGroup, getPrio_node hq_live, getPrio_node hx, reduceCtorEq, if_false,
      Option.bind_eq_bind, Option.bind_some]
    rw [decide_eq_decide.mpr hiff]

/-- `plist_add` up to the label `ins_node`: the `prio_list` ring is that of the
new sequence, and `node_next` is the place of the new node. -/
theorem plistAddPrio_spec {fuel : Nat} (hinv : PlistInv s h (A ++ B)) (hidle : Idle s x)
    (hx : x ∉ A ++ B) (hA : ∀ a ∈ A, s.prio a ≤ s.prio x) (hB : ∀ b ∈ B, s.prio x < s.prio b)
    (hfuel : (A ++ B).length < fuel) :
    ∃ s', plistAddPrio fuel (.addr (.node x)) (.addr (.head h)) s =
        some (.addr (firstOr (.head h) (B.map .node)), s') ∧
      PrioRing s'.mem (leaders s.prio (A ++ x :: B)) ∧
      (x ∉ leaders s.prio (A ++ x :: B) → s'.mem.Ring (.prio x) []) ∧
      Quiet s s' ((x :: leaders s.prio (A ++ B)).map .prio) := by
  have hlive_x : s.mem.live (.node x) = true := hidle.node.live_head
  have hlive : ∀ a ∈ A ++ B, s.mem.live (.node a) = true := fun a ha =>
    hinv.nodes.live_mem (List.mem_map_of_mem ha)
  have hempty := plistHeadEmpty_eq hinv
  have hleaders : leaders s.prio (A ++ B) = leaders s.prio A ++ leaders s.prio B :=
    leaders_append_of_lt fun a ha b hb => (hA a ha).trans_lt (hB b hb)
  obtain ⟨hA_asc, -, -⟩ := List.pairwise_append.mp hinv.ascending
  cases hL : A ++ B with
  | nil =>
      obtain ⟨rfl, rfl⟩ := List.append_eq_nil_iff.mp hL
      refine ⟨s, ?_, hidle.prio, fun _ => hidle.prio, Quiet.refl s _⟩
      simp [plistAddPrio, hempty]
  | cons f L =>
      have hfirst : plistFirst (.addr (.head h)) s = some (.addr (.node f)) :=
        plistFirst_cons (hL ▸ hinv)
      have hne : A ++ B ≠ [] := by simp [hL]
      obtain ⟨T, hT⟩ : ∃ T, leaders s.prio A ++ leaders s.prio B = f :: T := by
        rw [← hleaders, hL]
        exact ⟨_, leaders_cons⟩
      have hring : PrioRing s.mem (leaders s.prio A ++ leaders s.prio B) :=
        hleaders ▸ hinv.prios
      have hlen : (leaders s.prio A).length < fuel := by
        have hsub : (leaders s.prio A).length ≤ A.length := (leaders_sublist A).length_le
        rw [List.length_append] at hfuel
        omega
      have hloop := @plistAddLoop_spec _ _ _ _ s x fuel .null (.addr (.head h)) []
        (leaders s.prio A) (leaders s.prio B) T f hring hT (by simp [hT])
        (fun q hq => hA q (leaders_subset A hq)) (fun r hr => hB r (leaders_subset B hr)) hlive_x
        (fun q hq => hlive q (leaders_subset _ (hleaders ▸ hq))) hlen
      have hopens := opensGroup_spec hA_asc hA hlive_x
        fun a ha => hlive a (List.mem_append_left B ha)
      rw [hT, firstOr_cons, nextGroup_leaders] at hloop
      rw [← hL]
      by_cases hnew : ∀ a ∈ A, s.prio a ≠ s.prio x
      · -- a new group: its leader goes before the leader where the loop stopped
        obtain ⟨K, hK⟩ : ∃ K, leaders s.prio B ++ leaders s.prio A =
            firstOr f (leaders s.prio B) :: K := by
          cases hR : leaders s.prio B with
          | nil =>
              rw [hR, List.append_nil] at hT
              exact ⟨T, by simpa using hT⟩
          | cons r R => exact ⟨_, rfl⟩
        have hx_out : x ∉ leaders s.prio A ++ leaders s.prio B := fun hmem =>
          hx (leaders_subset _ (hleaders ▸ hmem))
        obtain ⟨m', hadd, hring', hsame⟩ :=
          hring.addTail hK hx_out hidle.prio.live_head
        have hinsert : leaders s.prio (A ++ x :: B) =
            leaders s.prio A ++ x :: leaders s.prio B :=
          leaders_insert_new hB fun a ha => lt_of_le_of_ne (hA a ha) (hnew a ha)
        obtain ⟨hrun, hquiet⟩ := onMem_quiet hadd hsame
        refine ⟨{ s with mem := m' }, ?_, hinsert ▸ hring', fun hnot => ?_, hleaders ▸ hquiet⟩
        · rw [decide_eq_true hnew] at hopens
          simp [plistAddPrio, hempty, hne, hfirst, hloop, hopens, prioList, hrun]
        · exact absurd (by simp [hinsert]) hnot
      · have hold : ∃ a ∈ A, s.prio a = s.prio x := by simpa using hnew
        -- the group exists: the leaders stay, and the node follows
        have hinsert : leaders s.prio (A ++ x :: B) = leaders s.prio A ++ leaders s.prio B :=
          leaders_insert_old hB hA hold
        refine ⟨s, ?_, hinsert ▸ hring, fun _ => hidle.prio, Quiet.refl s _⟩
        rw [decide_eq_false hnew] at hopens
        simp [plistAddPrio, hempty, hne, hfirst, hloop, hopens]

/-- The label `ins_node`: the new node goes into the `node_list` ring before the
nodes `B`. -/
theorem insNode_spec (hnodes : s.mem.Ring (.head h) ((A ++ B).map .node))
    (hprios : PrioRing s.mem (leaders s.prio (A ++ x :: B)))
    (hfollowers : ∀ y ∈ A ++ x :: B, y ∉ leaders s.prio (A ++ x :: B) → s.mem.Ring (.prio y) [])
    (hasc : Ascending s.prio (A ++ x :: B)) (hx : x ∉ A ++ B)
    (hlive : s.mem.live (.node x) = true) :
    ∃ s', s.onMem (listAddTail (.addr (.node x)) (.addr (firstOr (.head h) (B.map .node)))) =
        some s' ∧
      PlistInv s' h (A ++ x :: B) ∧ Quiet s s' (links h (x :: (A ++ B))) := by
  have hout : Link.node x ∉ .head h :: (A.map .node ++ B.map (Link.node : ν → Link η ν)) := by
    simpa using hx
  obtain ⟨m', hadd, hnodes', hsame⟩ := listAddTail_before (by simpa using hnodes) hout hlive
  obtain ⟨hrun, hquiet⟩ := onMem_quiet hadd hsame
  refine ⟨_, hrun, ⟨by simpa using hnodes', ?_, fun y hy hnot => ?_, hasc⟩, hquiet.mono ?_⟩
  · exact hprios.frame hsame (by simp)
  · exact (hfollowers y hy hnot).frame hsame (by simp)
  · intro z hz
    simp only [links, List.mem_cons, List.mem_append, List.map_cons, List.map_append] at hz ⊢
    tauto

theorem plistAddUnchecked_eq (fuel : Nat) (hidle : Idle s x) (head : Ptr (Link η ν)) :
    plistAddUnchecked fuel (.addr (.node x)) head s =
      (plistAddPrio fuel (.addr (.node x)) head s).bind fun r =>
        r.2.onMem (listAddTail (.addr (.node x)) r.1) := by
  have hnodeEmpty : plistNodeEmpty (.addr (.node x)) s = some true := by
    rw [plistNodeEmpty, listEmpty_eq hidle.node]
    rfl
  have hprioEmpty : listEmpty (.addr (.prio x)) s.mem = some true := by
    rw [listEmpty_eq hidle.prio]
    rfl
  simp [plistAddUnchecked, hnodeEmpty, PlistMem.warn, prioList, hprioEmpty]

/-- `plist_add` inserts a node that is on no plist. -/
theorem plistAddUnchecked_spec {fuel : Nat} (hinv : PlistInv s h L) (hidle : Idle s x) (hx : x ∉ L)
    (hfuel : L.length < fuel) :
    ∃ s', plistAddUnchecked fuel (.addr (.node x)) (.addr (.head h)) s = some s' ∧
      PlistInv s' h (enqueue s.prio x L) ∧ Quiet s s' (links h (x :: L)) := by
  obtain ⟨A, B, rfl, hA, hB⟩ := hinv.ascending.exists_split x
  obtain ⟨s₁, hprio, hring₁, hself₁, hquiet₁⟩ := plistAddPrio_spec hinv hidle hx hA hB hfuel
  have hprio₁ : s₁.prio = s.prio := hquiet₁.prio
  rw [enqueue_split hA hB]
  -- the `node_list` ring is not touched by the first part
  have hnodes : s₁.mem.Ring (.head h) ((A ++ B).map .node) :=
    hinv.nodes.frame hquiet₁.mem nodes_not_mem_prios
  have hlive : s₁.mem.live (.node x) = true := by
    rw [hquiet₁.mem.live]
    exact hidle.node.live_head
  -- a follower stays one, and the new node may be one
  have hfollowers : ∀ y ∈ A ++ x :: B, y ∉ leaders s.prio (A ++ x :: B) →
      s₁.mem.Ring (.prio y) [] := by
    intro y hy hnot
    by_cases hyx : y = x
    · subst hyx
      exact hself₁ hnot
    · have hy' : y ∈ A ++ B := by
        simp only [List.mem_append, List.mem_cons] at hy ⊢
        tauto
      have hnot' : y ∉ leaders s.prio (A ++ B) := fun hmem =>
        hnot (leaders_subset_insert hB hA hmem)
      refine (hinv.followers y hy' hnot').frame hquiet₁.mem fun z hz => ?_
      rw [List.mem_singleton.mp hz]
      simpa [hyx] using hnot'
  have hasc : Ascending s.prio (A ++ x :: B) := by
    rw [← enqueue_split hA hB]
    exact hinv.ascending.enqueue x
  obtain ⟨s₂, hrun, hinv', hquiet₂⟩ := insNode_spec hnodes (by rwa [hprio₁])
    (by rwa [hprio₁]) (by rwa [hprio₁]) hx hlive
  refine ⟨s₂, by simp [plistAddUnchecked_eq fuel hidle, hprio, hrun], hinv', ?_⟩
  refine (hquiet₁.mono ?_).trans hquiet₂
  refine List.Subset.trans (List.map_subset _ ?_) prios_subset_links
  exact List.cons_subset_cons x (leaders_subset _)

/-- The checks of `DEBUG_PLIST` stand in front of `plist_add` and behind it. -/
theorem plistAdd_eq (fuel : Nat) (node head : Ptr (Link η ν)) (s : PlistMem η ν) :
    plistAdd fuel node head s = (plistCheckHead fuel head s).bind fun s =>
      (plistAddUnchecked fuel node head s).bind (plistCheckHead fuel head) := by
  simp [plistAdd, plistAddUnchecked, Option.bind_assoc]

/-- They find nothing. -/
theorem plistAdd_spec {fuel : Nat} (hinv : PlistInv s h L) (hidle : Idle s x) (hx : x ∉ L)
    (hfuel : L.length + 1 < fuel) :
    ∃ s', plistAdd fuel (.addr (.node x)) (.addr (.head h)) s = some s' ∧
      PlistInv s' h (enqueue s.prio x L) ∧ Quiet s s' (links h (x :: L)) := by
  obtain ⟨s', hrun, hinv', hquiet⟩ := plistAddUnchecked_spec hinv hidle hx (Nat.lt_of_succ_lt hfuel)
  have hcheck := plistCheckHead_inv hinv (Nat.lt_of_succ_lt hfuel)
  have hcheck' := plistCheckHead_inv hinv' (show _ < fuel by
    rw [(enqueue_perm x L).length_eq]
    exact hfuel)
  exact ⟨s', by simp [plistAdd_eq, hcheck, hrun, hcheck'], hinv', hquiet⟩

end Add

section Del

omit [DecidableEq η] [DecidableEq ν] in
theorem PlistInv.nodup (hinv : PlistInv s h L) : L.Nodup :=
  hinv.nodes.nodup.of_cons.of_map

omit [DecidableEq η] in
theorem PlistInv.exists_split (hinv : PlistInv s h L) (hx : x ∈ L) :
    ∃ A B, L = A ++ x :: B ∧ L.erase x = A ++ B ∧ x ∉ A ++ B := by
  obtain ⟨A, B, rfl⟩ := List.append_of_mem hx
  have hout : x ∉ A ++ B := by
    have hperm : (A ++ x :: B).Perm (x :: (A ++ B)) := List.perm_middle
    exact (List.nodup_cons.mp (hperm.nodup_iff.mp hinv.nodup)).1
  refine ⟨A, B, rfl, ?_, hout⟩
  rw [List.erase_append_right _ fun hmem => hout (List.mem_append_left B hmem),
    List.erase_cons_head]

omit [DecidableEq η] [DecidableEq ν] in
theorem PlistInv.next_node (hinv : PlistInv s h (A ++ x :: B)) :
    s.mem.live (.node x) = true ∧
      s.mem.next (.node x) = .addr (firstOr (.head h) (B.map .node)) := by
  have hat : s.mem.Ring (.node x) (B.map .node ++ .head h :: A.map .node) := by
    apply Ring.rotate
    simpa using hinv.nodes
  exact ⟨hat.live_head, by simpa using hat.next_head⟩

/-- A leader whose successor has another priority, or which has none, promotes no
other node. -/
theorem plistPromote_alone (hinv : PlistInv s h (A ++ x :: B))
    (hlead : x ∈ leaders s.prio (A ++ x :: B)) (hB : ∀ b ∈ B, s.prio b ≠ s.prio x) :
    plistPromote (.addr (.node x)) (.addr (.head h)) s = some s := by
  obtain ⟨hlive, hnext⟩ := hinv.next_node
  cases B with
  | nil => simp [plistPromote, hlive, hnext]
  | cons y B =>
      have hnodup : ((A ++ [x]) ++ y :: B).Nodup := by simpa using hinv.nodup
      have hy : y ∉ A ++ [x] := fun hmem =>
        List.disjoint_of_nodup_append hnodup hmem List.mem_cons_self
      -- the successor opens the next group
      have hne : ∀ a ∈ A ++ [x], s.prio a ≠ s.prio y := by
        obtain ⟨-, hx_asc, hAx⟩ := List.pairwise_append.mp hinv.ascending
        have hxy_le : s.prio x ≤ s.prio y := (List.pairwise_cons.mp hx_asc).1 y (by simp)
        have hlt : s.prio x < s.prio y := lt_of_le_of_ne hxy_le (Ne.symm (hB y (by simp)))
        intro a ha
        rcases List.mem_append.mp ha with ha | ha
        · exact ((hAx a ha x List.mem_cons_self).trans_lt hlt).ne
        · rw [List.mem_singleton.mp ha]
          exact hlt.ne
      have hy_lead : y ∈ leaders s.prio (A ++ x :: y :: B) := by
        rw [show A ++ x :: y :: B = (A ++ [x]) ++ y :: B by simp]
        exact (mem_leaders_iff hy).mpr hne
      obtain ⟨Q, R, hQR⟩ := List.append_of_mem hy_lead
      have hempty : listEmpty (.addr (.prio y)) s.mem = some false := by
        have hring : PrioRing s.mem (Q ++ y :: R) := hQR ▸ hinv.prios
        rw [hring.listEmpty_eq]
        rw [hQR] at hlead
        have hx_mem : x ∈ Q ++ R := by
          simp only [List.mem_append, List.mem_cons] at hlead ⊢
          tauto
        rw [decide_eq_false fun hnil => by simp [hnil] at hx_mem]
      simp [plistPromote, hlive, hnext, prioList, hempty]

theorem plistPromote_same {Q R : List ν} (hinv : PlistInv s h (A ++ x :: y :: B))
    (hlead : leaders s.prio (A ++ x :: y :: B) = Q ++ x :: R) (heq : s.prio y = s.prio x) :
    ∃ s', plistPromote (.addr (.node x)) (.addr (.head h)) s = some s' ∧
      PrioRing s'.mem (Q ++ x :: y :: R) ∧
      Quiet s s' ((y :: leaders s.prio (A ++ x :: y :: B)).map .prio) := by
  obtain ⟨hlive, hnext⟩ := hinv.next_node
  have hnodup : ((A ++ [x]) ++ y :: B).Nodup := by simpa using hinv.nodup
  have hy : y ∉ A ++ [x] := fun hmem =>
    List.disjoint_of_nodup_append hnodup hmem List.mem_cons_self
  have hy_not : y ∉ leaders s.prio (A ++ x :: y :: B) := by
    rw [show A ++ x :: y :: B = (A ++ [x]) ++ y :: B by simp, mem_leaders_iff hy]
    exact fun hall => hall x (by simp) heq.symm
  have hself : s.mem.Ring (.prio y) [] := hinv.followers y (by simp) hy_not
  have hempty : listEmpty (.addr (.prio y)) s.mem = some true := by
    rw [listEmpty_eq hself]
    rfl
  have hring : PrioRing s.mem (Q ++ x :: R) := hlead ▸ hinv.prios
  obtain ⟨m', hadd, hring', hsame⟩ := hring.add (hlead ▸ hy_not) hself.live_head
  obtain ⟨hrun, hquiet⟩ := onMem_quiet hadd hsame
  refine ⟨_, ?_, hring', hlead ▸ hquiet⟩
  simp [plistPromote, hlive, hnext, prioList, hempty, hrun]

/-- What `plist_del` does about `prio_list`: the ring is that of the sequence without the
node. -/
def DelPrio (s : PlistMem η ν) (h : η) (A B : List ν) (x : ν) : Prop :=
  ∃ s', plistDelPrio (.addr (.node x)) (.addr (.head h)) s = some s' ∧
    PrioRing s'.mem (leaders s.prio (A ++ B)) ∧ s'.mem.Ring (.prio x) [] ∧
    Quiet s s' ((x :: leaders s.prio (A ++ B)).map .prio)

theorem plistDelPrio_follower (hinv : PlistInv s h (A ++ x :: B)) (hx : x ∉ A)
    (hold : ∃ a ∈ A, s.prio a = s.prio x) : DelPrio s h A B x := by
  have hnot : x ∉ leaders s.prio (A ++ x :: B) := fun hmem => by
    obtain ⟨a, ha, heq⟩ := hold
    exact (mem_leaders_iff hx).mp hmem a ha heq
  have hself := hinv.followers x (by simp) hnot
  have hempty : listEmpty (.addr (.prio x)) s.mem = some true := by
    rw [listEmpty_eq hself]
    rfl
  refine ⟨s, ?_, ?_, hself, Quiet.refl s _⟩
  · simp [plistDelPrio, prioList, hempty]
  · rw [← leaders_remove_follower hold]
    exact hinv.prios

/-- The successor has the same priority, and becomes a leader. -/
theorem plistDelPrio_same (hinv : PlistInv s h (A ++ x :: y :: B))
    (hnew : ∀ a ∈ A, s.prio a ≠ s.prio x) (heq : s.prio y = s.prio x) :
    DelPrio s h A (y :: B) x := by
  obtain ⟨Q, hQ, hQ'⟩ := @leaders_remove_promote _ _ _ _ _ _ _ B hnew heq
  have hring : PrioRing s.mem (leaders s.prio A ++ x :: Q) := hQ ▸ hinv.prios
  have hsub : leaders s.prio (A ++ x :: y :: B) ⊆ x :: leaders s.prio (A ++ y :: B) :=
    leaders_remove_subset
  unfold DelPrio
  rw [hQ']
  by_cases halone : leaders s.prio A ++ Q = []
  · -- the only leader: its `prio_list` is left alone, as is that of its successor
    obtain ⟨hA, rfl⟩ := List.append_eq_nil_iff.mp halone
    have hempty : listEmpty (.addr (.prio x)) s.mem = some true := by
      rw [hring.listEmpty_eq, decide_eq_true halone]
    rw [hA] at hring ⊢
    have hy_not : y ∉ leaders s.prio (A ++ x :: y :: B) := by
      rw [hQ, hA]
      have hxy : y ≠ x := fun heq' => by
        have hnodup_x : (x :: y :: B).Nodup := (List.nodup_append.mp hinv.nodup).2.1
        exact (List.nodup_cons.mp hnodup_x).1 (heq' ▸ List.mem_cons_self)
      simpa using hxy
    refine ⟨s, ?_, hinv.followers y (by simp) hy_not, hring, Quiet.refl s _⟩
    simp [plistDelPrio, prioList, hempty]
  · have hempty : listEmpty (.addr (.prio x)) s.mem = some false := by
      rw [hring.listEmpty_eq, decide_eq_false halone]
    obtain ⟨s₁, hpromote, hring₁, hquiet₁⟩ := plistPromote_same hinv hQ heq
    -- the successor joins the ring behind `x`, and then `x` leaves it
    obtain ⟨m', hdel, hring', hself, hsame'⟩ := hring₁.delInit
    obtain ⟨hrun, hquiet₂⟩ := onMem_quiet hdel hsame'
    refine ⟨_, ?_, hring', hself, (hquiet₁.mono ?_).trans (hquiet₂.mono ?_)⟩
    · simp [plistDelPrio, prioList, hempty, hpromote, hrun]
    · refine List.map_subset _ (List.cons_subset.mpr ⟨by simp, ?_⟩)
      rw [← hQ']
      exact hsub
    · apply List.map_subset
      intro z hz
      simp only [List.mem_append, List.mem_cons] at hz ⊢
      tauto

omit [DecidableEq η] [DecidableEq ν] in
/-- By the order, no node behind has the priority of `x` if the successor has another one. -/
theorem prio_ne_of_successor (hinv : PlistInv s h (A ++ x :: B))
    (hsame : ¬ ∃ y B', B = y :: B' ∧ s.prio y = s.prio x) : ∀ b ∈ B, s.prio b ≠ s.prio x := by
  intro b hb heq
  cases B with
  | nil => exact absurd hb List.not_mem_nil
  | cons y B' =>
      refine hsame ⟨y, B', rfl, ?_⟩
      obtain ⟨-, hx_asc, -⟩ := List.pairwise_append.mp hinv.ascending
      obtain ⟨hxy, hy_asc⟩ := List.pairwise_cons.mp hx_asc
      have hyb : s.prio y ≤ s.prio b := by
        rcases List.mem_cons.mp hb with rfl | hb
        · exact le_refl _
        · exact (List.pairwise_cons.mp hy_asc).1 b hb
      exact le_antisymm (heq ▸ hyb) (hxy y List.mem_cons_self)

/-- The next node, if there is one, opens another group. -/
theorem plistDelPrio_alone (hinv : PlistInv s h (A ++ x :: B)) (hx : x ∉ A)
    (hnew : ∀ a ∈ A, s.prio a ≠ s.prio x) (hB : ∀ b ∈ B, s.prio b ≠ s.prio x) :
    DelPrio s h A B x := by
  have hlead : x ∈ leaders s.prio (A ++ x :: B) := (mem_leaders_iff hx).mpr hnew
  obtain ⟨Q, hQ, hQ'⟩ := leaders_remove_alone hnew hB
  have hring : PrioRing s.mem (leaders s.prio A ++ x :: Q) := hQ ▸ hinv.prios
  unfold DelPrio
  rw [hQ']
  by_cases halone : leaders s.prio A ++ Q = []
  · have hempty : listEmpty (.addr (.prio x)) s.mem = some true := by
      rw [hring.listEmpty_eq, decide_eq_true halone]
    obtain ⟨hA, rfl⟩ := List.append_eq_nil_iff.mp halone
    rw [hA] at hring ⊢
    refine ⟨s, ?_, trivial, hring, Quiet.refl s _⟩
    simp [plistDelPrio, prioList, hempty]
  · have hempty : listEmpty (.addr (.prio x)) s.mem = some false := by
      rw [hring.listEmpty_eq, decide_eq_false halone]
    obtain ⟨m', hdel, hring', hself, hsame'⟩ := hring.delInit
    obtain ⟨hrun, hquiet⟩ := onMem_quiet hdel hsame'
    refine ⟨_, ?_, hring', hself, hquiet.mono (List.map_subset _ ?_)⟩
    · simp [plistDelPrio, prioList, hempty, plistPromote_alone hinv hlead hB, hrun]
    · intro z hz
      simp only [List.mem_append, List.mem_cons] at hz ⊢
      tauto

theorem plistDelPrio_spec (hinv : PlistInv s h (A ++ x :: B)) : DelPrio s h A B x := by
  have hx : x ∉ A := fun hmem =>
    List.disjoint_of_nodup_append hinv.nodup hmem List.mem_cons_self
  by_cases hold : ∃ a ∈ A, s.prio a = s.prio x
  · exact plistDelPrio_follower hinv hx hold
  · have hnew : ∀ a ∈ A, s.prio a ≠ s.prio x := fun a ha heq => hold ⟨a, ha, heq⟩
    by_cases hsame : ∃ y B', B = y :: B' ∧ s.prio y = s.prio x
    · obtain ⟨y, B', rfl, heq⟩ := hsame
      exact plistDelPrio_same hinv hnew heq
    · exact plistDelPrio_alone hinv hx hnew (prio_ne_of_successor hinv hsame)

theorem plistDel_spec {fuel : Nat} (hinv : PlistInv s h (A ++ x :: B))
    (hfuel : (A ++ x :: B).length < fuel) :
    ∃ s', plistDel fuel (.addr (.node x)) (.addr (.head h)) s = some s' ∧
      PlistInv s' h (A ++ B) ∧ Idle s' x ∧ Quiet s s' (links h (A ++ x :: B)) := by
  obtain ⟨s₁, hprio, hring₁, hself₁, hquiet₁⟩ := plistDelPrio_spec hinv
  have hnodup := hinv.nodup
  -- the first part leaves the `node_list` ring alone
  have hnodes : s₁.mem.Ring (.head h) (A.map .node ++ .node x :: B.map .node) := by
    have hframe := hinv.nodes.frame hquiet₁.mem nodes_not_mem_prios
    simpa using hframe
  obtain ⟨m', hdel, hnodes', hself', hsame⟩ := listDelInit_spec hnodes
  obtain ⟨hrun, hquiet₂⟩ := onMem_quiet hdel hsame
  have hsub : A ++ B ⊆ A ++ x :: B := fun y hy => by
    simp only [List.mem_append, List.mem_cons] at hy ⊢
    tauto
  have hinv' : PlistInv { s₁ with mem := m' } h (A ++ B) := by
    refine ⟨by simpa using hnodes', ?_, fun y hy hnot => ?_, ?_⟩
    · show PrioRing m' (leaders s₁.prio (A ++ B))
      rw [hquiet₁.prio]
      exact hring₁.frame hsame (by simp)
    · rw [show ({ s₁ with mem := m' } : PlistMem η ν).prio = s.prio from hquiet₁.prio] at hnot
      have hyx : y ≠ x := fun heq => by
        have hperm : (A ++ x :: B).Perm (x :: (A ++ B)) := List.perm_middle
        exact (List.nodup_cons.mp (hperm.nodup_iff.mp hnodup)).1 (heq ▸ hy)
      -- a follower is not made a leader unless it is one of the new ring
      have hnot' : y ∉ leaders s.prio (A ++ x :: B) := fun hmem =>
        ((List.mem_cons.mp (leaders_remove_subset hmem)).resolve_left hyx |> hnot)
      refine ((hinv.followers y (hsub hy) hnot').frame hquiet₁.mem fun z hz => ?_).frame hsame
        (by simp)
      rw [List.mem_singleton.mp hz]
      simpa [hyx] using hnot
    · show Ascending s₁.prio (A ++ B)
      rw [hquiet₁.prio]
      exact hinv.ascending.sublist (List.Sublist.append_left (List.sublist_cons_self x B) A)
  refine ⟨_, ?_, hinv', ⟨hself₁.frame hsame (by simp), hself'⟩, ?_⟩
  · have hcheck₁ := plistCheckHead_inv hinv hfuel
    have hcheck₂ := plistCheckHead_inv hinv' (show (A ++ B).length < fuel by
      simp only [List.length_append, List.length_cons] at hfuel ⊢
      omega)
    simp [plistDel, hcheck₁, hprio, hrun, hcheck₂]
  · refine (hquiet₁.mono ?_).trans (hquiet₂.mono ?_)
    · refine List.Subset.trans (List.map_subset _ ?_) prios_subset_links
      exact List.cons_subset.mpr ⟨by simp, List.Subset.trans (leaders_subset _) hsub⟩
    · intro z hz
      simp only [links, List.mem_cons, List.mem_append, List.map_cons, List.map_append] at hz ⊢
      tauto

end Del

end Plist
end Brlib
