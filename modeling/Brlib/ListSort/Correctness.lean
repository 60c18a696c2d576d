import Brlib.ListSort.Rounds
import Brlib.Merging.Calls

/-!
# `list_sort` is a stable sort, and robust

`listSort_spec` is the refinement: on a well-formed list the C function leaves
the ring that the sort of runs computes on the sequence of its nodes, with the
same private data, and within as much fuel as the list has nodes.  Whatever the
sort of runs does to sequences is then a property of `list_sort`.
-/

namespace Brlib
namespace ListSort

open Heap Heap.Mem Merging

variable {α π : Type} [DecidableEq α] {cmp : ListCmpFunc π α}
variable {m : Mem α} {a b h x : α} {l : List α} {runs : List (List α)} {s : π}

omit [DecidableEq α] in
theorem sortRuns_short (hshort : l.length < 2) : sortRuns cmp 64 8 l s = (l, s) := by
  match l, hshort with
  | [], _ => rfl
  | [x], _ => simp [sortRuns, mergeAll, pushAll, mergeBits_zero, ticks]

/-- `list_sort` leaves the sorted sequence as a ring around the head. -/
theorem listSort_spec {fuel : Nat} (hring : m.Ring h l) (hfuel : l.length ≤ fuel) :
    ∃ m', listSort cmp fuel s (.addr h) m = some ((sortRuns cmp 64 8 l s).2, m') ∧
      m'.Ring h (sortRuns cmp 64 8 l s).1 ∧ SameOutside m m' (h :: l) := by
  have hh := hring.live_head
  have hnext := hring.next_head
  have hprev := hring.prev_head
  match l, hring, hfuel, hnext, hprev with
  | [], hring, _, hnext, hprev =>
      rw [sortRuns_short (by simp)]
      refine ⟨m, ?_, hring, SameOutside.refl m _⟩
      simp [listSort, hh, hnext, hprev]
  | [x], hring, _, hnext, hprev =>
      rw [sortRuns_short (by simp)]
      refine ⟨m, ?_, hring, SameOutside.refl m _⟩
      simp [listSort, hh, hnext, hprev]
  | x :: y :: l, hring, hfuel, hnext, hprev =>
      have hnodup : (x :: y :: l).Nodup := (List.nodup_cons.mp hring.nodup).2
      -- the null-terminated list
      obtain ⟨last, m₀, hfirst, hlast, hne, hcut, hlist, htouch₀⟩ := enter_spec hring
      -- the pending runs
      obtain ⟨p, m₁, hmain, hchains, htouch₁⟩ := @mainLoop_spec _ _ _ cmp _ x (y :: l) [] .null s
        fuel fuel 0 hlist rfl hnodup (by simp) (by simpa using hfuel) hfuel
      have hperm : (pushAll cmp 64 0 [] (x :: y :: l) s).1.flatten.Perm (x :: y :: l) :=
        pushAll_perm cmp 64 0 [] (x :: y :: l) s
      have htwo : 2 ≤ (pushAll cmp 64 0 [] (x :: y :: l) s).1.length :=
        two_le_pushAll cmp (by decide) x y l s
      have hsort : sortRuns cmp 64 8 (x :: y :: l) s =
          ((mergeAll cmp 64 (x :: y :: l) s).out, ticks cmp 8 0
            (mergeAll cmp 64 (x :: y :: l) s).rest (mergeAll cmp 64 (x :: y :: l) s).priv) := rfl
      rw [hsort]
      unfold mergeAll
      generalize pushAll cmp 64 0 [] (x :: y :: l) s = r at hmain hchains hperm htwo
      match r, htwo, hchains with
      | (newer :: older :: runs, s₁), _, hchains =>
          match newer, hchains with
          | a :: k, ⟨hnewer, holder⟩ =>
              obtain rfl : p = .addr a := hnewer.1
              have hnodup₁ : (a :: k ++ (older :: runs).flatten).Nodup :=
                hperm.nodup_iff.mpr hnodup
              have hlen : (a :: k ++ (older :: runs).flatten).length ≤ fuel :=
                hperm.length_eq ▸ hfuel
              have hruns := holder.length_le
              have hrounds : runs.length < fuel := by
                rw [List.length_append, List.length_cons] at hlen
                rw [List.length_cons] at hruns
                omega
              -- the two operands of the final merge
              obtain ⟨p', q', m₂, hpending, hp', hq', htouch₂⟩ := @mergePending_spec _ _ _ cmp m₁
                runs s₁ fuel fuel (a :: k) older _ _ hnewer (by simp) holder hnodup₁ hrounds hlen
              have hcollapse := collapse_merges cmp (a :: k) older runs s₁
              have hperm₂ : ((collapse cmp (a :: k) older runs s₁).1 ++
                  (collapse cmp (a :: k) older runs s₁).2.1).Perm (x :: y :: l) := by
                refine List.perm_append_comm.trans (List.Perm.trans ?_ hperm)
                simpa using hcollapse.flatten_perm
              have hne₂ :=
                hcollapse.ne_nil (Chains.ne_nil (show m₁.Chains _ _ from ⟨hnewer, holder⟩))
              have hlive₂ : m₂.live = m.live :=
                htouch₂.live.trans (htouch₁.live.trans htouch₀.live)
              obtain ⟨m₃, hfinal, hring₃, hsame₃⟩ := @mergeFinal_spec _ _ _ cmp m₂ h _ _
                (collapse cmp (a :: k) older runs s₁).2.2 fuel _ _ (by rw [hlive₂, hh]) hq' hp'
                (hne₂ _ (by simp)) (hne₂ _ (by simp))
                ((hperm₂.cons h).nodup_iff.mpr hring.nodup)
                (by rw [← List.length_append, hperm₂.length_eq]; exact hfuel)
              refine ⟨m₃, ?_, hring₃, ?_⟩
              · have hprev₁ : m₁.getPrev (.addr a) = some (m₁.prev a) := getPrev_addr hnewer.2.1
                simp [listSort, hfirst, hlast, hne, hcut, hmain, hprev₁, hpending, hfinal]
              · have hsame₀ := htouch₀.sameOutside (List.subset_cons_self h _)
                  (List.subset_cons_self h _)
                have hsame₁ := htouch₁.sameOutside (List.subset_cons_self h _)
                  (List.subset_cons_self h _)
                have hsame₂ : SameOutside m₁ m₂ (h :: x :: y :: l) :=
                  htouch₂.sameOutside (fun z hz => List.mem_cons_of_mem h
                    (hperm.mem_iff.mp hz)) (List.nil_subset _)
                exact ((hsame₀.trans hsame₁).trans hsame₂).trans
                  (hsame₃.mono (hperm₂.cons h).subset)

/-- Two comparisons that sort the sequence alike leave the same memory. -/
theorem listSort_same_memory {ρ : Type} {cmp' : ListCmpFunc ρ α} {s' : ρ} {r : π × Mem α}
    {fuel : Nat} (hring : m.Ring h l) (hfuel : l.length ≤ fuel)
    (hrun : listSort cmp fuel s (.addr h) m = some r)
    (hout : (mergeAll cmp 64 l s).out = (mergeAll cmp' 64 l s').out) :
    listSort cmp' fuel s' (.addr h) m = some ((sortRuns cmp' 64 8 l s').2, r.2) := by
  obtain ⟨m₁, hrun₁, hring₁, hsame₁⟩ := @listSort_spec _ _ _ cmp m h l s fuel hring hfuel
  obtain ⟨m₂, hrun₂, hring₂, hsame₂⟩ := @listSort_spec _ _ _ cmp' m h l s' fuel hring hfuel
  obtain rfl := Option.some.inj (hrun₁.symm.trans hrun)
  have hring₂' : m₂.Ring h (mergeAll cmp 64 l s).out := by
    rw [hout]
    exact hring₂
  have hmem : m₂ = m₁ :=
    Ring.eq_of_sameOutside (mergeAll_perm cmp 64 l s) hring₂' hring₁ hsame₂ hsame₁
  rw [hrun₂, hmem]

section Order

variable {l' : List α} {le : α → α → Prop}

omit [DecidableEq α] in
theorem pair_sublist_of_mem (ha : a ∈ l) (hb : b ∈ l) (hne : a ≠ b) :
    [a, b].Sublist l ∨ [b, a].Sublist l := by
  induction l with
  | nil => exact absurd ha List.not_mem_nil
  | cons x l ih =>
      rcases List.mem_cons.mp ha with rfl | ha'
      · have hb' : b ∈ l := (List.mem_cons.mp hb).resolve_left (Ne.symm hne)
        exact .inl ((List.singleton_sublist.mpr hb').cons_cons a)
      · rcases List.mem_cons.mp hb with rfl | hb'
        · exact .inr ((List.singleton_sublist.mpr ha').cons_cons b)
        · exact (ih ha' hb').imp (·.cons x) (·.cons x)

omit [DecidableEq α] in
theorem pair_sublist_asymm (hnodup : l.Nodup) (hab : [a, b].Sublist l) :
    ¬ [b, a].Sublist l := by
  intro hba
  induction l with
  | nil => exact absurd hab (by simp)
  | cons x l ih =>
      obtain ⟨hx, hnodup'⟩ := List.nodup_cons.mp hnodup
      cases hab with
      | cons _ hab =>
          cases hba with
          | cons _ hba => exact ih hnodup' hab hba
          | cons_cons _ hba => exact hx (hab.subset (by simp))
      | cons_cons _ hab =>
          have hb : b ∈ l := hab.subset (by simp)
          cases hba with
          | cons _ hba => exact hx (hba.subset (by simp))
          | cons_cons _ hba => exact hx hb

omit [DecidableEq α] in
theorem pairwise_pair_sublist (l : List α) : l.Pairwise fun a b => [a, b].Sublist l :=
  List.pairwise_iff_forall_sublist.mpr fun hab => hab

omit [DecidableEq α] in
/-- In order, with ties in the order of `l`: nodes that compare equal keep their
relative order. -/
theorem keeps_ties (hnodup : l.Nodup) (hperm : l'.Perm l)
    (hsorted : l'.Pairwise (Stably le fun a b => [a, b].Sublist l)) :
    ∀ a b, le a b → [a, b].Sublist l → [a, b].Sublist l' := by
  intro a b hle hab
  have hne : a ≠ b := fun heq => by
    rw [heq] at hab
    exact List.nodup_iff_sublist.mp hnodup b hab
  have ha : a ∈ l' := hperm.mem_iff.mpr (hab.subset (by simp))
  have hb : b ∈ l' := hperm.mem_iff.mpr (hab.subset (by simp))
  rcases pair_sublist_of_mem ha hb hne with h | h
  · exact h
  · have hba := (List.pairwise_iff_forall_sublist.mp hsorted h).2 hle
    exact absurd hba (pair_sublist_asymm hnodup hab)

end Order

section Theorems

variable {le : α → α → Prop}

/-- `list_sort` is a stable sort for every comparison whose sign is a total
preorder on the nodes of the list: the ring it leaves, the same read through
`prev`, holds the same nodes in order, and those that compare equal in the order
in which they were. -/
theorem listSort_stable (hring : m.Ring h l) (hle : Decides cmp (· ∈ l) le) (priv : π)
    {fuel : Nat} (hfuel : l.length ≤ fuel) :
    ∃ priv' m' l', listSort cmp fuel priv (.addr h) m = some (priv', m') ∧
      m'.Ring h l' ∧ m'.flip.Ring h l'.reverse ∧ l'.Perm l ∧ l'.Pairwise le ∧
      (∀ a b, le a b → le b a → [a, b].Sublist l → [a, b].Sublist l') ∧
      SameOutside m m' (h :: l) := by
  obtain ⟨m', hrun, hring', hsame⟩ := @listSort_spec _ _ _ cmp m h l priv fuel hring hfuel
  have hnodup : l.Nodup := hring.nodup.of_cons
  have hperm : (mergeAll cmp 64 l priv).out.Perm l := mergeAll_perm cmp 64 l priv
  have hsorted : (mergeAll cmp 64 l priv).out.Pairwise
      (Stably le fun a b => [a, b].Sublist l) :=
    mergeAll_stable hle (by decide) priv (fun _ ha => ha) (pairwise_pair_sublist l)
  refine ⟨_, m', _, hrun, hring', hring'.flip, hperm, ?_, ?_, hsame⟩
  · exact hsorted.imp fun hab => hab.1
  · exact fun a b _ hle hab => keeps_ties hnodup hperm hsorted a b ‹_› hab

/-- A list of the nodes 3, 1, 2 with the head 0. -/
def threeNodes : Mem Nat where
  live _ := true
  next
    | 0 => .addr 3
    | 3 => .addr 1
    | 1 => .addr 2
    | _ => .addr 0
  prev
    | 0 => .addr 2
    | 3 => .addr 0
    | 1 => .addr 3
    | _ => .addr 1

theorem threeNodes_ring : threeNodes.Ring 0 [3, 1, 2] where
  closed := ⟨⟨rfl, rfl⟩, ⟨rfl, rfl⟩, ⟨rfl, rfl⟩, ⟨rfl, rfl⟩, trivial⟩
  nodup := by decide
  live _ _ := rfl

/-- A boolean comparison of half the node, which counts its calls. -/
def halfCmp : ListCmpFunc Nat Nat := fun calls a b =>
  (if a / 2 ≤ b / 2 then 0 else 1, calls + 1)

theorem halfCmp_decides : Decides halfCmp (· ∈ [3, 1, 2]) fun a b => a / 2 ≤ b / 2 where
  le_iff calls a b _ _ := by
    unfold halfCmp
    split <;> simp_all
  total _ _ _ _ := Nat.le_total _ _
  trans _ _ _ _ _ _ := Nat.le_trans

theorem listSort_stable_threeNodes :
    ∃ priv' m' l', listSort halfCmp 3 0 (.addr 0) threeNodes = some (priv', m') ∧
      m'.Ring 0 l' ∧ m'.flip.Ring 0 l'.reverse ∧ l'.Perm [3, 1, 2] ∧
      l'.Pairwise (fun a b => a / 2 ≤ b / 2) ∧
      (∀ a b, a / 2 ≤ b / 2 → b / 2 ≤ a / 2 → [a, b].Sublist [3, 1, 2] → [a, b].Sublist l') ∧
      SameOutside threeNodes m' [0, 3, 1, 2] :=
  listSort_stable threeNodes_ring halfCmp_decides 0 (by decide)

/-- For any comparison at all, `list_sort` terminates without a fault and leaves
a ring of the same nodes.  It compares a node with a later one only, except for
the last calls, which compare a node with itself, are at most one for every 256
nodes, and do not influence the ring. -/
theorem listSort_robust (cmp : ListCmpFunc π α) (hring : m.Ring h l) (priv : π) {fuel : Nat}
    (hfuel : l.length ≤ fuel) :
    ∃ priv' m' l' calls diag, listSort cmp fuel priv (.addr h) m = some (priv', m') ∧
      listSort (logged cmp) fuel (priv, []) (.addr h) m = some ((priv', calls ++ diag), m') ∧
      m'.Ring h l' ∧ l'.Perm l ∧ SameOutside m m' (h :: l) ∧
      (∀ p ∈ calls, [p.1, p.2].Sublist l ∧ p.1 ≠ p.2) ∧
      (∀ p ∈ diag, p.1 = p.2 ∧ p.1 ∈ l) ∧ 2 ^ 8 * diag.length ≤ l.length ∧
      ∀ cmp' : ListCmpFunc π α, (∀ s a b, a ≠ b → cmp' s a b = cmp s a b) →
        ∃ priv'', listSort cmp' fuel priv (.addr h) m = some (priv'', m') := by
  have hnodup : l.Nodup := hring.nodup.of_cons
  have hperm : (mergeAll cmp 64 l priv).out.Perm l := mergeAll_perm cmp 64 l priv
  obtain ⟨m', hrun, hring', hsame⟩ := @listSort_spec _ _ _ cmp m h l priv fuel hring hfuel
  -- the same with the calls written down
  obtain ⟨hout, hrest, hpriv, hcalls⟩ :=
    @mergeAll_logged _ _ cmp _ 64 l priv (pairwise_pair_sublist l)
  obtain ⟨diag, hticks, hdiag, hlen⟩ := ticks_logged cmp 8 0 (mergeAll cmp 64 l priv).rest
    (mergeAll cmp 64 l priv).priv (mergeAll (logged cmp) 64 l (priv, [])).priv.2
  have hrest_sub := mergeAll_rest_suffix cmp 64 l priv
  refine ⟨_, m', _, _, diag, hrun, ?_, hring', hperm, hsame, fun p hp => ⟨hcalls p hp, ?_⟩,
    fun p hp => ⟨(hdiag p hp).1, ?_⟩, ?_, fun cmp' hagree => ?_⟩
  · have hpair : (mergeAll (logged cmp) 64 l (priv, [])).priv =
        ((mergeAll cmp 64 l priv).priv, (mergeAll (logged cmp) 64 l (priv, [])).priv.2) :=
      Prod.ext hpriv rfl
    have hsort : (sortRuns (logged cmp) 64 8 l (priv, [])).2 =
        ((sortRuns cmp 64 8 l priv).2,
          (mergeAll (logged cmp) 64 l (priv, [])).priv.2 ++ diag) := by
      show ticks (logged cmp) 8 0 _ _ = _
      rw [hrest, hpair]
      exact hticks
    rw [listSort_same_memory hring hfuel hrun hout.symm, hsort]
  · intro heq
    have hpair := hcalls p hp
    rw [heq] at hpair
    exact List.nodup_iff_sublist.mp hnodup p.2 hpair
  · exact hperm.mem_iff.mp (hrest_sub.mem (hdiag p hp).2)
  · have hle := hrest_sub.length_le
    rw [hperm.length_eq] at hle
    have hcount := hlen (by decide)
    omega
  · -- the two comparisons agree on every pair of different nodes
    have hsim : Agree (· ≠ ·) Eq cmp' cmp := by
      rintro s _ a b rfl hab
      rw [hagree s a b hab]
      exact ⟨Iff.rfl, rfl⟩
    obtain ⟨hout₂, -, -⟩ := @mergeAll_sim _ _ _ _ _ cmp' cmp hsim 64 l priv priv hnodup rfl
    exact ⟨_, listSort_same_memory hring hfuel hrun hout₂.symm⟩

/-- The comparison that claims the opposite on every other call. -/
theorem listSort_robust_threeNodes :
    ∃ priv' m' l' calls diag,
      listSort (fun s _ _ => (s, -s)) 3 (1 : Int) (.addr 0) threeNodes = some (priv', m') ∧
      listSort (logged fun s _ _ => (s, -s)) 3 ((1 : Int), []) (.addr 0) threeNodes =
        some ((priv', calls ++ diag), m') ∧
      m'.Ring 0 l' ∧ l'.Perm [3, 1, 2] ∧ SameOutside threeNodes m' [0, 3, 1, 2] ∧
      (∀ p ∈ calls, [p.1, p.2].Sublist [3, 1, 2] ∧ p.1 ≠ p.2) ∧
      (∀ p ∈ diag, p.1 = p.2 ∧ p.1 ∈ [3, 1, 2]) ∧ 2 ^ 8 * diag.length ≤ 3 ∧
      ∀ cmp' : ListCmpFunc Int Nat, (∀ s a b, a ≠ b → cmp' s a b = (s, -s)) →
        ∃ priv'', listSort cmp' 3 1 (.addr 0) threeNodes = some (priv'', m') :=
  listSort_robust _ threeNodes_ring 1 (by decide)

end Theorems

end ListSort
end Brlib
