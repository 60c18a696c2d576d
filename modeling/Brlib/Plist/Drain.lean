import Brlib.Plist.Spec
import Brlib.Queue.Arrival

/-!
# Filling and emptying a plist

A client that adds nodes and then takes the first node away until none is left gets all nodes,
in the order of their priorities and first in first out for equal ones, and finds them as they
were before (`plist_drains`).

The loop of `plist_add` walks over the leaders: it looks at those of at most the new priority,
and at one more to see that it is larger, so at one for each priority of the plist at most
(`plistAdd_visits`).  This is about `plist_add` without the checks of `DEBUG_PLIST`, which walk
over all nodes.
-/

namespace Brlib
namespace Plist

open Heap Heap.Mem ListHead Queue

variable {η ν : Type} [DecidableEq η] [DecidableEq ν]

section Clients

/-- `plist_add` of the nodes `xs`, one after the other. -/
def addAll (fuel : Nat) (h : η) : List ν → PlistMem η ν → Option (PlistMem η ν)
  | [], s => some s
  | x :: xs, s => do
      let s ← plistAdd fuel (.addr (.node x)) (.addr (.head h)) s
      addAll fuel h xs s

/-- While the plist is not empty, `plist_del` of its `plist_first`; returns the nodes. -/
def drain (fuel : Nat) (h : η) : Nat → PlistMem η ν → Option (List (Ptr (Link η ν)) × PlistMem η ν)
  | 0, _ => none
  | steps + 1, s => do
      let empty ← plistHeadEmpty (.addr (.head h)) s
      if empty then some ([], s)
      else do
        let node ← plistFirst (.addr (.head h)) s
        let s ← plistDel fuel node (.addr (.head h)) s
        let (nodes, s) ← drain fuel h steps s
        some (node :: nodes, s)

end Clients

variable {s s' : PlistMem η ν} {h : η} {x y : ν} {L xs : List ν} {fuel steps : Nat}

/-- An empty plist and three nodes that are on no plist. -/
def threeIdle : PlistMem Unit (Fin 3) where
  mem := { live := fun _ => true, next := fun z => .addr z, prev := fun z => .addr z }
  prio x := if x = 1 then 0 else 5
  warnings := 0

theorem threeIdle_inv : PlistInv threeIdle () [] := by
  decide

theorem threeIdle_idle : ∀ x, Idle threeIdle x := by
  decide

section Drain

omit [DecidableEq η] [DecidableEq ν] in
theorem Idle.quiet (hidle : Idle s x) (hquiet : Quiet s s' (links h L)) (hx : x ∉ L) :
    Idle s' x :=
  ⟨hidle.prio.frame hquiet.mem (by simpa using hx), hidle.node.frame hquiet.mem (by simpa using hx)⟩

theorem addAll_spec (hinv : PlistInv s h L) (hidle : ∀ x ∈ xs, Idle s x)
    (hnodup : (L ++ xs).Nodup) (hfuel : (L ++ xs).length + 1 < fuel) :
    ∃ s', addAll fuel h xs s = some s' ∧ PlistInv s' h (enqueueAll s.prio L xs) ∧
      Quiet s s' (links h (L ++ xs)) := by
  induction xs generalizing s L with
  | nil => exact ⟨s, rfl, hinv, Quiet.refl s _⟩
  | cons x xs ih =>
      have hperm : (L ++ x :: xs).Perm (x :: (L ++ xs)) := List.perm_middle
      obtain ⟨hx, hrest⟩ := List.nodup_cons.mp (hperm.nodup_iff.mp hnodup)
      rw [List.mem_append, not_or] at hx
      obtain ⟨s₁, hadd, hinv₁, hquiet₁⟩ := plistAdd_spec hinv (hidle x List.mem_cons_self) hx.1
        (show L.length + 1 < fuel by rw [List.length_append] at hfuel; omega)
      have hperm₁ : (enqueue s.prio x L ++ xs).Perm (x :: (L ++ xs)) :=
        (enqueue_perm x L).append_right xs
      have hidle₁ : ∀ y ∈ xs, Idle s₁ y := fun y hy => by
        refine (hidle y (List.mem_cons_of_mem x hy)).quiet hquiet₁ fun hmem => ?_
        rcases List.mem_cons.mp hmem with rfl | hmem
        · exact hx.2 hy
        · exact List.disjoint_of_nodup_append hrest hmem hy
      obtain ⟨s₂, hall, hinv₂, hquiet₂⟩ := ih hinv₁ hidle₁
        (hperm₁.nodup_iff.mpr (List.nodup_cons.mpr ⟨by simp [hx], hrest⟩))
        (by rw [hperm₁.length_eq, ← hperm.length_eq]; exact hfuel)
      refine ⟨s₂, by simp [addAll, hadd, hall], ?_, (hquiet₁.mono ?_).trans (hquiet₂.mono ?_)⟩
      · rw [hquiet₁.prio] at hinv₂
        exact hinv₂
      · exact links_subset fun y hy => by
          simp only [List.mem_cons, List.mem_append] at hy ⊢
          tauto
      · exact links_subset fun y hy => hperm.symm.subset (hperm₁.subset hy)

theorem drain_spec (hinv : PlistInv s h L) (hfuel : L.length < fuel) (hsteps : L.length < steps) :
    ∃ s', drain fuel h steps s = some (L.map fun x => .addr (.node x), s') ∧ PlistInv s' h [] ∧
      (∀ x ∈ L, Idle s' x) ∧ Quiet s s' (links h L) := by
  induction L generalizing s steps with
  | nil =>
      obtain ⟨steps, rfl⟩ : ∃ n, steps = n + 1 := ⟨steps - 1, by simp at hsteps; omega⟩
      exact ⟨s, by simp [drain, plistHeadEmpty_eq hinv], hinv, by simp, Quiet.refl s _⟩
  | cons x L ih =>
      obtain ⟨steps, rfl⟩ : ∃ n, steps = n + 1 := ⟨steps - 1, by simp at hsteps; omega⟩
      obtain ⟨hx, -⟩ := List.nodup_cons.mp hinv.nodup
      obtain ⟨s₁, hdel, hinv₁, hidle₁, hquiet₁⟩ := plistDel_spec (A := []) (B := L) hinv hfuel
      obtain ⟨s₂, hrest, hinv₂, hidle₂, hquiet₂⟩ := ih hinv₁
        (Nat.lt_of_succ_lt hfuel) (Nat.succ_lt_succ_iff.mp hsteps)
      refine ⟨s₂, ?_, hinv₂, fun y hy => ?_, hquiet₁.trans (hquiet₂.mono ?_)⟩
      · simp [drain, plistHeadEmpty_eq hinv, plistFirst_cons hinv, hdel, hrest]
      · rcases List.mem_cons.mp hy with rfl | hy
        · exact hidle₁.quiet hquiet₂ hx
        · exact hidle₂ y hy
      · exact links_subset (List.subset_cons_self x L)

/-- **A plist sorts.**  Nodes that are added and then taken from the front come out in the order
of their priorities, equal ones in the order in which they were added, and behind those that
were on the plist before; they are idle again, and nothing else has changed. -/
theorem plist_drains (hinv : PlistInv s h L) (hidle : ∀ x ∈ xs, Idle s x)
    (hnodup : (L ++ xs).Nodup) (hfuel : (L ++ xs).length + 1 < fuel) :
    ∃ (s₁ s' : PlistMem η ν) (out : List ν), addAll fuel h xs s = some s₁ ∧
      drain fuel h fuel s₁ = some (out.map fun x => .addr (.node x), s') ∧
      out.Perm (L ++ xs) ∧
      out.Pairwise (fun x y => s.prio x < s.prio y ∨
        s.prio x = s.prio y ∧ [x, y].Sublist (L ++ xs)) ∧
      PlistInv s' h [] ∧ (∀ x ∈ L ++ xs, Idle s' x) ∧ Quiet s s' (links h (L ++ xs)) := by
  obtain ⟨s₁, hadd, hinv₁, hquiet₁⟩ := addAll_spec hinv hidle hnodup hfuel
  have hperm : (enqueueAll s.prio L xs).Perm (L ++ xs) := enqueueAll_perm L xs
  obtain ⟨s₂, hdrain, hinv₂, hidle₂, hquiet₂⟩ := drain_spec hinv₁
    (show _ < fuel by rw [hperm.length_eq]; omega) (show _ < fuel by rw [hperm.length_eq]; omega)
  exact ⟨s₁, s₂, _, hadd, hdrain, hperm, hinv.ascending.byArrival.enqueueAll (List.Perm.refl L),
    hinv₂, fun x hx => hidle₂ x (hperm.symm.subset hx),
    hquiet₁.trans (hquiet₂.mono (links_subset hperm.subset))⟩

theorem plist_drains_threeIdle :
    ∃ (s₁ s' : PlistMem Unit (Fin 3)) (out : List (Fin 3)),
      addAll 5 () [0, 1, 2] threeIdle = some s₁ ∧
      drain 5 () 5 s₁ = some (out.map fun x => .addr (.node x), s') ∧
      out.Perm ([] ++ [0, 1, 2]) ∧
      out.Pairwise (fun x y => threeIdle.prio x < threeIdle.prio y ∨
        threeIdle.prio x = threeIdle.prio y ∧ [x, y].Sublist ([] ++ [0, 1, 2])) ∧
      PlistInv s' () [] ∧ (∀ x ∈ ([] ++ [0, 1, 2] : List (Fin 3)), Idle s' x) ∧
      Quiet threeIdle s' (links () ([] ++ [0, 1, 2])) :=
  plist_drains threeIdle_inv (fun x _ => threeIdle_idle x) (by decide) (by decide)

end Drain

section Visits

def priorities (s : PlistMem η ν) (L : List ν) : Finset Int :=
  (L.map s.prio).toFinset

omit [DecidableEq η] [DecidableEq ν] in
theorem length_filter_leaders (P : Int → Prop) [DecidablePred P] (L : List ν) :
    ((leaders s.prio L).filter fun q => P (s.prio q)).length =
      ((priorities s L).filter P).card := by
  have hne : (leaders s.prio L).Pairwise fun x y => s.prio x ≠ s.prio y := leaders_pairwise_ne L
  have hnodup : (((leaders s.prio L).filter fun q => P (s.prio q)).map s.prio).Nodup :=
    List.pairwise_map.mpr (hne.sublist List.filter_sublist)
  rw [← List.length_map (f := s.prio), ← List.toFinset_card_of_nodup hnodup]
  congr 1
  ext k
  simp only [priorities, List.mem_toFinset, List.mem_map, List.mem_filter, Finset.mem_filter,
    decide_eq_true_eq]
  constructor
  · rintro ⟨q, ⟨hq, hP⟩, rfl⟩
    exact ⟨⟨q, leaders_subset L hq, rfl⟩, hP⟩
  · rintro ⟨⟨y, hy, rfl⟩, hP⟩
    obtain ⟨q, hq, heq⟩ : ∃ q ∈ leaders s.prio L, s.prio q = s.prio y := exists_leader hy
    exact ⟨q, ⟨hq, heq.symm ▸ hP⟩, heq⟩

omit [DecidableEq η] [DecidableEq ν] in
theorem next_leader {D Q T : List ν} {q f : ν} (hring : PrioRing s.mem (D ++ q :: Q))
    (hall : D ++ q :: Q = f :: T) :
    s.mem.live (.prio q) = true ∧ s.mem.next (.prio q) = .addr (.prio (firstOr f Q)) := by
  have hturn : PrioRing s.mem ((q :: Q) ++ D) := hring.turn
  have hat : s.mem.Ring (.prio q) ((Q ++ D).map .prio) := hturn
  refine ⟨hat.live_head, ?_⟩
  rw [hat.next_head]
  cases Q with
  | cons z Q => simp
  | nil =>
      cases D with
      | nil => simp [(List.cons.inj hall).1]
      | cons d D => simp [(List.cons.inj hall).1]

/-- The loop of `plist_add` looks at the leaders `Q`, and at the first one of `R`. -/
theorem plistAddLoop_isSome_iff {prev nodeNext : Ptr (Link η ν)} {D Q R T : List ν} {f : ν}
    (hring : PrioRing s.mem (D ++ (Q ++ R))) (hall : D ++ (Q ++ R) = f :: T) (hne : Q ++ R ≠ [])
    (hQ : ∀ q ∈ Q, s.prio q ≤ s.prio x) (hR : ∀ r ∈ R, s.prio x < s.prio r)
    (hx : s.mem.live (.node x) = true) (hlive : ∀ q ∈ Q ++ R, s.mem.live (.node q) = true) :
    (plistAddLoop (.addr (.node x)) (.addr (.node f)) s steps prev
      (.addr (.node (firstOr f (Q ++ R)))) nodeNext).isSome ↔
        min (Q.length + 1) (Q.length + R.length) ≤ steps := by
  induction Q generalizing prev D steps with
  | nil =>
      cases R with
      | nil => exact absurd rfl hne
      | cons r R =>
          cases steps with
          | zero => simp [plistAddLoop]
          | succ steps =>
              have hr : s.getPrio (.addr (.node r)) = some (s.prio r) :=
                getPrio_node (hlive r (by simp))
              simp [plistAddLoop, getPrio_node hx, hr, hR r List.mem_cons_self]
  | cons q Q ih =>
      cases steps with
      | zero => simp [plistAddLoop]
      | succ steps =>
          have hq : s.getPrio (.addr (.node q)) = some (s.prio q) :=
            getPrio_node (hlive q (by simp))
          have hle : ¬ s.prio x < s.prio q := not_lt.mpr (hQ q List.mem_cons_self)
          obtain ⟨hlive_q, hnext⟩ := next_leader (Q := Q ++ R) hring hall
          rw [List.cons_append, firstOr_cons]
          cases hrest : Q ++ R with
          | nil =>
              obtain ⟨rfl, rfl⟩ := List.append_eq_nil_iff.mp hrest
              rw [List.nil_append, firstOr_nil] at hnext
              simp [plistAddLoop, getPrio_node hx, hq, hle, prioList, hlive_q, hnext, prioEntry]
          | cons z W =>
              have hz : z ≠ f := by
                intro heq
                have hnodup : (D ++ q :: z :: W).Nodup := by
                  have hring_nodup := hring.nodup
                  rwa [List.cons_append, hrest] at hring_nodup
                rw [List.cons_append, hrest] at hall
                cases D with
                | nil =>
                    have hqf : q = f := (List.cons.inj hall).1
                    simp [hqf, heq] at hnodup
                | cons d D =>
                    have hdf : d = f := (List.cons.inj hall).1
                    simp [hdf, heq] at hnodup
              have hloop := @ih steps (.addr (.node q)) (D ++ [q]) (by simpa using hring)
                (by simpa using hall) (by simp [hrest])
                (fun y hy => hQ y (List.mem_cons_of_mem q hy))
                (fun y hy => hlive y (List.mem_cons_of_mem q hy))
              rw [hrest, firstOr_cons] at hloop hnext
              simp only [plistAddLoop, getPrio_node hx, hq, hle, prioList, hlive_q, hnext, prioEntry,
                getNext_addr, if_false, Option.bind_eq_bind, Option.bind_some, ne_eq,
                Ptr.addr.injEq, Link.node.injEq, hz, not_false_eq_true, if_true, hloop]
              simp only [List.length_cons]
              omega

theorem plistAddLoop_mono {node first prev iter nodeNext : Ptr (Link η ν)}
    {r : Ptr (Link η ν) × Ptr (Link η ν) × Ptr (Link η ν)}
    (h : plistAddLoop node first s steps prev iter nodeNext = some r) (hle : steps ≤ fuel) :
    plistAddLoop node first s fuel prev iter nodeNext = some r := by
  induction steps generalizing fuel prev iter with
  | zero => simp [plistAddLoop] at h
  | succ steps ih =>
      obtain ⟨fuel, rfl⟩ : ∃ k, fuel = k + 1 := ⟨fuel - 1, by omega⟩
      simp only [plistAddLoop, Option.bind_eq_bind, Option.bind_eq_some_iff] at h ⊢
      obtain ⟨p, hp, q, hq, h⟩ := h
      refine ⟨p, hp, q, hq, ?_⟩
      by_cases hlt : p < q
      · rwa [if_pos hlt] at h ⊢
      · rw [if_neg hlt, Option.bind_eq_some_iff] at h ⊢
        obtain ⟨next, hnext, h⟩ := h
        refine ⟨next, hnext, ?_⟩
        by_cases hfirst : prioEntry next ≠ first
        · rw [if_pos hfirst] at h ⊢
          exact ih h (by omega)
        · rwa [if_neg hfirst] at h ⊢

theorem plistAddPrio_mono {node head : Ptr (Link η ν)} {r : Ptr (Link η ν) × PlistMem η ν}
    (h : plistAddPrio steps node head s = some r) (hle : steps ≤ fuel) :
    plistAddPrio fuel node head s = some r := by
  simp only [plistAddPrio, Option.bind_eq_bind, Option.bind_eq_some_iff] at h ⊢
  obtain ⟨empty, hempty, h⟩ := h
  refine ⟨empty, hempty, ?_⟩
  cases empty with
  | true => exact h
  | false =>
      simp only [Bool.false_eq_true, if_false, Option.bind_eq_some_iff] at h ⊢
      obtain ⟨first, hfirst, out, hloop, h⟩ := h
      exact ⟨first, hfirst, out, plistAddLoop_mono hloop hle, h⟩

theorem plistAddPrio_isSome_iff (hinv : PlistInv s h L) (hidle : Idle s x) (hx : x ∉ L) :
    (plistAddPrio steps (.addr (.node x)) (.addr (.head h)) s).isSome ↔
      min (((priorities s L).filter (· ≤ s.prio x)).card + 1) (priorities s L).card ≤ steps := by
  obtain ⟨A, B, rfl, hA, hB⟩ := hinv.ascending.exists_split x
  obtain ⟨s', hbig, -⟩ := plistAddPrio_spec hinv hidle hx hA hB
    (show (A ++ B).length < (A ++ B).length + steps + 1 by omega)
  have hempty := plistHeadEmpty_eq hinv
  cases hL : A ++ B with
  | nil =>
      rw [hL] at hempty
      simp [plistAddPrio, hempty, priorities]
  | cons f L =>
      have hfirst : plistFirst (.addr (.head h)) s = some (.addr (.node f)) :=
        plistFirst_cons (hL ▸ hinv)
      have hleaders : leaders s.prio (A ++ B) = leaders s.prio A ++ leaders s.prio B :=
        leaders_append_of_lt fun a ha b hb => (hA a ha).trans_lt (hB b hb)
      obtain ⟨T, hT⟩ : ∃ T, leaders s.prio A ++ leaders s.prio B = f :: T := by
        rw [← hleaders, hL]
        exact ⟨_, leaders_cons⟩
      have hcount := @plistAddLoop_isSome_iff _ _ _ _ s x steps .null (.addr (.head h)) []
        (leaders s.prio A) (leaders s.prio B) T f (hleaders ▸ hinv.prios) hT (by simp [hT])
        (fun q hq => hA q (leaders_subset A hq)) (fun r hr => hB r (leaders_subset B hr))
        hidle.node.live_head (fun q hq => hinv.nodes.live_mem
          (List.mem_map_of_mem (leaders_subset _ (hleaders ▸ hq))))
      rw [hT, firstOr_cons] at hcount
      have hpassed : ((priorities s (A ++ B)).filter (· ≤ s.prio x)).card =
          (leaders s.prio A).length := by
        rw [← length_filter_leaders, hleaders, List.filter_append,
          List.filter_eq_self.mpr fun q hq => by simpa using hA q (leaders_subset A hq),
          List.filter_eq_nil_iff.mpr fun q hq => by simpa using hB q (leaders_subset B hq),
          List.append_nil]
      have hall : (priorities s (A ++ B)).card =
          (leaders s.prio A).length + (leaders s.prio B).length := by
        have htrue := length_filter_leaders (s := s) (fun _ => True) (A ++ B)
        simpa [hleaders] using htrue.symm
      rw [← hL, hpassed, hall, ← hcount]
      cases hloop : plistAddLoop (.addr (.node x)) (.addr (.node f)) s steps .null
          (.addr (.node f)) (.addr (.head h)) with
      | none => simp [plistAddPrio, hempty, hL, hfirst, hloop]
      | some r =>
          -- the rest of `plist_add` does not depend on the fuel
          have hloop' := plistAddLoop_mono hloop (show steps ≤ (A ++ B).length + steps + 1 by omega)
          have hsame : plistAddPrio steps (.addr (.node x)) (.addr (.head h)) s =
              plistAddPrio ((A ++ B).length + steps + 1) (.addr (.node x)) (.addr (.head h)) s := by
            simp only [plistAddPrio, hempty, hL, hfirst, hloop, hL ▸ hloop', Option.bind_eq_bind,
              Option.bind_some]
          rw [hsame, hbig]
          rfl

/-- **`plist_add` looks at one node for each priority at most**: at the leaders of at most the
new priority, and at the next one if there is one.  These are the rounds of its loop, and all
the fuel that it needs. -/
theorem plistAdd_visits (hinv : PlistInv s h L) (hidle : Idle s x) (hx : x ∉ L) :
    ((plistAddPrio steps (.addr (.node x)) (.addr (.head h)) s).isSome ↔
      min (((priorities s L).filter (· ≤ s.prio x)).card + 1) (priorities s L).card ≤ steps) ∧
    ((plistAddUnchecked steps (.addr (.node x)) (.addr (.head h)) s).isSome ↔
      min (((priorities s L).filter (· ≤ s.prio x)).card + 1) (priorities s L).card ≤ steps) := by
  have hvisits := @plistAddPrio_isSome_iff _ _ _ _ s h x L steps hinv hidle hx
  refine ⟨hvisits, Iff.trans ?_ hvisits⟩
  obtain ⟨s', hbig, -⟩ := plistAddUnchecked_spec hinv hidle hx
    (show L.length < L.length + steps + 1 by omega)
  rw [plistAddUnchecked_eq _ hidle, Option.bind_eq_some_iff] at hbig
  obtain ⟨r, hprio, hadd⟩ := hbig
  rw [plistAddUnchecked_eq _ hidle]
  cases hrun : plistAddPrio steps (.addr (.node x)) (.addr (.head h)) s with
  | none => rfl
  | some r' =>
      -- the node is then inserted as with any fuel
      have hsame := plistAddPrio_mono hrun (show steps ≤ L.length + steps + 1 by omega)
      obtain rfl : r = r' := Option.some.inj (hprio.symm.trans hsame)
      simp [hadd]

theorem plistAdd_visits_twoPlists :
    ((plistAddPrio 3 (.addr (.node 6)) (.addr (.head false)) twoPlists).isSome ↔
      min (((priorities twoPlists [1, 2, 3, 4]).filter (· ≤ twoPlists.prio 6)).card + 1)
        (priorities twoPlists [1, 2, 3, 4]).card ≤ 3) ∧
    ((plistAddUnchecked 3 (.addr (.node 6)) (.addr (.head false)) twoPlists).isSome ↔
      min (((priorities twoPlists [1, 2, 3, 4]).filter (· ≤ twoPlists.prio 6)).card + 1)
        (priorities twoPlists [1, 2, 3, 4]).card ≤ 3) :=
  plistAdd_visits twoPlists_first twoPlists_idle (by decide)

end Visits

end Plist
end Brlib
