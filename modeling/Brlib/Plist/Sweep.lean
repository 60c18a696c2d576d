import Brlib.ListHead.Editing
import Brlib.Plist.Drain
import Brlib.Plist.Run

/-!
# Loops over a plist that delete and move its nodes

The iteration macros of `plist.h` are those of `list.h` on the `node_list` fields.  The body of
`plist_for_each_safe` may delete the node that it is called for, or delete it and add it to
another plist.  All plists stay consistent, and hold what they would hold had the body been
called for each node of the plist as it was at first (`plistForEachSafe_sweeps`).
-/

namespace Brlib
namespace Plist

open Heap Heap.Mem ListHead Queue

variable {η ν ε σ τ : Type} [DecidableEq η] [DecidableEq ν]

section Macros

variable (mem : σ → PlistMem η ν)

/-- `plist_for_each` -/
def plistForEach : (Ptr (Link η ν) → σ → Option σ) → ℕ → Ptr (Link η ν) → σ → Option σ :=
  listForEachEntry (.refl _) fun s => (mem s).mem

/-- `plist_for_each_reverse` -/
def plistForEachReverse : (Ptr (Link η ν) → σ → Option σ) → ℕ → Ptr (Link η ν) → σ → Option σ :=
  listForEachEntryReverse (.refl _) fun s => (mem s).mem

/-- `plist_for_each_continue` -/
def plistForEachContinue : (Ptr (Link η ν) → σ → Option σ) → ℕ → Ptr (Link η ν) →
    Ptr (Link η ν) → σ → Option σ :=
  listForEachEntryContinue (.refl _) fun s => (mem s).mem

/-- `plist_for_each_continue_reverse` -/
def plistForEachContinueReverse : (Ptr (Link η ν) → σ → Option σ) → ℕ → Ptr (Link η ν) →
    Ptr (Link η ν) → σ → Option σ :=
  listForEachEntryContinueReverse (.refl _) fun s => (mem s).mem

/-- `plist_for_each_safe` -/
def plistForEachSafe : (Ptr (Link η ν) → σ → Option σ) → ℕ → Ptr (Link η ν) → σ → Option σ :=
  listForEachEntrySafe (.refl _) fun s => (mem s).mem

/-- `plist_for_each_safe_reverse` -/
def plistForEachSafeReverse : (Ptr (Link η ν) → σ → Option σ) → ℕ → Ptr (Link η ν) → σ →
    Option σ :=
  listForEachEntrySafeReverse (.refl _) fun s => (mem s).mem

end Macros

section Folds

variable {mem : σ → PlistMem η ν} {body : Ptr (Link η ν) → σ → Option σ} {s : σ} {h : η} {x : ν}
variable {A B : List ν} {fuel : ℕ}

/-- A body that leaves the plist alone is called for its nodes in the order of their priorities,
or in the reverse one; from a node on, for those behind it or in front of it. -/
theorem plistForEach_folds (hinv : PlistInv (mem s) h (A ++ x :: B))
    (hbody : ∀ y s s', body (.addr (.node y)) s = some s' → (mem s').mem = (mem s).mem)
    (hfuel : (A ++ x :: B).length < fuel) :
    plistForEach mem body fuel (.addr (.head h)) s =
        (A ++ x :: B).foldlM (fun s y => body (.addr (.node y)) s) s ∧
      plistForEachContinue mem body fuel (.addr (.node x)) (.addr (.head h)) s =
        B.foldlM (fun s y => body (.addr (.node y)) s) s ∧
      plistForEachReverse mem body fuel (.addr (.head h)) s =
        (A ++ x :: B).reverse.foldlM (fun s y => body (.addr (.node y)) s) s ∧
      plistForEachContinueReverse mem body fuel (.addr (.node x)) (.addr (.head h)) s =
        A.reverse.foldlM (fun s y => body (.addr (.node y)) s) s := by
  have hbody' : ∀ (l : List (Link η ν)) (k : List ν), ∀ z ∈ k.map Link.node, ∀ s s',
      (mem s).mem.Ring (.head h) l → body (.addr ((Equiv.refl _).symm z)) s = some s' →
      (mem s').mem.Ring (.head h) l := by
    intro l k z hz s s' hs hrun
    obtain ⟨y, -, rfl⟩ := List.mem_map.mp hz
    rw [hbody y s s' hrun]
    exact hs
  have hfront := @listForEachEntry_folds _ _ _ _ (.head h) (A.map .node) ((x :: B).map .node) fuel s
    (fun s => (mem s).mem) (.refl _) body (by simpa using hinv.nodes)
    (by simpa using hbody' _ (A ++ x :: B)) (by simpa using hfuel)
  have hbehind := @listForEachEntry_folds _ _ _ _ (.head h) ((A ++ [x]).map .node) (B.map .node)
    fuel s (fun s => (mem s).mem) (.refl _) body (by simpa using hinv.nodes)
    (by simpa using hbody' _ (A ++ x :: B)) (by simpa using hfuel)
  have hlast : lastOr (.head h) ((A ++ [x]).map .node) = (Link.node x : Link η ν) := by
    simp
  rw [hlast] at hbehind
  rw [← List.map_append, ← List.map_reverse, ← List.map_reverse] at hfront
  simp only [List.foldlM_map] at hfront hbehind
  exact ⟨hfront.1.1, hbehind.1.2.1, hfront.2.1, hfront.2.2.1⟩

end Folds

/-- What the plists hold, and nodes that are on none. -/
structure Queues (η ν : Type) where
  on : η → List ν
  idle : List ν

/-- What a body does to the node that it is called for. -/
inductive Transfer (η : Type) where
  | keep
  | del
  | move (dest : η)

namespace Transfer

/-- The calls for the node `x` of the plist `h`. -/
def exec (fuel : ℕ) (h : η) (x : ν) : Transfer η → PlistMem η ν → Option (PlistMem η ν)
  | keep, s => some s
  | del, s => plistDel fuel (.addr (.node x)) (.addr (.head h)) s
  | move dest, s => do
      let s ← plistDel fuel (.addr (.node x)) (.addr (.head h)) s
      plistAdd fuel (.addr (.node x)) (.addr (.head dest)) s

/-- What they do to the plists. -/
def effect (prio : ν → Int) (h : η) (x : ν) : Transfer η → Queues η ν → Queues η ν
  | keep, q => q
  | del, q => ⟨Function.update q.on h ((q.on h).erase x), x :: q.idle⟩
  | move dest, q =>
      ⟨Function.update (Function.update q.on h ((q.on h).erase x)) dest
        (enqueue prio x (q.on dest)), q.idle⟩

end Transfer

/-- The body of a loop over the plist `h`, which chooses by the node and by what it carries on. -/
def transferAt (fuel : ℕ) (h : η) (choice : ν → τ → Transfer η × τ) (pos : Ptr (Link η ν))
    (s : PlistMem η ν × τ) : Option (PlistMem η ν × τ) :=
  match pos with
  | .addr (.node x) => do
      let mem ← (choice x s.2).1.exec fuel h x s.1
      some (mem, (choice x s.2).2)
  | _ => none

/-- The choices for the nodes in turn. -/
def sweep (prio : ν → Int) (h : η) (choice : ν → τ → Transfer η × τ) :
    List ν → τ → Queues η ν → τ × Queues η ν
  | [], t, q => (t, q)
  | x :: R, t, q => sweep prio h choice R (choice x t).2 ((choice x t).1.effect prio h x q)

/-- The plists `G` hold what `q` says. -/
structure Holds (s : PlistMem η ν) (G : Set η) (q : Queues η ν) : Prop where
  queues : ∀ g ∈ G, PlistInv s g (q.on g)
  idle : ∀ x ∈ q.idle, Idle s x
  apart : ∀ g ∈ G, ∀ g' ∈ G, g ≠ g' → (q.on g).Disjoint (q.on g')
  apart_idle : ∀ g ∈ G, (q.on g).Disjoint q.idle

variable {s : PlistMem η ν} {G : Set η} {q : Queues η ν} {h g : η} {x : ν} {fuel : ℕ}
variable {A B : List ν} {L : List ν}

omit [DecidableEq η] [DecidableEq ν] in
theorem PlistInv.quiet {s' : PlistMem η ν} {K : List ν} (hinv : PlistInv s g L)
    (hquiet : Quiet s s' (links h K)) (hne : g ≠ h) (hapart : L.Disjoint K) : PlistInv s' g L := by
  refine hinv.frame hquiet.mem (fun z hz hmem => ?_) fun x _ => by rw [hquiet.prio]
  cases z with
  | head g' =>
      simp only [links, List.mem_cons, Link.head.injEq, List.mem_append, List.mem_map,
        reduceCtorEq, and_false, exists_false, or_false] at hz hmem
      exact hne (hz.symm.trans hmem)
  | prio y => exact hapart (prio_mem_links.mp hz) (prio_mem_links.mp hmem)
  | node y => exact hapart (node_mem_links.mp hz) (node_mem_links.mp hmem)

omit [DecidableEq ν] in
/-- Taking a node off a plist, or putting an idle one on it, keeps the plists apart. -/
theorem Holds.update {s' : PlistMem η ν} {K I : List ν} (hold : Holds s G q)
    (hquiet : Quiet s s' (links h K)) (hK : ∀ g ∈ G, g ≠ h → (q.on g).Disjoint K)
    (hinv : PlistInv s' h L) (hL : L ⊆ K) (hidle : ∀ x ∈ I, Idle s' x)
    (hapart : L.Disjoint I) (hI : ∀ g ∈ G, g ≠ h → (q.on g).Disjoint I) :
    Holds s' G ⟨Function.update q.on h L, I⟩ where
  queues g hg := by
    by_cases hgh : g = h
    · subst hgh
      simpa using hinv
    · simpa [hgh] using (hold.queues g hg).quiet hquiet hgh (hK g hg hgh)
  idle := hidle
  apart g hg g' hg' hne := by
    by_cases hgh : g = h
    · subst hgh
      have hg'h : g' ≠ g := Ne.symm hne
      simpa [hg'h] using List.disjoint_of_subset_left hL (hK g' hg' hg'h).symm
    · by_cases hg'h : g' = h
      · subst hg'h
        simpa [hgh] using List.disjoint_of_subset_right hL (hK g hg hgh)
      · simpa [hgh, hg'h] using hold.apart g hg g' hg' hne
  apart_idle g hg := by
    by_cases hgh : g = h
    · subst hgh
      simpa using hapart
    · simpa [hgh] using hI g hg hgh

omit [DecidableEq η] in
theorem erase_middle (hnodup : (A ++ x :: B).Nodup) : (A ++ x :: B).erase x = A ++ B := by
  have hperm := (@List.perm_middle _ x A B).nodup_iff.mp hnodup
  have hout : x ∉ A ++ B := (List.nodup_cons.mp hperm).1
  rw [List.erase_append_right _ fun hmem => hout (List.mem_append_left B hmem),
    List.erase_cons_head]

theorem Holds.del (hold : Holds s G q) (hh : h ∈ G) (hx : x ∈ q.on h)
    (hfuel : (q.on h).length < fuel) :
    ∃ s', plistDel fuel (.addr (.node x)) (.addr (.head h)) s = some s' ∧
      Holds s' G ⟨Function.update q.on h ((q.on h).erase x), x :: q.idle⟩ ∧
      s'.prio = s.prio ∧ s'.warnings = s.warnings := by
  have hinv := hold.queues h hh
  have hnodup := hinv.nodup
  obtain ⟨A, B, hsplit⟩ := List.append_of_mem hx
  have hout : x ∉ (q.on h).erase x := hnodup.not_mem_erase
  have herase : (q.on h).erase x = A ++ B := by
    rw [hsplit] at hnodup
    rw [hsplit, erase_middle hnodup]
  rw [hsplit] at hinv hfuel
  obtain ⟨s', hrun, hinv', hidle, hquiet⟩ := plistDel_spec hinv hfuel
  rw [← hsplit] at hquiet
  rw [← herase] at hinv'
  refine ⟨s', hrun, ?_, hquiet.prio, hquiet.warnings⟩
  refine hold.update hquiet (fun g hg hne => hold.apart g hg h hh hne) hinv'
    List.erase_subset (fun y hy => ?_) ?_ fun g hg hne => ?_
  · rcases List.mem_cons.mp hy with rfl | hy
    · exact hidle
    · exact (hold.idle y hy).quiet hquiet fun hmem => hold.apart_idle h hh hmem hy
  · refine List.disjoint_cons_right.mpr ⟨hout, ?_⟩
    exact List.disjoint_of_subset_left List.erase_subset (hold.apart_idle h hh)
  · exact List.disjoint_cons_right.mpr
      ⟨fun hmem => hold.apart g hg h hh hne hmem hx, hold.apart_idle g hg⟩

theorem Holds.add {I : List ν} (hold : Holds s G q) (hg : g ∈ G) (hI : q.idle = x :: I)
    (hx : x ∉ I) (hfuel : (q.on g).length + 1 < fuel) :
    ∃ s', plistAdd fuel (.addr (.node x)) (.addr (.head g)) s = some s' ∧
      Holds s' G ⟨Function.update q.on g (enqueue s.prio x (q.on g)), I⟩ ∧
      s'.prio = s.prio ∧ s'.warnings = s.warnings := by
  have hidle := hold.idle
  have hapart := hold.apart_idle
  rw [hI] at hidle
  simp only [hI, List.disjoint_cons_right] at hapart
  obtain ⟨s', hrun, hinv', hquiet⟩ := plistAdd_spec (hold.queues g hg) (hidle x List.mem_cons_self)
    (hapart g hg).1 hfuel
  refine ⟨s', hrun, ?_, hquiet.prio, hquiet.warnings⟩
  refine hold.update hquiet (fun g' hg' hne => ?_) hinv' (enqueue_perm x _).subset
    (fun y hy => ?_) ?_ fun g' hg' _ => (hapart g' hg').2
  · exact List.disjoint_cons_right.mpr ⟨(hapart g' hg').1, hold.apart g' hg' g hg hne⟩
  · refine (hidle y (List.mem_cons_of_mem x hy)).quiet hquiet fun hmem => ?_
    rcases List.mem_cons.mp hmem with rfl | hmem
    · exact hx hy
    · exact (hapart g hg).2 hmem hy
  · refine List.disjoint_of_subset_left (enqueue_perm x _).subset ?_
    exact List.disjoint_cons_left.mpr ⟨hx, (hapart g hg).2⟩

theorem Holds.transfer {act : Transfer η} (hold : Holds s G q) (hh : h ∈ G) (hx : x ∈ q.on h)
    (hact : ∀ dest, act = .move dest → dest ∈ G ∧ dest ≠ h)
    (hfuel : ∀ g ∈ G, (q.on g).length + 1 < fuel) :
    ∃ s', act.exec fuel h x s = some s' ∧ Holds s' G (act.effect s.prio h x q) ∧
      s'.prio = s.prio ∧ s'.warnings = s.warnings := by
  have hdel := hold.del hh hx (Nat.lt_of_succ_lt (hfuel h hh))
  cases act with
  | keep => exact ⟨s, rfl, hold, rfl, rfl⟩
  | del => exact hdel
  | move dest =>
      obtain ⟨hdest, hne⟩ := hact dest rfl
      obtain ⟨s₁, hrun₁, hold₁, hprio₁, hwarnings₁⟩ := hdel
      have hlen : (Function.update q.on h ((q.on h).erase x) dest).length + 1 < fuel := by
        simpa [hne] using hfuel dest hdest
      obtain ⟨s₂, hrun₂, hold₂, hprio₂, hwarnings₂⟩ :=
        hold₁.add hdest rfl (fun hmem => hold.apart_idle h hh hx hmem) hlen
      refine ⟨s₂, by simp [Transfer.exec, hrun₁, hrun₂], ?_, hprio₂.trans hprio₁,
        hwarnings₂.trans hwarnings₁⟩
      simpa only [Transfer.effect, hprio₁, Function.update_of_ne hne] using hold₂

/-- The order in which a loop visits a list. -/
def order : Way → List ν → List ν
  | .forwards, l => l
  | .backwards, l => l.reverse

omit [DecidableEq η] in
theorem order_erase {way : Way} (hnodup : (order way (A ++ x :: B)).Nodup) :
    (order way (A ++ x :: B)).erase x = order way (A ++ B) := by
  cases way with
  | forwards => exact erase_middle hnodup
  | backwards =>
      have hsplit : order .backwards (A ++ x :: B) = B.reverse ++ x :: A.reverse := by
        simp [order]
      rw [hsplit] at hnodup ⊢
      rw [erase_middle hnodup, order, List.reverse_append]

omit [DecidableEq η] [DecidableEq ν] in
theorem mem_order {way : Way} : x ∈ order way L ↔ x ∈ L := by
  cases way <;> simp [order]

omit [DecidableEq η] [DecidableEq ν] in
theorem PlistInv.view {way : Way} (hinv : PlistInv s h (order way L)) :
    (way.view s.mem).Ring (.head h) (L.map .node) := by
  cases way with
  | forwards => exact hinv.nodes
  | backwards =>
      have hflip := hinv.nodes.flip
      rw [order, ← List.map_reverse, List.reverse_reverse] at hflip
      exact hflip

theorem Transfer.effect_nodes {way : Way} {act : Transfer η} (prio : ν → Int) {K R : List ν}
    (hnodes : q.on h = order way (K ++ x :: R)) (hnodup : (q.on h).Nodup)
    (hact : ∀ dest, act = .move dest → dest ≠ h) :
    ∃ K', (act.effect prio h x q).on h = order way (K' ++ R) := by
  have herase : (q.on h).erase x = order way (K ++ R) := by
    rw [hnodes] at hnodup ⊢
    exact order_erase hnodup
  cases act with
  | keep => exact ⟨K ++ [x], by simpa [effect] using hnodes⟩
  | del => exact ⟨K, by simpa [effect] using herase⟩
  | move dest => exact ⟨K, by simpa [effect, (hact dest rfl).symm] using herase⟩

theorem Transfer.length_effect_le {act : Transfer η} (prio : ν → Int) (q : Queues η ν)
    (hact : ∀ dest, act = .move dest → dest ≠ h) (g : η) :
    ((act.effect prio h x q).on g).length ≤ (q.on g).length + 1 := by
  have herase : ((q.on h).erase x).length ≤ (q.on h).length + 1 :=
    List.length_erase_le.trans (Nat.le_succ _)
  cases act with
  | keep => exact Nat.le_succ _
  | del =>
      by_cases hg : g = h
      · subst hg
        simpa [effect] using herase
      · simp [effect, hg]
  | move dest =>
      have hlen : (enqueue prio x (q.on dest)).length = (q.on dest).length + 1 :=
        (enqueue_perm x _).length_eq
      by_cases hg : g = dest
      · subst hg
        simp [effect, hlen]
      · by_cases hgh : g = h
        · subst hgh
          simpa [effect, hg] using herase
        · simp [effect, hg, hgh]

/-- During a loop over the plist `h`: the nodes `R` are left. -/
structure Sweeping (way : Way) (G : Set η) (h : η) (choice : ν → τ → Transfer η × τ) (fuel : ℕ)
    (s₀ : PlistMem η ν) (outcome : τ × Queues η ν) (R : List ν) (s : PlistMem η ν × τ)
    (q : Queues η ν) (K : List ν) : Prop where
  holds : Holds s.1 G q
  nodes : q.on h = order way (K ++ R)
  outcome : sweep s₀.prio h choice R s.2 q = outcome
  fuel : ∀ g ∈ G, (q.on g).length + R.length + 1 < fuel
  prio : s.1.prio = s₀.prio
  warnings : s.1.warnings = s₀.warnings

variable {way : Way} {choice : ν → τ → Transfer η × τ} {s₀ : PlistMem η ν}
variable {outcome : τ × Queues η ν} {R K : List ν} {t : τ}

theorem Sweeping.step (hsweep : Sweeping way G h choice fuel s₀ outcome (x :: R) (s, t) q K)
    (hh : h ∈ G) (hmove : ∀ x t dest, (choice x t).1 = .move dest → dest ∈ G ∧ dest ≠ h) :
    ∃ s' q' K', transferAt fuel h choice (.addr (.node x)) (s, t) = some s' ∧
      Sweeping way G h choice fuel s₀ outcome R s' q' K' := by
  have hx : x ∈ q.on h := by
    rw [hsweep.nodes, mem_order]
    simp
  have hlens : ∀ g ∈ G, (q.on g).length + (R.length + 1) + 1 < fuel := hsweep.fuel
  have hprio₀ : s.prio = s₀.prio := hsweep.prio
  have hne : ∀ dest, (choice x t).1 = .move dest → dest ≠ h :=
    fun dest hdest => (hmove x t dest hdest).2
  have hfuel : ∀ g ∈ G, (q.on g).length + 1 < fuel := fun g hg => by
    have hlen := hlens g hg
    omega
  obtain ⟨s', hrun, hold, hprio, hwarnings⟩ := hsweep.holds.transfer hh hx (hmove x t) hfuel
  obtain ⟨K', hnodes⟩ := Transfer.effect_nodes s₀.prio hsweep.nodes
    (hsweep.holds.queues h hh).nodup hne
  rw [hprio₀] at hold
  refine ⟨(s', (choice x t).2), _, K', by simp [transferAt, hrun], hold, hnodes, hsweep.outcome,
    fun g hg => ?_, hprio.trans hprio₀, hwarnings.trans hsweep.warnings⟩
  have hlen := Transfer.length_effect_le s₀.prio q (x := x) hne g
  have hlen' := hlens g hg
  omega

theorem safe_sweeps (way : Way) (hold : Holds s G q) (hh : h ∈ G)
    (hmove : ∀ x t dest, (choice x t).1 = .move dest → dest ∈ G ∧ dest ≠ h)
    (hfuel : ∀ g ∈ G, (q.on g).length + (q.on h).length + 1 < fuel)
    (hnodes : q.on h = order way L) :
    ∃ s', listForEachEntrySafe (.refl _) (fun s : PlistMem η ν × τ => way.view s.1.mem)
        (transferAt fuel h choice) fuel (.addr (.head h)) (s, t) =
          some (s', (sweep s.prio h choice L t q).1) ∧
      Holds s' G (sweep s.prio h choice L t q).2 ∧ s'.prio = s.prio ∧
      s'.warnings = s.warnings := by
  have hlen : (q.on h).length = L.length := by
    rw [hnodes]
    cases way <;> simp [order]
  have hstart : Sweeping way G h choice fuel s (sweep s.prio h choice L t q) L (s, t) q [] :=
    ⟨hold, hnodes, rfl, fun g hg => hlen ▸ hfuel g hg, rfl, rfl⟩
  have hring : (way.view s.mem).Ring (.head h) (L.map .node) :=
    (hnodes ▸ hold.queues h hh).view
  have hrun := @listForEachEntrySafe_run (Link η ν) (Link η ν)
    (PlistMem η ν × τ) _ (.head h) (L.map .node) fuel (fun s => way.view s.1.mem)
    (fun l s' => ∃ R, l = R.map .node ∧
      ∃ q' K, Sweeping way G h choice fuel s (sweep s.prio h choice L t q) R s' q' K)
    (s, t) (.refl _) (transferAt fuel h choice) ?_ ?_ hring ⟨L, rfl, q, [], hstart⟩ ?_
  · obtain ⟨⟨s', t'⟩, hrun, R, hR, q', K, hdone⟩ := hrun
    obtain rfl : R = [] := List.map_eq_nil_iff.mp hR.symm
    have houtcome : (t', q') = sweep s.prio h choice L t q := hdone.outcome
    rw [← houtcome]
    exact ⟨s', hrun, hdone.holds, hdone.prio, hdone.warnings⟩
  · rintro l ⟨s', t'⟩ ⟨R, rfl, q', K, hsweep⟩
    have hinv := hsweep.holds.queues h hh
    rw [hsweep.nodes] at hinv
    exact ⟨K.map .node, by simpa using hinv.view⟩
  · rintro z l ⟨s', t'⟩ ⟨R, hR, q', K, hsweep⟩
    cases R with
    | nil => simp at hR
    | cons x R =>
        obtain ⟨rfl, rfl⟩ := List.cons.inj hR
        obtain ⟨s'', q'', K', hrun, hsweep'⟩ := hsweep.step hh hmove
        exact ⟨s'', hrun, R, rfl, q'', K', hsweep'⟩
  · have hlt := hfuel h hh
    rw [List.length_map]
    omega

/-- **Loops over a plist that delete and move its nodes.**  The plists stay consistent, and the
body gets the nodes of the plist as it was at first, whatever it does to them: in the order of
their priorities, or in the reverse one. -/
theorem plistForEachSafe_sweeps (hold : Holds s G q) (hh : h ∈ G)
    (hmove : ∀ x t dest, (choice x t).1 = .move dest → dest ∈ G ∧ dest ≠ h)
    (hfuel : ∀ g ∈ G, (q.on g).length + (q.on h).length + 1 < fuel) :
    (∃ s', plistForEachSafe Prod.fst (transferAt fuel h choice) fuel (.addr (.head h)) (s, t) =
          some (s', (sweep s.prio h choice (q.on h) t q).1) ∧
        Holds s' G (sweep s.prio h choice (q.on h) t q).2 ∧ s'.prio = s.prio ∧
        s'.warnings = s.warnings) ∧
      ∃ s', plistForEachSafeReverse Prod.fst (transferAt fuel h choice) fuel (.addr (.head h))
            (s, t) = some (s', (sweep s.prio h choice (q.on h).reverse t q).1) ∧
        Holds s' G (sweep s.prio h choice (q.on h).reverse t q).2 ∧ s'.prio = s.prio ∧
        s'.warnings = s.warnings :=
  ⟨safe_sweeps .forwards hold hh hmove hfuel rfl,
    safe_sweeps .backwards hold hh hmove hfuel (List.reverse_reverse _).symm⟩

theorem twoPlists_holds :
    Holds twoPlists Set.univ ⟨fun g => if g then [5] else [1, 2, 3, 4], [6]⟩ where
  queues g _ := by
    cases g with
    | true => exact twoPlists_second
    | false => exact twoPlists_first
  idle x hx := by
    rw [List.mem_singleton.mp hx]
    exact twoPlists_idle
  apart g _ g' _ hne := by
    cases g <;> cases g' <;> simp at hne ⊢
  apart_idle g _ := by
    cases g <;> simp

/-- Deletes 2, moves 3, and keeps the other nodes; notes what it is called for. -/
def sampleTransfer (n : Nat) (visited : List Nat) : Transfer Bool × List Nat :=
  (if n = 2 then .del else if n = 3 then .move true else .keep, n :: visited)

theorem plistForEachSafe_sweeps_twoPlists :
    (∃ s', plistForEachSafe Prod.fst (transferAt 10 false sampleTransfer) 10 (.addr (.head false))
          (twoPlists, []) = some (s', [4, 3, 2, 1]) ∧
        PlistInv s' false [1, 4] ∧ PlistInv s' true [5, 3] ∧ Idle s' 2) ∧
      ∃ s', plistForEachSafeReverse Prod.fst (transferAt 10 false sampleTransfer) 10
          (.addr (.head false)) (twoPlists, []) = some (s', [1, 2, 3, 4]) ∧
        PlistInv s' false [1, 4] ∧ PlistInv s' true [5, 3] ∧ Idle s' 2 := by
  have hmove : ∀ x visited dest, (sampleTransfer x visited).1 = .move dest →
      dest ∈ Set.univ ∧ dest ≠ false := by
    intro x visited dest hdest
    refine ⟨trivial, ?_⟩
    simp only [sampleTransfer] at hdest
    split_ifs at hdest
    cases hdest
    decide
  obtain ⟨⟨s₁, hrun₁, hold₁, -⟩, s₂, hrun₂, hold₂, -⟩ := @plistForEachSafe_sweeps _ _ _ _ _
    twoPlists Set.univ _ false 10 sampleTransfer [] twoPlists_holds trivial hmove (by decide)
  exact ⟨⟨s₁, hrun₁, hold₁.queues false trivial, hold₁.queues true trivial,
      hold₁.idle 2 List.mem_cons_self⟩,
    s₂, hrun₂, hold₂.queues false trivial, hold₂.queues true trivial,
    hold₂.idle 2 List.mem_cons_self⟩

end Plist
end Brlib
