import Brlib.ListSort.Correctness
import Brlib.ListSort.Heads

/-!
# The pending runs and the balance of `list_sort`

What the comments of `list_sort` promise about its data structure, at every loop head that a
call reaches (`listSort_balanced`): how the pending runs look at a head of the main
loop, which two of them the round at hand merges, and that all merges after the end of the
input, up to the final one, are balanced.  And a call does reach the heads: one for each
element, and at last the head in front of the final merge.
-/

namespace Brlib
namespace ListSort

open Heap Heap.Mem Merging

variable {α π : Type} [DecidableEq α] {cmp : ListCmpFunc π α}
variable {m m' : Mem α} {h : α} {l : List α} {runs : List (List α)} {list pending : Ptr α}
variable {s priv : π} {fuel count : Nat}

section Statements

/-- The runs that are pending at a head of the main loop. -/
structure PendingRuns (l : List α) (list pending : Ptr α) (count : Nat) (m : Mem α)
    (runs : List (List α)) : Prop where
  /-- The runs are chained from `pending` through `prev`, and the rest of the input is left. -/
  chains : m.Chains pending runs
  input : m.Chain list (l.drop count)
  /-- Their sizes are powers of two, sum up to `count`, and never decrease from front to
  back; no size occurs more than twice. -/
  power : ∀ run ∈ runs, ∃ k, run.length = 2 ^ k
  sum : (runs.map List.length).sum = count
  sorted : (runs.map List.length).Pairwise (· ≤ ·)
  twice : ∀ size, (runs.map List.length).count size ≤ 2
  /-- Each run is a rearrangement of a segment of the input, the newest one of the last. -/
  segments : Segmented runs (l.take count)

/-- The round at hand: `count` has `k` trailing ones, and `bits` is what is left of it. -/
structure RoundAhead (pending : Ptr α) (count : Nat) (m : Mem α) (runs : List (List α))
    (k bits : Nat) (tail : Slot α) : Prop where
  ones : count = 2 ^ k * bits + (2 ^ k - 1)
  clear : bits % 2 = 0
  /-- The walk over the trailing ones follows no null link. -/
  walk : ∃ ps, followed count .var pending m = some ps ∧ ps.length = k ∧ ∀ p ∈ ps, p ≠ .null
  skip : skipOnes count .var pending m = some (bits, tail)
  /-- The two runs to merge. -/
  pair : bits ≠ 0 → ∃ a b newer older rest, runs.drop k = newer :: older :: rest ∧
    tail.loadPrev pending m = some (.addr a) ∧ m.getPrev (.addr a) = some (.addr b) ∧
    m.Chain (.addr a) newer ∧ m.Chain (.addr b) older ∧
    newer.length = 2 ^ k ∧ older.length = 2 ^ k

/-- The two chains at `list` and `pending` are there to be merged, and neither is more than
twice as long as the other. -/
def BalancedMerge (list pending : Ptr α) (m : Mem α) : Prop :=
  ∃ newer older, m.Chain list newer ∧ m.Chain pending older ∧
    newer ≠ [] ∧ older ≠ [] ∧
    newer.length ≤ 2 * older.length ∧ older.length ≤ 2 * newer.length

end Statements

section Heads

omit [DecidableEq α] in
theorem Counted.pendingRuns (h : Counted l list pending count m runs) :
    PendingRuns l list pending count m runs := by
  obtain ⟨hchains, hinput, hsizes, hsegments⟩ := h
  refine ⟨hchains, hinput, ?_, ?_, ?_, ?_, hsegments⟩
  · intro run hrun
    have hmem : run.length ∈ pendingSizes 1 1 count := hsizes ▸ List.mem_map_of_mem hrun
    obtain ⟨k, hk⟩ := exists_of_mem_pendingSizes hmem
    exact ⟨k, by rw [hk, Nat.mul_one]⟩
  · rw [hsizes]
    by_cases hzero : count = 0
    · simp [hzero]
    · rw [sum_pendingSizes (by omega) 1 le_rfl]
      omega
  · rw [hsizes]
    exact sorted_pendingSizes 1 1 count
  · rw [hsizes]
    exact count_pendingSizes_le (by decide) le_rfl

omit [DecidableEq α] in
theorem Counted.roundAhead (h : Counted l list pending count m runs) (hnodup : l.Nodup) :
    ∃ k bits tail, RoundAhead pending count m runs k bits tail := by
  have hnodup' : runs.flatten.Nodup := (h.perm.nodup_iff.mpr hnodup).of_append_left
  obtain ⟨ps, bits, hps, hlive, hones, hclear, hpair⟩ :=
    @walk_spec _ m runs pending .var count 1 h.chains trivial hnodup' h.sizes
  have hbits : count / 2 ^ ps.length = bits := by
    have hpos : 0 < 2 ^ ps.length := Nat.two_pow_pos _
    rw [hones, Nat.mul_add_div hpos, Nat.div_eq_of_lt (by omega), Nat.add_zero]
  refine ⟨ps.length, bits, ps.foldl (fun _ p => Slot.field p) .var, hones, hclear,
    ⟨ps, hps, rfl, fun p hp => ?_⟩, ?_, ?_⟩
  · obtain ⟨a, rfl, -⟩ := hlive p hp
    simp
  · rw [skipOnes_eq_followed, hps, Option.map_some, hbits]
  · intro hne
    simpa using hpair hne

omit [DecidableEq α] in
theorem Closing.balancedMerge {newer older : List α} (h : Closing l list pending m newer older runs) :
    BalancedMerge list pending m := by
  match older, h.chains with
  | a :: k, hchains =>
      exact ⟨newer, a :: k, h.newer_chain, hchains.1, h.newer_ne, by simp, h.balanced.1,
        h.balanced.2.1⟩

end Heads

section Reached

/-- The main loop goes from head to head. -/
theorem reaches_of_mainLoop {rounds : Nat} {head p q : Ptr α} {m₁ m₂ : Mem α} {s' : π}
    (hreach : Reaches cmp fuel priv head m (.main list pending count s m₁))
    (hloop : mainLoop cmp fuel rounds list pending count s m₁ = some (p, s', m₂))
    (hnext : m₂.getPrev p = some q) : Reaches cmp fuel priv head m (.final p q s' m₂) := by
  induction rounds generalizing list pending count s m₁ with
  | zero => exact absurd hloop (by simp [mainLoop])
  | succ rounds ih =>
      rw [mainLoop_succ] at hloop
      obtain ⟨⟨list', pending', count', s₁, m'⟩, hround, hrest⟩ := Option.bind_eq_some_iff.mp hloop
      simp only at hrest
      by_cases hend : list' = .null
      · subst hend
        rw [if_pos rfl] at hrest
        obtain ⟨rfl, rfl, rfl⟩ : pending' = p ∧ s₁ = s' ∧ m' = m₂ := by simpa using hrest
        exact .finish hreach hround hnext
      · rw [if_neg hend] at hrest
        exact ih (.round hreach hround hend) hrest

theorem reaches_of_mergePending {rounds : Nat} {head p q : Ptr α} {m₁ m₂ : Mem α} {s' : π}
    (hreach : Reaches cmp fuel priv head m (.final list pending s m₁))
    (hloop : mergePending cmp fuel rounds list pending s m₁ = some (p, q, s', m₂)) :
    Reaches cmp fuel priv head m (.final p q s' m₂) ∧ m₂.getPrev q = some .null := by
  induction rounds generalizing list pending s m₁ with
  | zero => exact absurd hloop (by simp [mergePending])
  | succ rounds ih =>
      rw [mergePending] at hloop
      obtain ⟨next, hnext, hrest⟩ := Option.bind_eq_some_iff.mp hloop
      by_cases hend : next = .null
      · subst hend
        rw [if_pos rfl] at hrest
        obtain ⟨rfl, rfl, rfl, rfl⟩ : list = p ∧ pending = q ∧ s = s' ∧ m₁ = m₂ := by
          simpa using hrest
        exact ⟨hreach, hnext⟩
      · rw [if_neg hend] at hrest
        obtain ⟨⟨list', s₁, m'⟩, hmerge, hrest⟩ := Option.bind_eq_some_iff.mp hrest
        exact ih (.merge hreach hnext hend hmerge) hrest

/-- A call that sorts ends in the final merge of a head that it reaches. -/
theorem reaches_of_listSort {r : π × Mem α} (hring : m.Ring h l) (hlen : 2 ≤ l.length)
    (hsort : listSort cmp fuel priv (.addr h) m = some r) :
    ∃ list pending s m', Reaches cmp fuel priv (.addr h) m (.final list pending s m') ∧
      m'.getPrev pending = some .null ∧
      mergeFinal cmp fuel s (.addr h) pending list m' = some r := by
  match l, hlen with
  | x :: y :: l, _ =>
      obtain ⟨last, m₀, hfirst, hlast, hne, hcut, -⟩ := enter_spec hring
      have henter : Reaches cmp fuel priv (.addr h) m (.main (.addr x) .null 0 priv m₀) :=
        .enter hfirst hlast (by simpa using hne) hcut
      rw [listSort, hfirst, hlast] at hsort
      simp only [Option.bind_eq_bind, Option.bind_some] at hsort
      rw [if_neg (by simpa using hne), hcut, Option.bind_some] at hsort
      obtain ⟨⟨p, s₁, m₁⟩, hmain, hsort⟩ := Option.bind_eq_some_iff.mp hsort
      obtain ⟨q, hprev, hsort⟩ := Option.bind_eq_some_iff.mp hsort
      obtain ⟨⟨list, pending, s₂, m₂⟩, hpending, hfinal⟩ := Option.bind_eq_some_iff.mp hsort
      obtain ⟨hreach, hnull⟩ :=
        reaches_of_mergePending (reaches_of_mainLoop henter hmain hprev) hpending
      exact ⟨list, pending, s₂, m₂, hreach, hnull, hfinal⟩

theorem exists_reaches (hring : m.Ring h l) (hlen : 2 ≤ l.length) (hfuel : l.length ≤ fuel)
    (hword : l.length < 2 ^ 64) (hcount : count < l.length) :
    ∃ list pending s m', Reaches cmp fuel priv (.addr h) m (.main list pending count s m') := by
  have hnodup : l.Nodup := (List.nodup_cons.mp hring.nodup).2
  induction count with
  | zero =>
      match l, hlen with
      | x :: y :: l, _ =>
          obtain ⟨last, m₀, hfirst, hlast, hne, hcut, -⟩ := enter_spec hring
          exact ⟨_, _, _, _, .enter hfirst hlast (by simpa using hne) hcut⟩
  | succ count ih =>
      obtain ⟨list, pending, s, m₁, hreach⟩ := ih (by omega)
      obtain ⟨hmore, runs, hcounted⟩ := headInv_of_reaches hring hlen hfuel hword hreach
      obtain ⟨list', x, s', m₂, runs', hround, hcounted'⟩ :=
        hcounted.round hmore hnodup hfuel hword cmp s
      refine ⟨list', .addr x, s', m₂, .round hreach hround fun hnull => ?_⟩
      have hend := List.drop_eq_nil_iff.mp (hcounted'.input.eq_null_iff.mp hnull)
      omega

omit [DecidableEq α] in
theorem length_lt_of_ring {addr : α → UInt64} (haddr : Function.Injective addr)
    (hring : m.Ring h l) : l.length < 2 ^ 64 := by
  have hinj : Function.Injective fun a => (addr a).toNat :=
    fun a b hab => haddr (UInt64.toNat_inj.mp hab)
  have hnodup : ((h :: l).map fun a => (addr a).toNat).Nodup := hring.nodup.map hinj
  have hsubset : (h :: l).map (fun a => (addr a).toNat) ⊆ List.range (2 ^ 64) := by
    intro n hn
    obtain ⟨a, -, rfl⟩ := List.mem_map.mp hn
    exact List.mem_range.mpr (UInt64.toNat_lt _)
  have hle := (List.subperm_of_subset hnodup hsubset).length_le
  rwa [List.length_map, List.length_range, List.length_cons] at hle

end Reached

/-- **The pending runs and the balance of `list_sort`.**  On every list of two or more nodes,
whose addresses have 64 bits, and for every comparison: at each head of the main loop the
pending runs are as the counter says, the walk over its trailing ones stays on them, the
two runs to merge are there, and the round succeeds; and at each head of the loop after the end
of the input, the merge at hand, in the loop or the final one, is balanced.  The main loop
comes to a head for each element, and the call ends in the final merge. -/
theorem listSort_balanced {addr : α → UInt64} (haddr : Function.Injective addr)
    (hring : m.Ring h l) (hlen : 2 ≤ l.length) (hfuel : l.length ≤ fuel)
    (cmp : ListCmpFunc π α) (priv : π) :
    (∀ list pending count s m',
      Reaches cmp fuel priv (.addr h) m (.main list pending count s m') →
      (∃ runs, PendingRuns l list pending count m' runs ∧
        ∃ k bits tail, RoundAhead pending count m' runs k bits tail) ∧
      ∃ r, mainRound cmp fuel list pending count s m' = some r) ∧
    (∀ list pending s m',
      Reaches cmp fuel priv (.addr h) m (.final list pending s m') →
      BalancedMerge list pending m') ∧
    (∀ count < l.length, ∃ list pending s m',
      Reaches cmp fuel priv (.addr h) m (.main list pending count s m')) ∧
    ∃ list pending s m' r, Reaches cmp fuel priv (.addr h) m (.final list pending s m') ∧
      m'.getPrev pending = some .null ∧
      mergeFinal cmp fuel s (.addr h) pending list m' = some r ∧
      listSort cmp fuel priv (.addr h) m = some r := by
  have hword := length_lt_of_ring haddr hring
  have hnodup : l.Nodup := (List.nodup_cons.mp hring.nodup).2
  refine ⟨?_, ?_, ?_, ?_⟩
  · intro list pending count s m' hreach
    obtain ⟨hmore, runs, hcounted⟩ := headInv_of_reaches hring hlen hfuel hword hreach
    obtain ⟨list', x, s', m₂, runs', hround, -⟩ :=
      hcounted.round hmore hnodup hfuel hword cmp s
    exact ⟨⟨runs, hcounted.pendingRuns, hcounted.roundAhead hnodup⟩, _, hround⟩
  · intro list pending s m' hreach
    obtain ⟨newer, older, runs, hclosing⟩ := headInv_of_reaches hring hlen hfuel hword hreach
    exact hclosing.balancedMerge
  · exact fun count hcount => exists_reaches hring hlen hfuel hword hcount
  · obtain ⟨m', hsort, -, -⟩ := @listSort_spec _ _ _ cmp m h l priv fuel hring hfuel
    obtain ⟨list, pending, s, m₂, hreach, hnull, hfinal⟩ :=
      reaches_of_listSort hring hlen hsort
    exact ⟨list, pending, s, m₂, _, hreach, hnull, hfinal, hsort⟩

/-- A list of the cells 3, 1, 2 with the head 0. -/
def threeCells : Mem (Fin 4) where
  live _ := true
  next
    | 0 => .addr 3
    | 3 => .addr 1
    | 1 => .addr 2
    | 2 => .addr 0
  prev
    | 0 => .addr 2
    | 3 => .addr 0
    | 1 => .addr 3
    | 2 => .addr 1

theorem threeCells_ring : threeCells.Ring 0 [3, 1, 2] where
  closed := ⟨⟨rfl, rfl⟩, ⟨rfl, rfl⟩, ⟨rfl, rfl⟩, ⟨rfl, rfl⟩, trivial⟩
  nodup := by decide
  live _ _ := rfl

/-- Where the cells are. -/
def cellAddr (i : Fin 4) : UInt64 :=
  4096 + 16 * UInt64.ofNat i

/-- A boolean comparison of the cells, which counts its calls. -/
def cellCmp : ListCmpFunc Nat (Fin 4) := fun calls a b => (if a ≤ b then 0 else 1, calls + 1)

theorem listSort_balanced_threeCells :
    (∀ list pending count s m',
      Reaches cellCmp 3 0 (.addr 0) threeCells (.main list pending count s m') →
      ∃ runs, PendingRuns [3, 1, 2] list pending count m' runs ∧
        ∃ k bits tail, RoundAhead pending count m' runs k bits tail) ∧
    ∃ list pending s m', Reaches cellCmp 3 0 (.addr 0) threeCells (.final list pending s m') ∧
      BalancedMerge list pending m' := by
  obtain ⟨hmain, hfinal, -, list, pending, s, m', r, hreach, -⟩ :=
    @listSort_balanced (Fin 4) Nat _ threeCells 0 [3, 1, 2] 3 cellAddr (by decide)
      threeCells_ring (by decide) (by decide) cellCmp 0
  refine ⟨?_, list, pending, s, m', hreach, hfinal list pending s m' hreach⟩
  exact fun list pending count s m' hreach => (hmain list pending count s m' hreach).1

end ListSort
end Brlib
