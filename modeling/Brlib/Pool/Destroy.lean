import Brlib.ListHead.Iteration
import Brlib.Pool.Run

/-!
# `pool_destroy`

`free` of an address needs a region that begins there.  It gives the region back: its
cells are dead, and any access to one of them is a fault from then on.  So a loop that
returns has used no block after it was freed.

The loop frees the block that it stands on.  What keeps it safe is that the blocks that
are left, and the head of their list, are apart from it (`Destroying.step`).
-/

namespace Brlib
namespace Pool

open Heap Heap.Mem ListHead Alloc

namespace PoolMem

/-- The memory without the region `r`. -/
def release (s : PoolMem) (r : Region) : PoolMem where
  mem := { s.mem with live := fun c => s.mem.live c && (cell c).Disjoint r }
  pools q := if Region.Disjoint ⟨q.toNat, sizeofPool.toNat⟩ r then s.pools q else none
  regions := s.regions.erase r
  errno := s.errno

/-- `free` -/
def free (s : PoolMem) : Ptr UInt64 → Option PoolMem
  | .null => some s
  | .addr a => (s.regions.find? fun r => r.base = a.toNat).map s.release
  | .junk _ => none

end PoolMem

/-- The offset of `list_blocks` in a `block_t` is zero. -/
def listBlocksMember : UInt64 ≃ UInt64 := Equiv.refl UInt64

/-- The body of the loop of `pool_destroy`, which also notes what it frees. -/
def destroyBlock (block : Ptr UInt64) (t : List (Ptr UInt64) × PoolMem) :
    Option (List (Ptr UInt64) × PoolMem) := do
  let s ← t.2.onMem (listDel (memberPtr listBlocksMember block))
  let s ← s.free block
  some (t.1 ++ [block], s)

/-- `pool_destroy`: the calls of `free`, and the memory behind them. -/
def poolDestroy (fuel : Nat) (pool : Ptr UInt64) (s : PoolMem) :
    Option (List (Ptr UInt64) × PoolMem) :=
  if pool = .null then some ([], s)
  else do
    let (freed, s) ← listForEachEntrySafe listBlocksMember (fun t => t.2.mem) destroyBlock fuel
      (listBlocks pool) ([], s)
    let s ← s.free pool
    some (freed ++ [pool], s)

variable {limit : ℕ} {others : List Region} {name : List UInt8} {growsize : UInt32}
variable {eltsize p a b : UInt64} {c : Client} {f : PoolFields} {blocks R : List UInt64}
variable {s : PoolMem} {t : List (Ptr UInt64) × PoolMem} {r : Region} {fuel : ℕ}

theorem free_head {regions : List Region} (hregions : s.regions = r :: regions)
    (ha : r.base = a.toNat) :
    s.free (.addr a) = some (s.release r) ∧ (s.release r).regions = regions := by
  constructor
  · show (s.regions.find? _).map s.release = _
    rw [hregions, List.find?_cons_of_pos (by simpa using ha), Option.map_some]
  · show s.regions.erase r = regions
    rw [hregions, List.erase_cons_head]

theorem onMem_listDel (hring : s.mem.Ring a (b :: R)) :
    ∃ s', s.onMem (listDel (.addr b)) = some s' ∧ s'.mem.Ring a R ∧
      SameOutside s.mem s'.mem (a :: b :: R) ∧ s'.regions = s.regions := by
  obtain ⟨m, hdel, hring', hsame, -⟩ := @listDel_spec _ _ s.mem a b [] R hring
  exact ⟨{ s with mem := m }, by simp [PoolMem.onMem, hdel], hring', hsame, rfl⟩

/-- The list head at `a` overlaps neither the pool nor any of the blocks. -/
def Outside (f : PoolFields) (p : UInt64) (blocks : List UInt64) (a : UInt64) : Prop :=
  ∀ r ∈ poolRegion p :: blocks.map (blockRegion f), (cell a).Disjoint r

/-- During `pool_destroy`: the blocks `R` are left of `blocks`.  The others were freed, in
order, and nothing else was changed since `s`. -/
structure Destroying (s : PoolMem) (p : UInt64) (f : PoolFields) (blocks : List UInt64)
    (others : List Region) (R : List UInt64) (t : List (Ptr UInt64) × PoolMem) : Prop where
  freed : ∃ done, t.1 = done.map Ptr.addr ∧ done ++ R = blocks
  ring : t.2.mem.Ring (p + 56) R
  regions : t.2.regions = R.map (blockRegion f) ++ poolRegion p :: others
  dead : ∀ b ∈ blocks, b ∉ R → ∀ a, ¬ (cell a).Disjoint (blockRegion f b) →
    t.2.mem.live a = false
  outside : ∀ a, Outside f p blocks a → t.2.mem.live a = s.mem.live a ∧
    t.2.mem.next a = s.mem.next a ∧ t.2.mem.prev a = s.mem.prev a

theorem Outside.not_mem (harranged : Arranged f p blocks) (hsub : R ⊆ blocks)
    (hout : Outside f p blocks a) : a ∉ (p + 56) :: R := by
  intro hmem
  rcases List.mem_cons.mp hmem with rfl | hmem
  · have hapart := (hout _ List.mem_cons_self).mono (Region.Within.refl _)
      harranged.blocks_within
    exact hapart.base_ne (Nat.succ_pos 15) (Nat.succ_pos 15) rfl
  · have hregion : blockRegion f a ∈ poolRegion p :: blocks.map (blockRegion f) :=
      List.mem_cons_of_mem _ (List.mem_map_of_mem (hsub hmem))
    have hapart := (hout _ hregion).mono (Region.Within.refl _) harranged.header_within
    exact hapart.base_ne (Nat.succ_pos 15) (Nat.succ_pos 15) rfl

/-- One iteration frees one block. -/
theorem Destroying.step (harranged : Arranged f p blocks)
    (hdestroying : Destroying s p f blocks others (b :: R) t) :
    ∃ t', destroyBlock (.addr (listBlocksMember.symm b)) t = some t' ∧
      Destroying s p f blocks others R t' := by
  obtain ⟨⟨done, hfreed, hblocks⟩, hring, hregions, hdead, houtside⟩ := hdestroying
  have hsub : b :: R ⊆ blocks := fun x hx => hblocks ▸ List.mem_append_right done hx
  have hb : b ∈ blocks := hsub List.mem_cons_self
  have hb_out : b ∉ R := (List.nodup_cons.mp (List.nodup_cons.mp hring.nodup).2).1
  obtain ⟨s₁, hdel, hring₁, hsame, hregions₁⟩ := onMem_listDel hring
  obtain ⟨hfree, hregions'⟩ := @free_head b s₁ (blockRegion f b) _ (hregions₁.trans hregions) rfl
  have hlive : ∀ x, (s₁.release (blockRegion f b)).mem.live x =
      (s₁.mem.live x && (cell x).Disjoint (blockRegion f b)) := fun x => rfl
  -- the head of the list and the blocks that are left are apart from the block
  have hapart : ∀ x ∈ (p + 56) :: R, (cell x).Disjoint (blockRegion f b) := by
    intro x hx
    rcases List.mem_cons.mp hx with rfl | hx
    · exact harranged.pool_disjoint hb harranged.blocks_within (Region.Within.refl _)
    · have hne : x ≠ b := fun heq => hb_out (heq ▸ hx)
      exact harranged.block_disjoint (hsub (List.mem_cons_of_mem b hx)) hb hne
        harranged.header_within (Region.Within.refl _)
  refine ⟨(t.1 ++ [.addr b], s₁.release (blockRegion f b)), ?_, ⟨⟨done ++ [b], ?_, ?_⟩,
    ⟨?_, hring₁.nodup, ?_⟩, hregions', ?_, ?_⟩⟩
  · simp [destroyBlock, memberPtr, listBlocksMember, hdel, hfree]
  · simp [hfreed]
  · simpa using hblocks
  · exact hring₁.closed.congr fun x _ => ⟨rfl, rfl⟩
  · intro x hx
    rw [hlive, hring₁.live x hx, Bool.true_and, decide_eq_true_eq]
    exact hapart x hx
  · intro b' hb' hout a ha
    rw [hlive]
    by_cases heq : b' = b
    · subst heq
      simp [ha]
    · have hdead' := hdead b' hb' (by simp [heq, hout]) a ha
      rw [← hsame.live] at hdead'
      simp [hdead']
  · intro a ha
    have hnot : a ∉ (p + 56) :: b :: R := ha.not_mem harranged hsub
    have hdisjoint : (cell a).Disjoint (blockRegion f b) :=
      ha _ (List.mem_cons_of_mem _ (List.mem_map_of_mem hb))
    obtain ⟨hlive₀, hnext₀, hprev₀⟩ := houtside a ha
    refine ⟨?_, (hsame.next a hnot).trans hnext₀, (hsame.prev a hnot).trans hprev₀⟩
    rw [hlive, hsame.live, hlive₀]
    simp [hdisjoint]

theorem Destroying.start (hring : s.mem.Ring (p + 56) blocks)
    (hregions : s.regions = blocks.map (blockRegion f) ++ poolRegion p :: others) :
    Destroying s p f blocks others blocks ([], s) where
  freed := ⟨[], rfl, rfl⟩
  ring := hring
  regions := hregions
  dead _ hb hout := absurd hb hout
  outside _ _ := ⟨rfl, rfl, rfl⟩

theorem destroy_loop (harranged : Arranged f p blocks) (hring : s.mem.Ring (p + 56) blocks)
    (hregions : s.regions = blocks.map (blockRegion f) ++ poolRegion p :: others)
    (hfuel : blocks.length < fuel) :
    ∃ t, listForEachEntrySafe listBlocksMember (fun t => t.2.mem) destroyBlock fuel
        (.addr (p + 56)) ([], s) = some t ∧ Destroying s p f blocks others [] t :=
  listForEachEntrySafe_run (fun _ _ ht => ⟨[], ht.ring⟩) (fun _ _ _ ht => ht.step harranged) hring
    (.start hring hregions) hfuel

theorem Arranged.pool_not_mem (harranged : Arranged f p blocks) : p ∉ blocks := by
  intro hp
  have hsize : 0 < (blockRegion f p).size := by
    show 0 < (blockSize f).toNat
    rw [blockSize_exact_iff.mpr harranged.noOverflow]
    omega
  exact (harranged.pool_disjoint hp (Region.Within.refl _) (Region.Within.refl _)).base_ne
    (Nat.succ_pos 71) hsize rfl

/-- What `pool_destroy` does in the memory `s`: it frees `freed`, and leaves `s'`. -/
structure Destroyed (s : PoolMem) (p : UInt64) (f : PoolFields) (blocks : List UInt64)
    (others : List Region) (freed : List (Ptr UInt64)) (s' : PoolMem) : Prop where
  /-- Before: the blocks and the pool are all that was allocated since `pool_create`. -/
  blocks_ring : s.mem.Ring (p + 56) blocks
  allocated : s.regions = blocks.map (blockRegion f) ++ poolRegion p :: others
  /-- Each block is freed once, and then the pool. -/
  freed_eq : freed = blocks.map Ptr.addr ++ [.addr p]
  nodup : freed.Nodup
  /-- Nothing is left of them. -/
  dead : ∀ r ∈ poolRegion p :: blocks.map (blockRegion f), ∀ a, ¬ (cell a).Disjoint r →
    s'.mem.live a = false
  /-- Nothing else is freed or changed. -/
  regions : s'.regions = others
  outside : ∀ a, Outside f p blocks a → s'.mem.live a = s.mem.live a ∧
    s'.mem.next a = s.mem.next a ∧ s'.mem.prev a = s.mem.prev a

/-- `pool_destroy` frees all blocks and then the pool, whatever the client still holds. -/
theorem pool_destroy_frees (hno : 16 + max eltsize.toNat 16 * growsize.toNat < 2 ^ 64)
    (hgrow : growsize ≠ 0) (hreach : Reachable limit others name growsize eltsize p c)
    (hfuel : c.s.regions.length ≤ fuel) :
    ∃ f blocks freed s', poolDestroy fuel (.addr p) c.s = some (freed, s') ∧
      Destroyed c.s p f blocks others freed s' := by
  obtain ⟨f, blocks, l, ⟨hinv, -⟩, -, -⟩ := reachable_lifo hno hgrow hreach
  have hfuel' : blocks.length < fuel := by
    rw [hinv.regions, List.length_append, List.length_map, List.length_cons] at hfuel
    omega
  obtain ⟨t, hloop, hdone⟩ := destroy_loop hinv.arranged hinv.blocks_ring hinv.regions hfuel'
  obtain ⟨done, hfreed, hblocks⟩ := hdone.freed
  rw [List.append_nil] at hblocks
  subst hblocks
  -- the pool is freed last
  obtain ⟨hfree, hregions'⟩ := @free_head p t.2 (poolRegion p) others hdone.regions rfl
  have hlive : ∀ a, (t.2.release (poolRegion p)).mem.live a =
      (t.2.mem.live a && (cell a).Disjoint (poolRegion p)) := fun a => rfl
  refine ⟨f, done, t.1 ++ [.addr p], t.2.release (poolRegion p), ?_, hinv.blocks_ring,
    hinv.regions, by rw [hfreed], ?_, ?_, hregions', ?_⟩
  · simp [poolDestroy, listBlocks, hloop, hfree]
  · rw [hfreed]
    have hinj : Function.Injective (Ptr.addr : UInt64 → Ptr UInt64) := fun _ _ => Ptr.addr.inj
    have hnodup := (List.nodup_cons.mp hinv.blocks_ring.nodup).2
    refine (hnodup.map hinj).append (List.nodup_singleton _) ?_
    simpa using hinv.arranged.pool_not_mem
  · intro r hr a ha
    rw [hlive]
    rcases List.mem_cons.mp hr with rfl | hr
    · simp [ha]
    · obtain ⟨b, hb, rfl⟩ := List.mem_map.mp hr
      simp [hdone.dead b hb List.not_mem_nil a ha]
  · intro a ha
    obtain ⟨hlive', hnext, hprev⟩ := hdone.outside a ha
    refine ⟨?_, hnext, hprev⟩
    rw [hlive, hlive']
    simp [ha _ List.mem_cons_self]

/-- A pool from which two elements were taken, one a block, is destroyed. -/
theorem pool_destroy_frees_two :
    ∃ (c : Client) (f : PoolFields) (blocks : List UInt64) (freed : List (Ptr UInt64))
      (s' : PoolMem), poolDestroy c.s.regions.length (.addr 4096) c.s = some (freed, s') ∧
      Destroyed c.s 4096 f blocks [] freed s' ∧ c.held.length = 2 ∧ freed.length = 3 := by
  obtain ⟨c, f, blocks, l, hreach, ⟨hinv, hheld⟩, hsizes, hfree, hlen, -⟩ :=
    @reachable_blocks 2 (by decide)
  obtain ⟨f', blocks', freed, s', hrun, hdestroyed⟩ :=
    pool_destroy_frees (by decide) (by decide) hreach (le_refl _)
  refine ⟨c, f', blocks', freed, s', hrun, hdestroyed, ?_, ?_⟩
  · have hgrow : f.growsize.toNat = 1 := by
      rw [hsizes.growsize]
      rfl
    have hperm := hinv.sound.partition.length_eq
    rw [hfree, hinv.slots_eq, List.nil_append, List.length_flatMap] at hperm
    rw [← hheld, hperm]
    simp [length_slots, hgrow, hlen]
  · have hregions := congrArg List.length (hinv.regions.symm.trans hdestroyed.allocated)
    rw [hdestroyed.freed_eq]
    simp only [List.length_append, List.length_map, List.length_cons, List.length_nil]
      at hregions ⊢
    omega

end Pool
end Brlib
