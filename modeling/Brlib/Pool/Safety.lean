import Brlib.Pool.Overflow

/-!
# When `pool_get` keeps to the elements of the pool

`pool_get` decides by the counter `available` and takes the first cell of
`list_available` without a look at the list.  A new block makes the list nonempty, but
only if it has an element: a pool with a `growsize` of zero hands out the head of its
own list and wraps the counter (`poolGet_zero`).  The other pools do not, as long as
their blocks hold their elements (`pool_safe_iff`).
-/

namespace Brlib
namespace Pool

open Heap Heap.Mem ListHead Alloc

/-- The pool at `p` is well formed, and `pool_get` answers null or an element of a
block that the pool allocated.  In the second case the counter, which has been
decremented, was not zero. -/
structure Safe (limit : ℕ) (p : UInt64) (c : Client) : Prop where
  well_formed : ∃ free, c.s.mem.Ring (p + 40) free
  get : ∀ malloc, c.s.Answers limit malloc →
    ∃ res s' f', poolGet malloc (.addr p) c.s = some (res, s') ∧
      s'.pools p = some f' ∧
      (res = .null ∨ ∃ a b blocks, res = .addr a ∧ a ≠ p + 40 ∧ s'.mem.Ring (p + 56) blocks ∧
        b ∈ blocks ∧ blockRegion f' b ∈ s'.regions ∧ a ∈ slots f' b ∧
        (elem f' a).Within (blockRegion f' b) ∧ f'.available + 1 ≠ 0)

variable {limit : ℕ} {others : List Region} {name : List UInt8} {growsize : UInt32}
variable {eltsize p b : UInt64} {c : Client} {f : PoolFields} {blocks : List UInt64} {l : Lifo UInt64}
variable {s : PoolMem} {malloc : UInt64 → Ptr UInt64}

theorem Tied.safe (htied : Tied c p f blocks l others) (hgrow : f.growsize ≠ 0) :
    Safe limit p c where
  well_formed := ⟨l.free, htied.inv.free_ring⟩
  get malloc hmalloc := by
    obtain ⟨res, s', f', blocks', l', hrun, hinv', hsizes, -, hres⟩ :=
      poolGet_step htied.inv hgrow hmalloc
    refine ⟨res, s', f', hrun, hinv'.pool, hres.imp (fun h => h.1) ?_⟩
    rintro ⟨a, ha, hheld, hcount⟩
    have ha_slot : a ∈ blocks'.flatMap (slots f') := by
      refine hinv'.mem_slots_iff.mpr (.inr ?_)
      rw [hheld]
      exact List.mem_cons_self
    obtain ⟨b, hb, hab⟩ := List.mem_flatMap.mp ha_slot
    refine ⟨a, b, blocks', ha, ?_, hinv'.blocks_ring, hb, ?_, hab,
      hinv'.arranged.elem_within hb hab, hcount⟩
    · exact fun heq => hinv'.arranged.available_not_mem (heq ▸ ha_slot)
    · exact hinv'.known _ (List.mem_cons_of_mem _ (List.mem_map_of_mem hb))

/-- `_pool_get` of an empty list takes the head of the list. -/
theorem _poolGet_empty (hpool : s.pools p = some f) (hring : s.mem.Ring (p + 40) []) :
    ∃ s', _poolGet (.addr p) s = some (.addr (p + 40), s') ∧
      s'.pools p = some { f with available := f.available - 1 } := by
  have hnext : s.mem.next (p + 40) = .addr (p + 40) := hring.next_head
  have hlive : s.mem.live (p + 40) = true := hring.live_head
  have hdel : listDel (.addr (p + 40)) s.mem = some ((s.mem.putNext (p + 40) listPoison1).putPrev
      (p + 40) listPoison2) := by
    simp [listDel, _listDelEntry_alone hring, hlive]
  refine ⟨{ s with
    mem := (s.mem.putNext (p + 40) listPoison1).putPrev (p + 40) listPoison2
    pools := Function.update s.pools p (some { f with available := f.available - 1 }) }, ?_,
    by simp⟩
  simp [_poolGet, listAvailable, hlive, hnext, PoolMem.getPool, PoolMem.setPool, hpool,
    PoolMem.onMem, hdel]

/-- A pool without elements in its blocks hands out its own list head. -/
theorem poolGet_zero (hinv : PoolInv s p f blocks l others) (hgrow : f.growsize = 0)
    (hfree : l.free = []) (hb : malloc (blockSize f) = .addr b)
    (hfits : b.toNat + (blockSize f).toNat ≤ 2 ^ 64)
    (hapart : ∀ r ∈ s.regions, (blockRegion f b).Disjoint r) :
    ∃ s' f', poolGet malloc (.addr p) s = some (.addr (p + 40), s') ∧ s'.pools p = some f' ∧
      f'.available + 1 = 0 := by
  have havail : f.available = 0 := by
    rw [hinv.available, hfree]
    rfl
  obtain ⟨s₁, hrun₁, hinv₁, -⟩ := poolGrow_spec hinv hfits hapart
  have hslots : slots f b = [] := by
    apply List.eq_nil_of_length_eq_zero
    rw [length_slots, hgrow]
    rfl
  have hring₁ : s₁.mem.Ring (p + 40) [] := by
    have hring := hinv₁.free_ring
    have hempty : (l.grow (slots f b)).free = [] := by
      show slots f b ++ l.free = []
      rw [hslots, hfree]
      rfl
    rwa [hempty] at hring
  obtain ⟨s₂, hrun₂, hpool₂⟩ := _poolGet_empty hinv₁.pool hring₁
  refine ⟨s₂, _, ?_, hpool₂, ?_⟩
  · simp [poolGet, PoolMem.getPool, hinv.pool, havail, hb, hrun₁, hrun₂]
  · show (grown f).available - 1 + 1 = 0
    rw [UInt32.sub_add_cancel]
    show f.available + f.growsize = 0
    rw [havail, hgrow]
    rfl

theorem reachable_zero (name : List UInt8) (eltsize : UInt64) (hlimit : 72 ≤ limit) :
    ∃ c s' f', Reachable limit [] name 0 eltsize 4096 c ∧ c.s.Answers limit (mallocAt 8192 16) ∧
      poolGet (mallocAt 8192 16) (.addr 4096) c.s = some (.addr (4096 + 40), s') ∧
      s'.pools 4096 = some f' ∧ f'.available + 1 = 0 := by
  have hno : NoOverflow (newPool name 0 eltsize) := by
    rw [newPool_noOverflow_iff]
    simp
  obtain ⟨s, hreach, hinv⟩ := reachable_blank name 0 eltsize hlimit hno
  have hsize : blockSize (newPool name 0 eltsize) = 16 := by
    rw [← UInt64.toNat_inj, blockSize_exact_iff.mpr hno]
    rfl
  have hapart : ∀ r ∈ s.regions, Region.Disjoint ⟨8192, 16⟩ r := by
    intro r hr
    rw [hinv.regions] at hr
    rw [List.mem_singleton.mp hr]
    decide
  have hregion : blockRegion (newPool name 0 eltsize) 8192 = ⟨8192, 16⟩ := by
    rw [blockRegion, hsize]
    rfl
  have hb : mallocAt 8192 16 (blockSize (newPool name 0 eltsize)) = .addr 8192 := by
    rw [hsize]
    rfl
  obtain ⟨s', f', hrun, hpool, hcount⟩ := poolGet_zero hinv rfl rfl hb
    (by rw [hsize]; decide) (by rwa [hregion])
  have hsmall : (16 : UInt64).toNat ≤ limit := by
    simp only [UInt64.reduceToNat]
    omega
  exact ⟨⟨s, []⟩, s', f', hreach, answers_mallocAt hsmall (by decide) (by decide) hapart, hrun,
    hpool, hcount⟩

/-- Every run of a pool is safe if and only if its blocks have elements, and hold them
or are too large to be given. -/
theorem pool_safe_iff (name : List UInt8) (growsize : UInt32) (eltsize : UInt64) :
    (∀ others p c, Reachable ptrdiffMax others name growsize eltsize p c → Safe ptrdiffMax p c) ↔
      growsize ≠ 0 ∧ (16 + max eltsize.toNat 16 * growsize.toNat < 2 ^ 64 ∨
        ptrdiffMax < (16 + max eltsize.toNat 16 * growsize.toNat) % 2 ^ 64) := by
  have hsize : (blockSize (newPool name growsize eltsize)).toNat =
      (16 + max eltsize.toNat 16 * growsize.toNat) % 2 ^ 64 := by
    rw [blockSize_toNat, newPool_eltsize]
    rfl
  rw [← newPool_noOverflow_iff name, ← hsize]
  constructor
  · intro hsafe
    constructor
    · rintro rfl
      -- no element in a block
      obtain ⟨c, s', f', hreach, hmalloc, hrun, -, -⟩ :=
        @reachable_zero ptrdiffMax name eltsize (by decide)
      obtain ⟨res, s₁, f₁, hrun₁, -, hres⟩ := (hsafe [] 4096 c hreach).get _ hmalloc
      rw [hrun] at hrun₁
      obtain ⟨rfl, rfl⟩ : .addr (4096 + 40) = res ∧ s' = s₁ := by simpa using hrun₁
      rcases hres with hnull | ⟨a, b, blocks, ha, hne, -⟩
      · exact absurd hnull (by simp)
      · exact hne (by simpa using ha.symm)
    · by_contra hwrong
      -- elements outside of the block
      obtain ⟨hover, hsmall⟩ := not_or.mp hwrong
      obtain ⟨c, malloc, hreach, hmalloc, hfault⟩ :=
        reachable_overflow name growsize eltsize hover (Nat.not_lt.mp hsmall)
      obtain ⟨res, s', f', hrun, -⟩ := (hsafe [] 4096 c hreach).get malloc hmalloc
      simp [hfault] at hrun
  · rintro ⟨hgrow, hno | hstarved⟩ others p c hreach
    · obtain ⟨f, blocks, l, htied, hsizes, -⟩ :=
        reachable_lifo ((newPool_noOverflow_iff name growsize eltsize).mp hno) hgrow hreach
      refine htied.safe ?_
      rw [hsizes.growsize]
      exact hgrow
    · obtain ⟨hpool, hring, -⟩ := reachable_starved hstarved hreach
      exact ⟨⟨[], hring⟩, fun malloc hmalloc => ⟨.null, _, _,
        poolGet_starved hpool rfl hstarved hmalloc, hpool, .inl rfl⟩⟩

/-- The pool of elements of 24 bytes, none in a block: its first element is its own
`list_available`, and the counter wraps. -/
theorem growsize_zero_unsafe :
    ∃ c s' f', Reachable ptrdiffMax [] [112] 0 24 4096 c ∧
      c.s.Answers ptrdiffMax (mallocAt 8192 16) ∧
      poolGet (mallocAt 8192 16) (.addr 4096) c.s = some (.addr (4096 + 40), s') ∧
      s'.pools 4096 = some f' ∧ f'.available.toNat = 2 ^ 32 - 1 := by
  obtain ⟨c, s', f', hreach, hmalloc, hrun, hpool, hcount⟩ :=
    @reachable_zero ptrdiffMax [112] 24 (by decide)
  refine ⟨c, s', f', hreach, hmalloc, hrun, hpool, ?_⟩
  have hmax : f'.available = 0 - 1 := by
    rw [← hcount, UInt32.add_sub_cancel]
  rw [hmax]
  rfl

end Pool
end Brlib
