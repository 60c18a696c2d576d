import Brlib.ListHead.Spec
import Brlib.Pool.Invariant

/-!
# The pool functions keep the invariant

`pool_add` and `pool_get` are the operations `add` and `get` of the last-in first-out
allocator that the pool is.  When the counter `available` is zero, `pool_get` first
grows the allocator by the elements of a new block, or returns null when there is
none.  The counter may be zero though the list is not empty, when it has wrapped
around: then the pool grows early, and the invariant is kept all the same.
-/

namespace Brlib
namespace Pool

open Heap Heap.Mem ListHead Alloc

variable {s : PoolMem} {p a b : UInt64} {f : PoolFields} {blocks A : List UInt64}
variable {l : Lifo UInt64} {others : List Region}

section Calls

theorem _poolAdd_spec (hpool : s.pools p = some f) (hring : s.mem.Ring (p + 40) A)
    (ha : a ∉ (p + 40) :: A) (hlive : s.mem.live a = true) :
    ∃ m', _poolAdd (.addr p) (.addr a) s = some (f.available + 1,
        { s with
          mem := m'
          pools := Function.update s.pools p (some { f with available := f.available + 1 }) }) ∧
      m'.Ring (p + 40) (a :: A) ∧ SameOutside s.mem m' (a :: (p + 40) :: A) := by
  obtain ⟨m', hadd, hring', hsame⟩ := listAdd_spec hring ha hlive
  refine ⟨m', ?_, hring', hsame⟩
  simp [_poolAdd, PoolMem.onMem, listAvailable, hadd, PoolMem.getPool, PoolMem.setPool, hpool]

theorem _poolGet_spec (hpool : s.pools p = some f) (hring : s.mem.Ring (p + 40) (a :: A)) :
    ∃ m', _poolGet (.addr p) s = some (.addr a,
        { s with
          mem := m'
          pools := Function.update s.pools p (some { f with available := f.available - 1 }) }) ∧
      m'.Ring (p + 40) A ∧ SameOutside s.mem m' ((p + 40) :: a :: A) := by
  have hnext : s.mem.next (p + 40) = .addr a := hring.next_head
  obtain ⟨m', hdel, hring', hsame, -⟩ := @listDel_spec _ _ s.mem (p + 40) a [] A hring
  refine ⟨m', ?_, hring', hsame⟩
  simp [_poolGet, listAvailable, hring.live_head, hnext, PoolMem.getPool, PoolMem.setPool, hpool,
    PoolMem.onMem, hdel]

theorem poolGrowLoop_spec {n i : ℕ} {xs : List UInt64} (hpool : s.pools p = some f)
    (hring : s.mem.Ring (p + 40) A)
    (hxs : xs = (List.range' i n).map fun k => slotAddr f b (UInt32.ofNat k))
    (hnodup : (xs ++ (p + 40) :: A).Nodup) (hlive : ∀ a ∈ xs, s.mem.live a = true) :
    ∃ m', poolGrowLoop (.addr p) b n (UInt32.ofNat i) s = some
        { s with
          mem := m'
          pools := Function.update s.pools p
            (some { f with available := f.available + UInt32.ofNat n }) } ∧
      m'.Ring (p + 40) (xs.reverse ++ A) ∧ SameOutside s.mem m' (xs ++ (p + 40) :: A) := by
  induction n generalizing i s f A xs with
  | zero =>
      have hnil : xs = [] := hxs
      subst hnil
      refine ⟨s.mem, ?_, hring, SameOutside.refl _ _⟩
      have hself : Function.update s.pools p (some f) = s.pools := by
        rw [← hpool, Function.update_eq_self]
      simp [poolGrowLoop, hself]
  | succ n ih =>
      obtain ⟨ys, rfl, hys⟩ : ∃ ys, xs = slotAddr f b (UInt32.ofNat i) :: ys ∧
          ys = (List.range' (i + 1) n).map fun k => slotAddr f b (UInt32.ofNat k) :=
        ⟨_, by rw [hxs, List.range'_succ, List.map_cons], rfl⟩
      -- what is still to be pushed stays apart from what is on the list
      have hperm : (slotAddr f b (UInt32.ofNat i) :: (ys ++ (p + 40) :: A)).Perm
          (ys ++ (p + 40) :: slotAddr f b (UInt32.ofNat i) :: A) := by
        have hmiddle : ((ys ++ [p + 40]) ++ slotAddr f b (UInt32.ofNat i) :: A).Perm
          (slotAddr f b (UInt32.ofNat i) :: ((ys ++ [p + 40]) ++ A)) := List.perm_middle
        simpa using hmiddle.symm
      have hnew : slotAddr f b (UInt32.ofNat i) ∉ (p + 40) :: A := fun hmem =>
        (List.nodup_cons.mp hnodup).1 (List.mem_append_right ys hmem)
      obtain ⟨m₁, hadd, hring₁, hsame₁⟩ :=
        _poolAdd_spec hpool hring hnew (hlive _ List.mem_cons_self)
      have hlive₁ : ∀ a ∈ ys, m₁.live a = true := fun a ha => by
        rw [hsame₁.live]
        exact hlive a (List.mem_cons_of_mem _ ha)
      obtain ⟨m₂, hloop, hring₂, hsame₂⟩ := @ih
        { s with
          mem := m₁
          pools := Function.update s.pools p (some { f with available := f.available + 1 }) }
        { f with available := f.available + 1 } _ (i + 1) ys (by simp) hring₁ hys
        (hperm.nodup_iff.mp hnodup) hlive₁
      refine ⟨m₂, ?_, by simpa using hring₂, (hsame₁.mono ?_).trans (hsame₂.mono ?_)⟩
      · have hindex : UInt32.ofNat i + 1 = UInt32.ofNat (i + 1) := by
          rw [UInt32.ofNat_add]
          rfl
        have hcount : f.available + 1 + UInt32.ofNat n = f.available + UInt32.ofNat (n + 1) := by
          rw [UInt32.ofNat_add, UInt32.add_assoc, UInt32.add_comm 1]
          rfl
        have hget : s.getPool (.addr p) = some f := hpool
        rw [poolGrowLoop, hget]
        simp only [Option.bind_eq_bind, Option.bind_some, hadd, hindex, hloop,
          Function.update_idem, hcount]
      · exact List.cons_subset_cons _ (List.subset_append_right _ _)
      · exact hperm.symm.subset

end Calls

/-- What `malloc` promises in the state `s`: null, or a block of at most `limit` bytes
that lies in the address space and is apart from the allocated regions. -/
def PoolMem.Answers (s : PoolMem) (limit : ℕ) (malloc : UInt64 → Ptr UInt64) : Prop :=
  ∀ size, malloc size = .null ∨ size.toNat ≤ limit ∧ ∃ a, malloc size = .addr a ∧ a ≠ 0 ∧
    a.toNat + size.toNat ≤ 2 ^ 64 ∧ ∀ r ∈ s.regions, Region.Disjoint ⟨a.toNat, size.toNat⟩ r

section Pools

theorem malloced_live {size : UInt64} (hcell : (cell a).Within ⟨b.toNat, size.toNat⟩) :
    (s.malloced b size).mem.live a = true := by
  simp [PoolMem.malloced, hcell]

theorem malloced_ring {size h : UInt64} (hring : s.mem.Ring h A) :
    (s.malloced b size).mem.Ring h A :=
  hring.congr (fun x hx => by simp [PoolMem.malloced, hx]) fun _ _ => ⟨rfl, rfl⟩

theorem poolCreate_eq {malloc : UInt64 → Ptr UInt64} {name : List UInt8} {growsize : UInt32}
    {eltsize : UInt64} (hp : malloc sizeofPool = .addr p) (hfits : p.toNat + 72 ≤ 2 ^ 64) :
    ∃ m', poolCreate malloc name growsize eltsize s = some (.addr p,
        { s.malloced p sizeofPool with
          mem := m'
          pools := Function.update s.pools p (some (newPool name growsize eltsize)) }) ∧
      m'.Ring (p + 40) [] ∧ m'.Ring (p + 56) [] ∧
      m'.live = (s.malloced p sizeofPool).mem.live := by
  have havail : (s.malloced p sizeofPool).mem.live (p + 40) = true :=
    malloced_live (listAvailable_within hfits)
  have hblocks : (s.malloced p sizeofPool).mem.live (p + 56) = true :=
    malloced_live (listBlocks_within hfits)
  obtain ⟨m₁, hrun₁, hring₁, hsame₁⟩ := initListHead_spec havail
  have hlive₁ : m₁.live (p + 56) = true := by rwa [hsame₁.live]
  obtain ⟨m₂, hrun₂, hring₂, hsame₂⟩ := initListHead_spec hlive₁
  have hne : p + 40 ≠ p + 56 := listAvailable_ne_listBlocks hfits
  refine ⟨m₂, ?_, hring₁.frame hsame₂ (by simp [hne]), hring₂, hsame₂.live.trans hsame₁.live⟩
  have hpools : (s.malloced p sizeofPool).pools = s.pools := rfl
  simp [poolCreate, hp, PoolMem.onMem, listAvailable, listBlocks, hpools, hrun₁, hrun₂]

theorem poolCreate_spec {malloc : UInt64 → Ptr UInt64} {name : List UInt8} {growsize : UInt32}
    {eltsize : UInt64} (hp : malloc sizeofPool = .addr p) (hfits : p.toNat + 72 ≤ 2 ^ 64)
    (hno : NoOverflow (newPool name growsize eltsize)) :
    ∃ s', poolCreate malloc name growsize eltsize s = some (.addr p, s') ∧
      PoolInv s' p (newPool name growsize eltsize) [] Lifo.empty s.regions := by
  have harranged : Arranged (newPool name growsize eltsize) p [] :=
    ⟨newPool_eltsize_ge name growsize eltsize, hno, hfits, by simp, by simp⟩
  obtain ⟨m', hrun, havail, hblocks, -⟩ := @poolCreate_eq s p malloc name growsize eltsize hp hfits
  refine ⟨_, hrun, ⟨by simp, harranged, rfl, havail, hblocks, rfl, ?_, Lifo.empty_sound, rfl, rfl,
    ?_⟩⟩
  · exact fun a ha => absurd ha List.not_mem_nil
  · simp [newPool]

theorem poolAdd_spec (hinv : PoolInv s p f blocks l others) (ha : a ∈ l.held) :
    ∃ s', poolAdd (.addr p) (.addr a) s = some (f.available + 1, s') ∧
      PoolInv s' p { f with available := f.available + 1 } blocks (l.add a) others ∧
      s'.errno = s.errno := by
  have ha_slot : a ∈ l.slots := hinv.sound.mem_slots.mpr (.inr ha)
  have havail_out : p + 40 ∉ l.slots := hinv.slots_eq ▸ hinv.arranged.available_not_mem
  -- a held element is not free, so it is not on the list
  have ha_out : a ∉ (p + 40) :: l.free := by
    rw [List.mem_cons, not_or]
    exact ⟨fun heq => havail_out (heq ▸ ha_slot), fun hfree => hinv.sound.not_held hfree ha⟩
  obtain ⟨m', hadd, hring, hsame⟩ :=
    _poolAdd_spec hinv.pool hinv.free_ring ha_out (hinv.live a ha_slot)
  refine ⟨_, hadd, ⟨by simp, hinv.arranged.congr rfl rfl, hinv.regions, hring,
    hinv.blocks_ring.frame hsame fun x hx hmem => ?_, hinv.slots_eq, fun x hx => ?_,
    hinv.sound.add ha, ?_, hinv.nblocks, hinv.allocated⟩, rfl⟩
  · apply hinv.arranged.lists_apart x hx
    rw [← hinv.slots_eq]
    have hsub : l.free ⊆ l.slots := fun y hy => hinv.sound.mem_slots.mpr (.inl hy)
    simp only [List.mem_cons] at hmem ⊢
    rcases hmem with rfl | rfl | hmem
    · exact .inr ha_slot
    · exact .inl rfl
    · exact .inr (hsub hmem)
  · show m'.live x = true
    rw [hsame.live]
    exact hinv.live x hx
  · show f.available + 1 = UInt32.ofNat (l.free.length + 1)
    rw [hinv.available, UInt32.ofNat_add]
    rfl

theorem _poolGet_inv (hinv : PoolInv s p f blocks l others) (hfree : l.free = a :: A) :
    ∃ s', _poolGet (.addr p) s = some (.addr a, s') ∧
      PoolInv s' p { f with available := f.available - 1 } blocks l.get others ∧
      s'.errno = s.errno := by
  have hget : l.get = ⟨l.slots, A, a :: l.held⟩ := Lifo.get_cons hfree
  have hsub : l.free ⊆ l.slots := fun y hy => hinv.sound.mem_slots.mpr (.inl hy)
  obtain ⟨m', hrun, hring, hsame⟩ := _poolGet_spec hinv.pool (hfree ▸ hinv.free_ring)
  have hsound := hinv.sound.get
  rw [hget] at hsound ⊢
  refine ⟨_, hrun, ⟨by simp, hinv.arranged.congr rfl rfl, hinv.regions, hring,
    hinv.blocks_ring.frame hsame fun x hx hmem => ?_, hinv.slots_eq, fun x hx => ?_,
    hsound, ?_, hinv.nblocks, hinv.allocated⟩, rfl⟩
  · apply hinv.arranged.lists_apart x hx
    rw [← hinv.slots_eq]
    rw [← hfree] at hmem
    exact List.cons_subset_cons _ hsub hmem
  · show m'.live x = true
    rw [hsame.live]
    exact hinv.live x hx
  · show f.available - 1 = UInt32.ofNat A.length
    rw [hinv.available, hfree, List.length_cons, UInt32.ofNat_add]
    exact UInt32.add_sub_cancel _ 1

/-- The fields of a pool that has grown by a block. -/
def grown (f : PoolFields) : PoolFields :=
  { f with
    nblocks := f.nblocks + 1
    allocated := f.allocated + f.growsize
    available := f.available + f.growsize }

theorem poolGrow_spec (hinv : PoolInv s p f blocks l others)
    (hfits : b.toNat + (blockSize f).toNat ≤ 2 ^ 64)
    (hapart : ∀ r ∈ s.regions, (blockRegion f b).Disjoint r) :
    ∃ s', poolGrow (.addr p) b (s.malloced b (blockSize f)) = some s' ∧
      PoolInv s' p (grown f) (b :: blocks) (l.grow (slots f b)) others ∧ s'.errno = s.errno := by
  have hnew : Arranged f p (b :: blocks) :=
    hinv.arranged.cons hfits fun r hr => hapart r (hinv.known r hr)
  have hb : b ∈ b :: blocks := List.mem_cons_self
  have hfree : l.free ⊆ blocks.flatMap (slots f) := fun y hy =>
    hinv.mem_slots_iff.mpr (.inl hy)
  -- the block goes on `list_blocks`
  have hb_out : b ∉ (p + 56) :: blocks := by
    rw [List.mem_cons, not_or]
    exact ⟨fun heq => hnew.head_ne_header hnew.blocks_within hb heq.symm, hnew.not_mem⟩
  obtain ⟨m₁, hadd, hblocks₁, hsame₁⟩ :=
    listAdd_spec (malloced_ring hinv.blocks_ring) hb_out (malloced_live hnew.header_within)
  have hring₁ : m₁.Ring (p + 40) l.free := by
    refine (malloced_ring hinv.free_ring).frame hsame₁ fun x hx hmem => ?_
    refine hnew.lists_apart x (by simpa [or_left_comm] using hmem) ?_
    refine List.cons_subset_cons _ (List.Subset.trans hfree ?_) hx
    rw [List.flatMap_cons]
    exact List.subset_append_right _ _
  -- its elements go on `list_available`
  have hslots : slots f b = ((List.range' 0 f.growsize.toNat).map
      fun k => slotAddr f b (UInt32.ofNat k)).reverse := by
    rw [slots, List.range_eq_range']
  have hnodup := hnew.nodup_slots_append hfree hinv.free_ring.nodup
  have hlive : ∀ a ∈ slots f b, m₁.live a = true := fun a ha => by
    rw [hsame₁.live]
    exact malloced_live (hnew.cell_within.trans (hnew.elem_within hb ha))
  obtain ⟨m₂, hloop, hring₂, hsame₂⟩ := @poolGrowLoop_spec
    ⟨m₁, Function.update s.pools p (some
        { f with nblocks := f.nblocks + 1, allocated := f.allocated + f.growsize }),
      (s.malloced b (blockSize f)).regions, s.errno⟩
    p b { f with nblocks := f.nblocks + 1, allocated := f.allocated + f.growsize } l.free
    f.growsize.toNat 0 (slots f b).reverse (by simp) hring₁
    (by rw [hslots, List.reverse_reverse]; rfl)
    hnodup (fun a ha => hlive a (List.mem_reverse.mp ha))
  have hgrown : { f with
      nblocks := f.nblocks + 1
      allocated := f.allocated + f.growsize
      available := f.available + UInt32.ofNat f.growsize.toNat } = grown f := by
    rw [UInt32.ofNat_toNat, grown]
  rw [Function.update_idem, hgrown] at hloop
  rw [List.reverse_reverse] at hring₂
  have hsame : SameOutside m₁ m₂ ((slots f b).reverse ++ (p + 40) :: l.free) := hsame₂
  refine ⟨{ s.malloced b (blockSize f) with
      mem := m₂
      pools := Function.update s.pools p (some (grown f)) }, ?_,
    ⟨by simp, hnew.congr rfl rfl, ?_, hring₂, hblocks₁.frame hsame fun x hx hmem => ?_, ?_,
      fun x hx => ?_, ?_, ?_, ?_, ?_⟩, rfl⟩
  · have hpools : (s.malloced b (blockSize f)).pools = s.pools := rfl
    have herrno : (s.malloced b (blockSize f)).errno = s.errno := rfl
    have hindex : UInt32.ofNat 0 = 0 := rfl
    rw [hindex] at hloop
    simp [poolGrow, PoolMem.onMem, listBlocks, hadd, PoolMem.getPool, PoolMem.setPool,
      hpools, herrno, hinv.pool, hloop]
  · show blockRegion f b :: s.regions = _
    rw [hinv.regions]
    rfl
  · apply hnew.lists_apart x hx
    rw [List.flatMap_cons]
    simp only [List.mem_append, List.mem_reverse, List.mem_cons] at hmem ⊢
    rcases hmem with hmem | rfl | hmem
    · exact .inr (.inl hmem)
    · exact .inl rfl
    · exact .inr (.inr (hfree hmem))
  · show slots f b ++ l.slots = (b :: blocks).flatMap (slots f)
    rw [List.flatMap_cons, hinv.slots_eq]
  · show m₂.live x = true
    rw [hsame.live]
    rcases List.mem_append.mp hx with hx | hx
    · exact hlive x hx
    · rw [hsame₁.live]
      simp [PoolMem.malloced, hinv.live x hx]
  · refine hinv.sound.grow (hnew.nodup_slots hb) fun a ha => ?_
    rw [hinv.slots_eq]
    exact hnew.not_mem_of_mem_slots ha
  · show f.available + f.growsize = UInt32.ofNat (slots f b ++ l.free).length
    rw [List.length_append, length_slots, UInt32.ofNat_add, UInt32.ofNat_toNat, hinv.available,
      UInt32.add_comm]
  · show f.nblocks + 1 = UInt32.ofNat (blocks.length + 1)
    rw [hinv.nblocks, UInt32.ofNat_add]
    rfl
  · show f.allocated + f.growsize = (f.nblocks + 1) * f.growsize
    rw [hinv.allocated, UInt32.add_mul, UInt32.one_mul]

/-- `pool_get` while the counter is not zero. -/
theorem poolGet_available {malloc : UInt64 → Ptr UInt64} (hinv : PoolInv s p f blocks l others)
    (havail : f.available ≠ 0) :
    ∃ a A s', l.free = a :: A ∧ poolGet malloc (.addr p) s = some (.addr a, s') ∧
      PoolInv s' p { f with available := f.available - 1 } blocks l.get others ∧
      s'.errno = s.errno := by
  obtain ⟨a, A, hfree⟩ : ∃ a A, l.free = a :: A := by
    cases hfree : l.free with
    | nil =>
        have hzero := hinv.available
        rw [hfree] at hzero
        exact absurd hzero havail
    | cons a A => exact ⟨a, A, rfl⟩
  obtain ⟨s', hrun, hinv', herrno⟩ := _poolGet_inv hinv hfree
  refine ⟨a, A, s', hfree, ?_, hinv', herrno⟩
  simp [poolGet, PoolMem.getPool, hinv.pool, havail, hrun]

theorem poolGet_null {malloc : UInt64 → Ptr UInt64} (hinv : PoolInv s p f blocks l others)
    (havail : f.available = 0) (hnull : malloc (blockSize f) = .null) :
    poolGet malloc (.addr p) s = some (.null, { s with errno := enomem }) := by
  simp [poolGet, PoolMem.getPool, hinv.pool, havail, hnull]

/-- `pool_get` with a new block, of which it hands out the last element. -/
theorem poolGet_grow {malloc : UInt64 → Ptr UInt64} (hinv : PoolInv s p f blocks l others)
    (havail : f.available = 0) (hgrow : f.growsize ≠ 0) (hb : malloc (blockSize f) = .addr b)
    (hfits : b.toNat + (blockSize f).toNat ≤ 2 ^ 64)
    (hapart : ∀ r ∈ s.regions, (blockRegion f b).Disjoint r) :
    ∃ a A s', slots f b = a :: A ∧ poolGet malloc (.addr p) s = some (.addr a, s') ∧
      PoolInv s' p { grown f with available := f.growsize - 1 } (b :: blocks)
        (l.grow (slots f b)).get others ∧
      (l.grow (slots f b)).Sound ∧ s'.errno = s.errno := by
  obtain ⟨s₁, hrun₁, hinv₁, herrno₁⟩ := poolGrow_spec hinv hfits hapart
  -- a block has an element, as `growsize` is not zero
  obtain ⟨a, A, hslots⟩ : ∃ a A, slots f b = a :: A := by
    cases hslots : slots f b with
    | nil =>
        have hlen := @length_slots f b
        rw [hslots] at hlen
        exact absurd (UInt32.toNat_inj.mp hlen.symm) hgrow
    | cons a A => exact ⟨a, A, rfl⟩
  have hfree : (l.grow (slots f b)).free = a :: (A ++ l.free) := by
    show slots f b ++ l.free = _
    rw [hslots, List.cons_append]
  obtain ⟨s₂, hrun₂, hinv₂, herrno₂⟩ := _poolGet_inv hinv₁ hfree
  have hcount : (grown f).available - 1 = f.growsize - 1 := by
    rw [grown, havail, UInt32.zero_add]
  rw [hcount] at hinv₂
  refine ⟨a, A, s₂, hslots, ?_, hinv₂, hinv₁.sound, herrno₂.trans herrno₁⟩
  simp [poolGet, PoolMem.getPool, hinv.pool, havail, hb, hrun₁, hrun₂]

end Pools

end Pool
end Brlib
