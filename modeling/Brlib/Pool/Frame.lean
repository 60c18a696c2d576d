import Brlib.Pool.Destroy

/-!
# What a call on a pool leaves alone

The calls look at the pool and its blocks only.  So what they do does not depend on which other
regions are allocated (`poolGet_withRegions`), and they change nothing outside the regions of
their pool (`Kept`).
-/

namespace Brlib
namespace Pool

open Heap Heap.Mem ListHead Alloc

namespace PoolMem

/-- The memory with the allocated regions `rs`. -/
def withRegions (s : PoolMem) (rs : List Region) : PoolMem :=
  { s with regions := rs }

variable {s : PoolMem} {rs rs' : List Region}

@[simp] theorem withRegions_mem : (s.withRegions rs).mem = s.mem := rfl

@[simp] theorem withRegions_pools : (s.withRegions rs).pools = s.pools := rfl

@[simp] theorem withRegions_regions : (s.withRegions rs).regions = rs := rfl

@[simp] theorem withRegions_twice : (s.withRegions rs).withRegions rs' = s.withRegions rs' := rfl

@[simp] theorem withRegions_self : s.withRegions s.regions = s := rfl

theorem onMem_withRegions (f : Mem UInt64 → Option (Mem UInt64)) :
    (s.withRegions rs).onMem f = (s.onMem f).map fun s' => s'.withRegions rs := by
  cases hf : f s.mem <;> simp [onMem, hf, withRegions]

theorem setPool_withRegions (f : PoolFields) (pool : Ptr UInt64) :
    (s.withRegions rs).setPool f pool = (s.setPool f pool).map fun s' => s'.withRegions rs := by
  cases pool with
  | addr p =>
      show (if (s.pools p).isSome then _ else _) = _
      by_cases hp : (s.pools p).isSome <;> simp [setPool, hp, withRegions]
  | _ => rfl

theorem getPool_withRegions (pool : Ptr UInt64) :
    (s.withRegions rs).getPool pool = s.getPool pool := by
  cases pool <;> rfl

end PoolMem

variable {s s' s'' : PoolMem} {rs rs' : List Region} {p a b : UInt64} {f f' : PoolFields}
variable {blocks blocks' cells : List UInt64} {l l' : Lifo UInt64} {others : List Region}
variable {limit : ℕ} {malloc : UInt64 → Ptr UInt64} {pool elt res : Ptr UInt64}

section Regions

theorem _poolAdd_withRegions : _poolAdd pool elt (s.withRegions rs) =
    (_poolAdd pool elt s).map fun t => (t.1, t.2.withRegions rs) := by
  unfold _poolAdd
  rw [PoolMem.onMem_withRegions]
  cases s.onMem (listAdd elt (listAvailable pool)) with
  | none => rfl
  | some s₁ =>
      simp only [Option.map_some, Option.bind_eq_bind, Option.bind_some,
        PoolMem.getPool_withRegions]
      cases s₁.getPool pool with
      | none => rfl
      | some f =>
          simp only [Option.bind_some, PoolMem.setPool_withRegions]
          cases s₁.setPool { f with available := f.available + 1 } pool <;> rfl

theorem _poolGet_withRegions : _poolGet pool (s.withRegions rs) =
    (_poolGet pool s).map fun t => (t.1, t.2.withRegions rs) := by
  unfold _poolGet
  rw [PoolMem.withRegions_mem, PoolMem.getPool_withRegions]
  cases s.mem.getNext (listAvailable pool) with
  | none => rfl
  | some res =>
      cases s.getPool pool with
      | none => rfl
      | some f =>
          simp only [Option.bind_eq_bind, Option.bind_some, PoolMem.setPool_withRegions]
          cases s.setPool { f with available := f.available - 1 } pool with
          | none => rfl
          | some s₁ =>
              simp only [Option.map_some, Option.bind_some, PoolMem.onMem_withRegions]
              cases s₁.onMem (listDel res) <;> rfl

theorem poolGrowLoop_withRegions {n : ℕ} {i : UInt32} :
    poolGrowLoop pool b n i (s.withRegions rs) =
      (poolGrowLoop pool b n i s).map fun s' => s'.withRegions rs := by
  induction n generalizing i s with
  | zero => rfl
  | succ n ih =>
      simp only [poolGrowLoop, PoolMem.getPool_withRegions]
      cases s.getPool pool with
      | none => rfl
      | some f =>
          simp only [Option.bind_eq_bind, Option.bind_some, _poolAdd_withRegions]
          cases _poolAdd pool (.addr (slotAddr f b i)) s with
          | none => rfl
          | some t => exact ih

theorem poolGrow_withRegions : poolGrow pool b (s.withRegions rs) =
    (poolGrow pool b s).map fun s' => s'.withRegions rs := by
  unfold poolGrow
  rw [PoolMem.onMem_withRegions]
  cases s.onMem (listAdd (.addr b) (listBlocks pool)) with
  | none => rfl
  | some s₁ =>
      simp only [Option.map_some, Option.bind_eq_bind, Option.bind_some,
        PoolMem.getPool_withRegions]
      cases s₁.getPool pool with
      | none => rfl
      | some f =>
          simp only [Option.bind_some, PoolMem.setPool_withRegions]
          cases s₁.setPool { f with nblocks := f.nblocks + 1 } pool with
          | none => rfl
          | some s₂ =>
              simp only [Option.map_some, Option.bind_some, PoolMem.getPool_withRegions]
              cases s₂.getPool pool with
              | none => rfl
              | some f =>
                  simp only [Option.bind_some, PoolMem.setPool_withRegions]
                  cases s₂.setPool { f with allocated := f.allocated + f.growsize } pool with
                  | none => rfl
                  | some s₃ => exact poolGrowLoop_withRegions

/-- `pool_get` does not look at the regions, and adds at most the one that `malloc` gave it. -/
theorem poolGet_withRegions (hrun : poolGet malloc pool s = some (res, s')) :
    ∃ new, (new = [] ∨ ∃ size b, malloc size = .addr b ∧ new = [⟨b.toNat, size.toNat⟩]) ∧
      ∀ rs, poolGet malloc pool (s.withRegions rs) = some (res, s'.withRegions (new ++ rs)) := by
  by_cases hnull : pool = .null
  · refine ⟨[], .inl rfl, fun rs => ?_⟩
    simp only [poolGet, if_pos hnull, Option.some_inj, Prod.mk.injEq] at hrun ⊢
    rw [← hrun.1, ← hrun.2]
    exact ⟨rfl, rfl⟩
  simp only [poolGet, if_neg hnull, PoolMem.getPool_withRegions] at hrun ⊢
  cases hf : s.getPool pool with
  | none => simp [hf] at hrun
  | some f =>
      simp only [hf, Option.bind_eq_bind, Option.bind_some] at hrun ⊢
      by_cases havail : f.available ≠ 0
      · refine ⟨[], .inl rfl, fun rs => ?_⟩
        rw [if_pos havail] at hrun ⊢
        rw [_poolGet_withRegions, hrun]
        rfl
      · rw [if_neg havail] at hrun
        simp only [if_neg havail]
        cases hb : malloc (blockSize f) with
        | addr b =>
            refine ⟨[⟨b.toNat, (blockSize f).toNat⟩], .inr ⟨_, b, hb, rfl⟩, fun rs => ?_⟩
            simp only [hb] at hrun
            have hmalloced : (s.withRegions rs).malloced b (blockSize f) =
                (s.malloced b (blockSize f)).withRegions
                  (⟨b.toNat, (blockSize f).toNat⟩ :: rs) := rfl
            simp only [hmalloced, poolGrow_withRegions]
            cases hgrow : poolGrow pool b (s.malloced b (blockSize f)) with
            | none => simp [hgrow] at hrun
            | some s₁ =>
                simp only [hgrow, Option.bind_some] at hrun
                simp only [Option.map_some, Option.bind_some, _poolGet_withRegions, hrun]
                rfl
        | null | junk =>
            refine ⟨[], .inl rfl, fun rs => ?_⟩
            simp only [hb, Option.some_inj, Prod.mk.injEq] at hrun ⊢
            rw [← hrun.1, ← hrun.2]
            exact ⟨rfl, rfl⟩

end Regions

/-- What `malloc` gave a pool: its blocks and its structure. -/
def owned (f : PoolFields) (p : UInt64) (blocks : List UInt64) : List Region :=
  blocks.map (blockRegion f) ++ [poolRegion p]

/-- Nothing outside the regions `rs` has changed. -/
structure Kept (rs : List Region) (s s' : PoolMem) : Prop where
  pools : ∀ q, (∀ r ∈ rs, (poolRegion q).Disjoint r) → s'.pools q = s.pools q
  cells : ∀ a, (∀ r ∈ rs, (cell a).Disjoint r) → s'.mem.live a = s.mem.live a ∧
    s'.mem.next a = s.mem.next a ∧ s'.mem.prev a = s.mem.prev a

section Kept

theorem Kept.trans (h : Kept rs s s') (h' : Kept rs s' s'') : Kept rs s s'' where
  pools q hq := (h'.pools q hq).trans (h.pools q hq)
  cells a ha := by
    obtain ⟨hlive, hnext, hprev⟩ := h.cells a ha
    obtain ⟨hlive', hnext', hprev'⟩ := h'.cells a ha
    exact ⟨hlive'.trans hlive, hnext'.trans hnext, hprev'.trans hprev⟩

theorem Kept.mono (h : Kept rs s s') (hsub : rs ⊆ rs') : Kept rs' s s' where
  pools q hq := h.pools q fun r hr => hq r (hsub hr)
  cells a ha := h.cells a fun r hr => ha r (hsub hr)

theorem cell_not_disjoint {r : Region} (hr : (cell a).Within r) : ¬ (cell a).Disjoint r := by
  unfold cell Region.Within Region.Disjoint at *
  simp only at *
  omega

theorem kept_malloced (s : PoolMem) (b size : UInt64) :
    Kept [⟨b.toNat, size.toNat⟩] s (s.malloced b size) where
  pools _ _ := rfl
  cells a ha := by
    have hout : ¬ (cell a).Within ⟨b.toNat, size.toNat⟩ := fun hin =>
      cell_not_disjoint hin (ha _ List.mem_cons_self)
    exact ⟨by simp [PoolMem.malloced, hout], rfl, rfl⟩

theorem kept_of_sameOutside (hsame : SameOutside s.mem s'.mem cells)
    (hcells : ∀ x ∈ cells, ∃ r ∈ rs, (cell x).Within r) (hp : poolRegion p ∈ rs)
    (hpools : ∀ q, q ≠ p → s'.pools q = s.pools q) : Kept rs s s' where
  pools q hq := by
    apply hpools
    rintro rfl
    exact (hq _ hp).base_ne (Nat.succ_pos 71) (Nat.succ_pos 71) rfl
  cells a ha := by
    have hout : a ∉ cells := by
      intro hmem
      obtain ⟨r, hr, hin⟩ := hcells a hmem
      exact cell_not_disjoint hin (ha r hr)
    exact ⟨congrFun hsame.live a, hsame.next a hout, hsame.prev a hout⟩

theorem mem_owned_pool : poolRegion p ∈ owned f p blocks :=
  List.mem_append_right _ (List.mem_singleton_self _)

theorem mem_owned_block (hb : b ∈ blocks) : blockRegion f b ∈ owned f p blocks :=
  List.mem_append_left _ (List.mem_map_of_mem hb)

theorem Arranged.cells_owned (h : Arranged f p blocks) :
    (∃ r ∈ owned f p blocks, (cell (p + 40)).Within r) ∧
      (∃ r ∈ owned f p blocks, (cell (p + 56)).Within r) ∧
      (∀ b ∈ blocks, ∃ r ∈ owned f p blocks, (cell b).Within r) ∧
      ∀ a ∈ blocks.flatMap (slots f), ∃ r ∈ owned f p blocks, (cell a).Within r := by
  refine ⟨⟨_, mem_owned_pool, h.available_within⟩, ⟨_, mem_owned_pool, h.blocks_within⟩,
    fun b hb => ⟨_, mem_owned_block hb, h.header_within⟩, fun a ha => ?_⟩
  obtain ⟨b, hb, hab⟩ := List.mem_flatMap.mp ha
  exact ⟨_, mem_owned_block hb, h.cell_within.trans (h.elem_within hb hab)⟩

theorem ring_of_same {m m' : Mem UInt64} {h : UInt64} (hring : m.Ring h cells)
    (hsame : ∀ x ∈ h :: cells, m'.live x = m.live x ∧ m'.next x = m.next x ∧
      m'.prev x = m.prev x) : m'.Ring h cells where
  closed := hring.closed.congr fun x hx => (hsame x (by
    simp only [List.mem_cons, List.mem_append, List.not_mem_nil, or_false] at hx ⊢
    tauto)).2
  nodup := hring.nodup
  live x hx := (hsame x hx).1.trans (hring.live x hx)

/-- A pool does not notice what happens apart from its regions. -/
theorem PoolInv.kept (hinv : PoolInv (s.withRegions (owned f p blocks)) p f blocks l [])
    (hkept : Kept rs s s') (hapart : ∀ r ∈ owned f p blocks, ∀ q ∈ rs, r.Disjoint q) :
    PoolInv (s'.withRegions (owned f p blocks)) p f blocks l [] := by
  obtain ⟨havail, hblocks, hheader, hslot⟩ := hinv.arranged.cells_owned
  have hsame : ∀ a, (∃ r ∈ owned f p blocks, (cell a).Within r) →
      s'.mem.live a = s.mem.live a ∧ s'.mem.next a = s.mem.next a ∧
        s'.mem.prev a = s.mem.prev a := by
    rintro a ⟨r, hr, hin⟩
    exact hkept.cells a fun q hq => (hapart r hr q hq).mono hin (Region.Within.refl q)
  have hfree : ∀ x ∈ (p + 40) :: l.free, ∃ r ∈ owned f p blocks, (cell x).Within r :=
    List.forall_mem_cons.mpr ⟨havail, fun x hx => hslot x (hinv.mem_slots_iff.mpr (.inl hx))⟩
  have hlist : ∀ x ∈ (p + 56) :: blocks, ∃ r ∈ owned f p blocks, (cell x).Within r :=
    List.forall_mem_cons.mpr ⟨hblocks, hheader⟩
  constructor
  · show s'.pools p = some f
    rw [hkept.pools p fun q hq => hapart _ mem_owned_pool q hq]
    exact hinv.pool
  · exact hinv.arranged
  · rfl
  · exact ring_of_same hinv.free_ring fun x hx => hsame x (hfree x hx)
  · exact ring_of_same hinv.blocks_ring fun x hx => hsame x (hlist x hx)
  · exact hinv.slots_eq
  · intro a ha
    rw [hinv.slots_eq] at ha
    exact (hsame a (hslot a ha)).1.trans (hinv.live a (hinv.slots_eq ▸ ha))
  · exact hinv.sound
  · exact hinv.available
  · exact hinv.nblocks
  · exact hinv.allocated

end Kept

section Calls

theorem PoolInv.free_owned (hinv : PoolInv s p f blocks l others) :
    ∀ x ∈ (p + 40) :: l.free, ∃ r ∈ owned f p blocks, (cell x).Within r := by
  obtain ⟨havail, -, -, hslot⟩ := hinv.arranged.cells_owned
  exact List.forall_mem_cons.mpr
    ⟨havail, fun x hx => hslot x (hinv.mem_slots_iff.mpr (.inl hx))⟩

theorem poolAdd_kept (hinv : PoolInv s p f blocks l others) (ha : a ∈ l.held) {count : UInt32}
    (hrun : poolAdd (.addr p) (.addr a) s = some (count, s')) :
    Kept (owned f p blocks) s s' := by
  have ha_slot : a ∈ blocks.flatMap (slots f) := hinv.mem_slots_iff.mpr (.inr ha)
  have ha_out : a ∉ (p + 40) :: l.free := by
    rw [List.mem_cons, not_or]
    exact ⟨fun heq => hinv.arranged.available_not_mem (heq ▸ ha_slot),
      fun hfree => hinv.sound.not_held hfree ha⟩
  obtain ⟨m', hadd, -, hsame⟩ := _poolAdd_spec hinv.pool hinv.free_ring ha_out
    (hinv.live a (hinv.slots_eq ▸ ha_slot))
  rw [poolAdd, hadd] at hrun
  obtain ⟨-, rfl⟩ := Prod.mk.inj (Option.some.inj hrun)
  refine kept_of_sameOutside hsame (List.forall_mem_cons.mpr ⟨?_, hinv.free_owned⟩) mem_owned_pool
    fun q hq => Function.update_of_ne hq _ _
  exact hinv.arranged.cells_owned.2.2.2 a ha_slot

theorem _poolGet_kept (hinv : PoolInv s p f blocks l others) (hfree : l.free ≠ [])
    (hrun : _poolGet (.addr p) s = some (res, s')) : Kept (owned f p blocks) s s' := by
  obtain ⟨a, A, hcons⟩ := List.exists_cons_of_ne_nil hfree
  have howned := hinv.free_owned
  rw [hcons] at howned
  obtain ⟨m', hget, -, hsame⟩ := _poolGet_spec hinv.pool (hcons ▸ hinv.free_ring)
  rw [hget] at hrun
  obtain ⟨-, rfl⟩ := Prod.mk.inj (Option.some.inj hrun)
  exact kept_of_sameOutside hsame howned mem_owned_pool fun q hq => Function.update_of_ne hq _ _

theorem poolGrow_kept (hinv : PoolInv s p f blocks l others)
    (hfits : b.toNat + (blockSize f).toNat ≤ 2 ^ 64)
    (hapart : ∀ r ∈ s.regions, (blockRegion f b).Disjoint r)
    (hrun : poolGrow (.addr p) b (s.malloced b (blockSize f)) = some s') :
    Kept (owned f p (b :: blocks)) s s' := by
  have hnew : Arranged f p (b :: blocks) :=
    hinv.arranged.cons hfits fun r hr => hapart r (hinv.known r hr)
  have hb : b ∈ b :: blocks := List.mem_cons_self
  obtain ⟨havail, hblocks, hheader, hslot⟩ := hnew.cells_owned
  have hfree : l.free ⊆ blocks.flatMap (slots f) := fun y hy => hinv.mem_slots_iff.mpr (.inl hy)
  have hfree' : ∀ x ∈ l.free, x ∈ (b :: blocks).flatMap (slots f) := fun x hx => by
    rw [List.flatMap_cons]
    exact List.mem_append_right _ (hfree hx)
  have hslots : ∀ x ∈ slots f b, x ∈ (b :: blocks).flatMap (slots f) := fun x hx =>
    List.mem_flatMap.mpr ⟨b, hb, hx⟩
  -- the block goes on `list_blocks`
  have hb_out : b ∉ (p + 56) :: blocks := by
    rw [List.mem_cons, not_or]
    exact ⟨fun heq => hnew.head_ne_header hnew.blocks_within hb heq.symm, hnew.not_mem⟩
  obtain ⟨m₁, hadd, -, hsame₁⟩ :=
    listAdd_spec (malloced_ring hinv.blocks_ring) hb_out (malloced_live hnew.header_within)
  have hring₁ : m₁.Ring (p + 40) l.free := by
    refine (malloced_ring hinv.free_ring).frame hsame₁ fun x hx hmem => ?_
    exact hnew.lists_apart x (by simpa [or_left_comm] using hmem)
      (List.cons_subset_cons _ hfree' hx)
  -- its elements go on `list_available`
  have hlive : ∀ a ∈ (slots f b).reverse, m₁.live a = true := fun a ha => by
    rw [hsame₁.live]
    exact malloced_live
      (hnew.cell_within.trans (hnew.elem_within hb (List.mem_reverse.mp ha)))
  have hrange : (slots f b).reverse = (List.range' 0 f.growsize.toNat).map
      fun k => slotAddr f b (UInt32.ofNat k) := by
    rw [slots, List.reverse_reverse, List.range_eq_range']
  obtain ⟨m₂, hloop, -, hsame₂⟩ := @poolGrowLoop_spec
    ⟨m₁, Function.update s.pools p (some
        { f with nblocks := f.nblocks + 1, allocated := f.allocated + f.growsize }),
      (s.malloced b (blockSize f)).regions, s.errno⟩
    p b { f with nblocks := f.nblocks + 1, allocated := f.allocated + f.growsize } l.free
    f.growsize.toNat 0 (slots f b).reverse (by simp) hring₁ hrange
    (hnew.nodup_slots_append hfree hinv.free_ring.nodup) hlive
  have hpools : (s.malloced b (blockSize f)).pools = s.pools := rfl
  have herrno : (s.malloced b (blockSize f)).errno = s.errno := rfl
  have hindex : UInt32.ofNat 0 = 0 := rfl
  rw [hindex] at hloop
  simp only [poolGrow, PoolMem.onMem, listBlocks, hadd, PoolMem.getPool, PoolMem.setPool, hpools,
    herrno, hinv.pool, Option.map_some, Option.bind_eq_bind, Option.bind_some, Option.isSome_some,
    if_true, Function.update_self, Function.update_idem, hloop, Option.some_inj] at hrun
  subst hrun
  have hregion : [⟨b.toNat, (blockSize f).toNat⟩] ⊆ owned f p (b :: blocks) :=
    List.cons_subset.mpr ⟨mem_owned_block hb, List.nil_subset _⟩
  have htouched : ∀ x ∈ b :: (p + 56) :: blocks, ∃ r ∈ owned f p (b :: blocks),
      (cell x).Within r := by
    refine List.forall_mem_cons.mpr ⟨hheader b hb, List.forall_mem_cons.mpr ⟨hblocks, ?_⟩⟩
    exact fun x hx => hheader x (List.mem_cons_of_mem b hx)
  have htouched' : ∀ x ∈ (slots f b).reverse ++ (p + 40) :: l.free,
      ∃ r ∈ owned f p (b :: blocks), (cell x).Within r := by
    intro x hx
    rcases List.mem_append.mp hx with hx | hx
    · exact hslot x (hslots x (List.mem_reverse.mp hx))
    · rcases List.mem_cons.mp hx with rfl | hx
      · exact havail
      · exact hslot x (hfree' x hx)
  have hkept₁ : Kept (owned f p (b :: blocks)) (s.malloced b (blockSize f))
      { s.malloced b (blockSize f) with mem := m₁ } :=
    kept_of_sameOutside hsame₁ htouched mem_owned_pool fun _ _ => rfl
  refine (((kept_malloced s b _).mono hregion).trans hkept₁).trans ?_
  exact kept_of_sameOutside hsame₂ htouched' mem_owned_pool
    fun q hq => Function.update_of_ne hq _ _

theorem poolGet_kept (hinv : PoolInv s p f blocks l others) (hgrow : f.growsize ≠ 0)
    (hmalloc : s.Answers limit malloc) :
    ∃ res s' f' blocks' l', poolGet malloc (.addr p) s = some (res, s') ∧
      PoolInv s' p f' blocks' l' others ∧ SameSizes f f' ∧ Kept (owned f' p blocks') s s' ∧
      (res = .null ∧ l'.held = l.held ∨ ∃ a, res = .addr a ∧ l'.held = a :: l.held) := by
  by_cases havail : f.available = 0
  · rcases hmalloc (blockSize f) with hnull | ⟨-, b, hb, -, hfits, hapart⟩
    · refine ⟨.null, _, f, blocks, l, poolGet_null hinv havail hnull, hinv.setErrno enomem,
        .refl f, ?_, .inl ⟨rfl, rfl⟩⟩
      exact ⟨fun _ _ => rfl, fun _ _ => ⟨rfl, rfl, rfl⟩⟩
    · obtain ⟨s₁, hrun₁, hinv₁, -⟩ := poolGrow_spec hinv hfits hapart
      obtain ⟨a, A, s₂, hslots, hrun, hinv₂, -, -⟩ := poolGet_grow hinv havail hgrow hb hfits hapart
      have hfree : (l.grow (slots f b)).free = a :: (A ++ l.free) := by
        show slots f b ++ l.free = _
        rw [hslots, List.cons_append]
      have hrun₂ : _poolGet (.addr p) s₁ = some (.addr a, s₂) := by
        simpa [poolGet, PoolMem.getPool, hinv.pool, havail, hb, hrun₁] using hrun
      have hkept₂ := _poolGet_kept hinv₁ (by rw [hfree]; exact List.cons_ne_nil _ _) hrun₂
      refine ⟨.addr a, s₂, _, _, _, hrun, hinv₂, ⟨rfl, rfl⟩,
        (poolGrow_kept hinv hfits hapart hrun₁).trans hkept₂, .inr ⟨a, rfl, ?_⟩⟩
      rw [Lifo.get_cons hfree]
      rfl
  · obtain ⟨a, A, s₁, hfree, hrun, hinv₁, -⟩ := @poolGet_available _ _ _ _ _ _ malloc hinv havail
    have hrun₁ : _poolGet (.addr p) s = some (.addr a, s₁) := by
      simpa [poolGet, PoolMem.getPool, hinv.pool, havail] using hrun
    have hkept := _poolGet_kept hinv (by rw [hfree]; exact List.cons_ne_nil _ _) hrun₁
    refine ⟨.addr a, s₁, _, blocks, l.get, hrun, hinv₁, ⟨rfl, rfl⟩, hkept, .inr ⟨a, rfl, ?_⟩⟩
    rw [Lifo.get_cons hfree]

theorem poolCreate_kept {name : List UInt8} {growsize : UInt32} {eltsize : UInt64}
    (hp : malloc sizeofPool = .addr p) (hfits : p.toNat + 72 ≤ 2 ^ 64)
    (hno : NoOverflow (newPool name growsize eltsize)) :
    ∃ s', poolCreate malloc name growsize eltsize s = some (.addr p, s') ∧
      PoolInv s' p (newPool name growsize eltsize) [] Lifo.empty s.regions ∧
      Kept [poolRegion p] s s' := by
  obtain ⟨s', hrun, hinv⟩ := @poolCreate_spec s p malloc name growsize eltsize hp hfits hno
  refine ⟨s', hrun, hinv, ?_⟩
  have hpools : (s.malloced p sizeofPool).pools = s.pools := rfl
  obtain ⟨m₁, hrun₁, -, hsame₁⟩ :=
    initListHead_spec (@malloced_live s (p + 40) p sizeofPool (listAvailable_within hfits))
  have hlive₁ : m₁.live (p + 56) = true := by
    rw [hsame₁.live]
    exact malloced_live (listBlocks_within hfits)
  obtain ⟨m₂, hrun₂, -, hsame₂⟩ := initListHead_spec hlive₁
  simp only [poolCreate, hp, PoolMem.onMem, listAvailable, listBlocks, hpools, hrun₁, hrun₂,
    Option.map_some, Option.bind_eq_bind, Option.bind_some, Option.some_inj, Prod.mk.injEq] at hrun
  obtain ⟨-, rfl⟩ := hrun
  have hin : ∀ a, (cell a).Within (poolRegion p) →
      ∀ x ∈ [a], ∃ r ∈ [poolRegion p], (cell x).Within r := fun a ha x hx =>
    ⟨_, List.mem_singleton_self _, (List.mem_singleton.mp hx).symm ▸ ha⟩
  have hkept₁ : Kept [poolRegion p] (s.malloced p sizeofPool)
      { s.malloced p sizeofPool with mem := m₁ } :=
    kept_of_sameOutside hsame₁ (hin _ (listAvailable_within hfits)) (List.mem_singleton_self _)
      fun _ _ => rfl
  refine ((kept_malloced s p sizeofPool).trans hkept₁).trans ?_
  exact kept_of_sameOutside hsame₂ (hin _ (listBlocks_within hfits)) (List.mem_singleton_self _)
    fun q hq => Function.update_of_ne hq _ _

end Calls

section Destroy

variable {R : List UInt64} {rest : List Region} {t t₀ : List (Ptr UInt64) × PoolMem} {r : Region}
variable {fuel : ℕ}

theorem onMem_same {g : Mem UInt64 → Option (Mem UInt64)} (hrun : s.onMem g = some s') :
    s'.regions = s.regions ∧ s'.pools = s.pools := by
  obtain ⟨m, -, rfl⟩ := Option.map_eq_some_iff.mp hrun
  exact ⟨rfl, rfl⟩

/-- Freeing a block among other regions, if no other one begins where it does. -/
theorem destroyBlock_withRegions
    (hrun : destroyBlock (.addr b) (t.1, t.2.withRegions rs) = some t₀)
    (hfind : rs.find? (fun r => r.base = b.toNat) = some r)
    (hfind' : t.2.regions.find? (fun r => r.base = b.toNat) = some r) :
    ∃ t', destroyBlock (.addr b) t = some t' ∧ t₀ = (t'.1, t'.2.withRegions (rs.erase r)) ∧
      t'.2.regions = t.2.regions.erase r ∧
      ∀ q, (poolRegion q).Disjoint r → t'.2.pools q = t.2.pools q := by
  simp only [destroyBlock, PoolMem.onMem_withRegions] at hrun ⊢
  cases hdel : t.2.onMem (listDel (memberPtr listBlocksMember (.addr b))) with
  | none => simp [hdel] at hrun
  | some s₁ =>
      obtain ⟨hregions, hpools⟩ := onMem_same hdel
      have hfree : s₁.free (.addr b) = some (s₁.release r) := by
        simp [PoolMem.free, hregions, hfind']
      have hfree' : (s₁.withRegions rs).free (.addr b) =
          some ((s₁.release r).withRegions (rs.erase r)) := by
        simp [PoolMem.free, hfind]
        rfl
      simp only [hdel, Option.map_some, Option.bind_eq_bind, Option.bind_some, hfree',
        Option.some_inj] at hrun
      refine ⟨(t.1 ++ [.addr b], s₁.release r), by simp [hfree], hrun.symm, ?_, fun q hq => ?_⟩
      · show s₁.regions.erase r = _
        rw [hregions]
      · show (if Region.Disjoint (poolRegion q) r then s₁.pools q else none) = _
        rw [if_pos hq, hpools]

theorem find_base {rs : List Region} (hr : r ∈ rs)
    (hunique : ∀ q ∈ rs, q.base = r.base → q = r) (hbase : r.base = a.toNat) :
    rs.find? (fun q => q.base = a.toNat) = some r := by
  cases hfind : rs.find? (fun q => q.base = a.toNat) with
  | none => exact absurd hbase (by simpa using List.find?_eq_none.mp hfind r hr)
  | some q =>
      have hq : q.base = a.toNat := by simpa using List.find?_some hfind
      rw [hunique q (List.mem_of_find?_eq_some hfind) (hq.trans hbase.symm)]

/-- During `pool_destroy` among other regions: the blocks `R` are left. -/
structure Clearing (s : PoolMem) (p : UInt64) (f : PoolFields) (blocks : List UInt64)
    (rest : List Region) (R : List UInt64) (t : List (Ptr UInt64) × PoolMem) : Prop where
  destroying : Destroying s p f blocks [] R (t.1, t.2.withRegions (owned f p R))
  perm : t.2.regions.Perm (owned f p R ++ rest)
  pools : ∀ q, (∀ r ∈ owned f p blocks, (poolRegion q).Disjoint r) → t.2.pools q = s.pools q

theorem Clearing.step (harranged : Arranged f p blocks)
    (hunique : ∀ r ∈ owned f p blocks, ∀ q ∈ owned f p blocks ++ rest, q.base = r.base → q = r)
    (hclearing : Clearing s p f blocks rest (b :: R) t) :
    ∃ t', destroyBlock (.addr (listBlocksMember.symm b)) t = some t' ∧
      Clearing s p f blocks rest R t' := by
  obtain ⟨t₀, hrun, hdestroying⟩ := hclearing.destroying.step harranged
  obtain ⟨done, -, hblocks⟩ := hclearing.destroying.freed
  have hsub : b :: R ⊆ blocks := fun x hx => hblocks ▸ List.mem_append_right done hx
  have hb : b ∈ blocks := hsub List.mem_cons_self
  have hcons : owned f p (b :: R) = blockRegion f b :: owned f p R := rfl
  have howned : ∀ q ∈ owned f p (b :: R), q ∈ owned f p blocks := by
    intro q hq
    rcases List.mem_append.mp hq with hq | hq
    · exact List.mem_append_left _ (List.map_subset (blockRegion f) hsub hq)
    · exact List.mem_append_right _ hq
  have hperm := hclearing.perm
  have hunique' : ∀ q ∈ t.2.regions, q.base = (blockRegion f b).base → q = blockRegion f b := by
    intro q hq
    apply hunique _ (mem_owned_block hb)
    rcases List.mem_append.mp (hperm.subset hq) with hq | hq
    · exact List.mem_append_left rest (howned q hq)
    · exact List.mem_append_right _ hq
  have hmem : blockRegion f b ∈ t.2.regions := hperm.symm.subset List.mem_cons_self
  obtain ⟨t', hrun', rfl, hregions, hpools⟩ := destroyBlock_withRegions hrun
    (List.find?_cons_of_pos (by simp [blockRegion, listBlocksMember]))
    (find_base hmem hunique' rfl)
  rw [hcons, List.erase_cons_head] at hdestroying
  refine ⟨t', hrun', hdestroying, ?_, fun q hq => ?_⟩
  · rw [hregions]
    have herase := hperm.erase (blockRegion f b)
    rwa [hcons, List.cons_append, List.erase_cons_head] at herase
  · rw [hpools q (hq _ (mem_owned_block hb)), hclearing.pools q hq]

/-- `pool_destroy` among other regions frees what the pool owns, and changes nothing else. -/
theorem poolDestroy_kept (hinv : PoolInv (s.withRegions (owned f p blocks)) p f blocks l [])
    (hperm : s.regions.Perm (owned f p blocks ++ rest))
    (hunique : ∀ r ∈ owned f p blocks, ∀ q ∈ s.regions, q.base = r.base → q = r)
    (hfuel : blocks.length < fuel) :
    ∃ s', poolDestroy fuel (.addr p) s = some (blocks.map Ptr.addr ++ [.addr p], s') ∧
      s'.regions.Perm rest ∧ Kept (owned f p blocks) s s' := by
  have hunique' : ∀ r ∈ owned f p blocks, ∀ q ∈ owned f p blocks ++ rest, q.base = r.base →
      q = r := fun r hr q hq => hunique r hr q (hperm.symm.subset hq)
  have hstart : Clearing s p f blocks rest blocks ([], s) :=
    ⟨⟨⟨[], rfl, rfl⟩, hinv.blocks_ring, rfl, fun _ hb hout => absurd hb hout,
      fun _ _ => ⟨rfl, rfl, rfl⟩⟩, hperm, fun _ _ => rfl⟩
  obtain ⟨t, hloop, hdone⟩ : ∃ t, listForEachEntrySafe listBlocksMember (fun t => t.2.mem)
      destroyBlock fuel (.addr (p + 56)) ([], s) = some t ∧
        Clearing s p f blocks rest [] t :=
    listForEachEntrySafe_run (fun _ _ ht => ⟨[], ht.destroying.ring⟩)
      (fun _ _ _ ht => ht.step hinv.arranged hunique') hinv.blocks_ring hstart hfuel
  obtain ⟨done, hfreed, hblocks⟩ := hdone.destroying.freed
  rw [List.append_nil] at hblocks
  subst hblocks
  have hperm' : t.2.regions.Perm (poolRegion p :: rest) := hdone.perm
  have hfree : t.2.free (.addr p) = some (t.2.release (poolRegion p)) := by
    have hfind := find_base (hperm'.symm.subset List.mem_cons_self)
      (fun q hq => hunique' _ mem_owned_pool q ?_) (show (poolRegion p).base = p.toNat from rfl)
    · simp [PoolMem.free, hfind]
    · rcases List.mem_cons.mp (hperm'.subset hq) with rfl | hq
      · exact List.mem_append_left rest mem_owned_pool
      · exact List.mem_append_right _ hq
  refine ⟨t.2.release (poolRegion p), ?_, ?_, ⟨fun q hq => ?_, fun a ha => ?_⟩⟩
  · have hloop' : listForEachEntrySafe listBlocksMember (fun t => t.2.mem) destroyBlock fuel
        (listBlocks (.addr p)) ([], s) = some t := hloop
    have hfreed' : t.1 = done.map Ptr.addr := hfreed
    simp [poolDestroy, hloop', hfree, hfreed']
  · have herase := hperm'.erase (poolRegion p)
    rwa [List.erase_cons_head] at herase
  · show (if Region.Disjoint (poolRegion q) (poolRegion p) then t.2.pools q else none) = _
    rw [if_pos (hq _ mem_owned_pool), hdone.pools q hq]
  · have hout : Outside f p done a := List.forall_mem_cons.mpr
      ⟨ha _ mem_owned_pool, fun r hr => ha r (List.mem_append_left _ hr)⟩
    obtain ⟨hlive, hnext, hprev⟩ := hdone.destroying.outside a hout
    refine ⟨?_, hnext, hprev⟩
    show (t.2.mem.live a && decide ((cell a).Disjoint (poolRegion p))) = _
    rw [decide_eq_true (ha _ mem_owned_pool), Bool.and_true]
    exact hlive

end Destroy

end Pool
end Brlib
