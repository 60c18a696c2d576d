import Brlib.Alloc.Peak
import Brlib.Pool.Run

/-!
# How a pool grows

`pool_get` allocates a block only when no element is free, and no block is freed before
`pool_destroy`.  So the number of blocks after a run is what the greatest number of elements
that were held at a time needs (`pool_grows`): it does not depend on how often elements were
got and added back, nor on how often `malloc` failed.
-/

namespace Brlib
namespace Pool

open Heap Heap.Mem Alloc

/-- A run, with the greatest number of elements that were held at a time. -/
inductive Peaked (limit : ℕ) (others : List Region) (name : List UInt8)
    (growsize : UInt32) (eltsize : UInt64) (p : UInt64) : Client → ℕ → Prop
  | create {s s' : PoolMem} {malloc : UInt64 → Ptr UInt64} (hothers : s.regions = others)
      (hmalloc : s.Answers limit malloc)
      (hrun : poolCreate malloc name growsize eltsize s = some (.addr p, s')) :
      Peaked limit others name growsize eltsize p ⟨s', []⟩ 0
  | step {c c' : Client} {call : Call} {peak : ℕ}
      (hpeaked : Peaked limit others name growsize eltsize p c peak)
      (hallowed : Allowed limit call c) (hrun : exec p call c = some c') :
      Peaked limit others name growsize eltsize p c' (max peak c'.held.length)

variable {limit peak g : ℕ} {others : List Region} {name : List UInt8} {growsize : UInt32}
variable {eltsize p : UInt64} {c c' : Client} {call : Call} {f : PoolFields} {blocks : List UInt64}
variable {l : Lifo UInt64}

theorem exists_peak (hreach : Reachable limit others name growsize eltsize p c) :
    ∃ peak, Peaked limit others name growsize eltsize p c peak := by
  induction hreach with
  | create hothers hmalloc hrun => exact ⟨0, .create hothers hmalloc hrun⟩
  | step _ hallowed hrun ih =>
      obtain ⟨peak, hpeaked⟩ := ih
      exact ⟨_, .step hpeaked hallowed hrun⟩

theorem Peaked.reachable (hpeaked : Peaked limit others name growsize eltsize p c peak) :
    Reachable limit others name growsize eltsize p c := by
  induction hpeaked with
  | create hothers hmalloc hrun => exact .create hothers hmalloc hrun
  | step _ hallowed hrun ih => exact .step ih hallowed hrun

/-- While the counter is exact, the pool grows only when no element is free. -/
theorem exec_lazy (htied : Tied c p f blocks l others) (hgrow : f.growsize ≠ 0)
    (hlazy : l.Lazy f.growsize.toNat peak blocks.length) (hcount : l.free.length < 2 ^ 32)
    (hallowed : Allowed limit call c) :
    ∃ c' f' blocks' l', exec p call c = some c' ∧ Tied c' p f' blocks' l' others ∧
      SameSizes f f' ∧
      l'.Lazy f.growsize.toNat (max peak c'.held.length) blocks'.length := by
  obtain ⟨hinv, hheld⟩ := htied
  have hzero : f.available = 0 ↔ l.free = [] := by
    rw [hinv.available, ← UInt32.toNat_inj, UInt32.toNat_ofNat', Nat.mod_eq_of_lt hcount]
    exact List.length_eq_zero_iff
  have hstay : l.Lazy f.growsize.toNat (max peak c.held.length) blocks.length := by
    rw [← hheld]
    exact hlazy.stay
  cases call with
  | get malloc =>
      by_cases havail : f.available = 0
      · rcases hallowed (blockSize f) with hnull | ⟨-, b, hb, -, hfits, hapart⟩
        · refine ⟨⟨{ c.s with errno := enomem }, c.held⟩, f, blocks, l, ?_,
            ⟨hinv.setErrno enomem, hheld⟩, .refl f, hstay⟩
          simp [exec, poolGet_null hinv havail hnull]
        · obtain ⟨a, A, s', hslots, hrun, hinv', hsound, -⟩ :=
            poolGet_grow hinv havail hgrow hb hfits hapart
          have hcons : (l.grow (slots f b)).free = a :: (A ++ l.free) := by
            show slots f b ++ l.free = _
            rw [hslots, List.cons_append]
          have hheld' : (l.grow (slots f b)).get.held = a :: c.held := by
            rw [Lifo.get_cons hcons, ← hheld]
            rfl
          have hpos : 0 < f.growsize.toNat :=
            Nat.pos_of_ne_zero fun heq => hgrow (UInt32.toNat_inj.mp heq)
          have hlazy' := hlazy.grow_get (hzero.mp havail) hsound length_slots hpos
          rw [hheld'] at hlazy'
          refine ⟨⟨s', a :: c.held⟩, _, b :: blocks, _, by simp [exec, hrun], ⟨hinv', hheld'⟩,
            ⟨rfl, rfl⟩, hlazy'⟩
      · obtain ⟨a, A, s', hcons, hrun, hinv', -⟩ :=
          @poolGet_available _ _ _ _ _ _ malloc hinv havail
        have hheld' : l.get.held = a :: c.held := by
          rw [Lifo.get_cons hcons, ← hheld]
        have hlazy' := hlazy.get (hzero.not.mp havail)
        rw [hheld'] at hlazy'
        exact ⟨⟨s', a :: c.held⟩, _, blocks, l.get, by simp [exec, hrun], ⟨hinv', hheld'⟩,
          ⟨rfl, rfl⟩, hlazy'⟩
  | add elt =>
      have helt : elt ∈ l.held := hheld.symm ▸ hallowed
      obtain ⟨s', hrun, hinv', -⟩ := poolAdd_spec hinv helt
      have hheld' : (l.add elt).held = c.held.erase elt := by
        show l.held.erase elt = _
        rw [hheld]
      have hlazy' := hlazy.add helt
      rw [hheld'] at hlazy'
      exact ⟨⟨s', c.held.erase elt⟩, _, blocks, l.add elt, by simp [exec, hrun],
        ⟨hinv', hheld'⟩, ⟨rfl, rfl⟩, hlazy'⟩
  | write contents =>
      refine ⟨⟨{ c.s with mem := clientWrite f c.held contents c.s.mem }, c.held⟩, f, blocks, l,
        by simp [exec, PoolMem.getPool, hinv.pool], ⟨?_, hheld⟩, .refl f, hstay⟩
      refine hinv.overwrite rfl fun a hout => ?_
      rw [hheld] at hout
      simp [clientWrite, hout]

/-- A run with a peak is a run of an allocator that grows only when it must. -/
theorem peaked_lazy (hno : 16 + max eltsize.toNat 16 * growsize.toNat < 2 ^ 64)
    (hgrow : growsize ≠ 0) (hpeaked : Peaked limit others name growsize eltsize p c peak)
    (hpeak : peak + growsize.toNat ≤ 2 ^ 32) :
    ∃ f blocks l, Tied c p f blocks l others ∧ SameSizes (newPool name growsize eltsize) f ∧
      l.Lazy growsize.toNat peak blocks.length := by
  induction hpeaked with
  | @create s s' malloc hothers hmalloc hrun =>
      have hpos : 0 < growsize.toNat :=
        Nat.pos_of_ne_zero fun heq => hgrow (UInt32.toNat_inj.mp heq)
      rcases hmalloc sizeofPool with hnull | ⟨-, a, ha, -, hfits, -⟩
      · simp [poolCreate, hnull] at hrun
      · obtain ⟨s₁, hrun₁, hinv⟩ :=
          poolCreate_spec ha hfits ((newPool_noOverflow_iff name growsize eltsize).mpr hno)
        rw [hrun] at hrun₁
        obtain ⟨rfl, rfl⟩ : p = a ∧ s' = s₁ := by simpa using hrun₁
        exact ⟨_, [], Lifo.empty, ⟨hothers ▸ hinv, rfl⟩, .refl _, .empty hpos⟩
  | step _ hallowed hrun ih =>
      obtain ⟨f, blocks, l, htied, hsizes, hlazy⟩ := ih (by omega)
      have hgrow' : f.growsize = growsize := hsizes.growsize
      have hcount : l.free.length < 2 ^ 32 := by
        have hlength := hlazy.length_eq
        have hgt := hlazy.peak_gt
        omega
      obtain ⟨c₁, f', blocks', l', hexec, htied', hsizes', hlazy'⟩ :=
        exec_lazy htied (hgrow' ▸ hgrow) (hgrow'.symm ▸ hlazy) hcount hallowed
      rw [hrun] at hexec
      obtain rfl := Option.some.inj hexec
      exact ⟨f', blocks', l', htied', hsizes.trans hsizes', hgrow' ▸ hlazy'⟩

/-- What a pool has taken from the heap when `peak` elements at most were held at a time. -/
structure Grown (c : Client) (p : UInt64) (growsize : UInt32) (peak : ℕ) (f : PoolFields)
    (blocks : List UInt64) (others : List Region) : Prop where
  pool : c.s.pools p = some f
  blocks_ring : c.s.mem.Ring (p + 56) blocks
  regions : c.s.regions = blocks.map (blockRegion f) ++ poolRegion p :: others
  length : blocks.length = peak ⌈/⌉ growsize.toNat
  /-- The counters are exact. -/
  nblocks : f.nblocks.toNat = peak ⌈/⌉ growsize.toNat
  allocated : f.allocated.toNat = growsize.toNat * (peak ⌈/⌉ growsize.toNat)
  available : f.available.toNat + c.held.length = f.allocated.toNat

/-- The pool has as many blocks as the peak of its use needs, no more. -/
theorem pool_grows (hno : 16 + max eltsize.toNat 16 * growsize.toNat < 2 ^ 64)
    (hgrow : growsize ≠ 0) (hpeaked : Peaked limit others name growsize eltsize p c peak)
    (hpeak : peak + growsize.toNat ≤ 2 ^ 32) :
    ∃ f blocks, Grown c p growsize peak f blocks others := by
  obtain ⟨f, blocks, l, ⟨hinv, hheld⟩, hsizes, hlazy⟩ := peaked_lazy hno hgrow hpeaked hpeak
  have hgrow' : f.growsize = growsize := hsizes.growsize
  have hpos : 0 < growsize.toNat :=
    Nat.pos_of_ne_zero fun heq => hgrow (UInt32.toNat_inj.mp heq)
  have hblocks := hlazy.blocks_eq
  have hlength := hlazy.length_eq
  have hgt := hlazy.peak_gt
  have hle : blocks.length ≤ growsize.toNat * blocks.length := Nat.le_mul_of_pos_left _ hpos
  have hnblocks : f.nblocks.toNat = blocks.length := by
    rw [hinv.nblocks, UInt32.toNat_ofNat', Nat.mod_eq_of_lt (by omega)]
  have hallocated : f.allocated.toNat = growsize.toNat * blocks.length := by
    rw [hinv.allocated, UInt32.toNat_mul, hnblocks, hgrow', Nat.mul_comm]
    exact Nat.mod_eq_of_lt (by omega)
  refine ⟨f, blocks, hinv.pool, hinv.blocks_ring, hinv.regions, hblocks, ?_, ?_, ?_⟩
  · rw [hnblocks, hblocks]
  · rw [hallocated, ← hblocks]
  · rw [hallocated, hinv.available, UInt32.toNat_ofNat', Nat.mod_eq_of_lt (by omega), ← hheld]
    exact hlength

theorem peaked_blank : ∃ c, Peaked (2 ^ 64) [] [112] 4 24 4096 c 1 := by
  have hmalloc : blank.Answers (2 ^ 64) (mallocAt 4096 sizeofPool) :=
    answers_mallocAt (by decide) (by decide) (by decide) fun r hr => absurd hr List.not_mem_nil
  obtain ⟨s, hrun, hinv⟩ := @poolCreate_spec blank 4096 (mallocAt 4096 sizeofPool) [112] 4 24
    (by simp [mallocAt]) (by decide) (by decide)
  have hapart : ∀ r ∈ s.regions, (blockRegion (newPool [112] 4 24) 8192).Disjoint r := by
    intro r hr
    rw [hinv.regions] at hr
    rw [List.mem_singleton.mp hr]
    decide
  have hmalloc' : s.Answers (2 ^ 64) (mallocAt 8192 (blockSize (newPool [112] 4 24))) :=
    answers_mallocAt (by decide) (by decide) (by decide) hapart
  obtain ⟨a, A, s', -, hget, -⟩ := poolGet_grow hinv rfl (by decide)
    (show mallocAt 8192 (blockSize (newPool [112] 4 24)) (blockSize (newPool [112] 4 24)) =
      .addr 8192 by simp [mallocAt]) (by decide) hapart
  exact ⟨⟨s', [a]⟩, .step (.create rfl hmalloc hrun)
    (show Allowed (2 ^ 64) (.get _) ⟨s, []⟩ from hmalloc') (by simp [exec, hget])⟩

theorem pool_grows_blank :
    ∃ c f blocks, Peaked (2 ^ 64) [] [112] 4 24 4096 c 1 ∧ Grown c 4096 4 1 f blocks [] := by
  obtain ⟨c, hpeaked⟩ := peaked_blank
  obtain ⟨f, blocks, hgrown⟩ := pool_grows (by decide) (by decide) hpeaked (by decide)
  exact ⟨c, f, blocks, hpeaked, hgrown⟩

end Pool
end Brlib
