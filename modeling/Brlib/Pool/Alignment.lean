import Brlib.Alloc.Circle
import Brlib.Pool.Overflow

/-!
# The list nodes in the slots of a block

`_pool_add` makes a `struct list_head` of the first 16 bytes of a slot.  `pool_create` sees
to it that they fit in the slot, but not that the slots are aligned: the second one is
`eltsize` bytes behind the first.  And the slots of a block wrap around the address space
when they take more than `2 ^ 64` bytes (`slots_hold_nodes_iff`).
-/

namespace Brlib
namespace Pool

open Heap Heap.Mem ListHead Alloc

variable {limit : ℕ} {others : List Region} {name : List UInt8} {growsize : UInt32}
variable {eltsize p b : UInt64} {f : PoolFields} {s s' : PoolMem} {c c' : Client} {call : Call}
variable {malloc : UInt64 → Ptr UInt64}

/-- The byte at `x` is one of the `n` from `a` on, modulo the address space. -/
def InBytes (a : UInt64) (n : ℕ) (x : UInt64) : Prop :=
  Occupies (2 ^ 64) a.toNat n x.toNat

/-- Each slot of the block at `b` can hold its list node. -/
structure HoldsNodes (f : PoolFields) (b : UInt64) : Prop where
  /-- The nodes are aligned. -/
  aligned : ∀ i < f.growsize, 8 ∣ (slotAddr f b i).toNat
  /-- The bytes of a node lie in its slot. -/
  within : ∀ i < f.growsize, ∀ x, InBytes (slotAddr f b i) 16 x →
    InBytes (slotAddr f b i) f.eltsize.toNat x
  /-- The bytes of a node lie in no other slot. -/
  apart : ∀ i < f.growsize, ∀ j < f.growsize, i ≠ j → ∀ x, InBytes (slotAddr f b i) 16 x →
    ¬ InBytes (slotAddr f b j) f.eltsize.toNat x

/-- `pool_get` allocates the block at `b` for a pool with the fields `f`. -/
structure Allocates (malloc : UInt64 → Ptr UInt64) (p : UInt64) (s : PoolMem) (f : PoolFields)
    (b : UInt64) : Prop where
  pool : s.pools p = some f
  empty : f.available = 0
  answer : malloc (blockSize f) = .addr b

section Sizes

theorem sizes_of_poolGrowLoop {n : ℕ} {i : UInt32} (hpool : s.pools p = some f)
    (h : poolGrowLoop (.addr p) b n i s = some s') :
    ∃ f', s'.pools p = some f' ∧ SameSizes f f' := by
  induction n generalizing i s f with
  | zero =>
      obtain rfl : s = s' := Option.some.inj h
      exact ⟨f, hpool, .refl f⟩
  | succ n ih =>
      obtain ⟨count, s₁, hadd, hloop⟩ := poolGrowLoop_succ_inv hpool h
      obtain ⟨-, -, hpool₁⟩ := live_of_poolAdd hpool hadd
      obtain ⟨f', hpool', hsizes⟩ := ih hpool₁ hloop
      exact ⟨f', hpool', hsizes.eltsize, hsizes.growsize⟩

theorem sizes_of_poolGrow (hpool : s.pools p = some f)
    (h : poolGrow (.addr p) b s = some s') :
    ∃ f', s'.pools p = some f' ∧ SameSizes f f' := by
  obtain ⟨m', s₁, -, -, hpool₁, hloop⟩ := poolGrow_inv hpool h
  obtain ⟨f', hpool', hsizes⟩ := sizes_of_poolGrowLoop hpool₁ hloop
  exact ⟨f', hpool', hsizes.eltsize, hsizes.growsize⟩

theorem sizes_of_available {res : Ptr UInt64} (hpool : s.pools p = some f)
    (h : _poolGet (.addr p) s = some (res, s')) :
    ∃ f', s'.pools p = some f' ∧ SameSizes f f' := by
  unfold _poolGet at h
  obtain ⟨head, -, h⟩ := Option.bind_eq_some_iff.mp h
  simp only [PoolMem.getPool, PoolMem.setPool, PoolMem.onMem, Option.bind_eq_bind, hpool,
    Option.bind_some, Option.isSome_some, if_true] at h
  cases hdel : listDel head s.mem with
  | none => simp [hdel] at h
  | some m' =>
      simp only [hdel, Option.map_some, Option.bind_some, Option.some.injEq,
        Prod.mk.injEq] at h
      obtain ⟨-, rfl⟩ := h
      exact ⟨_, Function.update_self _ _ _, rfl, rfl⟩

theorem sizes_of_poolGet {res : Ptr UInt64} (hpool : s.pools p = some f)
    (h : poolGet malloc (.addr p) s = some (res, s')) :
    ∃ f', s'.pools p = some f' ∧ SameSizes f f' := by
  have hget : s.getPool (.addr p) = some f := hpool
  rw [poolGet, if_neg (by simp), hget] at h
  simp only [Option.bind_eq_bind, Option.bind_some] at h
  by_cases havail : f.available = 0
  · rw [if_neg (not_not.mpr havail)] at h
    cases hanswer : malloc (blockSize f) with
    | addr b =>
        simp only [hanswer] at h
        obtain ⟨s₁, hgrow, hrest⟩ := Option.bind_eq_some_iff.mp h
        obtain ⟨f₁, hpool₁, hsizes₁⟩ :=
          sizes_of_poolGrow (show (s.malloced b _).pools p = some f from hpool) hgrow
        obtain ⟨f₂, hpool₂, hsizes₂⟩ := sizes_of_available hpool₁ hrest
        exact ⟨f₂, hpool₂, hsizes₁.trans hsizes₂⟩
    | null =>
        simp only [hanswer, Option.some.injEq, Prod.mk.injEq] at h
        obtain ⟨-, rfl⟩ := h
        exact ⟨f, hpool, .refl f⟩
    | junk k =>
        simp only [hanswer, Option.some.injEq, Prod.mk.injEq] at h
        obtain ⟨-, rfl⟩ := h
        exact ⟨f, hpool, .refl f⟩
  · rw [if_pos havail] at h
    exact sizes_of_available hpool h

theorem sizes_of_exec (hpool : c.s.pools p = some f) (h : exec p call c = some c') :
    ∃ f', c'.s.pools p = some f' ∧ SameSizes f f' := by
  cases call with
  | get malloc =>
      rw [exec] at h
      obtain ⟨⟨res, s'⟩, hget, h⟩ := Option.bind_eq_some_iff.mp h
      have hs : c'.s = s' := by
        cases res with
        | addr elt => exact congrArg Client.s (Option.some.inj h).symm
        | null => exact congrArg Client.s (Option.some.inj h).symm
        | junk k => exact congrArg Client.s (Option.some.inj h).symm
      rw [hs]
      exact sizes_of_poolGet hpool hget
  | add elt =>
      rw [exec] at h
      obtain ⟨⟨count, s'⟩, hadd, h⟩ := Option.bind_eq_some_iff.mp h
      obtain rfl := Option.some.inj h
      obtain ⟨-, -, hpool'⟩ := live_of_poolAdd hpool hadd
      exact ⟨_, hpool', rfl, rfl⟩
  | write contents =>
      have hget : c.s.getPool (.addr p) = some f := hpool
      rw [exec, hget] at h
      obtain rfl := Option.some.inj h
      exact ⟨f, hpool, .refl f⟩

/-- In every state of a run the sizes are those that `pool_create` fixed. -/
theorem sizes_of_reachable (hreach : Reachable limit others name growsize eltsize p c) :
    ∃ f, c.s.pools p = some f ∧ SameSizes (newPool name growsize eltsize) f := by
  induction hreach with
  | @create s s' malloc hothers hmalloc hrun =>
      rcases hmalloc sizeofPool with hnull | ⟨-, a, ha, -, hfits, -⟩
      · simp [poolCreate, hnull] at hrun
      · obtain ⟨m', hrun₁, -, -, -⟩ := @poolCreate_eq s a malloc name growsize eltsize ha hfits
        rw [hrun] at hrun₁
        obtain ⟨rfl, rfl⟩ : p = a ∧ s' = _ := by simpa using hrun₁
        exact ⟨_, by simp, .refl _⟩
  | step hreach hallowed hrun ih =>
      obtain ⟨f, hpool, hsizes⟩ := ih
      obtain ⟨f', hpool', hsizes'⟩ := sizes_of_exec hpool hrun
      exact ⟨f', hpool', hsizes.trans hsizes'⟩

end Sizes

section Slots

/-- The bytes of a slot, as a slot on the circle of all addresses. -/
theorem inBytes_slotAddr_iff (f : PoolFields) (b x : UInt64) (i : UInt32) (n : ℕ) :
    InBytes (slotAddr f b i) n x ↔
      Occupies (2 ^ 64) (b.toNat + 16 + i.toNat * f.eltsize.toNat) n x.toNat := by
  unfold InBytes Occupies
  rw [slotAddr_mod, Nat.add_assoc]
  simp only [Nat.mod_add_mod]

theorem forall_slots_iff {P : ℕ → Prop} :
    (∀ i < f.growsize, P i.toNat) ↔ ∀ i < f.growsize.toNat, P i := by
  constructor
  · intro h i hi
    obtain ⟨hindex, hlt⟩ := ofNat_index hi
    exact hindex ▸ h _ hlt
  · intro h i hi
    exact h _ (UInt32.lt_iff_toNat_lt.mp hi)

theorem slots_aligned (halign : 16 ∣ b.toNat) :
    (∀ i < f.growsize, 8 ∣ (slotAddr f b i).toNat) ↔
      f.growsize.toNat ≤ 1 ∨ 8 ∣ f.eltsize.toNat := by
  simp only [slotAddr_mod, ← Nat.add_assoc]
  rw [@forall_slots_iff f fun i => 8 ∣ (b.toNat + 16 + i * f.eltsize.toNat) % 2 ^ 64]
  exact slots_aligned_iff (by decide) (by omega)

theorem slots_apart (helt : 16 ≤ f.eltsize.toNat) :
    (∀ i < f.growsize, ∀ j < f.growsize, i ≠ j → ∀ x, InBytes (slotAddr f b i) 16 x →
      ¬ InBytes (slotAddr f b j) f.eltsize.toNat x) ↔
        f.growsize.toNat * f.eltsize.toNat ≤ 2 ^ 64 := by
  rw [← @slots_apart_iff (2 ^ 64) (b.toNat + 16) _ 16 _ (by decide) helt (UInt64.toNat_lt _)]
  constructor
  · intro h i hi j hj hij x hx hx'
    obtain ⟨hindex, hlt⟩ := ofNat_index hi
    obtain ⟨hindex', hlt'⟩ := ofNat_index hj
    have hword : (UInt64.ofNat x).toNat = x := by
      obtain ⟨k, -, rfl⟩ := hx
      exact UInt64.toNat_ofNat_of_lt' (Nat.mod_lt _ (by decide))
    refine h _ hlt _ hlt' ?_ (UInt64.ofNat x) ?_ ?_
    · intro heq
      exact hij (by rw [← hindex, heq, hindex'])
    · rw [inBytes_slotAddr_iff, hindex, hword]
      exact hx
    · rw [inBytes_slotAddr_iff, hindex', hword]
      exact hx'
  · intro h i hi j hj hij x hx hx'
    rw [inBytes_slotAddr_iff] at hx hx'
    exact h _ (UInt32.lt_iff_toNat_lt.mp hi) _ (UInt32.lt_iff_toNat_lt.mp hj)
      (fun heq => hij (UInt32.toNat_inj.mp heq)) _ hx hx'

/-- When the slots of a block can hold their list nodes. -/
theorem holdsNodes_iff (helt : 16 ≤ f.eltsize.toNat) (halign : 16 ∣ b.toNat) :
    HoldsNodes f b ↔ f.growsize.toNat ≤ 1 ∨
      8 ∣ f.eltsize.toNat ∧ f.growsize.toNat * f.eltsize.toNat ≤ 2 ^ 64 := by
  have hsingle : f.growsize.toNat ≤ 1 → f.growsize.toNat * f.eltsize.toNat ≤ 2 ^ 64 := by
    intro hgrow
    have hmul : f.growsize.toNat * f.eltsize.toNat ≤ 1 * f.eltsize.toNat :=
      Nat.mul_le_mul_right _ hgrow
    have hlt := f.eltsize.toNat_lt
    omega
  have hparts : HoldsNodes f b ↔ (f.growsize.toNat ≤ 1 ∨ 8 ∣ f.eltsize.toNat) ∧
      f.growsize.toNat * f.eltsize.toNat ≤ 2 ^ 64 := by
    rw [← slots_aligned halign, ← slots_apart helt]
    exact ⟨fun h => ⟨h.aligned, h.apart⟩,
      fun h => ⟨h.1, fun i hi x hx => Occupies.mono hx helt, h.2⟩⟩
  rw [hparts]
  tauto

end Slots

/-- **When the slots can hold list nodes.**  For every pool that was created and every block
that `pool_get` allocates at a multiple of 16, each slot is aligned, holds its node and
is overlapped by no other node if and only if the block has at most one slot, or
the size of an element is a multiple of 8 and all slots together take at most
`2 ^ 64` bytes. -/
theorem slots_hold_nodes_iff (hreach : Reachable limit others name growsize eltsize p c)
    (halloc : Allocates malloc p c.s f b) (halign : 16 ∣ b.toNat) :
    HoldsNodes f b ↔ growsize.toNat ≤ 1 ∨
      8 ∣ max eltsize.toNat 16 ∧ growsize.toNat * max eltsize.toNat 16 ≤ 2 ^ 64 := by
  obtain ⟨f', hpool, hsizes⟩ := sizes_of_reachable hreach
  obtain rfl : f = f' := Option.some.inj (halloc.pool.symm.trans hpool)
  have helt : f.eltsize.toNat = max eltsize.toNat 16 := by
    rw [hsizes.eltsize, newPool_eltsize]
  have hgrow : f.growsize = growsize := hsizes.growsize
  rw [← helt, ← hgrow]
  exact holdsNodes_iff (by omega) halign

theorem slots_hold_nodes_iff_smallPool :
    ∃ c, Reachable (2 ^ 64) [] [112] 4 24 4096 c ∧
      (HoldsNodes smallPool 8192 ↔ (4 : UInt32).toNat ≤ 1 ∨
        8 ∣ max (24 : UInt64).toNat 16 ∧
          (4 : UInt32).toNat * max (24 : UInt64).toNat 16 ≤ 2 ^ 64) := by
  obtain ⟨s, hreach, hinv⟩ := @reachable_blank (2 ^ 64) [112] 4 24 (by decide) (by decide)
  have halloc : Allocates (mallocAt 8192 (blockSize smallPool)) 4096 s smallPool 8192 :=
    ⟨hinv.pool, rfl, by simp [mallocAt]⟩
  exact ⟨⟨s, []⟩, hreach, slots_hold_nodes_iff hreach halloc (by decide)⟩

/-- A pool of elements of 20 bytes, two in a block. -/
def unevenPool : PoolFields := newPool [112] 2 20

/-- The first element that the uneven pool gives out, and the list node in it, is no multiple
of 8. -/
theorem unevenPool_misaligned :
    ∃ s s', Reachable (2 ^ 64) [] [112] 2 20 4096 ⟨s, []⟩ ∧
      Allocates (mallocAt 8192 (blockSize unevenPool)) 4096 s unevenPool 8192 ∧
      16 ∣ (8192 : UInt64).toNat ∧
      poolGet (mallocAt 8192 (blockSize unevenPool)) (.addr 4096) s = some (.addr 8228, s') ∧
      slotAddr unevenPool 8192 1 = 8228 ∧ ¬ 8 ∣ (8228 : UInt64).toNat ∧
      ¬ HoldsNodes unevenPool 8192 := by
  obtain ⟨s, hreach, hinv⟩ := @reachable_blank (2 ^ 64) [112] 2 20 (by decide) (by decide)
  have hanswer : mallocAt 8192 (blockSize unevenPool) (blockSize unevenPool) = .addr 8192 := by
    simp [mallocAt]
  have hapart : ∀ r ∈ s.regions, Region.Disjoint (blockRegion unevenPool 8192) r := by
    intro r hr
    rw [hinv.regions] at hr
    rw [List.mem_singleton.mp hr]
    decide
  obtain ⟨a, A, s', hslots, hrun, -⟩ :=
    poolGet_grow hinv rfl (by decide) hanswer (by decide) hapart
  have hsecond : slots unevenPool 8192 = [8228, 8208] := by decide
  obtain ⟨rfl, -⟩ : (8228 : UInt64) = a ∧ [8208] = A := by
    simpa using hsecond.symm.trans hslots
  refine ⟨s, s', hreach, ⟨hinv.pool, rfl, hanswer⟩, by decide, hrun, by decide, by decide, ?_⟩
  intro hholds
  exact absurd (hholds.aligned 1 (by decide)) (by decide)

end Pool
end Brlib
