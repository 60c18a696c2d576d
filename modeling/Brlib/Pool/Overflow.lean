import Brlib.Pool.Run

/-!
# Blocks whose size overflows

When `eltsize * growsize` overflows, `pool_get` requests less than its elements take,
and threads list nodes through memory that it does not own.  A block of at most
`PTRDIFF_MAX` bytes does not hold all of them (`exists_slot_outside`), and the first
`pool_get` that gets such a block faults (`reachable_overflow`).  A wrapped request that
is larger is never met, and then the pool stays empty (`reachable_starved`).
-/

namespace Brlib
namespace Pool

open Heap Heap.Mem ListHead Alloc

/-- `PTRDIFF_MAX`, the most that `malloc` gives. -/
def ptrdiffMax : ℕ := 2 ^ 63 - 1

variable {limit : ℕ} {others : List Region} {name : List UInt8} {growsize : UInt32}
variable {eltsize : UInt64} {s s' : PoolMem} {c : Client} {p a b : UInt64} {f : PoolFields}

section Arithmetic

theorem exists_index_outside {elt grow : ℕ} (helt : 16 ≤ elt) (helt' : elt < 2 ^ 64)
    (hgrow : grow < 2 ^ 32) (hover : 2 ^ 64 ≤ 16 + elt * grow)
    (hsize : (16 + elt * grow) % 2 ^ 64 ≤ ptrdiffMax) :
    ∃ i < grow, 16 + i * elt < 2 ^ 64 ∧ (16 + elt * grow) % 2 ^ 64 < 16 + i * elt + 16 := by
  unfold ptrdiffMax at hsize
  have hpos : 0 < grow := by
    rcases Nat.eq_zero_or_pos grow with rfl | hpos
    · omega
    · exact hpos
  by_cases hsmall : (16 + elt * grow) % 2 ^ 64 < 32
  · exact ⟨0, hpos, by omega, by omega⟩
  · by_cases hhalf : elt ≤ 2 ^ 63
    · -- the first slot behind the end of the block, which is before the end of the space
      obtain ⟨i, hi⟩ : ∃ i, i = ((16 + elt * grow) % 2 ^ 64 - 32) / elt := ⟨_, rfl⟩
      have hbelow : i * elt ≤ (16 + elt * grow) % 2 ^ 64 - 32 := hi ▸ Nat.div_mul_le_self _ _
      have habove : (16 + elt * grow) % 2 ^ 64 - 32 < (i + 1) * elt := by
        rw [hi, Nat.mul_comm _ elt]
        exact Nat.lt_mul_div_succ _ (by omega)
      have hsucc : (i + 1) * elt = i * elt + elt := Nat.succ_mul i elt
      refine ⟨i + 1, ?_, by omega, by omega⟩
      by_contra hge
      have hmul : elt * grow ≤ elt * (i + 1) := Nat.mul_le_mul_left elt (Nat.not_lt.mp hge)
      rw [Nat.mul_comm elt (i + 1)] at hmul
      omega
    · -- at most one slot is in the block
      have hwrap : elt + 16 < 2 ^ 64 := by
        by_contra hlarge
        have hsplit : elt * grow + (2 ^ 64 - elt) * grow = 2 ^ 64 * grow := by
          rw [← Nat.add_mul, Nat.add_sub_cancel' helt'.le]
        have hgap : (2 ^ 64 - elt) * grow ≤ 16 * 2 ^ 32 :=
          Nat.mul_le_mul (by omega) hgrow.le
        omega
      have hne : grow ≠ 1 := by
        rintro rfl
        omega
      exact ⟨1, by omega, by omega, by omega⟩

theorem slotAddr_mod (f : PoolFields) (b : UInt64) (i : UInt32) :
    (slotAddr f b i).toNat = (b.toNat + (16 + i.toNat * f.eltsize.toNat)) % 2 ^ 64 := by
  unfold slotAddr sizeofBlock
  rw [UInt64.toNat_add, UInt64.toNat_add, UInt64.toNat_mul]
  simp only [UInt64.reduceToNat, UInt32.toNat_toUInt64]
  omega

/-- A block whose size overflows does not hold all of its list nodes. -/
theorem exists_slot_outside (helt : 16 ≤ f.eltsize.toNat) (hover : ¬ NoOverflow f)
    (hsize : (blockSize f).toNat ≤ ptrdiffMax) :
    ∃ i < f.growsize, ∀ b : UInt64, b.toNat + (blockSize f).toNat ≤ 2 ^ 64 →
      ¬ (cell (slotAddr f b i)).Within ⟨b.toNat, (blockSize f).toNat⟩ := by
  rw [blockSize_toNat] at hsize ⊢
  obtain ⟨i, hi, hwrap, hout⟩ := exists_index_outside helt (UInt64.toNat_lt _) (UInt32.toNat_lt _)
    (Nat.not_lt.mp hover) hsize
  obtain ⟨hindex, hlt⟩ := ofNat_index hi
  refine ⟨UInt32.ofNat i, hlt, fun b hfits => ?_⟩
  unfold cell Region.Within
  rw [slotAddr_mod, hindex]
  simp only
  omega

end Arithmetic

section Faults

theorem live_of_poolAdd {count : UInt32} (hpool : s.pools p = some f)
    (h : _poolAdd (.addr p) (.addr a) s = some (count, s')) :
    s.mem.live a = true ∧ s'.mem.live = s.mem.live ∧
      s'.pools p = some { f with available := f.available + 1 } := by
  unfold _poolAdd at h
  cases hadd : listAdd (.addr a) (listAvailable (.addr p)) s.mem with
  | none => simp [PoolMem.onMem, hadd] at h
  | some m' =>
      obtain ⟨hlive, hsame⟩ := live_of_listAdd hadd
      simp only [PoolMem.onMem, hadd, Option.map_some, PoolMem.getPool, PoolMem.setPool,
        Option.bind_eq_bind, Option.bind_some, hpool, Option.isSome_some, if_true,
        Option.some.injEq, Prod.mk.injEq] at h
      obtain ⟨-, rfl⟩ := h
      exact ⟨hlive, hsame, by simp⟩

theorem poolGrowLoop_succ_inv {n : ℕ} {i : UInt32} (hpool : s.pools p = some f)
    (h : poolGrowLoop (.addr p) b (n + 1) i s = some s') :
    ∃ count s₁, _poolAdd (.addr p) (.addr (slotAddr f b i)) s = some (count, s₁) ∧
      poolGrowLoop (.addr p) b n (i + 1) s₁ = some s' := by
  have hget : s.getPool (.addr p) = some f := hpool
  rw [poolGrowLoop, hget] at h
  simp only [Option.bind_eq_bind, Option.bind_some] at h
  obtain ⟨⟨count, s₁⟩, hadd, hloop⟩ := Option.bind_eq_some_iff.mp h
  exact ⟨count, s₁, hadd, hloop⟩

theorem poolGrow_inv (hpool : s.pools p = some f) (h : poolGrow (.addr p) b s = some s') :
    ∃ m' s₁, listAdd (.addr b) (listBlocks (.addr p)) s.mem = some m' ∧ s₁.mem = m' ∧
      s₁.pools p = some
        { f with nblocks := f.nblocks + 1, allocated := f.allocated + f.growsize } ∧
      poolGrowLoop (.addr p) b f.growsize.toNat 0 s₁ = some s' := by
  unfold poolGrow at h
  cases hadd : listAdd (.addr b) (listBlocks (.addr p)) s.mem with
  | none => simp [PoolMem.onMem, hadd] at h
  | some m' =>
      simp only [PoolMem.onMem, hadd, Option.map_some, PoolMem.getPool, PoolMem.setPool,
        Option.bind_eq_bind, Option.bind_some, hpool, Option.isSome_some, if_true,
        Function.update_self, Function.update_idem] at h
      exact ⟨m', _, rfl, rfl, Function.update_self _ _ _, h⟩

/-- The loop of `pool_get` faults unless all elements are live. -/
theorem live_of_poolGrowLoop {n : ℕ} {i : UInt32} (hpool : s.pools p = some f)
    (h : poolGrowLoop (.addr p) b n i s = some s') :
    ∀ k < n, s.mem.live (slotAddr f b (i + UInt32.ofNat k)) = true := by
  induction n generalizing i s f with
  | zero => exact fun k hk => absurd hk (Nat.not_lt_zero k)
  | succ n ih =>
      obtain ⟨count, s₁, hadd, hloop⟩ := poolGrowLoop_succ_inv hpool h
      obtain ⟨hlive, hsame, hpool₁⟩ := live_of_poolAdd hpool hadd
      have hrest := ih hpool₁ hloop
      rw [hsame] at hrest
      intro k hk
      cases k with
      | zero => simpa using hlive
      | succ k =>
          have hindex : i + UInt32.ofNat (k + 1) = i + 1 + UInt32.ofNat k := by
            rw [UInt32.ofNat_add, UInt32.add_assoc, UInt32.add_comm 1]
            rfl
          rw [hindex]
          exact hrest k (by omega)

theorem live_of_poolGrow (hpool : s.pools p = some f)
    (h : poolGrow (.addr p) b s = some s') :
    ∀ i < f.growsize, s.mem.live (slotAddr f b i) = true := by
  obtain ⟨m', s₁, hadd, rfl, hpool₁, hloop⟩ := poolGrow_inv hpool h
  obtain ⟨-, hsame⟩ := live_of_listAdd hadd
  intro i hi
  have hlive := live_of_poolGrowLoop hpool₁ hloop i.toNat (UInt32.lt_iff_toNat_lt.mp hi)
  rw [UInt32.ofNat_toNat, UInt32.zero_add] at hlive
  rw [← hsame]
  exact hlive

/-- A block that does not hold all elements makes `pool_get` fault. -/
theorem poolGet_outside {malloc : UInt64 → Ptr UInt64} {i : UInt32} (hpool : s.pools p = some f)
    (havail : f.available = 0) (hanswer : malloc (blockSize f) = .addr b) (hi : i < f.growsize)
    (hdead : s.mem.live (slotAddr f b i) = false)
    (hout : ¬ (cell (slotAddr f b i)).Within ⟨b.toNat, (blockSize f).toNat⟩) :
    poolGet malloc (.addr p) s = none := by
  cases hgrow : poolGrow (.addr p) b (s.malloced b (blockSize f)) with
  | none => simp [poolGet, PoolMem.getPool, hpool, havail, hanswer, hgrow]
  | some s₁ =>
      have hlive := live_of_poolGrow (show (s.malloced b _).pools p = some f from hpool) hgrow i hi
      simp [PoolMem.malloced, hdead, hout] at hlive

theorem reachable_create (name : List UInt8) (growsize : UInt32) (eltsize : UInt64)
    (hlimit : 72 ≤ limit) :
    ∃ s, Reachable limit [] name growsize eltsize 4096 ⟨s, []⟩ ∧
      s.pools 4096 = some (newPool name growsize eltsize) ∧ s.regions = [poolRegion 4096] ∧
      ∀ a, ¬ (cell a).Within (poolRegion 4096) → s.mem.live a = false := by
  have hmalloc : blank.Answers limit (mallocAt 4096 sizeofPool) :=
    answers_mallocAt hlimit (by decide) (by decide) fun r hr => absurd hr List.not_mem_nil
  have hp : mallocAt 4096 sizeofPool sizeofPool = .addr 4096 := by simp [mallocAt]
  obtain ⟨m', hrun, -, -, hlive⟩ := @poolCreate_eq blank 4096 _ name growsize eltsize hp (by decide)
  refine ⟨_, .create rfl hmalloc hrun, by simp, rfl, fun a hout => ?_⟩
  show m'.live a = false
  rw [hlive]
  exact decide_eq_false hout

/-- One of two places for a block keeps a given slot away from the pool at 4096. -/
theorem exists_block_apart (i : UInt32) (hsize : (blockSize f).toNat ≤ ptrdiffMax) :
    ∃ b : UInt64, b ≠ 0 ∧ 4096 + 72 ≤ b.toNat ∧ b.toNat + (blockSize f).toNat ≤ 2 ^ 64 ∧
      ¬ (cell (slotAddr f b i)).Within (poolRegion 4096) := by
  unfold ptrdiffMax at hsize
  by_cases hhit : (cell (slotAddr f 8192 i)).Within (poolRegion 4096)
  · refine ⟨16384, by decide, by decide, ?_, ?_⟩
    · simp only [UInt64.reduceToNat]
      omega
    · unfold cell poolRegion Region.Within at hhit ⊢
      rw [slotAddr_mod] at hhit ⊢
      simp only [UInt64.reduceToNat] at hhit ⊢
      omega
  · refine ⟨8192, by decide, by decide, ?_, hhit⟩
    simp only [UInt64.reduceToNat]
    omega

theorem reachable_overflow (name : List UInt8) (growsize : UInt32) (eltsize : UInt64)
    (hover : ¬ NoOverflow (newPool name growsize eltsize))
    (hsize : (blockSize (newPool name growsize eltsize)).toNat ≤ ptrdiffMax) :
    ∃ c malloc, Reachable ptrdiffMax [] name growsize eltsize 4096 c ∧
      c.s.Answers ptrdiffMax malloc ∧ poolGet malloc (.addr 4096) c.s = none := by
  obtain ⟨i, hi, hout⟩ :=
    exists_slot_outside (newPool_eltsize_ge name growsize eltsize) hover hsize
  obtain ⟨s, hreach, hpool, hregions, hdead⟩ :=
    @reachable_create ptrdiffMax name growsize eltsize (by decide)
  obtain ⟨b, hb, hbehind, hfits, hslot⟩ := exists_block_apart i hsize
  have hapart : ∀ r ∈ s.regions,
      Region.Disjoint ⟨b.toNat, (blockSize (newPool name growsize eltsize)).toNat⟩ r := by
    intro r hr
    rw [hregions] at hr
    rw [List.mem_singleton.mp hr]
    exact .inr hbehind
  exact ⟨⟨s, []⟩, mallocAt b _, hreach, answers_mallocAt hsize hb hfits hapart,
    poolGet_outside hpool rfl (by simp [mallocAt]) hi (hdead _ hslot) (hout b hfits)⟩

end Faults

section Starved

theorem poolGet_starved {malloc : UInt64 → Ptr UInt64} (hpool : s.pools p = some f)
    (havail : f.available = 0) (hlimit : limit < (blockSize f).toNat)
    (hmalloc : s.Answers limit malloc) :
    poolGet malloc (.addr p) s = some (.null, { s with errno := enomem }) := by
  rcases hmalloc (blockSize f) with hnull | ⟨hle, -⟩
  · simp [poolGet, PoolMem.getPool, hpool, havail, hnull]
  · omega

/-- A pool whose blocks are larger than what `malloc` gives stays empty. -/
theorem reachable_starved (hlimit : limit < (blockSize (newPool name growsize eltsize)).toNat)
    (hreach : Reachable limit others name growsize eltsize p c) :
    c.s.pools p = some (newPool name growsize eltsize) ∧ c.s.mem.Ring (p + 40) [] ∧
      c.held = [] := by
  induction hreach with
  | @create s s' malloc hothers hmalloc hrun =>
      rcases hmalloc sizeofPool with hnull | ⟨-, a, ha, -, hfits, -⟩
      · simp [poolCreate, hnull] at hrun
      · obtain ⟨m', hrun₁, hring, -, -⟩ := @poolCreate_eq s a malloc name growsize eltsize ha hfits
        rw [hrun] at hrun₁
        obtain ⟨rfl, rfl⟩ : p = a ∧ s' = _ := by simpa using hrun₁
        exact ⟨by simp, hring, rfl⟩
  | @step c c' call hreach hallowed hrun ih =>
      obtain ⟨hpool, hring, hheld⟩ := ih
      cases call with
      | get malloc =>
          have hget := poolGet_starved hpool rfl hlimit hallowed
          simp only [exec, hget, Option.bind_eq_bind, Option.bind_some, Option.some.injEq] at hrun
          subst hrun
          exact ⟨hpool, hring, hheld⟩
      | add elt =>
          -- the client never holds an element
          have helt : elt ∈ c.held := hallowed
          rw [hheld] at helt
          exact absurd helt List.not_mem_nil
      | write contents =>
          simp only [exec, PoolMem.getPool, hpool, Option.bind_eq_bind, Option.bind_some,
            Option.some.injEq] at hrun
          subst hrun
          refine ⟨hpool, hring.congr (fun x hx => hx) fun a _ => ?_, hheld⟩
          have hout : ¬ Overlapped (newPool name growsize eltsize) c.held a := by
            rw [hheld]
            rintro ⟨e, he, -⟩
            exact absurd he List.not_mem_nil
          simp [clientWrite, hout]

end Starved

end Pool
end Brlib
