import Brlib.Pool.Spec

/-!
# Runs of a pool

A client gets elements from a pool, adds them back, and writes whatever it likes to
the elements that it holds.  Every run, from `pool_create` on and for every answer of
a `malloc` that gives at most `limit` bytes, is a run of a last-in first-out allocator,
provided that a block has at least one element and that its size does not overflow
(`reachable_lifo`).  In each of its states the free list is a stack: `pool_get` answers the
element on top, after it has put those of a new block there if there were none, and null if
it cannot, and `pool_add` puts an element there (`pool_lifo`).
-/

namespace Brlib
namespace Pool

open Heap Heap.Mem ListHead Alloc

/-- The memory, and the elements that the client holds. -/
structure Client where
  s : PoolMem
  held : List UInt64

/-- What a client may do: calls, with what `malloc` would answer, and stores. -/
inductive Call where
  | get (malloc : UInt64 → Ptr UInt64)
  | add (elt : UInt64)
  | write (contents : Mem UInt64)

/-- New contents for the list heads that overlap the elements `held`. -/
def clientWrite (f : PoolFields) (held : List UInt64) (contents m : Mem UInt64) : Mem UInt64 where
  live := m.live
  next a := if Overlapped f held a then contents.next a else m.next a
  prev a := if Overlapped f held a then contents.prev a else m.prev a

/-- What a client may do when. -/
def Allowed (limit : ℕ) : Call → Client → Prop
  | .get malloc, c => c.s.Answers limit malloc
  | .add elt, c => elt ∈ c.held
  | .write _, _ => True

/-- A call on the pool at `p`. -/
def exec (p : UInt64) : Call → Client → Option Client
  | .get malloc, c => do
      let (res, s) ← poolGet malloc (.addr p) c.s
      match res with
      | .addr elt => some ⟨s, elt :: c.held⟩
      | _ => some ⟨s, c.held⟩
  | .add elt, c => do
      let (_, s) ← poolAdd (.addr p) (.addr elt) c.s
      some ⟨s, c.held.erase elt⟩
  | .write contents, c => do
      let f ← c.s.getPool (.addr p)
      some ⟨{ c.s with mem := clientWrite f c.held contents c.s.mem }, c.held⟩

/-- What a run leads to that begins with `pool_create`, when the regions `others` are
allocated already. -/
inductive Reachable (limit : ℕ) (others : List Region) (name : List UInt8)
    (growsize : UInt32) (eltsize : UInt64) (p : UInt64) : Client → Prop
  | create {s s' : PoolMem} {malloc : UInt64 → Ptr UInt64} (hothers : s.regions = others)
      (hmalloc : s.Answers limit malloc)
      (hrun : poolCreate malloc name growsize eltsize s = some (.addr p, s')) :
      Reachable limit others name growsize eltsize p ⟨s', []⟩
  | step {c c' : Client} {call : Call} (hreach : Reachable limit others name growsize eltsize p c)
      (hallowed : Allowed limit call c) (hrun : exec p call c = some c') :
      Reachable limit others name growsize eltsize p c'

variable {limit : ℕ} {others : List Region} {name : List UInt8} {growsize : UInt32}
variable {eltsize p : UInt64} {c c' : Client} {call : Call} {f : PoolFields} {blocks : List UInt64}
variable {l : Lifo UInt64}

/-- The pool is the allocator `l`, and the client holds what `l` handed out. -/
structure Tied (c : Client) (p : UInt64) (f : PoolFields) (blocks : List UInt64)
    (l : Lifo UInt64) (others : List Region) : Prop where
  inv : PoolInv c.s p f blocks l others
  held : l.held = c.held

/-- The sizes that `pool_create` fixed. -/
structure SameSizes (f f' : PoolFields) : Prop where
  eltsize : f'.eltsize = f.eltsize
  growsize : f'.growsize = f.growsize

theorem SameSizes.refl (f : PoolFields) : SameSizes f f :=
  ⟨rfl, rfl⟩

theorem SameSizes.trans {f f' f'' : PoolFields} (h : SameSizes f f') (h' : SameSizes f' f'') :
    SameSizes f f'' :=
  ⟨h'.eltsize.trans h.eltsize, h'.growsize.trans h.growsize⟩

section Step

variable {malloc : UInt64 → Ptr UInt64} {s : PoolMem}

theorem PoolInv.setErrno (hinv : PoolInv s p f blocks l others) (errno : Int) :
    PoolInv { s with errno := errno } p f blocks l others :=
  ⟨hinv.pool, hinv.arranged, hinv.regions, hinv.free_ring, hinv.blocks_ring, hinv.slots_eq,
    hinv.live, hinv.sound, hinv.available, hinv.nblocks, hinv.allocated⟩

/-- `pool_get` answers null or the top of the allocator, which may grow before.  The
counter was not zero when it was decremented. -/
theorem poolGet_step (hinv : PoolInv s p f blocks l others) (hgrow : f.growsize ≠ 0)
    (hmalloc : s.Answers limit malloc) :
    ∃ res s' f' blocks' l', poolGet malloc (.addr p) s = some (res, s') ∧
      PoolInv s' p f' blocks' l' others ∧ SameSizes f f' ∧
      Relation.ReflTransGen Lifo.Step l l' ∧
      (res = .null ∧ l'.held = l.held ∨
        ∃ a, res = .addr a ∧ l'.held = a :: l.held ∧ f'.available + 1 ≠ 0) := by
  by_cases havail : f.available = 0
  · rcases hmalloc (blockSize f) with hnull | ⟨-, b, hb, -, hfits, hapart⟩
    · exact ⟨.null, _, f, blocks, l, poolGet_null hinv havail hnull, hinv.setErrno enomem,
        ⟨rfl, rfl⟩, Relation.ReflTransGen.refl, .inl ⟨rfl, rfl⟩⟩
    · obtain ⟨a, A, s', hslots, hrun, hinv', hsound, -⟩ :=
        poolGet_grow hinv havail hgrow hb hfits hapart
      obtain ⟨hnodup, hnew⟩ := hsound.grow_inv
      have hfree : (l.grow (slots f b)).free = a :: (A ++ l.free) := by
        show slots f b ++ l.free = _
        rw [hslots, List.cons_append]
      refine ⟨.addr a, s', _, _, _, hrun, hinv', ⟨rfl, rfl⟩,
        (Relation.ReflTransGen.single (Lifo.Step.grow l _ hnodup hnew)).tail (Lifo.Step.get _),
        .inr ⟨a, rfl, ?_, ?_⟩⟩
      · rw [Lifo.get_cons hfree]
        rfl
      · show f.growsize - 1 + 1 ≠ 0
        rwa [UInt32.sub_add_cancel]
  · obtain ⟨a, A, s', hfree, hrun, hinv', -⟩ := @poolGet_available _ _ _ _ _ _ malloc hinv havail
    refine ⟨.addr a, s', _, blocks, l.get, hrun, hinv', ⟨rfl, rfl⟩,
      Relation.ReflTransGen.single (Lifo.Step.get l), .inr ⟨a, rfl, ?_, ?_⟩⟩
    · rw [Lifo.get_cons hfree]
    · show f.available - 1 + 1 ≠ 0
      rwa [UInt32.sub_add_cancel]

/-- The elements that the client holds are no part of the lists. -/
theorem Tied.write (htied : Tied c p f blocks l others) (contents : Mem UInt64) :
    ∃ c', exec p (.write contents) c = some c' ∧ Tied c' p f blocks l others := by
  obtain ⟨hinv, hheld⟩ := htied
  refine ⟨⟨{ c.s with mem := clientWrite f c.held contents c.s.mem }, c.held⟩, ?_,
    ⟨hinv.overwrite rfl fun a hout => ?_, hheld⟩⟩
  · simp [exec, PoolMem.getPool, hinv.pool]
  · rw [hheld] at hout
    simp [clientWrite, hout]

/-- A call of the client does not fault, and is a run of the allocator. -/
theorem exec_step (htied : Tied c p f blocks l others) (hgrow : f.growsize ≠ 0)
    (hallowed : Allowed limit call c) :
    ∃ c' f' blocks' l', exec p call c = some c' ∧ Tied c' p f' blocks' l' others ∧
      SameSizes f f' ∧ Relation.ReflTransGen Lifo.Step l l' := by
  have hinv := htied.inv
  have hheld := htied.held
  cases call with
  | get malloc =>
      obtain ⟨res, s', f', blocks', l', hrun, hinv', hsizes, hsteps, hres⟩ :=
        poolGet_step hinv hgrow hallowed
      rcases hres with ⟨rfl, hheld'⟩ | ⟨a, rfl, hheld', -⟩
      · exact ⟨⟨s', c.held⟩, f', blocks', l', by simp [exec, hrun], ⟨hinv', hheld'.trans hheld⟩,
          hsizes, hsteps⟩
      · exact ⟨⟨s', a :: c.held⟩, f', blocks', l', by simp [exec, hrun],
          ⟨hinv', by rw [hheld', hheld]⟩, hsizes, hsteps⟩
  | add elt =>
      have helt : elt ∈ l.held := hheld.symm ▸ hallowed
      obtain ⟨s', hrun, hinv', -⟩ := poolAdd_spec hinv helt
      refine ⟨⟨s', c.held.erase elt⟩, _, blocks, l.add elt, by simp [exec, hrun], ⟨hinv', ?_⟩,
        ⟨rfl, rfl⟩, Relation.ReflTransGen.single (Lifo.Step.add l elt helt)⟩
      show l.held.erase elt = c.held.erase elt
      rw [hheld]
  | write contents =>
      obtain ⟨c', hrun, htied'⟩ := htied.write contents
      exact ⟨c', f, blocks, l, hrun, htied', ⟨rfl, rfl⟩, Relation.ReflTransGen.refl⟩

theorem reachable_lifo (hno : 16 + max eltsize.toNat 16 * growsize.toNat < 2 ^ 64)
    (hgrow : growsize ≠ 0) (hreach : Reachable limit others name growsize eltsize p c) :
    ∃ f blocks l, Tied c p f blocks l others ∧ SameSizes (newPool name growsize eltsize) f ∧
      Relation.ReflTransGen Lifo.Step Lifo.empty l := by
  induction hreach with
  | @create s s' malloc hothers hmalloc hrun =>
      have hsize := (newPool_noOverflow_iff name growsize eltsize).mpr hno
      rcases hmalloc sizeofPool with hnull | ⟨-, a, ha, -, hfits, -⟩
      · simp [poolCreate, hnull] at hrun
      · obtain ⟨s₁, hrun₁, hinv⟩ := poolCreate_spec ha hfits hsize
        rw [hrun] at hrun₁
        obtain ⟨rfl, rfl⟩ : p = a ∧ s' = s₁ := by simpa using hrun₁
        exact ⟨_, [], Lifo.empty, ⟨hothers ▸ hinv, rfl⟩, ⟨rfl, rfl⟩, Relation.ReflTransGen.refl⟩
  | step hreach hallowed hrun ih =>
      obtain ⟨f, blocks, l, htied, hsizes, hsteps⟩ := ih
      have hgrow' : f.growsize ≠ 0 := by
        rw [hsizes.growsize]
        exact hgrow
      obtain ⟨c₁, f', blocks', l', hexec, htied', hsizes', hsteps'⟩ :=
        exec_step htied hgrow' hallowed
      rw [hrun] at hexec
      obtain rfl := Option.some.inj hexec
      exact ⟨f', blocks', l', htied', hsizes.trans hsizes', hsteps.trans hsteps'⟩

end Step

section Theorems

/-- What holds of a pool and its client in every state of a run: `list_available` is
`free` and `list_blocks` is `blocks`. -/
structure LifoPool (limit : ℕ) (c : Client) (p : UInt64) (growsize : UInt32) (eltsize : UInt64)
    (f : PoolFields) (blocks free : List UInt64) (others : List Region) : Prop where
  pool : c.s.pools p = some f
  sizes : f.growsize = growsize ∧ f.eltsize.toNat = max eltsize.toNat 16
  /-- The free list is well formed and lists no element twice. -/
  free_ring : c.s.mem.Ring (p + 40) free
  /-- The blocks are all that was allocated, and their elements are apart. -/
  blocks_ring : c.s.mem.Ring (p + 56) blocks
  regions : c.s.regions = blocks.map (blockRegion f) ++ poolRegion p :: others
  nodup : (blocks.flatMap (slots f)).Nodup
  apart : ∀ a ∈ blocks.flatMap (slots f), ∀ a' ∈ blocks.flatMap (slots f), a ≠ a' →
    (elem f a).Disjoint (elem f a')
  /-- Each element is either free or held. -/
  partition : (free ++ c.held).Perm (blocks.flatMap (slots f))
  /-- The counters. -/
  available : f.available = UInt32.ofNat free.length
  allocated : f.allocated = f.nblocks * growsize
  nblocks : f.nblocks = UInt32.ofNat blocks.length
  /-- While the counter is not zero, `pool_get` answers the element that came last. -/
  get_top : f.available ≠ 0 → ∀ malloc, ∃ a rest s', free = a :: rest ∧
    poolGet malloc (.addr p) c.s = some (.addr a, s') ∧
      s'.mem.Ring (p + 40) rest ∧ s'.mem.Ring (p + 56) blocks
  /-- Otherwise it answers null and changes `errno` only, if there is no memory. -/
  get_null : f.available = 0 → ∀ malloc, malloc (blockSize f) = .null →
    poolGet malloc (.addr p) c.s = some (.null, { c.s with errno := enomem })
  /-- If there is, the elements of a new block go on top, and it answers the first of them. -/
  get_grow : f.available = 0 → ∀ malloc b, c.s.Answers limit malloc →
    malloc (blockSize f) = .addr b → ∃ a rest s', slots f b = a :: rest ∧
      poolGet malloc (.addr p) c.s = some (.addr a, s') ∧
        s'.mem.Ring (p + 40) (rest ++ free) ∧ s'.mem.Ring (p + 56) (b :: blocks)
  /-- A new element is one that the client does not hold. -/
  get_new : ∀ malloc a s', c.s.Answers limit malloc →
    poolGet malloc (.addr p) c.s = some (.addr a, s') → a ∉ c.held ∧
      ∃ blocks', s'.mem.Ring (p + 56) blocks' ∧ a ∈ blocks'.flatMap (slots f)
  /-- An element that comes back goes on top. -/
  add : ∀ a ∈ c.held, ∃ s', poolAdd (.addr p) (.addr a) c.s = some (f.available + 1, s') ∧
    s'.mem.Ring (p + 40) (a :: free) ∧ s'.mem.Ring (p + 56) blocks
  /-- What the client writes does not reach the lists. -/
  write : ∀ contents, ∃ c', exec p (.write contents) c = some c' ∧
    c'.s.mem.Ring (p + 40) free ∧ c'.s.mem.Ring (p + 56) blocks
  /-- No call faults. -/
  total : ∀ call, Allowed limit call c → ∃ c', exec p call c = some c'

theorem SameSizes.slots_eq {f' : PoolFields} (h : SameSizes f f') : slots f' = slots f := by
  ext1 b
  unfold slots slotAddr
  rw [h.eltsize, h.growsize]

section State

variable {malloc : UInt64 → Ptr UInt64}

/-- `pool_get` pops the free list. -/
theorem Tied.get_top (htied : Tied c p f blocks l others) (havail : f.available ≠ 0) :
    ∃ a rest s', l.free = a :: rest ∧ poolGet malloc (.addr p) c.s = some (.addr a, s') ∧
      s'.mem.Ring (p + 40) rest ∧ s'.mem.Ring (p + 56) blocks := by
  obtain ⟨a, rest, s', hfree, hrun, hinv', -⟩ :=
    @poolGet_available _ _ _ _ _ _ malloc htied.inv havail
  have hring := hinv'.free_ring
  rw [Lifo.get_cons hfree] at hring
  exact ⟨a, rest, s', hfree, hrun, hring, hinv'.blocks_ring⟩

/-- `pool_get` pushes the elements of a new block, and pops one. -/
theorem Tied.get_grow {b : UInt64} (htied : Tied c p f blocks l others) (havail : f.available = 0)
    (hgrow : f.growsize ≠ 0) (hmalloc : c.s.Answers limit malloc)
    (hb : malloc (blockSize f) = .addr b) :
    ∃ a rest s', slots f b = a :: rest ∧ poolGet malloc (.addr p) c.s = some (.addr a, s') ∧
      s'.mem.Ring (p + 40) (rest ++ l.free) ∧ s'.mem.Ring (p + 56) (b :: blocks) := by
  rcases hmalloc (blockSize f) with hnull | ⟨-, b', hb', -, hfits, hapart⟩
  · rw [hb] at hnull
    exact absurd hnull (by simp)
  · obtain rfl : b = b' := Ptr.addr.inj (hb.symm.trans hb')
    obtain ⟨a, rest, s', hslots, hrun, hinv', -, -⟩ :=
      poolGet_grow htied.inv havail hgrow hb hfits hapart
    have hfree : (l.grow (slots f b)).free = a :: (rest ++ l.free) := by
      show slots f b ++ l.free = _
      rw [hslots, List.cons_append]
    have hring := hinv'.free_ring
    rw [Lifo.get_cons hfree] at hring
    exact ⟨a, rest, s', hslots, hrun, hring, hinv'.blocks_ring⟩

/-- What `pool_get` answers is not held, and is an element of the pool. -/
theorem Tied.get_new {s' : PoolMem} {a : UInt64} (htied : Tied c p f blocks l others)
    (hgrow : f.growsize ≠ 0) (hmalloc : c.s.Answers limit malloc)
    (hrun : poolGet malloc (.addr p) c.s = some (.addr a, s')) :
    a ∉ c.held ∧ ∃ blocks', s'.mem.Ring (p + 56) blocks' ∧ a ∈ blocks'.flatMap (slots f) := by
  obtain ⟨res, s₁, f', blocks', l', hrun₁, hinv', hsizes, -, hres⟩ :=
    poolGet_step htied.inv hgrow hmalloc
  rw [hrun] at hrun₁
  obtain ⟨rfl, rfl⟩ := Prod.mk.inj (Option.some.inj hrun₁)
  rcases hres with ⟨hnull, -⟩ | ⟨a', ha, hheld, -⟩
  · exact absurd hnull (by simp)
  · obtain rfl := Ptr.addr.inj ha
    have hnodup : (l'.free ++ a :: l.held).Nodup := hheld ▸ hinv'.sound.nodup_free_held
    have ha_held : a ∈ l'.held := hheld ▸ List.mem_cons_self
    refine ⟨?_, blocks', hinv'.blocks_ring, ?_⟩
    · rw [← htied.held]
      exact (List.nodup_cons.mp (List.nodup_append.mp hnodup).2.1).1
    · rw [← hsizes.slots_eq]
      exact hinv'.mem_slots_iff.mpr (.inr ha_held)

/-- `pool_add` pushes onto the free list. -/
theorem Tied.add {a : UInt64} (htied : Tied c p f blocks l others) (ha : a ∈ c.held) :
    ∃ s', poolAdd (.addr p) (.addr a) c.s = some (f.available + 1, s') ∧
      s'.mem.Ring (p + 40) (a :: l.free) ∧ s'.mem.Ring (p + 56) blocks := by
  rw [← htied.held] at ha
  obtain ⟨s', hrun, hinv', -⟩ := poolAdd_spec htied.inv ha
  exact ⟨s', hrun, hinv'.free_ring, hinv'.blocks_ring⟩

end State

/-- In every run of a pool with a block size that does not overflow, the free elements
and the held ones partition the elements of all blocks, the counters are right modulo
`2 ^ 32`, and the pool hands out the element that came back last. -/
theorem pool_lifo (hno : 16 + max eltsize.toNat 16 * growsize.toNat < 2 ^ 64)
    (hgrow : growsize ≠ 0) (hreach : Reachable limit others name growsize eltsize p c) :
    ∃ f blocks free, LifoPool limit c p growsize eltsize f blocks free others := by
  obtain ⟨f, blocks, l, htied, hsizes, hsteps⟩ := reachable_lifo hno hgrow hreach
  have hinv := htied.inv
  have hgrow' : f.growsize ≠ 0 := by
    rw [hsizes.growsize]
    exact hgrow
  have hsound : l.Sound := Lifo.sound_of_run hsteps
  refine ⟨f, blocks, l.free, ?_⟩
  constructor
  case pool => exact hinv.pool
  case sizes =>
    refine ⟨hsizes.growsize, ?_⟩
    rw [hsizes.eltsize]
    exact newPool_eltsize name growsize eltsize
  case free_ring => exact hinv.free_ring
  case blocks_ring => exact hinv.blocks_ring
  case regions => exact hinv.regions
  case nodup =>
    rw [← hinv.slots_eq]
    exact hsound.nodup
  case apart => exact fun a ha a' ha' hne => hinv.arranged.elem_disjoint ha ha' hne
  case partition =>
    rw [← hinv.slots_eq, ← htied.held]
    exact hsound.partition
  case available => exact hinv.available
  case allocated =>
    rw [hinv.allocated, hsizes.growsize]
    rfl
  case nblocks => exact hinv.nblocks
  case get_top => exact fun havail malloc => htied.get_top havail
  case get_null => exact fun havail malloc hnull => poolGet_null hinv havail hnull
  case get_grow => exact fun havail malloc b hmalloc hb => htied.get_grow havail hgrow' hmalloc hb
  case get_new => exact fun malloc a s' hmalloc hrun => htied.get_new hgrow' hmalloc hrun
  case add => exact fun a ha => htied.add ha
  case write =>
    intro contents
    obtain ⟨c', hrun, htied'⟩ := htied.write contents
    exact ⟨c', hrun, htied'.inv.free_ring, htied'.inv.blocks_ring⟩
  case total =>
    intro call hcall
    obtain ⟨c', -, -, -, hexec, -⟩ := exec_step htied hgrow' hcall
    exact ⟨c', hexec⟩

/-- The `malloc` that has one block to give, of the given size. -/
def mallocAt (a size : UInt64) : UInt64 → Ptr UInt64 :=
  fun size' => if size' = size then .addr a else .null

theorem answers_mallocAt {s : PoolMem} {a size : UInt64} (hsize : size.toNat ≤ limit)
    (ha : a ≠ 0) (hfits : a.toNat + size.toNat ≤ 2 ^ 64)
    (hapart : ∀ r ∈ s.regions, Region.Disjoint ⟨a.toNat, size.toNat⟩ r) :
    s.Answers limit (mallocAt a size) := by
  intro size'
  unfold mallocAt
  split
  · rename_i heq
    subst heq
    exact .inr ⟨hsize, a, rfl, ha, hfits, hapart⟩
  · exact .inl rfl

/-- A memory without any region. -/
def blank : PoolMem where
  mem := { live := fun _ => false, next := fun _ => .null, prev := fun _ => .null }
  pools _ := none
  regions := []
  errno := 0

theorem reachable_blank (name : List UInt8) (growsize : UInt32) (eltsize : UInt64)
    (hlimit : 72 ≤ limit) (hno : NoOverflow (newPool name growsize eltsize)) :
    ∃ s, Reachable limit [] name growsize eltsize 4096 ⟨s, []⟩ ∧
      PoolInv s 4096 (newPool name growsize eltsize) [] Lifo.empty [] := by
  have hmalloc : blank.Answers limit (mallocAt 4096 sizeofPool) :=
    answers_mallocAt hlimit (by decide) (by decide) fun r hr => absurd hr List.not_mem_nil
  have hp : mallocAt 4096 sizeofPool sizeofPool = .addr 4096 := by simp [mallocAt]
  obtain ⟨s, hrun, hinv⟩ := @poolCreate_spec blank _ _ name growsize eltsize hp (by decide) hno
  exact ⟨s, .create rfl hmalloc hrun, hinv⟩

/-- The calls of a client on the pool at `p`, the last one first. -/
def runCalls (p : UInt64) (start : Option Client) : List Call → Option Client
  | [] => start
  | call :: hist => (runCalls p start hist).bind (exec p call)

/-- Every call is allowed when it is made. -/
def AllowedRun (limit : ℕ) (p : UInt64) (start : Option Client) : List Call → Prop
  | [] => True
  | call :: hist => AllowedRun limit p start hist ∧
      ∀ c, runCalls p start hist = some c → Allowed limit call c

theorem reachable_runCalls {start : Option Client} {hist : List Call}
    (hstart : ∀ c, start = some c → Reachable limit others name growsize eltsize p c)
    (hallowed : AllowedRun limit p start hist) (hrun : runCalls p start hist = some c) :
    Reachable limit others name growsize eltsize p c := by
  induction hist generalizing c with
  | nil => exact hstart c hrun
  | cons call hist ih =>
      obtain ⟨c₁, hrun₁, hexec⟩ := Option.bind_eq_some_iff.mp hrun
      exact .step (ih hallowed.1 hrun₁) (hallowed.2 c₁ hrun₁) hexec

theorem answers_of_regions {σ : Type} {x : Option σ} (mem : σ → PoolMem) {regions : List Region}
    {a size : UInt64} (hregions : x.map (fun w => (mem w).regions) = some regions)
    (hroom : size.toNat ≤ limit ∧ a ≠ 0 ∧ a.toNat + size.toNat ≤ 2 ^ 64 ∧
      ∀ r ∈ regions, Region.Disjoint ⟨a.toNat, size.toNat⟩ r) :
    ∀ w, x = some w → (mem w).Answers limit (mallocAt a size) := by
  rintro w rfl
  obtain rfl : (mem w).regions = regions := Option.some.inj hregions
  obtain ⟨hsize, ha, hfits, hapart⟩ := hroom
  exact answers_mallocAt hsize ha hfits hapart

/-- The `malloc` that always fails. -/
def noMemory : UInt64 → Ptr UInt64 :=
  fun _ => .null

theorem answers_noMemory {s : PoolMem} : s.Answers limit noMemory :=
  fun _ => .inl rfl

/-- A new pool with two elements a block. -/
def samplePool : Option Client :=
  (poolCreate (mallocAt 4096 sizeofPool) [112] 2 24 blank).map fun x => ⟨x.2, []⟩

/-- Two blocks, a call without memory between them, a write to two elements and one element
that comes back. -/
def sampleCalls : List Call :=
  [.add 8232, .get (mallocAt 12288 64), .get noMemory, .write
    { live := fun _ => false, next := fun _ => .junk 0, prev := fun _ => .null },
    .get noMemory, .get (mallocAt 8192 64)]

theorem pool_lifo_sample :
    ∃ c f blocks free, runCalls 4096 samplePool sampleCalls = some c ∧
      LifoPool (2 ^ 64) c 4096 2 24 f blocks free [] ∧ c.held = [12328, 8208] ∧
      blocks.length = 2 ∧ free.length = 2 := by
  obtain ⟨c, hrun⟩ : ∃ c, runCalls 4096 samplePool sampleCalls = some c := ⟨_, rfl⟩
  have hstart : ∀ c, samplePool = some c → Reachable (2 ^ 64) [] [112] 2 24 4096 c := by
    intro c hc
    obtain ⟨⟨p, s⟩, hcreate, rfl⟩ := Option.map_eq_some_iff.mp hc
    obtain rfl : p = .addr 4096 :=
      (Prod.mk.inj (Option.some.inj hcreate)).1.symm
    exact .create rfl (answers_mallocAt (by decide) (by decide) (by decide)
      fun r hr => absurd hr List.not_mem_nil) hcreate
  have hallowed : AllowedRun (2 ^ 64) 4096 samplePool sampleCalls := by
    refine ⟨⟨⟨⟨⟨⟨trivial, ?_⟩, fun c _ => answers_noMemory⟩, fun c _ => trivial⟩,
      fun c _ => answers_noMemory⟩, ?_⟩, ?_⟩
    · exact answers_of_regions Client.s rfl (by decide)
    · exact answers_of_regions Client.s rfl (by decide)
    · intro c hc
      have hheld : (runCalls 4096 samplePool (sampleCalls.drop 1)).map (·.held) =
          some [12328, 8208, 8232] := rfl
      rw [show runCalls 4096 samplePool (sampleCalls.drop 1) = some c from hc] at hheld
      have heq : c.held = [12328, 8208, 8232] := Option.some.inj hheld
      show 8232 ∈ c.held
      rw [heq]
      decide
  obtain ⟨f, blocks, free, hpool⟩ :=
    pool_lifo (by decide) (by decide) (reachable_runCalls hstart hallowed hrun)
  have hheld : (runCalls 4096 samplePool sampleCalls).map (·.held) = some [12328, 8208] := rfl
  have hregions : (runCalls 4096 samplePool sampleCalls).map (·.s.regions.length) = some 3 := rfl
  rw [hrun] at hheld hregions
  have hheld : c.held = [12328, 8208] := Option.some.inj hheld
  have hregions : c.s.regions.length = 3 := Option.some.inj hregions
  have hblocks : blocks.length = 2 := by
    rw [hpool.regions] at hregions
    simpa using hregions
  have hslots : (blocks.flatMap (slots f)).length = 4 := by
    have hlength : ∀ b, (slots f b).length = 2 := fun b => by
      rw [length_slots, hpool.sizes.1]
      rfl
    simp [List.length_flatMap, hlength, hblocks]
  have hfree := hpool.partition.length_eq
  rw [List.length_append, hheld, hslots] at hfree
  exact ⟨c, f, blocks, free, hrun, hpool, hheld, hblocks, by simpa using hfree⟩

/-- With one element in a block and none free, `pool_get` takes a new block. -/
theorem reachable_single {b : UInt64} (hreach : Reachable limit others name growsize eltsize p c)
    (htied : Tied c p f blocks l others) (hgrow : f.growsize = 1) (hfree : l.free = [])
    (hb : b ≠ 0) (hlimit : (blockSize f).toNat ≤ limit)
    (hfits : b.toNat + (blockSize f).toNat ≤ 2 ^ 64)
    (hapart : ∀ r ∈ c.s.regions, (blockRegion f b).Disjoint r) :
    ∃ c' f' l', Reachable limit others name growsize eltsize p c' ∧
      Tied c' p f' (b :: blocks) l' others ∧ SameSizes f f' ∧ l'.free = [] := by
  obtain ⟨hinv, hheld⟩ := htied
  have hmalloc : c.s.Answers limit (mallocAt b (blockSize f)) :=
    answers_mallocAt hlimit hb hfits hapart
  have havail : f.available = 0 := by
    rw [hinv.available, hfree]
    rfl
  have hanswer : mallocAt b (blockSize f) (blockSize f) = .addr b := by simp [mallocAt]
  obtain ⟨a, A, s', hslots, hrun, hinv', -, -⟩ :=
    poolGet_grow hinv havail (by rw [hgrow]; decide) hanswer hfits hapart
  have hA : A = [] := by
    have hlength := @length_slots f b
    rw [hslots, hgrow, List.length_cons] at hlength
    exact List.length_eq_zero_iff.mp (Nat.succ.inj hlength)
  have hget : (l.grow (slots f b)).get = ⟨slots f b ++ l.slots, [], a :: l.held⟩ := by
    refine Lifo.get_cons ?_
    show slots f b ++ l.free = _
    rw [hslots, hA, hfree]
    rfl
  rw [hget] at hinv'
  refine ⟨⟨s', a :: c.held⟩, _, _, .step hreach (show Allowed limit (.get _) c from hmalloc) ?_,
    ⟨hinv', ?_⟩, ⟨rfl, rfl⟩, rfl⟩
  · rw [exec, hrun]
    rfl
  · rw [hheld]

theorem reachable_blocks {n : ℕ} (hn : n ≤ 2 ^ 32) :
    ∃ c f blocks l, Reachable (2 ^ 64) [] [112] 1 16 4096 c ∧ Tied c 4096 f blocks l [] ∧
      SameSizes (newPool [112] 1 16) f ∧ l.free = [] ∧ blocks.length = n ∧
      ∀ b ∈ blocks, 8192 ≤ b.toNat ∧ b.toNat + 32 ≤ 8192 + 32 * n := by
  induction n with
  | zero =>
      obtain ⟨s, hreach, hinv⟩ := @reachable_blank (2 ^ 64) [112] 1 16 (by decide) (by decide)
      exact ⟨⟨s, []⟩, _, [], _, hreach, ⟨hinv, rfl⟩, ⟨rfl, rfl⟩, rfl, rfl, by simp⟩
  | succ n ih =>
      obtain ⟨c, f, blocks, l, hreach, htied, hsizes, hfree, hlen, hblocks⟩ := ih (by omega)
      have hsize : (blockSize f).toNat = 32 := by
        unfold blockSize
        rw [hsizes.eltsize, hsizes.growsize]
        decide
      -- the next block goes behind the others
      have hb : (UInt64.ofNat (8192 + 32 * n)).toNat = 8192 + 32 * n := by
        rw [UInt64.toNat_ofNat', Nat.mod_eq_of_lt (by omega)]
      generalize UInt64.ofNat (8192 + 32 * n) = b at hb
      have hapart : ∀ r ∈ c.s.regions, (blockRegion f b).Disjoint r := by
        intro r hr
        unfold blockRegion Region.Disjoint
        rw [hb, hsize]
        rw [htied.inv.regions] at hr
        rcases List.mem_append.mp hr with hr | hr
        · obtain ⟨b', hb', rfl⟩ := List.mem_map.mp hr
          right
          unfold blockRegion
          rw [hsize]
          exact (hblocks b' hb').2
        · rw [List.mem_singleton.mp hr]
          right
          show 4096 + 72 ≤ 8192 + 32 * n
          omega
      have hne : b ≠ 0 := fun heq => by
        rw [heq] at hb
        have hzero : (0 : UInt64).toNat = 0 := rfl
        omega
      obtain ⟨c', f', l', hreach', htied', hsizes', hfree'⟩ :=
        reachable_single hreach htied hsizes.growsize hfree hne (by omega) (by omega) hapart
      refine ⟨c', f', b :: blocks, l', hreach', htied', ⟨hsizes'.eltsize.trans hsizes.eltsize,
        hsizes'.growsize.trans hsizes.growsize⟩, hfree', by rw [List.length_cons, hlen], ?_⟩
      refine List.forall_mem_cons.mpr ⟨by omega, fun b' hb' => ?_⟩
      have hbound := hblocks b' hb'
      omega

/-- After `2 ^ 32` blocks the counter `nblocks` is zero. -/
theorem nblocks_wraps :
    ∃ c f blocks, Reachable (2 ^ 64) [] [112] 1 16 4096 c ∧
      16 + max (16 : UInt64).toNat 16 * (1 : UInt32).toNat < 2 ^ 64 ∧
      c.s.pools 4096 = some f ∧ c.s.mem.Ring (4096 + 56) blocks ∧ blocks.length = 2 ^ 32 ∧
      f.nblocks.toNat = 0 := by
  obtain ⟨c, f, blocks, l, hreach, ⟨hinv, -⟩, -, -, hlen, -⟩ := reachable_blocks (le_refl (2 ^ 32))
  refine ⟨c, f, blocks, hreach, by decide, hinv.pool, hinv.blocks_ring, hlen, ?_⟩
  rw [hinv.nblocks, hlen, UInt32.toNat_ofNat']
  exact Nat.mod_self _

end Theorems

end Pool
end Brlib
