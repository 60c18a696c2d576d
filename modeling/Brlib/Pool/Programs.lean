import Brlib.Alloc.Ledger
import Brlib.Pool.Frame

/-!
# Programs with many pools

A program creates pools, gets elements and adds them back, writes to the elements that it
holds and destroys pools, in any order.  Each pool has its own regions (`Coexist.ledger`), and
a call on one pool does not reach the others (`Kept`).  So elements in use never overlap, from
whichever pools they are, no call faults, and the regions of a pool are all given back when it
is destroyed (`pools_isolated`).
-/

namespace Brlib
namespace Pool

open Heap Heap.Mem ListHead Alloc

/-- The memory, the pools that were created and not destroyed, and the elements that are held
from each of them. -/
structure Program where
  s : PoolMem
  opened : List UInt64
  held : UInt64 → List UInt64

/-- What a program may request, with what `malloc` would answer. -/
inductive Request where
  | create (malloc : UInt64 → Ptr UInt64) (name : List UInt8) (growsize : UInt32)
      (eltsize : UInt64)
  | get (p : UInt64) (malloc : UInt64 → Ptr UInt64)
  | add (p elt : UInt64)
  | write (contents : Mem UInt64)
  | destroy (p : UInt64)

namespace Program

/-- An element that is held from some pool has a byte in the list head at `a`. -/
def overlapped (w : Program) (a : UInt64) : Bool :=
  w.opened.any fun p => (w.s.pools p).any fun f => decide (Overlapped f (w.held p) a)

/-- New contents for the list heads that overlap the elements held. -/
def store (w : Program) (contents : Mem UInt64) : Mem UInt64 where
  live := w.s.mem.live
  next a := if w.overlapped a then contents.next a else w.s.mem.next a
  prev a := if w.overlapped a then contents.prev a else w.s.mem.prev a

def exec : Request → Program → Option Program
  | .create malloc name growsize eltsize, w => do
      let (res, s) ← poolCreate malloc name growsize eltsize w.s
      match res with
      | .addr p => some ⟨s, p :: w.opened, Function.update w.held p []⟩
      | _ => some { w with s }
  | .get p malloc, w => do
      let (res, s) ← poolGet malloc (.addr p) w.s
      match res with
      | .addr a => some { w with s, held := Function.update w.held p (a :: w.held p) }
      | _ => some { w with s }
  | .add p elt, w => do
      let (_, s) ← poolAdd (.addr p) (.addr elt) w.s
      some { w with s, held := Function.update w.held p ((w.held p).erase elt) }
  | .write contents, w => some { w with s := { w.s with mem := w.store contents } }
  | .destroy p, w => do
      let (_, s) ← poolDestroy w.s.regions.length (.addr p) w.s
      some { w with s, opened := w.opened.erase p }

/-- What a program may request when: the blocks of a pool hold their elements, and only what is
held is given back. -/
def Allowed (limit : ℕ) : Request → Program → Prop
  | .create malloc _ growsize eltsize, w => w.s.Answers limit malloc ∧ growsize ≠ 0 ∧
      16 + max eltsize.toNat 16 * growsize.toNat < 2 ^ 64
  | .get p malloc, w => p ∈ w.opened ∧ w.s.Answers limit malloc
  | .add p elt, w => p ∈ w.opened ∧ elt ∈ w.held p
  | .write _, _ => True
  | .destroy p, w => p ∈ w.opened

/-- What a program leads to that begins without pools, when the regions `others` are allocated
already. -/
inductive Reached (limit : ℕ) (others : List Region) : Program → Prop
  | start {s : PoolMem} {held : UInt64 → List UInt64} (hothers : s.regions = others) :
      Reached limit others ⟨s, [], held⟩
  | step {w w' : Program} {request : Request} (hreach : Reached limit others w)
      (hallowed : Allowed limit request w) (hrun : exec request w = some w') :
      Reached limit others w'

end Program

/-- What a pool is at some time. -/
structure View where
  f : PoolFields
  blocks : List UInt64
  l : Lifo UInt64

/-- The regions of the pool at `p`. -/
def View.owned (v : View) (p : UInt64) : List Region :=
  Pool.owned v.f p v.blocks

/-- The pools of a program side by side. -/
structure Coexist (w : Program) (others : List Region) (view : UInt64 → View) : Prop where
  ledger : Ledger w.s.regions w.opened (fun p => (view p).owned p) others
  pool : ∀ p ∈ w.opened, PoolInv (w.s.withRegions ((view p).owned p)) p (view p).f
    (view p).blocks (view p).l []
  held : ∀ p ∈ w.opened, (view p).l.held = w.held p
  grow : ∀ p ∈ w.opened, (view p).f.growsize ≠ 0

variable {limit : ℕ} {others : List Region} {w w' : Program} {view : UInt64 → View} {v : View}
variable {s s' : PoolMem} {p q a : UInt64} {f : PoolFields} {blocks : List UInt64}
variable {l : Lifo UInt64} {malloc : UInt64 → Ptr UInt64} {request : Request}

section Changes

theorem Arranged.sized (h : Arranged f p blocks) : ∀ r ∈ owned f p blocks, 0 < r.size := by
  intro r hr
  rcases List.mem_append.mp hr with hr | hr
  · obtain ⟨b, -, rfl⟩ := List.mem_map.mp hr
    show 0 < (blockSize f).toNat
    rw [blockSize_exact_iff.mpr h.noOverflow]
    omega
  · rw [List.mem_singleton.mp hr]
    exact Nat.succ_pos 71

theorem PoolInv.alone (hinv : PoolInv s p f blocks l others) :
    PoolInv (s.withRegions (owned f p blocks)) p f blocks l [] :=
  ⟨hinv.pool, hinv.arranged, rfl, hinv.free_ring, hinv.blocks_ring, hinv.slots_eq, hinv.live,
    hinv.sound, hinv.available, hinv.nblocks, hinv.allocated⟩

theorem owned_update : (fun q => (Function.update view p v q).owned q) =
    Function.update (fun q => (view q).owned q) p (v.owned p) := by
  ext1 q
  by_cases hq : q = p
  · subst hq
    simp
  · simp [Function.update_of_ne hq]

/-- A call on one pool leaves the others as they are. -/
theorem Coexist.change (h : Coexist w others view)
    (hledger : Ledger s'.regions w.opened
      (Function.update (fun q => (view q).owned q) p (v.owned p)) others)
    (hkept : Kept (v.owned p) w.s s')
    (hinv : PoolInv (s'.withRegions (v.owned p)) p v.f v.blocks v.l [])
    (hgrow : v.f.growsize ≠ 0) (hp : p ∈ w.opened) :
    Coexist ⟨s', w.opened, Function.update w.held p v.l.held⟩ others
      (Function.update view p v) := by
  constructor
  · rw [owned_update]
    exact hledger
  · intro q hq
    by_cases hqp : q = p
    · subst hqp
      simpa using hinv
    · have hapart : ∀ r ∈ (view q).owned q, ∀ r' ∈ v.owned p, r.Disjoint r' := by
        intro r hr r' hr'
        apply hledger.disjoint hq hp hqp
        · rwa [Function.update_of_ne hqp]
        · rwa [Function.update_self]
      have hpool : PoolInv (s'.withRegions ((view q).owned q)) q (view q).f (view q).blocks
          (view q).l [] := (h.pool q hq).kept hkept hapart
      rwa [Function.update_of_ne hqp]
  · intro q hq
    by_cases hqp : q = p
    · subst hqp
      simp
    · simpa [Function.update_of_ne hqp] using h.held q hq
  · intro q hq
    by_cases hqp : q = p
    · subst hqp
      simpa using hgrow
    · simpa [Function.update_of_ne hqp] using h.grow q hq

theorem Coexist.allocate (h : Coexist w others view) (hp : p ∈ w.opened) {new : List Region}
    (hmalloc : w.s.Answers limit malloc)
    (hnew : new = [] ∨ ∃ size b, malloc size = .addr b ∧ new = [⟨b.toNat, size.toNat⟩])
    (howned : v.owned p = new ++ (view p).owned p) (hsized : ∀ r ∈ v.owned p, 0 < r.size) :
    Ledger (new ++ w.s.regions) w.opened
      (Function.update (fun q => (view q).owned q) p (v.owned p)) others := by
  rcases hnew with rfl | ⟨size, b, hb, rfl⟩
  · rw [howned, List.nil_append, List.nil_append, Function.update_eq_self_iff.mpr rfl]
    exact h.ledger
  · rw [howned] at hsized ⊢
    refine h.ledger.allocate hp (hsized _ List.mem_cons_self) fun r hr => ?_
    rcases hmalloc size with hnull | ⟨-, a, ha, -, -, hapart⟩
    · rw [hb] at hnull
      exact absurd hnull (by simp)
    · rw [hb] at ha
      obtain rfl := Ptr.addr.inj ha
      exact hapart r hr

/-- What `malloc` promises also holds of a pool by itself. -/
theorem Coexist.answers (h : Coexist w others view) (hp : p ∈ w.opened)
    (hmalloc : w.s.Answers limit malloc) :
    (w.s.withRegions ((view p).owned p)).Answers limit malloc := by
  intro size
  rcases hmalloc size with hnull | ⟨hlimit, a, ha, hne, hfits, hapart⟩
  · exact .inl hnull
  · exact .inr ⟨hlimit, a, ha, hne, hfits, fun r hr => hapart r (h.ledger.mem_regions hp hr)⟩

end Changes

section Requests

theorem Coexist.get (h : Coexist w others view) (hp : p ∈ w.opened)
    (hmalloc : w.s.Answers limit malloc) :
    ∃ w' view', Program.exec (.get p malloc) w = some w' ∧ Coexist w' others view' := by
  obtain ⟨res, s₁, f', blocks', l', hrun, hinv, hsizes, hkept, hres⟩ :=
    poolGet_kept (h.pool p hp) (h.grow p hp) (h.answers hp hmalloc)
  obtain ⟨new, hnew, hregions⟩ := poolGet_withRegions hrun
  have hrun' := hregions w.s.regions
  rw [PoolMem.withRegions_twice, PoolMem.withRegions_self] at hrun'
  -- the call by itself gave the pool the same new regions
  have howned : owned f' p blocks' = new ++ (view p).owned p := by
    have hself := hregions ((view p).owned p)
    rw [PoolMem.withRegions_twice, hrun] at hself
    have hs₁ := (Prod.mk.inj (Option.some.inj hself)).2
    rw [hs₁] at hinv
    exact hinv.regions.symm
  have hledger := h.allocate (v := ⟨f', blocks', l'⟩) hp hmalloc hnew howned hinv.arranged.sized
  have hkept' : Kept (owned f' p blocks') w.s (s₁.withRegions (new ++ w.s.regions)) :=
    ⟨hkept.pools, hkept.cells⟩
  have hgrow : f'.growsize ≠ 0 := by
    rw [hsizes.growsize]
    exact h.grow p hp
  have hcoexist := h.change (v := ⟨f', blocks', l'⟩) hledger hkept' hinv.alone hgrow hp
  have hheld := h.held p hp
  rcases hres with ⟨rfl, hl'⟩ | ⟨a, rfl, hl'⟩
  · have hsame : Function.update w.held p l'.held = w.held := by
      rw [hl', hheld, Function.update_eq_self]
    refine ⟨⟨s₁.withRegions (new ++ w.s.regions), w.opened, w.held⟩, _, ?_, hsame ▸ hcoexist⟩
    simp [Program.exec, hrun']
  · have hsame : l'.held = a :: w.held p := by rw [hl', hheld]
    refine ⟨⟨s₁.withRegions (new ++ w.s.regions), w.opened,
      Function.update w.held p (a :: w.held p)⟩, _, ?_, hsame ▸ hcoexist⟩
    simp [Program.exec, hrun']

theorem Coexist.add (h : Coexist w others view) (hp : p ∈ w.opened) (ha : a ∈ w.held p) :
    ∃ w' view', Program.exec (.add p a) w = some w' ∧ Coexist w' others view' := by
  have hinv := h.pool p hp
  have ha' : a ∈ (view p).l.held := (h.held p hp).symm ▸ ha
  obtain ⟨s₁, hrun, hinv₁, -⟩ := poolAdd_spec hinv ha'
  have hkept := poolAdd_kept hinv ha' hrun
  have hregions : s₁.regions = (view p).owned p := by rw [hinv₁.regions]; rfl
  have hrun' : poolAdd (.addr p) (.addr a) w.s =
      some ((view p).f.available + 1, s₁.withRegions w.s.regions) := by
    have hmap := @_poolAdd_withRegions (w.s.withRegions ((view p).owned p)) w.s.regions (.addr p)
      (.addr a)
    rw [PoolMem.withRegions_twice, PoolMem.withRegions_self] at hmap
    rw [poolAdd, hmap]
    rw [poolAdd] at hrun
    rw [hrun]
    rfl
  let v : View := ⟨{ (view p).f with available := (view p).f.available + 1 }, (view p).blocks,
    (view p).l.add a⟩
  have hledger : Ledger w.s.regions w.opened
      (Function.update (fun q => (view q).owned q) p (v.owned p)) others := by
    rw [Function.update_eq_self_iff.mpr (show v.owned p = (view p).owned p from rfl)]
    exact h.ledger
  have hcoexist : Coexist
      ⟨s₁.withRegions w.s.regions, w.opened, Function.update w.held p v.l.held⟩ others
      (Function.update view p v) :=
    h.change hledger ⟨hkept.pools, hkept.cells⟩ hinv₁.alone (h.grow p hp) hp
  have hheld : v.l.held = (w.held p).erase a := by
    show (view p).l.held.erase a = _
    rw [h.held p hp]
  refine ⟨⟨s₁.withRegions w.s.regions, w.opened,
    Function.update w.held p ((w.held p).erase a)⟩, _, ?_, hheld ▸ hcoexist⟩
  simp [Program.exec, hrun']

theorem Coexist.fields (h : Coexist w others view) (hp : p ∈ w.opened) :
    w.s.pools p = some (view p).f :=
  (h.pool p hp).pool

theorem Coexist.overlapped_iff (h : Coexist w others view) (hp : p ∈ w.opened)
    (ha : ∀ r ∈ (w.opened.erase p).flatMap fun q => (view q).owned q, (cell a).Disjoint r) :
    w.overlapped a = true ↔ Overlapped (view p).f (view p).l.held a := by
  constructor
  · intro hover
    obtain ⟨q, hq, hover⟩ := List.any_eq_true.mp hover
    rw [h.fields hq] at hover
    have hover : Overlapped (view q).f (w.held q) a := of_decide_eq_true hover
    rw [← h.held q hq] at hover
    by_cases hqp : q = p
    · exact hqp ▸ hover
    · -- an element of another pool lies in a region of it
      exfalso
      obtain ⟨e, he, hnot⟩ := hover
      have he_slot : e ∈ (view q).blocks.flatMap (slots (view q).f) :=
        (h.pool q hq).mem_slots_iff.mpr (.inr he)
      obtain ⟨b, hb, heb⟩ := List.mem_flatMap.mp he_slot
      have hmem : blockRegion (view q).f b ∈ (w.opened.erase p).flatMap
          fun q => (view q).owned q :=
        List.mem_flatMap.mpr ⟨q, (List.mem_erase_of_ne hqp).mpr hq, mem_owned_block hb⟩
      exact hnot ((ha _ hmem).mono (Region.Within.refl _)
        ((h.pool q hq).arranged.elem_within hb heb))
  · intro hover
    refine List.any_eq_true.mpr ⟨p, hp, ?_⟩
    rw [h.fields hp]
    exact decide_eq_true ((h.held p hp) ▸ hover)

/-- A write to elements of any pools does not reach the lists of a pool. -/
theorem Coexist.write (h : Coexist w others view) (contents : Mem UInt64) :
    Coexist { w with s := { w.s with mem := w.store contents } } others view := by
  refine ⟨h.ledger, fun p hp => ?_, h.held, h.grow⟩
  -- first the elements of the pool itself, then those of the others
  obtain ⟨m, hm⟩ : ∃ m, m = clientWrite (view p).f (view p).l.held contents w.s.mem := ⟨_, rfl⟩
  have hinv₁ : PoolInv (({ w.s with mem := m } : PoolMem).withRegions ((view p).owned p)) p
      (view p).f (view p).blocks (view p).l [] := by
    subst hm
    refine (h.pool p hp).overwrite rfl fun a ha => ?_
    simp [clientWrite, ha]
  have hkept : Kept ((w.opened.erase p).flatMap fun q => (view q).owned q)
      { w.s with mem := m } { w.s with mem := w.store contents } := by
    subst hm
    refine ⟨fun _ _ => rfl, fun a ha => ⟨rfl, ?_⟩⟩
    have hiff := h.overlapped_iff hp ha
    constructor
    · show (if w.overlapped a then contents.next a else w.s.mem.next a) =
        if Overlapped (view p).f (view p).l.held a then contents.next a else w.s.mem.next a
      simp only [hiff]
    · show (if w.overlapped a then contents.prev a else w.s.mem.prev a) =
        if Overlapped (view p).f (view p).l.held a then contents.prev a else w.s.mem.prev a
      simp only [hiff]
  refine hinv₁.kept hkept fun r hr r' hr' => ?_
  obtain ⟨q, hq, hr'⟩ := List.mem_flatMap.mp hr'
  have hqp : p ≠ q := (h.ledger.nodup.mem_erase_iff.mp hq).1.symm
  exact h.ledger.disjoint hp (List.mem_of_mem_erase hq) hqp hr hr'

theorem Coexist.destroy (h : Coexist w others view) (hp : p ∈ w.opened) :
    ∃ w' view', Program.exec (.destroy p) w = some w' ∧ Coexist w' others view' := by
  have hinv := h.pool p hp
  have hperm := h.ledger.perm_owned hp
  have hfuel : (view p).blocks.length < w.s.regions.length := by
    have hlength := hperm.length_eq
    simp only [View.owned, Pool.owned, List.length_append, List.length_map, List.length_singleton]
      at hlength
    omega
  obtain ⟨s₁, hrun, hperm₁, hkept⟩ := poolDestroy_kept hinv hperm
    (fun r hr q hq hbase => h.ledger.eq_of_base_eq hp hr hq hbase) hfuel
  refine ⟨⟨s₁, w.opened.erase p, w.held⟩, view, by simp [Program.exec, hrun],
    h.ledger.leave hperm₁, fun q hq => ?_, fun q hq => h.held q (List.mem_of_mem_erase hq),
    fun q hq => h.grow q (List.mem_of_mem_erase hq)⟩
  obtain ⟨hqp, hq'⟩ := h.ledger.nodup.mem_erase_iff.mp hq
  exact (h.pool q hq').kept hkept fun r hr r' hr' => h.ledger.disjoint hq' hp hqp hr hr'

theorem Coexist.create (h : Coexist w others view) {name : List UInt8} {growsize : UInt32}
    {eltsize : UInt64} (hmalloc : w.s.Answers limit malloc) (hgrow : growsize ≠ 0)
    (hno : 16 + max eltsize.toNat 16 * growsize.toNat < 2 ^ 64) :
    ∃ w' view', Program.exec (.create malloc name growsize eltsize) w = some w' ∧
      Coexist w' others view' := by
  rcases hmalloc sizeofPool with hnull | ⟨-, p, hp, -, hfits, hapart⟩
  · refine ⟨⟨{ w.s with errno := enomem }, w.opened, w.held⟩, view, ?_, h.ledger,
      fun p hp => (h.pool p hp).setErrno enomem, h.held, h.grow⟩
    simp [Program.exec, poolCreate, hnull]
  · obtain ⟨s₁, hrun, hinv, hkept⟩ := @poolCreate_kept w.s p malloc name growsize eltsize hp hfits
      ((newPool_noOverflow_iff name growsize eltsize).mpr hno)
    have hapart' : ∀ r ∈ w.s.regions, (poolRegion p).Disjoint r := hapart
    have hp_out : p ∉ w.opened := by
      intro hmem
      have hown : poolRegion p ∈ (view p).owned p := mem_owned_pool
      have hr := h.ledger.mem_regions hmem hown
      exact (hapart' _ hr).base_ne (Nat.succ_pos 71) (Nat.succ_pos 71) rfl
    let v : View := ⟨newPool name growsize eltsize, [], Lifo.empty⟩
    have hother : ∀ q ∈ w.opened, Function.update view p v q = view q := fun q hq =>
      Function.update_of_ne (ne_of_mem_of_not_mem hq hp_out) _ _
    refine ⟨⟨s₁, p :: w.opened, Function.update w.held p []⟩, Function.update view p v,
      by simp [Program.exec, hrun], ?_, ?_, ?_, ?_⟩
    · rw [hinv.regions, owned_update]
      exact h.ledger.enter hp_out (Nat.succ_pos 71) hapart'
    · refine List.forall_mem_cons.mpr ⟨?_, fun q hq => ?_⟩
      · rw [Function.update_self]
        exact hinv.alone
      · rw [hother q hq]
        refine (h.pool q hq).kept hkept fun r hr r' hr' => ?_
        rw [List.mem_singleton.mp hr']
        exact (hapart' r (h.ledger.mem_regions hq hr)).symm
    · refine List.forall_mem_cons.mpr ⟨?_, fun q hq => ?_⟩
      · show (Function.update view p v p).l.held = Function.update w.held p [] p
        rw [Function.update_self, Function.update_self]
        rfl
      · show (Function.update view p v q).l.held = Function.update w.held p [] q
        rw [hother q hq, Function.update_of_ne (ne_of_mem_of_not_mem hq hp_out)]
        exact h.held q hq
    · refine List.forall_mem_cons.mpr ⟨?_, fun q hq => ?_⟩
      · rw [Function.update_self]
        exact hgrow
      · rw [hother q hq]
        exact h.grow q hq

theorem Coexist.exec (h : Coexist w others view) (hallowed : Program.Allowed limit request w) :
    ∃ w' view', Program.exec request w = some w' ∧ Coexist w' others view' := by
  cases request with
  | create malloc name growsize eltsize => exact h.create hallowed.1 hallowed.2.1 hallowed.2.2
  | get p malloc => exact h.get hallowed.1 hallowed.2
  | add p elt => exact h.add hallowed.1 hallowed.2
  | write contents => exact ⟨_, view, rfl, h.write contents⟩
  | destroy p => exact h.destroy hallowed

theorem reached_coexist (hsized : ∀ r ∈ others, 0 < r.size)
    (hreach : Program.Reached limit others w) : ∃ view, Coexist w others view := by
  induction hreach with
  | @start s held hothers =>
      subst hothers
      exact ⟨fun _ => ⟨newPool [] 0 0, [], Lifo.empty⟩, Ledger.start hsized,
        fun p hp => absurd hp List.not_mem_nil, fun p hp => absurd hp List.not_mem_nil,
        fun p hp => absurd hp List.not_mem_nil⟩
  | step _ hallowed hrun ih =>
      obtain ⟨view, h⟩ := ih
      obtain ⟨w', view', hrun', h'⟩ := h.exec hallowed
      rw [hrun] at hrun'
      obtain rfl := Option.some.inj hrun'
      exact ⟨view', h'⟩

end Requests

section Theorems

/-- What holds in every state of a program: `f`, `blocks` and `free` are the fields, the blocks
and the free elements of each pool. -/
structure Isolated (limit : ℕ) (others : List Region) (w : Program) (f : UInt64 → PoolFields)
    (blocks free : UInt64 → List UInt64) : Prop where
  opened : w.opened.Nodup
  fields : ∀ p ∈ w.opened, w.s.pools p = some (f p)
  free_ring : ∀ p ∈ w.opened, w.s.mem.Ring (p + 40) (free p)
  blocks_ring : ∀ p ∈ w.opened, w.s.mem.Ring (p + 56) (blocks p)
  /-- Each element of a pool is either free or held from it. -/
  nodup : ∀ p ∈ w.opened, ((blocks p).flatMap (slots (f p))).Nodup
  partition : ∀ p ∈ w.opened, (free p ++ w.held p).Perm ((blocks p).flatMap (slots (f p)))
  /-- No two elements overlap, whichever pools they are from, and no element overlaps the
  structure of a pool, the header of a block or a region that is not of a pool. -/
  apart : ∀ p ∈ w.opened, ∀ a ∈ (blocks p).flatMap (slots (f p)), ∀ q ∈ w.opened,
    ∀ b ∈ (blocks q).flatMap (slots (f q)), (p, a) ≠ (q, b) →
      (elem (f p) a).Disjoint (elem (f q) b)
  pools : ∀ p ∈ w.opened, ∀ a ∈ (blocks p).flatMap (slots (f p)), ∀ q ∈ w.opened,
    (elem (f p) a).Disjoint (poolRegion q)
  headers : ∀ p ∈ w.opened, ∀ a ∈ (blocks p).flatMap (slots (f p)), ∀ q ∈ w.opened,
    ∀ b ∈ blocks q, (elem (f p) a).Disjoint (cell b)
  foreign : ∀ p ∈ w.opened, ∀ a ∈ (blocks p).flatMap (slots (f p)), ∀ r ∈ others,
    (elem (f p) a).Disjoint r
  /-- Nothing else is allocated: a pool that was destroyed has left nothing behind. -/
  regions : w.s.regions.Perm (w.opened.flatMap (fun p => owned (f p) p (blocks p)) ++ others)
  /-- No request faults. -/
  total : ∀ request, Program.Allowed limit request w → ∃ w', Program.exec request w = some w'

theorem PoolInv.slot_owned (hinv : PoolInv s p f blocks l others)
    (ha : a ∈ blocks.flatMap (slots f)) : ∃ r ∈ owned f p blocks, (elem f a).Within r := by
  obtain ⟨b, hb, hab⟩ := List.mem_flatMap.mp ha
  exact ⟨_, mem_owned_block hb, hinv.arranged.elem_within hb hab⟩

/-- The pools of a program do not interfere, in whatever order it creates, uses and destroys
them, and whatever it writes to the elements it holds. -/
theorem pools_isolated (hsized : ∀ r ∈ others, 0 < r.size)
    (hreach : Program.Reached limit others w) :
    ∃ f blocks free, Isolated limit others w f blocks free := by
  obtain ⟨view, h⟩ := reached_coexist hsized hreach
  refine ⟨fun p => (view p).f, fun p => (view p).blocks, fun p => (view p).l.free,
    h.ledger.nodup, fun p hp => h.fields hp, fun p hp => (h.pool p hp).free_ring,
    fun p hp => (h.pool p hp).blocks_ring, fun p hp => ?_, fun p hp => ?_,
    fun p hp a ha q hq b hb hne => ?_, fun p hp a ha q hq => ?_, fun p hp a ha q hq b hb => ?_,
    fun p hp a ha r hr => ?_, h.ledger.perm, fun request hallowed => ?_⟩
  · rw [← (h.pool p hp).slots_eq]
    exact (h.pool p hp).sound.nodup
  · rw [← (h.pool p hp).slots_eq, ← h.held p hp]
    exact (h.pool p hp).sound.partition
  · by_cases hpq : p = q
    · subst hpq
      exact (h.pool p hp).arranged.elem_disjoint ha hb fun heq => hne (by rw [heq])
    · obtain ⟨r, hr, hin⟩ := (h.pool p hp).slot_owned ha
      obtain ⟨r', hr', hin'⟩ := (h.pool q hq).slot_owned hb
      exact (h.ledger.disjoint hp hq hpq hr hr').mono hin hin'
  · by_cases hpq : p = q
    · subst hpq
      exact ((h.pool p hp).arranged.head_disjoint (Region.Within.refl _) ha).symm
    · obtain ⟨r, hr, hin⟩ := (h.pool p hp).slot_owned ha
      exact (h.ledger.disjoint hp hq hpq hr mem_owned_pool).mono hin (Region.Within.refl _)
  · by_cases hpq : p = q
    · subst hpq
      exact ((h.pool p hp).arranged.header_disjoint hb ha).symm
    · obtain ⟨r, hr, hin⟩ := (h.pool p hp).slot_owned ha
      exact (h.ledger.disjoint hp hq hpq hr (mem_owned_block hb)).mono hin
        (h.pool q hq).arranged.header_within
  · obtain ⟨r', hr', hin⟩ := (h.pool p hp).slot_owned ha
    exact (h.ledger.rest_apart r' (Ledger.mem_owners hp hr') r hr).mono hin (Region.Within.refl r)
  · obtain ⟨w', -, hrun, -⟩ := h.exec hallowed
    exact ⟨w', hrun⟩

namespace Program

/-- The requests of a program, the last one first. -/
def run (start : Program) : List Request → Option Program
  | [] => some start
  | request :: hist => (run start hist).bind (exec request)

/-- Every request is allowed when it is made. -/
def AllowedRun (limit : ℕ) (start : Program) : List Request → Prop
  | [] => True
  | request :: hist => AllowedRun limit start hist ∧
      ∀ w, run start hist = some w → Allowed limit request w

theorem reached_run {start : Program} {hist : List Request}
    (hstart : Reached limit others start) (hallowed : AllowedRun limit start hist)
    (hrun : run start hist = some w) : Reached limit others w := by
  induction hist generalizing w with
  | nil =>
      obtain rfl := Option.some.inj hrun
      exact hstart
  | cons request hist ih =>
      obtain ⟨w₁, hrun₁, hexec⟩ := Option.bind_eq_some_iff.mp hrun
      exact .step (ih hallowed.1 hrun₁) (hallowed.2 w₁ hrun₁) hexec

theorem mem_of_map {x : Option Program} (g : Program → List UInt64) {l : List UInt64} {a : UInt64}
    (hmap : x.map g = some l) (ha : a ∈ l) : ∀ w, x = some w → a ∈ g w := by
  rintro w rfl
  obtain rfl : g w = l := Option.some.inj hmap
  exact ha

/-- No pool, and a region that is of no pool. -/
def sampleStart : Program :=
  ⟨{ blank with regions := [⟨65536, 4096⟩] }, [], fun _ => []⟩

/-- Three pools, of which the last one is destroyed with its block; elements of the first two
are got, written to and added back, with calls without memory. -/
def sampleRequests : List Request :=
  [.destroy 6144, .get 5120 noMemory, .add 4096 8232, .write
    { live := fun _ => false, next := fun _ => .junk 0, prev := fun _ => .null },
    .get 6144 (mallocAt 16384 48), .get 4096 noMemory, .get 5120 (mallocAt 12288 32),
    .get 4096 (mallocAt 8192 64), .create (mallocAt 6144 sizeofPool) [] 2 10,
    .create (mallocAt 5120 sizeofPool) [113] 1 16, .create (mallocAt 4096 sizeofPool) [112] 2 24]

end Program

theorem pools_isolated_sample :
    ∃ w f blocks free, Program.run .sampleStart Program.sampleRequests = some w ∧
      w.opened = [5120, 4096] ∧ w.held 4096 = [8208] ∧ w.held 5120 = [12304] ∧
      Isolated (2 ^ 64) [⟨65536, 4096⟩] w f blocks free := by
  obtain ⟨w, hrun⟩ : ∃ w, Program.run .sampleStart Program.sampleRequests = some w := ⟨_, rfl⟩
  have hallowed : Program.AllowedRun (2 ^ 64) .sampleStart Program.sampleRequests := by
    refine ⟨⟨⟨⟨⟨⟨⟨⟨⟨⟨⟨trivial, ?_⟩, ?_⟩, ?_⟩, ?_⟩, ?_⟩, ?_⟩, ?_⟩, fun w _ => trivial⟩, ?_⟩, ?_⟩, ?_⟩
    · exact fun w hw => ⟨answers_of_regions Program.s rfl (by decide) w hw, by decide,
        by decide⟩
    · exact fun w hw => ⟨answers_of_regions Program.s rfl (by decide) w hw, by decide,
        by decide⟩
    · exact fun w hw => ⟨answers_of_regions Program.s rfl (by decide) w hw, by decide,
        by decide⟩
    · exact fun w hw => ⟨Program.mem_of_map Program.opened rfl (by decide) w hw,
        answers_of_regions Program.s rfl (by decide) w hw⟩
    · exact fun w hw => ⟨Program.mem_of_map Program.opened rfl (by decide) w hw,
        answers_of_regions Program.s rfl (by decide) w hw⟩
    · exact fun w hw => ⟨Program.mem_of_map Program.opened rfl (by decide) w hw,
        answers_noMemory⟩
    · exact fun w hw => ⟨Program.mem_of_map Program.opened rfl (by decide) w hw,
        answers_of_regions Program.s rfl (by decide) w hw⟩
    · exact fun w hw => ⟨Program.mem_of_map Program.opened rfl (by decide) w hw,
        Program.mem_of_map (fun w => w.held 4096) rfl (by decide) w hw⟩
    · exact fun w hw => ⟨Program.mem_of_map Program.opened rfl (by decide) w hw,
        answers_noMemory⟩
    · exact fun w hw => Program.mem_of_map Program.opened rfl (by decide) w hw
  obtain ⟨f, blocks, free, h⟩ :=
    pools_isolated (by decide) (Program.reached_run (.start rfl) hallowed hrun)
  have hopened : (Program.run .sampleStart Program.sampleRequests).map
      (fun w => (w.opened, w.held 4096, w.held 5120)) = some ([5120, 4096], [8208], [12304]) := rfl
  rw [hrun, Option.map_some, Option.some_inj, Prod.mk.injEq, Prod.mk.injEq] at hopened
  exact ⟨w, f, blocks, free, hrun, hopened.1, hopened.2.1, hopened.2.2, h⟩

end Theorems

end Pool
end Brlib
