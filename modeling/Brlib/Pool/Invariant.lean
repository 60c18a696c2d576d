import Brlib.Alloc.Lifo
import Brlib.Heap.Ring
import Brlib.Pool.Layout

/-!
# The invariant of a pool

`Arranged f p blocks` is about addresses only: the structure of the pool and its blocks
are apart from one another, so all list heads and all elements are (`head_disjoint`,
`header_disjoint`, `elem_disjoint`).  `PoolInv s p f blocks l others` says that the pool at
`p` is the last-in first-out allocator `l`: `list_available` is its stack of free
slots, `list_blocks` is `blocks`, and the counters are the lengths of the lists modulo
`2 ^ 32`.

The elements that the client holds overlap no list head that the pool uses, so the
client may write to them (`PoolInv.overwrite`).
-/

namespace Brlib
namespace Pool

open Heap Heap.Mem Alloc

/-- What `malloc` returned for the `pool_t` at `p`. -/
def poolRegion (p : UInt64) : Region :=
  ⟨p.toNat, 72⟩

/-- The elements of the block at `b`, the last one first. -/
def slots (f : PoolFields) (b : UInt64) : List UInt64 :=
  ((List.range f.growsize.toNat).map fun i => slotAddr f b (UInt32.ofNat i)).reverse

/-- The pool and its blocks are apart from one another. -/
structure Arranged (f : PoolFields) (p : UInt64) (blocks : List UInt64) : Prop where
  eltsize : 16 ≤ f.eltsize.toNat
  noOverflow : NoOverflow f
  pool_fits : p.toNat + 72 ≤ 2 ^ 64
  block_fits : ∀ b ∈ blocks, b.toNat + (blockSize f).toNat ≤ 2 ^ 64
  apart : (poolRegion p :: blocks.map (blockRegion f)).Pairwise Region.Disjoint

/-- The pool at `p` with the fields `f` is the allocator `l`.  Its blocks are all that
was allocated since the pool was: what was before are the regions `others`. -/
structure PoolInv (s : PoolMem) (p : UInt64) (f : PoolFields) (blocks : List UInt64)
    (l : Lifo UInt64) (others : List Region) : Prop where
  pool : s.pools p = some f
  arranged : Arranged f p blocks
  regions : s.regions = blocks.map (blockRegion f) ++ poolRegion p :: others
  free_ring : s.mem.Ring (p + 40) l.free
  blocks_ring : s.mem.Ring (p + 56) blocks
  slots_eq : l.slots = blocks.flatMap (slots f)
  live : ∀ a ∈ l.slots, s.mem.live a = true
  sound : l.Sound
  available : f.available = UInt32.ofNat l.free.length
  nblocks : f.nblocks = UInt32.ofNat blocks.length
  allocated : f.allocated = f.nblocks * f.growsize

section Slots

variable {f : PoolFields} {a b : UInt64}

theorem ofNat_index {i : ℕ} (hi : i < f.growsize.toNat) :
    (UInt32.ofNat i).toNat = i ∧ UInt32.ofNat i < f.growsize := by
  have hlt : i < 2 ^ 32 := hi.trans (UInt32.toNat_lt _)
  have heq : (UInt32.ofNat i).toNat = i := by
    rw [UInt32.toNat_ofNat', Nat.mod_eq_of_lt hlt]
  exact ⟨heq, UInt32.lt_iff_toNat_lt.mpr (heq.symm ▸ hi)⟩

theorem mem_slots : a ∈ slots f b ↔ ∃ i < f.growsize, slotAddr f b i = a := by
  unfold slots
  rw [List.mem_reverse, List.mem_map]
  constructor
  · rintro ⟨i, hi, rfl⟩
    exact ⟨UInt32.ofNat i, (ofNat_index (List.mem_range.mp hi)).2, rfl⟩
  · rintro ⟨i, hi, rfl⟩
    refine ⟨i.toNat, List.mem_range.mpr (UInt32.lt_iff_toNat_lt.mp hi), ?_⟩
    rw [UInt32.ofNat_toNat]

theorem length_slots : (slots f b).length = f.growsize.toNat := by
  simp [slots]

end Slots

section Heads

variable {p : UInt64}

theorem toNat_listAvailable (hfits : p.toNat + 72 ≤ 2 ^ 64) : (p + 40).toNat = p.toNat + 40 := by
  rw [UInt64.toNat_add]
  simp only [UInt64.reduceToNat]
  omega

theorem toNat_listBlocks (hfits : p.toNat + 72 ≤ 2 ^ 64) : (p + 56).toNat = p.toNat + 56 := by
  rw [UInt64.toNat_add]
  simp only [UInt64.reduceToNat]
  omega

theorem listAvailable_within (hfits : p.toNat + 72 ≤ 2 ^ 64) :
    (cell (p + 40)).Within (poolRegion p) := by
  unfold cell poolRegion Region.Within
  rw [toNat_listAvailable hfits]
  simp only
  omega

theorem listBlocks_within (hfits : p.toNat + 72 ≤ 2 ^ 64) :
    (cell (p + 56)).Within (poolRegion p) := by
  unfold cell poolRegion Region.Within
  rw [toNat_listBlocks hfits]
  simp only
  omega

theorem listAvailable_ne_listBlocks (hfits : p.toNat + 72 ≤ 2 ^ 64) : p + 40 ≠ p + 56 := by
  intro heq
  have hnat := congrArg UInt64.toNat heq
  rw [toNat_listAvailable hfits, toNat_listBlocks hfits] at hnat
  omega

end Heads

namespace Arranged

variable {f f' : PoolFields} {p a a' b b' : UInt64} {blocks : List UInt64} {r q : Region}

theorem congr (h : Arranged f p blocks) (helt : f'.eltsize = f.eltsize)
    (hgrow : f'.growsize = f.growsize) : Arranged f' p blocks := by
  have hsize : blockSize f' = blockSize f := by
    unfold blockSize
    rw [helt, hgrow]
  have hregion : blockRegion f' = blockRegion f := by
    ext1 b
    unfold blockRegion
    rw [hsize]
  refine ⟨helt ▸ h.eltsize, ?_, h.pool_fits, hsize ▸ h.block_fits, hregion ▸ h.apart⟩
  have hno := h.noOverflow
  unfold NoOverflow at hno ⊢
  rwa [helt, hgrow]

theorem elt_pos (h : Arranged f p blocks) : 0 < f.eltsize.toNat := by
  have hge := h.eltsize
  omega

theorem header_within (h : Arranged f p blocks) : (cell b).Within (blockRegion f b) := by
  unfold cell blockRegion Region.Within
  rw [blockSize_exact_iff.mpr h.noOverflow]
  simp only
  omega

theorem elem_within (h : Arranged f p blocks) (hb : b ∈ blocks) (ha : a ∈ slots f b) :
    (elem f a).Within (blockRegion f b) := by
  obtain ⟨i, hi, rfl⟩ := mem_slots.mp ha
  exact elem_within_block h.noOverflow (h.block_fits b hb) h.elt_pos hi

theorem cell_within (h : Arranged f p blocks) : (cell a).Within (elem f a) := by
  have hge := h.eltsize
  unfold cell elem Region.Within
  simp only
  omega

/-- Whatever lies in the pool and in a block is apart. -/
theorem pool_disjoint (h : Arranged f p blocks) (hb : b ∈ blocks) (hr : r.Within (poolRegion p))
    (hq : q.Within (blockRegion f b)) : r.Disjoint q :=
  ((List.pairwise_cons.mp h.apart).1 _ (List.mem_map_of_mem hb)).mono hr hq

theorem block_disjoint (h : Arranged f p blocks) (hb : b ∈ blocks) (hb' : b' ∈ blocks)
    (hne : b ≠ b') (hr : r.Within (blockRegion f b)) (hq : q.Within (blockRegion f b')) :
    r.Disjoint q := by
  have hpair := (List.pairwise_cons.mp h.apart).2
  have hregion : blockRegion f b ≠ blockRegion f b' := fun heq =>
    hne (UInt64.toNat_inj.mp (congrArg Region.base heq))
  exact (hpair.forall (List.mem_map_of_mem hb) (List.mem_map_of_mem hb') hregion).mono hr hq

theorem slot_disjoint (h : Arranged f p blocks) (hb : b ∈ blocks) (ha : a ∈ slots f b)
    (ha' : a' ∈ slots f b) (hne : a ≠ a') : (elem f a).Disjoint (elem f a') := by
  obtain ⟨i, hi, rfl⟩ := mem_slots.mp ha
  obtain ⟨j, hj, rfl⟩ := mem_slots.mp ha'
  have hij : i ≠ j := fun heq => hne (heq ▸ rfl)
  exact elem_disjoint_elem h.noOverflow (h.block_fits b hb) h.elt_pos hi hj hij

/-- Any two elements are apart. -/
theorem elem_disjoint (h : Arranged f p blocks) (ha : a ∈ blocks.flatMap (slots f))
    (ha' : a' ∈ blocks.flatMap (slots f)) (hne : a ≠ a') : (elem f a).Disjoint (elem f a') := by
  obtain ⟨b, hb, hab⟩ := List.mem_flatMap.mp ha
  obtain ⟨b', hb', hab'⟩ := List.mem_flatMap.mp ha'
  by_cases heq : b = b'
  · subst heq
    exact h.slot_disjoint hb hab hab' hne
  · exact h.block_disjoint hb hb' heq (h.elem_within hb hab) (h.elem_within hb' hab')

theorem header_disjoint (h : Arranged f p blocks) (hb : b ∈ blocks)
    (ha : a ∈ blocks.flatMap (slots f)) : (cell b).Disjoint (elem f a) := by
  obtain ⟨b', hb', hab⟩ := List.mem_flatMap.mp ha
  by_cases heq : b = b'
  · subst heq
    obtain ⟨i, hi, rfl⟩ := mem_slots.mp hab
    exact header_disjoint_elem h.noOverflow (h.block_fits b hb) h.elt_pos hi
  · exact h.block_disjoint hb hb' heq h.header_within (h.elem_within hb' hab)

theorem head_disjoint (h : Arranged f p blocks) (hr : r.Within (poolRegion p))
    (ha : a ∈ blocks.flatMap (slots f)) : r.Disjoint (elem f a) := by
  obtain ⟨b, hb, hab⟩ := List.mem_flatMap.mp ha
  exact h.pool_disjoint hb hr (h.elem_within hb hab)

theorem ne_of_disjoint (h : Arranged f p blocks) (hd : (cell b).Disjoint (elem f a)) : b ≠ a :=
  fun heq => hd.base_ne (Nat.succ_pos 15) h.elt_pos (congrArg UInt64.toNat heq)

theorem available_within (h : Arranged f p blocks) : (cell (p + 40)).Within (poolRegion p) :=
  listAvailable_within h.pool_fits

theorem blocks_within (h : Arranged f p blocks) : (cell (p + 56)).Within (poolRegion p) :=
  listBlocks_within h.pool_fits

theorem head_ne_header (h : Arranged f p blocks) (ha : (cell a).Within (poolRegion p))
    (hb : b ∈ blocks) : a ≠ b := fun heq =>
  (h.pool_disjoint hb ha h.header_within).base_ne (Nat.succ_pos 15) (Nat.succ_pos 15)
    (congrArg UInt64.toNat heq)

theorem lists_apart (h : Arranged f p blocks) :
    ∀ a ∈ (p + 56) :: blocks, a ∉ (p + 40) :: blocks.flatMap (slots f) := by
  intro a ha hmem
  rcases List.mem_cons.mp ha with rfl | hblock
  · rcases List.mem_cons.mp hmem with heq | hslot
    · exact listAvailable_ne_listBlocks h.pool_fits heq.symm
    · exact h.ne_of_disjoint (h.head_disjoint h.blocks_within hslot) rfl
  · rcases List.mem_cons.mp hmem with rfl | hslot
    · exact h.head_ne_header h.available_within hblock rfl
    · exact h.ne_of_disjoint (h.header_disjoint hblock hslot) rfl

theorem available_not_mem (h : Arranged f p blocks) : p + 40 ∉ blocks.flatMap (slots f) :=
  fun hslot => h.ne_of_disjoint (h.head_disjoint h.available_within hslot) rfl

theorem slots_disjoint (h : Arranged f p blocks) (hb : b ∈ blocks) (hb' : b' ∈ blocks)
    (hne : b ≠ b') (ha : a ∈ slots f b) : a ∉ slots f b' := fun ha' =>
  (h.block_disjoint hb hb' hne (h.elem_within hb ha) (h.elem_within hb' ha')).base_ne h.elt_pos
    h.elt_pos rfl

theorem cons (h : Arranged f p blocks) (hfits : b.toNat + (blockSize f).toNat ≤ 2 ^ 64)
    (hapart : ∀ r ∈ poolRegion p :: blocks.map (blockRegion f), (blockRegion f b).Disjoint r) :
    Arranged f p (b :: blocks) where
  eltsize := h.eltsize
  noOverflow := h.noOverflow
  pool_fits := h.pool_fits
  block_fits := List.forall_mem_cons.mpr ⟨hfits, h.block_fits⟩
  apart := by
    obtain ⟨hpool, hblocks⟩ := List.pairwise_cons.mp h.apart
    obtain ⟨hb, hapart'⟩ := List.forall_mem_cons.mp hapart
    rw [List.map_cons]
    refine List.pairwise_cons.mpr ⟨?_, List.pairwise_cons.mpr ⟨hapart', hblocks⟩⟩
    exact List.forall_mem_cons.mpr ⟨hb.symm, hpool⟩

theorem not_mem (h : Arranged f p (b :: blocks)) : b ∉ blocks := by
  intro hb
  obtain ⟨hb_apart, -⟩ := List.pairwise_cons.mp (List.pairwise_cons.mp h.apart).2
  have hsize : 0 < (blockRegion f b).size := by
    unfold blockRegion
    rw [blockSize_exact_iff.mpr h.noOverflow]
    simp only
    omega
  exact (hb_apart _ (List.mem_map_of_mem hb)).base_ne hsize hsize rfl

theorem nodup_slots (h : Arranged f p blocks) (hb : b ∈ blocks) : (slots f b).Nodup := by
  unfold slots
  rw [List.nodup_reverse]
  refine (List.nodup_range).map_on fun i hi j hj heq => ?_
  obtain ⟨hi_toNat, hi_lt⟩ := ofNat_index (List.mem_range.mp hi)
  obtain ⟨hj_toNat, hj_lt⟩ := ofNat_index (List.mem_range.mp hj)
  by_contra hij
  have hne : UInt32.ofNat i ≠ UInt32.ofNat j := fun heq => hij (by rw [← hi_toNat, heq, hj_toNat])
  have hdisjoint := elem_disjoint_elem h.noOverflow (h.block_fits b hb) h.elt_pos hi_lt hj_lt hne
  exact hdisjoint.base_ne h.elt_pos h.elt_pos (congrArg UInt64.toNat heq)

theorem not_mem_of_mem_slots (h : Arranged f p (b :: blocks)) (ha : a ∈ slots f b) :
    a ∉ blocks.flatMap (slots f) := by
  intro hmem
  obtain ⟨b', hb', ha'⟩ := List.mem_flatMap.mp hmem
  have hne : b ≠ b' := fun heq => h.not_mem (heq ▸ hb')
  exact h.slots_disjoint List.mem_cons_self (List.mem_cons_of_mem b hb') hne ha ha'

theorem nodup_slots_append (h : Arranged f p (b :: blocks)) {free : List UInt64}
    (hfree : free ⊆ blocks.flatMap (slots f)) (hnodup : ((p + 40) :: free).Nodup) :
    ((slots f b).reverse ++ (p + 40) :: free).Nodup := by
  have hb : b ∈ b :: blocks := List.mem_cons_self
  refine List.nodup_append.mpr
    ⟨List.nodup_reverse.mpr (h.nodup_slots hb), hnodup, fun x hx y hy heq => ?_⟩
  subst heq
  have hx' : x ∈ slots f b := List.mem_reverse.mp hx
  rcases List.mem_cons.mp hy with rfl | hy
  · exact h.available_not_mem (List.mem_flatMap.mpr ⟨b, hb, hx'⟩)
  · exact h.not_mem_of_mem_slots hx' (hfree hy)

end Arranged

/-- An element that is held has a byte in the list head at `a`. -/
def Overlapped (f : PoolFields) (held : List UInt64) (a : UInt64) : Prop :=
  ∃ e ∈ held, ¬ (cell a).Disjoint (elem f e)

instance (f : PoolFields) (held : List UInt64) (a : UInt64) :
    Decidable (Overlapped f held a) := by
  unfold Overlapped
  infer_instance

namespace PoolInv

variable {s : PoolMem} {p a : UInt64} {f : PoolFields} {blocks : List UInt64} {l : Lifo UInt64}
variable {others : List Region}

theorem known (hinv : PoolInv s p f blocks l others) :
    ∀ r ∈ poolRegion p :: blocks.map (blockRegion f), r ∈ s.regions := by
  intro r hr
  rw [hinv.regions]
  simp only [List.mem_cons, List.mem_append] at hr ⊢
  tauto

theorem mem_slots_iff (hinv : PoolInv s p f blocks l others) :
    a ∈ blocks.flatMap (slots f) ↔ a ∈ l.free ∨ a ∈ l.held := by
  rw [← hinv.slots_eq, hinv.sound.mem_slots]

theorem not_overlapped_free (hinv : PoolInv s p f blocks l others) :
    ∀ a ∈ (p + 40) :: l.free, ¬ Overlapped f l.held a := by
  rintro a ha ⟨e, he, hover⟩
  apply hover
  have he_slot : e ∈ blocks.flatMap (slots f) := hinv.mem_slots_iff.mpr (.inr he)
  rcases List.mem_cons.mp ha with rfl | ha
  · exact hinv.arranged.head_disjoint hinv.arranged.available_within he_slot
  · have ha_slot : a ∈ blocks.flatMap (slots f) := hinv.mem_slots_iff.mpr (.inl ha)
    have hne : a ≠ e := fun heq => hinv.sound.not_held ha (heq ▸ he)
    exact (hinv.arranged.elem_disjoint ha_slot he_slot hne).mono hinv.arranged.cell_within
      (Region.Within.refl _)

theorem not_overlapped_blocks (hinv : PoolInv s p f blocks l others) :
    ∀ a ∈ (p + 56) :: blocks, ¬ Overlapped f l.held a := by
  rintro a ha ⟨e, he, hover⟩
  apply hover
  have he_slot : e ∈ blocks.flatMap (slots f) := hinv.mem_slots_iff.mpr (.inr he)
  rcases List.mem_cons.mp ha with rfl | ha
  · exact hinv.arranged.head_disjoint hinv.arranged.blocks_within he_slot
  · exact hinv.arranged.header_disjoint ha he_slot

/-- The client may write to the elements that it holds. -/
theorem overwrite {m' : Mem UInt64} (hinv : PoolInv s p f blocks l others)
    (hlive : m'.live = s.mem.live)
    (hsame : ∀ a, ¬ Overlapped f l.held a →
      m'.next a = s.mem.next a ∧ m'.prev a = s.mem.prev a) :
    PoolInv { s with mem := m' } p f blocks l others where
  pool := hinv.pool
  arranged := hinv.arranged
  regions := hinv.regions
  free_ring := hinv.free_ring.congr (fun x hx => by rwa [hlive])
    fun a ha => hsame a (hinv.not_overlapped_free a ha)
  blocks_ring := hinv.blocks_ring.congr (fun x hx => by rwa [hlive])
    fun a ha => hsame a (hinv.not_overlapped_blocks a ha)
  slots_eq := hinv.slots_eq
  live a ha := by
    show m'.live a = true
    rw [hlive]
    exact hinv.live a ha
  sound := hinv.sound
  available := hinv.available
  nblocks := hinv.nblocks
  allocated := hinv.allocated

end PoolInv

end Pool
end Brlib
