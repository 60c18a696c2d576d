import Brlib.Alloc.Region

/-!
# Who has which regions

A ledger says of all allocated regions which owner has them; what is nobody's is `rest`.  The
regions of the owners are apart from one another and from the rest.  An owner may enter with a
region, get one more, and leave with all it has; each time the allocator needs only to promise
that a new region is apart from those that are allocated.
-/

namespace Brlib
namespace Alloc

/-- The allocated regions are those of the owners and the rest, and no region of an owner
shares an address with another one. -/
structure Ledger {ι : Type*} (regions : List Region) (owners : List ι) (owned : ι → List Region)
    (rest : List Region) : Prop where
  perm : regions.Perm (owners.flatMap owned ++ rest)
  apart : (owners.flatMap owned).Pairwise Region.Disjoint
  rest_apart : ∀ r ∈ owners.flatMap owned, ∀ q ∈ rest, r.Disjoint q
  sized : ∀ r ∈ regions, 0 < r.size
  nodup : owners.Nodup

namespace Ledger

variable {ι : Type*} {regions regions' rest : List Region} {owners owners' : List ι}
variable {owned : ι → List Region} {i j : ι} {r q : Region}

theorem start (hsized : ∀ r ∈ rest, 0 < r.size) : Ledger rest [] owned rest where
  perm := List.Perm.refl _
  apart := List.Pairwise.nil
  rest_apart _ hr := absurd hr List.not_mem_nil
  sized := hsized
  nodup := List.nodup_nil

theorem reorder (h : Ledger regions owners owned rest) (hperm : owners.Perm owners') :
    Ledger regions owners' owned rest where
  perm := h.perm.trans ((hperm.flatMap_right owned).append_right rest)
  apart := (hperm.flatMap_right owned).pairwise h.apart Region.Disjoint.symm
  rest_apart r hr := h.rest_apart r ((hperm.flatMap_right owned).symm.subset hr)
  sized := h.sized
  nodup := hperm.nodup_iff.mp h.nodup

theorem mem_owners (hi : i ∈ owners) (hr : r ∈ owned i) : r ∈ owners.flatMap owned :=
  List.mem_flatMap.mpr ⟨i, hi, hr⟩

theorem mem_regions (h : Ledger regions owners owned rest) (hi : i ∈ owners)
    (hr : r ∈ owned i) : r ∈ regions :=
  h.perm.symm.subset (List.mem_append_left rest (mem_owners hi hr))

theorem disjoint (h : Ledger regions owners owned rest) (hi : i ∈ owners) (hj : j ∈ owners)
    (hij : i ≠ j) (hr : r ∈ owned i) (hq : q ∈ owned j) : r.Disjoint q := by
  classical
  have hperm : owners.Perm (i :: owners.erase i) := List.perm_cons_erase hi
  have hj' : j ∈ owners.erase i := (List.mem_erase_of_ne hij.symm).mpr hj
  have happart := (h.reorder hperm).apart
  rw [List.flatMap_cons] at happart
  exact (List.pairwise_append.mp happart).2.2 r hr q (mem_owners hj' hq)

theorem eq_of_base_eq (h : Ledger regions owners owned rest) (hi : i ∈ owners) (hr : r ∈ owned i)
    (hq : q ∈ regions) (hbase : q.base = r.base) : q = r := by
  by_contra hne
  have hr' : r ∈ regions := h.mem_regions hi hr
  have happart : r.Disjoint q := by
    rcases List.mem_append.mp (h.perm.subset hq) with hq | hq
    · exact h.apart.forall (mem_owners hi hr) hq (Ne.symm hne)
    · exact h.rest_apart r (mem_owners hi hr) q hq
  exact happart.base_ne (h.sized r hr') (h.sized q hq) hbase.symm

section Changes

theorem allocate [DecidableEq ι] (h : Ledger regions owners owned rest) (hi : i ∈ owners)
    (hsize : 0 < r.size) (hr : ∀ q ∈ regions, r.Disjoint q) :
    Ledger (r :: regions) owners (Function.update owned i (r :: owned i)) rest := by
  have hperm : owners.Perm (i :: owners.erase i) := List.perm_cons_erase hi
  have h' := h.reorder hperm
  have hi_out : ∀ j ∈ owners.erase i, j ≠ i := fun j hj heq =>
    (List.nodup_cons.mp h'.nodup).1 (heq ▸ hj)
  have hflat : (i :: owners.erase i).flatMap (Function.update owned i (r :: owned i)) =
      r :: (i :: owners.erase i).flatMap owned := by
    have hrest : (owners.erase i).flatMap (Function.update owned i (r :: owned i)) =
        (owners.erase i).flatMap owned :=
      List.flatMap_congr fun j hj => Function.update_of_ne (hi_out j hj) _ _
    simp only [List.flatMap_cons, Function.update_self, hrest, List.cons_append]
  refine Ledger.reorder ⟨?_, ?_, ?_, ?_, h'.nodup⟩ hperm.symm
  · rw [hflat]
    exact h'.perm.cons r
  · rw [hflat]
    refine List.pairwise_cons.mpr ⟨fun q hq => ?_, h'.apart⟩
    exact hr q (h'.perm.symm.subset (List.mem_append_left rest hq))
  · rw [hflat]
    refine List.forall_mem_cons.mpr ⟨fun q hq => ?_, h'.rest_apart⟩
    exact hr q (h'.perm.symm.subset (List.mem_append_right _ hq))
  · exact List.forall_mem_cons.mpr ⟨hsize, h.sized⟩

theorem enter [DecidableEq ι] (h : Ledger regions owners owned rest) (hi : i ∉ owners)
    (hsize : 0 < r.size) (hr : ∀ q ∈ regions, r.Disjoint q) :
    Ledger (r :: regions) (i :: owners) (Function.update owned i [r]) rest := by
  have hempty : Ledger regions (i :: owners) (Function.update owned i []) rest := by
    have hother : ∀ j ∈ owners, Function.update owned i [] j = owned j := by
      intro j hj
      have hne : j ≠ i := fun heq => hi (heq ▸ hj)
      exact Function.update_of_ne hne _ _
    have hflat : (i :: owners).flatMap (Function.update owned i []) = owners.flatMap owned := by
      rw [List.flatMap_cons, Function.update_self, List.nil_append]
      exact List.flatMap_congr hother
    exact ⟨hflat ▸ h.perm, hflat ▸ h.apart, hflat ▸ h.rest_apart, h.sized,
      List.nodup_cons.mpr ⟨hi, h.nodup⟩⟩
  have hone := hempty.allocate List.mem_cons_self hsize hr
  rwa [Function.update_self, Function.update_idem] at hone

/-- An owner leaves; what it had is no longer allocated. -/
theorem leave [DecidableEq ι] (h : Ledger regions owners owned rest)
    (hperm : regions'.Perm ((owners.erase i).flatMap owned ++ rest)) :
    Ledger regions' (owners.erase i) owned rest := by
  have hsub : (owners.erase i).flatMap owned ⊆ owners.flatMap owned := fun r hr => by
    obtain ⟨j, hj, hr⟩ := List.mem_flatMap.mp hr
    exact mem_owners (List.mem_of_mem_erase hj) hr
  have hsublist : (owners.erase i).Sublist owners := List.erase_sublist
  constructor
  · exact hperm
  · exact h.apart.sublist (hsublist.flatMap _)
  · exact fun r hr => h.rest_apart r (hsub hr)
  · intro r hr
    apply h.sized r
    apply h.perm.symm.subset
    rcases List.mem_append.mp (hperm.subset hr) with hr | hr
    · exact List.mem_append_left rest (hsub hr)
    · exact List.mem_append_right _ hr
  · exact h.nodup.erase i

end Changes

theorem perm_owned [DecidableEq ι] (h : Ledger regions owners owned rest) (hi : i ∈ owners) :
    regions.Perm (owned i ++ ((owners.erase i).flatMap owned ++ rest)) := by
  have hperm := (h.reorder (List.perm_cons_erase hi)).perm
  rwa [List.flatMap_cons, List.append_assoc] at hperm

end Ledger

end Alloc
end Brlib
