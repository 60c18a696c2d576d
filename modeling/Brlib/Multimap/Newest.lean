import Brlib.Multimap.Chaining

/-!
# The elements of a key in a multimap by chaining

In a multimap that has a bucket for each key, the elements of a key are in the order of their
additions, the newest first.  Whatever buckets there are, the elements of a key have this order
in the bucket of the key (`filter_bucket`): chaining keeps a stack for each key.
-/

namespace Brlib
namespace Multimap

variable {ν κ β : Type*} [DecidableEq ν] [DecidableEq κ]

/-- The stored elements of a key, the newest first. -/
def ofKey (hist : List (Request ν κ)) (k : κ) : List ν :=
  chains id hist k

variable {hist : List (Request ν κ)} {n : ν} {k : κ}

theorem mem_ofKey_iff (hvalid : Valid hist) : n ∈ ofKey hist k ↔ storedKey hist n = some k := by
  rw [ofKey, mem_chains_iff hvalid]
  constructor
  · rintro ⟨k', hk', rfl⟩
    exact hk'
  · exact fun hk => ⟨k, hk, rfl⟩

variable [DecidableEq β] {bucket : κ → β}

theorem filter_chains (hvalid : Valid hist) :
    (chains bucket hist (bucket k)).filter (fun n => storedKey hist n = some k) =
      ofKey hist k := by
  induction hist with
  | nil => rfl
  | cons op hist ih =>
      have hrest := ih hvalid.tail
      cases op with
      | init m => exact hrest
      | add m k' =>
          have hm : storedKey hist m = none := hvalid.1.2
          have hold : (chains bucket hist (bucket k)).filter
              (fun n => storedKey (.add m k' :: hist) n = some k) = ofKey hist k := by
            rw [← hrest]
            refine List.filter_congr fun n hn => ?_
            obtain ⟨k'', hk'', -⟩ := (mem_chains_iff hvalid.tail).mp hn
            have hne : n ≠ m := fun heq => by simp [← heq, hk''] at hm
            rw [storedKey, Function.update_of_ne hne]
          by_cases hk : k = k'
          · -- the new element of the key is in front
            subst hk
            have hnew : storedKey (.add m k :: hist) m = some k := by simp [storedKey]
            simp only [chains, Function.update_self, ofKey, id]
            rw [List.filter_cons_of_pos (by simpa using hnew), hold]
            rfl
          · have hother : storedKey (.add m k' :: hist) m ≠ some k := by
              simpa [storedKey] using Ne.symm hk
            have hsame : ofKey (.add m k' :: hist) k = ofKey hist k := by
              simp [ofKey, chains, hk]
            rw [hsame, ← hold]
            by_cases hb : bucket k = bucket k'
            · simp only [chains, hb, Function.update_self]
              rw [List.filter_cons_of_neg (by simpa using hother)]
            · simp only [chains, Function.update_of_ne hb]
      | del m =>
          simp only [ofKey, chains]
          rw [← ofKey, ← hrest, List.filter_filter, List.filter_filter]
          refine List.filter_congr fun n _ => ?_
          by_cases hn : n = m
          · simp [hn, storedKey]
          · simp [hn, storedKey]

theorem filter_bucket (hvalid : Valid hist) {p : ν → Bool}
    (hp : ∀ n k', storedKey hist n = some k' → (p n = true ↔ k' = k)) :
    (chains bucket hist (bucket k)).filter p = ofKey hist k := by
  rw [← @filter_chains _ _ _ _ _ hist k _ bucket hvalid]
  refine List.filter_congr fun n hn => ?_
  obtain ⟨k', hk', -⟩ := (mem_chains_iff hvalid).mp hn
  have hiff : p n = true ↔ storedKey hist n = some k := by rw [hp n k' hk', hk', Option.some_inj]
  rw [Bool.eq_iff_iff, hiff, decide_eq_true_eq]

end Multimap
end Brlib
