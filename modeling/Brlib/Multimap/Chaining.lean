import Mathlib.Data.List.Basic
import Mathlib.Logic.Function.Basic
import Mathlib.Tactic

/-!
# Multimaps by chaining

A history lists the requests to a multimap, the newest first.  It determines which
elements are stored and under which key (`storedKey`).  A table of buckets holds them by
chaining: `chains bucket` puts each new element at the front of the bucket of its key and
takes a deleted one out of whatever bucket it is in.  The table agrees with the history
(`mem_chains_iff`, `chains_nodup`).
-/

namespace Brlib
namespace Multimap

/-- What a client may ask of a multimap: to prepare an element, to add it under a key,
and to delete it. -/
inductive Request (ν κ : Type*) where
  | init (n : ν)
  | add (n : ν) (k : κ)
  | del (n : ν)
deriving DecidableEq, Repr

variable {ν κ β : Type*}

/-- The elements that were prepared. -/
def Initialised (hist : List (Request ν κ)) (n : ν) : Prop :=
  Request.init n ∈ hist

variable [DecidableEq ν]

/-- The key of each stored element. -/
def storedKey : List (Request ν κ) → ν → Option κ
  | [] => fun _ => none
  | .init _ :: hist => storedKey hist
  | .add n k :: hist => Function.update (storedKey hist) n (some k)
  | .del n :: hist => Function.update (storedKey hist) n none

/-- The requests of a client that prepares an element before it uses it, and prepares
and adds only elements that are not stored. -/
def Valid : List (Request ν κ) → Prop
  | [] => True
  | .init n :: hist => storedKey hist n = none ∧ Valid hist
  | .add n _ :: hist => (Initialised hist n ∧ storedKey hist n = none) ∧ Valid hist
  | .del n :: hist => Initialised hist n ∧ Valid hist

/-- The requests that delete the elements of a list, one after the other. -/
def delRequests (D : List ν) : List (Request ν κ) :=
  (D.map .del).reverse

/-- The buckets after a history. -/
def chains [DecidableEq β] (bucket : κ → β) : List (Request ν κ) → β → List ν
  | [] => fun _ => []
  | .init _ :: hist => chains bucket hist
  | .add n k :: hist =>
      Function.update (chains bucket hist) (bucket k) (n :: chains bucket hist (bucket k))
  | .del n :: hist => fun i => (chains bucket hist i).filter (· ≠ n)

variable {hist : List (Request ν κ)} {op : Request ν κ} {n : ν} {k : κ}

omit [DecidableEq ν] in
theorem initialised_init_cons :
    Initialised (Request.init n :: hist) = fun m => m = n ∨ Initialised hist m := by
  ext m
  simp [Initialised]

omit [DecidableEq ν] in
theorem initialised_add_cons : Initialised (Request.add n k :: hist) = Initialised hist := by
  ext m
  simp [Initialised]

omit [DecidableEq ν] in
theorem initialised_del_cons : Initialised (Request.del n :: hist) = Initialised hist := by
  ext m
  simp [Initialised]

omit [DecidableEq ν] in
theorem Initialised.mono (h : Initialised hist n) : Initialised (op :: hist) n :=
  List.mem_cons_of_mem op h

theorem Valid.tail (h : Valid (op :: hist)) : Valid hist := by
  cases op <;> exact h.2

omit [DecidableEq ν] in
theorem delRequests_append (D : List ν) :
    delRequests (n :: D) ++ hist = delRequests D ++ .del n :: hist := by
  simp [delRequests]

theorem Valid.delRequests {D : List ν} (hvalid : Valid hist) (hD : ∀ n ∈ D, Initialised hist n) :
    Valid (delRequests D ++ hist) := by
  induction D generalizing hist with
  | nil => exact hvalid
  | cons n D ih =>
      rw [delRequests_append]
      exact ih ⟨hD n List.mem_cons_self, hvalid⟩ fun m hm => (hD m (List.mem_cons_of_mem n hm)).mono

variable [DecidableEq β] {bucket : κ → β} {i : β}

/-- A bucket holds the stored elements whose keys belong to it. -/
theorem mem_chains_iff (hvalid : Valid hist) :
    n ∈ chains bucket hist i ↔ ∃ k, storedKey hist n = some k ∧ bucket k = i := by
  induction hist generalizing n i with
  | nil => simp [chains, storedKey]
  | cons op hist ih =>
      have htail : ∀ n j, n ∈ chains bucket hist j ↔
          ∃ k, storedKey hist n = some k ∧ bucket k = j :=
        fun _ _ => ih hvalid.tail
      cases op with
      | init m => exact htail n i
      | add m k' =>
          -- the new element was in no bucket
          have hm : ∀ j, m ∉ chains bucket hist j := fun j hj => by
            obtain ⟨k, hk, -⟩ := (htail m j).mp hj
            simp [hvalid.1.2] at hk
          by_cases hi : i = bucket k'
          · subst hi
            by_cases hn : n = m
            · subst hn
              simp [chains, storedKey]
            · simp [chains, storedKey, hn, htail]
          · by_cases hn : n = m
            · subst hn
              simp [chains, storedKey, hi, hm i, Ne.symm hi]
            · simp [chains, storedKey, hi, hn, htail]
      | del m =>
          by_cases hn : n = m
          · subst hn
            simp [chains, storedKey]
          · simp [chains, storedKey, hn, htail]

theorem chains_nodup (hvalid : Valid hist) : (chains bucket hist i).Nodup := by
  induction hist generalizing i with
  | nil => exact List.nodup_nil
  | cons op hist ih =>
      cases op with
      | init m => exact ih hvalid.tail
      | add m k =>
          by_cases hi : i = bucket k
          · subst hi
            have hm : m ∉ chains bucket hist (bucket k) := fun hmem => by
              obtain ⟨k', hk, -⟩ := (mem_chains_iff hvalid.tail).mp hmem
              simp [hvalid.1.2] at hk
            simpa [chains] using ⟨hm, ih hvalid.tail⟩
          · simpa [chains, hi] using ih hvalid.tail
      | del m => exact (ih hvalid.tail).filter _

theorem length_chains_le : (chains bucket hist i).length ≤ hist.length := by
  induction hist generalizing i with
  | nil => exact le_refl 0
  | cons op hist ih =>
      cases op with
      | init m => exact ih.trans (Nat.le_succ _)
      | add m k =>
          by_cases hi : i = bucket k
          · subst hi
            simpa [chains] using ih
          · simpa [chains, hi] using ih.trans (Nat.le_succ _)
      | del m => exact (List.length_filter_le _ _).trans (ih.trans (Nat.le_succ _))

end Multimap
end Brlib
