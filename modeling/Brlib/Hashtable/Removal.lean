import Brlib.Hashtable.Run
import Brlib.Multimap.Newest

/-!
# Removing a key from a hash table

A client that goes over a bucket with `hash_for_each_possible_safe` and deletes the objects of
one key leaves the table of the history in which these were deleted: a multimap without the key,
and with everything else that it held (`hashtable_removes`).
-/

namespace Brlib
namespace Hashtable

open Heap SlotMem Hash Multimap Hlist

variable {ν : Type} [DecidableEq ν]

/-- `hash_for_each_possible_safe` -/
def hashForEachPossibleSafe (dels : List ν → List ν) (fuel : Nat) (ilog2 : UInt64 → UInt32)
    (size : UInt64) (key : Key) (m : SlotMem Nat ν) : Option (List ν × SlotMem Nat ν) := do
  let idx ← hashMin key (ilog2 size)
  let first ← m.load (firstSlot (.addr idx.toNat))
  let (_, visited, m) ← Hashtable.hlistForEachEntrySafe dels fuel first [] m
  some (visited, m)

/-- A body that deletes the object that it is called for, or leaves it there. -/
def deleteIf (p : ν → Bool) (visited : List ν) : List ν :=
  visited.getLast?.toList.filter p

variable {m₀ m m' : SlotMem Nat ν} {ilog2 : UInt64 → UInt32} {size : UInt64} {bits : UInt32}
variable {hist : List (Request ν Key)} {key : Key} {fuel : Nat} {p : ν → Bool} {n : ν}

omit [DecidableEq ν] in
theorem deleteIf_subset (visited : List ν) : deleteIf p visited ⊆ visited := by
  intro x hx
  have hlast : visited.getLast? = some x := by
    simpa using (List.mem_filter.mp hx).1
  exact List.mem_of_getLast? hlast

omit [DecidableEq ν] in
theorem deletions_deleteIf (visited l : List ν) :
    deletions (deleteIf p) visited l = l.filter p := by
  induction l generalizing visited with
  | nil => rfl
  | cons x l ih =>
      rw [deletions, ih, deleteIf, List.getLast?_concat, ← List.filter_append]
      rfl

theorem storedKey_delRequests (D : List ν) (n : ν) :
    storedKey (delRequests D ++ hist : List (Request ν Key)) n =
      if n ∈ D then none else storedKey hist n := by
  induction D generalizing hist with
  | nil => simp [delRequests]
  | cons x D ih =>
      rw [delRequests_append, ih]
      by_cases hD : n ∈ D
      · simp [hD]
      · by_cases hx : n = x
        · simp [storedKey, hx]
        · simp [storedKey, hD, hx]

theorem hashForEachPossibleSafe_spec {B : Nat → List ν} {known : ν → Prop} {idx : UInt32}
    {dels : List ν → List ν} (hT : Table m size.toNat B known) (hdels : ∀ vs, dels vs ⊆ vs)
    (hidx : hashMin key (ilog2 size) = some idx) (hlt : idx.toNat < size.toNat)
    (hfuel : (B idx.toNat).length < fuel) :
    ∃ m', hashForEachPossibleSafe dels fuel ilog2 size key m = some (B idx.toNat, m') ∧
      hashDels (deletions dels [] (B idx.toNat)) m = some m' := by
  have hh : m.liveHead idx.toNat = true := (hT.heads _).mpr hlt
  have hslot : m.liveSlot (.first idx.toNat) = true := hh
  have hfirst : m.content (.first idx.toNat) = headPtr (B idx.toNat) :=
    (hT.lists.chain _ hh).content_eq
  obtain ⟨m', hloop, hdel⟩ := @hlistForEachEntrySafe_spec _ _ m size.toNat fuel idx.toNat B known
    dels [] [] (B idx.toNat) hT hdels rfl (by simp) (by simp) hfuel
  exact ⟨m', by simp [hashForEachPossibleSafe, hidx, firstSlot, hslot, hfirst, hloop], hdel⟩

/-- **Removing a key.**  `p` compares the key of a stored object with `key`.  The loop visits
what `hash_for_each_possible` visits, and leaves the table of a history that stores no object
of the key, and everything else as before. -/
theorem hashtable_removes (hvalid : Valid hist) (hbits : 1 ≤ bits.toNat ∧ bits.toNat ≤ 30)
    (hsize : size.toNat = 2 ^ bits.toNat) (hilog2 : ilog2 size = bits)
    (hheads : ∀ i, m₀.liveHead i = true ↔ i < size.toNat)
    (hlive : ∀ n, Initialised hist n → m₀.live n = true) (hfuel : 2 * hist.length < fuel)
    (hp : ∀ n k, storedKey hist n = some k → (p n = true ↔ k = key)) :
    ∃ m visited m' hist' B, run ilog2 size hist m₀ = some m ∧
      hashForEachPossible fuel ilog2 size key m = some visited ∧
      hashForEachPossibleSafe (deleteIf p) fuel ilog2 size key m = some (visited, m') ∧
      Valid hist' ∧ run ilog2 size hist' m₀ = some m' ∧
      (∀ n, storedKey hist' n = if storedKey hist n = some key then none else storedKey hist n) ∧
      Consistent m' ilog2 size fuel hist' B := by
  subst hilog2
  obtain ⟨m, hrun, hreach⟩ := run_reached hvalid hbits hsize rfl hheads hlive
  obtain ⟨idx, hidx, hidx_eq, hlt⟩ := hashMin_eq hbits hsize key
  rw [← hidx_eq] at hlt
  have hbucket : ∀ i, (chains (bucketOf (ilog2 size)) hist i).length ≤ hist.length :=
    fun i => length_chains_le
  have hshort : (chains (bucketOf (ilog2 size)) hist idx.toNat).length < fuel := by
    have hle := hbucket idx.toNat
    omega
  obtain ⟨m', hsafe, hdel⟩ := @hashForEachPossibleSafe_spec _ _ m ilog2 size key fuel _ _ idx
    (deleteIf p) hreach.table deleteIf_subset hidx hlt hshort
  have hpossible := hashForEachPossible_spec hreach.table hidx hlt hshort
  rw [deletions_deleteIf] at hdel
  -- the history with the deletions
  have hmem : ∀ n ∈ (chains (bucketOf (ilog2 size)) hist idx.toNat).filter p,
      Initialised hist n := fun n hn =>
    hreach.table.stored _ n (List.mem_filter.mp hn).1
  have hvalid' := hvalid.delRequests hmem
  have hrun' : run ilog2 size (delRequests ((chains (bucketOf (ilog2 size)) hist
      idx.toNat).filter p) ++ hist) m₀ = some m' := by
    rw [run_delRequests, hrun, Option.bind_some, hdel]
  have hinit : ∀ n, Initialised (delRequests ((chains (bucketOf (ilog2 size)) hist
      idx.toNat).filter p) ++ hist) n → Initialised hist n := fun n hn => by
    simpa [Initialised, delRequests] using hn
  obtain ⟨m₁, hrun₁, hreach'⟩ := run_reached hvalid' hbits hsize rfl hheads
    fun n hn => hlive n (hinit n hn)
  obtain rfl : m₁ = m' := Option.some.inj (hrun₁.symm.trans hrun')
  refine ⟨m, _, m₁, _, _, hrun, hpossible, hsafe, hvalid', hrun', fun n => ?_,
    hreach'.consistent hvalid' hbits hsize rfl ?_⟩
  · rw [storedKey_delRequests]
    refine if_congr ?_ rfl rfl
    rw [hidx_eq, filter_bucket hvalid hp, mem_ofKey_iff hvalid]
  · have hle := hbucket idx.toNat
    have hfilter := List.length_filter_le p (chains (bucketOf (ilog2 size)) hist idx.toNat)
    rw [List.length_append, delRequests, List.length_reverse, List.length_map]
    omega

/-- The key 7 of `sample`, which the nodes 1 and 3 have. -/
theorem hashtable_removes_sample :
    ∃ m visited m' hist' B, run (fun sz => sz.log2.toUInt32) 4 sample blank = some m ∧
      hashForEachPossible 20 (fun sz => sz.log2.toUInt32) 4 (.u32 7) m = some visited ∧
      hashForEachPossibleSafe (deleteIf fun n => n = 1 ∨ n = 3) 20 (fun sz => sz.log2.toUInt32) 4
        (.u32 7) m = some (visited, m') ∧
      Valid hist' ∧ run (fun sz => sz.log2.toUInt32) 4 hist' blank = some m' ∧
      (∀ n, storedKey hist' n =
        if storedKey sample n = some (.u32 7) then none else storedKey sample n) ∧
      Consistent m' (fun sz => sz.log2.toUInt32) 4 20 hist' B := by
  refine @hashtable_removes _ _ blank (fun sz => sz.log2.toUInt32) 4 2 sample (.u32 7) 20
    (fun n => n = 1 ∨ n = 3) (by simp [sample, Valid, storedKey, Initialised]) (by decide) rfl
    (by decide) (fun i => by simp [blank]) (fun _ _ => rfl) (by decide) fun n k hk => ?_
  simp only [sample, storedKey, Function.update_apply] at hk
  split_ifs at hk <;> cases hk <;> simp_all

end Hashtable
end Brlib
