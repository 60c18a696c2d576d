import Brlib.Hashtable.Spec
import Brlib.Multimap.Chaining

/-!
# Runs of a hash table

A run starts with `hash_init` and executes the requests of a history.  The functions of
`hashtable.h` refine the multimap of `Brlib.Multimap.Chaining`: after every valid history
the buckets are `chains` for the bucket that `hash_min` computes, and every initialised
node that is not stored is unhashed (`run_reached`).  A deleting iteration is the history
of its deletions (`Reached.sweep`).  What a client sees follows (`hashtable_multimap`).
-/

namespace Brlib
namespace Hashtable

open Heap SlotMem Hash Multimap

variable {ν : Type} [DecidableEq ν]

/-- A request, as a call on the table. -/
def exec (ilog2 : UInt64 → UInt32) (size : UInt64) :
    Request ν Key → SlotMem Nat ν → Option (SlotMem Nat ν)
  | .init n => Hlist.initHlistNode (.addr n)
  | .add n key => hashAdd ilog2 size (.addr n) key
  | .del n => hashDel (.addr n)

/-- A run: `hash_init` and then the requests, the newest first in the list. -/
def run (ilog2 : UInt64 → UInt32) (size : UInt64) :
    List (Request ν Key) → SlotMem Nat ν → Option (SlotMem Nat ν)
  | [], m => hashInit size m
  | op :: hist, m => (run ilog2 size hist m).bind (exec ilog2 size op)

/-- The bucket of a key, in a table of `2 ^ bits` buckets. -/
def bucketOf (bits : UInt32) (key : Key) : Nat :=
  ((hashMin key bits).getD 0).toNat

/-- The memory `m` is one that the requests `hist` lead to from the memory `m₀`. -/
structure Reached (m₀ m : SlotMem Nat ν) (size : UInt64) (bits : UInt32)
    (hist : List (Request ν Key)) : Prop where
  table : Table m size.toNat (chains (bucketOf bits) hist) (Initialised hist)
  live : m.live = m₀.live

variable {m₀ m m' : SlotMem Nat ν} {ilog2 : UInt64 → UInt32} {size : UInt64} {bits : UInt32}
variable {hist : List (Request ν Key)} {op : Request ν Key} {fuel : Nat}

section Step

theorem hashMin_eq (hbits : 1 ≤ bits.toNat ∧ bits.toNat ≤ 30) (hsize : size.toNat = 2 ^ bits.toNat)
    (key : Key) :
    ∃ idx, hashMin key bits = some idx ∧ idx.toNat = bucketOf bits key ∧
      bucketOf bits key < size.toNat := by
  obtain ⟨idx, hidx, hlt⟩ := hashMin_lt key hbits.1 (by omega)
  refine ⟨idx, hidx, by simp [bucketOf, hidx], ?_⟩
  rw [hsize]
  simpa [bucketOf, hidx] using hlt

theorem stored_iff (hvalid : Valid hist) {n : ν} :
    (∃ i, n ∈ chains (bucketOf bits) hist i) ↔ ∃ key, storedKey hist n = some key := by
  constructor
  · rintro ⟨i, hi⟩
    obtain ⟨key, hkey, -⟩ := (mem_chains_iff hvalid).mp hi
    exact ⟨key, hkey⟩
  · rintro ⟨key, hkey⟩
    exact ⟨bucketOf bits key, (mem_chains_iff hvalid).mpr ⟨key, hkey, rfl⟩⟩

theorem not_mem_chains (hvalid : Valid hist) {n : ν} (hn : storedKey hist n = none) (i : Nat) :
    n ∉ chains (bucketOf bits) hist i := by
  intro hi
  obtain ⟨key, hkey, -⟩ := (mem_chains_iff hvalid).mp hi
  simp [hn] at hkey

theorem reached_init (hheads : ∀ i, m₀.liveHead i = true ↔ i < size.toNat) :
    ∃ m, hashInit size m₀ = some m ∧ Reached m₀ m size bits [] := by
  obtain ⟨m, hrun, hT, hlive⟩ := hashInit_spec hheads
  exact ⟨m, hrun, ⟨hT.lists, hT.heads, by simp [chains], by simp [Initialised],
    by simp [Initialised]⟩, hlive⟩

/-- One request keeps the table and the multimap together. -/
theorem reached_step (hreach : Reached m₀ m size bits hist) (hvalid : Valid (op :: hist))
    (hbits : 1 ≤ bits.toNat ∧ bits.toNat ≤ 30) (hsize : size.toNat = 2 ^ bits.toNat)
    (hilog2 : ilog2 size = bits)
    (hlive : ∀ n, Initialised (op :: hist) n → m₀.live n = true) :
    ∃ m', exec ilog2 size op m = some m' ∧ Reached m₀ m' size bits (op :: hist) := by
  cases op with
  | init n =>
      have hn : m.live n = true := by
        rw [hreach.live]
        exact hlive n List.mem_cons_self
      obtain ⟨m', hrun, hT, hlive'⟩ :=
        hreach.table.init hn (not_mem_chains hvalid.tail hvalid.1)
      refine ⟨m', hrun, ?_, hlive'.trans hreach.live⟩
      rw [initialised_init_cons]
      exact hT
  | add n key =>
      -- `HASH_BITS` is the number of bits of the table
      obtain ⟨idx, hidx, hidx_eq, hlt⟩ := hashMin_eq hbits hsize key
      obtain ⟨m', hrun, hT, hlive'⟩ := @hashAdd_spec _ _ m _ _ n ilog2 size key idx hreach.table
        hvalid.1.1 (not_mem_chains hvalid.tail hvalid.1.2) (by rw [hilog2, hidx])
        (by rw [hidx_eq]; exact hlt)
      refine ⟨m', hrun, ?_, hlive'.trans hreach.live⟩
      rw [hidx_eq] at hT
      rw [initialised_add_cons]
      exact hT
  | del n =>
      obtain ⟨m', hrun, hT, hlive'⟩ := hashDel_spec hreach.table hvalid.1
      refine ⟨m', hrun, ?_, hlive'.trans hreach.live⟩
      rw [initialised_del_cons]
      exact hT

/-- Every valid history runs without a fault. -/
theorem run_reached (hvalid : Valid hist) (hbits : 1 ≤ bits.toNat ∧ bits.toNat ≤ 30)
    (hsize : size.toNat = 2 ^ bits.toNat) (hilog2 : ilog2 size = bits)
    (hheads : ∀ i, m₀.liveHead i = true ↔ i < size.toNat)
    (hlive : ∀ n, Initialised hist n → m₀.live n = true) :
    ∃ m, run ilog2 size hist m₀ = some m ∧ Reached m₀ m size bits hist := by
  induction hist with
  | nil => exact reached_init hheads
  | cons op hist ih =>
      obtain ⟨m, hrun, hreach⟩ := ih hvalid.tail fun n hn => hlive n hn.mono
      obtain ⟨m', hexec, hreach'⟩ := reached_step hreach hvalid hbits hsize hilog2 hlive
      exact ⟨m', by rw [run, hrun, Option.bind_some, hexec], hreach'⟩

end Step

section Iteration

theorem run_delRequests (D : List ν) :
    run ilog2 size (delRequests D ++ hist) m₀ = (run ilog2 size hist m₀).bind (hashDels D) := by
  induction D generalizing hist with
  | nil =>
      cases hrun : run ilog2 size hist m₀ <;> simp [delRequests, hashDels, hrun]
  | cons x D ih =>
      have hdels : hashDels (x :: D) = fun m : SlotMem Nat ν =>
          (hashDel (.addr x) m).bind (hashDels D) := rfl
      rw [delRequests_append, ih, run, Option.bind_assoc, hdels]
      rfl

/-- The bodies of `hash_for_each_safe` are a run of requests: the table is one of a
history again. -/
theorem Reached.sweep {dels : List ν → List ν} (hreach : Reached m₀ m size bits hist)
    (hrun : run ilog2 size hist m₀ = some m) (hvalid : Valid hist)
    (hdels : ∀ vs, dels vs ⊆ vs) (hfuel : hist.length < fuel) :
    ∃ m' visited, hashForEachSafe dels fuel size m = some (visited, m') ∧
      hashForEach fuel size m = some visited ∧
      Valid (delRequests (deletions dels [] visited) ++ hist) ∧
      run ilog2 size (delRequests (deletions dels [] visited) ++ hist) m₀ = some m' := by
  have hbucket : ∀ i, (chains (bucketOf bits) hist i).length < fuel := fun i =>
    length_chains_le.trans_lt hfuel
  obtain ⟨m', hsafe, hdel⟩ := hashForEachSafe_spec hreach.table hdels hbucket
  refine ⟨m', _, hsafe, hashForEach_spec hreach.table hbucket,
    hvalid.delRequests fun n hn => ?_, ?_⟩
  · have hn' := deletions_subset hdels hn
    obtain ⟨i, -, hi⟩ := List.mem_flatMap.mp hn'
    exact hreach.table.stored i n hi
  · rw [run_delRequests, hrun, Option.bind_some, hdel]

end Iteration

section Client

/-- What a client sees of the table after the requests `hist`, which hold the nodes in
the buckets `B`. -/
structure Consistent (m : SlotMem Nat ν) (ilog2 : UInt64 → UInt32) (size : UInt64) (fuel : Nat)
    (hist : List (Request ν Key)) (B : Nat → List ν) : Prop where
  /-- A stored node is in the bucket of its key only, and once. -/
  mem_iff : ∀ n i, n ∈ B i ↔ ∃ key idx, storedKey hist n = some key ∧
    hashMin key (ilog2 size) = some idx ∧ idx.toNat = i
  nodup : ∀ i, (B i).Nodup
  /-- Every `pprev` is the slot that points to its node. -/
  chain : ∀ i, i < size.toNat → m.Chain (.first i) (B i)
  /-- `hash_for_each_possible` visits the nodes of a key. -/
  possible : ∀ key, ∃ visited,
    hashForEachPossible fuel ilog2 size key m = some visited ∧ visited.Nodup ∧
      ∀ n, storedKey hist n = some key → n ∈ visited
  /-- `hash_for_each` visits the stored nodes. -/
  all : ∃ visited, hashForEach fuel size m = some visited ∧ visited.Nodup ∧
    ∀ n, n ∈ visited ↔ ∃ key, storedKey hist n = some key
  /-- `hash_hashed` and `hash_empty` tell what is stored. -/
  hashed : ∀ n, Initialised hist n → ∃ hashed, hashHashed (.addr n) m = some hashed ∧
    (hashed = true ↔ ∃ key, storedKey hist n = some key)
  empty : ∃ empty, hashEmpty size m = some empty ∧
    (empty = true ↔ ∀ n, storedKey hist n = none)

theorem Reached.consistent (hreach : Reached m₀ m size bits hist) (hvalid : Valid hist)
    (hbits : 1 ≤ bits.toNat ∧ bits.toNat ≤ 30) (hsize : size.toNat = 2 ^ bits.toNat)
    (hilog2 : ilog2 size = bits) (hfuel : hist.length < fuel) :
    Consistent m ilog2 size fuel hist (chains (bucketOf bits) hist) := by
  have hT := hreach.table
  have hbucket : ∀ i, (chains (bucketOf bits) hist i).length < fuel := fun i =>
    length_chains_le.trans_lt hfuel
  subst hilog2
  refine ⟨fun n i => ?_, fun i => chains_nodup hvalid,
    fun i hi => hT.lists.chain i ((hT.heads i).mpr hi), fun key => ?_, ?_, fun n hn => ?_, ?_⟩
  · rw [mem_chains_iff hvalid]
    constructor
    · rintro ⟨key, hkey, rfl⟩
      obtain ⟨idx, hidx, hidx_eq, -⟩ := hashMin_eq hbits hsize key
      exact ⟨key, idx, hkey, hidx, hidx_eq⟩
    · rintro ⟨key, idx, hkey, hidx, rfl⟩
      exact ⟨key, hkey, by simp [bucketOf, hidx]⟩
  · obtain ⟨idx, hidx, hidx_eq, hlt⟩ := hashMin_eq hbits hsize key
    refine ⟨_, hashForEachPossible_spec hT hidx (by rw [hidx_eq]; exact hlt) (hbucket _),
      chains_nodup hvalid, fun n hn => ?_⟩
    exact (mem_chains_iff hvalid).mpr ⟨key, hn, hidx_eq.symm⟩
  · refine ⟨_, hashForEach_spec hT hbucket, ?_, fun n => ?_⟩
    · -- the visits are different: the buckets have no node in common
      refine List.nodup_flatMap.mpr ⟨fun i _ => chains_nodup hvalid, ?_⟩
      refine List.nodup_range.imp fun {i j} hij => ?_
      exact fun n hi hj => hij (hT.lists.apart i j n hi hj)
    · rw [← @stored_iff _ _ (ilog2 size) _ hvalid, List.mem_flatMap]
      constructor
      · rintro ⟨i, -, hi⟩
        exact ⟨i, hi⟩
      · rintro ⟨i, hi⟩
        exact ⟨i, List.mem_range.mpr ((hT.heads i).mp (hT.lists.head i n hi)), hi⟩
  · obtain ⟨hashed, hrun, hiff⟩ := hashHashed_spec hT hn
    exact ⟨hashed, hrun, hiff.trans (stored_iff hvalid)⟩
  · obtain ⟨empty, hrun, hiff⟩ := hashEmpty_spec hT
    refine ⟨empty, hrun, hiff.trans ⟨fun hnil n => ?_, fun hnone i => ?_⟩⟩
    · cases hn : storedKey hist n with
      | none => rfl
      | some key =>
          obtain ⟨i, hi⟩ := (@stored_iff _ _ (ilog2 size) _ hvalid n).mpr ⟨key, hn⟩
          rw [hnil i] at hi
          exact absurd hi List.not_mem_nil
    · rw [List.eq_nil_iff_forall_not_mem]
      exact fun n => not_mem_chains hvalid (hnone n) i

/-- After every valid history the table is a multimap of the nodes that were added and
not deleted; the size `1 << bits` is an `int`, so there are at most 30 bits.
`hash_for_each_safe` visits them like `hash_for_each`, whatever visited nodes
its body deletes, and leaves the table of the history with these deletions. -/
theorem hashtable_multimap (hvalid : Valid hist) (hbits : 1 ≤ bits.toNat ∧ bits.toNat ≤ 30)
    (hsize : size.toNat = 2 ^ bits.toNat) (hilog2 : ilog2 size = bits)
    (hheads : ∀ i, m₀.liveHead i = true ↔ i < size.toNat)
    (hlive : ∀ n, Initialised hist n → m₀.live n = true) (hfuel : hist.length < fuel) :
    ∃ m B, run ilog2 size hist m₀ = some m ∧ Consistent m ilog2 size fuel hist B ∧
      ∀ dels : List ν → List ν, (∀ vs, dels vs ⊆ vs) →
        ∃ m' visited, hashForEachSafe dels fuel size m = some (visited, m') ∧
          hashForEach fuel size m = some visited ∧
          Valid (delRequests (deletions dels [] visited) ++ hist) ∧
          run ilog2 size (delRequests (deletions dels [] visited) ++ hist) m₀ = some m' := by
  obtain ⟨m, hrun, hreach⟩ := run_reached hvalid hbits hsize hilog2 hheads hlive
  exact ⟨m, _, hrun, hreach.consistent hvalid hbits hsize hilog2 hfuel,
    fun dels hdels => hreach.sweep hrun hvalid hdels hfuel⟩

/-- A table of four buckets, before `hash_init`. -/
def blank : SlotMem Nat Nat where
  liveHead i := decide (i < 4)
  live _ := true
  first _ := .junk 0
  next _ := .junk 0
  pprev _ := .junk 0

/-- Three nodes of one key, one of which is deleted, and one of another key. -/
def sample : List (Request Nat Key) :=
  [.del 2, .add 4 (.u32 9), .add 3 (.u32 7), .add 2 (.u32 7), .add 1 (.u32 7), .init 4, .init 3,
    .init 2, .init 1]

theorem hashtable_multimap_sample :
    ∃ m B, run (fun sz => sz.log2.toUInt32) 4 sample blank = some m ∧
      Consistent m (fun sz => sz.log2.toUInt32) 4 10 sample B ∧
      ∀ dels : List Nat → List Nat, (∀ vs, dels vs ⊆ vs) →
        ∃ m' visited, hashForEachSafe dels 10 4 m = some (visited, m') ∧
          hashForEach 10 4 m = some visited ∧
          Valid (delRequests (deletions dels [] visited) ++ sample) ∧
          run (fun sz => sz.log2.toUInt32) 4 (delRequests (deletions dels [] visited) ++ sample)
            blank = some m' :=
  @hashtable_multimap _ _ blank (fun sz => sz.log2.toUInt32) 4 2 sample 10
    (by simp [sample, Valid, storedKey, Initialised]) (by decide) rfl (by decide)
    (fun i => by simp [blank]) (fun _ _ => rfl) (by decide)

end Client

end Hashtable
end Brlib
