import Brlib.Hashtable.Run
import Brlib.Multimap.Newest

/-!
# Looking up an object in a hash table

The iteration macros leave `obj` at the object at which the body breaks, and at NULL if it does
not.  `hash_for_each` is two loops: the outer one tests `obj`, so a `break` ends both.  A client
looks up a key with a body of `hash_for_each_possible` that breaks at an object of the key, and
finds the one that was added last (`hashtable_looks_up`).
-/

namespace Brlib
namespace Hashtable

open Heap SlotMem Hash Multimap Hlist

variable {ν : Type}

section Macros

variable (found : ν → Bool)

/-- `hlist_for_each_entry` from the position `pos` on, with a body that breaks at the objects
that are `found`: returns the last position and the objects visited. -/
def hlistForEachEntryUntil (m : SlotMem Nat ν) : Nat → Ptr ν → List ν → Option (Ptr ν × List ν)
  | 0, _, _ => none
  | _ + 1, .null, visited => some (.null, visited)
  | _ + 1, .junk _, _ => none
  | fuel + 1, .addr pos, visited =>
      if found pos then some (.addr pos, visited ++ [pos])
      else do
        let next ← m.load (nextSlot (.addr pos))
        hlistForEachEntryUntil m fuel next (visited ++ [pos])

/-- The outer loop of `hash_for_each`, from the bucket `bkt` on: returns `obj`, `bkt` and the
objects visited. -/
def hashForEachUntilLoop [DecidableEq ν] (fuel : Nat) (m : SlotMem Nat ν) :
    Nat → Nat → Ptr ν → List ν → Option (Ptr ν × Nat × List ν)
  | 0, bkt, obj, visited => some (obj, bkt, visited)
  | n + 1, bkt, obj, visited =>
      if obj ≠ .null then some (obj, bkt, visited)
      else do
        let first ← m.load (firstSlot (.addr bkt))
        let (obj, visited) ← hlistForEachEntryUntil found m fuel first visited
        hashForEachUntilLoop fuel m n (bkt + 1) obj visited

/-- `hash_for_each` -/
def hashForEachUntil [DecidableEq ν] (fuel : Nat) (size : UInt64) (m : SlotMem Nat ν) :
    Option (Ptr ν × Nat × List ν) :=
  hashForEachUntilLoop found fuel m size.toNat 0 .null []

/-- `hash_for_each_possible` -/
def hashForEachPossibleUntil (fuel : Nat) (ilog2 : UInt64 → UInt32) (size : UInt64) (key : Key)
    (m : SlotMem Nat ν) : Option (Ptr ν × List ν) := do
  let idx ← hashMin key (ilog2 size)
  let first ← m.load (firstSlot (.addr idx.toNat))
  hlistForEachEntryUntil found m fuel first []

/-- The elements of a sequence up to the first one that is found. -/
def upTo : List ν → List ν
  | [] => []
  | x :: l => if found x then [x] else x :: upTo l

end Macros

variable {found : ν → Bool} {m m₀ : SlotMem Nat ν} {l l₁ l₂ visited : List ν} {fuel i : Nat}

theorem upTo_append_of_found (h : l₁.filter found ≠ []) :
    upTo found (l₁ ++ l₂) = upTo found l₁ := by
  induction l₁ with
  | nil => exact absurd rfl h
  | cons x l₁ ih =>
      by_cases hx : found x
      · simp [upTo, hx]
      · have hrest : l₁.filter found ≠ [] := by rwa [List.filter_cons_of_neg hx] at h
        simp [upTo, hx, ih hrest]

theorem upTo_append_of_not_found (h : l₁.filter found = []) :
    upTo found (l₁ ++ l₂) = l₁ ++ upTo found l₂ := by
  induction l₁ with
  | nil => rfl
  | cons x l₁ ih =>
      have hx : ¬found x = true := fun hx => by
        rw [List.filter_cons_of_pos hx] at h
        exact List.cons_ne_nil _ _ h
      rw [List.filter_cons_of_neg hx] at h
      simp [upTo, hx, ih h]

theorem headPtr_eq_null_iff : headPtr l = .null ↔ l = [] := by
  cases l <;> simp [headPtr]

theorem hlistForEachEntryUntil_spec {s : Slot Nat ν} (hchain : m.Chain s l)
    (hlive : ∀ x ∈ l, m.live x = true) (hfuel : l.length < fuel) :
    hlistForEachEntryUntil found m fuel (m.content s) visited =
      some (headPtr (l.filter found), visited ++ upTo found l) := by
  induction l generalizing s visited fuel with
  | nil =>
      obtain ⟨fuel, rfl⟩ := Nat.exists_eq_succ_of_ne_zero (Nat.ne_of_gt hfuel)
      have hnull : m.content s = .null := hchain
      simp [hnull, hlistForEachEntryUntil, headPtr, upTo]
  | cons x l ih =>
      obtain ⟨fuel, rfl⟩ := Nat.exists_eq_succ_of_ne_zero (Nat.ne_zero_of_lt hfuel)
      obtain ⟨⟨hx, -⟩, hrest⟩ := hchain
      by_cases hfound : found x
      · simp [hx, hlistForEachEntryUntil, hfound, headPtr, upTo]
      · have hslot : m.liveSlot (.next x) = true := hlive x List.mem_cons_self
        have hloop := @ih (visited ++ [x]) fuel (.next x) hrest
          (fun y hy => hlive y (List.mem_cons_of_mem x hy)) (Nat.lt_of_succ_lt_succ hfuel)
        simp [hx, hlistForEachEntryUntil, hfound, nextSlot, hslot, hloop, upTo]

variable [DecidableEq ν] {B : Nat → List ν} {known : ν → Prop} {size : Nat}

theorem hashForEachUntilLoop_spec {n : Nat} (hT : Table m size B known) (hn : i + n ≤ size)
    (hfuel : ∀ i, (B i).length < fuel) :
    ∃ bkt, hashForEachUntilLoop found fuel m n i .null visited =
        some (headPtr (((List.range' i n).flatMap B).filter found), bkt,
          visited ++ upTo found ((List.range' i n).flatMap B)) ∧
      bkt ≤ i + n := by
  induction n generalizing i visited with
  | zero => exact ⟨i, by simp [hashForEachUntilLoop, headPtr, upTo], le_refl i⟩
  | succ n ih =>
      have hh : m.liveHead i = true := (hT.heads i).mpr (by omega)
      have hslot : m.liveSlot (.first i) = true := hh
      have hinner := @hlistForEachEntryUntil_spec _ found m (B i) visited fuel (.first i)
        (hT.lists.chain i hh) (hT.lists.live i) (hfuel i)
      rw [List.range'_succ, List.flatMap_cons, List.filter_append]
      by_cases hfound : (B i).filter found = []
      · obtain ⟨bkt, hloop, hle⟩ := @ih (visited ++ upTo found (B i)) (i + 1) (by omega)
        have hall : upTo found (B i) = B i := by
          simpa [upTo] using @upTo_append_of_not_found _ found (B i) [] hfound
        rw [hall] at hloop hinner
        have hnull : headPtr ([] : List ν) = .null := rfl
        refine ⟨bkt, ?_, by omega⟩
        rw [hfound, hnull] at hinner
        rw [hfound, List.nil_append, upTo_append_of_not_found hfound]
        simp [hashForEachUntilLoop, firstSlot, hslot, hinner, hloop]
      · -- the test of `obj` ends the outer loop
        have hobj : headPtr ((B i).filter found) ≠ .null :=
          fun hnull => hfound (headPtr_eq_null_iff.mp hnull)
        have hstop : ∀ visited, hashForEachUntilLoop found fuel m n (i + 1)
            (headPtr ((B i).filter found)) visited =
              some (headPtr ((B i).filter found), i + 1, visited) := by
          intro visited
          cases n <;> simp [hashForEachUntilLoop, hobj]
        have hhead : headPtr ((B i).filter found ++
            ((List.range' (i + 1) n).flatMap B).filter found) =
              headPtr ((B i).filter found) := by
          cases hl : (B i).filter found with
          | nil => exact absurd hl hfound
          | cons x l => rfl
        refine ⟨i + 1, ?_, by omega⟩
        rw [hhead, upTo_append_of_found hfound]
        simp [hashForEachUntilLoop, firstSlot, hslot, hinner, hstop]

variable {ilog2 : UInt64 → UInt32} {sz : UInt64} {bits : UInt32} {hist : List (Request ν Key)}

/-- **Lookups.**  After every valid history, a body of `hash_for_each_possible` that breaks at
an object of the key finds the one that was added last and not deleted since, and NULL when
there is none; without the break the objects of the key come newest first.  A body of
`hash_for_each` that breaks ends both loops, with `obj` at the first object at which it
breaks. -/
theorem hashtable_looks_up (hvalid : Valid hist) (hbits : 1 ≤ bits.toNat ∧ bits.toNat ≤ 30)
    (hsize : sz.toNat = 2 ^ bits.toNat) (hilog2 : ilog2 sz = bits)
    (hheads : ∀ i, m₀.liveHead i = true ↔ i < sz.toNat)
    (hlive : ∀ n, Initialised hist n → m₀.live n = true) (hfuel : hist.length < fuel) :
    ∃ m, run ilog2 sz hist m₀ = some m ∧
      (∀ key found, (∀ n k, storedKey hist n = some k → (found n = true ↔ k = key)) →
        ∃ visited, hashForEachPossible fuel ilog2 sz key m = some visited ∧
          visited.filter found = ofKey hist key ∧
          (∀ n, n ∈ ofKey hist key ↔ storedKey hist n = some key) ∧
          hashForEachPossibleUntil found fuel ilog2 sz key m =
            some (headPtr (ofKey hist key), upTo found visited)) ∧
      ∀ found, ∃ visited bkt, hashForEach fuel sz m = some visited ∧
        hashForEachUntil found fuel sz m =
          some (headPtr (visited.filter found), bkt, upTo found visited) ∧ bkt ≤ sz.toNat := by
  obtain ⟨m, hrun, hreach⟩ := run_reached hvalid hbits hsize hilog2 hheads hlive
  have hT := hreach.table
  have hbucket : ∀ i, (chains (bucketOf bits) hist i).length < fuel := fun i =>
    length_chains_le.trans_lt hfuel
  refine ⟨m, hrun, fun key found hfound => ?_, fun found => ?_⟩
  · obtain ⟨idx, hidx, hidx_eq, hlt⟩ := hashMin_eq hbits hsize key
    rw [← hidx_eq] at hlt
    subst hilog2
    have hh : m.liveHead idx.toNat = true := (hT.heads _).mpr hlt
    have hslot : m.liveSlot (.first idx.toNat) = true := hh
    have hkey : (chains (bucketOf (ilog2 sz)) hist idx.toNat).filter found = ofKey hist key := by
      rw [hidx_eq]
      exact filter_bucket hvalid hfound
    have hloop := @hlistForEachEntryUntil_spec ν found m
      (chains (bucketOf (ilog2 sz)) hist idx.toNat) [] fuel (.first idx.toNat)
      (hT.lists.chain _ hh) (hT.lists.live _) (hbucket _)
    refine ⟨_, hashForEachPossible_spec hT hidx hlt (hbucket _), hkey, fun n => mem_ofKey_iff hvalid, ?_⟩
    rw [hkey, List.nil_append] at hloop
    simp [hashForEachPossibleUntil, hidx, firstSlot, hslot, hloop]
  · obtain ⟨bkt, hloop, hle⟩ := @hashForEachUntilLoop_spec ν found m [] fuel 0 _ _ _ _ sz.toNat
      hT (by omega) hbucket
    rw [← List.range_eq_range', List.nil_append] at hloop
    exact ⟨_, bkt, hashForEach_spec hT hbucket, hloop, by omega⟩

/-- Of the objects of the key 7 in `sample`, 3 is the newest that is stored. -/
theorem hashtable_looks_up_sample :
    ∃ m visited, run (fun sz => sz.log2.toUInt32) 4 sample blank = some m ∧
      hashForEachPossibleUntil (fun n => n = 1 ∨ n = 3) 10 (fun sz => sz.log2.toUInt32) 4
        (.u32 7) m = some (.addr 3, visited) := by
  obtain ⟨m, hrun, hlookup, -⟩ := @hashtable_looks_up _ blank 10 _ (fun sz => sz.log2.toUInt32) 4 2
    sample (by simp [sample, Valid, storedKey, Initialised]) (by decide) (by decide) rfl
    (fun i => by simp [blank]) (fun _ _ => rfl) (by decide)
  obtain ⟨visited, -, -, -, hfound⟩ := hlookup (.u32 7) (fun n => n = 1 ∨ n = 3) fun n k hk => by
    simp only [sample, storedKey, Function.update_apply] at hk
    split_ifs at hk <;> cases hk <;> simp_all
  exact ⟨m, _, hrun, hfound⟩

end Hashtable
end Brlib
