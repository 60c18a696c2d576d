import Brlib.Hashtable.Basic
import Brlib.Hlist.Spec

/-!
# The functions of a hash table keep the buckets

`Table m size B known` says that the buckets of the table hold the lists `B`, and that
every known node that is on none of them is unhashed.  The iterations visit the buckets
in order, each from front to back.  `hash_for_each_safe` has read the next entry before
its body runs; whatever entries already visited the body deletes, the rest of the bucket
is as it was (`hlistForEachEntrySafe_spec`).
-/

namespace Brlib
namespace Hashtable

open Heap SlotMem Hlist Hash

variable {α : Type} [DecidableEq α]

/-- The buckets hold the lists `B`, and the known nodes are on them or unhashed. -/
structure Table (m : SlotMem Nat α) (size : Nat) (B : Nat → List α) (known : α → Prop) :
    Prop where
  lists : m.Lists B
  heads : ∀ i, m.liveHead i = true ↔ i < size
  stored : ∀ i, ∀ x ∈ B i, known x
  live : ∀ x, known x → m.live x = true
  idle : ∀ x, known x → (∀ i, x ∉ B i) → m.pprev x = .null

variable {m m' : SlotMem Nat α} {size fuel i : Nat} {B B' : Nat → List α} {known : α → Prop}
variable {x : α} {l : List α}

section Calls

omit [DecidableEq α] in
theorem Table.pprev_iff (hT : Table m size B known) (hx : known x) :
    m.pprev x = .null ↔ ∀ i, x ∉ B i := by
  constructor
  · intro hnull i hmem
    obtain ⟨s, hback, -⟩ := hT.lists.pprev_eq hmem
    simp [hback] at hnull
  · exact hT.idle x hx

theorem hashHashed_spec (hT : Table m size B known) (hx : known x) :
    ∃ hashed, hashHashed (.addr x) m = some hashed ∧ (hashed = true ↔ ∃ i, x ∈ B i) := by
  refine ⟨!decide (m.pprev x = .null), ?_, ?_⟩
  · simp [hashHashed, hlistUnhashed_eq (hT.live x hx)]
  · simp [hT.pprev_iff hx]

theorem hashEmptyLoop_spec {n : Nat} (hT : Table m size B known) (hn : i + n ≤ size) :
    ∃ empty, hashEmptyLoop m n i = some empty ∧
      (empty = true ↔ ∀ j, i ≤ j → j < i + n → B j = []) := by
  induction n generalizing i with
  | zero => exact ⟨true, rfl, by simp; omega⟩
  | succ n ih =>
      have hh : m.liveHead i = true := (hT.heads i).mpr (by omega)
      have hfirst := hlistEmpty_eq hT.lists hh
      by_cases hi : B i = []
      · obtain ⟨empty, hrun, hiff⟩ := @ih (i + 1) (by omega)
        refine ⟨empty, by simp [hashEmptyLoop, hfirst, hi, hrun], hiff.trans ?_⟩
        constructor
        · intro hall j hij hj
          rcases Nat.eq_or_lt_of_le hij with rfl | hlt
          · exact hi
          · exact hall j hlt (by omega)
        · exact fun hall j hij hj => hall j (by omega) (by omega)
      · refine ⟨false, by simp [hashEmptyLoop, hfirst, hi], ?_⟩
        simp only [Bool.false_eq_true, false_iff]
        exact fun hall => hi (hall i (le_refl i) (by omega))

theorem hashEmpty_spec {size : UInt64} (hT : Table m size.toNat B known) :
    ∃ empty, hashEmpty size m = some empty ∧ (empty = true ↔ ∀ i, B i = []) := by
  obtain ⟨empty, hrun, hiff⟩ :=
    @hashEmptyLoop_spec _ _ m size.toNat 0 B known size.toNat hT (by omega)
  refine ⟨empty, hrun, hiff.trans ⟨fun hall i => ?_, fun hall j _ _ => hall j⟩⟩
  by_cases hi : i < size.toNat
  · exact hall i (Nat.zero_le i) (by omega)
  · rw [List.eq_nil_iff_forall_not_mem]
    exact fun x hx => hi ((hT.heads i).mp (hT.lists.head i x hx))

theorem hashInitLoop_spec {n : Nat} (hheads : ∀ j, i ≤ j → j < i + n → m.liveHead j = true) :
    ∃ m', hashInitLoop n i m = some m' ∧ m'.liveHead = m.liveHead ∧ m'.live = m.live ∧
      m'.pprev = m.pprev ∧ (∀ j, i ≤ j → j < i + n → m'.first j = .null) ∧
      ∀ j, j < i → m'.first j = m.first j := by
  induction n generalizing i m with
  | zero => exact ⟨m, rfl, rfl, rfl, rfl, fun j _ _ => by omega, fun j _ => rfl⟩
  | succ n ih =>
      have hslot : m.liveSlot (.first i) = true := hheads i (le_refl i) (by omega)
      obtain ⟨m', hrun, hhead, hlive, hpprev, hnull, hold⟩ := @ih (m.put (.first i) .null) (i + 1)
        fun j hij hj => hheads j (by omega) (by omega)
      refine ⟨m', ?_, hhead, hlive, hpprev, fun j hij hj => ?_, fun j hj => ?_⟩
      · simp [hashInitLoop, initHlistHead, firstSlot, hslot, hrun]
      · rcases Nat.eq_or_lt_of_le hij with rfl | hlt
        · rw [hold i (by omega)]
          simp [put]
        · exact hnull j hlt (by omega)
      · have hne : i ≠ j := by omega
        rw [hold j (by omega)]
        simp [put, hne]

/-- `hash_init` makes an empty table, of which no node is known. -/
theorem hashInit_spec {size : UInt64} (hheads : ∀ i, m.liveHead i = true ↔ i < size.toNat) :
    ∃ m', hashInit size m = some m' ∧ Table m' size.toNat (fun _ => []) (fun _ => False) ∧
      m'.live = m.live := by
  obtain ⟨m', hrun, hhead, hlive, -, hnull, -⟩ := @hashInitLoop_spec _ _ m 0 size.toNat
    fun j _ hj => (hheads j).mpr (by omega)
  have hheads' : ∀ i, m'.liveHead i = true ↔ i < size.toNat := by
    rw [hhead]
    exact hheads
  refine ⟨m', hrun, ⟨⟨fun i hi => ?_, by simp, by simp, by simp, by simp⟩, hheads', by simp,
    by simp, by simp⟩, hlive⟩
  have hi' : i < size.toNat := (hheads' i).mp hi
  exact hnull i (Nat.zero_le i) (by omega)

/-- `INIT_HLIST_NODE` makes an unstored node known. -/
theorem Table.init (hT : Table m size B known) (hlive : m.live x = true) (hx : ∀ i, x ∉ B i) :
    ∃ m', initHlistNode (.addr x) m = some m' ∧
      Table m' size B (fun y => y = x ∨ known y) ∧ m'.live = m.live := by
  obtain ⟨m', hrun, -, hpprev, hsame⟩ := initHlistNode_spec hlive
  have hlists : m'.Lists B := hT.lists.frame hsame (by simp) fun i y hy hyx =>
    hx i (by simpa using (List.mem_singleton.mp hyx) ▸ hy)
  refine ⟨m', hrun, ⟨hlists, fun i => ?_, fun i y hy => .inr (hT.stored i y hy), fun y hy => ?_,
    fun y hy hnot => ?_⟩, hsame.live⟩
  · rw [hsame.liveHead]
    exact hT.heads i
  · rw [hsame.live]
    rcases hy with rfl | hy
    · exact hlive
    · exact hT.live y hy
  · by_cases hyx : y = x
    · exact hyx ▸ hpprev
    · rw [hsame.pprev y (by simpa using hyx)]
      exact hT.idle y (hy.resolve_left hyx) hnot

theorem hashAdd_spec {ilog2 : UInt64 → UInt32} {size : UInt64} {key : Key} {idx : UInt32}
    (hT : Table m size.toNat B known) (hx : known x) (hout : ∀ i, x ∉ B i)
    (hidx : hashMin key (ilog2 size) = some idx) (hlt : idx.toNat < size.toNat) :
    ∃ m', hashAdd ilog2 size (.addr x) key m = some m' ∧
      Table m' size.toNat (Function.update B idx.toNat (x :: B idx.toNat)) known ∧
      m'.live = m.live := by
  obtain ⟨m', hrun, hlists, hpprev, hsame⟩ :=
    hlistAddHead_spec hT.lists ((hT.heads _).mpr hlt) (hT.live x hx) hout
  -- a node in no bucket has not been touched
  refine ⟨m', by simp [hashAdd, hidx, hrun], ⟨hlists, fun i => ?_, fun i y hy => ?_,
    fun y hy => ?_, fun y hy hnot => ?_⟩, hsame.live⟩
  · rw [hsame.liveHead]
    exact hT.heads i
  · by_cases hi : i = idx.toNat
    · subst hi
      rw [Function.update_self] at hy
      rcases List.mem_cons.mp hy with rfl | hy
      · exact hx
      · exact hT.stored _ y hy
    · rw [Function.update_of_ne hi] at hy
      exact hT.stored i y hy
  · rw [hsame.live]
    exact hT.live y hy
  · have hnot_idx := hnot idx.toNat
    rw [Function.update_self] at hnot_idx
    rw [hsame.pprev y hnot_idx]
    refine hT.idle y hy fun i hmem => ?_
    by_cases hi : i = idx.toNat
    · exact hnot_idx (List.mem_cons_of_mem x (hi ▸ hmem))
    · have hnot_i := hnot i
      rw [Function.update_of_ne hi] at hnot_i
      exact hnot_i hmem

/-- `hash_del` takes a known node out of the bucket that it is in, if any. -/
theorem hashDel_spec (hT : Table m size B known) (hx : known x) :
    ∃ m', hashDel (.addr x) m = some m' ∧
      Table m' size (fun i => (B i).filter (· ≠ x)) known ∧ m'.live = m.live := by
  by_cases hstored : ∃ i, x ∈ B i
  · obtain ⟨i, hi⟩ := hstored
    obtain ⟨m', hrun, hlists, hpprev, hsame⟩ := hlistDelInit_spec hT.lists hi
    -- the node is in one bucket only, so the others are filtered in vain
    have hfilter : Function.update B i ((B i).erase x) = fun j => (B j).filter (· ≠ x) := by
      ext1 j
      by_cases hj : j = i
      · subst hj
        rw [Function.update_self, (hT.lists.nodup j).erase_eq_filter]
        apply List.filter_congr
        intro y _
        by_cases hyx : y = x <;> simp [hyx]
      · rw [Function.update_of_ne hj, List.filter_eq_self.mpr]
        intro y hy
        have hyx : y ≠ x := fun heq => hj (hT.lists.apart j i x (heq ▸ hy) hi)
        simpa using hyx
    rw [hfilter] at hlists
    refine ⟨m', hrun, ⟨hlists, fun j => ?_, fun j y hy => ?_, fun y hy => ?_,
      fun y hy hnot => ?_⟩, hsame.live⟩
    · rw [hsame.liveHead]
      exact hT.heads j
    · exact hT.stored j y (List.mem_filter.mp hy).1
    · rw [hsame.live]
      exact hT.live y hy
    · by_cases hyx : y = x
      · exact hyx ▸ hpprev
      · have hnot' : ∀ j, y ∉ B j := fun j hmem =>
          hnot j (List.mem_filter.mpr ⟨hmem, by simpa using hyx⟩)
        rw [hsame.pprev y (hnot' i)]
        exact hT.idle y hy hnot'
  · have hout : ∀ i, x ∉ B i := fun i hmem => hstored ⟨i, hmem⟩
    -- an unhashed node: `hash_del` does nothing
    have hfilter : (fun i => (B i).filter (· ≠ x)) = B := by
      ext1 i
      rw [List.filter_eq_self.mpr]
      intro y hy
      have hyx : y ≠ x := fun heq => hout i (heq ▸ hy)
      simpa using hyx
    rw [hfilter]
    exact ⟨m, hlistDelInit_unhashed (hT.live x hx) (hT.idle x hx hout), hT, rfl⟩

end Calls

section Iteration

omit [DecidableEq α] in
theorem hlistForEachEntry_spec {s : Slot Nat α} {visited : List α} (hchain : m.Chain s l)
    (hlive : ∀ x ∈ l, m.live x = true) (hfuel : l.length < fuel) :
    hlistForEachEntry m fuel (m.content s) visited = some (.null, visited ++ l) := by
  induction l generalizing s visited fuel with
  | nil =>
      obtain ⟨fuel, rfl⟩ : ∃ k, fuel = k + 1 := ⟨fuel - 1, by simp at hfuel; omega⟩
      have hnull : m.content s = .null := hchain
      simp [hnull, hlistForEachEntry]
  | cons x l ih =>
      obtain ⟨fuel, rfl⟩ : ∃ k, fuel = k + 1 := ⟨fuel - 1, by simp at hfuel; omega⟩
      obtain ⟨⟨hx, -⟩, hrest⟩ := hchain
      have hslot : m.liveSlot (.next x) = true := hlive x List.mem_cons_self
      have hloop := @ih fuel (.next x) (visited ++ [x]) hrest
        (fun y hy => hlive y (List.mem_cons_of_mem x hy)) (by simpa using hfuel)
      simp [hx, hlistForEachEntry, nextSlot, hslot, hloop]

theorem hashForEachLoop_spec {n : Nat} {visited : List α} (hT : Table m size B known)
    (hn : i + n ≤ size) (hfuel : ∀ i, (B i).length < fuel) :
    hashForEachLoop fuel m n i .null visited =
      some (visited ++ (List.range' i n).flatMap B) := by
  induction n generalizing i visited with
  | zero => simp [hashForEachLoop]
  | succ n ih =>
      have hh : m.liveHead i = true := (hT.heads i).mpr (by omega)
      have hslot : m.liveSlot (.first i) = true := hh
      have hinner := @hlistForEachEntry_spec _ m fuel (B i) (.first i) visited
        (hT.lists.chain i hh) (hT.lists.live i) (hfuel i)
      have hloop := @ih (i + 1) (visited ++ B i) (by omega)
      simp [hashForEachLoop, firstSlot, hslot, hinner, hloop, List.range'_succ]

theorem hashForEach_spec {size : UInt64} (hT : Table m size.toNat B known)
    (hfuel : ∀ i, (B i).length < fuel) :
    hashForEach fuel size m = some ((List.range size.toNat).flatMap B) := by
  have hloop := @hashForEachLoop_spec _ _ m size.toNat fuel 0 B known size.toNat [] hT (by omega)
    hfuel
  rw [hashForEach, hloop, List.nil_append, List.range_eq_range']

omit [DecidableEq α] in
theorem hashForEachPossible_spec {ilog2 : UInt64 → UInt32} {size : UInt64} {key : Key}
    {idx : UInt32} (hT : Table m size.toNat B known)
    (hidx : hashMin key (ilog2 size) = some idx) (hlt : idx.toNat < size.toNat)
    (hfuel : (B idx.toNat).length < fuel) :
    hashForEachPossible fuel ilog2 size key m = some (B idx.toNat) := by
  have hh : m.liveHead idx.toNat = true := (hT.heads _).mpr hlt
  have hslot : m.liveSlot (.first idx.toNat) = true := hh
  have hinner := @hlistForEachEntry_spec _ m fuel (B idx.toNat) (.first idx.toNat) []
    (hT.lists.chain _ hh) (hT.lists.live _) hfuel
  simp [hashForEachPossible, hidx, firstSlot, hslot, hinner]

theorem hashDels_spec {D : List α} (hT : Table m size B known) (hD : ∀ x ∈ D, known x) :
    ∃ m', hashDels D m = some m' ∧
      Table m' size (fun i => (B i).filter (· ∉ D)) known ∧ m'.live = m.live := by
  induction D generalizing m B with
  | nil => exact ⟨m, rfl, by simpa using hT, rfl⟩
  | cons x D ih =>
      obtain ⟨m₁, hdel, hT₁, hlive₁⟩ := hashDel_spec hT (hD x List.mem_cons_self)
      obtain ⟨m₂, hdels, hT₂, hlive₂⟩ := ih hT₁ fun y hy => hD y (List.mem_cons_of_mem x hy)
      refine ⟨m₂, by simp [hashDels, hdel, hdels], ?_, hlive₂.trans hlive₁⟩
      have hfilter : (fun i => ((B i).filter (· ≠ x)).filter (· ∉ D)) =
          fun i => (B i).filter (· ∉ x :: D) := by
        ext1 i
        rw [List.filter_filter]
        apply List.filter_congr
        intro y _
        simp [Bool.and_comm]
      rwa [← hfilter]

theorem hashDels_append (D E : List α) :
    hashDels (D ++ E) m = (hashDels D m).bind (hashDels E) := by
  induction D generalizing m with
  | nil => rfl
  | cons x D ih =>
      simp only [List.cons_append, hashDels]
      cases hashDel (.addr x) m with
      | none => rfl
      | some m' => exact ih

/-- The deletions of an iteration that has visited `visited` and goes on to visit a list. -/
def deletions (dels : List α → List α) : List α → List α → List α
  | _, [] => []
  | visited, x :: l => dels (visited ++ [x]) ++ deletions dels (visited ++ [x]) l

omit [DecidableEq α] in
theorem deletions_append (dels : List α → List α) (visited l₁ l₂ : List α) :
    deletions dels visited (l₁ ++ l₂) =
      deletions dels visited l₁ ++ deletions dels (visited ++ l₁) l₂ := by
  induction l₁ generalizing visited with
  | nil => simp [deletions]
  | cons x l₁ ih => simp [deletions, ih]

omit [DecidableEq α] in
theorem deletions_subset {dels : List α → List α} {visited : List α}
    (hdels : ∀ vs, dels vs ⊆ vs) : deletions dels visited l ⊆ visited ++ l := by
  induction l generalizing visited with
  | nil => exact List.nil_subset _
  | cons x l ih =>
      have hbody : dels (visited ++ [x]) ⊆ visited ++ x :: l := fun y hy => by
        have hy' := hdels _ hy
        simp only [List.mem_append, List.mem_singleton] at hy'
        rcases hy' with hy' | rfl
        · exact List.mem_append_left _ hy'
        · simp
      refine List.append_subset.mpr ⟨hbody, ?_⟩
      simpa using @ih (visited ++ [x])

/-- `hlist_for_each_entry_safe` from the entry behind `A` on, in the bucket `i`: it visits
the rest of the bucket, whatever visited entries the body deletes. -/
theorem hlistForEachEntrySafe_spec {dels : List α → List α} {visited A R : List α}
    (hT : Table m size B known) (hdels : ∀ vs, dels vs ⊆ vs) (hB : B i = A ++ R)
    (hvisited : ∀ x ∈ visited, known x) (hR : ∀ x ∈ R, x ∉ visited)
    (hfuel : R.length < fuel) :
    ∃ m', hlistForEachEntrySafe dels fuel (headPtr R) visited m =
        some (.null, visited ++ R, m') ∧
      hashDels (deletions dels visited R) m = some m' := by
  induction R generalizing fuel visited A B m with
  | nil =>
      obtain ⟨fuel, rfl⟩ : ∃ k, fuel = k + 1 := ⟨fuel - 1, by simp at hfuel; omega⟩
      exact ⟨m, by simp [headPtr, hlistForEachEntrySafe], rfl⟩
  | cons x R ih =>
      obtain ⟨fuel, rfl⟩ : ∃ k, fuel = k + 1 := ⟨fuel - 1, by simp at hfuel; omega⟩
      have hx : x ∈ B i := by simp [hB]
      have hslot : m.liveSlot (.next x) = true := hT.lists.live i x hx
      have hchain : m.Chain (.first i) (A ++ x :: R) := hB ▸ hT.lists.chain i (hT.lists.head i x hx)
      obtain ⟨-, -, -, -, hrest⟩ := hchain.pprev_eq
      have hnext : m.content (.next x) = headPtr R := hrest.content_eq
      -- the body leaves what is behind `x` in the bucket
      have hknown : ∀ y ∈ visited ++ [x], known y := by
        intro y hy
        rcases List.mem_append.mp hy with hy | hy
        · exact hvisited y hy
        · exact List.mem_singleton.mp hy ▸ hT.stored i x hx
      obtain ⟨m₁, hbody, hT₁, -⟩ := hashDels_spec hT fun y hy => hknown y (hdels _ hy)
      have hnodup : (x :: R).Nodup := by
        have hAR := hT.lists.nodup i
        rw [hB] at hAR
        exact hAR.of_append_right
      have hR' : ∀ y ∈ R, y ∉ visited ++ [x] := by
        intro y hy hmem
        rcases List.mem_append.mp hmem with hmem | hmem
        · exact hR y (List.mem_cons_of_mem x hy) hmem
        · exact (List.nodup_cons.mp hnodup).1 (List.mem_singleton.mp hmem ▸ hy)
      have hkept : (B i).filter (· ∉ dels (visited ++ [x])) =
          (A ++ [x]).filter (· ∉ dels (visited ++ [x])) ++ R := by
        have hfilter : R.filter (· ∉ dels (visited ++ [x])) = R :=
          List.filter_eq_self.mpr fun y hy => by
            simpa using fun hmem => hR' y hy (hdels _ hmem)
        rw [hB, List.append_cons A x R, List.filter_append, hfilter]
      obtain ⟨m', hloop, hdel⟩ := @ih m₁ fuel _ (visited ++ [x]) _ hT₁ hkept hknown hR'
        (by simpa using hfuel)
      refine ⟨m', ?_, ?_⟩
      · have hx_ptr : headPtr (x :: R) = .addr x := rfl
        simp [hx_ptr, hlistForEachEntrySafe, nextSlot, hslot, hnext, hbody, hloop]
      · simp [deletions, hashDels_append, hbody, hdel]

theorem hashForEachSafeLoop_spec {dels : List α → List α} {visited : List α} {n : Nat}
    (hT : Table m size B known) (hdels : ∀ vs, dels vs ⊆ vs) (hn : i + n ≤ size)
    (hvisited : ∀ x ∈ visited, known x) (hrest : ∀ j, i ≤ j → ∀ x ∈ B j, x ∉ visited)
    (hfuel : ∀ i, (B i).length < fuel) :
    ∃ m', hashForEachSafeLoop dels fuel n i .null visited m =
        some (visited ++ (List.range' i n).flatMap B, m') ∧
      hashDels (deletions dels visited ((List.range' i n).flatMap B)) m = some m' := by
  induction n generalizing i visited B m with
  | zero => exact ⟨m, by simp [hashForEachSafeLoop], rfl⟩
  | succ n ih =>
      have hh : m.liveHead i = true := (hT.heads i).mpr (by omega)
      have hslot : m.liveSlot (.first i) = true := hh
      have hfirst : m.content (.first i) = headPtr (B i) := (hT.lists.chain i hh).content_eq
      obtain ⟨m₁, hinner, hdel₁⟩ := @hlistForEachEntrySafe_spec _ _ m size fuel i B known dels
        visited [] (B i) hT hdels rfl hvisited (hrest i (le_refl i)) (hfuel i)
      have hknown : ∀ y ∈ visited ++ B i, known y := by
        intro y hy
        rcases List.mem_append.mp hy with hy | hy
        · exact hvisited y hy
        · exact hT.stored i y hy
      obtain ⟨m₁', hbody, hT₁, -⟩ := hashDels_spec hT fun y hy =>
        hknown y (deletions_subset hdels hy)
      obtain rfl : m₁ = m₁' := by simpa [hdel₁] using hbody
      -- the buckets behind this one are as they were
      have hout : ∀ j, i + 1 ≤ j → ∀ x ∈ B j, x ∉ visited ++ B i := by
        intro j hj x hx hmem
        rcases List.mem_append.mp hmem with hmem | hmem
        · exact hrest j (by omega) x hx hmem
        · have hij : j = i := hT.lists.apart j i x hx hmem
          omega
      have hkept : ∀ j, i + 1 ≤ j → (B j).filter (· ∉ deletions dels visited (B i)) = B j :=
        fun j hj => List.filter_eq_self.mpr fun x hx => by
          simpa using fun hmem => hout j hj x hx (deletions_subset hdels hmem)
      obtain ⟨m', hloop, hdel⟩ := @ih m₁ (i + 1) _ (visited ++ B i) hT₁ (by omega) hknown
        (fun j hj x hx => hout j hj x (List.mem_filter.mp hx).1)
        (fun j => (List.length_filter_le _ _).trans_lt (hfuel j))
      have hflat : (List.range' (i + 1) n).flatMap
            (fun j => (B j).filter (· ∉ deletions dels visited (B i))) =
          (List.range' (i + 1) n).flatMap B :=
        List.flatMap_congr fun j hj => hkept j (List.mem_range'_1.mp hj).1
      rw [hflat] at hloop hdel
      refine ⟨m', ?_, ?_⟩
      · simp [hashForEachSafeLoop, firstSlot, hslot, hfirst, hinner, hloop, List.range'_succ]
      · simp [List.range'_succ, deletions_append, hashDels_append, hdel₁, hdel]

/-- `hash_for_each_safe` visits what `hash_for_each` visits, and does to the memory what
its bodies do one after the other. -/
theorem hashForEachSafe_spec {size : UInt64} {dels : List α → List α}
    (hT : Table m size.toNat B known) (hdels : ∀ vs, dels vs ⊆ vs)
    (hfuel : ∀ i, (B i).length < fuel) :
    ∃ m', hashForEachSafe dels fuel size m =
        some ((List.range size.toNat).flatMap B, m') ∧
      hashDels (deletions dels [] ((List.range size.toNat).flatMap B)) m = some m' := by
  obtain ⟨m', hloop, hdel⟩ := @hashForEachSafeLoop_spec _ _ m size.toNat fuel 0 B known dels []
    size.toNat hT hdels (by omega) (by simp) (by simp) hfuel
  rw [← List.range_eq_range'] at hloop hdel
  exact ⟨m', hloop, hdel⟩

end Iteration

end Hashtable
end Brlib
