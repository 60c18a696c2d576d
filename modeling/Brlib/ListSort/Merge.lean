import Brlib.ListSort.Basic
import Brlib.Merging.Runs

/-!
# The two merges on null-terminated lists

`merge` and `merge_final` walk two chains and link their cells in the order in
which `mergeLists` merges the two sequences.  `merge` leaves a chain and writes
no `prev` field; `merge_final` leaves a ring around the head of the list.

Both are inductions on the fuel: each round takes one cell off one of the two
chains, links it behind the slot or the cell reached so far, and what the later
rounds write is disjoint from that link.
-/

namespace Brlib
namespace ListSort

open Heap Heap.Mem Merging

variable {α π : Type} [DecidableEq α] {cmp : ListCmpFunc π α}
variable {m m' : Mem α} {a b h t x : α} {l k ns ps xs : List α} {s : π}

section Slots

/-- What a slot for a `next` field or the variable `head` holds. -/
def Slot.readNext (tail : Slot α) (head : Ptr α) (m : Mem α) : Ptr α :=
  match tail with
  | .field (.addr t) => m.next t
  | _ => head

@[simp] theorem Slot.storeNext_field (p v head : Ptr α) (m : Mem α) :
    (Slot.field p).storeNext v head m = (m.setNext p v).map fun m => (head, m) := rfl

/-- The cell a slot belongs to. -/
def Slot.cells : Slot α → List α
  | .field (.addr t) => [t]
  | _ => []

/-- The slot can be stored through and is no field of the cells `xs`. -/
def Slot.Free (m : Mem α) (xs : List α) : Slot α → Prop
  | .var => True
  | .field (.addr t) => m.live t = true ∧ t ∉ xs
  | .field _ => False

variable {tail : Slot α} {head v : Ptr α}

omit [DecidableEq α] in
theorem Slot.Free.mono {ys : List α} (hfree : tail.Free m ys) (hsub : xs ⊆ ys)
    (hlive : m'.live = m.live) : tail.Free m' xs := by
  match tail, hfree with
  | .var, _ => trivial
  | .field (.addr t), hfree =>
      exact ⟨by rw [hlive, hfree.1], fun hmem => hfree.2 (hsub hmem)⟩

theorem Slot.storeNext_spec (hfree : tail.Free m xs) :
    ∃ head' m', tail.storeNext v head m = some (head', m') ∧ tail.readNext head' m' = v ∧
      (tail ≠ .var → head' = head) ∧ Touches m m' tail.cells [] := by
  match tail, hfree with
  | .var, _ => exact ⟨v, m, rfl, rfl, fun hne => absurd rfl hne, Touches.refl m _ _⟩
  | .field (.addr t), hfree =>
      have hstore : (Slot.field (.addr t)).storeNext v head m =
          some (head, m.putNext t v) := by simp [Slot.storeNext, hfree.1]
      have hread : (m.putNext t v).next t = v := by simp
      have htouch : Touches m (m.putNext t v) [t] [] :=
        (Touches.refl m [t] []).putNext List.mem_cons_self v
      exact ⟨head, m.putNext t v, hstore, hread, fun _ => rfl, htouch⟩

omit [DecidableEq α] in
theorem Slot.readNext_frame (hfree : tail.Free m ns) (htouch : Touches m m' ns ps) :
    tail.readNext head m' = tail.readNext head m := by
  match tail, hfree with
  | .var, _ => rfl
  | .field (.addr t), hfree => exact htouch.next t hfree.2

omit [DecidableEq α] in
theorem Slot.not_mem_cells (hfree : tail.Free m xs) (hx : x ∈ xs) : x ∉ tail.cells := by
  match tail, hfree with
  | .var, _ => simp [Slot.cells]
  | .field (.addr t), hfree =>
      intro hmem
      rw [List.mem_singleton.mp hmem] at hx
      exact hfree.2 hx

end Slots

section Merge

omit [DecidableEq α] in
theorem callCmp_addr (ha : m.live a = true) (hb : m.live b = true) :
    callCmp cmp s (.addr a) (.addr b) m = some (cmp s a b) := by
  simp [callCmp, ha, hb]

omit [DecidableEq α] in
theorem chain_of_taken {tail : Slot α} {head₁ : Ptr α} {m₁ : Mem α} {all rest out : List α}
    (hfree : tail.Free m all) (hread : tail.readNext head₁ m₁ = .addr x)
    (hstore : Touches m m₁ tail.cells []) (hsub : x :: rest ⊆ all) (hlive : m.live x = true)
    (hchain : m'.Chain (m'.next x) out) (hrun : Touches m₁ m' (x :: rest) []) :
    m'.Chain (tail.readNext head₁ m') (x :: out) ∧ Touches m m' (tail.cells ++ all) [] := by
  constructor
  · have hfree₁ : tail.Free m₁ (x :: rest) := hfree.mono hsub hstore.live
    rw [Slot.readNext_frame hfree₁ hrun, hread]
    exact ⟨rfl, by rw [hrun.live, hstore.live, hlive], hchain⟩
  · have hrun' : Touches m₁ m' (tail.cells ++ all) [] :=
      hrun.mono (fun y hy => List.mem_append_right _ (hsub hy)) (List.Subset.refl _)
    exact (hstore.mono (List.subset_append_left _ _) (List.Subset.refl _)).trans hrun'

theorem chain_of_last {p : Ptr α} {ys : List α} (ht : m.live t = true) (hout : t ∉ ys)
    (hchain : m.Chain p ys) :
    m.setNext (.addr t) p = some (m.putNext t p) ∧
      (m.putNext t p).Chain ((m.putNext t p).next t) ys ∧
      Touches m (m.putNext t p) [t] [] := by
  have htouch : Touches m (m.putNext t p) [t] [] :=
    (Touches.refl m [t] []).putNext List.mem_cons_self p
  refine ⟨setNext_addr ht p, ?_, htouch⟩
  rw [putNext_next, if_pos rfl]
  refine hchain.frame htouch fun y hy hmem => hout ?_
  rw [← List.mem_singleton.mp hmem]
  exact hy

/-- The cell `x` has been taken off its chain: what is left of it and the other chain are as
they were, and the `next` field of `x` is the slot from now on. -/
structure Taken (m m₁ : Mem α) (x : α) (rest : List α) (q : Ptr α) (other : List α) : Prop where
  live : m₁.live x = true
  next : m₁.next x = m.next x
  rest_chain : m₁.Chain (m.next x) rest
  other_chain : m₁.Chain q other
  free : (Slot.field (.addr x)).Free m₁ (rest ++ other)

omit [DecidableEq α] in
theorem taken_of_touches {m₁ : Mem α} {rest other : List α} {q : Ptr α}
    (hstore : Touches m m₁ ns ps) (hx : m.Chain (.addr x) (x :: rest)) (hother : m.Chain q other)
    (hkeep : ∀ y ∈ x :: (rest ++ other), y ∉ ns) (hnodup : (x :: (rest ++ other)).Nodup) :
    Taken m m₁ x rest q other := by
  have hlive : m₁.live x = true := by rw [hstore.live, hx.2.1]
  constructor
  · exact hlive
  · exact hstore.next x (hkeep x (by simp))
  · exact hx.2.2.frame hstore fun y hy => hkeep y (by simp [hy])
  · exact hother.frame hstore fun y hy => hkeep y (by simp [hy])
  · exact ⟨hlive, (List.nodup_cons.mp hnodup).1⟩

/-- The loop of `merge`, from any slot outside of the two chains. -/
theorem mergeLoop_spec {fuel : Nat} {tail : Slot α} {head : Ptr α}
    (ha : m.Chain (.addr a) (a :: l)) (hb : m.Chain (.addr b) (b :: k))
    (hnodup : (a :: l ++ b :: k).Nodup) (hfree : tail.Free m (a :: l ++ b :: k))
    (hfuel : l.length + k.length < fuel) :
    ∃ head' m', mergeLoop cmp fuel (.addr a) (.addr b) tail head s m =
        some (head', (mergeLists cmp (a :: l) (b :: k) s).priv, m') ∧
      m'.Chain (tail.readNext head' m') (mergeLists cmp (a :: l) (b :: k) s).out ∧
      (tail ≠ .var → head' = head) ∧
      Touches m m' (tail.cells ++ (a :: l ++ b :: k)) [] := by
  induction fuel generalizing a l b k tail head s m with
  | zero => omega
  | succ fuel ih =>
      have hcall : callCmp cmp s (.addr a) (.addr b) m = some (cmp s a b) :=
        callCmp_addr ha.2.1 hb.2.1
      by_cases hle : (cmp s a b).1 ≤ 0
      · -- the cell `a` is taken
        obtain ⟨head₁, m₁, hstore, hread, hhead, htouch⟩ :=
          @Slot.storeNext_spec _ _ m _ tail head (.addr a) hfree
        have htaken : Taken m m₁ a l (.addr b) (b :: k) :=
          taken_of_touches htouch ha hb (fun y hy => Slot.not_mem_cells hfree hy) hnodup
        have hnext := htaken.next
        have hnull := htaken.rest_chain.eq_null_iff
        rw [mergeLists_of_le hle]
        cases l with
        | nil =>
            -- its chain is used up: the other one follows as it is
            obtain ⟨hlast, hchain, hrun⟩ :=
              chain_of_last htaken.live htaken.free.2 htaken.other_chain
            obtain ⟨hres, hres'⟩ := chain_of_taken hfree hread htouch (show [a] ⊆ _ by simp)
              ha.2.1 hchain hrun
            refine ⟨head₁, m₁.putNext a (.addr b), ?_, ?_, hhead, hres'⟩
            · rw [hnull.mpr rfl] at hnext
              simp [mergeLoop, hcall, hle, hstore, htaken.live, hnext]
            · simpa using hres
        | cons x l =>
            have hx : m.next a = .addr x := htaken.rest_chain.1
            have hl₁ := htaken.rest_chain
            rw [hx] at hl₁ hnext
            -- `tail` is the `next` field of `a` from now on
            obtain ⟨head', m', hloop, hchain, hhead', hrun⟩ := ih hl₁ htaken.other_chain
              (List.nodup_cons.mp hnodup).2 htaken.free (by simp at hfuel; omega)
            obtain rfl : head' = head₁ := hhead' (by simp)
            have hsub : a :: (x :: l ++ b :: k) ⊆ a :: x :: l ++ b :: k :=
              List.Subset.refl _
            obtain ⟨hres, hres'⟩ := chain_of_taken hfree hread htouch hsub
              ha.2.1 hchain hrun
            refine ⟨head', m', ?_, hres, hhead, hres'⟩
            simp [mergeLoop, hcall, hle, hstore, htaken.live, hnext, hloop]
      · -- the cell `b` is taken
        obtain ⟨head₁, m₁, hstore, hread, hhead, htouch⟩ :=
          @Slot.storeNext_spec _ _ m _ tail head (.addr b) hfree
        have hperm : (b :: (k ++ a :: l)).Perm (a :: l ++ b :: k) :=
          @List.perm_append_comm _ (b :: k) (a :: l)
        have htaken : Taken m m₁ b k (.addr a) (a :: l) :=
          taken_of_touches htouch hb ha
            (fun y hy => Slot.not_mem_cells hfree (hperm.mem_iff.mp hy))
            (hperm.nodup_iff.mpr hnodup)
        have hnext := htaken.next
        have hnull := htaken.rest_chain.eq_null_iff
        rw [mergeLists_of_gt hle]
        cases k with
        | nil =>
            obtain ⟨hlast, hchain, hrun⟩ :=
              chain_of_last htaken.live htaken.free.2 htaken.other_chain
            obtain ⟨hres, hres'⟩ := chain_of_taken hfree hread htouch (show [b] ⊆ _ by simp)
              hb.2.1 hchain hrun
            refine ⟨head₁, m₁.putNext b (.addr a), ?_, ?_, hhead, hres'⟩
            · rw [hnull.mpr rfl] at hnext
              simp [mergeLoop, hcall, hle, hstore, htaken.live, hnext]
            · simpa using hres
        | cons x k =>
            have hx : m.next b = .addr x := htaken.rest_chain.1
            have hk₁ := htaken.rest_chain
            rw [hx] at hk₁ hnext
            have hnodup' : (b :: (a :: l ++ x :: k)).Nodup :=
              (@List.perm_middle _ b (a :: l) (x :: k)).nodup_iff.mp hnodup
            have hfree' : (Slot.field (.addr b)).Free m₁ (a :: l ++ x :: k) :=
              ⟨htaken.live, (List.nodup_cons.mp hnodup').1⟩
            obtain ⟨head', m', hloop, hchain, hhead', hrun⟩ := ih htaken.other_chain hk₁
              (List.nodup_cons.mp hnodup').2 hfree' (by simp at hfuel; omega)
            obtain rfl : head' = head₁ := hhead' (by simp)
            have hsub : b :: (a :: l ++ x :: k) ⊆ a :: l ++ b :: x :: k :=
              (@List.perm_middle _ b (a :: l) (x :: k)).symm.subset
            obtain ⟨hres, hres'⟩ := chain_of_taken hfree hread htouch hsub
              hb.2.1 hchain hrun
            refine ⟨head', m', ?_, hres, hhead, hres'⟩
            simp [mergeLoop, hcall, hle, hstore, htaken.live, hnext, hloop]

/-- `merge` leaves the merged sequence as a chain. -/
theorem merge_spec {fuel : Nat} {p q : Ptr α} (hl : m.Chain p l) (hk : m.Chain q k)
    (hl_ne : l ≠ []) (hk_ne : k ≠ []) (hnodup : (l ++ k).Nodup)
    (hfuel : l.length + k.length ≤ fuel) :
    ∃ p' m', merge cmp fuel s p q m = some (p', (mergeLists cmp l k s).priv, m') ∧
      m'.Chain p' (mergeLists cmp l k s).out ∧ Touches m m' (l ++ k) [] := by
  cases l with
  | nil => exact absurd rfl hl_ne
  | cons a l =>
      cases k with
      | nil => exact absurd rfl hk_ne
      | cons b k =>
          obtain rfl : p = .addr a := hl.1
          obtain rfl : q = .addr b := hk.1
          have hfuel' : l.length + k.length < fuel := by
            simp only [List.length_cons] at hfuel
            omega
          obtain ⟨head', m', hloop, hchain, -, hrun⟩ :=
            @mergeLoop_spec _ _ _ cmp m a b l k s fuel .var .null hl hk hnodup trivial hfuel'
          exact ⟨head', m', hloop, hchain, hrun⟩

end Merge

end ListSort
end Brlib
