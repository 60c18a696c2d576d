import Brlib.Heap.Ring

/-!
# Null-terminated chains

A chain is followed through `next` until a null pointer; the `prev` fields of
its cells are free for other use.  A list of chains uses them: the `prev` field
of the first cell of each chain points to the next chain.

The two fields of a cell therefore have different owners, and `Touches` keeps
apart the cells whose `next` and the cells whose `prev` a program writes.
-/

namespace Brlib
namespace Heap
namespace Mem

variable {α : Type*}

/-- The only fields that differ are the `next` fields of `ns` and the `prev`
fields of `ps`. -/
structure Touches (m m' : Mem α) (ns ps : List α) : Prop where
  live : m'.live = m.live
  next : ∀ x, x ∉ ns → m'.next x = m.next x
  prev : ∀ x, x ∉ ps → m'.prev x = m.prev x

namespace Touches

variable {m m' m'' : Mem α} {ns ns' ps ps' : List α}

theorem refl (m : Mem α) (ns ps : List α) : Touches m m ns ps :=
  ⟨rfl, fun _ _ => rfl, fun _ _ => rfl⟩

theorem trans (h : Touches m m' ns ps) (h' : Touches m' m'' ns ps) : Touches m m'' ns ps where
  live := h'.live.trans h.live
  next x hx := (h'.next x hx).trans (h.next x hx)
  prev x hx := (h'.prev x hx).trans (h.prev x hx)

theorem mono (h : Touches m m' ns ps) (hns : ns ⊆ ns') (hps : ps ⊆ ps') :
    Touches m m' ns' ps' where
  live := h.live
  next x hx := h.next x fun hmem => hx (hns hmem)
  prev x hx := h.prev x fun hmem => hx (hps hmem)

theorem putNext [DecidableEq α] {a : α} (h : Touches m m' ns ps) (ha : a ∈ ns) (v : Ptr α) :
    Touches m (m'.putNext a v) ns ps where
  live := h.live
  next x hx := by
    have hne : x ≠ a := fun heq => hx (heq ▸ ha)
    simpa [hne] using h.next x hx
  prev := h.prev

theorem putPrev [DecidableEq α] {a : α} (h : Touches m m' ns ps) (ha : a ∈ ps) (v : Ptr α) :
    Touches m (m'.putPrev a v) ns ps where
  live := h.live
  next := h.next
  prev x hx := by
    have hne : x ≠ a := fun heq => hx (heq ▸ ha)
    simpa [hne] using h.prev x hx

theorem sameOutside {xs : List α} (h : Touches m m' ns ps) (hns : ns ⊆ xs) (hps : ps ⊆ xs) :
    SameOutside m m' xs where
  live := h.live
  next x hx := h.next x fun hmem => hx (hns hmem)
  prev x hx := h.prev x fun hmem => hx (hps hmem)

end Touches

/-- From `p` the `next` fields lead through the live cells of `l` to null. -/
def Chain (m : Mem α) : Ptr α → List α → Prop
  | p, [] => p = .null
  | p, x :: l => p = .addr x ∧ m.live x = true ∧ m.Chain (m.next x) l

/-- From `p` the `prev` fields of the first cells lead through chains, none of
them empty, to null. -/
def Chains (m : Mem α) : Ptr α → List (List α) → Prop
  | p, [] => p = .null
  | _, [] :: _ => False
  | p, (x :: l) :: runs => m.Chain p (x :: l) ∧ m.Chains (m.prev x) runs

section Chain

variable {m m' : Mem α} {p : Ptr α} {a x : α} {l ns ps : List α} {runs : List (List α)}

@[simp] theorem chain_nil : m.Chain p [] ↔ p = .null := Iff.rfl

@[simp] theorem chain_cons :
    m.Chain p (x :: l) ↔ p = .addr x ∧ m.live x = true ∧ m.Chain (m.next x) l := Iff.rfl

@[simp] theorem chains_nil : m.Chains p [] ↔ p = .null := Iff.rfl

@[simp] theorem chains_cons :
    m.Chains p ((x :: l) :: runs) ↔ m.Chain p (x :: l) ∧ m.Chains (m.prev x) runs := Iff.rfl

theorem Chain.live (h : m.Chain p l) : ∀ x ∈ l, m.live x = true := by
  induction l generalizing p with
  | nil => simp
  | cons x l ih => exact List.forall_mem_cons.mpr ⟨h.2.1, ih h.2.2⟩

theorem Chain.eq_null_iff (h : m.Chain p l) : p = .null ↔ l = [] := by
  cases l with
  | nil => simpa using h
  | cons x l => simp [h.1]

theorem Chain.frame (h : m.Chain p l) (htouch : Touches m m' ns ps)
    (hout : ∀ x ∈ l, x ∉ ns) : m'.Chain p l := by
  induction l generalizing p with
  | nil => exact h
  | cons x l ih =>
      obtain ⟨hp, hlive, hrest⟩ := h
      refine ⟨hp, by rw [htouch.live, hlive], ?_⟩
      rw [htouch.next x (hout x List.mem_cons_self)]
      exact ih hrest fun y hy => hout y (List.mem_cons_of_mem x hy)

theorem Chains.ne_nil (h : m.Chains p runs) : ∀ run ∈ runs, run ≠ [] := by
  induction runs generalizing p with
  | nil => simp
  | cons run runs ih =>
      cases run with
      | nil => exact h.elim
      | cons x l => exact List.forall_mem_cons.mpr ⟨List.cons_ne_nil x l, ih h.2⟩

theorem Chains.length_le (h : m.Chains p runs) : runs.length ≤ runs.flatten.length := by
  induction runs generalizing p with
  | nil => simp
  | cons run runs ih =>
      cases run with
      | nil => exact h.elim
      | cons x l =>
          have hle := ih h.2
          rw [List.length_cons, List.flatten_cons, List.length_append, List.length_cons]
          omega

theorem Chains.frame (h : m.Chains p runs) (htouch : Touches m m' ns ps)
    (hns : ∀ x ∈ runs.flatten, x ∉ ns) (hps : ∀ x ∈ runs.flatten, x ∉ ps) :
    m'.Chains p runs := by
  induction runs generalizing p with
  | nil => exact h
  | cons run runs ih =>
      cases run with
      | nil => exact h.elim
      | cons x l =>
          rw [List.flatten_cons] at hns hps
          refine ⟨h.1.frame htouch fun y hy => hns y (List.mem_append_left _ hy), ?_⟩
          rw [htouch.prev x (hps x (by simp))]
          exact ih h.2 (fun y hy => hns y (List.mem_append_right _ hy))
            fun y hy => hps y (List.mem_append_right _ hy)

/-- A ring whose last cell is made to lead to null is a chain. -/
theorem Path.chain [DecidableEq α] (h : m.Path a l) (hnodup : (a :: l).Nodup)
    (hlive : ∀ x ∈ a :: l, m.live x = true) :
    (m.putNext (lastOr a l) .null).Chain (.addr a) (a :: l) := by
  induction l generalizing a with
  | nil => simpa using hlive
  | cons x l ih =>
      obtain ⟨hlive_a, hlive_l⟩ := List.forall_mem_cons.mp hlive
      obtain ⟨hnot, hnodup_l⟩ := List.nodup_cons.mp hnodup
      have hne : a ≠ lastOr x l := fun heq => hnot (heq ▸ lastOr_mem x l)
      refine ⟨rfl, by simpa using hlive_a, ?_⟩
      rw [lastOr_cons, putNext_next, if_neg hne, h.1.1]
      exact ih h.2 hnodup_l hlive_l

end Chain

section Unique

variable {m m₁ m₂ : Mem α} {a b h : α} {l k : List α}

theorem Path.prev_unique (h₁ : m₁.Path a k) (h₂ : m₂.Path a k) :
    ∀ x ∈ k, m₁.prev x = m₂.prev x := by
  induction k generalizing a with
  | nil => simp
  | cons y k ih =>
      exact List.forall_mem_cons.mpr ⟨h₁.1.2.trans h₂.1.2.symm, ih h₁.2 h₂.2⟩

theorem Path.next_unique (h₁ : m₁.Path a (k ++ [b])) (h₂ : m₂.Path a (k ++ [b])) :
    ∀ x ∈ a :: k, m₁.next x = m₂.next x := by
  induction k generalizing a with
  | nil => simpa using h₁.1.1.trans h₂.1.1.symm
  | cons y k ih =>
      exact List.forall_mem_cons.mpr ⟨h₁.1.1.trans h₂.1.1.symm, ih h₁.2 h₂.2⟩

theorem SameOutside.eq_of_agree {xs : List α} (hsame₁ : SameOutside m m₁ xs)
    (hsame₂ : SameOutside m m₂ xs)
    (hagree : ∀ x ∈ xs, m₁.next x = m₂.next x ∧ m₁.prev x = m₂.prev x) : m₁ = m₂ := by
  have hlive : m₁.live = m₂.live := hsame₁.live.trans hsame₂.live.symm
  have hnext : m₁.next = m₂.next := by
    ext1 x
    by_cases hx : x ∈ xs
    · exact (hagree x hx).1
    · exact (hsame₁.next x hx).trans (hsame₂.next x hx).symm
  have hprev : m₁.prev = m₂.prev := by
    ext1 x
    by_cases hx : x ∈ xs
    · exact (hagree x hx).2
    · exact (hsame₁.prev x hx).trans (hsame₂.prev x hx).symm
  cases m₁
  cases m₂
  simp_all

theorem Ring.agree (hring₁ : m₁.Ring h k) (hring₂ : m₂.Ring h k) :
    ∀ x ∈ h :: k, m₁.next x = m₂.next x ∧ m₁.prev x = m₂.prev x := by
  intro x hx
  refine ⟨hring₁.closed.next_unique hring₂.closed x hx, ?_⟩
  refine hring₁.closed.prev_unique hring₂.closed x ?_
  simpa [or_comm] using hx

/-- Two memories that hold the same ring and agree elsewhere are the same. -/
theorem Ring.eq_of_sameOutside (hperm : k.Perm l) (hring₁ : m₁.Ring h k) (hring₂ : m₂.Ring h k)
    (hsame₁ : SameOutside m m₁ (h :: l)) (hsame₂ : SameOutside m m₂ (h :: l)) : m₁ = m₂ :=
  hsame₁.eq_of_agree hsame₂ fun x hx =>
    hring₁.agree hring₂ x ((hperm.cons h).mem_iff.mpr hx)

end Unique

end Mem
end Heap
end Brlib
