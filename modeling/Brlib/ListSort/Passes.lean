import Brlib.ListSort.Correctness
import Brlib.Merging.Unique

/-!
# Sorting again

`list_sort` is stable, so what it does to a list that is in order already, or that was sorted
by something else before, can be said exactly.  A list that is in order keeps every link
(`listSort_again`).  And the multi-word comparison that the documentation of `list_sort` shows
sorts like one pass for each word, the last word first (`listSort_passes`).
-/

namespace Brlib
namespace ListSort

open Heap Heap.Mem Merging

variable {α π : Type} [DecidableEq α] {cmp : ListCmpFunc π α} {le : α → α → Prop}
variable {m : Mem α} {h : α} {l : List α} {fuel : Nat}

/-- The multi-word comparison: `if (a->word != b->word) return a->word > b->word;` for each
word but the last, and `return a->word > b->word;`. -/
def multiWordCmp : List (α → ℤ) → α → α → Int
  | [], _, _ => 0
  | [word], a, b => if word a > word b then 1 else 0
  | word :: words, a, b =>
      if word a ≠ word b then (if word a > word b then 1 else 0) else multiWordCmp words a b

/-- A comparison that does not use the private data. -/
def stateless (cmp : α → α → Int) : ListCmpFunc π α :=
  fun s a b => (cmp a b, s)

/-- One call of `list_sort` for each word, for the last one first. -/
def sortPasses (fuel : Nat) (priv : π) (head : Ptr α) : List (α → ℤ) → Mem α → Option (Mem α)
  | [], m => some m
  | word :: words, m => do
      let m ← sortPasses fuel priv head words m
      let (_, m) ← listSort (stateless (multiWordCmp [word])) fuel priv head m
      some m

section Words

omit [DecidableEq α]

variable {word : α → ℤ} {words : List (α → ℤ)} {a b : α}

theorem multiWordCmp_single : multiWordCmp [word] a b ≤ 0 ↔ word a ≤ word b := by
  unfold multiWordCmp
  split <;> omega

theorem multiWordCmp_cons : multiWordCmp (word :: words) a b ≤ 0 ↔
    Lexicographic (fun a b => word a ≤ word b) (fun a b => multiWordCmp words a b ≤ 0) a b := by
  unfold Lexicographic
  cases words with
  | nil =>
      rw [multiWordCmp_single]
      simp [multiWordCmp]
  | cons word' words =>
      rw [multiWordCmp]
      · split
        · split <;> omega
        · constructor
          · intro hle
            exact ⟨by omega, fun _ => hle⟩
          · intro hlex
            exact hlex.2 (by omega)
      · simp

theorem multiWordCmp_decides (words : List (α → ℤ)) (P : α → Prop) :
    Decides (stateless (multiWordCmp words) : ListCmpFunc π α) P
      fun a b => multiWordCmp words a b ≤ 0 := by
  induction words with
  | nil => exact ⟨fun _ _ _ _ _ => Iff.rfl, fun _ _ _ _ => .inl le_rfl, fun _ _ _ _ _ _ _ _ => le_rfl⟩
  | cons word words ih =>
      refine ⟨fun _ _ _ _ _ => Iff.rfl, fun a b ha hb => ?_, fun a b c ha hb hc => ?_⟩
      · rw [multiWordCmp_cons, multiWordCmp_cons]
        unfold Lexicographic
        rcases lt_trichotomy (word a) (word b) with hlt | heq | hgt
        · exact .inl ⟨hlt.le, fun hba => absurd hba (not_le.mpr hlt)⟩
        · exact (ih.total a b ha hb).imp (fun hab => ⟨heq.le, fun _ => hab⟩)
            fun hba => ⟨heq.ge, fun _ => hba⟩
        · exact .inr ⟨hgt.le, fun hab => absurd hab (not_le.mpr hgt)⟩
      · rw [multiWordCmp_cons, multiWordCmp_cons, multiWordCmp_cons]
        rintro ⟨hab, htie⟩ ⟨hbc, htie'⟩
        refine ⟨hab.trans hbc, fun hca => ih.trans a b c ha hb hc ?_ ?_⟩
        · exact htie (hbc.trans hca)
        · exact htie' (hca.trans hab)

end Words

section Sorted

/-- What `list_sort` leaves: the only stable order of the nodes. -/
theorem listSort_order (hring : m.Ring h l) (hle : Decides cmp (· ∈ l) le) (priv : π)
    (hfuel : l.length ≤ fuel) :
    ∃ priv' m' l', listSort cmp fuel priv (.addr h) m = some (priv', m') ∧ m'.Ring h l' ∧
      l'.Perm l ∧ l'.Pairwise (Stably le fun a b => [a, b].Sublist l) ∧
      SameOutside m m' (h :: l) := by
  obtain ⟨m', hrun, hring', hsame⟩ := @listSort_spec _ _ _ cmp m h l priv fuel hring hfuel
  exact ⟨_, m', _, hrun, hring', mergeAll_perm cmp 64 l priv,
    mergeAll_stable hle (by decide) priv (fun _ ha => ha) (pairwise_pair_sublist l), hsame⟩

omit [DecidableEq α] in
theorem stable_order_unique {l₁ l₂ : List α} (hnodup : l.Nodup) (hl₁ : l₁.Perm l) (hl₂ : l₂.Perm l)
    (hstable₁ : l₁.Pairwise (Stably le fun a b => [a, b].Sublist l))
    (hstable₂ : l₂.Pairwise (Stably le fun a b => [a, b].Sublist l)) : l₁ = l₂ :=
  stable_unique (hl₁.trans hl₂.symm) (fun _ _ => pair_sublist_asymm hnodup) hstable₁ hstable₂

omit [DecidableEq α] in
theorem stably_self (hle : l.Pairwise le) : l.Pairwise (Stably le fun a b => [a, b].Sublist l) :=
  hle.imp₂ (fun _ _ hab hbefore => ⟨hab, fun _ => hbefore⟩) (pairwise_pair_sublist l)

theorem listSort_sorted (hring : m.Ring h l) (hle : Decides cmp (· ∈ l) le) (priv : π)
    (hfuel : l.length ≤ fuel) (hsorted : l.Pairwise le) :
    ∃ s, listSort cmp fuel priv (.addr h) m = some (s, m) := by
  obtain ⟨s, m', l', hrun, hring', hperm, hstable, hsame⟩ := listSort_order hring hle priv hfuel
  obtain rfl : l' = l := stable_order_unique hring.nodup.of_cons hperm (.refl l) hstable
    (stably_self hsorted)
  obtain rfl : m' = m := Ring.eq_of_sameOutside (.refl l') hring' hring hsame (SameOutside.refl m _)
  exact ⟨s, hrun⟩

/-- Sorting a list again, with any private data, does nothing, and neither does sorting a
list that is in order. -/
theorem listSort_again (hring : m.Ring h l) (hle : Decides cmp (· ∈ l) le) (priv priv' : π)
    (hfuel : l.length ≤ fuel) :
    ∃ s s' m', listSort cmp fuel priv (.addr h) m = some (s, m') ∧
      listSort cmp fuel priv' (.addr h) m' = some (s', m') ∧ (l.Pairwise le → m' = m) := by
  obtain ⟨s, m', l', hrun, hring', hperm, hstable, -⟩ := listSort_order hring hle priv hfuel
  have hmem : (· ∈ l') = (· ∈ l) := funext fun a => propext hperm.mem_iff
  obtain ⟨s', hrun'⟩ := listSort_sorted hring' (hmem ▸ hle) priv' (hperm.length_eq ▸ hfuel)
    (hstable.imp fun hab => hab.1)
  refine ⟨s, s', m', hrun, hrun', fun hsorted => ?_⟩
  obtain ⟨s₀, hrun₀⟩ := listSort_sorted hring hle priv hfuel hsorted
  rw [hrun] at hrun₀
  exact (Prod.mk.inj (Option.some.inj hrun₀)).2

theorem listSort_again_threeNodes :
    ∃ s s' m', listSort halfCmp 3 0 (.addr 0) threeNodes = some (s, m') ∧
      listSort halfCmp 3 7 (.addr 0) m' = some (s', m') ∧
      ([3, 1, 2].Pairwise (fun a b => a / 2 ≤ b / 2) → m' = threeNodes) :=
  listSort_again threeNodes_ring halfCmp_decides 0 7 (by decide)

end Sorted

section Passes

variable {words : List (α → ℤ)}

/-- The passes leave the stable order of the multi-word comparison: each one keeps what the
passes before it did as long as its word does not decide. -/
theorem sortPasses_order (hring : m.Ring h l) (priv : π) (hfuel : l.length ≤ fuel)
    (words : List (α → ℤ)) :
    ∃ m' l', sortPasses fuel priv (.addr h) words m = some m' ∧ m'.Ring h l' ∧ l'.Perm l ∧
      l'.Pairwise (Stably (fun a b => multiWordCmp words a b ≤ 0) fun a b => [a, b].Sublist l) ∧
      SameOutside m m' (h :: l) := by
  induction words with
  | nil =>
      refine ⟨m, l, rfl, hring, .refl l, stably_self ?_, SameOutside.refl m _⟩
      exact List.pairwise_of_forall fun _ _ => le_rfl
  | cons word words ih =>
      obtain ⟨m₁, l₁, hrun₁, hring₁, hperm₁, hstable₁, hsame₁⟩ := ih
      obtain ⟨s, m₂, l₂, hrun₂, hring₂, hperm₂, hstable₂, hsame₂⟩ :=
        listSort_order hring₁ (multiWordCmp_decides [word] (· ∈ l₁)) priv
          (hperm₁.length_eq ▸ hfuel)
      refine ⟨m₂, l₂, by simp [sortPasses, hrun₁, hrun₂], hring₂, hperm₂.trans hperm₁, ?_,
        hsame₁.trans (hsame₂.mono (hperm₁.cons h).subset)⟩
      simp only [multiWordCmp_single] at hstable₂
      simp only [multiWordCmp_cons]
      exact stably_lex hstable₁ hstable₂

/-- **One sort for each word, the last word first, is one sort by the multi-word comparison**:
both leave the same memory. -/
theorem listSort_passes (hring : m.Ring h l) (priv : π) (hfuel : l.length ≤ fuel)
    (words : List (α → ℤ)) :
    ∃ s m', listSort (stateless (multiWordCmp words)) fuel priv (.addr h) m = some (s, m') ∧
      sortPasses fuel priv (.addr h) words m = some m' := by
  obtain ⟨s, m₁, l₁, hrun₁, hring₁, hperm₁, hstable₁, hsame₁⟩ :=
    listSort_order hring (multiWordCmp_decides words (· ∈ l)) priv hfuel
  obtain ⟨m₂, l₂, hrun₂, hring₂, hperm₂, hstable₂, hsame₂⟩ :=
    sortPasses_order hring priv hfuel words
  obtain rfl : l₁ = l₂ :=
    stable_order_unique hring.nodup.of_cons hperm₁ hperm₂ hstable₁ hstable₂
  obtain rfl : m₁ = m₂ := Ring.eq_of_sameOutside hperm₁ hring₁ hring₂ hsame₁ hsame₂
  exact ⟨s, m₁, hrun₁, hrun₂⟩

theorem listSort_passes_threeNodes :
    ∃ s m', listSort (stateless (multiWordCmp [fun a => (a / 2 : ℕ), fun a => (a % 2 : ℕ)])) 3 ()
        (.addr 0) threeNodes = some (s, m') ∧
      sortPasses 3 () (.addr 0) [fun a => (a / 2 : ℕ), fun a => (a % 2 : ℕ)] threeNodes =
        some m' :=
  listSort_passes threeNodes_ring () (by decide) _

end Passes

end ListSort
end Brlib
