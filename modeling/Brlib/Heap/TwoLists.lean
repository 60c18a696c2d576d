import Brlib.Heap.Chain

/-!
# Two lists

Two circular lists without a common cell.  What an operation on one of them stores to is
apart from the other, and a memory is determined by the two lists that it holds and by the
rest (`TwoLists.eq_of_sameOutside`).
-/

namespace Brlib
namespace Heap
namespace Mem

variable {α : Type*} {m m' m₁ m₂ : Mem α} {h s : α} {l l' k k' xs : List α}

/-- The lists `l` at `h` and `k` at `s` have no cell in common. -/
structure TwoLists (m : Mem α) (h : α) (l : List α) (s : α) (k : List α) : Prop where
  first : m.Ring h l
  second : m.Ring s k
  apart : ∀ x ∈ h :: l, x ∉ s :: k

namespace TwoLists

theorem symm (h₂ : m.TwoLists h l s k) : m.TwoLists s k h l :=
  ⟨h₂.second, h₂.first, fun x hx hx' => h₂.apart x hx' hx⟩

theorem update_first (h₂ : m.TwoLists h l s k) (hring : m'.Ring h l')
    (hsame : SameOutside m m' xs) (hxs : ∀ x ∈ xs, x ∉ s :: k) (hl' : ∀ x ∈ h :: l', x ∉ s :: k) :
    m'.TwoLists h l' s k :=
  ⟨hring, h₂.second.frame hsame fun x hx hmem => hxs x hmem hx, hl'⟩

/-- Two memories that hold the same two lists and agree elsewhere are the same. -/
theorem eq_of_sameOutside (hperm : (l' ++ k').Perm (l ++ k)) (h₁ : m₁.TwoLists h l' s k')
    (h₂ : m₂.TwoLists h l' s k') (hsame₁ : SameOutside m m₁ ((h :: l) ++ (s :: k)))
    (hsame₂ : SameOutside m m₂ ((h :: l) ++ (s :: k))) : m₁ = m₂ := by
  refine hsame₁.eq_of_agree hsame₂ fun x hx => ?_
  have hx' : x ∈ (h :: l') ++ (s :: k') := by
    have hmem := hperm.mem_iff (a := x)
    simp only [List.mem_append, List.mem_cons] at hx hmem ⊢
    tauto
  rcases List.mem_append.mp hx' with hx' | hx'
  · exact h₁.first.agree h₂.first x hx'
  · exact h₁.second.agree h₂.second x hx'

end TwoLists

end Mem
end Heap
end Brlib
