import Brlib.Merging.Stable

/-!
# A stable sort has one result

Two rearrangements of a list that are in order, with ties in the order of age, are the same
(`stable_unique`).  So it is enough to know of a sequence that it is such a rearrangement: a
list that is in order is its own stable sort, and a stable sort by one key and then by another
is the stable sort by both, the second one first (`stably_lex`).
-/

namespace Brlib
namespace Merging

variable {α : Type*} {le minor major before : α → α → Prop} {l₁ l₂ : List α}

/-- There is only one stable order of the elements. -/
theorem stable_unique (hperm : l₁.Perm l₂) (hbefore : ∀ a b, before a b → ¬ before b a)
    (hl₁ : l₁.Pairwise (Stably le before)) (hl₂ : l₂.Pairwise (Stably le before)) : l₁ = l₂ :=
  hperm.eq_of_pairwise (fun a b _ _ hab hba =>
    absurd (hba.2 hab.1) (hbefore a b (hab.2 hba.1))) hl₁ hl₂

/-- By the major key, and on a tie by the minor one. -/
def Lexicographic (major minor : α → α → Prop) (a b : α) : Prop :=
  major a b ∧ (major b a → minor a b)

/-- What was in order of the minor key and then sorted by the major one is in order of both. -/
theorem stably_lex (hl₁ : l₁.Pairwise (Stably minor before))
    (hl₂ : l₂.Pairwise (Stably major fun a b => [a, b].Sublist l₁)) :
    l₂.Pairwise (Stably (Lexicographic major minor) before) := by
  refine hl₂.imp fun {a b} hab => ?_
  obtain ⟨hmajor, htie⟩ := hab
  -- on a tie the pair was in the order of the first pass
  have hminor : major b a → Stably minor before a b := fun hba =>
    List.pairwise_iff_forall_sublist.mp hl₁ (htie hba)
  exact ⟨⟨hmajor, fun hba => (hminor hba).1⟩,
    fun hlex => (hminor hlex.1).2 (hlex.2 hmajor)⟩

end Merging
end Brlib
