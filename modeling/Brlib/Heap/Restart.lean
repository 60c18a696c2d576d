import Brlib.Heap.Scan

/-!
# Loops that look ahead and are set right

The body of a loop that looks ahead may set the cursor that is ahead.  It must do so when it
changes what comes next, and then it may change as much as the body of a loop that does not
look ahead.  `sift` is the loop over a sequence: a step says what is done behind it, with the
element or without it, and what is left.
-/

namespace Brlib
namespace Heap

variable {σ γ α τ : Type}

/-- A loop with the cursors `pos` and `n`, of at most `fuel` tests, whose body may set `n`. -/
def lookaheadSet (stop : γ → Bool) (next : γ → σ → Option γ)
    (body : γ → γ → σ → Option (γ × σ)) : ℕ → γ → γ → σ → Option σ
  | 0, _, _, _ => none
  | fuel + 1, pos, n, s =>
      if stop pos then some s
      else do
        let (n, s) ← body pos n s
        let n' ← next n s
        lookaheadSet stop next body fuel n n' s

section Sift

variable (step : α → τ → List α → List α → τ × List α × List α)

/-- The loop over a sequence of which `A` is done and `R` is left. -/
def sift : ℕ → τ → List α → List α → Option (τ × List α)
  | 0, _, _, _ => none
  | _ + 1, t, A, [] => some (t, A)
  | fuel + 1, t, A, x :: R => sift fuel (step x t A R).1 (step x t A R).2.1 (step x t A R).2.2

def LegalSift (legal : α → τ → List α → List α → Prop) : ℕ → τ → List α → List α → Prop
  | 0, _, _, _ => True
  | _ + 1, _, _, [] => True
  | fuel + 1, t, A, x :: R =>
      legal x t A R ∧
        LegalSift legal fuel (step x t A R).1 (step x t A R).2.1 (step x t A R).2.2

variable {step} {t : τ} {A R : List α} {fuel : ℕ}

end Sift

section Loops

variable {stop : γ → Bool} {next : γ → σ → Option γ} {cur : α → γ} {done : γ} {fuel : ℕ}
variable {A R : List α} {s : σ} {n : γ}

/-- A loop ends when the loop over the sequence does, with the same outcome, if its body leaves
the cursor that is ahead where the next element is. -/
theorem lookaheadSet_sift {body : γ → γ → σ → Option (γ × σ)}
    {step : α → τ → List α → List α → τ × List α × List α}
    {legal : α → τ → List α → List α → Prop} {Inv : τ → List α → List α → σ → Prop} {t : τ}
    (hdone : stop done = true)
    (hcur : ∀ t A x R s, Inv t A (x :: R) s → stop (cur x) = false)
    (hnext : ∀ t A R s, Inv t A R s → ∃ n, next (cursor cur done R) s = some n ∧
      (R ≠ [] → n = cursor cur done R.tail))
    (hstep : ∀ t A x R s, Inv t A (x :: R) s → legal x t A R →
      ∃ s', body (cur x) (cursor cur done R) s =
          some (cursor cur done (step x t A R).2.2, s') ∧
        Inv (step x t A R).1 (step x t A R).2.1 (step x t A R).2.2 s')
    (hinv : Inv t A R s) (hn : R ≠ [] → n = cursor cur done R.tail)
    (hlegal : LegalSift step legal fuel t A R) :
    (sift step fuel t A R = none →
        lookaheadSet stop next body fuel (cursor cur done R) n s = none) ∧
      ∀ t' l, sift step fuel t A R = some (t', l) →
        ∃ s', lookaheadSet stop next body fuel (cursor cur done R) n s = some s' ∧
          Inv t' l [] s' := by
  induction fuel generalizing t A R n s with
  | zero => exact ⟨fun _ => rfl, fun _ _ hsift => absurd hsift (by simp [sift])⟩
  | succ fuel ih =>
      cases R with
      | nil =>
          refine ⟨fun hsift => absurd hsift (by simp [sift]), fun t' l hsift => ?_⟩
          obtain ⟨rfl, rfl⟩ := Prod.mk.inj (Option.some.inj hsift)
          exact ⟨s, by simp [lookaheadSet, hdone], hinv⟩
      | cons x R =>
          obtain ⟨hx, hrest⟩ := hlegal
          obtain ⟨s₁, hbody, hinv₁⟩ := hstep t A x R s hinv hx
          obtain ⟨n₁, hnext₁, hn₁⟩ := hnext _ _ _ s₁ hinv₁
          have hn' : n = cursor cur done R := hn (List.cons_ne_nil x R)
          have hloop : lookaheadSet stop next body (fuel + 1) (cursor cur done (x :: R)) n s =
              lookaheadSet stop next body fuel (cursor cur done (step x t A R).2.2) n₁ s₁ := by
            simp [lookaheadSet, hcur t A x R s hinv, hn', hbody, hnext₁]
          rw [hloop]
          exact ih hinv₁ hn₁ hrest

end Loops

end Heap
end Brlib
