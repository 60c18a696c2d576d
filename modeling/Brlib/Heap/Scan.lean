import Brlib.Heap.Lookahead

/-!
# Loops that look at the next element last

`scan` reads the next cursor behind the body.  So the body may put elements in and take others
out around the one it is called for, and the loop goes on with what is there then.  `walk` is
the same loop over a sequence, of which a part is done: what a body does is what it does to the
two parts (`scan_walk`).  More generally, a loop ends when a loop does that it simulates
(`scan_simulates`).

A body that leaves the elements alone is folded over them (`scan_fold`).
-/

namespace Brlib
namespace Heap

variable {σ γ α τ : Type}

/-- A loop with the cursor `pos`, of at most `fuel` tests. -/
def scan (stop : γ → Bool) (next : γ → σ → Option γ) (body : γ → σ → Option σ) :
    ℕ → γ → σ → Option σ
  | 0, _, _ => none
  | fuel + 1, pos, s =>
      if stop pos then some s
      else do
        let s ← body pos s
        let n ← next pos s
        scan stop next body fuel n s

section Walk

variable (step : α → τ → List α → List α → τ × List α × List α)

/-- The loop over a sequence of which `A` is done and `R` is left: a step changes both. -/
def walk : ℕ → τ → List α → List α → Option (τ × List α)
  | 0, _, _, _ => none
  | _ + 1, t, A, [] => some (t, A)
  | fuel + 1, t, A, x :: R =>
      walk fuel (step x t A R).1 ((step x t A R).2.1 ++ [x]) (step x t A R).2.2

def LegalWalk (legal : α → τ → List α → List α → Prop) : ℕ → τ → List α → List α → Prop
  | 0, _, _, _ => True
  | _ + 1, _, _, [] => True
  | fuel + 1, t, A, x :: R =>
      legal x t A R ∧
        LegalWalk legal fuel (step x t A R).1 ((step x t A R).2.1 ++ [x]) (step x t A R).2.2

variable {step} {t : τ} {A R : List α} {fuel : ℕ}

end Walk

section Scan

variable {stop : γ → Bool} {next : γ → σ → Option γ} {body : γ → σ → Option σ}
variable {cur : α → γ} {done : γ} {fuel : ℕ} {A R : List α} {s : σ}

/-- A loop whose body does to the elements around what a step does to the two parts of a
sequence ends when the loop over the sequence does, with the same outcome. -/
theorem scan_walk {step : α → τ → List α → List α → τ × List α × List α}
    {legal : α → τ → List α → List α → Prop} {Inv : τ → List α → List α → σ → Prop} {t : τ}
    (hdone : stop done = true)
    (hcur : ∀ t A x R s, Inv t A (x :: R) s → stop (cur x) = false)
    (hstep : ∀ t A x R s, Inv t A (x :: R) s → legal x t A R → ∃ s', body (cur x) s = some s' ∧
      next (cur x) s' = some (cursor cur done (step x t A R).2.2) ∧
      Inv (step x t A R).1 ((step x t A R).2.1 ++ [x]) (step x t A R).2.2 s')
    (hinv : Inv t A R s) (hlegal : LegalWalk step legal fuel t A R) :
    (walk step fuel t A R = none → scan stop next body fuel (cursor cur done R) s = none) ∧
      ∀ t' l, walk step fuel t A R = some (t', l) →
        ∃ s', scan stop next body fuel (cursor cur done R) s = some s' ∧ Inv t' l [] s' := by
  induction fuel generalizing t A R s with
  | zero => exact ⟨fun _ => rfl, fun _ _ hwalk => absurd hwalk (by simp [walk])⟩
  | succ fuel ih =>
      cases R with
      | nil =>
          refine ⟨fun hwalk => absurd hwalk (by simp [walk]), fun t' l hwalk => ?_⟩
          obtain ⟨rfl, rfl⟩ := Prod.mk.inj (Option.some.inj hwalk)
          exact ⟨s, by simp [scan, hdone], hinv⟩
      | cons x R =>
          obtain ⟨hx, hrest⟩ := hlegal
          obtain ⟨s₁, hbody, hnext, hinv₁⟩ := hstep t A x R s hinv hx
          have hscan : scan stop next body (fuel + 1) (cursor cur done (x :: R)) s =
              scan stop next body fuel (cursor cur done (step x t A R).2.2) s₁ := by
            simp [scan, hcur t A x R s hinv, hbody, hnext]
          rw [hscan]
          exact ih hinv₁ hrest

section Simulation

variable {γ' σ' : Type}

def LegalScan (stop : γ → Bool) (next : γ → σ → Option γ) (body : γ → σ → Option σ)
    (legal : γ → σ → Prop) : ℕ → γ → σ → Prop
  | 0, _, _ => True
  | fuel + 1, pos, s =>
      stop pos = false → legal pos s ∧
        ∀ s' n, body pos s = some s' → next pos s' = some n →
          LegalScan stop next body legal fuel n s'

/-- A loop whose iterations do what those of another loop do, up to a relation of the states,
ends when that loop does. -/
theorem scan_simulates {stop' : γ' → Bool} {next' : γ' → σ' → Option γ'}
    {body' : γ' → σ' → Option σ'} {legal : γ' → σ' → Prop} {Rel : σ' → σ → Prop} {place : γ' → γ}
    {pos : γ'} {s' : σ'} (hstop : ∀ pos, stop (place pos) = stop' pos)
    (hstep : ∀ pos s' s, stop' pos = false → Rel s' s → legal pos s' →
      ∃ t' t n, body' pos s' = some t' ∧ body (place pos) s = some t ∧ Rel t' t ∧
        next' pos t' = some n ∧ next (place pos) t = some (place n))
    (hrel : Rel s' s) (hlegal : LegalScan stop' next' body' legal fuel pos s') :
    (scan stop' next' body' fuel pos s' = none →
        scan stop next body fuel (place pos) s = none) ∧
      ∀ t', scan stop' next' body' fuel pos s' = some t' →
        ∃ t, scan stop next body fuel (place pos) s = some t ∧ Rel t' t := by
  induction fuel generalizing pos s' s with
  | zero => exact ⟨fun _ => rfl, fun _ hscan => absurd hscan (by simp [scan])⟩
  | succ fuel ih =>
      cases hpos : stop' pos with
      | true =>
          refine ⟨fun hscan => absurd hscan (by simp [scan, hpos]), fun t' hscan => ?_⟩
          have hend : s' = t' := by simpa [scan, hpos] using hscan
          exact ⟨s, by simp [scan, hstop, hpos], hend ▸ hrel⟩
      | false =>
          obtain ⟨hcall, hrest⟩ := hlegal hpos
          obtain ⟨t', t, n, hbody', hbody, hrel', hnext', hnext⟩ := hstep pos s' s hpos hrel hcall
          have hrun' : scan stop' next' body' (fuel + 1) pos s' =
              scan stop' next' body' fuel n t' := by
            simp [scan, hpos, hbody', hnext']
          have hrun : scan stop next body (fuel + 1) (place pos) s =
              scan stop next body fuel (place n) t := by
            simp [scan, hstop, hpos, hbody, hnext]
          rw [hrun', hrun]
          exact ih hrel' (hrest t' n hbody' hnext')

end Simulation

/-- A body that leaves the elements alone is called for each of them. -/
theorem scan_fold (Inv : σ → Prop) (hdone : stop done = true)
    (hcur : ∀ x ∈ R, stop (cur x) = false)
    (hbody : ∀ x ∈ R, ∀ s s', Inv s → body (cur x) s = some s' → Inv s')
    (hnext : ∀ P x Q s, R = P ++ x :: Q → Inv s → next (cur x) s = some (cursor cur done Q))
    (hinv : Inv s) (hfuel : R.length < fuel) :
    scan stop next body fuel (cursor cur done R) s = R.foldlM (fun s x => body (cur x) s) s := by
  induction R generalizing s fuel with
  | nil =>
      obtain ⟨fuel, rfl⟩ := Nat.exists_eq_succ_of_ne_zero (Nat.ne_of_gt hfuel)
      simp [scan, hdone]
  | cons x R ih =>
      obtain ⟨fuel, rfl⟩ := Nat.exists_eq_succ_of_ne_zero (Nat.ne_zero_of_lt hfuel)
      have hx : stop (cur x) = false := hcur x List.mem_cons_self
      cases hrun : body (cur x) s with
      | none => simp [scan, hx, hrun]
      | some s₁ =>
          have hinv₁ : Inv s₁ := hbody x List.mem_cons_self s s₁ hinv hrun
          have hrest := ih (fun y hy => hcur y (List.mem_cons_of_mem x hy))
            (fun y hy => hbody y (List.mem_cons_of_mem x hy))
            (fun P y Q s hR => hnext (x :: P) y Q s (by rw [hR, List.cons_append])) hinv₁
            (Nat.lt_of_succ_lt_succ hfuel)
          simp [scan, hx, hrun, hnext [] x R s₁ rfl hinv₁, hrest]

end Scan

end Heap
end Brlib
