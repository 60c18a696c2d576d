import Brlib.Heap.Ring

/-!
# Loops that look ahead

A loop over a linked structure may release the element it stands on if it has read the
next cursor before.  `lookahead` keeps two cursors, and reads the one after the next
behind the body; `readAhead` reads the next one before the body.

An invariant of either loop speaks of the elements that are left: `lookahead_run` and
`readAhead_run` turn one iteration into the whole loop.

The body of such a loop may choose what it does to an element by the element, by what it
carries from one element to the next, and by the memory (`Choice`).  `Visiting.step` is one
call of such a body.
-/

namespace Brlib
namespace Heap

variable {σ γ α : Type}

section Lookahead

variable (stop : γ → Bool) (next : γ → σ → Option γ) (body : γ → σ → Option σ)

/-- A loop with the cursors `pos` and `n`, of at most `fuel` tests. -/
def lookahead : ℕ → γ → γ → σ → Option σ
  | 0, _, _, _ => none
  | fuel + 1, pos, n, s =>
      if stop pos then some s
      else do
        let s ← body pos s
        let n' ← next n s
        lookahead fuel n n' s

/-- A loop with the cursor `pos`, of at most `fuel` tests. -/
def readAhead : ℕ → γ → σ → Option σ
  | 0, _, _ => none
  | fuel + 1, pos, s =>
      if stop pos then some s
      else do
        let n ← next pos s
        let s ← body pos s
        readAhead fuel n s

/-- The cursor at the first of the elements, or the one at the end. -/
def cursor (cur : α → γ) (done : γ) : List α → γ
  | [] => done
  | x :: _ => cur x

variable {stop next body} {cur : α → γ} {done : γ} {Inv : List α → σ → Prop}

@[simp] theorem cursor_nil : cursor cur done [] = done := rfl

@[simp] theorem cursor_cons {x : α} {l : List α} : cursor cur done (x :: l) = cur x := rfl

/-- If each iteration handles one element and finds the one after the next, then the loop
handles all elements and ends. -/
theorem lookahead_run (hdone : stop done = true)
    (hcur : ∀ x R s, Inv (x :: R) s → stop (cur x) = false)
    (hstep : ∀ x R s, Inv (x :: R) s → ∃ s' n', body (cur x) s = some s' ∧ Inv R s' ∧
      next (cursor cur done R) s' = some n' ∧ (R ≠ [] → n' = cursor cur done R.tail))
    {l : List α} {s : σ} {n : γ} {fuel : ℕ} (hinv : Inv l s)
    (hn : l ≠ [] → n = cursor cur done l.tail) (hfuel : l.length < fuel) :
    ∃ s', lookahead stop next body fuel (cursor cur done l) n s = some s' ∧ Inv [] s' := by
  induction l generalizing s n fuel with
  | nil =>
      obtain ⟨fuel, rfl⟩ := Nat.exists_eq_succ_of_ne_zero (Nat.ne_of_gt hfuel)
      exact ⟨s, by simp [lookahead, hdone], hinv⟩
  | cons x R ih =>
      obtain ⟨fuel, rfl⟩ := Nat.exists_eq_succ_of_ne_zero (Nat.ne_zero_of_lt hfuel)
      obtain ⟨s₁, n₁, hbody, hinv₁, hnext, hn₁⟩ := hstep x R s hinv
      obtain ⟨s', hrun, hinv'⟩ := ih hinv₁ hn₁ (Nat.lt_of_succ_lt_succ hfuel)
      refine ⟨s', ?_, hinv'⟩
      have hn' : n = cursor cur done R := hn (List.cons_ne_nil x R)
      simp [lookahead, hcur x R s hinv, hbody, hn', hnext, hrun]

/-- If each iteration handles one element, and found the next one before, then the loop
handles all elements and ends. -/
theorem readAhead_run (hdone : stop done = true)
    (hcur : ∀ x R s, Inv (x :: R) s → stop (cur x) = false)
    (hstep : ∀ x R s, Inv (x :: R) s → next (cur x) s = some (cursor cur done R) ∧
      ∃ s', body (cur x) s = some s' ∧ Inv R s')
    {l : List α} {s : σ} {fuel : ℕ} (hinv : Inv l s) (hfuel : l.length < fuel) :
    ∃ s', readAhead stop next body fuel (cursor cur done l) s = some s' ∧ Inv [] s' := by
  induction l generalizing s fuel with
  | nil =>
      obtain ⟨fuel, rfl⟩ := Nat.exists_eq_succ_of_ne_zero (Nat.ne_of_gt hfuel)
      exact ⟨s, by simp [readAhead, hdone], hinv⟩
  | cons x R ih =>
      obtain ⟨fuel, rfl⟩ := Nat.exists_eq_succ_of_ne_zero (Nat.ne_zero_of_lt hfuel)
      obtain ⟨hnext, s₁, hbody, hinv₁⟩ := hstep x R s hinv
      obtain ⟨s', hrun, hinv'⟩ := ih hinv₁ (Nat.lt_of_succ_lt_succ hfuel)
      refine ⟨s', ?_, hinv'⟩
      simp [readAhead, hcur x R s hinv, hnext, hbody, hrun]

end Lookahead

section Bodies

variable {M A : Type}

/-- The memory, what the body carries from one element to the next, and what it did to which
element. -/
structure Iteration (M A σ α : Type) where
  mem : M
  state : σ
  visited : List (α × A)

/-- The choice of what to do to an element, and of what to carry on. -/
abbrev Choice (M A σ α : Type) : Type := α → σ → M → A × σ

/-- What may be done to an element, when, and whether the element stays where it is. -/
structure Actions (M A α : Type) where
  exec : α → A → M → Option M
  keeps : A → Bool
  Legal : M → A → Prop

namespace Actions

variable (acts : Actions M A α) (choice : Choice M A σ α)

/-- The body of a loop, for the element `x`. -/
def visit (x : α) (t : Iteration M A σ α) : Option (Iteration M A σ α) := do
  let (act, state) := choice x t.state t.mem
  let mem ← acts.exec x act t.mem
  some ⟨mem, state, t.visited ++ [(x, act)]⟩

/-- The choices are legal when the body is called for the elements in turn. -/
def LegalRun : List α → σ → M → Prop
  | [], _, _ => True
  | x :: R, s, m =>
      acts.Legal m (choice x s m).1 ∧
        ∀ m', acts.exec x (choice x s m).1 m = some m' → LegalRun R (choice x s m).2 m'

/-- The elements that were kept, in the order of the visits. -/
def kept (visited : List (α × A)) : List α :=
  (visited.filter fun v => acts.keeps v.2).map Prod.fst

/-- During a loop over `l`: the elements `R` are left, and `Inv` holds of the memory, of what
was kept and of what is left. -/
structure Visiting (Inv : M → List α → List α → Prop) (l R : List α)
    (t : Iteration M A σ α) : Prop where
  inv : Inv t.mem (acts.kept t.visited) R
  visited : t.visited.map Prod.fst ++ R = l
  legal : acts.LegalRun choice R t.state t.mem

variable {acts choice} {Inv : M → List α → List α → Prop} {l R : List α} {x : α}
variable {t : Iteration M A σ α}

theorem kept_append (visited : List (α × A)) (x : α) (act : A) :
    acts.kept (visited ++ [(x, act)]) =
      if acts.keeps act then acts.kept visited ++ [x] else acts.kept visited := by
  cases hkeeps : acts.keeps act <;> simp [kept, hkeeps]

theorem Visiting.step (hvisiting : Visiting acts choice Inv l (x :: R) t)
    (hexec : ∀ m K x R act, Inv m K (x :: R) → acts.Legal m act →
      ∃ m', acts.exec x act m = some m' ∧ Inv m' (if acts.keeps act then K ++ [x] else K) R) :
    ∃ t', acts.visit choice x t = some t' ∧ Visiting acts choice Inv l R t' := by
  obtain ⟨hinv, hvisited, hlegal, hrest⟩ := hvisiting
  obtain ⟨m', hrun, hinv'⟩ := hexec _ _ _ _ _ hinv hlegal
  refine ⟨⟨m', (choice x t.state t.mem).2, t.visited ++ [(x, (choice x t.state t.mem).1)]⟩,
    by simp [visit, hrun], ⟨?_, by simpa using hvisited, hrest m' hrun⟩⟩
  rw [kept_append]
  exact hinv'

theorem Visiting.done (hvisiting : Visiting acts choice Inv l [] t) :
    t.visited.map Prod.fst = l ∧ Inv t.mem (acts.kept t.visited) [] := by
  have hvisited := hvisiting.visited
  rw [List.append_nil] at hvisited
  exact ⟨hvisited, hvisiting.inv⟩

end Actions

end Bodies

end Heap
end Brlib
