import Mathlib.Algebra.BigOperators.Intervals
import Mathlib.Data.Nat.Log
import Brlib.Merging.Pending

/-!
# How many comparisons a sort of runs makes

A merge of two runs that have `a` and `b` elements makes at most `a + b - 1` comparisons.
`worst n` is the optimum for merge sorts, the sum of the logarithms of the numbers up to
`n`, rounded up.  A merge of a run of the size `2 ^ k` with one that is neither less than half nor more
than twice as long stays on it (`worst_merge`), and the pending runs allow no other merge:
so the whole sort makes at most `worst n` comparisons (`mergeAll_cost`).
-/

namespace Brlib
namespace Merging

variable {α π : Type*}

/-- The number of comparisons in the worst case: the binary logarithms of the numbers from 1
to `n`, rounded up and added. -/
def worst (n : ℕ) : ℕ :=
  ∑ i ∈ Finset.range n, Nat.clog 2 (i + 1)

section Worst

variable {n k a : ℕ}

theorem worst_succ (n : ℕ) : worst (n + 1) = worst n + Nat.clog 2 (n + 1) :=
  Finset.sum_range_succ _ n

theorem clog_succ (n : ℕ) : Nat.clog 2 (n + 1) = Nat.clog 2 n ∨
    n = 2 ^ Nat.clog 2 n ∧ Nat.clog 2 (n + 1) = Nat.clog 2 n + 1 := by
  have hle : n ≤ 2 ^ Nat.clog 2 n := Nat.le_pow_clog (by decide) n
  have hmono : Nat.clog 2 n ≤ Nat.clog 2 (n + 1) := Nat.clog_mono_right 2 n.le_succ
  rcases hle.lt_or_eq with hlt | heq
  · exact .inl (le_antisymm (Nat.clog_le_of_le_pow hlt) hmono)
  · refine .inr ⟨heq, le_antisymm (Nat.clog_le_of_le_pow ?_) ?_⟩
    · have hpos : 0 < 2 ^ Nat.clog 2 n := Nat.two_pow_pos _
      rw [pow_succ]
      omega
    · exact (Nat.lt_clog_iff_pow_lt (by decide)).mpr (Nat.lt_succ_of_le heq.ge)

theorem worst_add (n : ℕ) : worst n + 2 ^ Nat.clog 2 n = n * Nat.clog 2 n + 1 := by
  induction n with
  | zero => simp [worst]
  | succ n ih =>
      rw [worst_succ]
      rcases clog_succ n with hsame | ⟨hpow, hnext⟩
      · rw [hsame, Nat.succ_mul]
        omega
      · rw [hnext, pow_succ, Nat.succ_mul, Nat.mul_succ n (Nat.clog 2 n)]
        omega

/-- At a power of two the exponent may be one too large. -/
theorem worst_eq (hlow : 2 ^ k ≤ 2 * n) (hhigh : n ≤ 2 ^ k) : worst n + 2 ^ k = n * k + 1 := by
  have hsum := worst_add n
  rcases hlow.lt_or_eq with hlt | heq
  · have hk : Nat.clog 2 n = k := by
      refine le_antisymm (Nat.clog_le_of_le_pow hhigh) ?_
      cases k with
      | zero => exact Nat.zero_le _
      | succ k =>
          rw [pow_succ] at hlt
          exact (Nat.lt_clog_iff_pow_lt (by decide)).mpr (by omega)
    rwa [hk] at hsum
  · cases k with
    | zero => exact absurd heq (by omega)
    | succ k =>
        obtain rfl : 2 ^ k = n := by
          rw [pow_succ] at heq
          omega
        rw [Nat.clog_pow 2 k (by decide)] at hsum
        rw [pow_succ, Nat.mul_succ (2 ^ k) k]
        omega

@[simp] theorem worst_one : worst 1 = 0 := by
  simp [worst]

theorem worst_merge (hlow : 2 ^ k ≤ 2 * a) (hhigh : a ≤ 2 * 2 ^ k) :
    worst a + worst (2 ^ k) + (a + 2 ^ k) = worst (a + 2 ^ k) + 1 := by
  have hu : worst (2 ^ k) + 2 ^ k = 2 ^ k * k + 1 := worst_eq (by omega) le_rfl
  by_cases hle : a ≤ 2 ^ k
  · have ha := worst_eq hlow hle
    have hsum : worst (a + 2 ^ k) + 2 ^ (k + 1) = (a + 2 ^ k) * (k + 1) + 1 :=
      worst_eq (by rw [pow_succ]; omega) (by rw [pow_succ]; omega)
    rw [pow_succ] at hsum
    linarith
  · have ha : worst a + 2 ^ (k + 1) = a * (k + 1) + 1 :=
      worst_eq (by rw [pow_succ]; omega) (by rw [pow_succ]; omega)
    have hsum : worst (a + 2 ^ k) + 2 ^ (k + 2) = (a + 2 ^ k) * (k + 2) + 1 :=
      worst_eq (by rw [pow_succ, pow_succ]; omega) (by rw [pow_succ, pow_succ]; omega)
    rw [pow_succ] at ha
    rw [pow_succ, pow_succ] at hsum
    linarith

end Worst

theorem head_pendingSizes {u n x : ℕ} {sizes : List ℕ} (h : pendingSizes u 1 n = x :: sizes) :
    x = u := by
  by_cases hzero : n = 0
  · rw [hzero, pendingSizes_zero] at h
    exact absurd h (by simp)
  · by_cases hodd : n % 2 = 1
    · rw [pendingSizes_odd hodd] at h
      exact (List.cons.inj h).1.symm
    · rw [pendingSizes_even hzero hodd] at h
      exact (List.cons.inj h).1.symm

/-- A call of the comparison costs at most one. -/
def Metered (cmp : π → α → α → Int × π) (cost : π → ℕ) : Prop :=
  ∀ s a b, cost (cmp s a b).2 ≤ cost s + 1

/-- What the merges that made runs of the given sizes cost in the worst case. -/
def spent (sizes : List ℕ) : ℕ :=
  (sizes.map worst).sum

@[simp] theorem spent_nil : spent [] = 0 := rfl

@[simp] theorem spent_cons (x : ℕ) (sizes : List ℕ) :
    spent (x :: sizes) = worst x + spent sizes := by
  simp [spent]

section Cost

variable {cmp : π → α → α → Int × π} {cost : π → ℕ} {u n k w : ℕ} {l newer older : List α}
variable {runs : List (List α)}

/-- Each call of a merge takes an element to the output, and the last one goes without. -/
theorem mergeLists_cost (hcost : Metered cmp cost) (l k : List α) (s : π) :
    cost (mergeLists cmp l k s).priv ≤ cost s + (l.length + k.length - 1) := by
  induction l, k, s using mergeLists.induct cmp with
  | case1 k s => simp
  | case2 a l s => simp
  | case3 a l b k s hle ih =>
      have hcall := hcost s a b
      rw [mergeLists_of_le hle, Merged.cons_priv]
      simp only [List.length_cons] at ih ⊢
      omega
  | case4 a l b k s hgt ih =>
      have hcall := hcost s a b
      rw [mergeLists_of_gt hgt, Merged.cons_priv]
      simp only [List.length_cons] at ih ⊢
      omega

theorem merge_cost (hcost : Metered cmp cost) (hlen : older.length = 2 ^ k)
    (hlow : 2 ^ k ≤ 2 * newer.length) (hhigh : newer.length ≤ 2 * 2 ^ k) (s : π) :
    cost (mergeLists cmp older newer s).priv + (worst newer.length + worst older.length) ≤
      cost s + worst (newer.length + older.length) := by
  have hmerge := mergeLists_cost hcost older newer s
  have hworst := worst_merge hlow hhigh
  have hpos : 0 < 2 ^ k := Nat.two_pow_pos k
  rw [← hlen] at hworst hpos
  omega

theorem exists_run_of_odd (hsizes : runs.map List.length = pendingSizes u 1 n)
    (hodd : n % 2 = 1) :
    ∃ run rest, runs = run :: rest ∧ rest.map List.length = pendingSizes (2 * u) 1 (n / 2) := by
  rw [pendingSizes_odd hodd] at hsizes
  cases runs with
  | nil => exact absurd hsizes (by simp)
  | cons run rest => exact ⟨run, rest, rfl, (List.cons.inj hsizes).2⟩

theorem exists_runs_of_even (hsizes : runs.map List.length = pendingSizes u 1 n)
    (hodd : ¬n % 2 = 1) (hzero : ¬n = 0) :
    ∃ newer older rest, runs = newer :: older :: rest ∧ newer.length = u ∧ older.length = u := by
  rw [pendingSizes_even hzero hodd] at hsizes
  match runs, hsizes with
  | newer :: older :: rest, hsizes =>
      obtain ⟨hnewer, holder, -⟩ : newer.length = u ∧ older.length = u ∧
          rest.map List.length = pendingSizes (2 * u) 0 (n / 2) := by
        simpa using hsizes
      exact ⟨newer, older, rest, rfl, hnewer, holder⟩

/-- A round stays within the worst case: the two runs that it merges have the same size. -/
theorem mergeBits_cost (hcost : Metered cmp cost) (hu : ∃ k, u = 2 ^ k)
    (hsizes : runs.map List.length = pendingSizes u 1 n) (s : π) :
    cost (mergeBits cmp n runs s).2 + spent (runs.map List.length) ≤
      cost s + spent ((mergeBits cmp n runs s).1.map List.length) := by
  induction n using Nat.strongRecOn generalizing runs u with
  | _ n ih =>
      obtain ⟨k, hk⟩ := hu
      by_cases hodd : n % 2 = 1
      · obtain ⟨run, rest, rfl, hrest⟩ := exists_run_of_odd hsizes hodd
        have hround := ih (n / 2) (by omega) ⟨k + 1, by rw [hk, pow_succ']⟩ hrest
        rw [mergeBits_odd hodd]
        simp only [List.map_cons, spent_cons]
        omega
      · by_cases hzero : n = 0
        · rw [hzero, mergeBits_zero]
        · obtain ⟨newer, older, rest, rfl, hnewer, holder⟩ :=
            exists_runs_of_even hsizes hodd hzero
          have hmerge := @merge_cost _ _ cmp cost k newer older hcost (holder.trans hk)
            (by omega) (by omega) s
          rw [mergeBits_even hodd hzero]
          simp only [List.map_cons, spent_cons, length_mergeLists]
          rw [Nat.add_comm older.length]
          omega

/-- The input stays within the worst case, and leaves runs of the sizes that its length
determines. -/
theorem pushAll_cost (hcost : Metered cmp cost)
    (hsizes : runs.map List.length = pendingSizes 1 1 n) (hlt : n + l.length < 2 ^ w) (s : π) :
    cost (pushAll cmp w n runs l s).2 + spent (runs.map List.length) ≤
        cost s + spent ((pushAll cmp w n runs l s).1.map List.length) ∧
      (pushAll cmp w n runs l s).1.map List.length = pendingSizes 1 1 (n + l.length) := by
  induction l generalizing n runs s with
  | nil => exact ⟨le_rfl, hsizes⟩
  | cons x l ih =>
      rw [List.length_cons] at hlt
      have hround := mergeBits_cost hcost ⟨0, rfl⟩ hsizes s
      have hcount : (n + 1) % 2 ^ w = n + 1 := Nat.mod_eq_of_lt (by omega)
      have hsizes' : ([x] :: (mergeBits cmp n runs s).1).map List.length =
          pendingSizes 1 1 (n + 1) := by
        rw [List.map_cons, pendingSizes_mergeBits hsizes s]
        exact pendingSizes_carry (Nat.succ_pos n)
      obtain ⟨hpush, hend⟩ := ih hsizes' (by omega) (mergeBits cmp n runs s).2
      rw [List.map_cons, spent_cons, List.length_singleton, worst_one] at hpush
      rw [pushAll, hcount]
      refine ⟨by omega, ?_⟩
      rw [hend, List.length_cons, Nat.add_assoc, Nat.add_comm 1]

/-- The merges at the end stay within the worst case, since they are balanced. -/
theorem collapse_cost (hcost : Metered cmp cost)
    (hpow : ∀ run ∈ older :: runs, ∃ k, run.length = 2 ^ k)
    (hbalanced : Balanced newer.length ((older :: runs).map List.length)) (s : π) :
    cost (mergeLists cmp (collapse cmp newer older runs s).1
        (collapse cmp newer older runs s).2.1 (collapse cmp newer older runs s).2.2).priv +
        spent ((newer :: older :: runs).map List.length) ≤
      cost s + worst (newer :: older :: runs).flatten.length := by
  induction runs generalizing newer older s with
  | nil =>
      obtain ⟨k, hk⟩ := hpow older List.mem_cons_self
      obtain ⟨hhigh, hlow, -⟩ := hbalanced
      simpa [collapse] using merge_cost hcost hk (hk ▸ hlow) (hk ▸ hhigh) s
  | cons next runs ih =>
      obtain ⟨k, hk⟩ := hpow older List.mem_cons_self
      obtain ⟨hhigh, hlow, hrest⟩ := hbalanced
      have hmerge := merge_cost hcost hk (hk ▸ hlow) (hk ▸ hhigh) s
      have hlen : (mergeLists cmp older newer s).out.length = newer.length + older.length := by
        rw [length_mergeLists, Nat.add_comm]
      have hend := ih (fun run hrun => hpow run (List.mem_cons_of_mem older hrun))
        (hlen.symm ▸ hrest) (mergeLists cmp older newer s).priv
      rw [collapse]
      simp only [List.map_cons, spent_cons, List.flatten_cons, List.length_append, hlen,
        Nat.add_assoc] at hend hmerge ⊢
      omega

/-- The sort makes at most as many comparisons as the best merge sort may need. -/
theorem mergeAll_cost (hcost : Metered cmp cost) (hlt : l.length < 2 ^ w) (s : π) :
    cost (mergeAll cmp w l s).priv ≤ cost s + worst l.length := by
  obtain ⟨hpush, hsizes⟩ := @pushAll_cost _ _ cmp cost 0 w l [] hcost (by simp) (by omega) s
  have hperm := pushAll_perm cmp w 0 [] l s
  unfold mergeAll
  generalize pushAll cmp w 0 [] l s = r at hpush hsizes hperm
  rw [Nat.zero_add] at hsizes
  match r, hpush, hsizes, hperm with
  | ([], s₁), hpush, _, _ => exact Nat.le_add_right_of_le hpush
  | ([run], s₁), hpush, hsizes, hperm =>
      have hlen : run.length = l.length := by simpa using hperm.length_eq
      simpa [hlen] using hpush
  | (newer :: older :: runs, s₁), hpush, hsizes, hperm =>
      have hpow : ∀ run ∈ newer :: older :: runs, ∃ k, run.length = 2 ^ k := fun run hrun => by
        have hmem : run.length ∈ pendingSizes 1 1 l.length := hsizes ▸ List.mem_map_of_mem hrun
        simpa using exists_of_mem_pendingSizes hmem
      have hnewer : newer.length = 1 := head_pendingSizes hsizes.symm
      have hbalanced : Balanced newer.length ((older :: runs).map List.length) := by
        rw [hnewer]
        exact balanced_tail (hsizes.symm.trans (by rw [List.map_cons, hnewer]))
      have hend := collapse_cost hcost (fun run hrun => hpow run (List.mem_cons_of_mem newer hrun))
        hbalanced s₁
      have hlen : (newer :: older :: runs).flatten.length = l.length := by
        simpa using hperm.length_eq
      rw [hlen] at hend
      simp only [List.map_nil, spent_nil, Nat.add_zero] at hpush
      dsimp only
      omega

end Cost

/-- The comparison that gives the answers of a list one by one: whether to take the element of
the first operand. -/
def scripted : List Bool → α → α → Int × List Bool :=
  fun answers _ _ => (if answers.headD true then 0 else 1, answers.tail)

section Script

variable {u n w : ℕ} {answers : List Bool}

theorem mergeLists_true (a b : α) (l k : List α) (answers : List Bool) :
    mergeLists scripted (a :: l) (b :: k) (true :: answers) =
      (mergeLists scripted l (b :: k) answers).cons a :=
  mergeLists_of_le le_rfl

theorem mergeLists_false (a b : α) (l k : List α) (answers : List Bool) :
    mergeLists scripted (a :: l) (b :: k) (false :: answers) =
      (mergeLists scripted (a :: l) k answers).cons b :=
  mergeLists_of_gt (show ¬ (1 : ℤ) ≤ 0 by decide)

/-- The longest merge uses the first operand up but for one element, and then the second. -/
theorem mergeLists_scripted {a b : α} (l k : List α) (answers : List Bool) :
    (mergeLists scripted (a :: l) (b :: k) (List.replicate l.length true ++
      (List.replicate (k.length + 1) false ++ answers))).priv = answers := by
  induction l generalizing a with
  | nil =>
      induction k generalizing b with
      | nil =>
          refine (congrArg Merged.priv (mergeLists_false a b [] [] answers)).trans ?_
          rw [mergeLists_nil_right, Merged.cons_priv]
      | cons b' k ih => exact (congrArg Merged.priv (mergeLists_false a b [] (b' :: k) _)).trans ih
  | cons a' l ih => exact (congrArg Merged.priv (mergeLists_true a b (a' :: l) k _)).trans ih

theorem exists_merge_script {x y k : ℕ} (hx : x = 2 ^ k) (hlow : 2 ^ k ≤ 2 * y)
    (hhigh : y ≤ 2 * 2 ^ k) :
    ∃ script : List Bool, worst y + worst x + script.length = worst (y + x) ∧
      ∀ older newer : List α, older.length = x → newer.length = y → ∀ answers,
        (mergeLists scripted older newer (script ++ answers)).priv = answers := by
  have hpos : 0 < 2 ^ k := Nat.two_pow_pos k
  have hworst := worst_merge hlow hhigh
  refine ⟨List.replicate (x - 1) true ++ List.replicate y false, ?_, ?_⟩
  · rw [List.length_append, List.length_replicate, List.length_replicate]
    rw [← hx] at hworst hpos
    omega
  · intro older newer holder hnewer answers
    match older, newer with
    | [], _ => exact absurd holder (by simp; omega)
    | _, [] => exact absurd hnewer (by simp; omega)
    | a :: l, b :: l' =>
        rw [← holder, ← hnewer, List.append_assoc]
        exact mergeLists_scripted l l' answers

theorem exists_round_script (hu : ∃ k, u = 2 ^ k) (n : ℕ) :
    ∃ script : List Bool,
      spent (pendingSizes u 1 n) + script.length = spent (pendingSizes u 0 (n + 1)) ∧
      ∀ runs : List (List α), runs.map List.length = pendingSizes u 1 n →
        ∀ answers, (mergeBits scripted n runs (script ++ answers)).2 = answers := by
  induction n using Nat.strongRecOn generalizing u with
  | _ n ih =>
      obtain ⟨k, hk⟩ := hu
      by_cases hodd : n % 2 = 1
      · obtain ⟨script, hlen, hscript⟩ :=
          @ih (n / 2) (by omega) (2 * u) ⟨k + 1, by rw [hk, pow_succ']⟩
        refine ⟨script, ?_, fun runs hsizes answers => ?_⟩
        · have hhalf : (n + 1) / 2 = n / 2 + 1 := by omega
          have heven : (n + 1) % 2 = 0 := by omega
          rw [pendingSizes_odd hodd, @pendingSizes_of_two_le u 0 (n + 1) (by omega), heven, hhalf]
          simp only [Nat.zero_add, Nat.sub_zero, List.replicate_one, List.singleton_append,
            spent_cons]
          omega
        · obtain ⟨run, rest, rfl, hrest⟩ := exists_run_of_odd hsizes hodd
          rw [mergeBits_odd hodd]
          exact hscript rest hrest answers
      · by_cases hzero : n = 0
        · subst hzero
          refine ⟨[], by simp, fun runs _ answers => ?_⟩
          rw [mergeBits_zero]
          rfl
        · obtain ⟨script, hlen, hscript⟩ :=
            @exists_merge_script α u u k hk (by omega) (by omega)
          refine ⟨script, ?_, fun runs hsizes answers => ?_⟩
          · have hhalf : (n + 1) / 2 = n / 2 := by omega
            have hodd' : (n + 1) % 2 = 1 := by omega
            rw [pendingSizes_even hzero hodd, @pendingSizes_of_two_le u 0 (n + 1) (by omega), hodd',
              hhalf, Nat.zero_add, Nat.sub_self, List.replicate_zero, List.nil_append,
              ← @pendingSizes_carry (2 * u) (n / 2) (by omega), Nat.two_mul]
            simp only [spent_cons]
            omega
          · obtain ⟨newer, older, rest, rfl, hnewer, holder⟩ :=
              exists_runs_of_even hsizes hodd hzero
            rw [mergeBits_even hodd hzero]
            exact hscript older newer holder hnewer answers

theorem exists_push_script (n d : ℕ) (hlt : n + d < 2 ^ w) :
    ∃ script : List Bool,
      spent (pendingSizes 1 1 n) + script.length = spent (pendingSizes 1 1 (n + d)) ∧
      ∀ (runs : List (List α)) (l : List α), runs.map List.length = pendingSizes 1 1 n →
        l.length = d → ∀ answers,
          (pushAll scripted w n runs l (script ++ answers)).2 = answers ∧
          (pushAll scripted w n runs l (script ++ answers)).1.map List.length =
            pendingSizes 1 1 (n + d) := by
  induction d generalizing n with
  | zero =>
      refine ⟨[], rfl, fun runs l hsizes hlen answers => ?_⟩
      obtain rfl := List.length_eq_zero_iff.mp hlen
      exact ⟨rfl, hsizes⟩
  | succ d ih =>
      obtain ⟨script, hround, hscript⟩ := @exists_round_script α 1 ⟨0, rfl⟩ n
      obtain ⟨script', hpush, hscript'⟩ := ih (n + 1) (by omega)
      have hcarry := @pendingSizes_carry 1 (n + 1) (Nat.succ_pos n)
      have hsum : n + 1 + d = n + (d + 1) := by omega
      refine ⟨script ++ script', ?_, fun runs l hsizes hlen answers => ?_⟩
      · rw [← hcarry, spent_cons, worst_one, hsum] at hpush
        rw [List.length_append]
        omega
      · match l, hlen with
        | x :: l, hlen =>
            have hcount : (n + 1) % 2 ^ w = n + 1 := Nat.mod_eq_of_lt (by omega)
            have hsizes' : ([x] :: (mergeBits scripted n runs
                (script ++ (script' ++ answers))).1).map List.length = pendingSizes 1 1 (n + 1) := by
              rw [List.map_cons, pendingSizes_mergeBits hsizes]
              exact hcarry
            rw [List.append_assoc, pushAll, hcount, hscript runs hsizes, ← hsum]
            exact hscript' _ l hsizes' (Nat.succ.inj hlen) answers

/-- For balanced sizes of runs there are answers that make all merges at the end as long as
possible. -/
theorem exists_collapse_script {y x : ℕ} {sizes : List ℕ}
    (hpow : ∀ z ∈ x :: sizes, ∃ k, z = 2 ^ k) (hbalanced : Balanced y (x :: sizes)) :
    ∃ script : List Bool,
      spent (y :: x :: sizes) + script.length = worst (y :: x :: sizes).sum ∧
      ∀ (newer older : List α) (runs : List (List α)), newer.length = y → older.length = x →
        runs.map List.length = sizes → ∀ answers,
          (mergeLists scripted (collapse scripted newer older runs (script ++ answers)).1
            (collapse scripted newer older runs (script ++ answers)).2.1
            (collapse scripted newer older runs (script ++ answers)).2.2).priv = answers := by
  induction sizes generalizing y x with
  | nil =>
      obtain ⟨k, hk⟩ := hpow x List.mem_cons_self
      obtain ⟨hhigh, hlow, -⟩ := hbalanced
      obtain ⟨script, hlen, hscript⟩ := @exists_merge_script α x y k hk (hk ▸ hlow) (hk ▸ hhigh)
      refine ⟨script, by simpa using hlen, fun newer older runs hnewer holder hruns answers => ?_⟩
      obtain rfl := List.map_eq_nil_iff.mp hruns
      exact hscript older newer holder hnewer answers
  | cons z sizes ih =>
      obtain ⟨k, hk⟩ := hpow x List.mem_cons_self
      obtain ⟨hhigh, hlow, hrest⟩ := hbalanced
      obtain ⟨script, hlen, hscript⟩ := @exists_merge_script α x y k hk (hk ▸ hlow) (hk ▸ hhigh)
      obtain ⟨script', hlen', hscript'⟩ := ih (fun u hu => hpow u (List.mem_cons_of_mem x hu)) hrest
      refine ⟨script ++ script', ?_, fun newer older runs hnewer holder hruns answers => ?_⟩
      · simp only [spent_cons, List.sum_cons, List.length_append, Nat.add_assoc] at hlen hlen' ⊢
        omega
      · match runs, hruns with
        | next :: runs, hruns =>
            obtain ⟨hnext, hruns⟩ := List.cons.inj hruns
            rw [List.append_assoc, collapse, hscript older newer holder hnewer]
            refine hscript' _ next runs ?_ hnext hruns answers
            rw [length_mergeLists, holder, hnewer, Nat.add_comm]

/-- The worst case happens: for each length there are answers that the sort uses up. -/
theorem exists_script (hlt : n < 2 ^ w) :
    ∃ script : List Bool, script.length = worst n ∧ ∀ l : List α, l.length = n →
      ∀ answers, (mergeAll scripted w l (script ++ answers)).priv = answers := by
  by_cases hshort : n < 2
  · refine ⟨[], ?_, fun l hl answers => ?_⟩
    · obtain rfl | rfl : n = 0 ∨ n = 1 := by omega
      · simp [worst]
      · exact worst_one.symm
    · rcases l with _ | ⟨x, _ | ⟨y, l⟩⟩
      · rfl
      · simp [mergeAll, pushAll, mergeBits_zero]
      · exact absurd hl (by simp only [List.length_cons]; omega)
  · obtain ⟨script, hlen, hscript⟩ := @exists_push_script α w 0 n (by omega)
    rw [pendingSizes_zero, Nat.zero_add, spent_nil, Nat.zero_add] at hlen
    simp only [Nat.zero_add, pendingSizes_zero] at hscript
    have hsum := @sum_pendingSizes 1 n (by omega) 1 le_rfl
    have htwo : 2 ≤ (pendingSizes 1 1 n).length :=
      (Nat.size_le_size (show 2 ≤ n by omega)).trans (size_le_pendingSizes 1 n)
    obtain ⟨y, x, sizes, hsizes⟩ : ∃ y x sizes, pendingSizes 1 1 n = y :: x :: sizes := by
      rcases hsizes : pendingSizes 1 1 n with _ | ⟨y, _ | ⟨x, sizes⟩⟩
      · simp [hsizes] at htwo
      · simp [hsizes] at htwo
      · exact ⟨y, x, sizes, rfl⟩
    obtain rfl : y = 1 := head_pendingSizes hsizes
    have hpow : ∀ z ∈ x :: sizes, ∃ k, z = 2 ^ k := fun z hz => by
      have hmem : z ∈ pendingSizes 1 1 n := hsizes ▸ List.mem_cons_of_mem 1 hz
      simpa using exists_of_mem_pendingSizes hmem
    obtain ⟨script', hlen', hscript'⟩ := @exists_collapse_script α 1 x sizes hpow
      (balanced_tail hsizes)
    refine ⟨script ++ script', ?_, fun l hl answers => ?_⟩
    · rw [hsizes] at hlen hsum
      rw [hsum, ← hlen, Nat.one_mul, Nat.sub_add_cancel (by omega)] at hlen'
      rw [List.length_append, hlen']
    · obtain ⟨hrest, hruns⟩ := hscript [] l rfl hl (script' ++ answers)
      unfold mergeAll
      rw [List.append_assoc]
      generalize pushAll scripted w 0 [] l (script ++ (script' ++ answers)) = r at hrest hruns
      obtain ⟨runs, s⟩ := r
      obtain rfl : s = script' ++ answers := hrest
      obtain ⟨newer, runs, rfl, hnewer, hruns⟩ :=
        List.map_eq_cons_iff.mp (hruns.trans hsizes)
      obtain ⟨older, runs, rfl, holder, hruns⟩ := List.map_eq_cons_iff.mp hruns
      exact hscript' newer older runs hnewer holder hruns answers

end Script

end Merging
end Brlib
