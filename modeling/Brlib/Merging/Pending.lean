import Brlib.Merging.Stable

/-!
# The sizes of the pending runs

How many runs of the size `2 ^ k` are pending is a matter of two neighbouring digits of the
counter, and of whether there are higher ones: `pendingSizes` goes through the digits from
the lowest on.  A round carries the sizes over to the next number like the carry of an
increment (`pendingSizes_mergeBits`).

From the sizes follows what a bottom-up merge sort of this kind promises: they are powers of
two and sum up to the counter, no size occurs more than twice, the two runs that a
round merges have the same size, and the merges at the end are balanced
(`balanced_pendingSizes`).
-/

namespace Brlib
namespace Merging

variable {α π : Type*}

/-- The sizes of the pending runs, `u` and above, when the digits from that of `u` on are
`n` and the digit below is `c`. -/
def pendingSizes (u c : ℕ) : ℕ → List ℕ
  | 0 => []
  | 1 => List.replicate c u
  | n + 2 => List.replicate (c + 1 - n % 2) u ++ pendingSizes (2 * u) (n % 2) (n / 2 + 1)
termination_by n => n

/-- Merging from the front, no operand is more than twice as long as the other: `newer` is
the size of what is merged already. -/
def Balanced : ℕ → List ℕ → Prop
  | _, [] => True
  | newer, older :: sizes =>
      newer ≤ 2 * older ∧ older ≤ 2 * newer ∧ Balanced (newer + older) sizes

/-- Each run is a rearrangement of a segment of the input, the newest one of the last. -/
inductive Segmented : List (List α) → List α → Prop
  | nil : Segmented [] []
  | cons {run segment : List α} {runs : List (List α)} {l : List α} (hperm : run.Perm segment)
      (hruns : Segmented runs l) : Segmented (run :: runs) (l ++ segment)

section Sizes

variable {u c n x : ℕ}

@[simp] theorem pendingSizes_zero (u c : ℕ) : pendingSizes u c 0 = [] := by
  rw [pendingSizes]

@[simp] theorem pendingSizes_one (u c : ℕ) : pendingSizes u c 1 = List.replicate c u := by
  rw [pendingSizes]

theorem pendingSizes_of_two_le (hn : 2 ≤ n) :
    pendingSizes u c n =
      List.replicate (c + 1 - n % 2) u ++ pendingSizes (2 * u) (n % 2) (n / 2) := by
  obtain ⟨n, rfl⟩ := Nat.exists_eq_add_of_le' hn
  rw [pendingSizes, Nat.add_mod_right, Nat.add_div_right n (by decide)]

/-- A one below makes one more run of the lowest size. -/
theorem pendingSizes_carry (hn : 1 ≤ n) : u :: pendingSizes u 0 n = pendingSizes u 1 n := by
  by_cases hone : n = 1
  · subst hone
    simp
  · have htwo : 2 ≤ n := by omega
    have hcount : 1 + 1 - n % 2 = 0 + 1 - n % 2 + 1 := by omega
    rw [pendingSizes_of_two_le htwo, pendingSizes_of_two_le htwo, hcount, List.replicate_succ]
    rfl

theorem exists_of_mem_pendingSizes (h : x ∈ pendingSizes u c n) : ∃ k, x = 2 ^ k * u := by
  induction n using Nat.strongRecOn generalizing u c with
  | _ n ih =>
      by_cases hn : 2 ≤ n
      · rw [pendingSizes_of_two_le hn] at h
        rcases List.mem_append.mp h with hu | hrest
        · exact ⟨0, by rw [List.eq_of_mem_replicate hu, pow_zero, Nat.one_mul]⟩
        · obtain ⟨k, rfl⟩ := ih (n / 2) (by omega) hrest
          exact ⟨k + 1, by ring⟩
      · obtain rfl | rfl : n = 0 ∨ n = 1 := by omega
        · simp at h
        · rw [pendingSizes_one] at h
          exact ⟨0, by rw [List.eq_of_mem_replicate h, pow_zero, Nat.one_mul]⟩

theorem le_of_mem_pendingSizes (h : x ∈ pendingSizes u c n) : u ≤ x := by
  obtain ⟨k, rfl⟩ := exists_of_mem_pendingSizes h
  exact Nat.le_mul_of_pos_left u (Nat.two_pow_pos k)

theorem sum_pendingSizes (hn : 1 ≤ n) (u : ℕ) (hc : c ≤ 1) :
    (pendingSizes u c n).sum = u * (n - 1 + c) := by
  induction n using Nat.strongRecOn generalizing u c with
  | _ n ih =>
      by_cases hone : n = 1
      · subst hone
        rw [pendingSizes_one, List.sum_replicate, smul_eq_mul]
        ring
      · rw [pendingSizes_of_two_le (by omega), List.sum_append, List.sum_replicate, smul_eq_mul,
          ih (n / 2) (by omega) (by omega) (2 * u) (by omega), Nat.mul_comm 2 u, Nat.mul_assoc,
          Nat.mul_comm _ u, ← Nat.mul_add]
        congr 1
        omega

theorem sorted_pendingSizes (u c n : ℕ) : (pendingSizes u c n).Pairwise (· ≤ ·) := by
  induction n using Nat.strongRecOn generalizing u c with
  | _ n ih =>
      by_cases hn : 2 ≤ n
      · rw [pendingSizes_of_two_le hn]
        refine List.pairwise_append.mpr ⟨?_, ih (n / 2) (by omega) _ _, fun x hx y hy => ?_⟩
        · exact List.pairwise_replicate.mpr (.inr le_rfl)
        · have hle := le_of_mem_pendingSizes hy
          rw [List.eq_of_mem_replicate hx]
          omega
      · obtain rfl | rfl : n = 0 ∨ n = 1 := by omega
        · simp
        · rw [pendingSizes_one]
          exact List.pairwise_replicate.mpr (.inr le_rfl)

/-- No size occurs more than twice. -/
theorem count_pendingSizes_le (hu : 0 < u) (hc : c ≤ 1) (x : ℕ) :
    (pendingSizes u c n).count x ≤ 2 := by
  induction n using Nat.strongRecOn generalizing u c with
  | _ n ih =>
      by_cases hn : 2 ≤ n
      · rw [pendingSizes_of_two_le hn, List.count_append, List.count_replicate]
        by_cases hx : u = x
        · subst hx
          have hnone : (pendingSizes (2 * u) (n % 2) (n / 2)).count u = 0 := by
            apply List.count_eq_zero_of_not_mem
            intro hmem
            have hle := le_of_mem_pendingSizes hmem
            omega
          rw [hnone, if_pos (by simp)]
          omega
        · have hrest := ih (n / 2) (by omega) (show 0 < 2 * u by omega)
            (show n % 2 ≤ 1 by omega)
          rw [if_neg (by simpa using hx)]
          omega
      · obtain rfl | rfl : n = 0 ∨ n = 1 := by omega
        · simp
        · rw [pendingSizes_one, List.count_replicate]
          split <;> omega

/-- Behind a run for each trailing one there are two runs of the same size, when there is
any digit left. -/
theorem pendingSizes_even (hn : n ≠ 0) (heven : n % 2 ≠ 1) :
    pendingSizes u 1 n = u :: u :: pendingSizes (2 * u) 0 (n / 2) := by
  have hzero : n % 2 = 0 := by omega
  rw [pendingSizes_of_two_le (by omega), hzero]
  rfl

theorem pendingSizes_odd (hodd : n % 2 = 1) :
    pendingSizes u 1 n = u :: pendingSizes (2 * u) 1 (n / 2) := by
  by_cases hone : n = 1
  · subst hone
    simp
  · rw [pendingSizes_of_two_le (by omega), hodd]
    rfl

/-- There are at least as many runs as digits. -/
theorem size_le_pendingSizes (u n : ℕ) : Nat.size n ≤ (pendingSizes u 1 n).length := by
  induction n using Nat.strongRecOn generalizing u with
  | _ n ih =>
      by_cases hzero : n = 0
      · simp [hzero]
      · have hsize : Nat.size n = Nat.size (n / 2) + 1 := size_half (by omega)
        have hhalf := ih (n / 2) (by omega) (2 * u)
        by_cases hodd : n % 2 = 1
        · rw [pendingSizes_odd hodd, List.length_cons]
          omega
        · rw [← pendingSizes_carry (by omega), List.length_cons] at hhalf
          rw [pendingSizes_even hzero hodd, List.length_cons, List.length_cons]
          omega

end Sizes

section Balance

variable {u n newer : ℕ}

/-- The merges at the end are balanced: between `u / 2` and `3 / 2 * u` elements, by
the digit below, are merged before the runs of the size `u`. -/
theorem balanced_pendingSizes {c : ℕ} (hc : c ≤ 1) (hlow : (2 - c) * u ≤ 2 * newer)
    (hhigh : 2 * newer < (3 - c) * u) : Balanced newer (pendingSizes u c n) := by
  induction n using Nat.strongRecOn generalizing u c newer with
  | _ n ih =>
      obtain rfl | rfl : c = 0 ∨ c = 1 := by omega
      · by_cases hn : 2 ≤ n
        · by_cases hodd : n % 2 = 1
          · rw [pendingSizes_of_two_le hn, hodd]
            exact ih (n / 2) (by omega) le_rfl (by omega) (by omega)
          · have hzero : n % 2 = 0 := by omega
            rw [pendingSizes_of_two_le hn, hzero]
            refine ⟨by omega, by omega, ?_⟩
            exact ih (n / 2) (by omega) (Nat.zero_le 1) (by omega) (by omega)
        · obtain rfl | rfl : n = 0 ∨ n = 1 := by omega
          · rw [pendingSizes_zero]
            trivial
          · rw [pendingSizes_one]
            trivial
      · by_cases hzero : n = 0
        · rw [hzero, pendingSizes_zero]
          trivial
        · by_cases hodd : n % 2 = 1
          · rw [pendingSizes_odd hodd]
            refine ⟨by omega, by omega, ?_⟩
            exact ih (n / 2) (by omega) le_rfl (by omega) (by omega)
          · rw [pendingSizes_even hzero hodd]
            refine ⟨by omega, by omega, by omega, by omega, ?_⟩
            exact ih (n / 2) (by omega) (Nat.zero_le 1) (by omega) (by omega)

theorem balanced_tail {sizes : List ℕ} (h : pendingSizes 1 1 n = 1 :: sizes) :
    Balanced 1 sizes := by
  by_cases hzero : n = 0
  · rw [hzero, pendingSizes_zero] at h
    exact absurd h (by simp)
  · by_cases hodd : n % 2 = 1
    · rw [pendingSizes_odd hodd] at h
      rw [← (List.cons.inj h).2]
      exact balanced_pendingSizes le_rfl (by omega) (by omega)
    · rw [pendingSizes_even hzero hodd] at h
      rw [← (List.cons.inj h).2]
      refine ⟨by omega, by omega, ?_⟩
      exact balanced_pendingSizes (Nat.zero_le 1) (by omega) (by omega)

end Balance

section Rounds

variable {cmp : π → α → α → Int × π} {u n : ℕ} {runs : List (List α)} {s : π} {l : List α}
variable {r r' : List (List α) × π}

theorem length_mergeLists (cmp : π → α → α → Int × π) (l k : List α) (s : π) :
    (mergeLists cmp l k s).out.length = l.length + k.length := by
  rw [(mergeLists_perm cmp l k s).length_eq, List.length_append]

/-- A round prepares the sizes for the next number. -/
theorem pendingSizes_mergeBits (hsizes : runs.map List.length = pendingSizes u 1 n) (s : π) :
    (mergeBits cmp n runs s).1.map List.length = pendingSizes u 0 (n + 1) := by
  induction n using Nat.strongRecOn generalizing runs u with
  | _ n ih =>
      by_cases hodd : n % 2 = 1
      · rw [pendingSizes_odd hodd] at hsizes
        cases runs with
        | nil => exact absurd hsizes (by simp)
        | cons run runs =>
            obtain ⟨hrun, hruns⟩ := List.cons.inj hsizes
            have hhalf : (n + 1) / 2 = n / 2 + 1 := by omega
            have heven : (n + 1) % 2 = 0 := by omega
            rw [mergeBits_odd hodd, List.map_cons, hrun, ih (n / 2) (by omega) hruns,
              @pendingSizes_of_two_le u 0 (n + 1) (by omega), heven, hhalf]
            rfl
      · by_cases hzero : n = 0
        · subst hzero
          rw [pendingSizes_zero] at hsizes
          rw [mergeBits_zero, hsizes, pendingSizes_one]
          rfl
        · rw [pendingSizes_even hzero hodd] at hsizes
          match runs, hsizes with
          | newer :: older :: runs, hsizes =>
              obtain ⟨hnewer, holder, hruns⟩ : newer.length = u ∧ older.length = u ∧
                  runs.map List.length = pendingSizes (2 * u) 0 (n / 2) := by
                simpa using hsizes
              have hhalf : (n + 1) / 2 = n / 2 := by omega
              have hodd' : (n + 1) % 2 = 1 := by omega
              rw [mergeBits_even hodd hzero, List.map_cons, length_mergeLists, hnewer, holder,
                hruns, ← Nat.two_mul, pendingSizes_carry (by omega),
                @pendingSizes_of_two_le u 0 (n + 1) (by omega), hodd', hhalf]
              rfl

theorem Merge.segmented (hmerge : Merge cmp r r') (h : Segmented r.1 l) : Segmented r'.1 l := by
  induction hmerge generalizing l with
  | here newer older runs s =>
      obtain _ | ⟨hnewer, _ | ⟨holder, hruns⟩⟩ := h
      rw [List.append_assoc]
      exact .cons ((mergeLists_perm cmp older newer s).trans (holder.append hnewer)) hruns
  | behind run hmerge ih =>
      obtain _ | ⟨hrun, hruns⟩ := h
      exact .cons hrun (ih hruns)

theorem Merges.segmented (hmerges : Merges cmp r r') (h : Segmented r.1 l) :
    Segmented r'.1 l := by
  induction hmerges with
  | refl => exact h
  | tail _ hmerge ih => exact hmerge.segmented ih

theorem Segmented.flatten_perm (h : Segmented runs l) : runs.flatten.Perm l := by
  induction h with
  | nil => exact .nil
  | cons hperm _ ih => exact (hperm.append ih).trans List.perm_append_comm

end Rounds

end Merging
end Brlib
