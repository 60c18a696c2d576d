import Brlib.ListSort.Balance
import Brlib.Merging.Cost

/-!
# How many comparisons `list_sort` makes

`list_sort` calls the comparison to order two nodes, and every now and then with one node
twice, so that it can yield (`unlikely(!++count)`).  For every comparison the former calls
are at most `worst n` on a list of `n` nodes, which is the optimum for merge sorts, and there
is a comparison that makes it call as often (`listSort_comparisons`).
-/

namespace Brlib
namespace ListSort

open Heap Heap.Mem Merging

variable {α π : Type} [DecidableEq α]
variable {m : Mem α} {h : α} {l : List α} {fuel : Nat}

/-- The calls that compare two different nodes. -/
def comparisons (calls : List (α × α)) : List (α × α) :=
  calls.filter fun p => p.1 ≠ p.2

/-- The calls of `list_sort` are those of the sort of runs, which compare different nodes,
and then calls with the same node twice. -/
theorem listSort_logged (cmp : ListCmpFunc π α) (hring : m.Ring h l) (hfuel : l.length ≤ fuel)
    (priv : π) :
    ∃ priv' diag m', listSort (logged cmp) fuel (priv, []) (.addr h) m =
        some ((priv', (mergeAll (logged cmp) 64 l (priv, [])).priv.2 ++ diag), m') ∧
      comparisons ((mergeAll (logged cmp) 64 l (priv, [])).priv.2 ++ diag) =
        (mergeAll (logged cmp) 64 l (priv, [])).priv.2 ∧
      2 ^ 8 * diag.length ≤ l.length := by
  have hnodup : l.Nodup := hring.nodup.of_cons
  obtain ⟨m', hrun, -, -⟩ := @listSort_spec _ _ _ (logged cmp) m h l (priv, []) fuel hring hfuel
  obtain ⟨-, -, -, hcalls⟩ := @mergeAll_logged _ _ cmp (· ≠ ·) 64 l priv hnodup
  obtain ⟨diag, hticks, hdiag, hlen⟩ := ticks_logged cmp 8 0
    (mergeAll (logged cmp) 64 l (priv, [])).rest (mergeAll (logged cmp) 64 l (priv, [])).priv.1
    (mergeAll (logged cmp) 64 l (priv, [])).priv.2
  have hrest := (mergeAll_rest_suffix (logged cmp) 64 l (priv, [])).length_le
  rw [(mergeAll_perm (logged cmp) 64 l (priv, [])).length_eq] at hrest
  have hsort := hrun.trans (congrArg (fun s => some (s, m')) hticks)
  have hkept : comparisons (mergeAll (logged cmp) 64 l (priv, [])).priv.2 =
      (mergeAll (logged cmp) 64 l (priv, [])).priv.2 :=
    List.filter_eq_self.mpr fun p hp => by simpa using hcalls p hp
  have hnone : comparisons diag = [] :=
    List.filter_eq_nil_iff.mpr fun p hp => by simpa using (hdiag p hp).1
  refine ⟨_, diag, m', hsort, ?_, ?_⟩
  · rw [comparisons, List.filter_append, ← comparisons, ← comparisons, hkept, hnone,
      List.append_nil]
  · have hcount := hlen (by decide)
    omega

omit [DecidableEq α] in
theorem logged_metered (cmp : ListCmpFunc π α) : Metered (logged cmp) fun s => s.2.length :=
  fun s a b => by simp [logged]

omit [DecidableEq α] in
theorem scripted_agree (n : ℕ) :
    Agree (fun _ _ => True)
      (fun answers (s : List Bool × List (α × α)) =>
        answers = s.1 ∧ n ≤ answers.length + s.2.length) scripted (logged scripted) := by
  rintro answers ⟨_, calls⟩ a b ⟨rfl, hle⟩ -
  refine ⟨Iff.rfl, rfl, ?_⟩
  simp only [scripted, logged, List.length_tail, List.length_append, List.length_singleton] at hle ⊢
  omega

/-- On a list of `n` nodes `list_sort` makes at most `worst n` comparisons, for any
comparison at all, and besides at most one call for every 256 nodes; and for every list there
is a comparison that makes it reach this number. -/
theorem listSort_comparisons {addr : α → UInt64} (haddr : Function.Injective addr)
    (hring : m.Ring h l) (hfuel : l.length ≤ fuel) :
    (∀ {π : Type} (cmp : ListCmpFunc π α) (priv : π), ∃ priv' calls m',
      listSort (logged cmp) fuel (priv, []) (.addr h) m = some ((priv', calls), m') ∧
      (comparisons calls).length ≤ worst l.length ∧
      2 ^ 8 * (calls.length - (comparisons calls).length) ≤ l.length) ∧
    ∃ answers priv' calls m',
      listSort (logged scripted) fuel (answers, []) (.addr h) m = some ((priv', calls), m') ∧
      (comparisons calls).length = worst l.length := by
  have hword := length_lt_of_ring haddr hring
  constructor
  · intro π cmp priv
    obtain ⟨priv', diag, m', hrun, hcalls, hdiag⟩ := listSort_logged cmp hring hfuel priv
    have hcost := mergeAll_cost (logged_metered cmp) hword (priv, [])
    refine ⟨priv', _, m', hrun, ?_, ?_⟩
    · rw [hcalls]
      simpa using hcost
    · rw [hcalls, List.length_append, Nat.add_sub_cancel_left]
      exact hdiag
  · obtain ⟨answers, hlen, hscript⟩ := @exists_script α l.length 64 hword
    obtain ⟨priv', diag, m', hrun, hcalls, -⟩ := listSort_logged scripted hring hfuel answers
    have hcost := mergeAll_cost (logged_metered scripted) hword (answers, ([] : List (α × α)))
    -- the answers are used up, and each call takes at most one
    have hend := hscript l rfl []
    obtain ⟨-, -, -, hle⟩ := mergeAll_sim (scripted_agree answers.length) 64
      (List.pairwise_of_forall fun _ _ => trivial) (l := l)
      (show answers = (answers, ([] : List (α × α))).1 ∧ _ from ⟨rfl, by simp⟩)
    rw [List.append_nil] at hend
    rw [hend] at hle
    refine ⟨answers, priv', _, m', hrun, ?_⟩
    rw [hcalls]
    simp only [List.length_nil, Nat.zero_add] at hle hcost
    omega

theorem listSort_comparisons_threeCells :
    (∃ priv' calls m',
      listSort (logged cellCmp) 3 (0, []) (.addr 0) threeCells = some ((priv', calls), m') ∧
      (comparisons calls).length ≤ worst 3 ∧
      2 ^ 8 * (calls.length - (comparisons calls).length) ≤ 3) ∧
    ∃ answers priv' calls m',
      listSort (logged scripted) 3 (answers, []) (.addr 0) threeCells = some ((priv', calls), m') ∧
      (comparisons calls).length = worst 3 :=
  have hrun := listSort_comparisons (show Function.Injective cellAddr by decide) threeCells_ring
    (show [3, 1, 2].length ≤ 3 by decide)
  ⟨hrun.1 cellCmp 0, hrun.2⟩

end ListSort
end Brlib
