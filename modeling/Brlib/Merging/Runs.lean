import Mathlib.Data.Nat.Size
import Mathlib.Data.List.Perm.Basic
import Mathlib.Logic.Relation
import Mathlib.Tactic

/-!
# Merging runs under the control of a binary counter

A bottom-up merge sort keeps a list of sorted runs, the newest one at the front.
Before it adds the next element as a run of its own, it looks at the binary
digits of the number of elements it has consumed, and merges the two runs that
follow as many runs as there are trailing ones.  At the end it merges what is
left from the front.

The comparison function carries a private state: it may answer differently on
each call.  Everything here is about the sequence of runs; where they are kept
is of no concern.

* `Merge` is one merge of two neighbouring runs, the older one first;
  `mergeBits_merges` and `collapse_merges` say that the sort does nothing else.
* `size_le_mergeBits` is the invariant of the counter: there are at least as
  many runs as binary digits, so the two runs to merge always exist.
-/

namespace Brlib
namespace Merging

variable {α π : Type*}

/-- What a merge leaves: the merged run, the part of it that was taken over
whole when the other run was used up, and the state of the comparison. -/
structure Merged (α π : Type*) where
  out : List α
  rest : List α
  priv : π

/-- An element goes to the output before the rest of the merge. -/
def Merged.cons (a : α) (r : Merged α π) : Merged α π :=
  { r with out := a :: r.out }

@[simp] theorem Merged.cons_out (a : α) (r : Merged α π) : (r.cons a).out = a :: r.out := rfl

@[simp] theorem Merged.cons_rest (a : α) (r : Merged α π) : (r.cons a).rest = r.rest := rfl

@[simp] theorem Merged.cons_priv (a : α) (r : Merged α π) : (r.cons a).priv = r.priv := rfl

variable (cmp : π → α → α → Int × π)

/-- The merge of two runs; on a tie the element of the first one is taken. -/
def mergeLists : List α → List α → π → Merged α π
  | [], k, s => ⟨k, k, s⟩
  | a :: l, [], s => ⟨a :: l, a :: l, s⟩
  | a :: l, b :: k, s =>
      if (cmp s a b).1 ≤ 0 then (mergeLists l (b :: k) (cmp s a b).2).cons a
      else (mergeLists (a :: l) k (cmp s a b).2).cons b
termination_by l k => l.length + k.length

/-- Skip one run for each trailing one of `bits`; if a one is left among the
other digits, merge the two runs that follow. -/
def mergeBits (bits : Nat) (runs : List (List α)) (s : π) : List (List α) × π :=
  if bits % 2 = 1 then
    match runs with
    | [] => ([], s)
    | run :: runs => ((run :: (mergeBits (bits / 2) runs s).1), (mergeBits (bits / 2) runs s).2)
  else if bits = 0 then (runs, s)
  else
    match runs with
    | newer :: older :: runs =>
        ((mergeLists cmp older newer s).out :: runs, (mergeLists cmp older newer s).priv)
    | runs => (runs, s)
termination_by bits

/-- Consume the input: for each element one round of merging, then the element
becomes the newest run.  The counter has `w` binary digits. -/
def pushAll (w : Nat) : Nat → List (List α) → List α → π → List (List α) × π
  | _, runs, [], s => (runs, s)
  | count, runs, x :: l, s =>
      pushAll w ((count + 1) % 2 ^ w) ([x] :: (mergeBits cmp count runs s).1) l
        (mergeBits cmp count runs s).2

/-- Merge the runs from the front until two are left: the older and the newer
operand of the last merge. -/
def collapse : List α → List α → List (List α) → π → List α × List α × π
  | newer, older, [], s => (older, newer, s)
  | newer, older, next :: runs, s =>
      collapse (mergeLists cmp older newer s).out next runs (mergeLists cmp older newer s).priv

/-- The calls that compare an element of a list with itself, one for every
`2 ^ w` elements. -/
def ticks (w : Nat) : Nat → List α → π → π
  | _, [], s => s
  | count, b :: l, s =>
      ticks w ((count + 1) % 2 ^ w) l
        (if (count + 1) % 2 ^ w = 0 then (cmp s b b).2 else s)

/-- The last merge of the whole sort, with a counter of `w` digits; fewer than
two elements are left as they are. -/
def mergeAll (w : Nat) (l : List α) (s : π) : Merged α π :=
  match pushAll cmp w 0 [] l s with
  | (newer :: older :: runs, s) =>
      mergeLists cmp (collapse cmp newer older runs s).1 (collapse cmp newer older runs s).2.1
        (collapse cmp newer older runs s).2.2
  | (_, s) => ⟨l, [], s⟩

/-- The whole sort; the calls at the end are counted with `t` digits. -/
def sortRuns (w t : Nat) (l : List α) (s : π) : List α × π :=
  ((mergeAll cmp w l s).out, ticks cmp t 0 (mergeAll cmp w l s).rest (mergeAll cmp w l s).priv)

section MergeLists

variable {cmp}

@[simp] theorem mergeLists_nil_left (k : List α) (s : π) :
    mergeLists cmp [] k s = ⟨k, k, s⟩ := by
  simp [mergeLists]

@[simp] theorem mergeLists_nil_right (l : List α) (s : π) :
    mergeLists cmp l [] s = ⟨l, l, s⟩ := by
  cases l <;> simp [mergeLists]

theorem mergeLists_of_le {a b : α} {l k : List α} {s : π} (hle : (cmp s a b).1 ≤ 0) :
    mergeLists cmp (a :: l) (b :: k) s = (mergeLists cmp l (b :: k) (cmp s a b).2).cons a := by
  rw [mergeLists, if_pos hle]

theorem mergeLists_of_gt {a b : α} {l k : List α} {s : π} (hgt : ¬ (cmp s a b).1 ≤ 0) :
    mergeLists cmp (a :: l) (b :: k) s = (mergeLists cmp (a :: l) k (cmp s a b).2).cons b := by
  rw [mergeLists, if_neg hgt]

theorem mergeLists_perm (cmp : π → α → α → Int × π) (l k : List α) (s : π) :
    (mergeLists cmp l k s).out.Perm (l ++ k) := by
  induction l, k, s using mergeLists.induct cmp with
  | case1 k s => simp
  | case2 a l s => simp
  | case3 a l b k s hle ih =>
      rw [mergeLists_of_le hle]
      exact ih.cons a
  | case4 a l b k s hgt ih =>
      rw [mergeLists_of_gt hgt]
      exact (ih.cons b).trans List.perm_middle.symm

theorem mergeLists_rest_suffix (cmp : π → α → α → Int × π) (l k : List α) (s : π) :
    (mergeLists cmp l k s).rest <:+ (mergeLists cmp l k s).out := by
  induction l, k, s using mergeLists.induct cmp with
  | case1 k s => simp
  | case2 a l s => simp
  | case3 a l b k s hle ih =>
      rw [mergeLists_of_le hle]
      exact ih.trans (List.suffix_cons a _)
  | case4 a l b k s hgt ih =>
      rw [mergeLists_of_gt hgt]
      exact ih.trans (List.suffix_cons b _)

theorem mergeLists_out_ne_nil (cmp : π → α → α → Int × π) {l k : List α} (hl : l ≠ []) (s : π) :
    (mergeLists cmp l k s).out ≠ [] := by
  intro hnil
  have hperm := mergeLists_perm cmp l k s
  rw [hnil] at hperm
  exact hl (List.append_eq_nil_iff.mp hperm.nil_eq.symm).1

end MergeLists

section Rounds

variable {cmp}

theorem mergeBits_zero (runs : List (List α)) (s : π) :
    mergeBits cmp 0 runs s = (runs, s) := by
  rw [mergeBits.eq_def]
  simp

theorem mergeBits_odd {bits : Nat} (hodd : bits % 2 = 1) (run : List α) (runs : List (List α))
    (s : π) :
    mergeBits cmp bits (run :: runs) s =
      (run :: (mergeBits cmp (bits / 2) runs s).1, (mergeBits cmp (bits / 2) runs s).2) := by
  rw [mergeBits, if_pos hodd]

theorem mergeBits_even {bits : Nat} (heven : bits % 2 ≠ 1) (hpos : bits ≠ 0)
    (newer older : List α) (runs : List (List α)) (s : π) :
    mergeBits cmp bits (newer :: older :: runs) s =
      ((mergeLists cmp older newer s).out :: runs, (mergeLists cmp older newer s).priv) := by
  rw [mergeBits, if_neg heven, if_neg hpos]

/-- One merge of two neighbouring runs; the older run is the first operand. -/
inductive Merge (cmp : π → α → α → Int × π) :
    List (List α) × π → List (List α) × π → Prop
  | here (newer older : List α) (runs : List (List α)) (s : π) :
      Merge cmp (newer :: older :: runs, s)
        ((mergeLists cmp older newer s).out :: runs, (mergeLists cmp older newer s).priv)
  | behind (run : List α) {runs runs' : List (List α)} {s s' : π}
      (hmerge : Merge cmp (runs, s) (runs', s')) :
      Merge cmp (run :: runs, s) (run :: runs', s')

/-- Any number of merges. -/
abbrev Merges (cmp : π → α → α → Int × π) :
    List (List α) × π → List (List α) × π → Prop :=
  Relation.ReflTransGen (Merge cmp)

theorem Merges.behind (run : List α) {r r' : List (List α) × π} (hmerges : Merges cmp r r') :
    Merges cmp (run :: r.1, r.2) (run :: r'.1, r'.2) := by
  induction hmerges with
  | refl => exact .refl
  | tail _ hmerge ih => exact ih.tail (.behind run hmerge)

theorem mergeBits_merges (cmp : π → α → α → Int × π) (bits : Nat) (runs : List (List α))
    (s : π) :
    Merges cmp (runs, s) (mergeBits cmp bits runs s) := by
  induction bits, runs using mergeBits.induct with
  | case1 bits hodd =>
      rw [mergeBits.eq_def, if_pos hodd]
  | case2 bits hodd run runs ih =>
      rw [mergeBits_odd hodd]
      exact ih.behind run
  | case3 runs hodd =>
      rw [mergeBits_zero]
  | case4 bits heven hpos newer older runs =>
      rw [mergeBits_even heven hpos]
      exact .single (.here newer older runs s)
  | case5 bits heven hpos runs hshort =>
      rw [mergeBits.eq_def, if_neg heven, if_neg hpos]
      split
      · exact absurd rfl (hshort _ _ _)
      · exact .refl

theorem collapse_merges (cmp : π → α → α → Int × π) (newer older : List α)
    (runs : List (List α)) (s : π) :
    Merges cmp (newer :: older :: runs, s)
      ([(collapse cmp newer older runs s).2.1, (collapse cmp newer older runs s).1],
        (collapse cmp newer older runs s).2.2) := by
  induction runs generalizing newer older s with
  | nil => exact .refl
  | cons next runs ih =>
      rw [collapse]
      exact .head (.here newer older (next :: runs) s) (ih _ next _)

end Rounds

section Counter

theorem size_double {n : Nat} (hpos : 0 < n) : Nat.size (2 * n) = Nat.size n + 1 := by
  have hne : Nat.bit false n ≠ 0 := by
    simp
    omega
  simpa using Nat.size_bit hne

theorem size_double_succ (n : Nat) : Nat.size (2 * n + 1) = Nat.size n + 1 := by
  have hne : Nat.bit true n ≠ 0 := by simp
  simpa using Nat.size_bit hne

theorem size_half {n : Nat} (hpos : 0 < n) : Nat.size n = Nat.size (n / 2) + 1 := by
  rcases Nat.mod_two_eq_zero_or_one n with heven | hodd
  · conv_lhs => rw [show n = 2 * (n / 2) by omega]
    exact size_double (by omega)
  · conv_lhs => rw [show n = 2 * (n / 2) + 1 by omega]
    exact size_double_succ _

variable {cmp} {bits : Nat} {runs : List (List α)}

/-- With a run for each trailing one and two more, the merge takes place: a
round gives up one run, but not when all digits are ones, and then the counter
is about to grow by one digit. -/
theorem size_le_mergeBits (hsize : Nat.size bits ≤ runs.length) (s : π) :
    Nat.size (bits + 1) ≤ (mergeBits cmp bits runs s).1.length + 1 ∧
      runs.length ≤ (mergeBits cmp bits runs s).1.length + 1 := by
  induction bits using Nat.strongRecOn generalizing runs with
  | _ bits ih =>
      by_cases hodd : bits % 2 = 1
      · have hsize' : Nat.size bits = Nat.size (bits / 2) + 1 := size_half (by omega)
        cases runs with
        | nil =>
            rw [List.length_nil] at hsize
            omega
        | cons run runs =>
            rw [List.length_cons] at hsize
            have hstep := ih (bits / 2) (by omega) (show (bits / 2).size ≤ runs.length by omega)
            have hnext : Nat.size (bits + 1) = Nat.size (bits / 2 + 1) + 1 := by
              rw [show bits + 1 = 2 * (bits / 2 + 1) by omega]
              exact size_double (Nat.succ_pos _)
            rw [mergeBits_odd hodd, List.length_cons, List.length_cons]
            omega
      · by_cases hzero : bits = 0
        · subst hzero
          rw [mergeBits_zero]
          simp
        · have hsize' : Nat.size bits = Nat.size (bits / 2) + 1 := size_half (by omega)
          have hnext : Nat.size (bits + 1) = Nat.size (bits / 2) + 1 := by
            rw [show bits + 1 = 2 * (bits / 2) + 1 by omega, size_double_succ]
          have hhalf : 0 < Nat.size (bits / 2) := Nat.size_pos.mpr (by omega)
          match runs, hsize with
          | [], hsize => simp at hsize; omega
          | [run], hsize => simp at hsize; omega
          | newer :: older :: runs, hsize =>
              rw [mergeBits_even hodd hzero]
              simp only [List.length_cons] at hsize ⊢
              omega

/-- The invariant of the counter is kept by a round, also when the counter
wraps to zero. -/
theorem size_le_round (w : Nat) (hsize : Nat.size bits ≤ runs.length) (x : α) (s : π) :
    Nat.size ((bits + 1) % 2 ^ w) ≤ ([x] :: (mergeBits cmp bits runs s).1).length :=
  Nat.le_trans (Nat.size_le_size (Nat.mod_le _ _)) (size_le_mergeBits hsize s).1

theorem length_le_pushAll (w : Nat) (l : List α) (s : π) (hsize : Nat.size bits ≤ runs.length) :
    runs.length ≤ (pushAll cmp w bits runs l s).1.length := by
  induction l generalizing bits runs s with
  | nil => exact Nat.le_refl _
  | cons x l ih =>
      rw [pushAll]
      exact Nat.le_trans (size_le_mergeBits hsize s).2 (ih _ (size_le_round w hsize x s))

theorem two_le_pushAll (cmp : π → α → α → Int × π) {w : Nat} (hw : 0 < w) (x y : α)
    (l : List α) (s : π) :
    2 ≤ (pushAll cmp w 0 [] (x :: y :: l) s).1.length := by
  have hone : (0 + 1) % 2 ^ w = 1 := Nat.mod_eq_of_lt (Nat.one_lt_two_pow (by omega))
  have hodd : mergeBits cmp 1 [[x]] s = ([[x]], s) := by
    rw [mergeBits_odd rfl, mergeBits_zero]
  rw [pushAll, mergeBits_zero, hone, pushAll, hodd]
  have hsize : Nat.size ((1 + 1) % 2 ^ w) ≤ [[y], [x]].length :=
    Nat.le_trans (Nat.size_le_size (Nat.mod_le _ _)) (show Nat.size 2 ≤ 2 by decide)
  exact length_le_pushAll w l s hsize

end Counter

end Merging
end Brlib
