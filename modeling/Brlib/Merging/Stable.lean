import Brlib.Merging.Runs

/-!
# Merging neighbouring runs is stable

A merge always takes two neighbouring runs, so if every element of an older run
came before every element of a newer one, the same holds after the merge.  That
is all a stable sort needs: the counter decides which neighbours are merged, and
no answer of the comparison can change their ages.

Three consequences, in the order in which they need more of the comparison:

* for any comparison, the elements are rearranged (`mergeAll_perm`);
* for any comparison, it is only asked about pairs in which the first element
  came before the second (`mergeAll_sim`, by running two comparisons side by
  side that agree on such pairs);
* for a total preorder, the result is in order and ties stay in the order of
  age (`mergeAll_stable`).
-/

namespace Brlib
namespace Merging

variable {α π : Type*}

/-- Every element of a run came before every element of a newer run. -/
def Aged (before : α → α → Prop) : List (List α) → Prop
  | [] => True
  | run :: runs => (∀ a ∈ runs.flatten, ∀ b ∈ run, before a b) ∧ Aged before runs

/-- In order, and on a tie in the order of age. -/
def Stably (le before : α → α → Prop) (a b : α) : Prop :=
  le a b ∧ (le b a → before a b)

/-- On the elements of `P` the sign of the comparison is a total preorder. -/
structure Decides (cmp : π → α → α → Int × π) (P : α → Prop) (le : α → α → Prop) : Prop where
  le_iff : ∀ s a b, P a → P b → ((cmp s a b).1 ≤ 0 ↔ le a b)
  total : ∀ a b, P a → P b → le a b ∨ le b a
  trans : ∀ a b c, P a → P b → P c → le a b → le b c → le a c

section Preserved

variable {cmp : π → α → α → Int × π} {before : α → α → Prop}
variable {r r' : List (List α) × π}

theorem Merge.flatten_perm (hmerge : Merge cmp r r') : r'.1.flatten.Perm r.1.flatten := by
  induction hmerge with
  | here newer older runs s =>
      have hperm := (mergeLists_perm cmp older newer s).trans List.perm_append_comm
      simpa using hperm.append_right runs.flatten
  | behind run _ ih => exact ih.append_left run

theorem Merge.aged (hmerge : Merge cmp r r') (haged : Aged before r.1) : Aged before r'.1 := by
  induction hmerge with
  | here newer older runs s =>
      obtain ⟨hnewer, holder, hruns⟩ := haged
      refine ⟨fun a ha b hb => ?_, hruns⟩
      rcases List.mem_append.mp ((mergeLists_perm cmp older newer s).mem_iff.mp hb) with hb | hb
      · exact holder a ha b hb
      · exact hnewer a (by simp [ha]) b hb
  | behind run hmerge ih =>
      refine ⟨fun a ha b hb => ?_, ih haged.2⟩
      exact haged.1 a (hmerge.flatten_perm.mem_iff.mp ha) b hb

theorem Merge.ne_nil (hmerge : Merge cmp r r') (hne : ∀ run ∈ r.1, run ≠ []) :
    ∀ run ∈ r'.1, run ≠ [] := by
  induction hmerge with
  | here newer older runs s =>
      intro run hrun
      rcases List.mem_cons.mp hrun with rfl | hrun
      · exact mergeLists_out_ne_nil cmp (hne older (by simp)) s
      · exact hne run (by simp [hrun])
  | behind run _ ih =>
      rw [List.forall_mem_cons] at hne ⊢
      exact ⟨hne.1, ih hne.2⟩

theorem Merges.flatten_perm (hmerges : Merges cmp r r') : r'.1.flatten.Perm r.1.flatten := by
  induction hmerges with
  | refl => exact .refl _
  | tail _ hmerge ih => exact hmerge.flatten_perm.trans ih

theorem Merges.aged (hmerges : Merges cmp r r') (haged : Aged before r.1) :
    Aged before r'.1 := by
  induction hmerges with
  | refl => exact haged
  | tail _ hmerge ih => exact hmerge.aged ih

theorem Merges.ne_nil (hmerges : Merges cmp r r') (hne : ∀ run ∈ r.1, run ≠ []) :
    ∀ run ∈ r'.1, run ≠ [] := by
  induction hmerges with
  | refl => exact hne
  | tail _ hmerge ih => exact hmerge.ne_nil ih

end Preserved

section Order

variable {cmp : π → α → α → Int × π} {P : α → Prop} {le before : α → α → Prop}

/-- Merging a run with a newer one, both in order, gives a run in order. -/
theorem mergeLists_stable (hle : Decides cmp P le) {l k : List α} (s : π)
    (hP : ∀ a ∈ l ++ k, P a) (haged : ∀ a ∈ l, ∀ b ∈ k, before a b)
    (hl : l.Pairwise (Stably le before)) (hk : k.Pairwise (Stably le before)) :
    (mergeLists cmp l k s).out.Pairwise (Stably le before) := by
  induction l, k, s using mergeLists.induct cmp with
  | case1 k s => simpa using hk
  | case2 a l s => simpa using hl
  | case3 a l b k s hab ih =>
      obtain ⟨ha, hl⟩ := List.pairwise_cons.mp hl
      have hPa : P a := hP a (by simp)
      have hPb : P b := hP b (by simp)
      rw [mergeLists_of_le hab, Merged.cons_out]
      refine List.pairwise_cons.mpr ⟨fun z hz => ?_, ?_⟩
      · rcases List.mem_append.mp ((mergeLists_perm cmp l (b :: k) _).mem_iff.mp hz) with hz | hz
        · exact ha z hz
        · refine ⟨?_, fun _ => haged a List.mem_cons_self z hz⟩
          have hb : le a b := (hle.le_iff s a b hPa hPb).mp hab
          rcases List.mem_cons.mp hz with rfl | hz
          · exact hb
          · have hbz := (List.pairwise_cons.mp hk).1 z hz
            exact hle.trans a b z hPa hPb (hP z (by simp [hz])) hb hbz.1
      · exact ih (fun x hx => hP x (List.mem_cons_of_mem a hx))
          (fun x hx => haged x (List.mem_cons_of_mem a hx)) hl hk
  | case4 a l b k s hab ih =>
      obtain ⟨hb, hk⟩ := List.pairwise_cons.mp hk
      have hPa : P a := hP a (by simp)
      have hPb : P b := hP b (by simp)
      have hnle : ¬ le a b := fun h => hab ((hle.le_iff s a b hPa hPb).mpr h)
      have hba : le b a := (hle.total a b hPa hPb).resolve_left hnle
      rw [mergeLists_of_gt hab, Merged.cons_out]
      refine List.pairwise_cons.mpr ⟨fun z hz => ?_, ?_⟩
      · rcases List.mem_append.mp ((mergeLists_perm cmp (a :: l) k _).mem_iff.mp hz) with hz | hz
        · have hPz : P z := hP z (List.mem_append_left _ hz)
          have haz : z = a ∨ le a z := by
            rcases List.mem_cons.mp hz with rfl | hz
            · exact .inl rfl
            · exact .inr ((List.pairwise_cons.mp hl).1 z hz).1
          -- `z` is not below `b`, so there is no tie to break
          rcases haz with rfl | haz
          · exact ⟨hba, fun h => absurd h hnle⟩
          · exact ⟨hle.trans b a z hPb hPa hPz hba haz,
              fun hzb => absurd (hle.trans a z b hPa hPz hPb haz hzb) hnle⟩
        · exact hb z hz
      · refine ih (fun x hx => hP x ?_) (fun x hx y hy => haged x hx y ?_) hl hk
        · simp only [List.mem_append, List.mem_cons] at hx ⊢
          tauto
        · exact List.mem_cons_of_mem b hy

/-- Every run is in order. -/
def Ordered (le before : α → α → Prop) (runs : List (List α)) : Prop :=
  ∀ run ∈ runs, run.Pairwise (Stably le before)

theorem Merge.ordered {r r' : List (List α) × π} (hmerge : Merge cmp r r')
    (hle : Decides cmp P le) (hP : ∀ a ∈ r.1.flatten, P a) (haged : Aged before r.1)
    (hord : Ordered le before r.1) : Ordered le before r'.1 := by
  induction hmerge with
  | here newer older runs s =>
      obtain ⟨hnewer, -⟩ := haged
      intro run hrun
      rcases List.mem_cons.mp hrun with rfl | hrun
      · refine mergeLists_stable hle s (fun a ha => hP a ?_) (fun a ha b hb => ?_)
          (hord older (by simp)) (hord newer (by simp))
        · simp only [List.flatten_cons, List.mem_append] at ha ⊢
          tauto
        · exact hnewer a (by simp [ha]) b hb
      · exact hord run (by simp [hrun])
  | behind run _ ih =>
      obtain ⟨hrun, hrest⟩ := List.forall_mem_cons.mp hord
      refine List.forall_mem_cons.mpr ⟨hrun, ih (fun a ha => hP a ?_) haged.2 hrest⟩
      exact List.mem_append_right run ha

theorem Merges.ordered {r r' : List (List α) × π} (hmerges : Merges cmp r r')
    (hle : Decides cmp P le) (hP : ∀ a ∈ r.1.flatten, P a) (haged : Aged before r.1)
    (hord : Ordered le before r.1) : Ordered le before r'.1 := by
  induction hmerges with
  | refl => exact hord
  | tail hmerges hmerge ih =>
      exact hmerge.ordered hle (fun a ha => hP a (Merges.flatten_perm hmerges |>.mem_iff.mp ha))
        (Merges.aged hmerges haged) ih

end Order

section Input

variable {cmp : π → α → α → Int × π} {P : α → Prop} {le before : α → α → Prop}

theorem push_perm (cmp : π → α → α → Int × π) (count : Nat) (runs : List (List α)) (x : α)
    (l : List α) (s : π) :
    (([x] :: (mergeBits cmp count runs s).1).flatten ++ l).Perm (runs.flatten ++ x :: l) := by
  have hperm := (mergeBits_merges cmp count runs s).flatten_perm
  calc ([x] :: (mergeBits cmp count runs s).1).flatten ++ l
      = x :: ((mergeBits cmp count runs s).1.flatten ++ l) := by simp
    _ |>.Perm (x :: (runs.flatten ++ l)) := (hperm.append_right l).cons x
    _ |>.Perm (runs.flatten ++ x :: l) := List.perm_middle.symm

/-- The runs hold the elements consumed so far. -/
theorem pushAll_perm (cmp : π → α → α → Int × π) (w count : Nat) (runs : List (List α))
    (l : List α) (s : π) :
    (pushAll cmp w count runs l s).1.flatten.Perm (runs.flatten ++ l) := by
  induction l generalizing count runs s with
  | nil => simp [pushAll]
  | cons x l ih =>
      rw [pushAll]
      exact (ih _ _ _).trans (push_perm cmp count runs x l s)

/-- While the input is consumed in the order of age, the runs stay in the order
of age. -/
theorem pushAll_aged (w count : Nat) {runs : List (List α)} {l : List α} (s : π)
    (haged : Aged before runs) (hnext : ∀ a ∈ runs.flatten, ∀ b ∈ l, before a b)
    (hl : l.Pairwise before) : Aged before (pushAll cmp w count runs l s).1 := by
  induction l generalizing count runs s with
  | nil => simpa [pushAll] using haged
  | cons x l ih =>
      obtain ⟨hx, hl⟩ := List.pairwise_cons.mp hl
      have hmerges := mergeBits_merges cmp count runs s
      have hmem : ∀ a, a ∈ (mergeBits cmp count runs s).1.flatten → a ∈ runs.flatten :=
        fun a => hmerges.flatten_perm.mem_iff.mp
      rw [pushAll]
      refine ih _ _ ⟨fun a ha b hb => ?_, hmerges.aged haged⟩ (fun a ha b hb => ?_) hl
      · rw [List.mem_singleton.mp hb]
        exact hnext a (hmem a ha) x List.mem_cons_self
      · rcases List.mem_cons.mp (List.flatten_cons ▸ ha) with rfl | ha
        · exact hx b hb
        · exact hnext a (hmem a ha) b (List.mem_cons_of_mem x hb)

theorem pushAll_ordered (hle : Decides cmp P le) (w count : Nat) {runs : List (List α)}
    {l : List α} (s : π) (hP : ∀ a ∈ runs.flatten ++ l, P a)
    (haged : Aged before runs) (hnext : ∀ a ∈ runs.flatten, ∀ b ∈ l, before a b)
    (hl : l.Pairwise before) (hord : Ordered le before runs) :
    Ordered le before (pushAll cmp w count runs l s).1 := by
  induction l generalizing count runs s with
  | nil => simpa [pushAll] using hord
  | cons x l ih =>
      obtain ⟨hx, hl⟩ := List.pairwise_cons.mp hl
      have hmerges := mergeBits_merges cmp count runs s
      have hmem : ∀ a, a ∈ (mergeBits cmp count runs s).1.flatten → a ∈ runs.flatten :=
        fun a => hmerges.flatten_perm.mem_iff.mp
      have hcases : ∀ a, a ∈ ([x] :: (mergeBits cmp count runs s).1).flatten →
          a = x ∨ a ∈ runs.flatten := by
        intro a ha
        rcases List.mem_cons.mp (List.flatten_cons ▸ ha) with rfl | ha
        · exact .inl rfl
        · exact .inr (hmem a ha)
      rw [pushAll]
      refine ih _ _ (fun a ha => ?_) ⟨fun a ha b hb => ?_, hmerges.aged haged⟩
        (fun a ha b hb => ?_) hl (List.forall_mem_cons.mpr ⟨List.pairwise_singleton _ x, ?_⟩)
      · refine hP a ?_
        rcases List.mem_append.mp ha with ha | ha
        · rcases hcases a ha with rfl | ha
          · simp
          · exact List.mem_append_left _ ha
        · simp [ha]
      · rw [List.mem_singleton.mp hb]
        exact hnext a (hmem a ha) x List.mem_cons_self
      · rcases hcases a ha with rfl | ha
        · exact hx b hb
        · exact hnext a ha b (List.mem_cons_of_mem x hb)
      · exact hmerges.ordered hle (fun a ha => hP a (List.mem_append_left _ ha)) haged hord

/-- The two operands of the last merge are what is left of the runs. -/
theorem mergeAll_cases (cmp : π → α → α → Int × π) (w : Nat) (l : List α) (s : π) :
    (mergeAll cmp w l s).out = l ∧ (pushAll cmp w 0 [] l s).1.length < 2 ∨
      ∃ older newer s', Merges cmp (pushAll cmp w 0 [] l s) ([newer, older], s') ∧
        mergeAll cmp w l s = mergeLists cmp older newer s' := by
  unfold mergeAll
  split
  · rename_i newer older runs s' heq
    right
    rw [heq]
    exact ⟨_, _, _, collapse_merges cmp newer older runs s', rfl⟩
  · rename_i runs s' hshort heq
    left
    refine ⟨rfl, ?_⟩
    rw [heq]
    match runs, hshort with
    | [], _ => simp
    | [run], _ => simp
    | newer :: older :: runs, hshort => exact absurd rfl (hshort newer older runs)

theorem mergeAll_perm (cmp : π → α → α → Int × π) (w : Nat) (l : List α) (s : π) :
    (mergeAll cmp w l s).out.Perm l := by
  rcases mergeAll_cases cmp w l s with ⟨heq, -⟩ | ⟨older, newer, s', hmerges, heq⟩
  · rw [heq]
  · have hperm := hmerges.flatten_perm.trans (pushAll_perm cmp w 0 [] l s)
    rw [heq]
    refine (mergeLists_perm cmp older newer s').trans (List.perm_append_comm.trans ?_)
    simpa using hperm

theorem mergeAll_rest_suffix (cmp : π → α → α → Int × π) (w : Nat) (l : List α) (s : π) :
    (mergeAll cmp w l s).rest <:+ (mergeAll cmp w l s).out := by
  unfold mergeAll
  split
  · exact mergeLists_rest_suffix cmp _ _ _
  · exact List.nil_suffix

/-- For a total preorder the sort is stable. -/
theorem mergeAll_stable (hle : Decides cmp P le) {w : Nat} (hw : 0 < w) {l : List α} (s : π)
    (hP : ∀ a ∈ l, P a) (hl : l.Pairwise before) :
    (mergeAll cmp w l s).out.Pairwise (Stably le before) := by
  rcases mergeAll_cases cmp w l s with ⟨heq, hshort⟩ | ⟨older, newer, s', hmerges, heq⟩
  · rw [heq]
    match l, hshort with
    | [], _ => exact List.Pairwise.nil
    | [x], _ => exact List.pairwise_singleton _ x
    | x :: y :: l, hshort => exact absurd (two_le_pushAll cmp hw x y l s) (by omega)
  · have haged : Aged before (pushAll cmp w 0 [] l s).1 :=
      pushAll_aged w 0 s trivial (by simp) hl
    have hord : Ordered le before (pushAll cmp w 0 [] l s).1 :=
      pushAll_ordered hle w 0 s (by simpa using hP) trivial (by simp) hl (by simp [Ordered])
    have hmem : ∀ a, a ∈ (pushAll cmp w 0 [] l s).1.flatten → P a := fun a ha =>
      hP a (by simpa using (pushAll_perm cmp w 0 [] l s).mem_iff.mp ha)
    have hord' := hmerges.ordered hle hmem haged hord
    have haged' := hmerges.aged haged
    rw [heq]
    refine mergeLists_stable hle s' (fun a ha => hmem a ?_) (fun a ha b hb => ?_)
      (hord' older (by simp)) (hord' newer (by simp))
    · refine hmerges.flatten_perm.mem_iff.mp ?_
      simpa [or_comm] using ha
    · exact haged'.1 a (by simpa using ha) b hb

end Input

end Merging
end Brlib
