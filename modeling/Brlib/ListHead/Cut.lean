import Brlib.ListHead.Spec

/-!
# Cutting a list in two

`list_cut_position` moves the nodes of a list up to and including an entry to
another head, `list_cut_before` the nodes up to but excluding it.  Where they
get to their pointer surgery they perform the same three links.

Their early returns differ.  On an empty list `list_cut_before` initialises the
other head, and `list_cut_position` returns without touching it: the head keeps
whatever it contained, although it is documented as one whose data may be lost.
-/

namespace Brlib
namespace ListHead

open Heap Heap.Mem

variable {α : Type}

section Parts

variable {head entry : α} {l : List α}

theorem exists_before_of_mem (hentry : entry ∈ head :: l) :
    ∃ run rest, l = run ++ rest ∧ entry = firstOr head rest := by
  rcases List.mem_cons.mp hentry with rfl | hmem
  · exact ⟨l, [], by simp, rfl⟩
  · obtain ⟨run, rest, rfl⟩ := List.append_of_mem hmem
    exact ⟨run, entry :: rest, rfl, rfl⟩

theorem exists_through_of_mem (hentry : entry ∈ l) :
    ∃ y k r, l = y :: k ++ r ∧ entry = lastOr y k := by
  obtain ⟨run, r, rfl⟩ := List.append_of_mem hentry
  cases run with
  | nil => exact ⟨entry, [], r, rfl, rfl⟩
  | cons y k => exact ⟨y, k ++ [entry], r, by simp, by simp⟩

end Parts

variable [DecidableEq α]

/-- The nodes up to and including `entry`; none when `entry` is the head. -/
def throughEntry (head entry : α) (l : List α) : List α :=
  if entry = head then [] else l.take (l.idxOf entry + 1)

/-- The nodes after `entry`; all when `entry` is the head. -/
def afterEntry (head entry : α) (l : List α) : List α :=
  if entry = head then l else l.drop (l.idxOf entry + 1)

/-- The nodes before `entry`; all when `entry` is the head. -/
def beforeEntry (head entry : α) (l : List α) : List α :=
  if entry = head then l else l.take (l.idxOf entry)

/-- The nodes from `entry` on; none when `entry` is the head. -/
def fromEntry (head entry : α) (l : List α) : List α :=
  if entry = head then [] else l.drop (l.idxOf entry)

section Split

variable {head entry x : α} {l k r : List α}

theorem idxOf_lastOr (hnodup : (x :: k ++ r).Nodup) :
    (x :: k ++ r).idxOf (lastOr x k) = k.length := by
  induction k generalizing x with
  | nil => simp
  | cons y k ih =>
      have hne : x ≠ lastOr y k := fun heq => by
        have hmem := lastOr_mem y k
        rw [← heq] at hmem
        simp only [List.cons_append, List.nodup_cons, List.mem_cons, List.mem_append,
          not_or] at hnodup hmem
        tauto
      have hrec := ih (x := y) hnodup.of_cons
      rw [List.cons_append] at hrec
      simp [List.idxOf_cons_ne _ hne, hrec]

theorem through_after_eq (hnodup : (head :: (x :: k ++ r)).Nodup) :
    throughEntry head (lastOr x k) (x :: k ++ r) = x :: k ∧
      afterEntry head (lastOr x k) (x :: k ++ r) = r := by
  obtain ⟨hhead, hnodup'⟩ := List.nodup_cons.mp hnodup
  have hne : lastOr x k ≠ head := fun heq =>
    hhead (List.mem_append_left r (heq ▸ lastOr_mem x k))
  have hidx := idxOf_lastOr hnodup'
  constructor
  · rw [throughEntry, if_neg hne, hidx]
    exact List.take_left' (by simp)
  · rw [afterEntry, if_neg hne, hidx]
    exact List.drop_left' (by simp)

theorem before_from_eq (hnodup : (head :: (l ++ r)).Nodup) :
    beforeEntry head (firstOr head r) (l ++ r) = l ∧
      fromEntry head (firstOr head r) (l ++ r) = r := by
  cases r with
  | nil => simp [beforeEntry, fromEntry]
  | cons y r =>
      obtain ⟨hhead, hnodup'⟩ := List.nodup_cons.mp hnodup
      have hne : y ≠ head := fun heq => hhead (by simp [heq])
      have hy : y ∉ l := fun hmem =>
        List.disjoint_of_nodup_append hnodup' hmem List.mem_cons_self
      have hidx : (l ++ y :: r).idxOf y = l.length := by
        simp [List.idxOf_append_of_notMem hy]
      rw [firstOr_cons]
      constructor
      · rw [beforeEntry, if_neg hne, hidx]
        exact List.take_left
      · rw [fromEntry, if_neg hne, hidx]
        exact List.drop_left

end Split

variable {m : Mem α} {head list entry x : α} {l k r : List α}

/-- The memory after the three links of a cut. -/
def cutLinks (m : Mem α) (list head x : α) (k r : List α) : Mem α :=
  ((m.link list x).link (lastOr x k) list).link head (firstOr head r)

/-- The three links of a cut separate the two lists. -/
theorem cutLinks_spec (hring : m.Ring head (x :: k ++ r))
    (hlist : list ∉ head :: (x :: k ++ r)) (hlive : m.live list = true) :
    (cutLinks m list head x k r).Ring list (x :: k) ∧
      (cutLinks m list head x k r).Ring head r ∧
      SameOutside m (cutLinks m list head x k r) (list :: head :: (x :: k ++ r)) := by
  have hnodup : ((x :: k) ++ (head :: r)).Nodup :=
    (@List.perm_middle _ head (x :: k) r).nodup_iff.mpr hring.nodup
  have hdisj : ∀ y ∈ x :: k, y ∉ head :: r :=
    fun y hy hmem => List.disjoint_of_nodup_append hnodup hy hmem
  have hlist' : list ∉ x :: k ∧ list ∉ head :: r := by
    simp only [List.mem_cons, List.mem_append, List.cons_append, not_or] at hlist ⊢
    tauto
  have hlast := lastOr_mem x k
  have hfirst : firstOr head r ∈ head :: r := by simpa [or_comm] using firstOr_mem head r
  have hhead : head ≠ list := fun heq => hlist (by simp [heq])
  have hhead' : head ≠ lastOr x k := fun heq =>
    hdisj _ hlast (by simp [← heq])
  have hnext : firstOr head r ≠ x := fun heq =>
    hdisj x List.mem_cons_self (heq ▸ hfirst)
  have hnext' : firstOr head r ≠ list := fun heq => hlist'.2 (heq ▸ hfirst)
  -- the order in which the links are made does not matter
  have hcomm : cutLinks m list head x k r =
      ((m.link head (firstOr head r)).link list x).link (lastOr x k) list := by
    rw [cutLinks, link_comm (Ne.symm hhead') (Ne.symm hnext'),
      link_comm (Ne.symm hhead) (Ne.symm hnext)]
  have hring' : m.Ring head ([] ++ x :: k ++ r) := hring
  obtain ⟨hrest, hrun⟩ := hring'.detach
  have hmoved : (cutLinks m list head x k r).Ring list (x :: k) := by
    rw [hcomm]
    apply Ring.of_path hrun
    · exact List.nodup_cons.mpr ⟨hlist'.1, hnodup.of_append_left⟩
    · intro y hy
      rcases List.mem_cons.mp hy with rfl | hy
      · exact hlive
      · exact hring.live_mem (List.mem_append_left r hy)
  have hsame : SameOutside (m.link head (firstOr head r)) (cutLinks m list head x k r)
      (list :: x :: k) := by
    rw [hcomm]
    exact ((SameOutside.refl _ _).link (by simp) (by simp)).link
      (List.mem_cons_of_mem list hlast) (by simp)
  constructor
  · exact hmoved
  constructor
  · apply hrest.frame hsame
    intro y hy hmem
    rcases List.mem_cons.mp hmem with rfl | hmem
    · exact hlist'.2 hy
    · exact hdisj y hmem hy
  · have hfirst_all : firstOr head r ∈ list :: head :: (x :: k ++ r) := by
      simp only [List.mem_cons, List.mem_append, List.cons_append] at hfirst ⊢
      tauto
    have hlast_all : lastOr x k ∈ list :: head :: (x :: k ++ r) :=
      List.mem_cons_of_mem _ (List.mem_cons_of_mem _ (List.mem_append_left r hlast))
    exact (((SameOutside.refl m _).link (by simp) (by simp)).link hlast_all
      (by simp)).link (by simp) hfirst_all

theorem _listCutPosition_eq (hring : m.Ring head (x :: k ++ r))
    (hlive : m.live list = true) :
    _listCutPosition (.addr list) (.addr head) (.addr (lastOr x k)) m =
      some (cutLinks m list head x k r) := by
  have hclosed : m.Path head (([x] ++ k) ++ (r ++ [head])) := by
    simpa using hring.closed
  have hnext : m.next (lastOr x k) = .addr (firstOr head r) := by
    simpa using (path_append.mp hclosed).2.next_eq
  have hfirst : m.next head = .addr x := by simpa using hring.next_head
  have hx : m.live x = true := hring.live_mem (by simp)
  have hlast : m.live (lastOr x k) = true :=
    hring.live_mem (List.mem_append_left r (lastOr_mem x k))
  have hn : m.live (firstOr head r) = true := by
    refine hring.live _ ?_
    have hmem := firstOr_mem head r
    simp only [List.mem_cons, List.mem_append, List.not_mem_nil, or_false] at hmem ⊢
    tauto
  simp [_listCutPosition, hring.live_head, hlive, hx, hlast, hn, hnext, hfirst, cutLinks]
  rfl

theorem listCutPosition_head (hring : m.Ring head (x :: l)) :
    listCutPosition (.addr list) (.addr head) (.addr head) m =
      initListHead (.addr list) m := by
  simp [listCutPosition, listIsSingular, listEmpty_eq hring, getNext_addr hring.live_head,
    getPrev_addr hring.live_head]

/-- `list_cut_position` at a node of the list performs the cut: a list with one
node is singular, but then the entry is that node. -/
theorem listCutPosition_node (hring : m.Ring head (x :: l)) (hentry : entry ∈ x :: l) :
    listCutPosition (.addr list) (.addr head) (.addr entry) m =
      _listCutPosition (.addr list) (.addr head) (.addr entry) m := by
  have hne : entry ≠ head := fun heq =>
    (List.nodup_cons.mp hring.nodup).1 (heq ▸ hentry)
  have hnext : m.next head = .addr x := by simpa using hring.next_head
  have hprev : m.prev head = .addr (lastOr x l) := by simpa using hring.prev_head
  have hguard : x = lastOr x l → x = entry := by
    intro hsingular
    cases l with
    | nil => simpa [eq_comm] using hentry
    | cons y l =>
        have hmem := lastOr_mem y l
        rw [lastOr_cons] at hsingular
        rw [← hsingular] at hmem
        exact absurd hmem (List.nodup_cons.mp hring.nodup.of_cons).1
  simp only [listCutPosition, listIsSingular, listEmpty_eq hring,
    getNext_addr hring.live_head, getPrev_addr hring.live_head, hnext, hprev]
  by_cases hsingular : x = lastOr x l
  · obtain rfl := hguard hsingular
    simp [hne]
  · simp [hsingular, hne]

theorem listCutBefore_eq (hring : m.Ring head (x :: k ++ r))
    (hlist : list ∉ head :: (x :: k ++ r)) (hlive : m.live list = true) :
    listCutBefore (.addr list) (.addr head) (.addr (firstOr head r)) m =
      some (cutLinks m list head x k r) := by
  have hclosed : m.Path head (([x] ++ k) ++ (r ++ [head])) := by
    simpa using hring.closed
  have hmem := firstOr_mem head r
  have hprev : m.prev (firstOr head r) = .addr (lastOr x k) := by
    cases r with
    | nil => simpa using (path_append.mp hclosed).2.1.2
    | cons y r => simpa using (path_append.mp hclosed).2.1.2
  have hfirst : m.next head = .addr x := by simpa using hring.next_head
  have hx : m.live x = true := hring.live_mem (by simp)
  have hlast : m.live (lastOr x k) = true :=
    hring.live_mem (List.mem_append_left r (lastOr_mem x k))
  have hn : m.live (firstOr head r) = true := by
    refine hring.live _ ?_
    simp only [List.mem_cons, List.mem_append, List.not_mem_nil, or_false] at hmem ⊢
    tauto
  have hne : firstOr head r ≠ x := by
    intro heq
    rw [heq] at hmem
    have hnodup := (@List.perm_middle _ head (x :: k) r).nodup_iff.mpr hring.nodup
    simp only [List.cons_append, List.nodup_cons, List.mem_append, List.mem_cons,
      List.not_mem_nil, or_false, not_or] at hnodup hmem
    tauto
  simp [listCutBefore, hring.live_head, hlive, hx, hlast, hn, hprev, hfirst, cutLinks,
    Ne.symm hne, hne]
  rfl

theorem listCutBefore_first (hring : m.Ring head l) :
    listCutBefore (.addr list) (.addr head) (.addr (firstOr head l)) m =
      initListHead (.addr list) m := by
  simp [listCutBefore, hring.live_head, hring.next_head]

/-- What `list_cut_position` is for: the list at `list` holds the nodes through
`entry` and the list at `head` the nodes after it. -/
def CutsThrough (m : Mem α) (list head entry : α) (l : List α) : Prop :=
  ∃ m', listCutPosition (.addr list) (.addr head) (.addr entry) m = some m' ∧
    m'.Ring list (throughEntry head entry l) ∧ m'.Ring head (afterEntry head entry l)

/-- What `list_cut_before` is for: the list at `list` holds the nodes before
`entry` and the list at `head` the nodes from it on. -/
def CutsBefore (m : Mem α) (list head entry : α) (l : List α) : Prop :=
  ∃ m', listCutBefore (.addr list) (.addr head) (.addr entry) m = some m' ∧
    m'.Ring list (beforeEntry head entry l) ∧ m'.Ring head (fromEntry head entry l)

/-- `list_cut_before` at `entry` and `list_cut_position` at `entry->prev` leave
the same two lists. -/
def CutsAgree (m : Mem α) (list head entry : α) : Prop :=
  ∃ m₁ m₂ a b, listCutBefore (.addr list) (.addr head) (.addr entry) m = some m₁ ∧
    (m.getPrev (.addr entry)).bind
      (fun prev => listCutPosition (.addr list) (.addr head) prev m) = some m₂ ∧
    m₁.Ring list a ∧ m₂.Ring list a ∧ m₁.Ring head b ∧ m₂.Ring head b

theorem initListHead_apart (hring : m.Ring head l) (hlist : list ∉ head :: l)
    (hlive : m.live list = true) :
    ∃ m', initListHead (.addr list) m = some m' ∧ m'.Ring list [] ∧ m'.Ring head l := by
  obtain ⟨m', hrun, halone, hsame⟩ := initListHead_spec hlive
  refine ⟨m', hrun, halone, hring.frame hsame fun y hy hmem => ?_⟩
  rw [List.mem_singleton] at hmem
  exact hlist (hmem ▸ hy)

section Conditions

variable (hring : m.Ring head l) (hentry : entry ∈ head :: l) (hlist : list ∉ head :: l)
  (hlive : m.live list = true)

include hring hentry hlist hlive

/-- `list_cut_before` always does what it is for. -/
theorem cutsBefore : CutsBefore m list head entry l := by
  obtain ⟨run, rest, rfl, rfl⟩ := exists_before_of_mem hentry
  unfold CutsBefore
  rw [(before_from_eq hring.nodup).1, (before_from_eq hring.nodup).2]
  cases run with
  | nil =>
      rw [List.nil_append] at hring hlist
      obtain ⟨m', hrun, halone, hring'⟩ := initListHead_apart hring hlist hlive
      exact ⟨m', by rw [listCutBefore_first hring, hrun], halone, hring'⟩
  | cons x k =>
      obtain ⟨hmoved, hrest, -⟩ := cutLinks_spec hring hlist hlive
      exact ⟨_, listCutBefore_eq hring hlist hlive, hmoved, hrest⟩

theorem cutsThrough_iff :
    CutsThrough m list head entry l ↔ (l ≠ [] ∨ m.Ring list []) := by
  cases l with
  | nil =>
      obtain rfl : entry = head := by simpa using hentry
      have hrun : listCutPosition (.addr list) (.addr entry) (.addr entry) m = some m := by
        simp [listCutPosition, listEmpty_eq hring]
      simp [CutsThrough, throughEntry, afterEntry, hrun, hring]
  | cons x l =>
      simp only [ne_eq, List.cons_ne_nil, not_false_eq_true, true_or, iff_true]
      rcases List.mem_cons.mp hentry with rfl | hmem
      · obtain ⟨m', hrun, halone, hring'⟩ := initListHead_apart hring hlist hlive
        refine ⟨m', ?_, ?_, ?_⟩
        · rw [listCutPosition_head hring, hrun]
        · simpa [throughEntry] using halone
        · simpa [afterEntry] using hring'
      · have hnode := @listCutPosition_node _ _ _ _ list _ _ _ hring hmem
        obtain ⟨y, k, r, heq, rfl⟩ := exists_through_of_mem hmem
        rw [heq] at hring hlist ⊢
        obtain ⟨hmoved, hrest, -⟩ := cutLinks_spec hring hlist hlive
        unfold CutsThrough
        rw [(through_after_eq hring.nodup).1, (through_after_eq hring.nodup).2, hnode]
        exact ⟨_, _listCutPosition_eq hring hlive, hmoved, hrest⟩

theorem cutsAgree_iff :
    CutsAgree m list head entry ↔ (l ≠ [] ∨ m.Ring list []) := by
  obtain ⟨m', hinit, halone, hring'⟩ := initListHead_apart hring hlist hlive
  obtain ⟨run, rest, rfl, rfl⟩ := exists_before_of_mem hentry
  have hlive_entry : m.live (firstOr head rest) = true := hring.live _ hentry
  cases run with
  | nil =>
      rw [List.nil_append] at hring hring' ⊢
      have hbefore := @listCutBefore_first _ _ _ _ list _ hring
      have hprev : m.prev (firstOr head rest) = .addr head := by
        cases rest with
        | nil => exact hring.prev_head
        | cons y rest => exact hring.closed.1.2
      cases rest with
      | nil =>
          have hposition : listCutPosition (.addr list) (.addr head) (.addr head) m =
              some m := by
            simp [listCutPosition, listEmpty_eq hring]
          rw [firstOr_nil] at hprev hbefore hlive_entry ⊢
          constructor
          · rintro ⟨m₁, m₂, a, b, hrun₁, hrun₂, ha₁, ha₂, -, -⟩
            rw [hbefore, hinit] at hrun₁
            obtain rfl := Option.some.inj hrun₁
            have hm₂ : m = m₂ := by simpa [hlive_entry, hprev, hposition] using hrun₂
            obtain rfl : a = [] := ha₁.eq_nil_of_next halone.next_head
            exact Or.inr (hm₂ ▸ ha₂)
          · rintro (hne | hself)
            · exact absurd rfl hne
            · exact ⟨m', m, [], [], by simp [hbefore, hinit],
                by simp [hlive_entry, hprev, hposition], halone, hself, hring', hring⟩
      | cons y rest =>
          rw [firstOr_cons] at hprev hbefore hlive_entry ⊢
          simp only [ne_eq, List.cons_ne_nil, not_false_eq_true, true_or, iff_true]
          refine ⟨m', m', [], y :: rest, by rw [hbefore, hinit], ?_, halone, halone,
            hring', hring'⟩
          simp [getPrev_addr hlive_entry, hprev, listCutPosition_head hring, hinit]
  | cons x k =>
      obtain ⟨hmoved, hrest, -⟩ := cutLinks_spec hring hlist hlive
      have hclosed : m.Path head (([x] ++ k) ++ (rest ++ [head])) := by
        simpa using hring.closed
      have hprev : m.prev (firstOr head rest) = .addr (lastOr x k) := by
        cases rest with
        | nil => simpa using (path_append.mp hclosed).2.1.2
        | cons y rest => simpa using (path_append.mp hclosed).2.1.2
      simp only [ne_eq, List.cons_append, List.cons_ne_nil, not_false_eq_true, true_or,
        iff_true]
      refine ⟨_, _, x :: k, rest, listCutBefore_eq hring hlist hlive, ?_, hmoved, hmoved,
        hrest, hrest⟩
      rw [getPrev_addr hlive_entry, hprev, Option.bind_some,
        listCutPosition_node hring (List.mem_append_left rest (lastOr_mem x k)),
        _listCutPosition_eq hring hlive]

/-- Cutting does what it is documented to do, and the two functions agree, if
and only if the list to cut has a node or the other head was an empty list
beforehand. -/
theorem listCut_iff :
    (CutsThrough m list head entry l ∧ CutsBefore m list head entry l ∧
      CutsAgree m list head entry) ↔ (l ≠ [] ∨ m.Ring list []) := by
  rw [cutsThrough_iff hring hentry hlist hlive, cutsAgree_iff hring hentry hlist hlive]
  have hbefore := cutsBefore hring hentry hlist hlive
  tauto

end Conditions

/-- The list at `0` has the node `1`; the other cells point at the list without
being on it. -/
def oneNode : Mem Nat where
  live _ := true
  next x := if x = 0 then .addr 1 else .addr 0
  prev x := if x = 0 then .addr 1 else .addr 0

theorem listCut_iff_oneNode :
    (CutsThrough oneNode 2 0 1 [1] ∧ CutsBefore oneNode 2 0 1 [1] ∧
      CutsAgree oneNode 2 0 1) ↔ ([1] ≠ [] ∨ oneNode.Ring 2 []) :=
  listCut_iff
    ⟨⟨⟨rfl, rfl⟩, ⟨⟨rfl, rfl⟩, trivial⟩⟩, by decide, fun _ _ => rfl⟩
    (by decide) (by decide) rfl

/-- The list at `0` is empty; no other cell has been initialised. -/
def emptyHead : Mem Nat where
  live _ := true
  next x := if x = 0 then .addr 0 else .null
  prev x := if x = 0 then .addr 0 else .null

/-- Cutting the empty list at its head leaves the other head uninitialised. -/
theorem not_cutsThrough_emptyHead :
    emptyHead.Ring 0 [] ∧ emptyHead.live 1 = true ∧ ¬ CutsThrough emptyHead 1 0 0 [] := by
  have hring : emptyHead.Ring 0 [] := Ring.nil_iff.mpr ⟨rfl, rfl, rfl⟩
  refine ⟨hring, rfl, ?_⟩
  rw [cutsThrough_iff hring (by decide) (by decide) rfl]
  rintro (hne | hself)
  · exact hne rfl
  · exact absurd hself.next_head (by decide)

end ListHead
end Brlib
