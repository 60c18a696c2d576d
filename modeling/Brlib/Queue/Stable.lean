import Mathlib.Data.List.Basic
import Mathlib.Order.Defs.LinearOrder
import Mathlib.Tactic

/-!
# Stable priority queues as lists

A queue is a list in ascending order of a key.  A new element goes behind all
elements of at most its own key, so elements of equal key leave in the order in
which they arrived.  The leaders of a queue are the first elements of each key.

An insertion and a removal are described by a split of the queue at the place
where it changes, and so are the leaders before and after: `leaders_append` is
the only induction.
-/

namespace Brlib
namespace Queue

variable {ν κ : Type*} [LinearOrder κ] (key : ν → κ)

/-- The keys never decrease. -/
def Ascending (l : List ν) : Prop :=
  l.Pairwise fun x y => key x ≤ key y

/-- Put `x` behind the elements of at most its key. -/
def enqueue (x : ν) (l : List ν) : List ν :=
  l.takeWhile (fun y => key y ≤ key x) ++ x :: l.dropWhile (fun y => key y ≤ key x)

/-- The first element of each key. -/
def leaders : List ν → List ν
  | [] => []
  | x :: l => x :: (leaders l).filter fun y => key y ≠ key x

/-- In the order of the keys and, for equal keys, of the stamps. -/
def Fifo (stamp : ν → ℕ) (l : List ν) : Prop :=
  l.Pairwise fun x y => key x < key y ∨ key x = key y ∧ stamp x < stamp y

variable {key} {x y : ν} {l A B : List ν}

@[simp] theorem leaders_nil : leaders key ([] : List ν) = [] := rfl

theorem leaders_cons :
    leaders key (x :: l) = x :: (leaders key l).filter fun y => key y ≠ key x := rfl

section Enqueue

theorem Ascending.congr {key' : ν → κ} (hl : Ascending key l) (hkey : ∀ x ∈ l, key' x = key x) :
    Ascending key' l :=
  hl.imp_of_mem fun hx hy h => by rwa [hkey _ hx, hkey _ hy]

theorem Ascending.exists_split (hl : Ascending key l) (x : ν) :
    ∃ A B, l = A ++ B ∧ (∀ a ∈ A, key a ≤ key x) ∧ ∀ b ∈ B, key x < key b := by
  induction l with
  | nil => exact ⟨[], [], rfl, by simp, by simp⟩
  | cons y l ih =>
      obtain ⟨hy, hl'⟩ := List.pairwise_cons.mp hl
      by_cases hle : key y ≤ key x
      · obtain ⟨A, B, rfl, hA, hB⟩ := ih hl'
        exact ⟨y :: A, B, rfl, List.forall_mem_cons.mpr ⟨hle, hA⟩, hB⟩
      · have hlt : key x < key y := not_le.mp hle
        refine ⟨[], y :: l, rfl, by simp, List.forall_mem_cons.mpr ⟨hlt, ?_⟩⟩
        exact fun b hb => hlt.trans_le (hy b hb)

theorem enqueue_split (hA : ∀ a ∈ A, key a ≤ key x) (hB : ∀ b ∈ B, key x < key b) :
    enqueue key x (A ++ B) = A ++ x :: B := by
  have htake : (A ++ B).takeWhile (fun y => key y ≤ key x) = A := by
    rw [List.takeWhile_append_of_pos (by simpa using hA)]
    cases B with
    | nil => simp
    | cons b B => simp [not_le.mpr (hB b List.mem_cons_self)]
  have hdrop : (A ++ B).dropWhile (fun y => key y ≤ key x) = B := by
    rw [List.dropWhile_append_of_pos (by simpa using hA)]
    cases B with
    | nil => simp
    | cons b B => simp [not_le.mpr (hB b List.mem_cons_self)]
  rw [enqueue, htake, hdrop]

theorem enqueue_perm (x : ν) (l : List ν) : (enqueue key x l).Perm (x :: l) := by
  have hsplit : l.takeWhile (fun y => key y ≤ key x) ++
      l.dropWhile (fun y => key y ≤ key x) = l := List.takeWhile_append_dropWhile
  calc enqueue key x l
      |>.Perm (x :: (l.takeWhile (fun y => key y ≤ key x) ++
        l.dropWhile (fun y => key y ≤ key x))) := List.perm_middle
    _ = x :: l := by rw [hsplit]

theorem Ascending.enqueue (hl : Ascending key l) (x : ν) : Ascending key (enqueue key x l) := by
  obtain ⟨A, B, rfl, hA, hB⟩ := hl.exists_split x
  rw [enqueue_split hA hB]
  obtain ⟨hA', hB', hAB⟩ := List.pairwise_append.mp hl
  refine List.pairwise_append.mpr ⟨hA', List.pairwise_cons.mpr ⟨fun b hb => (hB b hb).le, hB'⟩, ?_⟩
  intro a ha b hb
  rcases List.mem_cons.mp hb with rfl | hb
  · exact hA a ha
  · exact hAB a ha b hb

/-- An element that arrives last goes behind its equals. -/
theorem Fifo.enqueue {stamp stamp' : ν → ℕ} (hl : Fifo key stamp l)
    (hold : ∀ y ∈ l, stamp' y = stamp y) (hnew : ∀ y ∈ l, stamp y < stamp' x) :
    Fifo key stamp' (enqueue key x l) := by
  have hasc : Ascending key l := hl.imp fun h => h.elim le_of_lt fun h => h.1.le
  have hl' : Fifo key stamp' l := hl.imp_of_mem fun hy hz h => by
    rw [hold _ hy, hold _ hz]
    exact h
  obtain ⟨A, B, rfl, hA, hB⟩ := hasc.exists_split x
  rw [enqueue_split hA hB]
  obtain ⟨hA', hB', hAB⟩ := List.pairwise_append.mp hl'
  refine List.pairwise_append.mpr
    ⟨hA', List.pairwise_cons.mpr ⟨fun b hb => .inl (hB b hb), hB'⟩, ?_⟩
  intro a ha b hb
  rcases List.mem_cons.mp hb with rfl | hb
  · have hstamp : stamp' a < stamp' b := by
      rw [hold a (List.mem_append_left B ha)]
      exact hnew a (List.mem_append_left B ha)
    rcases (hA a ha).lt_or_eq with hlt | heq
    · exact .inl hlt
    · exact .inr ⟨heq, hstamp⟩
  · exact hAB a ha b hb

end Enqueue

section Leaders

theorem leaders_sublist (l : List ν) : (leaders key l).Sublist l := by
  induction l with
  | nil => exact List.Sublist.refl _
  | cons x l ih =>
      rw [leaders_cons]
      exact (List.filter_sublist.trans ih).cons_cons x

theorem leaders_subset (l : List ν) : leaders key l ⊆ l :=
  (leaders_sublist l).subset

theorem leaders_ne_nil (hl : l ≠ []) : leaders key l ≠ [] := by
  cases l with
  | nil => exact absurd rfl hl
  | cons x l => exact List.cons_ne_nil _ _

theorem exists_leader (hx : x ∈ l) : ∃ y ∈ leaders key l, key y = key x := by
  induction l with
  | nil => exact absurd hx List.not_mem_nil
  | cons z l ih =>
      rw [leaders_cons]
      by_cases hz : key z = key x
      · exact ⟨z, List.mem_cons_self, hz⟩
      · rcases List.mem_cons.mp hx with rfl | hx
        · exact absurd rfl hz
        · obtain ⟨y, hy, heq⟩ := ih hx
          refine ⟨y, List.mem_cons_of_mem z (List.mem_filter.mpr ⟨hy, ?_⟩), heq⟩
          simpa [heq] using Ne.symm hz

theorem leaders_append (A B : List ν) :
    leaders key (A ++ B) =
      leaders key A ++ (leaders key B).filter fun y => ∀ a ∈ A, key y ≠ key a := by
  induction A with
  | nil => simp
  | cons x A ih =>
      rw [List.cons_append, leaders_cons, ih, leaders_cons, List.filter_append, List.filter_filter]
      congr 2
      apply List.filter_congr
      intro y _
      simp

theorem leaders_congr {key' : ν → κ} (hkey : ∀ x ∈ l, key' x = key x) :
    leaders key' l = leaders key l := by
  induction l with
  | nil => rfl
  | cons x l ih =>
      have hkey' : ∀ y ∈ l, key' y = key y := fun y hy => hkey y (List.mem_cons_of_mem x hy)
      rw [leaders_cons, leaders_cons, ih hkey', hkey x List.mem_cons_self]
      congr 1
      apply List.filter_congr
      intro y hy
      rw [hkey' y (leaders_subset l hy)]

theorem leaders_cons_of_ne (hl : ∀ y ∈ l, key y ≠ key x) :
    leaders key (x :: l) = x :: leaders key l := by
  have hl' : ∀ y ∈ leaders key l, key y ≠ key x := fun y hy => hl y (leaders_subset l hy)
  rw [leaders_cons, List.filter_eq_self.mpr (by simpa using hl')]

/-- An element leads exactly when no element before it has its key. -/
theorem mem_leaders_iff (hx : x ∉ A) :
    x ∈ leaders key (A ++ x :: B) ↔ ∀ a ∈ A, key a ≠ key x := by
  rw [leaders_append, leaders_cons, List.mem_append, List.mem_filter]
  constructor
  · rintro (hmem | ⟨-, hnew⟩)
    · exact absurd (leaders_subset A hmem) hx
    · exact fun a ha heq => (by simpa using hnew : ∀ a ∈ A, key x ≠ key a) a ha heq.symm
  · intro hnew
    exact .inr ⟨List.mem_cons_self, by simpa using fun a ha => Ne.symm (hnew a ha)⟩

theorem leaders_pairwise_ne (l : List ν) :
    (leaders key l).Pairwise fun x y => key x ≠ key y := by
  induction l with
  | nil => exact List.Pairwise.nil
  | cons x l ih =>
      rw [leaders_cons]
      refine List.pairwise_cons.mpr ⟨fun y hy => ?_, ih.filter _⟩
      simpa using Ne.symm (by simpa using (List.mem_filter.mp hy).2)

theorem Ascending.leaders_lt (hl : Ascending key l) :
    (leaders key l).Pairwise fun x y => key x < key y :=
  (leaders_pairwise_ne l).imp₂ (fun _ _ hne hle => lt_of_le_of_ne hle hne)
    (hl.sublist (leaders_sublist l))

theorem leaders_append_of_lt (hAB : ∀ a ∈ A, ∀ b ∈ B, key a < key b) :
    leaders key (A ++ B) = leaders key A ++ leaders key B := by
  have hall : ∀ y ∈ leaders key B, ∀ a ∈ A, key y ≠ key a := fun y hy a ha =>
    (hAB a ha y (leaders_subset B hy)).ne'
  rw [leaders_append, List.filter_eq_self.mpr (by simpa using hall)]

/-- Inserted behind its equals, an element does not lead. -/
theorem leaders_insert_old (hB : ∀ b ∈ B, key x < key b) (hA : ∀ a ∈ A, key a ≤ key x)
    (hold : ∃ a ∈ A, key a = key x) :
    leaders key (A ++ x :: B) = leaders key A ++ leaders key B := by
  obtain ⟨a, ha, heq⟩ := hold
  have hB' : ∀ y ∈ leaders key B, key x < key y := fun y hy => hB y (leaders_subset B hy)
  have hnot : ¬ ∀ a ∈ A, key x ≠ key a := fun h => h a ha heq.symm
  have hrest : ∀ y ∈ leaders key B, ∀ a ∈ A, key y ≠ key a := fun y hy a ha =>
    ((hA a ha).trans_lt (hB' y hy)).ne'
  rw [leaders_append, leaders_cons_of_ne fun b hb => (hB b hb).ne',
    List.filter_cons_of_neg (by simpa using hnot), List.filter_eq_self.mpr (by simpa using hrest)]

/-- Inserted behind smaller keys only, an element leads. -/
theorem leaders_insert_new (hB : ∀ b ∈ B, key x < key b) (hA : ∀ a ∈ A, key a < key x) :
    leaders key (A ++ x :: B) = leaders key A ++ x :: leaders key B := by
  rw [leaders_append_of_lt, leaders_cons_of_ne fun b hb => (hB b hb).ne']
  exact fun a ha => List.forall_mem_cons.mpr ⟨hA a ha, fun b hb => (hA a ha).trans (hB b hb)⟩

theorem leaders_subset_insert (hB : ∀ b ∈ B, key x < key b) (hA : ∀ a ∈ A, key a ≤ key x) :
    leaders key (A ++ B) ⊆ leaders key (A ++ x :: B) := by
  rw [leaders_append_of_lt fun a ha b hb => (hA a ha).trans_lt (hB b hb)]
  by_cases hold : ∃ a ∈ A, key a = key x
  · rw [leaders_insert_old hB hA hold]
    exact List.Subset.refl _
  · rw [leaders_insert_new hB fun a ha => lt_of_le_of_ne (hA a ha) fun heq => hold ⟨a, ha, heq⟩]
    exact List.append_subset.mpr ⟨List.subset_append_left _ _,
      List.Subset.trans (List.subset_cons_self x _) (List.subset_append_right _ _)⟩

theorem last_leader_key_iff {q : ν} {Q : List ν} (hA : Ascending key A)
    (hle : ∀ a ∈ A, key a ≤ key x) (hQ : leaders key A = Q ++ [q]) :
    key q = key x ↔ ∃ a ∈ A, key a = key x := by
  have hq : q ∈ leaders key A := by simp [hQ]
  constructor
  · exact fun heq => ⟨q, leaders_subset A hq, heq⟩
  · rintro ⟨a, ha, heq⟩
    obtain ⟨y, hy, hya⟩ : ∃ y ∈ leaders key A, key y = key a := exists_leader ha
    have hlt := hA.leaders_lt
    rw [hQ] at hy hlt
    rcases List.mem_append.mp hy with hy | hy
    · have hyq : key y < key q := (List.pairwise_append.mp hlt).2.2 y hy q (by simp)
      have hqx : key q ≤ key x := hle q (leaders_subset A hq)
      rw [hya, heq] at hyq
      exact absurd hqx (not_le.mpr hyq)
    · rw [← List.mem_singleton.mp hy, hya, heq]

end Leaders

section Remove

theorem leaders_remove_follower (hold : ∃ a ∈ A, key a = key x) :
    leaders key (A ++ x :: B) = leaders key (A ++ B) := by
  obtain ⟨a, ha, heq⟩ := hold
  rw [leaders_append, leaders_append, leaders_cons,
    List.filter_cons_of_neg (by simpa using ⟨a, ha, heq.symm⟩), List.filter_filter]
  congr 1
  apply List.filter_congr
  intro y _
  have hiff : ((∀ a ∈ A, key y ≠ key a) ∧ key y ≠ key x) ↔ ∀ a ∈ A, key y ≠ key a :=
    ⟨fun h => h.1, fun h => ⟨h, fun hyx => h a ha (hyx.trans heq.symm)⟩⟩
  rw [← Bool.decide_and]
  exact decide_eq_decide.mpr hiff

/-- Behind a leader that leaves, an element of its key takes its place. -/
theorem leaders_remove_promote (hnew : ∀ a ∈ A, key a ≠ key x) (heq : key y = key x) :
    ∃ Q, leaders key (A ++ x :: y :: B) = leaders key A ++ x :: Q ∧
      leaders key (A ++ y :: B) = leaders key A ++ y :: Q := by
  have hx : ∀ a ∈ A, key x ≠ key a := fun a ha => Ne.symm (hnew a ha)
  have hy : ∀ a ∈ A, key y ≠ key a := fun a ha => heq ▸ hx a ha
  refine ⟨((leaders key B).filter fun z => key z ≠ key x).filter
    fun z => ∀ a ∈ A, key z ≠ key a, ?_, ?_⟩
  · rw [leaders_append, leaders_cons, List.filter_cons_of_pos (by simpa using hx), leaders_cons,
      List.filter_cons_of_neg (by simp [heq]), List.filter_filter]
    simp [heq]
  · rw [leaders_append, leaders_cons, List.filter_cons_of_pos (by simpa using hy), heq]

/-- A leader without an element of its key behind it leaves no successor. -/
theorem leaders_remove_alone (hnew : ∀ a ∈ A, key a ≠ key x) (hB : ∀ b ∈ B, key b ≠ key x) :
    ∃ Q, leaders key (A ++ x :: B) = leaders key A ++ x :: Q ∧
      leaders key (A ++ B) = leaders key A ++ Q := by
  have hx : ∀ a ∈ A, key x ≠ key a := fun a ha => Ne.symm (hnew a ha)
  refine ⟨(leaders key B).filter fun z => ∀ a ∈ A, key z ≠ key a, ?_, leaders_append A B⟩
  rw [leaders_append, leaders_cons_of_ne hB, List.filter_cons_of_pos (by simpa using hx)]

theorem leaders_remove_subset : leaders key (A ++ x :: B) ⊆ x :: leaders key (A ++ B) := by
  rw [leaders_append, leaders_append, leaders_cons]
  intro y hy
  simp only [List.mem_append, List.mem_filter, List.mem_cons] at hy ⊢
  tauto

end Remove

end Queue
end Brlib
