import Brlib.Heap.Ring
import Brlib.ListHead.Basic

/-!
# What each list operation does to a ring

One theorem for each function of `list.h`: on the rings it works on, the call
does not fault, the rings it leaves are the expected ones, and every cell
outside of its footprint keeps both fields.  The internal functions are
described by the links they establish.
-/

namespace Brlib
namespace ListHead

open Heap Heap.Mem

variable {α : Type} [DecidableEq α] {m : Mem α} {h e new x : α} {l k l₁ l₂ : List α}

theorem _listAdd_eq {prev next : α} (hnew : m.live new = true)
    (hprev : m.live prev = true) (hnext : m.live next = true) :
    _listAdd (.addr new) (.addr prev) (.addr next) m =
      some ((m.link new next).link prev new) := by
  simp [_listAdd, hnew, hprev, hnext]
  rfl

theorem _listDel_eq {prev next : α} (hprev : m.live prev = true)
    (hnext : m.live next = true) :
    _listDel (.addr prev) (.addr next) m = some (m.link prev next) := by
  simp [_listDel, hprev, hnext]
  rfl

theorem initListHead_spec (hlive : m.live x = true) :
    ∃ m', initListHead (.addr x) m = some m' ∧ m'.Ring x [] ∧ SameOutside m m' [x] := by
  refine ⟨m.link x x, ?_, ?_, ?_⟩
  · simp [initListHead, hlive]
    rfl
  · exact Ring.nil_iff.mpr ⟨hlive, by simp, by simp⟩
  · exact (SameOutside.refl m [x]).link List.mem_cons_self List.mem_cons_self

theorem listEmpty_eq (hring : m.Ring h l) :
    listEmpty (.addr h) m = some (decide (l = [])) := by
  have hnodup := hring.nodup
  cases l with
  | nil => simp [listEmpty, hring.live_head, hring.next_head]
  | cons x l =>
      have hne : x ≠ h := fun heq => by simp [heq] at hnodup
      simp [listEmpty, hring.live_head, hring.next_head, hne]

theorem listAdd_spec (hring : m.Ring h l) (hnew : new ∉ h :: l)
    (hlive : m.live new = true) :
    ∃ m', listAdd (.addr new) (.addr h) m = some m' ∧ m'.Ring h (new :: l) ∧
      SameOutside m m' (new :: h :: l) := by
  refine ⟨(m.link new (firstOr h l)).link h new, ?_, hring.insert_head hnew hlive, ?_⟩
  · simp [listAdd, hring.live_head, hring.next_head,
      _listAdd_eq hlive hring.live_head hring.live_firstOr]
  · have hfirst : firstOr h l ∈ h :: l := by simpa [or_comm] using firstOr_mem h l
    exact ((SameOutside.refl m _).link List.mem_cons_self
      (List.mem_cons_of_mem new hfirst)).link (by simp) List.mem_cons_self

/-- `list_add` faults unless the new cell is live. -/
theorem live_of_listAdd {p : Ptr α} {m' : Mem α} (h : listAdd (.addr new) p m = some m') :
    m.live new = true ∧ m'.live = m.live := by
  simp only [listAdd, _listAdd, Option.bind_eq_bind, Option.bind_eq_some_iff] at h
  obtain ⟨next, -, m₁, h₁, m₂, h₂, m₃, h₃, h₄⟩ := h
  have hlive₁ := live_of_setPrev h₁
  obtain ⟨hnew, hlive₂⟩ := live_of_setNext h₂
  have hlive₃ := live_of_setPrev h₃
  obtain ⟨-, hlive₄⟩ := live_of_setNext h₄
  rw [← hlive₁]
  exact ⟨hnew new rfl, by rw [hlive₄, hlive₃, hlive₂]⟩

theorem listAddTail_spec (hring : m.Ring h l) (hnew : new ∉ h :: l)
    (hlive : m.live new = true) :
    ∃ m', listAddTail (.addr new) (.addr h) m = some m' ∧ m'.Ring h (l ++ [new]) ∧
      SameOutside m m' (new :: h :: l) := by
  refine ⟨(m.link new h).link (lastOr h l) new, ?_, hring.insert_tail hnew hlive, ?_⟩
  · simp [listAddTail, hring.live_head, hring.prev_head,
      _listAdd_eq hlive hring.live_lastOr hring.live_head]
  · exact ((SameOutside.refl m _).link List.mem_cons_self (by simp)).link
      (List.mem_cons_of_mem new (lastOr_mem h l)) List.mem_cons_self

theorem listAddTail_before (hring : m.Ring h (l ++ k)) (hnew : new ∉ h :: (l ++ k))
    (hlive : m.live new = true) :
    ∃ m', listAddTail (.addr new) (.addr (firstOr h k)) m = some m' ∧
      m'.Ring h (l ++ new :: k) ∧ SameOutside m m' (new :: h :: (l ++ k)) := by
  cases k with
  | nil =>
      rw [List.append_nil] at hring hnew
      simpa using listAddTail_spec hring hnew hlive
  | cons x k =>
      have hat : m.Ring x (k ++ h :: l) := hring.rotate
      have hperm : (x :: (k ++ h :: l)).Perm (h :: (l ++ x :: k)) :=
        @List.perm_append_comm _ (x :: k) (h :: l)
      have hnew' : new ∉ x :: (k ++ h :: l) := fun hmem => hnew (hperm.mem_iff.mp hmem)
      obtain ⟨m', hadd, hring', hsame⟩ := listAddTail_spec hat hnew' hlive
      refine ⟨m', hadd, ?_, hsame.mono (hperm.cons new).subset⟩
      have hback : m'.Ring x (k ++ h :: (l ++ [new])) := by simpa using hring'
      simpa using hback.rotate

theorem _listDelEntry_spec (hring : m.Ring h (l₁ ++ e :: l₂)) :
    ∃ m', _listDelEntry (.addr e) m = some m' ∧ m'.Ring h (l₁ ++ l₂) ∧
      SameOutside m m' (h :: l₁ ++ l₂) := by
  have hring' : m.Ring h (l₁ ++ e :: [] ++ l₂) := by simpa using hring
  have hat : m.Ring e (l₂ ++ h :: l₁) := hring.rotate
  have hfirst : firstOr h l₂ ∈ h :: (l₁ ++ l₂) := by
    have := firstOr_mem h l₂
    simp only [List.mem_append, List.mem_cons, List.not_mem_nil, or_false] at this ⊢
    tauto
  have hlast : lastOr h l₁ ∈ h :: (l₁ ++ l₂) := by
    have := lastOr_mem h l₁
    simp only [List.mem_append, List.mem_cons] at this ⊢
    tauto
  refine ⟨m.link (lastOr h l₁) (firstOr h l₂), ?_, hring'.detach.1, ?_⟩
  · have hprev : m.prev e = .addr (lastOr h l₁) := by simpa using hat.prev_head
    have hnext : m.next e = .addr (firstOr h l₂) := by simpa using hat.next_head
    have hlive₁ : m.live (lastOr h l₁) = true := by simpa using hat.live_lastOr
    have hlive₂ : m.live (firstOr h l₂) = true := by simpa using hat.live_firstOr
    simp [_listDelEntry, hat.live_head, hprev, hnext, _listDel_eq hlive₁ hlive₂]
  · exact (SameOutside.refl m _).link hlast hfirst

/-- Alone on its ring, a cell is left as it was. -/
theorem _listDelEntry_alone (hring : m.Ring e []) :
    _listDelEntry (.addr e) m = some m := by
  obtain ⟨hlive, hnext, hprev⟩ := Ring.nil_iff.mp hring
  have hsame : m.link e e = m := by
    simp only [Mem.link, putNext, putPrev, ← hnext, Function.update_eq_self]
    simp only [← hprev, Function.update_eq_self, hnext]
  simp [_listDelEntry, hlive, hnext, hprev, _listDel_eq hlive hlive, hsame]

/-- `list_del` takes a cell out of the ring of `h` and poisons its fields. -/
theorem listDel_spec (hring : m.Ring h (l₁ ++ e :: l₂)) :
    ∃ m', listDel (.addr e) m = some m' ∧ m'.Ring h (l₁ ++ l₂) ∧
      SameOutside m m' (h :: l₁ ++ e :: l₂) ∧
      m'.next e = listPoison1 ∧ m'.prev e = listPoison2 := by
  obtain ⟨m₁, hrun, hring₁, hsame⟩ := _listDelEntry_spec hring
  have hlive : m₁.live e = true := by
    rw [hsame.live]
    exact hring.live_mem (by simp)
  have hout : ∀ y ∈ h :: (l₁ ++ l₂), y ∉ [e] := by
    have hnodup := (@List.perm_middle _ e (h :: l₁) l₂).nodup_iff.mp hring.nodup
    intro y hy hmem
    rw [List.mem_singleton] at hmem
    exact (List.nodup_cons.mp hnodup).1 (hmem ▸ hy)
  have hwritten : SameOutside m₁ ((m₁.putNext e listPoison1).putPrev e listPoison2) [e] :=
    ((SameOutside.refl m₁ _).putNext List.mem_cons_self _).putPrev List.mem_cons_self _
  refine ⟨(m₁.putNext e listPoison1).putPrev e listPoison2, ?_, ?_, ?_, ?_, ?_⟩
  · simp [listDel, hrun, hlive]
  · exact hring₁.frame hwritten hout
  · refine (hsame.mono ?_).trans (hwritten.mono ?_)
    · exact List.append_subset.mpr ⟨by simp, fun y hy => by simp [hy]⟩
    · simp
  · simp
  · simp

theorem listDelInit_spec (hring : m.Ring h (l₁ ++ e :: l₂)) :
    ∃ m', listDelInit (.addr e) m = some m' ∧ m'.Ring h (l₁ ++ l₂) ∧ m'.Ring e [] ∧
      SameOutside m m' (h :: l₁ ++ e :: l₂) := by
  obtain ⟨m₁, hrun, hring₁, hsame⟩ := _listDelEntry_spec hring
  have hlive : m₁.live e = true := by
    rw [hsame.live]
    exact hring.live_mem (by simp)
  have hout : ∀ y ∈ h :: (l₁ ++ l₂), y ∉ [e] := by
    have hnodup := (@List.perm_middle _ e (h :: l₁) l₂).nodup_iff.mp hring.nodup
    intro y hy hmem
    rw [List.mem_singleton] at hmem
    exact (List.nodup_cons.mp hnodup).1 (hmem ▸ hy)
  obtain ⟨m₂, hinit, halone, hsame₂⟩ := initListHead_spec hlive
  refine ⟨m₂, ?_, hring₁.frame hsame₂ hout, halone, ?_⟩
  · simp [listDelInit, hrun, hinit]
  · refine (hsame.mono ?_).trans (hsame₂.mono ?_)
    · exact List.append_subset.mpr ⟨by simp, fun y hy => by simp [hy]⟩
    · simp

/-- `list_del_init` of a cell that is alone on its ring changes nothing that
can be observed. -/
theorem listDelInit_alone (hring : m.Ring e []) :
    ∃ m', listDelInit (.addr e) m = some m' ∧ m'.Ring e [] ∧ SameOutside m m' [e] := by
  obtain ⟨m', hinit, halone, hsame⟩ := initListHead_spec hring.live_head
  exact ⟨m', by simp [listDelInit, _listDelEntry_alone hring, hinit], halone, hsame⟩

theorem listReplace_spec (hring : m.Ring e l) (hnew : new ∉ e :: l)
    (hlive : m.live new = true) :
    ∃ m', listReplace (.addr e) (.addr new) m = some m' ∧ m'.Ring new l ∧
      SameOutside m m' (new :: e :: l) := by
  have hlive_e := hring.live_head
  cases l with
  | nil =>
      -- `old->prev` has just been overwritten when it is read: it is `new`
      obtain ⟨-, hnext, hprev⟩ := Ring.nil_iff.mp hring
      refine ⟨(((m.putNext new (.addr e)).putPrev e (.addr new)).putPrev new
        (.addr new)).putNext new (.addr new), ?_, ?_, ?_⟩
      · simp [listReplace, hlive_e, hlive, hnext]
      · exact Ring.nil_iff.mpr ⟨hlive, by simp, by simp⟩
      · exact ((((SameOutside.refl m _).putNext (by simp) _).putPrev (by simp) _).putPrev
          (by simp) _).putNext (by simp) _
  | cons x l =>
      have hx : m.live x = true := hring.live_mem List.mem_cons_self
      have hnext : m.next e = .addr x := by simpa using hring.next_head
      have hprev : m.prev e = .addr (lastOr x l) := by simpa using hring.prev_head
      have hlast : m.live (lastOr x l) = true := by simpa using hring.live_lastOr
      have hne' : e ≠ x := fun heq => by
        have := hring.nodup
        simp [heq] at this
      refine ⟨(m.link new x).link (lastOr x l) new, ?_, hring.replace hnew hlive, ?_⟩
      · simp [listReplace, hlive_e, hlive, hnext, hprev, hx, hlast, hne']
        rfl
      · have hmem := lastOr_mem x l
        exact ((SameOutside.refl m _).link (by simp) (by simp)).link
          (List.mem_cons_of_mem _ (List.mem_cons_of_mem _ hmem)) (by simp)

theorem listBulkMoveTail_spec (hring : m.Ring h (l₁ ++ x :: k ++ l₂)) :
    ∃ m', listBulkMoveTail (.addr h) (.addr x) (.addr (lastOr x k)) m = some m' ∧
      m'.Ring h (l₁ ++ l₂ ++ x :: k) ∧ SameOutside m m' (h :: l₁ ++ x :: k ++ l₂) := by
  obtain ⟨hring₁, hrun₁⟩ := hring.detach
  have hclosed : m.Path h (l₁ ++ ([x] ++ k ++ (l₂ ++ [h]))) := by
    simpa using hring.closed
  obtain ⟨-, hrest⟩ := path_append.mp hclosed
  obtain ⟨hrun, hl₂⟩ := path_append.mp hrest
  have hlast := lastOr_mem x k
  have hprev_mem := lastOr_mem h l₁
  have hnext_mem : firstOr h l₂ ∈ h :: l₂ := by simpa [or_comm] using firstOr_mem h l₂
  have htail_mem := lastOr_mem h (l₁ ++ l₂)
  have hnodup : ((x :: k) ++ (h :: l₁ ++ l₂)).Nodup := by
    refine (List.Perm.nodup_iff ?_).mp hring.nodup
    simpa using (@List.perm_append_comm _ (h :: l₁) (x :: k)).append_right l₂
  have hout : ∀ y ∈ x :: k, y ∉ h :: (l₁ ++ l₂) :=
    fun y hy hmem => List.disjoint_of_nodup_append hnodup hy hmem
  have hlive : ∀ y ∈ (x :: k) ++ (h :: l₁ ++ l₂), m.live y = true := by
    intro y hy
    refine hring.live y ?_
    simp only [List.mem_append, List.mem_cons] at hy ⊢
    tauto
  -- the cells whose fields are read and written
  have hx : m.live x = true := hlive x (by simp)
  have hy : m.live (lastOr x k) = true := hlive _ (List.mem_append_left _ hlast)
  have hh : m.live h = true := hring.live_head
  have hp : m.live (lastOr h l₁) = true :=
    hlive _ (List.mem_append_right _ (List.mem_append_left _ hprev_mem))
  have hn : m.live (firstOr h l₂) = true := by
    refine hlive _ (List.mem_append_right _ ?_)
    simp only [List.mem_append, List.mem_cons] at hnext_mem ⊢
    tauto
  have hq : m.live (lastOr h (l₁ ++ l₂)) = true :=
    hlive _ (List.mem_append_right _ (by simpa using htail_mem))
  have hnext : m.next (lastOr x k) = .addr (firstOr h l₂) := by
    simpa using hl₂.next_eq
  have hprev : m.prev x = .addr (lastOr h l₁) := hrun.1.2
  have hne : lastOr x k ≠ lastOr h l₁ := fun heq =>
    hout _ hlast (by
      simp only [heq, List.mem_cons, List.mem_append] at hprev_mem ⊢
      tauto)
  -- `head->prev` is read once the run is out of the ring
  have htail : (m.link (lastOr h l₁) (firstOr h l₂)).prev h =
      .addr (lastOr h (l₁ ++ l₂)) := hring₁.prev_head
  refine ⟨((m.link (lastOr h l₁) (firstOr h l₂)).link (lastOr h (l₁ ++ l₂)) x).link
    (lastOr x k) h, ?_, ?_, ?_⟩
  · have hcut : (m.putNext (lastOr h l₁) (.addr (firstOr h l₂))).putPrev (firstOr h l₂)
        (.addr (lastOr h l₁)) = m.link (lastOr h l₁) (firstOr h l₂) := rfl
    simp only [listBulkMoveTail, getNext_addr hy, getPrev_addr hx, hnext, hprev,
      setNext_addr hp, Option.bind_eq_bind, Option.bind_some]
    rw [getPrev_addr (by simpa using hx), getNext_addr (by simpa using hy)]
    simp only [putNext_prev, hprev, putNext_next, hne, if_false, hnext, Option.bind_some]
    rw [setPrev_addr (by simpa using hn), Option.bind_some, hcut,
      getPrev_addr (by simpa using hh), htail, Option.bind_some,
      setNext_addr (by simpa using hq), Option.bind_some,
      getPrev_addr (by simpa using hh), putNext_prev, htail, Option.bind_some,
      setPrev_addr (by simpa using hx), Option.bind_some,
      setNext_addr (by simpa using hy), Option.bind_some,
      setPrev_addr (by simpa using hh)]
    rfl
  · have hspliced := hring₁.splice_tail hrun₁ hnodup.of_append_left hout
      fun y hy => hlive y (List.mem_append_left _ hy)
    simpa using hspliced
  · have hsub : ∀ y, y ∈ h :: (l₁ ++ l₂) ∨ y ∈ x :: k → y ∈ h :: l₁ ++ x :: k ++ l₂ := by
      intro y hy
      simp only [List.mem_append, List.mem_cons] at hy ⊢
      tauto
    refine (((SameOutside.refl m _).link ?_ ?_).link ?_ ?_).link ?_ ?_
    · exact hsub _ (.inl (by
        simp only [List.mem_append, List.mem_cons] at hprev_mem ⊢
        tauto))
    · exact hsub _ (.inl (by
        simp only [List.mem_append, List.mem_cons] at hnext_mem ⊢
        tauto))
    · exact hsub _ (.inl htail_mem)
    · exact hsub _ (.inr List.mem_cons_self)
    · exact hsub _ (.inr hlast)
    · exact hsub _ (.inl List.mem_cons_self)

theorem _listSplice_eq {s prev next : α} (hring : m.Ring s (x :: k))
    (hprev : m.live prev = true) (hnext : m.live next = true) :
    _listSplice (.addr s) (.addr prev) (.addr next) m =
      some ((m.link prev x).link (lastOr x k) next) := by
  have hx : m.live x = true := hring.live_mem List.mem_cons_self
  have hfirst : m.next s = .addr x := by simpa using hring.next_head
  have hlast : m.prev s = .addr (lastOr x k) := by simpa using hring.prev_head
  have hlive : m.live (lastOr x k) = true := by simpa using hring.live_lastOr
  simp [_listSplice, hring.live_head, hfirst, hlast, hx, hprev, hnext, hlive]
  rfl

/-- Between a cell `p` and the one after it, `__list_splice` inserts the list of
`s`; the head `s` itself is left behind as it was. -/
theorem _listSplice_spec {s p : α} {r : List α} (hring : m.Ring s (x :: k))
    (hat : m.Ring p r) (hdisj : ∀ y ∈ x :: k, y ∉ p :: r) :
    ∃ m', _listSplice (.addr s) (.addr p) (.addr (firstOr p r)) m = some m' ∧
      m'.Ring p (x :: k ++ r) ∧ SameOutside m m' (p :: r ++ x :: k) := by
  have hrun : m.Path x k := (path_append.mp hring.closed.2).1
  refine ⟨(m.link p x).link (lastOr x k) (firstOr p r),
    _listSplice_eq hring hat.live_head hat.live_firstOr, ?_, ?_⟩
  · exact hat.splice hrun hring.nodup.of_cons hdisj fun y hy => hring.live_mem hy
  · have hlast := lastOr_mem x k
    have hfirst : firstOr p r ∈ p :: r := by simpa [or_comm] using firstOr_mem p r
    refine ((SameOutside.refl m _).link ?_ ?_).link ?_ ?_
    · simp
    · simp
    · exact List.mem_append_right _ hlast
    · exact List.mem_append_left _ hfirst

/-- The list `1, 2, 3, 4` at `0`, the list `6, 7` at `5`, and all other cells alone. -/
def twoHeads : Mem Nat where
  live _ := true
  next
    | 4 => .addr 0
    | 7 => .addr 5
    | n => .addr (if n < 7 then n + 1 else n)
  prev
    | 0 => .addr 4
    | 5 => .addr 7
    | n => .addr (if n < 8 then n - 1 else n)

theorem twoHeads_ring : twoHeads.Ring 0 [1, 2, 3, 4] := by
  decide

theorem twoHeads_second : twoHeads.Ring 5 [6, 7] := by
  decide

end ListHead
end Brlib
