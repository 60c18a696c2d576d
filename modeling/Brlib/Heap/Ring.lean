import Mathlib.Data.List.Nodup
import Brlib.Heap.Memory

/-!
# Circular doubly linked lists

Two cells are linked when the first one's `next` is the second and the second
one's `prev` is the first.  A path is a chain of linked cells; a ring is a path
that returns to where it started and meets no cell twice.

A store never breaks a link unless it writes the `next` field of its source or
the `prev` field of its target.  So the pointer surgery of a list operation is
described by the links it establishes (`Mem.link`), whatever the order of its
stores, and three facts are enough to follow it:

* `Ring.rotate` — a ring can be read from any of its cells;
* `Ring.detach` — linking the neighbours of a run of cells takes the run out;
* `Ring.splice` — linking both ends of a run into a gap puts the run there.
-/

namespace Brlib
namespace Heap

variable {α : Type*}

/-- The cell a path starting at `a` and going through `l` stops at. -/
def lastOr (a : α) : List α → α
  | [] => a
  | x :: l => lastOr x l

/-- The first cell of `l`, or the cell `b` that comes after `l`. -/
def firstOr (b : α) : List α → α
  | [] => b
  | x :: _ => x

section Ends

variable (a b x : α) (l k : List α)

@[simp] theorem lastOr_nil : lastOr a [] = a := rfl

@[simp] theorem lastOr_cons : lastOr a (x :: l) = lastOr x l := rfl

@[simp] theorem firstOr_nil : firstOr b [] = b := rfl

@[simp] theorem firstOr_cons : firstOr b (x :: l) = x := rfl

@[simp] theorem lastOr_append : lastOr a (l ++ k) = lastOr (lastOr a l) k := by
  induction l generalizing a with
  | nil => rfl
  | cons y l ih => simp [ih]

@[simp] theorem firstOr_append : firstOr b (l ++ k) = firstOr (firstOr b k) l := by
  cases l <;> rfl

theorem lastOr_mem : lastOr a l ∈ a :: l := by
  induction l generalizing a with
  | nil => simp
  | cons y l ih => exact List.mem_cons_of_mem a (ih y)

theorem firstOr_mem : firstOr b l ∈ l ++ [b] := by
  cases l <;> simp

end Ends

namespace Mem

/-- `x` and `y` are neighbours: `x->next` is `y` and `y->prev` is `x`. -/
def Link (m : Mem α) (x y : α) : Prop :=
  m.next x = .addr y ∧ m.prev y = .addr x

/-- The two stores that make `x` and `y` neighbours. -/
def link [DecidableEq α] (m : Mem α) (x y : α) : Mem α :=
  (m.putNext x (.addr y)).putPrev y (.addr x)

/-- The cells of `l` follow `a` one after the other, each linked to the next. -/
def Path (m : Mem α) : α → List α → Prop
  | _, [] => True
  | a, x :: l => m.Link a x ∧ Path m x l

/-- A well-formed circular list of live cells: the ring leaves `h`, meets the
cells of `l` in order and returns to `h`. -/
structure Ring (m : Mem α) (h : α) (l : List α) : Prop where
  closed : m.Path h (l ++ [h])
  nodup : (h :: l).Nodup
  live : ∀ x ∈ h :: l, m.live x = true

section Decide

variable [DecidableEq α] (m : Mem α)

instance (x y : α) : Decidable (m.Link x y) :=
  inferInstanceAs (Decidable (_ ∧ _))

instance decidablePath : ∀ (a : α) (l : List α), Decidable (m.Path a l)
  | _, [] => isTrue trivial
  | _, x :: l =>
      have := decidablePath x l
      inferInstanceAs (Decidable (_ ∧ _))

instance (h : α) (l : List α) : Decidable (m.Ring h l) :=
  decidable_of_iff (m.Path h (l ++ [h]) ∧ (h :: l).Nodup ∧ ∀ x ∈ h :: l, m.live x = true)
    ⟨fun ⟨hclosed, hnodup, hlive⟩ => ⟨hclosed, hnodup, hlive⟩,
      fun hring => ⟨hring.closed, hring.nodup, hring.live⟩⟩

end Decide

section Link

variable [DecidableEq α] (m : Mem α) (x y a b : α)

@[simp] theorem link_live : (m.link x y).live = m.live := rfl

@[simp] theorem link_next :
    (m.link x y).next a = if a = x then .addr y else m.next a := by
  simp [link]

@[simp] theorem link_prev :
    (m.link x y).prev a = if a = y then .addr x else m.prev a := by
  simp [link]

theorem link_self : (m.link x y).Link x y := by
  simp [Link]

variable {m x y a b}

/-- A link survives a store to any other source and any other target. -/
theorem Link.link_of_ne (h : m.Link a b) (ha : a ≠ x) (hb : b ≠ y) :
    (m.link x y).Link a b := by
  simpa [Link, ha, hb] using h

theorem link_comm {x' y' : α} (hx : x ≠ x') (hy : y ≠ y') :
    (m.link x y).link x' y' = (m.link x' y').link x y := by
  simp only [link, putNext, putPrev, Function.update_comm hx, Function.update_comm hy]

theorem SameOutside.link {m₀ : Mem α} {xs : List α} (h : SameOutside m₀ m xs)
    (hx : x ∈ xs) (hy : y ∈ xs) : SameOutside m₀ (m.link x y) xs :=
  (h.putNext hx _).putPrev hy _

end Link

section Path

variable {m m' : Mem α} {a b x y : α} {l k xs : List α}

@[simp] theorem path_nil : m.Path a [] := trivial

@[simp] theorem path_cons : m.Path a (x :: l) ↔ m.Link a x ∧ m.Path x l := Iff.rfl

theorem path_append :
    m.Path a (l ++ k) ↔ m.Path a l ∧ m.Path (lastOr a l) k := by
  induction l generalizing a with
  | nil => simp
  | cons x l ih => simp [ih, and_assoc]

theorem Path.next_eq (h : m.Path a (l ++ [b])) : m.next a = .addr (firstOr b l) := by
  cases l with
  | nil => exact h.1.1
  | cons x l => exact h.1.1

theorem Path.prev_eq (h : m.Path a (l ++ [b])) : m.prev b = .addr (lastOr a l) :=
  (path_append.mp h).2.1.2

theorem Path.congr (h : m.Path a l)
    (hagree : ∀ x ∈ a :: l, m'.next x = m.next x ∧ m'.prev x = m.prev x) : m'.Path a l := by
  induction l generalizing a with
  | nil => trivial
  | cons x l ih =>
      obtain ⟨⟨hnext, hprev⟩, hrest⟩ := h
      refine ⟨⟨?_, ?_⟩, ih hrest fun z hz => hagree z (List.mem_cons_of_mem a hz)⟩
      · rw [(hagree a List.mem_cons_self).1, hnext]
      · rw [(hagree x (by simp)).2, hprev]

variable [DecidableEq α]

/-- A path survives a new link that leaves from none of its cells and leads to
none of its cells. -/
theorem Path.link_open (h : m.Path a l) (hx : x ∉ a :: l) (hy : y ∉ l) :
    (m.link x y).Path a l := by
  induction l generalizing a with
  | nil => trivial
  | cons z l ih =>
      simp only [List.mem_cons, not_or] at hx hy
      refine ⟨h.1.link_of_ne (Ne.symm hx.1) (Ne.symm hy.1), ih h.2 ?_ hy.2⟩
      simpa using hx.2

theorem Path.link_closed (h : m.Path a (l ++ [b])) (hx : x ∉ a :: l)
    (hy : y ∉ l ++ [b]) : (m.link x y).Path a (l ++ [b]) := by
  induction l generalizing a with
  | nil =>
      simp only [List.mem_cons, List.not_mem_nil, or_false, List.nil_append] at hx hy
      exact ⟨h.1.link_of_ne (Ne.symm hx) (Ne.symm hy), trivial⟩
  | cons z l ih =>
      simp only [List.mem_cons, not_or, List.cons_append] at hx hy
      refine ⟨h.1.link_of_ne (Ne.symm hx.1) (Ne.symm hy.1), ih h.2 ?_ hy.2⟩
      simpa using hx.2

theorem Path.link_last {c : α} (h : m.Path a l) (hnodup : (a :: l).Nodup)
    (hc : c ∉ l) : (m.link (lastOr a l) c).Path a (l ++ [c]) := by
  induction l generalizing a with
  | nil => exact ⟨link_self m a c, trivial⟩
  | cons x l ih =>
      have hne : a ≠ lastOr x l := fun heq =>
        (List.nodup_cons.mp hnodup).1 (heq ▸ lastOr_mem x l)
      simp only [List.mem_cons, not_or] at hc
      exact ⟨h.1.link_of_ne hne (Ne.symm hc.1), ih h.2 hnodup.of_cons hc.2⟩

end Path

namespace Ring

variable {m m' : Mem α} {h x : α} {l k l₁ l₂ xs : List α}

theorem live_head (hring : m.Ring h l) : m.live h = true :=
  hring.live h List.mem_cons_self

theorem live_mem (hring : m.Ring h l) (hx : x ∈ l) : m.live x = true :=
  hring.live x (List.mem_cons_of_mem h hx)

theorem next_head (hring : m.Ring h l) : m.next h = .addr (firstOr h l) :=
  hring.closed.next_eq

theorem prev_head (hring : m.Ring h l) : m.prev h = .addr (lastOr h l) :=
  hring.closed.prev_eq

theorem live_firstOr (hring : m.Ring h l) : m.live (firstOr h l) = true := by
  refine hring.live _ ?_
  simpa [or_comm] using firstOr_mem h l

theorem live_lastOr (hring : m.Ring h l) : m.live (lastOr h l) = true :=
  hring.live _ (lastOr_mem h l)

theorem nil_iff :
    m.Ring h [] ↔ m.live h = true ∧ m.next h = .addr h ∧ m.prev h = .addr h := by
  constructor
  · intro hring
    exact ⟨hring.live_head, hring.next_head, hring.prev_head⟩
  · rintro ⟨hlive, hnext, hprev⟩
    exact ⟨⟨⟨hnext, hprev⟩, trivial⟩, List.nodup_singleton h, by simpa using hlive⟩

/-- A head that follows itself has no other cell on its ring. -/
theorem eq_nil_of_next (hring : m.Ring h l) (hnext : m.next h = .addr h) : l = [] := by
  cases l with
  | nil => rfl
  | cons x l =>
      have hx : x = h := Ptr.addr.inj (hring.next_head.symm.trans hnext)
      exact absurd (hx ▸ List.mem_cons_self) (List.nodup_cons.mp hring.nodup).1

/-- A ring can be read from any of its cells. -/
theorem rotate (hring : m.Ring h (l ++ x :: k)) : m.Ring x (k ++ h :: l) where
  closed := by
    have hclosed : m.Path h (l ++ ([x] ++ (k ++ [h]))) := by
      simpa using hring.closed
    obtain ⟨hl, hrest⟩ := path_append.mp hclosed
    obtain ⟨⟨hlink, -⟩, hk⟩ := path_append.mp hrest
    have hk' : m.Path x (k ++ [h]) := hk
    obtain ⟨hk, hback, -⟩ := path_append.mp hk'
    have hl' : m.Path h (l ++ [x]) := path_append.mpr ⟨hl, hlink, trivial⟩
    simpa using path_append.mpr ⟨hk, path_cons.mpr ⟨hback, hl'⟩⟩
  nodup := by
    refine (List.Perm.nodup_iff ?_).mp hring.nodup
    exact @List.perm_append_comm _ (h :: l) (x :: k)
  live y hy := hring.live y (by
    simp only [List.mem_cons, List.mem_append] at hy ⊢
    tauto)

theorem congr (hring : m.Ring h l) (hlive : ∀ x, m.live x = true → m'.live x = true)
    (hagree : ∀ x ∈ h :: l, m'.next x = m.next x ∧ m'.prev x = m.prev x) : m'.Ring h l where
  closed := hring.closed.congr fun x hx => hagree x (by
    simp only [List.mem_cons, List.mem_append, List.not_mem_nil, or_false] at hx ⊢
    tauto)
  nodup := hring.nodup
  live x hx := hlive x (hring.live x hx)

/-- A ring is unaffected by stores outside of its cells. -/
theorem frame (hring : m.Ring h l) (hsame : SameOutside m m' xs)
    (hout : ∀ x ∈ h :: l, x ∉ xs) : m'.Ring h l :=
  hring.congr (fun x hx => by rwa [hsame.live])
    fun x hx => ⟨hsame.next x (hout x hx), hsame.prev x (hout x hx)⟩

variable [DecidableEq α]

/-- Linking the neighbours of a run of cells takes the run out of the ring; the
run itself stays a path. -/
theorem detach (hring : m.Ring h (l₁ ++ x :: k ++ l₂)) :
    (m.link (lastOr h l₁) (firstOr h l₂)).Ring h (l₁ ++ l₂) ∧
      (m.link (lastOr h l₁) (firstOr h l₂)).Path x k := by
  -- the run lies between two paths, and is one itself
  have hclosed : m.Path h (l₁ ++ ([x] ++ k ++ (l₂ ++ [h]))) := by
    simpa using hring.closed
  obtain ⟨hl₁, hrest⟩ := path_append.mp hclosed
  obtain ⟨hrun, hl₂⟩ := path_append.mp hrest
  have hnodup : ((h :: l₁) ++ (x :: k ++ l₂)).Nodup := by simpa using hring.nodup
  have hbefore : ∀ y ∈ h :: l₁, y ∉ x :: k ++ l₂ :=
    fun _ hy hmem => List.disjoint_of_nodup_append hnodup hy hmem
  have hafter : ∀ y ∈ x :: k, y ∉ l₂ := fun _ hy hmem =>
    List.disjoint_of_nodup_append hnodup.of_append_right hy hmem
  have hnodup₁ := hnodup.of_append_left
  have hnodup₂ := hnodup.of_append_right.of_append_right
  have hlast := hbefore _ (lastOr_mem h l₁)
  have hfirst := firstOr_mem h l₂
  have hhead := hbefore h List.mem_cons_self
  simp only [List.mem_append, List.mem_cons, List.not_mem_nil, or_false, not_or]
    at hfirst hlast hhead
  -- neither end of the new link is within the run
  have hk : (m.link (lastOr h l₁) (firstOr h l₂)).Path x k := by
    refine hrun.2.link_open (by simp [hlast]) fun hmem => ?_
    rcases hfirst with hmem₂ | heq
    · exact hafter _ (List.mem_cons_of_mem x hmem) hmem₂
    · exact hhead.1.2 (heq ▸ hmem)
  -- the new link closes the gap after the first path
  have hgap : (m.link (lastOr h l₁) (firstOr h l₂)).Path h
      (l₁ ++ [firstOr h l₂]) := by
    refine hl₁.link_last hnodup₁ fun hmem => ?_
    rcases hfirst with hmem₂ | heq
    · exact hbefore _ (List.mem_cons_of_mem h hmem) (List.mem_append_right _ hmem₂)
    · exact (List.nodup_cons.mp hnodup₁).1 (heq ▸ hmem)
  refine ⟨⟨?_, ?_, ?_⟩, hk⟩
  · cases l₂ with
    | nil => simpa using hgap
    | cons y l₂ =>
        have hy : (m.link (lastOr h l₁) y).Path y (l₂ ++ [h]) := by
          refine hl₂.2.link_closed (by simpa using hlast.2) ?_
          simp only [List.mem_append, List.mem_singleton, not_or]
          exact ⟨(List.nodup_cons.mp hnodup₂).1, fun heq => hhead.2 (by simp [heq])⟩
        obtain ⟨hpath, hlink, -⟩ := path_append.mp hgap
        simpa using path_append.mpr ⟨hpath, path_cons.mpr ⟨hlink, hy⟩⟩
  · have hperm : ((h :: l₁) ++ l₂).Sublist ((h :: l₁) ++ (x :: k ++ l₂)) :=
      (List.sublist_append_right (x :: k) l₂).append_left _
    exact hnodup.sublist hperm
  · intro y hy
    refine hring.live y ?_
    simp only [List.mem_cons, List.mem_append] at hy ⊢
    tauto

/-- Linking both ends of a run of cells to a further cell makes them a ring,
whatever the fields of that cell were. -/
theorem of_path (hrun : m.Path x k) (hnodup : (h :: x :: k).Nodup)
    (hlive : ∀ y ∈ h :: x :: k, m.live y = true) :
    ((m.link h x).link (lastOr x k) h).Ring h (x :: k) := by
  obtain ⟨hhead, hnodup'⟩ := List.nodup_cons.mp hnodup
  have hopen : (m.link h x).Path x k :=
    hrun.link_open hhead (List.nodup_cons.mp hnodup').1
  have hlast : h ≠ lastOr x k := fun heq => hhead (heq ▸ lastOr_mem x k)
  refine ⟨path_cons.mpr ⟨?_, hopen.link_last hnodup' ?_⟩, hnodup, hlive⟩
  · exact (link_self m h x).link_of_ne hlast fun heq => hhead (by simp [heq])
  · exact fun hmem => hhead (List.mem_cons_of_mem x hmem)

theorem splice (hring : m.Ring h l) (hrun : m.Path x k) (hnodup : (x :: k).Nodup)
    (hout : ∀ y ∈ x :: k, y ∉ h :: l) (hlive : ∀ y ∈ x :: k, m.live y = true) :
    ((m.link h x).link (lastOr x k) (firstOr h l)).Ring h (x :: k ++ l) := by
  have hhead : h ∉ x :: k := fun hmem => hout h hmem List.mem_cons_self
  have hlast : lastOr x k ∉ h :: l := hout _ (lastOr_mem x k)
  have hfirst : firstOr h l ∉ x :: k := fun hmem =>
    hout _ hmem (by simpa [or_comm] using firstOr_mem h l)
  have hx : x ∉ h :: l := hout x List.mem_cons_self
  -- the run hangs on the head first, and its end is linked next
  have hrun' : (m.link h x).Path x k :=
    hrun.link_open hhead (List.nodup_cons.mp hnodup).1
  have hend : ((m.link h x).link (lastOr x k) (firstOr h l)).Path x
      (k ++ [firstOr h l]) :=
    hrun'.link_last hnodup fun hmem => hfirst (List.mem_cons_of_mem x hmem)
  have hbegin : ((m.link h x).link (lastOr x k) (firstOr h l)).Link h x :=
    (link_self m h x).link_of_ne (fun heq => hlast (heq ▸ List.mem_cons_self))
      (fun heq => hfirst (heq ▸ List.mem_cons_self))
  refine ⟨?_, ?_, ?_⟩
  · cases l with
    | nil => simpa using ⟨hbegin, hend⟩
    | cons y l =>
        have hclosed : m.Path y (l ++ [h]) := hring.closed.2
        have hnodup' := hring.nodup
        simp only [List.nodup_cons, List.mem_cons, not_or] at hnodup' hlast hx
        have hl : ((m.link h x).link (lastOr x k) y).Path y (l ++ [h]) := by
          refine (hclosed.link_closed ?_ ?_).link_closed ?_ ?_
          · simpa using hnodup'.1
          · simp [hx]
          · simpa using hlast.2
          · simpa using ⟨hnodup'.2.1, Ne.symm hnodup'.1.1⟩
        obtain ⟨hk, hlink, -⟩ := path_append.mp hend
        simpa using ⟨hbegin, path_append.mpr ⟨hk, path_cons.mpr ⟨hlink, hl⟩⟩⟩
  · have hdisj : List.Disjoint (x :: k) (h :: l) := fun y hy => hout y hy
    exact (@List.perm_middle _ h (x :: k) l).nodup_iff.mp
      (hnodup.append hring.nodup hdisj)
  · intro y hy
    simp only [List.mem_cons, List.mem_append, List.cons_append] at hy
    simp only [link_live]
    rcases hy with rfl | rfl | hy | hy
    · exact hring.live_head
    · exact hlive _ List.mem_cons_self
    · exact hlive y (List.mem_cons_of_mem x hy)
    · exact hring.live_mem hy

/-- The gap before the head of a ring is the gap after its last cell. -/
theorem splice_tail (hring : m.Ring h l) (hrun : m.Path x k) (hnodup : (x :: k).Nodup)
    (hout : ∀ y ∈ x :: k, y ∉ h :: l) (hlive : ∀ y ∈ x :: k, m.live y = true) :
    ((m.link (lastOr h l) x).link (lastOr x k) h).Ring h (l ++ x :: k) := by
  rcases List.eq_nil_or_concat' l with rfl | ⟨l', p, rfl⟩
  · simpa using hring.splice hrun hnodup hout hlive
  · have hring' : m.Ring p (h :: l') := hring.rotate
    have hout' : ∀ y ∈ x :: k, y ∉ p :: h :: l' := by
      intro y hy hmem
      refine hout y hy ?_
      simp only [List.mem_cons, List.mem_append, List.not_mem_nil, or_false] at hmem ⊢
      tauto
    have hspliced := hring'.splice hrun hnodup hout' hlive
    simpa using hspliced.rotate

theorem insert_head {new : α} (hring : m.Ring h l) (hnew : new ∉ h :: l)
    (hlive : m.live new = true) :
    ((m.link new (firstOr h l)).link h new).Ring h (new :: l) := by
  have hfirst : new ≠ firstOr h l := fun heq =>
    hnew (by simpa [heq, or_comm] using firstOr_mem h l)
  rw [link_comm (fun heq => hnew (by simp [heq])) (Ne.symm hfirst)]
  exact hring.splice path_nil (List.nodup_singleton new) (by simpa using hnew)
    (by simpa using hlive)

theorem insert_tail {new : α} (hring : m.Ring h l) (hnew : new ∉ h :: l)
    (hlive : m.live new = true) :
    ((m.link new h).link (lastOr h l) new).Ring h (l ++ [new]) := by
  have hlast : new ≠ lastOr h l := fun heq => hnew (heq ▸ lastOr_mem h l)
  rw [link_comm hlast (fun heq => hnew (by simp [heq]))]
  exact hring.splice_tail path_nil (List.nodup_singleton new) (by simpa using hnew)
    (by simpa using hlive)

theorem replace {old new : α} (hring : m.Ring old (x :: l)) (hnew : new ∉ old :: x :: l)
    (hlive : m.live new = true) :
    ((m.link new x).link (lastOr x l) new).Ring new (x :: l) := by
  simp only [List.mem_cons, not_or] at hnew
  have hnodup := hring.nodup.of_cons
  have hclosed : m.Path x (l ++ [old]) := hring.closed.2
  have hopen : (m.link new x).Path x l :=
    (path_append.mp hclosed).1.link_open (by simpa using hnew.2)
      (List.nodup_cons.mp hnodup).1
  have hlast : new ≠ lastOr x l := fun heq => by
    have hmem := lastOr_mem x l
    rw [← heq] at hmem
    simp_all
  refine ⟨path_cons.mpr ⟨?_, hopen.link_last hnodup hnew.2.2⟩, ?_, ?_⟩
  · exact (link_self m new x).link_of_ne hlast (Ne.symm hnew.2.1)
  · exact List.nodup_cons.mpr ⟨by simpa using hnew.2, hnodup⟩
  · intro y hy
    rcases List.mem_cons.mp hy with rfl | hy
    · exact hlive
    · exact hring.live_mem hy

end Ring

section Unique

variable {m : Mem α} {a h : α} {l k : List α}

theorem Path.unique (hl : m.Path a (l ++ [h])) (hk : m.Path a (k ++ [h])) (hhl : h ∉ l)
    (hhk : h ∉ k) : l = k := by
  induction l generalizing a k with
  | nil =>
      cases k with
      | nil => rfl
      | cons y k =>
          obtain rfl : h = y := Ptr.addr.inj (hl.1.1.symm.trans hk.1.1)
          exact absurd List.mem_cons_self hhk
  | cons x l ih =>
      cases k with
      | nil =>
          obtain rfl : x = h := Ptr.addr.inj (hl.1.1.symm.trans hk.1.1)
          exact absurd List.mem_cons_self hhl
      | cons y k =>
          obtain rfl : x = y := Ptr.addr.inj (hl.1.1.symm.trans hk.1.1)
          rw [ih hl.2 hk.2 (fun hmem => hhl (List.mem_cons_of_mem x hmem)) fun hmem =>
            hhk (List.mem_cons_of_mem x hmem)]

/-- A memory holds one list at each head. -/
theorem Ring.unique (hl : m.Ring h l) (hk : m.Ring h k) : l = k :=
  hl.closed.unique hk.closed (List.nodup_cons.mp hl.nodup).1 (List.nodup_cons.mp hk.nodup).1

end Unique

section Flip

variable {m : Mem α} {a b h : α} {l : List α}

/-- The memory with both fields of every cell exchanged. -/
def flip (m : Mem α) : Mem α :=
  { live := m.live, next := m.prev, prev := m.next }

theorem Path.flip (hpath : m.Path a (l ++ [b])) : m.flip.Path b (l.reverse ++ [a]) := by
  induction l generalizing a with
  | nil => exact ⟨⟨hpath.1.2, hpath.1.1⟩, trivial⟩
  | cons x l ih =>
      rw [List.reverse_cons]
      refine path_append.mpr ⟨ih hpath.2, ?_⟩
      rw [lastOr_append]
      exact ⟨⟨hpath.1.2, hpath.1.1⟩, trivial⟩

theorem Ring.flip (hring : m.Ring h l) : m.flip.Ring h l.reverse where
  closed := hring.closed.flip
  nodup := ((List.reverse_perm l).cons h).nodup_iff.mpr hring.nodup
  live x hx := hring.live x (((List.reverse_perm l).cons h).mem_iff.mp hx)

end Flip

end Mem

end Heap
end Brlib
