import Brlib.Queue.Stable

/-!
# Histories of a stable priority queue

A history lists the requests made so far, the newest first.  It determines which
elements are on the queue, what their keys are and when each of them was last
queued (`OnQueue`, `keyOf`, `lastQueued`), and, independently of these, the queue
itself as the list that `enqueue` and `List.erase` build (`contents`).

The main result is that the list agrees with the history: it holds the elements
on the queue (`mem_contents_iff`), in the order of the keys and, for equal keys,
in the order in which they were last queued (`contents_fifo`).
-/

namespace Brlib
namespace Queue

/-- What a client may ask of a queue: to give a key to an element, to add or to
delete it, and to put it behind the elements of its key. -/
inductive Request (ν κ : Type*) where
  | init (n : ν) (k : κ)
  | add (n : ν)
  | del (n : ν)
  | requeue (n : ν)
deriving DecidableEq, Repr

variable {ν κ : Type*}

/-- The elements that were added and not deleted since. -/
def OnQueue : List (Request ν κ) → ν → Prop
  | [], _ => False
  | .init _ _ :: hist, n => OnQueue hist n
  | .add m :: hist, n => n = m ∨ OnQueue hist n
  | .del m :: hist, n => n ≠ m ∧ OnQueue hist n
  | .requeue _ :: hist, n => OnQueue hist n

/-- The elements that were given a key. -/
def Initialised (hist : List (Request ν κ)) (n : ν) : Prop :=
  ∃ k, Request.init n k ∈ hist

/-- The requests of a client that initialises an element before it adds it, adds
and initialises only elements that are not on the queue, and deletes and requeues
only elements that are. -/
def Valid : List (Request ν κ) → Prop
  | [] => True
  | .init n _ :: hist => ¬ OnQueue hist n ∧ Valid hist
  | .add n :: hist => (Initialised hist n ∧ ¬ OnQueue hist n) ∧ Valid hist
  | .del n :: hist => OnQueue hist n ∧ Valid hist
  | .requeue n :: hist => OnQueue hist n ∧ Valid hist

variable [DecidableEq ν]

/-- The last key of each element; `key₀` are the keys before the first request. -/
def keyOf (key₀ : ν → κ) : List (Request ν κ) → ν → κ
  | [] => key₀
  | .init n k :: hist => Function.update (keyOf key₀ hist) n k
  | .add _ :: hist => keyOf key₀ hist
  | .del _ :: hist => keyOf key₀ hist
  | .requeue _ :: hist => keyOf key₀ hist

/-- When each element was added or requeued the last time: the number of the
request. -/
def lastQueued : List (Request ν κ) → ν → ℕ
  | [] => fun _ => 0
  | .init _ _ :: hist => lastQueued hist
  | .add n :: hist => Function.update (lastQueued hist) n (hist.length + 1)
  | .del _ :: hist => lastQueued hist
  | .requeue n :: hist => Function.update (lastQueued hist) n (hist.length + 1)

/-- The queue after a history. -/
def contents [LinearOrder κ] (key₀ : ν → κ) : List (Request ν κ) → List ν
  | [] => []
  | .init _ _ :: hist => contents key₀ hist
  | .add n :: hist => enqueue (keyOf key₀ hist) n (contents key₀ hist)
  | .del n :: hist => (contents key₀ hist).erase n
  | .requeue n :: hist => enqueue (keyOf key₀ hist) n ((contents key₀ hist).erase n)

variable {key₀ : ν → κ} {hist : List (Request ν κ)} {op : Request ν κ} {n : ν}

omit [DecidableEq ν] in
theorem Initialised.mono (h : Initialised hist n) : Initialised (op :: hist) n :=
  h.imp fun _ hmem => List.mem_cons_of_mem op hmem

omit [DecidableEq ν] in
theorem Initialised.of_cons (h : Initialised (op :: hist) n) :
    (∃ k, op = .init n k) ∨ Initialised hist n := by
  obtain ⟨k, hmem⟩ := h
  rcases List.mem_cons.mp hmem with heq | hmem
  · exact .inl ⟨k, heq.symm⟩
  · exact .inr ⟨k, hmem⟩

omit [DecidableEq ν] in
theorem Valid.tail (h : Valid (op :: hist)) : Valid hist := by
  cases op <;> exact h.2

theorem lastQueued_le (hist : List (Request ν κ)) (n : ν) : lastQueued hist n ≤ hist.length := by
  induction hist with
  | nil => exact le_refl 0
  | cons op hist ih =>
      cases op with
      | init m k => exact ih.trans (Nat.le_succ _)
      | del m => exact ih.trans (Nat.le_succ _)
      | add m =>
          by_cases hn : n = m
          · subst hn
            simp [lastQueued]
          · simpa [lastQueued, hn] using ih.trans (Nat.le_succ _)
      | requeue m =>
          by_cases hn : n = m
          · subst hn
            simp [lastQueued]
          · simpa [lastQueued, hn] using ih.trans (Nat.le_succ _)

variable [LinearOrder κ]

section Enqueue

variable {key key' : ν → κ} {x y : ν} {l : List ν}

omit [DecidableEq ν] in
theorem mem_enqueue : y ∈ enqueue key x l ↔ y = x ∨ y ∈ l := by
  rw [(enqueue_perm x l).mem_iff, List.mem_cons]

omit [DecidableEq ν] in
theorem enqueue_nodup (hx : x ∉ l) (hl : l.Nodup) : (enqueue key x l).Nodup :=
  (enqueue_perm x l).nodup_iff.mpr (List.nodup_cons.mpr ⟨hx, hl⟩)

omit [DecidableEq ν] in
@[simp] theorem length_enqueue : (enqueue key x l).length = l.length + 1 :=
  (enqueue_perm x l).length_eq

omit [DecidableEq ν] in
theorem Fifo.congr {stamp : ν → ℕ} (hl : Fifo key stamp l) (hkey : ∀ x ∈ l, key' x = key x) :
    Fifo key' stamp l :=
  hl.imp_of_mem fun hx hy h => by rwa [hkey _ hx, hkey _ hy]

end Enqueue

/-- The queue holds every element that was added and not deleted since, once. -/
theorem contents_mem_nodup (key₀ : ν → κ) (hvalid : Valid hist) :
    (∀ n, n ∈ contents key₀ hist ↔ OnQueue hist n) ∧ (contents key₀ hist).Nodup := by
  induction hist with
  | nil => exact ⟨fun n => by simp [contents, OnQueue], List.nodup_nil⟩
  | cons op hist ih =>
      obtain ⟨hmem, hnodup⟩ := ih hvalid.tail
      cases op with
      | init m k => exact ⟨hmem, hnodup⟩
      | add m =>
          have hm : m ∉ contents key₀ hist := fun h => hvalid.1.2 ((hmem m).mp h)
          refine ⟨fun n => ?_, enqueue_nodup hm hnodup⟩
          rw [contents, mem_enqueue, hmem, OnQueue]
      | del m =>
          refine ⟨fun n => ?_, hnodup.erase m⟩
          rw [contents, hnodup.mem_erase_iff, hmem, OnQueue]
      | requeue m =>
          have hm : m ∉ (contents key₀ hist).erase m := hnodup.not_mem_erase
          refine ⟨fun n => ?_, enqueue_nodup hm (hnodup.erase m)⟩
          rw [contents, mem_enqueue, hnodup.mem_erase_iff, hmem, OnQueue]
          constructor
          · rintro (rfl | ⟨-, h⟩)
            · exact hvalid.1
            · exact h
          · intro h
            by_cases hn : n = m
            · exact .inl hn
            · exact .inr ⟨hn, h⟩

theorem mem_contents_iff (hvalid : Valid hist) : n ∈ contents key₀ hist ↔ OnQueue hist n :=
  (contents_mem_nodup key₀ hvalid).1 n

theorem contents_nodup (hvalid : Valid hist) : (contents key₀ hist).Nodup :=
  (contents_mem_nodup key₀ hvalid).2

theorem length_contents_le : (contents key₀ hist).length ≤ hist.length := by
  induction hist with
  | nil => exact le_refl 0
  | cons op hist ih =>
      cases op with
      | init m k => exact ih.trans (Nat.le_succ _)
      | add m => simpa [contents] using ih
      | del m =>
          have herase := @List.length_erase_le _ _ m (contents key₀ hist)
          simp only [contents, List.length_cons]
          omega
      | requeue m =>
          have herase := @List.length_erase_le _ _ m (contents key₀ hist)
          simp only [contents, length_enqueue, List.length_cons]
          omega

theorem contents_fifo (hvalid : Valid hist) :
    Fifo (keyOf key₀ hist) (lastQueued hist) (contents key₀ hist) := by
  induction hist with
  | nil => exact List.Pairwise.nil
  | cons op hist ih =>
      have hfifo := ih hvalid.tail
      cases op with
      | init m k =>
          refine hfifo.congr fun x hx => ?_
          have hxm : x ≠ m := fun heq =>
            hvalid.1 ((mem_contents_iff hvalid.tail).mp (heq ▸ hx))
          simp [keyOf, hxm]
      | add m =>
          refine Fifo.enqueue hfifo (fun x hx => ?_) fun x _ => ?_
          · have hxm : x ≠ m := fun heq =>
              hvalid.1.2 ((mem_contents_iff hvalid.tail).mp (heq ▸ hx))
            simp [lastQueued, hxm]
          · have hle := lastQueued_le hist x
            simp only [lastQueued, Function.update_self]
            omega
      | del m => exact hfifo.sublist List.erase_sublist
      | requeue m =>
          have hnodup : (contents key₀ hist).Nodup := contents_nodup hvalid.tail
          refine Fifo.enqueue (hfifo.sublist List.erase_sublist) (fun x hx => ?_) fun x _ => ?_
          · have hxm : x ≠ m := (hnodup.mem_erase_iff.mp hx).1
            simp [lastQueued, hxm]
          · have hle := lastQueued_le hist x
            simp only [lastQueued, Function.update_self]
            omega

end Queue
end Brlib
