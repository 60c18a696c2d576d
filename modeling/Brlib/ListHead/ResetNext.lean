import Brlib.Heap.Restart
import Brlib.ListHead.Editing

/-!
# Loops that are set right with `list_safe_reset_next`

The cursor `n` of a removal-safe loop stands on the next element while the body runs.  A body
may edit the list as long as that element stays the next one, and it may change what comes next
if it calls `list_safe_reset_next` afterwards.  At the end it may delete the element that it is
called for.  Then the loop does to the list what the loop over the sequence does
(`listSafeResetNext_follows`): it visits what comes next when the call is over.
-/

namespace Brlib
namespace ListHead

open Heap Heap.Mem

variable {α ε σ τ : Type} [DecidableEq α]

section Macros

variable (member : ε ≃ α) (mem : σ → Mem α)

omit [DecidableEq α] in
/-- `list_safe_reset_next`, the new value of `n` -/
def listSafeResetNext (pos : Ptr ε) (s : σ) : Option (Ptr ε) :=
  listNextEntry member mem pos s

variable (body : Ptr ε → Ptr ε → σ → Option (Ptr ε × σ))

/-- `list_for_each_entry_safe`, with a body that may set `n` -/
def listForEachEntrySafeSet (fuel : Nat) (head : Ptr α) (s : σ) : Option σ := do
  let first ← (mem s).getNext head
  let pos := listEntry member first
  let n ← listNextEntry member mem pos s
  lookaheadSet (listEntryIsHead member head) (listNextEntry member mem) body fuel pos n s

/-- `list_for_each_entry_safe_continue` -/
def listForEachEntrySafeContinueSet (fuel : Nat) (pos : Ptr ε) (head : Ptr α) (s : σ) :
    Option σ := do
  let pos ← listNextEntry member mem pos s
  let n ← listNextEntry member mem pos s
  lookaheadSet (listEntryIsHead member head) (listNextEntry member mem) body fuel pos n s

/-- `list_for_each_entry_safe_from` -/
def listForEachEntrySafeFromSet (fuel : Nat) (pos : Ptr ε) (head : Ptr α) (s : σ) :
    Option σ := do
  let n ← listNextEntry member mem pos s
  lookaheadSet (listEntryIsHead member head) (listNextEntry member mem) body fuel pos n s

end Macros

/-- How a call of a body ends. -/
inductive Finish where
  | leave
  /-- `list_safe_reset_next` -/
  | resetNext
  /-- `list_del` of the element. -/
  | del
  /-- `list_safe_reset_next`, and then `list_del` of the element. -/
  | resetNextDel

namespace Finish

/-- The new value of `n`, and what becomes of the list. -/
def exec (member : ε ≃ α) (x : α) (pos n : Ptr ε) : Finish → Mem α → Option (Ptr ε × Mem α)
  | leave, m => some (n, m)
  | resetNext, m => (listSafeResetNext member id pos m).map fun n => (n, m)
  | del, m => (listDel (.addr x) m).map (Prod.mk n)
  | resetNextDel, m => do
      let n ← listSafeResetNext member id pos m
      let m ← listDel (.addr x) m
      some (n, m)

/-- What is done, with the element or without it. -/
def done (x : α) (A : List α) : Finish → List α
  | leave | resetNext => A ++ [x]
  | del | resetNextDel => A

/-- Is `n` set anew? -/
def resets : Finish → Bool
  | leave | del => false
  | resetNext | resetNextDel => true

end Finish

/-- The edits that a body chooses, how it ends, and what it carries on. -/
abbrev Reviser (τ α : Type) : Type := α → τ → List (Edit α) × Finish × τ

namespace Reviser

variable (reviser : Reviser τ α)

/-- The body of a removal-safe loop over the list of `h`. -/
def body (member : ε ≃ α) (h : α) (pos n : Ptr ε) (s : Mem α × τ) :
    Option (Ptr ε × Mem α × τ) :=
  match memberPtr member pos with
  | .addr x => do
      let m ← execEdits h x (reviser x s.2).1 s.1
      let (n, m) ← (reviser x s.2).2.1.exec member x pos n m
      some (n, m, (reviser x s.2).2.2)
  | _ => none

/-- What one call does to a sequence, of which a part is done. -/
def step (x : α) (t : τ) (A R : List α) : τ × List α × List α :=
  ((reviser x t).2.2, (reviser x t).2.1.done x (effects (reviser x t).1 (A, R)).1,
    (effects (reviser x t).1 (A, R)).2)

/-- The edits are legal, and `n` is set anew if what comes next is not what it was. -/
def Legal (live : α → Bool) (h x : α) (t : τ) (A R : List α) : Prop :=
  LegalEdits live h x (reviser x t).1 (A, R) ∧
    ((reviser x t).2.1.resets = false →
      firstOr h (effects (reviser x t).1 (A, R)).2 = firstOr h R)

end Reviser

variable {m : Mem α} {h x : α} {A R : List α} {t : τ} {fuel : ℕ} {reviser : Reviser τ α}

theorem Finish.exec_spec {finish : Finish} {next : α} (member : ε ≃ α)
    (hring : m.Ring h (A ++ x :: R)) (hnext : finish.resets = false → firstOr h R = next) :
    ∃ m', finish.exec member x (.addr (member.symm x)) (.addr (member.symm next)) m =
        some (.addr (member.symm (firstOr h R)), m') ∧ m'.live = m.live ∧
      m'.Ring h (finish.done x A ++ R) := by
  cases finish with
  | leave =>
      have hkept : firstOr h R = next := hnext rfl
      exact ⟨m, by simp [exec, hkept], rfl, by simpa [done] using hring⟩
  | resetNext =>
      have hget := getNext_mem hring
      refine ⟨m, ?_, rfl, by simpa [done] using hring⟩
      simp [exec, listSafeResetNext, listNextEntry, memberPtr, listEntry, hget]
  | del =>
      have hkept : firstOr h R = next := hnext rfl
      obtain ⟨m', hdel, hring', hsame, -⟩ := listDel_spec hring
      exact ⟨m', by simp [exec, hdel, hkept], hsame.live, hring'⟩
  | resetNextDel =>
      have hget := getNext_mem hring
      obtain ⟨m', hdel, hring', hsame, -⟩ := listDel_spec hring
      refine ⟨m', ?_, hsame.live, hring'⟩
      simp [exec, listSafeResetNext, listNextEntry, memberPtr, listEntry, hget, hdel]

theorem Reviser.body_spec (member : ε ≃ α) (hring : m.Ring h (A ++ x :: R))
    (hlegal : reviser.Legal m.live h x t A R) :
    ∃ m', reviser.body member h (.addr (member.symm x)) (.addr (member.symm (firstOr h R)))
        (m, t) = some (.addr (member.symm (firstOr h (reviser.step x t A R).2.2)), m',
          (reviser.step x t A R).1) ∧ m'.live = m.live ∧
      m'.Ring h ((reviser.step x t A R).2.1 ++ (reviser.step x t A R).2.2) := by
  obtain ⟨hedits, hnext⟩ := hlegal
  have hedits' : LegalEdits m.live h x ((reviser x t).1.map Way.forwards.turn) (A, R) := by
    rwa [Way.turn_forwards, List.map_id]
  obtain ⟨m₁, hrun₁, hlive₁, hring₁⟩ := @execEdits_spec _ _ m h x A R .forwards _ hring hedits'
  rw [Way.turn_forwards, List.map_id] at hring₁
  have hedited : m₁.Ring h ((effects (reviser x t).1 (A, R)).1 ++
      x :: (effects (reviser x t).1 (A, R)).2) := hring₁
  obtain ⟨m₂, hrun₂, hlive₂, hring₂⟩ := Finish.exec_spec member hedited hnext
  refine ⟨m₂, ?_, hlive₂.trans hlive₁, hring₂⟩
  simp [Reviser.body, memberPtr, hrun₁, hrun₂, Reviser.step]

/-- From a position in a ring on, with both cursors. -/
theorem lookaheadSet_revises (member : ε ≃ α) {n : Ptr ε} (hring : m.Ring h (A ++ R))
    (hn : R ≠ [] → n = .addr (member.symm (firstOr h R.tail)))
    (hlegal : LegalSift reviser.step (reviser.Legal m.live h) fuel t A R) :
    Follows .forwards h (lookaheadSet (listEntryIsHead member (.addr h))
        (listNextEntry member Prod.fst) (reviser.body member h) fuel
        (.addr (member.symm (firstOr h R))) n (m, t))
      (sift reviser.step fuel t A R) := by
  have hloop := @lookaheadSet_sift _ _ _ _ (listEntryIsHead member (.addr h))
    (listNextEntry member (Prod.fst : Mem α × τ → Mem α)) (fun x => Ptr.addr (member.symm x))
    (.addr (member.symm h)) fuel A R (m, t) n (reviser.body member h) reviser.step
    (reviser.Legal m.live h)
    (fun t A R s => s.1.Ring h (A ++ R) ∧ s.1.live = m.live ∧ s.2 = t) t
    (by simp [listEntryIsHead, memberPtr]) ?_ ?_ ?_ ⟨hring, rfl, rfl⟩
    (fun hne => by rw [cursor_entry, hn hne]) hlegal
  · rw [cursor_entry] at hloop
    refine ⟨hloop.1, fun t' l hsift => ?_⟩
    obtain ⟨⟨m', t'⟩, hrun, hring', -, rfl⟩ := hloop.2 t' l hsift
    rw [List.append_nil] at hring'
    exact ⟨m', hrun, hring'⟩
  · rintro t A x R s ⟨hring, -, -⟩
    simpa [listEntryIsHead, memberPtr] using head_ne_mem hring
  · rintro t A R s ⟨hring, -, -⟩
    obtain ⟨z, hz, hz_eq⟩ := getNext_cursor hring
    refine ⟨.addr (member.symm z), ?_, fun hne => by rw [cursor_entry, hz_eq hne]⟩
    rw [cursor_entry]
    simp [listNextEntry, memberPtr, listEntry, hz]
  · rintro t A x R ⟨m₁, t⟩ ⟨hring₁, hlive₁, rfl⟩ hx
    rw [← hlive₁] at hx
    obtain ⟨m₂, hrun, hlive₂, hring₂⟩ := Reviser.body_spec member hring₁ hx
    refine ⟨(m₂, (reviser.step x t A R).1), ?_, hring₂, hlive₂.trans hlive₁, rfl⟩
    rw [cursor_entry, cursor_entry]
    exact hrun

/-- **`list_safe_reset_next`.**  A list is cut in two anywhere, and a body edits it around the
element that it is called for, or deletes that one, and sets `n` anew if another element comes
next than before.  The removal-safe loops that begin at the cut, and the one over the whole
list, end when the loop over the sequence does, and leave that sequence on the list. -/
theorem listSafeResetNext_follows (member : ε ≃ α) (hring : m.Ring h (A ++ R))
    (hlegal : LegalSift reviser.step (reviser.Legal m.live h) fuel t A R) :
    Follows .forwards h (listForEachEntrySafeFromSet member Prod.fst (reviser.body member h) fuel
        (.addr (member.symm (firstOr h R))) (.addr h) (m, t)) (sift reviser.step fuel t A R) ∧
      Follows .forwards h (listForEachEntrySafeContinueSet member Prod.fst
        (reviser.body member h) fuel (.addr (member.symm (lastOr h A))) (.addr h) (m, t))
        (sift reviser.step fuel t A R) ∧
      (A = [] →
        Follows .forwards h (listForEachEntrySafeSet member Prod.fst (reviser.body member h) fuel
          (.addr h) (m, t)) (sift reviser.step fuel t A R)) := by
  obtain ⟨z, hz, hz_eq⟩ := getNext_cursor hring
  have hn : listNextEntry member (Prod.fst : Mem α × τ → Mem α)
      (.addr (member.symm (firstOr h R))) (m, t) = some (.addr (member.symm z)) := by
    simp [listNextEntry, memberPtr, listEntry, hz]
  have hpos : listNextEntry member (Prod.fst : Mem α × τ → Mem α)
      (.addr (member.symm (lastOr h A))) (m, t) = some (.addr (member.symm (firstOr h R))) := by
    simp [listNextEntry, memberPtr, listEntry, getNext_lastOr hring]
  have hz' : R ≠ [] → Ptr.addr (member.symm z) = .addr (member.symm (firstOr h R.tail)) :=
    fun hne => by rw [hz_eq hne]
  have hfrom := lookaheadSet_revises member hring hz' hlegal
  refine ⟨?_, ?_, ?_⟩
  · rw [listForEachEntrySafeFromSet, hn]
    exact hfrom
  · rw [listForEachEntrySafeContinueSet, hpos, Option.bind_eq_bind, Option.bind_some, hn]
    exact hfrom
  · rintro rfl
    have hfirst : m.getNext (.addr h) = some (.addr (firstOr h R)) := getNext_lastOr hring
    rw [listForEachEntrySafeSet, hfirst, Option.bind_eq_bind, Option.bind_some]
    simp only [listEntry, hn]
    exact hfrom

/-- The element 1 gets 7 behind it instead of 2, 7 gets 8 behind it and deletes itself, and the
element 3 deletes itself. -/
def reviseAtOne : Reviser (List Nat) Nat := fun x seen =>
  if x = 1 then ([.addBehind 7, .del 2], .resetNext, seen ++ [x])
  else if x = 7 then ([.addBehind 8], .resetNextDel, seen ++ [x])
  else if x = 3 then ([], .del, seen ++ [x])
  else ([], .leave, seen ++ [x])

theorem listSafeResetNext_follows_threeElements :
    ∃ m, listForEachEntrySafeSet (.refl Nat) Prod.fst (reviseAtOne.body (.refl Nat) 0) 6 (.addr 0)
        (threeElements, []) = some (m, [1, 7, 8, 3]) ∧ m.Ring 0 [1, 8] := by
  have hlegal : LegalSift reviseAtOne.step (reviseAtOne.Legal threeElements.live 0) 6 [] []
      [1, 2, 3] := by
    simp [LegalSift, Reviser.step, Reviser.Legal, reviseAtOne, LegalEdits, effects, Edit.effect,
      Edit.Legal, Finish.done, Finish.resets, threeElements]
  have hfollows := @listSafeResetNext_follows _ _ _ _ threeElements 0 [] [1, 2, 3] [] 6
    reviseAtOne (.refl Nat) threeElements_ring hlegal
  exact (hfollows.2.2 rfl).2 [1, 7, 8, 3] [1, 8] rfl

end ListHead
end Brlib
