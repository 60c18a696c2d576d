import Brlib.Hlist.Spec
import Brlib.ListHead.Iteration

/-!
# The removal-safe iteration macros of null-terminated lists

These loops read the next pointer before the body, so that the body may do what it likes
to the node that it is called for.  For entries, `hlist_entry_safe` keeps a null pointer and
is `container_of` otherwise; it is applied to the pointer that was read before the body.
-/

namespace Brlib
namespace Hlist

open Heap SlotMem ListHead

variable {β α ε σ : Type} [DecidableEq β] [DecidableEq α]

/-- `hlist_entry_safe` -/
def hlistEntrySafe (member : ε ≃ α) : Ptr α → Ptr ε
  | .null => .null
  | ptr => listEntry member ptr

section Macros

variable (mem : σ → SlotMem β α)

/-- `hlist_for_each_safe` -/
def hlistForEachSafe (body : Ptr α → σ → Option σ) (fuel : Nat) (head : Ptr β) (s : σ) :
    Option σ := do
  let pos ← (mem s).load (firstSlot head)
  readAhead (fun pos => pos = .null) (fun pos s => (mem s).load (nextSlot pos)) body fuel pos s

/-- `hlist_for_each_entry_safe` -/
def hlistForEachEntrySafe [DecidableEq ε] (member : ε ≃ α) (body : Ptr ε → σ → Option σ)
    (fuel : Nat) (head : Ptr β) (s : σ) : Option σ := do
  let first ← (mem s).load (firstSlot head)
  readAhead (fun pos => pos = .null)
    (fun pos s => ((mem s).load (nextSlot (memberPtr member pos))).map (hlistEntrySafe member))
    body fuel (hlistEntrySafe member first) s

end Macros

section Cursors

omit [DecidableEq α]

theorem cursor_headPtr (l : List α) : cursor Ptr.addr Ptr.null l = headPtr l := by
  cases l <;> rfl

theorem cursor_hlistEntrySafe (member : ε ≃ α) (l : List α) :
    cursor (fun x => Ptr.addr (member.symm x)) Ptr.null l = hlistEntrySafe member (headPtr l) := by
  cases l <;> rfl

end Cursors

section Rules

variable {mem : σ → SlotMem β α} {Inv : List α → σ → Prop} {s : σ} {h : β} {l : List α} {fuel : ℕ}

omit [DecidableEq β] in
theorem hlistForEachSafe_run {body : Ptr α → σ → Option σ}
    (hnext : ∀ x R s, Inv (x :: R) s → (mem s).load (.addr (.next x)) = some (headPtr R))
    (hstep : ∀ x R s, Inv (x :: R) s → ∃ s', body (.addr x) s = some s' ∧ Inv R s')
    (hl : (mem s).load (.addr (.first h)) = some (headPtr l)) (hinv : Inv l s)
    (hfuel : l.length < fuel) :
    ∃ s', hlistForEachSafe mem body fuel (.addr h) s = some s' ∧ Inv [] s' := by
  obtain ⟨s', hrun, hinv'⟩ := @readAhead_run _ _ _ (fun pos : Ptr α => pos = .null)
    (fun pos s => (mem s).load (nextSlot pos)) body Ptr.addr .null Inv (by simp)
    (fun _ _ _ _ => by simp) (fun x R s hinv => ⟨by
      rw [cursor_headPtr]
      exact hnext x R s hinv, hstep x R s hinv⟩) l s fuel hinv hfuel
  rw [cursor_headPtr] at hrun
  exact ⟨s', by simp [hlistForEachSafe, firstSlot, hl, hrun], hinv'⟩

omit [DecidableEq β] [DecidableEq α] in
theorem hlistForEachEntrySafe_run [DecidableEq ε] {member : ε ≃ α} {body : Ptr ε → σ → Option σ}
    (hnext : ∀ x R s, Inv (x :: R) s → (mem s).load (.addr (.next x)) = some (headPtr R))
    (hstep : ∀ x R s, Inv (x :: R) s →
      ∃ s', body (.addr (member.symm x)) s = some s' ∧ Inv R s')
    (hl : (mem s).load (.addr (.first h)) = some (headPtr l)) (hinv : Inv l s)
    (hfuel : l.length < fuel) :
    ∃ s', hlistForEachEntrySafe mem member body fuel (.addr h) s = some s' ∧ Inv [] s' := by
  obtain ⟨s', hrun, hinv'⟩ := @readAhead_run _ _ _ (fun pos : Ptr ε => pos = .null)
    (fun pos s => ((mem s).load (nextSlot (memberPtr member pos))).map (hlistEntrySafe member))
    body (fun x => Ptr.addr (member.symm x)) .null Inv (by simp) (fun _ _ _ _ => by simp)
    (fun x R s hinv => ⟨by
      rw [cursor_hlistEntrySafe]
      simp [memberPtr, nextSlot, hnext x R s hinv], hstep x R s hinv⟩) l s fuel hinv hfuel
  rw [cursor_hlistEntrySafe] at hrun
  exact ⟨s', by simp [hlistForEachEntrySafe, firstSlot, hl, hrun], hinv'⟩

end Rules

end Hlist
end Brlib
