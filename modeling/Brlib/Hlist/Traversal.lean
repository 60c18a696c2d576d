import Brlib.Heap.Scan
import Brlib.Hlist.Iteration

/-!
# The other iteration macros of null-terminated lists

These loops read the next pointer behind the body, which must leave the node on its list.  A
body that leaves the lists alone is called for the nodes from the first one, from the position,
or from the one behind it, up to the last one (`hlistForEachEntry_folds`).
-/

namespace Brlib
namespace Hlist

open Heap SlotMem ListHead

variable {β α ε σ : Type}

section Macros

variable (mem : σ → SlotMem β α)

/-- `hlist_for_each` -/
def hlistForEach [DecidableEq α] (body : Ptr α → σ → Option σ) (fuel : Nat) (head : Ptr β)
    (s : σ) : Option σ := do
  let pos ← (mem s).load (firstSlot head)
  scan (fun pos => pos = .null) (fun pos s => (mem s).load (nextSlot pos)) body fuel pos s

variable (member : ε ≃ α)

/-- `hlist_entry_safe((pos)->member.next, …)` -/
def hlistNextEntry (pos : Ptr ε) (s : σ) : Option (Ptr ε) :=
  ((mem s).load (nextSlot (memberPtr member pos))).map (hlistEntrySafe member)

variable [DecidableEq ε] (body : Ptr ε → σ → Option σ)

/-- `hlist_for_each_entry` -/
def hlistForEachEntry (fuel : Nat) (head : Ptr β) (s : σ) : Option σ := do
  let first ← (mem s).load (firstSlot head)
  scan (fun pos => pos = .null) (hlistNextEntry mem member) body fuel
    (hlistEntrySafe member first) s

/-- `hlist_for_each_entry_continue` -/
def hlistForEachEntryContinue (fuel : Nat) (pos : Ptr ε) (s : σ) : Option σ := do
  let pos ← hlistNextEntry mem member pos s
  scan (fun pos => pos = .null) (hlistNextEntry mem member) body fuel pos s

/-- `hlist_for_each_entry_from` -/
def hlistForEachEntryFrom (fuel : Nat) (pos : Ptr ε) (s : σ) : Option σ :=
  scan (fun pos => pos = .null) (hlistNextEntry mem member) body fuel pos s

end Macros

variable {mem : σ → SlotMem β α} {member : ε ≃ α} {B : β → List α} {h : β} {x : α}
variable {A R : List α} {fuel : ℕ} {s : σ}

theorem load_next {m : SlotMem β α} (hB : m.Lists B) (hh : m.liveHead h = true)
    (hAR : B h = A ++ x :: R) : m.load (.addr (.next x)) = some (headPtr R) := by
  have hchain : m.Chain (.first h) (A ++ x :: R) := hAR ▸ hB.chain h hh
  have hslot : m.liveSlot (.next x) = true := hB.live h x (by simp [hAR])
  rw [load_addr hslot, hchain.rest.2.content_eq]

theorem load_first {m : SlotMem β α} (hB : m.Lists B) (hh : m.liveHead h = true) :
    m.load (.addr (.first h)) = some (headPtr (B h)) := by
  have hslot : m.liveSlot (.first h) = true := hh
  rw [load_addr hslot, (hB.chain h hh).content_eq]

theorem scan_lists {γ : Type} {stop : γ → Bool} {next : γ → σ → Option γ} {body : γ → σ → Option σ}
    {cur : α → γ} {done : γ} (hdone : stop done = true) (hcur : ∀ x, stop (cur x) = false)
    (hnext : ∀ x R s, (mem s).load (.addr (.next x)) = some (headPtr R) →
      next (cur x) s = some (cursor cur done R))
    (hB : (mem s).Lists B) (hh : (mem s).liveHead h = true)
    (hbody : ∀ x s s', (mem s).Lists B → (mem s).liveHead h = true →
      body (cur x) s = some s' → (mem s').Lists B ∧ (mem s').liveHead h = true)
    (hAR : B h = A ++ R) (hfuel : R.length < fuel) :
    scan stop next body fuel (cursor cur done R) s =
      R.foldlM (fun s x => body (cur x) s) s := by
  refine scan_fold (fun s => (mem s).Lists B ∧ (mem s).liveHead h = true) hdone
    (fun x _ => hcur x) (fun x _ s s' hs hrun => hbody x s s' hs.1 hs.2 hrun)
    (fun P x Q s hR hs => hnext x Q s ?_) ⟨hB, hh⟩ hfuel
  rw [hR, ← List.append_assoc] at hAR
  exact load_next hs.1 hs.2 hAR

theorem hlistForEach_fold [DecidableEq α] {body : Ptr α → σ → Option σ} (hB : (mem s).Lists B)
    (hh : (mem s).liveHead h = true)
    (hbody : ∀ x s s', (mem s).Lists B → (mem s).liveHead h = true →
      body (.addr x) s = some s' → (mem s').Lists B ∧ (mem s').liveHead h = true)
    (hfuel : (B h).length < fuel) :
    hlistForEach mem body fuel (.addr h) s =
      (B h).foldlM (fun s x => body (.addr x) s) s := by
  have hscan := @scan_lists _ _ _ mem B h [] (B h) fuel s _ (fun pos => pos = Ptr.null)
    (fun pos s => (mem s).load (nextSlot pos)) body Ptr.addr .null (by simp) (by simp)
    (fun x R s hload => by rw [cursor_headPtr]; exact hload) hB hh hbody rfl hfuel
  rw [cursor_headPtr] at hscan
  simp [hlistForEach, firstSlot, load_first hB hh, hscan]

section Entries

variable [DecidableEq ε] {body : Ptr ε → σ → Option σ}

theorem scan_entries (hB : (mem s).Lists B) (hh : (mem s).liveHead h = true)
    (hbody : ∀ x s s', (mem s).Lists B → (mem s).liveHead h = true →
      body (.addr (member.symm x)) s = some s' → (mem s').Lists B ∧ (mem s').liveHead h = true)
    (hAR : B h = A ++ R) (hfuel : R.length < fuel) :
    scan (fun pos => pos = .null) (hlistNextEntry mem member) body fuel
        (hlistEntrySafe member (headPtr R)) s =
      R.foldlM (fun s x => body (.addr (member.symm x)) s) s := by
  rw [← cursor_hlistEntrySafe]
  refine scan_lists (by simp) (by simp) (fun x R s hload => ?_) hB hh hbody hAR hfuel
  rw [cursor_hlistEntrySafe]
  simp [hlistNextEntry, memberPtr, nextSlot, hload]

/-- **The loops over a null-terminated list** call a body that leaves the lists alone for the
nodes from the first one, from the position, or from the one behind it, in order. -/
theorem hlistForEachEntry_folds (hB : (mem s).Lists B) (hh : (mem s).liveHead h = true)
    (hbody : ∀ x s s', (mem s).Lists B → (mem s).liveHead h = true →
      body (.addr (member.symm x)) s = some s' → (mem s').Lists B ∧ (mem s').liveHead h = true)
    (hAR : B h = A ++ x :: R) (hfuel : (B h).length < fuel) :
    hlistForEachEntry mem member body fuel (.addr h) s =
        (B h).foldlM (fun s x => body (.addr (member.symm x)) s) s ∧
      hlistForEachEntryFrom mem member body fuel (.addr (member.symm x)) s =
        (x :: R).foldlM (fun s x => body (.addr (member.symm x)) s) s ∧
      hlistForEachEntryContinue mem member body fuel (.addr (member.symm x)) s =
        R.foldlM (fun s x => body (.addr (member.symm x)) s) s := by
  have hlen : A.length + (R.length + 1) < fuel := by simpa [hAR] using hfuel
  refine ⟨?_, ?_, ?_⟩
  · have hall := scan_entries (A := []) hB hh hbody rfl hfuel
    simp [hlistForEachEntry, firstSlot, load_first hB hh, hall]
  · exact scan_entries hB hh hbody hAR (by rw [List.length_cons]; omega)
  · have hrest := scan_entries hB hh hbody (show B h = (A ++ [x]) ++ R by simp [hAR])
      (show R.length < fuel by omega)
    have hnext := load_next hB hh hAR
    simp [hlistForEachEntryContinue, hlistNextEntry, memberPtr, nextSlot, hnext, hrest]

end Entries

end Hlist
end Brlib
