import Brlib.Hlist.Iteration
import Brlib.ListHead.SafeIteration

/-!
# Iteration over a null-terminated list that loses nodes

The bodies are those of the loops over circular lists.  A node is moved by `hlist_del` and
one of the functions that insert.  Since the loops have read the next pointer already, it
is enough that the nodes that are left stay on their list (`Remaining.exec`).

`safe_iteration` is about all removal-safe macros of `list.h`.
-/

namespace Brlib
namespace Hlist

open Heap SlotMem ListHead

variable {β α ε σ : Type} [DecidableEq β] [DecidableEq α]

/-- What a body does to the node that it is called for. -/
inductive Action (β α : Type) where
  | keep
  | del
  | delInit
  /-- `hlist_del`, and then other pointers. -/
  | overwrite (next : Ptr α) (pprev : Ptr (Slot β α))
  | moveHead (h : β)
  | moveBefore (next : α)
  | moveBehind (prev : α)

namespace Action

/-- Call the functions of `list.h` on the node `x`. -/
def exec (x : α) : Action β α → SlotMem β α → Option (SlotMem β α)
  | keep, m => some m
  | del, m => hlistDel (.addr x) m
  | delInit, m => hlistDelInit (.addr x) m
  | overwrite next pprev, m => do
      let m ← hlistDel (.addr x) m
      let m ← m.store (nextSlot (.addr x)) next
      m.setPprev (.addr x) pprev
  | moveHead h, m => do
      let m ← hlistDel (.addr x) m
      hlistAddHead (.addr x) (.addr h) m
  | moveBefore next, m => do
      let m ← hlistDel (.addr x) m
      hlistAddBefore (.addr x) (.addr next) m
  | moveBehind prev, m => do
      let m ← hlistDel (.addr x) m
      hlistAddBehind (.addr x) (.addr prev) m

def keeps : Action β α → Bool
  | keep => true
  | _ => false

/-- A node is moved to another list than that of `h`. -/
def Legal (m : SlotMem β α) (B : β → List α) (h : β) : Action β α → Prop
  | moveHead h' => m.liveHead h' = true ∧ h' ≠ h
  | moveBefore y | moveBehind y => ∃ h', y ∈ B h' ∧ h' ≠ h
  | _ => True

variable {m : SlotMem β α} {B : β → List α} {h : β} {x : α} {A R : List α} {act : Action β α}

omit [DecidableEq β] in
theorem erase_middle (hB : m.Lists B) (hAR : B h = A ++ x :: R) : (B h).erase x = A ++ R := by
  have hnodup : (A ++ x :: R).Nodup := hAR ▸ hB.nodup h
  have hxA : x ∉ A := fun hmem => List.disjoint_of_nodup_append hnodup hmem List.mem_cons_self
  rw [hAR, List.erase_append_right _ hxA, List.erase_cons_head]

theorem exec_spec (hB : m.Lists B) (hAR : B h = A ++ x :: R) (hlegal : act.Legal m B h) :
    ∃ m' B', act.exec x m = some m' ∧ m'.Lists B' ∧ m'.liveHead = m.liveHead ∧
      B' h = A ++ (if act.keeps then x :: R else R) := by
  have hx : x ∈ B h := by simp [hAR]
  have hlive : m.live x = true := hB.live h x hx
  obtain ⟨m₁, hdel, hB₁, hsame₁, -, -⟩ := hlistDel_spec hB hx
  have hlive₁ : m₁.live x = true := by rwa [hsame₁.live]
  have hout := not_mem_erase hB hx
  have hself : Function.update B h ((B h).erase x) h = A ++ R := by
    rw [Function.update_self, erase_middle hB hAR]
  -- a change of the list of another head
  have hother : ∀ {h' : β} {l : List α}, h' ≠ h →
      Function.update (Function.update B h ((B h).erase x)) h' l h = A ++ R := by
    intro h' l hne
    rw [Function.update_of_ne hne.symm, hself]
  have hlist : ∀ {h' : β}, h' ≠ h → Function.update B h ((B h).erase x) h' = B h' :=
    fun hne => Function.update_of_ne hne _ _
  cases act with
  | keep => exact ⟨m, B, rfl, hB, rfl, hAR⟩
  | del => exact ⟨m₁, _, hdel, hB₁, hsame₁.liveHead, hself⟩
  | delInit =>
      obtain ⟨m₂, hrun, hB₂, -, hsame₂⟩ := hlistDelInit_spec hB hx
      exact ⟨m₂, _, hrun, hB₂, hsame₂.liveHead, hself⟩
  | overwrite next pprev =>
      have hslot : m₁.liveSlot (.next x) = true := hlive₁
      have hlive₂ : (m₁.put (.next x) next).live x = true := hlive₁
      refine ⟨(m₁.put (.next x) next).putPprev x pprev, _, ?_,
        hB₁.frame (sameOutside_store next pprev) (by simp) fun h' y hy hyx =>
          hout h' ((List.mem_singleton.mp hyx) ▸ hy), hsame₁.liveHead, hself⟩
      simp [exec, hdel, nextSlot, hslot, hlive₂]
  | moveHead g =>
      obtain ⟨hg, hne⟩ := hlegal
      have hg₁ : m₁.liveHead g = true := by rwa [hsame₁.liveHead]
      obtain ⟨m₂, hadd, hB₂, -, hsame₂⟩ := hlistAddHead_spec hB₁ hg₁ hlive₁ hout
      exact ⟨m₂, _, by simp [exec, hdel, hadd], hB₂, hsame₂.liveHead.trans hsame₁.liveHead,
        hother hne⟩
  | moveBefore y =>
      obtain ⟨g, hy, hne⟩ := hlegal
      obtain ⟨A', C', hAC⟩ := List.append_of_mem hy
      obtain ⟨m₂, hadd, hB₂, hsame₂⟩ := hlistAddBefore_spec hB₁ hlive₁ hout ((hlist hne).trans hAC)
      exact ⟨m₂, _, by simp [exec, hdel, hadd], hB₂, hsame₂.liveHead.trans hsame₁.liveHead,
        hother hne⟩
  | moveBehind y =>
      obtain ⟨g, hy, hne⟩ := hlegal
      obtain ⟨A', C', hAC⟩ := List.append_of_mem hy
      obtain ⟨m₂, hadd, hB₂, hsame₂⟩ := hlistAddBehind_spec hB₁ hlive₁ hout ((hlist hne).trans hAC)
      exact ⟨m₂, _, by simp [exec, hdel, hadd], hB₂, hsame₂.liveHead.trans hsame₁.liveHead,
        hother hne⟩

end Action

/-- What the body of a loop over the list of `h` may do: it moves no node to that list. -/
def actions (h : β) : Actions (SlotMem β α) (Action β α) α where
  exec x act := act.exec x
  keeps := Action.keeps
  Legal m act := ∀ B, m.Lists B → act.Legal m B h

/-- The body, for a cursor of type `struct hlist_node *`. -/
def visitAt (h : β) (choice : Choice (SlotMem β α) (Action β α) σ α) (pos : Ptr α)
    (t : Iteration (SlotMem β α) (Action β α) σ α) :
    Option (Iteration (SlotMem β α) (Action β α) σ α) :=
  match pos with
  | .addr x => (actions h).visit choice x t
  | _ => none

@[simp] theorem visitAt_addr (h : β) (choice : Choice (SlotMem β α) (Action β α) σ α) (x : α) :
    visitAt h choice (.addr x) = (actions h).visit choice x := rfl

/-- The list that is iterated over: what was kept, and what is left. -/
def Remaining (h : β) (m : SlotMem β α) (K R : List α) : Prop :=
  ∃ B, m.Lists B ∧ m.liveHead h = true ∧ B h = K ++ R

variable {m : SlotMem β α} {B : β → List α} {h : β} {x : α} {K R : List α} {fuel : ℕ}

theorem Remaining.exec {act : Action β α} (hinv : Remaining h m K (x :: R))
    (hlegal : (actions h).Legal m act) :
    ∃ m', (actions h).exec x act m = some m' ∧
      Remaining h m' (if act.keeps then K ++ [x] else K) R := by
  obtain ⟨B, hB, hh, hKR⟩ := hinv
  obtain ⟨m', B', hrun, hB', hheads, hB'h⟩ := Action.exec_spec hB hKR (hlegal B hB)
  refine ⟨m', hrun, B', hB', by rwa [hheads], ?_⟩
  cases hkeeps : act.keeps <;> simpa [hkeeps] using hB'h

omit [DecidableEq β] [DecidableEq α] in
theorem Remaining.load_next (hinv : Remaining h m K (x :: R)) :
    m.load (.addr (.next x)) = some (headPtr R) := by
  obtain ⟨B, hB, hh, hKR⟩ := hinv
  have hchain : m.Chain (.first h) (K ++ x :: R) := hKR ▸ hB.chain h hh
  have hslot : m.liveSlot (.next x) = true := hB.live h x (by simp [hKR])
  rw [load_addr hslot, hchain.rest.2.content_eq]

section Loops

variable {choice : Choice (SlotMem β α) (Action β α) σ α} {s : σ}
variable (hB : m.Lists B) (hh : m.liveHead h = true) (hfuel : (B h).length < fuel)
variable (hlegal : (actions h).LegalRun choice (B h) s m)
include hB hh hfuel hlegal

theorem hlistForEachSafe_visits :
    ∃ t B', hlistForEachSafe Iteration.mem (visitAt h choice) fuel (.addr h) ⟨m, s, []⟩ = some t ∧
      t.visited.map Prod.fst = B h ∧ t.mem.Lists B' ∧ B' h = (actions h).kept t.visited := by
  have hslot : m.liveSlot (.first h) = true := hh
  obtain ⟨t, hrun, hdone⟩ := @hlistForEachSafe_run _ _ _ _ Iteration.mem
    ((actions h).Visiting choice (Remaining h) (B h)) ⟨m, s, []⟩ h (B h) fuel (visitAt h choice)
    (fun x R t ht => ht.inv.load_next)
    (fun x R t ht => ht.step fun _ _ _ _ _ => Remaining.exec)
    (by rw [load_addr hslot, (hB.chain h hh).content_eq]) ⟨⟨B, hB, hh, rfl⟩, rfl, hlegal⟩ hfuel
  obtain ⟨hvisited, B', hB', -, hleft⟩ := hdone.done
  exact ⟨t, B', hrun, hvisited, hB', by simpa using hleft⟩

theorem hlistForEachEntrySafe_visits [DecidableEq ε] (member : ε ≃ α) :
    ∃ t B', hlistForEachEntrySafe Iteration.mem member
        (fun pos => visitAt h choice (memberPtr member pos)) fuel (.addr h) ⟨m, s, []⟩ = some t ∧
      t.visited.map Prod.fst = B h ∧ t.mem.Lists B' ∧ B' h = (actions h).kept t.visited := by
  have hslot : m.liveSlot (.first h) = true := hh
  have hstep : ∀ x R t, (actions h).Visiting choice (Remaining h) (B h) (x :: R) t →
      ∃ t', visitAt h choice (memberPtr member (.addr (member.symm x))) t = some t' ∧
        (actions h).Visiting choice (Remaining h) (B h) R t' := by
    intro x R t ht
    simpa [memberPtr] using ht.step fun _ _ _ _ _ => Remaining.exec
  obtain ⟨t, hrun, hdone⟩ := @hlistForEachEntrySafe_run _ _ _ _ Iteration.mem
    ((actions h).Visiting choice (Remaining h) (B h)) ⟨m, s, []⟩ h (B h) fuel _ member
    (fun pos => visitAt h choice (memberPtr member pos))
    (fun x R t ht => ht.inv.load_next) hstep
    (by rw [load_addr hslot, (hB.chain h hh).content_eq]) ⟨⟨B, hB, hh, rfl⟩, rfl, hlegal⟩ hfuel
  obtain ⟨hvisited, B', hB', -, hleft⟩ := hdone.done
  exact ⟨t, B', hrun, hvisited, hB', by simpa using hleft⟩

end Loops

/-- The removal-safe macros visit the elements that the list held, each once and in the order
of the loop, and leave those that the body kept, in their old order. -/
theorem safe_iteration :
    (∀ {α ε σ : Type} [DecidableEq α] {m : Mem α} {h : α} {l : List α} {fuel : ℕ}
      (choice : Choice (Mem α) (ListHead.Action α) σ α) (s : σ) (member : ε ≃ α),
      m.Ring h l → l.length < fuel →
      ((ListHead.actions h).LegalRun choice l s m →
        (∃ t, listForEachSafe Iteration.mem (ListHead.visitAt h choice) fuel (.addr h)
            ⟨m, s, []⟩ = some t ∧
          t.visited.map Prod.fst = l ∧ t.mem.Ring h ((ListHead.actions h).kept t.visited)) ∧
        ∃ t, listForEachEntrySafe member Iteration.mem
            (fun pos => ListHead.visitAt h choice (memberPtr member pos)) fuel (.addr h)
            ⟨m, s, []⟩ = some t ∧
          t.visited.map Prod.fst = l ∧ t.mem.Ring h ((ListHead.actions h).kept t.visited)) ∧
      ((ListHead.actions h).LegalRun choice l.reverse s m →
        (∃ t, listForEachPrevSafe Iteration.mem (ListHead.visitAt h choice) fuel (.addr h)
            ⟨m, s, []⟩ = some t ∧ t.visited.map Prod.fst = l.reverse ∧
          t.mem.Ring h ((ListHead.actions h).kept t.visited).reverse) ∧
        ∃ t, listForEachEntrySafeReverse member Iteration.mem
            (fun pos => ListHead.visitAt h choice (memberPtr member pos)) fuel (.addr h)
            ⟨m, s, []⟩ = some t ∧ t.visited.map Prod.fst = l.reverse ∧
          t.mem.Ring h ((ListHead.actions h).kept t.visited).reverse)) ∧
    ∀ {β α ε σ : Type} [DecidableEq β] [DecidableEq α] [DecidableEq ε] {m : SlotMem β α}
      {B : β → List α} {h : β} {fuel : ℕ} (choice : Choice (SlotMem β α) (Action β α) σ α) (s : σ)
      (member : ε ≃ α), m.Lists B → m.liveHead h = true → (B h).length < fuel →
      (actions h).LegalRun choice (B h) s m →
      (∃ t B', hlistForEachSafe Iteration.mem (visitAt h choice) fuel (.addr h)
          ⟨m, s, []⟩ = some t ∧ t.visited.map Prod.fst = B h ∧ t.mem.Lists B' ∧
        B' h = (actions h).kept t.visited) ∧
      ∃ t B', hlistForEachEntrySafe Iteration.mem member
          (fun pos => visitAt h choice (memberPtr member pos)) fuel (.addr h)
          ⟨m, s, []⟩ = some t ∧ t.visited.map Prod.fst = B h ∧ t.mem.Lists B' ∧
        B' h = (actions h).kept t.visited := by
  constructor
  · intro α ε σ _ m h l fuel choice s member hring hfuel
    constructor
    · intro hlegal
      exact ⟨listForEachSafe_visits hring hfuel hlegal,
        listForEachEntrySafe_visits hring hfuel member hlegal⟩
    · intro hlegal
      exact ⟨listForEachPrevSafe_visits hring hfuel hlegal,
        listForEachEntrySafeReverse_visits hring hfuel member hlegal⟩
  · intro β α ε σ _ _ _ m B h fuel choice s member hB hh hfuel hlegal
    exact ⟨hlistForEachSafe_visits hB hh hfuel hlegal,
      hlistForEachEntrySafe_visits hB hh hfuel hlegal member⟩

/-- A body that keeps 1, deletes 2, overwrites 3 and moves 4 to the list of 5. -/
def sampleChoice : Choice (Mem Nat) (ListHead.Action Nat) Unit Nat
  | 1, s, _ => (.keep, s)
  | 2, s, _ => (.del, s)
  | 3, s, _ => (.overwrite .null (.junk 7), s)
  | _, s, _ => (.moveTail 5, s)

theorem sampleChoice_legal :
    (ListHead.actions 0).LegalRun sampleChoice [1, 2, 3, 4] () twoHeads := by
  refine ⟨fun _ _ => trivial, fun m₁ h₁ => ⟨fun _ _ => trivial, fun m₂ h₂ =>
    ⟨fun _ _ => trivial, fun m₃ h₃ => ⟨fun l hl => ?_, fun _ _ => trivial⟩⟩⟩⟩
  obtain rfl := Option.some.inj h₁
  obtain rfl := Option.some.inj h₂
  obtain rfl := Option.some.inj h₃
  obtain rfl := hl.unique (show Mem.Ring _ 0 [1, 4] by decide)
  exact ⟨[6, 7], by decide, by decide⟩

theorem sampleChoice_legal_reverse :
    (ListHead.actions 0).LegalRun sampleChoice [4, 3, 2, 1] () twoHeads := by
  refine ⟨fun l hl => ?_, fun m₁ h₁ => ⟨fun _ _ => trivial, fun m₂ h₂ =>
    ⟨fun _ _ => trivial, fun m₃ h₃ => ⟨fun _ _ => trivial, fun _ _ => trivial⟩⟩⟩⟩
  obtain rfl := hl.unique twoHeads_ring
  exact ⟨[6, 7], by decide, by decide⟩

/-- The list `1, 2, 3, 4` at the head 0, the list `6, 7` at the head 1. -/
def twoLists : SlotMem Nat Nat where
  liveHead _ := true
  live _ := true
  first
    | 0 => .addr 1
    | 1 => .addr 6
    | _ => .null
  next n := if n = 4 ∨ 7 ≤ n then .null else .addr (n + 1)
  pprev
    | 1 => .addr (.first 0)
    | 6 => .addr (.first 1)
    | n => .addr (.next (n - 1))

/-- What `twoLists` holds. -/
def twoSequences : Nat → List Nat
  | 0 => [1, 2, 3, 4]
  | 1 => [6, 7]
  | _ => []

theorem twoLists_lists : twoLists.Lists twoSequences where
  chain
    | 0, _ => ⟨⟨rfl, rfl⟩, ⟨rfl, rfl⟩, ⟨rfl, rfl⟩, ⟨rfl, rfl⟩, rfl⟩
    | 1, _ => ⟨⟨rfl, rfl⟩, ⟨rfl, rfl⟩, rfl⟩
    | _ + 2, _ => rfl
  live _ _ _ := rfl
  head _ _ _ := rfl
  nodup
    | 0 => by decide
    | 1 => by decide
    | _ + 2 => List.nodup_nil
  apart h h' x := by
    match h, h' with
    | 0, 0 | 1, 1 => exact fun _ _ => rfl
    | 0, 1 | 1, 0 => simp [twoSequences]; omega
    | n + 2, _ => exact fun hx => absurd hx List.not_mem_nil
    | _, n + 2 => exact fun _ hx => absurd hx List.not_mem_nil

/-- A body that keeps 1, deletes 2, overwrites 3 and moves 4 to the head 1. -/
def sampleMove : Choice (SlotMem Nat Nat) (Action Nat Nat) Unit Nat
  | 1, s, _ => (.keep, s)
  | 2, s, _ => (.del, s)
  | 3, s, _ => (.overwrite .null (.junk 7), s)
  | _, s, _ => (.moveHead 1, s)

theorem sampleMove_legal :
    (actions 0).LegalRun sampleMove [1, 2, 3, 4] () twoLists := by
  refine ⟨fun _ _ => trivial, fun m₁ h₁ => ⟨fun _ _ => trivial, fun m₂ h₂ =>
    ⟨fun _ _ => trivial, fun m₃ h₃ => ⟨fun B hB => ⟨?_, by decide⟩, fun _ _ => trivial⟩⟩⟩⟩
  obtain rfl := Option.some.inj h₁
  obtain rfl := Option.some.inj h₂
  obtain rfl := Option.some.inj h₃
  rfl

theorem safe_iteration_sample :
    (∃ t, listForEachSafe Iteration.mem (ListHead.visitAt 0 sampleChoice) 5 (.addr 0)
        ⟨twoHeads, (), []⟩ = some t ∧ t.visited.map Prod.fst = [1, 2, 3, 4] ∧
      t.mem.Ring 0 ((ListHead.actions 0).kept t.visited)) ∧
    (∃ t, listForEachEntrySafeReverse (.refl Nat) Iteration.mem
        (fun pos => ListHead.visitAt 0 sampleChoice (memberPtr (.refl Nat) pos)) 5 (.addr 0)
        ⟨twoHeads, (), []⟩ = some t ∧ t.visited.map Prod.fst = [4, 3, 2, 1] ∧
      t.mem.Ring 0 ((ListHead.actions 0).kept t.visited).reverse) ∧
    ∃ t B', hlistForEachSafe Iteration.mem (visitAt 0 sampleMove) 5 (.addr 0)
        ⟨twoLists, (), []⟩ = some t ∧ t.visited.map Prod.fst = [1, 2, 3, 4] ∧
      t.mem.Lists B' ∧ B' 0 = (actions 0).kept t.visited := by
  obtain ⟨hforwards, hbackwards⟩ :=
    @safe_iteration.1 Nat Nat Unit _ twoHeads 0 [1, 2, 3, 4] 5 sampleChoice () (.refl Nat)
      twoHeads_ring (by decide)
  exact ⟨(hforwards sampleChoice_legal).1, (hbackwards sampleChoice_legal_reverse).2,
    (@safe_iteration.2 Nat Nat Nat Unit _ _ _ twoLists twoSequences 0 5 sampleMove () (.refl Nat)
      twoLists_lists rfl (by decide) sampleMove_legal).1⟩

end Hlist
end Brlib
