import Brlib.Hlist.Refinement
import Brlib.Hlist.Traversal

/-!
# Editing null-terminated lists while a loop is on one of them

The body of a loop over a null-terminated list that keeps its node on the list may do what it
likes to all lists: insert nodes at a head, before and behind any node, delete others, and give
the lists of other heads away.  Every call does to the sequences what `HlistOp.apply` says, so
the loop does to the lists what the loop over the sequences does (`hlist_loops_follow`): behind
each call it goes on with the node that comes next then.
-/

namespace Brlib
namespace Hlist

open Heap SlotMem ListHead

variable {β α ε τ : Type} [DecidableEq β] [DecidableEq α]

section Sequences

/-- A sequence with `new` before `next`, if that is on it. -/
def insertBefore (new next : α) : List α → List α
  | [] => []
  | y :: l => if y = next then new :: y :: l else y :: insertBefore new next l

/-- A sequence with `new` behind `prev`, if that is on it. -/
def insertBehind (new prev : α) : List α → List α
  | [] => []
  | y :: l => if y = prev then y :: new :: l else y :: insertBehind new prev l

/-- What comes behind an element of a sequence. -/
def behind (x : α) : List α → Option α
  | [] => none
  | y :: l => if y = x then l.head? else behind x l

variable {new x : α} {l A C : List α}

theorem insertBefore_of_not_mem (hx : x ∉ l) : insertBefore new x l = l := by
  induction l with
  | nil => rfl
  | cons y l ih =>
      have hy : x ≠ y := List.ne_of_not_mem_cons hx
      have hl : x ∉ l := List.not_mem_of_not_mem_cons hx
      rw [insertBefore, if_neg hy.symm, ih hl]

theorem insertBehind_of_not_mem (hx : x ∉ l) : insertBehind new x l = l := by
  induction l with
  | nil => rfl
  | cons y l ih =>
      have hy : x ≠ y := List.ne_of_not_mem_cons hx
      have hl : x ∉ l := List.not_mem_of_not_mem_cons hx
      rw [insertBehind, if_neg hy.symm, ih hl]

theorem insertBefore_append (hx : x ∉ A) :
    insertBefore new x (A ++ x :: C) = A ++ new :: x :: C := by
  induction A with
  | nil => simp [insertBefore]
  | cons y A ih =>
      have hy : x ≠ y := List.ne_of_not_mem_cons hx
      have hA : x ∉ A := List.not_mem_of_not_mem_cons hx
      rw [List.cons_append, insertBefore, if_neg hy.symm, ih hA, List.cons_append]

theorem insertBehind_append (hx : x ∉ A) :
    insertBehind new x (A ++ x :: C) = A ++ x :: new :: C := by
  induction A with
  | nil => simp [insertBehind]
  | cons y A ih =>
      have hy : x ≠ y := List.ne_of_not_mem_cons hx
      have hA : x ∉ A := List.not_mem_of_not_mem_cons hx
      rw [List.cons_append, insertBehind, if_neg hy.symm, ih hA, List.cons_append]

theorem behind_append (hx : x ∉ A) : behind x (A ++ x :: C) = C.head? := by
  induction A with
  | nil => simp [behind]
  | cons y A ih =>
      have hy : x ≠ y := List.ne_of_not_mem_cons hx
      have hA : x ∉ A := List.not_mem_of_not_mem_cons hx
      rw [List.cons_append, behind, if_neg hy.symm, ih hA]

omit [DecidableEq α] in
theorem exists_split (hnodup : l.Nodup) (hx : x ∈ l) : ∃ A C, l = A ++ x :: C ∧ x ∉ A := by
  obtain ⟨A, C, rfl⟩ := List.append_of_mem hx
  refine ⟨A, C, rfl, fun hmem => ?_⟩
  exact List.disjoint_of_nodup_append hnodup hmem List.mem_cons_self

end Sequences

namespace HlistOp

/-- What the operations do to the sequences. -/
def apply : HlistOp β α → (β → List α) → β → List α
  | addHead n h, B => Function.update B h (n :: B h)
  | addBefore n next, B => fun h => insertBefore n next (B h)
  | addBehind n prev, B => fun h => insertBehind n prev (B h)
  | del n, B | delInit n, B => fun h => (B h).erase n
  | moveList old new, B => Function.update (Function.update B new (B old)) old []

/-- A live node that is on no list is inserted, at a live head or at a node that is on a list;
a node that is on a list is deleted; and the heads of a move are live. -/
def Legal (live : α → Bool) (liveHead : β → Bool) (B : β → List α) : HlistOp β α → Prop
  | addHead n h => live n = true ∧ (∀ h', n ∉ B h') ∧ liveHead h = true
  | addBefore n y | addBehind n y => live n = true ∧ (∀ h', n ∉ B h') ∧ ∃ h, y ∈ B h
  | del n | delInit n => ∃ h, n ∈ B h
  | moveList old new => liveHead old = true ∧ liveHead new = true

variable {m m' : SlotMem β α} {B : β → List α} {h : β} {x : α} {op : HlistOp β α}

omit [DecidableEq α] in
/-- What changes the sequences of a node only changes the list that the node is on. -/
theorem map_eq_update (hB : m.Lists B) (hx : x ∈ B h) {f : List α → List α}
    (hf : ∀ l, x ∉ l → f l = l) : (fun h => f (B h)) = Function.update B h (f (B h)) := by
  funext h'
  by_cases hh : h' = h
  · subst hh
    rw [Function.update_self]
  · rw [Function.update_of_ne hh]
    exact hf _ fun hx' => hh (hB.apart h' h x hx' hx)

theorem live_of_store {p : Ptr (Slot β α)} {v : Ptr α} (hrun : m.store p v = some m') :
    m'.live = m.live ∧ m'.liveHead = m.liveHead := by
  cases p with
  | addr s =>
      by_cases hlive : m.liveSlot s = true
      · rw [store_addr hlive, Option.some_inj] at hrun
        subst hrun
        cases s <;> exact ⟨rfl, rfl⟩
      · simp [store, hlive] at hrun
  | null | junk => simp [store] at hrun

omit [DecidableEq β] in
theorem live_of_setPprev {p : Ptr α} {v : Ptr (Slot β α)} (hrun : m.setPprev p v = some m') :
    m'.live = m.live ∧ m'.liveHead = m.liveHead := by
  cases p with
  | addr n =>
      by_cases hlive : m.live n = true
      · rw [setPprev_addr hlive, Option.some_inj] at hrun
        subst hrun
        exact ⟨rfl, rfl⟩
      · simp [setPprev, hlive] at hrun
  | null | junk => simp [setPprev] at hrun

theorem hlistMoveList_live {old new : Ptr β} (hrun : hlistMoveList old new m = some m') :
    m'.live = m.live ∧ m'.liveHead = m.liveHead := by
  simp only [hlistMoveList, Option.bind_eq_bind, Option.bind_eq_some_iff] at hrun
  obtain ⟨first, -, m₁, hstore, first', -, hrest⟩ := hrun
  obtain ⟨hlive₁, hhead₁⟩ := live_of_store hstore
  have hclear : ∀ {m₂ : SlotMem β α}, m₂.live = m₁.live ∧ m₂.liveHead = m₁.liveHead →
      m₂.store (firstSlot old) .null = some m' → m'.live = m.live ∧ m'.liveHead = m.liveHead := by
    intro m₂ hlink hclear
    obtain ⟨hlive, hhead⟩ := live_of_store hclear
    exact ⟨hlive.trans (hlink.1.trans hlive₁), hhead.trans (hlink.2.trans hhead₁)⟩
  split at hrest
  · obtain ⟨m₂, hlink, hstore₂⟩ := Option.bind_eq_some_iff.mp hrest
    exact hclear (live_of_setPprev hlink) hstore₂
  · exact hclear ⟨rfl, rfl⟩ hrest

theorem exec_apply (hB : m.Lists B) (hlegal : op.Legal m.live m.liveHead B) :
    ∃ m', op.exec m = some m' ∧ m'.Lists (op.apply B) ∧ m'.live = m.live ∧
      m'.liveHead = m.liveHead := by
  cases op with
  | addHead n h =>
      obtain ⟨hlive, hout, hhead⟩ := hlegal
      obtain ⟨m', hrun, hB', -, hsame⟩ := hlistAddHead_spec hB hhead hlive hout
      exact ⟨m', hrun, hB', hsame.live, hsame.liveHead⟩
  | addBefore n next =>
      obtain ⟨hlive, hout, h, hnext⟩ := hlegal
      obtain ⟨A, C, hAC, hA⟩ := exists_split (hB.nodup h) hnext
      obtain ⟨m', hrun, hB', hsame⟩ := hlistAddBefore_spec hB hlive hout hAC
      refine ⟨m', hrun, ?_, hsame.live, hsame.liveHead⟩
      rw [apply, map_eq_update hB hnext fun l => insertBefore_of_not_mem, hAC,
        insertBefore_append hA]
      exact hB'
  | addBehind n prev =>
      obtain ⟨hlive, hout, h, hprev⟩ := hlegal
      obtain ⟨A, C, hAC, hA⟩ := exists_split (hB.nodup h) hprev
      obtain ⟨m', hrun, hB', hsame⟩ := hlistAddBehind_spec hB hlive hout hAC
      refine ⟨m', hrun, ?_, hsame.live, hsame.liveHead⟩
      rw [apply, map_eq_update hB hprev fun l => insertBehind_of_not_mem, hAC,
        insertBehind_append hA]
      exact hB'
  | del n =>
      obtain ⟨h, hn⟩ := hlegal
      obtain ⟨m', hrun, hB', hsame, -⟩ := hlistDel_spec hB hn
      refine ⟨m', hrun, ?_, hsame.live, hsame.liveHead⟩
      rw [apply, map_eq_update hB hn fun l => List.erase_of_not_mem]
      exact hB'
  | delInit n =>
      obtain ⟨h, hn⟩ := hlegal
      obtain ⟨m', hrun, hB', -, hsame⟩ := hlistDelInit_spec hB hn
      refine ⟨m', hrun, ?_, hsame.live, hsame.liveHead⟩
      rw [apply, map_eq_update hB hn fun l => List.erase_of_not_mem]
      exact hB'
  | moveList old new =>
      obtain ⟨m', hrun, hB'⟩ := hlistMoveList_spec hB hlegal.1 hlegal.2
      exact ⟨m', hrun, hB', hlistMoveList_live hrun⟩

end HlistOp

/-- What a body does to the lists when it is called for a node, and what it carries on: it
chooses by the node and by what it carries. -/
abbrev Editor (τ β α : Type) : Type := α → τ → List (HlistOp β α) × τ

/-- Each operation of a call is legal when it is made. -/
def LegalOps (live : α → Bool) (liveHead : β → Bool) : List (HlistOp β α) → (β → List α) → Prop
  | [], _ => True
  | op :: ops, B => op.Legal live liveHead B ∧ LegalOps live liveHead ops (op.apply B)

/-- What the operations of a call do to the sequences. -/
def applyAll (ops : List (HlistOp β α)) (B : β → List α) : β → List α :=
  ops.foldl (fun B op => op.apply B) B

namespace Editor

variable (editor : Editor τ β α)

/-- The body of a loop. -/
def body (pos : Ptr α) (s : SlotMem β α × τ) : Option (SlotMem β α × τ) :=
  match pos with
  | .addr x => do
      let m ← (editor x s.2).1.foldlM (fun m op => op.exec m) s.1
      some (m, (editor x s.2).2)
  | _ => none

def entryBody (member : ε ≃ α) (pos : Ptr ε) (s : SlotMem β α × τ) :
    Option (SlotMem β α × τ) :=
  editor.body (memberPtr member pos) s

def listBody (pos : Option α) (s : (β → List α) × τ) : Option ((β → List α) × τ) :=
  pos.map fun x => (applyAll (editor x s.2).1 s.1, (editor x s.2).2)

/-- The element that comes next in the sequence of `h`, at this time. -/
def listNext (h : β) (pos : Option α) (s : (β → List α) × τ) : Option (Option α) :=
  some (pos.bind fun x => behind x (s.1 h))

/-- The loop over the sequence of `h`, from a position on. -/
def listLoop (h : β) (fuel : ℕ) (pos : Option α) (s : (β → List α) × τ) :
    Option ((β → List α) × τ) :=
  scan Option.isNone (listNext h) editor.listBody fuel pos s

/-- The operations of a call are legal, and leave its node on the list. -/
def LegalCall (live : α → Bool) (liveHead : β → Bool) (h : β) (pos : Option α)
    (s : (β → List α) × τ) : Prop :=
  ∀ x ∈ pos, LegalOps live liveHead (editor x s.2).1 s.1 ∧
    x ∈ applyAll (editor x s.2).1 s.1 h

/-- All calls of the loop are legal. -/
def LegalLoop (live : α → Bool) (liveHead : β → Bool) (h : β) (fuel : ℕ) (pos : Option α)
    (s : (β → List α) × τ) : Prop :=
  LegalScan Option.isNone (listNext h) editor.listBody (editor.LegalCall live liveHead h) fuel
    pos s

end Editor

/-- A loop ends when the loop over the sequence does, and leaves its sequences on the lists. -/
def Follows (run : Option (SlotMem β α × τ)) (outcome : Option ((β → List α) × τ)) : Prop :=
  (outcome = none → run = none) ∧
    ∀ B t, outcome = some (B, t) → ∃ m, run = some (m, t) ∧ m.Lists B

/-- The cursor at a node, or at the end. -/
def place (cur : α → Ptr ε) : Option α → Ptr ε
  | none => .null
  | some x => cur x

variable {m : SlotMem β α} {B : β → List α} {h : β} {x : α} {R : List α} {t : τ} {fuel : ℕ}
variable {editor : Editor τ β α} {pos : Option α}

omit [DecidableEq α] in
theorem place_head (cur : α → Ptr ε) (R : List α) : place cur R.head? = cursor cur .null R := by
  cases R <;> rfl

/-- The operations of one call do to the lists what they do to the sequences. -/
theorem applyAll_spec {ops : List (HlistOp β α)} (hB : m.Lists B)
    (hlegal : LegalOps m.live m.liveHead ops B) :
    ∃ m', ops.foldlM (fun m op => op.exec m) m = some m' ∧ m'.Lists (applyAll ops B) ∧
      m'.live = m.live ∧ m'.liveHead = m.liveHead := by
  induction ops generalizing m B with
  | nil => exact ⟨m, rfl, hB, rfl, rfl⟩
  | cons op ops ih =>
      obtain ⟨hop, hrest⟩ := hlegal
      obtain ⟨m₁, hrun₁, hB₁, hlive₁, hhead₁⟩ := HlistOp.exec_apply hB hop
      rw [← hlive₁, ← hhead₁] at hrest
      obtain ⟨m₂, hrun₂, hB₂, hlive₂, hhead₂⟩ := ih hB₁ hrest
      refine ⟨m₂, ?_, hB₂, hlive₂.trans hlive₁, hhead₂.trans hhead₁⟩
      rw [List.foldlM_cons, hrun₁]
      exact hrun₂

theorem scan_edits {stop : Ptr ε → Bool}
    {next : Ptr ε → SlotMem β α × τ → Option (Ptr ε)}
    {body : Ptr ε → SlotMem β α × τ → Option (SlotMem β α × τ)} {cur : α → Ptr ε}
    (hstop : ∀ pos, stop (place cur pos) = pos.isNone)
    (hbody : ∀ x, body (cur x) = editor.body (.addr x))
    (hnext : ∀ x R (s : SlotMem β α × τ), s.1.load (.addr (.next x)) = some (headPtr R) →
      next (cur x) s = some (cursor cur .null R))
    (hB : m.Lists B) (hh : m.liveHead h = true)
    (hlegal : editor.LegalLoop m.live m.liveHead h fuel pos (B, t)) :
    Follows (scan stop next body fuel (place cur pos) (m, t))
      (editor.listLoop h fuel pos (B, t)) := by
  have hscan := @scan_simulates _ _ stop next body fuel (m, t) (Option α) ((β → List α) × τ)
    Option.isNone (Editor.listNext h) editor.listBody (editor.LegalCall m.live m.liveHead h)
    (fun s' s => s.1.Lists s'.1 ∧ (s.1.live = m.live ∧ s.1.liveHead = m.liveHead) ∧ s.2 = s'.2)
    (place cur) pos (B, t) hstop ?_ ⟨hB, ⟨rfl, rfl⟩, rfl⟩ hlegal
  · refine ⟨hscan.1, fun B' t' hloop => ?_⟩
    obtain ⟨⟨m', t''⟩, hrun, hB', -, rfl⟩ := hscan.2 (B', t') hloop
    exact ⟨m', hrun, hB'⟩
  · rintro pos ⟨B, t⟩ ⟨m₁, t'⟩ hpos ⟨hB₁, ⟨hlive₁, hhead₁⟩, rfl⟩ hcall
    cases pos with
    | none => exact absurd hpos (by simp)
    | some x =>
        obtain ⟨hops, hx⟩ := hcall x rfl
        rw [← hlive₁, ← hhead₁] at hops
        obtain ⟨m₂, hrun, hB₂, hlive₂, hhead₂⟩ := applyAll_spec hB₁ hops
        obtain ⟨A, R, hAR, hA⟩ := exists_split (hB₂.nodup h) hx
        have hh₂ : m₂.liveHead h = true := by rw [hhead₂, hhead₁, hh]
        have hload := load_next hB₂ hh₂ hAR
        refine ⟨_, (m₂, (editor x t').2), R.head?, rfl, ?_, ⟨hB₂, ⟨hlive₂.trans hlive₁,
          hhead₂.trans hhead₁⟩, rfl⟩, ?_, ?_⟩
        · simp [place, hbody, Editor.body, hrun]
        · simp [Editor.listNext, hAR, behind_append hA]
        · rw [place_head]
          exact hnext x R _ hload

/-- **The loops over a null-terminated list under edits.**  A body that leaves its node on the
list edits all lists by legal calls.  The loops from the first node on, from a position on and
from behind it end when the loop over the sequence does, in which each position is followed by
what comes next behind the call, and they leave its sequences on the lists. -/
theorem hlist_loops_follow [DecidableEq ε] (member : ε ≃ α) (hB : m.Lists B)
    (hh : m.liveHead h = true) :
    (editor.LegalLoop m.live m.liveHead h fuel (B h).head? (B, t) →
      Follows (hlistForEach Prod.fst editor.body fuel (.addr h) (m, t))
        (editor.listLoop h fuel (B h).head? (B, t)) ∧
      Follows (hlistForEachEntry Prod.fst member (editor.entryBody member) fuel (.addr h) (m, t))
        (editor.listLoop h fuel (B h).head? (B, t))) ∧
    ∀ x ∈ B h,
      (editor.LegalLoop m.live m.liveHead h fuel (some x) (B, t) →
        Follows (hlistForEachEntryFrom Prod.fst member (editor.entryBody member) fuel
          (.addr (member.symm x)) (m, t)) (editor.listLoop h fuel (some x) (B, t))) ∧
      (editor.LegalLoop m.live m.liveHead h fuel (behind x (B h)) (B, t) →
        Follows (hlistForEachEntryContinue Prod.fst member (editor.entryBody member) fuel
          (.addr (member.symm x)) (m, t)) (editor.listLoop h fuel (behind x (B h)) (B, t))) := by
  have hentries : ∀ {pos : Option α}, editor.LegalLoop m.live m.liveHead h fuel pos (B, t) →
      Follows (scan (fun pos => pos = .null) (hlistNextEntry Prod.fst member)
        (editor.entryBody member) fuel (place (fun x => .addr (member.symm x)) pos) (m, t))
        (editor.listLoop h fuel pos (B, t)) := by
    refine fun hlegal => scan_edits (fun pos => by cases pos <;> simp [place])
      (fun x => ?_) (fun x R s hload => ?_) hB hh hlegal
    · funext s
      simp [Editor.entryBody, memberPtr]
    · rw [cursor_hlistEntrySafe]
      simp [hlistNextEntry, memberPtr, nextSlot, hload]
  refine ⟨fun hlegal => ⟨?_, ?_⟩, fun x hx => ⟨fun hlegal => hentries hlegal, fun hlegal => ?_⟩⟩
  · have hscan := @scan_edits _ _ _ _ _ _ m B h t fuel editor _ (fun pos => pos = Ptr.null)
      (fun pos s => s.1.load (nextSlot pos)) editor.body Ptr.addr
      (fun pos => by cases pos <;> simp [place]) (fun x => rfl)
      (fun x R s hload => by rw [cursor_headPtr]; exact hload) hB hh hlegal
    rw [place_head, cursor_headPtr] at hscan
    simpa [hlistForEach, firstSlot, load_first hB hh] using hscan
  · have hscan := hentries hlegal
    rw [place_head, cursor_hlistEntrySafe] at hscan
    simpa [hlistForEachEntry, firstSlot, load_first hB hh] using hscan
  · have hscan := hentries hlegal
    obtain ⟨A, R, hAR, hA⟩ := exists_split (hB.nodup h) hx
    have hload := load_next hB hh hAR
    rw [hAR, behind_append hA] at hscan ⊢
    rw [place_head, cursor_hlistEntrySafe] at hscan
    simpa [hlistForEachEntryContinue, hlistNextEntry, memberPtr, nextSlot, hload] using hscan

/-- The nodes 2 and 3 on the head 0, and nothing on the head 1. -/
def twoNodes : SlotMem Nat Nat where
  liveHead h := decide (h < 2)
  live _ := true
  first h := if h = 0 then .addr 2 else .null
  next n := if n = 2 then .addr 3 else .null
  pprev n := if n = 2 then .addr (.first 0) else .addr (.next 2)

theorem twoNodes_lists : twoNodes.Lists fun h => if h = 0 then [2, 3] else [] := by
  constructor
  · intro h hh
    by_cases hzero : h = 0
    · subst hzero
      simp [Chain, twoNodes, content]
    · simp [hzero, Chain, twoNodes, content]
  · simp [twoNodes]
  · intro h x hx
    by_cases hzero : h = 0 <;> simp_all [twoNodes]
  · intro h
    by_cases hzero : h = 0 <;> simp [hzero]
  · intro h h' x hx hx'
    by_cases hzero : h = 0 <;> by_cases hzero' : h' = 0 <;> simp_all

/-- Behind the node 2 comes a new one instead of 3, which goes to the head 1. -/
def rehang : Editor (List Nat) Nat Nat := fun x seen =>
  (if x = 2 then [.addBehind 4 2, .del 3, .addHead 3 1] else [], seen ++ [x])

theorem hlist_loops_follow_twoNodes :
    ∃ m B, hlistForEach Prod.fst rehang.body 5 (.addr 0) (twoNodes, []) = some (m, [2, 4]) ∧
      m.Lists B ∧ B 0 = [2, 4] ∧ B 1 = [3] := by
  have hlegal : rehang.LegalLoop twoNodes.live twoNodes.liveHead 0 5 (some 2)
      ((fun h => if h = 0 then [2, 3] else []), []) := by
    have hon : ∃ h, 3 ∈ insertBehind 4 2 (if h = 0 then [2, 3] else []) := ⟨0, by decide⟩
    have hoff : ∀ h, 3 ∉ (insertBehind 4 2 (if h = 0 then [2, 3] else [])).erase 3 := by
      intro h
      by_cases hzero : h = 0 <;> simp [hzero, insertBehind]
    simpa [Editor.LegalLoop, LegalScan, Editor.LegalCall, Editor.listBody, Editor.listNext, rehang,
      LegalOps, HlistOp.Legal, applyAll, HlistOp.apply, insertBehind, behind, twoNodes]
      using ⟨hon, hoff⟩
  obtain ⟨hloop, -⟩ := (hlist_loops_follow (.refl Nat) twoNodes_lists
    (show twoNodes.liveHead 0 = true from rfl)).1 hlegal
  obtain ⟨m, hrun, hB⟩ := hloop.2 _ _ rfl
  exact ⟨m, _, hrun, hB, rfl, rfl⟩

end Hlist
end Brlib
