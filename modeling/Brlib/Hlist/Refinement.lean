import Brlib.Hlist.Spec

/-!
# Null-terminated lists refine sequences

`HlistOp.Effect` says what each operation does to the sequences of nodes, one for each
head, and when it may be called; `exec_effect` is the refinement.

`hlist_is_singular_node` looks at the node only.  A node that is on no list may still
point back to a head, since `hlist_move_list` leaves the nodes behind that the new head
had: there the answer may be wrong (`singular_orphan`).
-/

namespace Brlib
namespace Hlist

open Heap SlotMem ListHead

variable {β α : Type} [DecidableEq β] [DecidableEq α]

/-- The calls that change lists. -/
inductive HlistOp (β α : Type) where
  | addHead (n : α) (h : β)
  | addBefore (n next : α)
  | addBehind (n prev : α)
  | del (n : α)
  | delInit (n : α)
  | moveList (old new : β)

namespace HlistOp

/-- Call the function. -/
def exec : HlistOp β α → SlotMem β α → Option (SlotMem β α)
  | addHead n h => hlistAddHead (.addr n) (.addr h)
  | addBefore n next => hlistAddBefore (.addr n) (.addr next)
  | addBehind n prev => hlistAddBehind (.addr n) (.addr prev)
  | del n => hlistDel (.addr n)
  | delInit n => hlistDelInit (.addr n)
  | moveList old new => hlistMoveList (.addr old) (.addr new)

/-- What the operations do to the lists `B`, and what they need: a node that is inserted is
on no list, the node of reference is on one, and the heads of a move are different. -/
inductive Effect (m : SlotMem β α) (B : β → List α) : HlistOp β α → (β → List α) → Prop
  | addHead {n : α} {h : β} (hlive : m.live n = true) (hout : ∀ h', n ∉ B h')
      (hhead : m.liveHead h = true) : Effect m B (addHead n h) (Function.update B h (n :: B h))
  | addBefore {n next : α} {h : β} {A C : List α} (hlive : m.live n = true)
      (hout : ∀ h', n ∉ B h') (hnext : B h = A ++ next :: C) :
      Effect m B (addBefore n next) (Function.update B h (A ++ n :: next :: C))
  | addBehind {n prev : α} {h : β} {A C : List α} (hlive : m.live n = true)
      (hout : ∀ h', n ∉ B h') (hprev : B h = A ++ prev :: C) :
      Effect m B (addBehind n prev) (Function.update B h (A ++ prev :: n :: C))
  | del {n : α} {h : β} (hn : n ∈ B h) :
      Effect m B (del n) (Function.update B h ((B h).erase n))
  | delInit {n : α} {h : β} (hn : n ∈ B h) :
      Effect m B (delInit n) (Function.update B h ((B h).erase n))
  | delInitUnhashed {n : α} (hlive : m.live n = true) (hunhashed : m.pprev n = .null) :
      Effect m B (delInit n) B
  | moveList {old new : β} (hold : m.liveHead old = true) (hnew : m.liveHead new = true)
      (hne : old ≠ new) :
      Effect m B (moveList old new) (Function.update (Function.update B new (B old)) old [])

variable {m : SlotMem β α} {B B' : β → List α} {op : HlistOp β α}

/-- Every operation has its effect, and keeps the lists well formed. -/
theorem exec_effect (hB : m.Lists B) (heffect : Effect m B op B') :
    ∃ m', op.exec m = some m' ∧ m'.Lists B' := by
  cases heffect with
  | addHead hlive hout hhead =>
      obtain ⟨m', hrun, hB', -⟩ := hlistAddHead_spec hB hhead hlive hout
      exact ⟨m', hrun, hB'⟩
  | addBefore hlive hout hnext =>
      obtain ⟨m', hrun, hB', -⟩ := hlistAddBefore_spec hB hlive hout hnext
      exact ⟨m', hrun, hB'⟩
  | addBehind hlive hout hprev =>
      obtain ⟨m', hrun, hB', -⟩ := hlistAddBehind_spec hB hlive hout hprev
      exact ⟨m', hrun, hB'⟩
  | del hn =>
      obtain ⟨m', hrun, hB', -⟩ := hlistDel_spec hB hn
      exact ⟨m', hrun, hB'⟩
  | delInit hn =>
      obtain ⟨m', hrun, hB', -⟩ := hlistDelInit_spec hB hn
      exact ⟨m', hrun, hB'⟩
  | delInitUnhashed hlive hunhashed => exact ⟨m, hlistDelInit_unhashed hlive hunhashed, hB⟩
  | moveList hold hnew _ => exact hlistMoveList_spec hB hold hnew

end HlistOp

variable {m : SlotMem β α} {B : β → List α} {n : α} {h : β}

/-- A node of its own: it can be deleted, and no list changes. -/
structure Fake (n : α) (B : β → List α) (m m₁ m₂ m₃ : SlotMem β α) : Prop where
  init : initHlistNode (.addr n) m = some m₁
  add : hlistAddFake (.addr n) m₁ = some m₂
  fake : hlistFake (.addr n) m₂ = some true
  delInit : hlistDelInit (.addr n) m₂ = some m₃
  lists₁ : m₁.Lists B
  lists₂ : m₂.Lists B
  lists₃ : m₃.Lists B
  unhashed : hlistUnhashed (.addr n) m₃ = some true

/-- `hlist_add_fake` of an initialised node that is on no list. -/
theorem fake_spec (hB : m.Lists B) (hlive : m.live n = true) (hout : ∀ h', n ∉ B h') :
    ∃ m₁ m₂ m₃, Fake n B m m₁ m₂ m₃ := by
  have hframe : ∀ {m₁ m₂ : SlotMem β α}, m₁.Lists B → SameOutside m₁ m₂ [] [n] → m₂.Lists B :=
    fun hlists hsame => hlists.frame hsame (by simp) fun h' y hy hyn =>
      hout h' ((List.mem_singleton.mp hyn) ▸ hy)
  obtain ⟨m₁, hinit, hnext₁, -, hsame₁⟩ := initHlistNode_spec hlive
  have hlive₁ : m₁.live n = true := by rwa [hsame₁.live]
  have hlists₁ := hframe hB hsame₁
  -- the node points back to itself, and what is deleted from there is null
  have hlive₂ : (m₁.putPprev n (.addr (.next n))).live n = true := hlive₁
  have hslot₂ : (m₁.putPprev n (.addr (.next n))).liveSlot (.next n) = true := hlive₁
  have hcontent₂ : (m₁.putPprev n (.addr (.next n))).content (.next n) = .null := hnext₁
  have hback₂ : (m₁.putPprev n (.addr (.next n))).pprev n = .addr (.next n) := by simp [putPprev]
  have hsame₂ : SameOutside m₁ (m₁.putPprev n (.addr (.next n))) [] [n] :=
    ⟨rfl, rfl, fun _ _ => rfl, fun _ _ => rfl, fun y hy => by simp [putPprev, by simpa using hy]⟩
  have hlists₂ := hframe hlists₁ hsame₂
  have hdel : _hlistDel (.addr n) (m₁.putPprev n (.addr (.next n))) =
      some ((m₁.putPprev n (.addr (.next n))).put (.next n) .null) := by
    simp [_hlistDel, nextSlot, hslot₂, hcontent₂, hlive₂, hback₂]
  have hsame : SameOutside (m₁.putPprev n (.addr (.next n)))
      ((m₁.putPprev n (.addr (.next n))).put (.next n) .null) [] [n] :=
    ⟨rfl, rfl, fun _ _ => rfl, fun y hy => by simp [put, Ne.symm (by simpa using hy)],
      fun _ _ => rfl⟩
  obtain ⟨m₃, hinit₃, -, hback₃, hsame₃⟩ :=
    @initHlistNode_spec _ _ _ _ ((m₁.putPprev n (.addr (.next n))).put (.next n) .null) n hlive₁
  have hlive₃ : m₃.live n = true := by
    rw [hsame₃.live]
    exact hlive₁
  refine ⟨m₁, m₁.putPprev n (.addr (.next n)), m₃, hinit, ?_, ?_, ?_, hlists₁, hlists₂,
    hframe (hframe hlists₂ hsame) hsame₃, ?_⟩
  · simp [hlistAddFake, nextSlot, hlive₁]
  · simp [hlistFake, nextSlot, hlive₂, hback₂]
  · simp [hlistDelInit, hlistUnhashed, hlive₂, hback₂, hdel, hinit₃]
  · simp [hlistUnhashed, hlive₃, hback₃]

theorem hlistIsSingularNode_eq (hlive : m.live n = true) :
    hlistIsSingularNode (.addr n) (.addr h) m =
      some (decide (m.next n = .null ∧ m.pprev n = .addr (.first h))) := by
  have hslot : m.liveSlot (.next n) = true := hlive
  have hcontent : m.content (.next n) = m.next n := rfl
  by_cases hnull : m.next n = .null
  · simp [hlistIsSingularNode, nextSlot, firstSlot, hslot, hcontent, hnull, hlive]
    exact decide_eq_decide.mpr Iff.rfl
  · simp [hlistIsSingularNode, nextSlot, firstSlot, hslot, hcontent, hnull]

omit [DecidableEq β] [DecidableEq α] in
/-- A node of a list is the only one on `h` if it is the last one and the first one of `h`. -/
theorem singular_iff {h' : β} (hB : m.Lists B) (hn : n ∈ B h') :
    m.next n = .null ∧ m.pprev n = .addr (.first h) ↔ B h = [n] := by
  constructor
  · rintro ⟨hnull, hback⟩
    obtain ⟨s, hs, hcontent, hlive⟩ := hB.pprev_eq hn
    rw [hback] at hs
    obtain rfl : Slot.first h = s := Ptr.addr.inj hs
    have hchain := hB.chain h hlive
    rw [hchain.content_eq] at hcontent
    cases hl : B h with
    | nil => simp [hl, headPtr] at hcontent
    | cons y C =>
        rw [hl] at hcontent hchain
        obtain rfl : y = n := Ptr.addr.inj hcontent
        have hnext : m.next y = headPtr C := hchain.2.content_eq
        cases C with
        | nil => rfl
        | cons z C => simp [hnull, headPtr] at hnext
  · intro hl
    have hmem : n ∈ B h := by simp [hl]
    have hchain := hB.chain h (hB.head h n hmem)
    rw [hl] at hchain
    exact ⟨hchain.2, hchain.1.2⟩

/-- What the functions do in a memory that holds the lists `B`. -/
structure Refines (m : SlotMem β α) (B : β → List α) : Prop where
  /-- The lists change as the sequences do, and stay well formed. -/
  exec : ∀ op B', HlistOp.Effect m B op B' → ∃ m', op.exec m = some m' ∧ m'.Lists B'
  unhashed : ∀ n, m.live n = true → m.pprev n = .null → hlistDelInit (.addr n) m = some m
  fake : ∀ n, m.live n = true → (∀ h, n ∉ B h) → ∃ m₁ m₂ m₃, Fake n B m m₁ m₂ m₃
  /-- The answer is right just if the node is on a list, does not point back to the head, or
  has a next node. -/
  singular : ∀ n h, m.live n = true →
    ∃ b, hlistIsSingularNode (.addr n) (.addr h) m = some b ∧
      ((b = true ↔ B h = [n]) ↔
        (∃ h', n ∈ B h') ∨ m.pprev n ≠ .addr (.first h) ∨ m.next n ≠ .null)

/-- The functions refine the operations on sequences. -/
theorem hlist_refines (hB : m.Lists B) : Refines m B where
  exec _ _ heffect := HlistOp.exec_effect hB heffect
  unhashed _ hlive hunhashed := hlistDelInit_unhashed hlive hunhashed
  fake _ hlive hout := fake_spec hB hlive hout
  singular n h hlive := by
    refine ⟨_, hlistIsSingularNode_eq hlive, ?_⟩
    rw [decide_eq_true_eq]
    by_cases hn : ∃ h', n ∈ B h'
    · obtain ⟨h', hn'⟩ := hn
      exact iff_of_true (singular_iff hB hn') (.inl ⟨h', hn'⟩)
    · -- the node is on no list, so the right answer is no
      have honly : B h ≠ [n] := fun hl => hn ⟨h, by simp [hl]⟩
      rw [iff_false_right honly, not_and_or, or_comm]
      exact (or_iff_right hn).symm

/-- A memory in which no head has a list. -/
def emptyLists : SlotMem Nat Nat where
  liveHead _ := true
  live _ := true
  first _ := .null
  next _ := .null
  pprev _ := .null

theorem lists_emptyLists : emptyLists.Lists fun _ => [] :=
  ⟨fun _ _ => rfl, by simp, by simp, by simp, by simp⟩

theorem lists_two :
    ∃ m, (hlistAddHead (.addr 2) (.addr 0) emptyLists).bind
        (hlistAddHead (.addr 3) (.addr 1)) = some m ∧ m.liveHead = emptyLists.liveHead ∧
      m.Lists (Function.update (Function.update (fun _ => []) 0 [2]) 1 [3]) := by
  obtain ⟨m₁, hrun₁, hB₁, -, hsame₁⟩ := hlistAddHead_spec lists_emptyLists
    (show emptyLists.liveHead 0 = true from rfl) (show emptyLists.live 2 = true from rfl) (by simp)
  have hout : ∀ h, 3 ∉ Function.update (fun _ => []) 0 [2] h := by
    intro h
    by_cases hh : h = 0 <;> simp [hh]
  obtain ⟨m₂, hrun₂, hB₂, -, hsame₂⟩ := hlistAddHead_spec hB₁
    (show m₁.liveHead 1 = true by rw [hsame₁.liveHead]; rfl)
    (show m₁.live 3 = true by rw [hsame₁.live]; rfl) hout
  exact ⟨m₂, by rw [hrun₁, Option.bind_some, hrun₂], hsame₂.liveHead.trans hsame₁.liveHead, hB₂⟩

theorem hlist_refines_two :
    ∃ m, (hlistAddHead (.addr 2) (.addr 0) emptyLists).bind
        (hlistAddHead (.addr 3) (.addr 1)) = some m ∧
      Refines m (Function.update (Function.update (fun _ => []) 0 [2]) 1 [3]) := by
  obtain ⟨m, hrun, -, hB⟩ := lists_two
  exact ⟨m, hrun, hlist_refines hB⟩

/-- The head `0` gets the list of the head `1`.  The node `2`, which was there before, is
not on the list any more, but is said to be the only node of it. -/
theorem singular_orphan :
    ∃ m m' B', (hlistAddHead (.addr 2) (.addr 0) emptyLists).bind
        (hlistAddHead (.addr 3) (.addr 1)) = some m ∧
      hlistMoveList (.addr 1) (.addr 0) m = some m' ∧ m'.Lists B' ∧ B' 0 = [3] ∧
      hlistIsSingularNode (.addr 2) (.addr 0) m' = some true := by
  obtain ⟨m, hrun, hheads, hB⟩ := lists_two
  obtain ⟨m', hmove, hB'⟩ := hlistMoveList_spec hB (show m.liveHead 1 = true by rw [hheads]; rfl)
    (show m.liveHead 0 = true by rw [hheads]; rfl)
  have hsingular : (((hlistAddHead (.addr 2) (.addr 0) emptyLists).bind
      (hlistAddHead (.addr 3) (.addr 1))).bind (hlistMoveList (.addr 1) (.addr 0))).bind
      (hlistIsSingularNode (.addr 2) (.addr 0)) = some true := by decide
  rw [hrun, Option.bind_some, hmove, Option.bind_some] at hsingular
  exact ⟨m, m', _, hrun, hmove, hB', by decide, hsingular⟩

end Hlist
end Brlib
