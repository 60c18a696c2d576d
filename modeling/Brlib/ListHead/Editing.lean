import Brlib.ListHead.Traversal

/-!
# Editing a list while a loop is on it

The body of a loop that keeps the element that it is called for on the list may edit the list
around it: it adds elements next to the current one or at either end of the list, and deletes
others.  It may make any number of edits in one call, and choose them by the element and by
what it carries from one element to the next.

The list is then a sequence of which a part is done, and an edit changes the part that is done
or the part that is left (`Edit.effect`).  Every edit does to the ring what it does to the
sequence (`Edit.exec_spec`), so a loop does to the list what the loop over the sequence does
(`list_loops_follow`): an element that was added behind the current one gets its turn, one that
was added before it does not, and one that was deleted before its turn never gets it.

Backwards, before and behind change places (`Edit.flip`).
-/

namespace Brlib
namespace ListHead

open Heap Heap.Mem

variable {α ε τ : Type} [DecidableEq α]

/-- What a body does to the list while it is called for an element. -/
inductive Edit (α : Type) where
  /-- `list_add` behind the element. -/
  | addBehind (new : α)
  /-- `list_add_tail` in front of the element. -/
  | addBefore (new : α)
  | addFirst (new : α)
  | addLast (new : α)
  /-- `list_del` of another element. -/
  | del (y : α)

namespace Edit

/-- Call the functions of `list.h` on the list of `h`, at the element `x`. -/
def exec (h x : α) : Edit α → Mem α → Option (Mem α)
  | addBehind new, m => listAdd (.addr new) (.addr x) m
  | addBefore new, m => listAddTail (.addr new) (.addr x) m
  | addFirst new, m => listAdd (.addr new) (.addr h) m
  | addLast new, m => listAddTail (.addr new) (.addr h) m
  | del y, m => listDel (.addr y) m

/-- What becomes of the elements in front of the current one, and of those behind it. -/
def effect : Edit α → List α × List α → List α × List α
  | addBehind new, (A, R) => (A, new :: R)
  | addBefore new, (A, R) => (A ++ [new], R)
  | addFirst new, (A, R) => (new :: A, R)
  | addLast new, (A, R) => (A, R ++ [new])
  | del y, (A, R) => (A.filter (· ≠ y), R.filter (· ≠ y))

/-- A live cell that is not on the list is added, and one of the other elements deleted. -/
def Legal (live : α → Bool) (h x : α) (parts : List α × List α) : Edit α → Prop
  | addBehind new | addBefore new | addFirst new | addLast new =>
      live new = true ∧ new ∉ h :: (parts.1 ++ x :: parts.2)
  | del y => y ∈ parts.1 ∨ y ∈ parts.2

/-- The same edit, seen from the other end of the list. -/
def flip : Edit α → Edit α
  | addBehind new => addBefore new
  | addBefore new => addBehind new
  | addFirst new => addLast new
  | addLast new => addFirst new
  | del y => del y

variable {m : Mem α} {h x y : α} {A R : List α} {live : α → Bool} {e : Edit α}

theorem filter_ne_middle (hnodup : (A ++ y :: R).Nodup) :
    (A ++ y :: R).filter (· ≠ y) = A ++ R := by
  have hout : y ∉ A ++ R :=
    (List.nodup_cons.mp ((@List.perm_middle _ y A R).nodup_iff.mp hnodup)).1
  have hrest : (A ++ R).filter (· ≠ y) = A ++ R :=
    List.filter_eq_self.mpr fun a ha => decide_eq_true (ne_of_mem_of_not_mem ha hout)
  rw [List.filter_append, List.filter_cons_of_neg (by simp), ← List.filter_append, hrest]

theorem del_spec (hring : m.Ring h (A ++ x :: R)) (hy : y ∈ A ∨ y ∈ R) :
    ∃ m', listDel (.addr y) m = some m' ∧ m'.live = m.live ∧
      m'.Ring h (A.filter (· ≠ y) ++ x :: R.filter (· ≠ y)) := by
  have hnodup : (A ++ x :: R).Nodup := hring.nodup.of_cons
  have hx : x ≠ y := by
    rintro rfl
    have hperm := (@List.perm_middle _ x A R).nodup_iff.mp hnodup
    exact (List.nodup_cons.mp hperm).1 (List.mem_append.mpr hy)
  have hmem : y ∈ A ++ x :: R := by
    rcases hy with hy | hy <;> simp [hy]
  obtain ⟨l₁, l₂, hsplit⟩ := List.append_of_mem hmem
  have hfilter : A.filter (· ≠ y) ++ x :: R.filter (· ≠ y) = l₁ ++ l₂ := by
    rw [hsplit] at hnodup
    rw [← filter_ne_middle hnodup, ← hsplit, List.filter_append]
    simp [hx]
  rw [hsplit] at hring
  obtain ⟨m', hrun, hring', hsame, -⟩ := listDel_spec hring
  exact ⟨m', hrun, hsame.live, hfilter ▸ hring'⟩

theorem exec_spec (hring : m.Ring h (A ++ x :: R)) (hlegal : e.Legal m.live h x (A, R)) :
    ∃ m', e.exec h x m = some m' ∧ m'.live = m.live ∧
      m'.Ring h ((e.effect (A, R)).1 ++ x :: (e.effect (A, R)).2) := by
  have hperm : (x :: (R ++ h :: A)).Perm (h :: (A ++ x :: R)) :=
    @List.perm_append_comm _ (x :: R) (h :: A)
  cases e with
  | addBehind new =>
      obtain ⟨hlive, hnew⟩ := hlegal
      have hat : m.Ring x (R ++ h :: A) := hring.rotate
      obtain ⟨m', hadd, hring', hsame⟩ :=
        listAdd_spec hat (fun hmem => hnew (hperm.mem_iff.mp hmem)) hlive
      have hback : m'.Ring x ((new :: R) ++ h :: A) := hring'
      exact ⟨m', hadd, hsame.live, hback.rotate⟩
  | addBefore new =>
      obtain ⟨hlive, hnew⟩ := hlegal
      obtain ⟨m', hadd, hring', hsame⟩ := listAddTail_before hring hnew hlive
      exact ⟨m', hadd, hsame.live, by simpa [effect] using hring'⟩
  | addFirst new =>
      obtain ⟨hlive, hnew⟩ := hlegal
      obtain ⟨m', hadd, hring', hsame⟩ := listAdd_spec hring hnew hlive
      exact ⟨m', hadd, hsame.live, hring'⟩
  | addLast new =>
      obtain ⟨hlive, hnew⟩ := hlegal
      obtain ⟨m', hadd, hring', hsame⟩ := listAddTail_spec hring hnew hlive
      exact ⟨m', hadd, hsame.live, by simpa [effect] using hring'⟩
  | del y => exact del_spec hring hlegal

theorem effect_flip (e : Edit α) (A R : List α) :
    e.effect (R.reverse, A.reverse) =
      ((e.flip.effect (A, R)).2.reverse, (e.flip.effect (A, R)).1.reverse) := by
  cases e <;> simp [effect, flip]

omit [DecidableEq α] in
theorem Legal.flip (hlegal : e.flip.Legal live h x (A, R)) :
    e.Legal live h x (R.reverse, A.reverse) := by
  cases e with
  | del y => simpa [Legal, Edit.flip, or_comm] using hlegal
  | addBehind new | addBefore new | addFirst new | addLast new =>
      refine ⟨hlegal.1, fun hmem => hlegal.2 ?_⟩
      simp only [List.mem_cons, List.mem_append, List.mem_reverse] at hmem ⊢
      tauto

/-- Backwards, an edit does to the list what the same edit does that is seen from the other
end. -/
theorem exec_flip (hring : m.flip.Ring h (A ++ x :: R)) (hlegal : e.flip.Legal m.live h x (A, R)) :
    ∃ m', e.exec h x m = some m' ∧ m'.live = m.live ∧
      m'.flip.Ring h ((e.flip.effect (A, R)).1 ++ x :: (e.flip.effect (A, R)).2) := by
  have hback : m.Ring h (A ++ x :: R).reverse := Ring.flip hring
  have hsplit : m.Ring h (R.reverse ++ x :: A.reverse) := by simpa using hback
  obtain ⟨m', hrun, hlive, hring'⟩ := exec_spec hsplit hlegal.flip
  refine ⟨m', hrun, hlive, ?_⟩
  rw [effect_flip] at hring'
  simpa using hring'.flip

end Edit

/-- The way in which a loop goes through a list. -/
inductive Way where
  | forwards
  | backwards

namespace Way

/-- The memory in which the loop goes forwards. -/
def view : Way → Mem α → Mem α
  | forwards, m => m
  | backwards, m => m.flip

/-- The edit as the loop sees it. -/
def turn : Way → Edit α → Edit α
  | forwards, e => e
  | backwards, e => e.flip

omit [DecidableEq α] in
theorem turn_forwards : forwards.turn = (id : Edit α → Edit α) := rfl

end Way

/-- The edits of one call of the body. -/
def execEdits (h x : α) (edits : List (Edit α)) (m : Mem α) : Option (Mem α) :=
  edits.foldlM (fun m e => e.exec h x m) m

/-- What they do to both parts. -/
def effects (edits : List (Edit α)) (parts : List α × List α) : List α × List α :=
  edits.foldl (fun parts e => e.effect parts) parts

/-- Each of them is legal when it is made. -/
def LegalEdits (live : α → Bool) (h x : α) : List (Edit α) → List α × List α → Prop
  | [], _ => True
  | e :: edits, parts => e.Legal live h x parts ∧ LegalEdits live h x edits (e.effect parts)

/-- The edits that a body chooses by the element and by what it carries from one element to the
next, and what it carries on. -/
abbrev Editor (τ α : Type) : Type := α → τ → List (Edit α) × τ

namespace Editor

variable (editor : Editor τ α)

/-- The body of a loop over the list of `h`. -/
def body (h : α) (pos : Ptr α) (s : Mem α × τ) : Option (Mem α × τ) :=
  match pos with
  | .addr x => do
      let m ← execEdits h x (editor x s.2).1 s.1
      some (m, (editor x s.2).2)
  | _ => none

def entryBody (member : ε ≃ α) (h : α) (pos : Ptr ε) (s : Mem α × τ) : Option (Mem α × τ) :=
  editor.body h (memberPtr member pos) s

theorem entryBody_listEntry (member : ε ≃ α) (h : α) :
    (fun pos => editor.entryBody member h (listEntry member pos)) = editor.body h := by
  funext pos
  cases pos with
  | addr x =>
      funext s
      simp [entryBody, memberPtr, listEntry]
  | null | junk => rfl

/-- What one call does to a sequence, of which a part is done. -/
def step (way : Way) (x : α) (t : τ) (A R : List α) : τ × List α × List α :=
  ((editor x t).2, effects ((editor x t).1.map way.turn) (A, R))

/-- The edits of one call are legal. -/
def Legal (way : Way) (live : α → Bool) (h x : α) (t : τ) (A R : List α) : Prop :=
  LegalEdits live h x ((editor x t).1.map way.turn) (A, R)

end Editor

/-- A loop ends when the loop over the sequence does, with the same outcome. -/
def Follows (way : Way) (h : α) (run : Option (Mem α × τ)) (outcome : Option (τ × List α)) :
    Prop :=
  (outcome = none → run = none) ∧
    ∀ t l, outcome = some (t, l) → ∃ m, run = some (m, t) ∧ (way.view m).Ring h l

variable {m : Mem α} {h x : α} {A R : List α} {t : τ} {fuel : ℕ} {way : Way}
variable {editor : Editor τ α}

/-- One call of the body does to the list what its edits do to the two parts. -/
theorem execEdits_spec {edits : List (Edit α)} (hring : (way.view m).Ring h (A ++ x :: R))
    (hlegal : LegalEdits m.live h x (edits.map way.turn) (A, R)) :
    ∃ m', execEdits h x edits m = some m' ∧ m'.live = m.live ∧
      (way.view m').Ring h ((effects (edits.map way.turn) (A, R)).1 ++
        x :: (effects (edits.map way.turn) (A, R)).2) := by
  induction edits generalizing m A R with
  | nil => exact ⟨m, rfl, rfl, hring⟩
  | cons e edits ih =>
      obtain ⟨he, hrest⟩ := hlegal
      have hedit : ∃ m', e.exec h x m = some m' ∧ m'.live = m.live ∧
          (way.view m').Ring h (((way.turn e).effect (A, R)).1 ++
            x :: ((way.turn e).effect (A, R)).2) := by
        cases way with
        | forwards => exact Edit.exec_spec hring he
        | backwards => exact Edit.exec_flip hring he
      obtain ⟨m₁, hrun₁, hlive₁, hring₁⟩ := hedit
      rw [← hlive₁] at hrest
      obtain ⟨m₂, hrun₂, hlive₂, hring₂⟩ := ih hring₁ hrest
      refine ⟨m₂, ?_, hlive₂.trans hlive₁, hring₂⟩
      rw [execEdits, List.foldlM_cons, hrun₁]
      exact hrun₂

theorem scan_edits (hring : (way.view m).Ring h (A ++ R))
    (hlegal : LegalWalk (editor.step way) (editor.Legal way m.live h) fuel t A R) :
    Follows way h (scan (fun pos => pos = Ptr.addr h) (fun pos s => (way.view s.1).getNext pos)
        (editor.body h) fuel (.addr (firstOr h R)) (m, t))
      (walk (editor.step way) fuel t A R) := by
  have hscan := @scan_walk _ _ _ _ (fun pos => decide (pos = Ptr.addr h))
    (fun pos (s : Mem α × τ) => (way.view s.1).getNext pos) (editor.body h) Ptr.addr (.addr h) fuel
    A R (m, t) (editor.step way) (editor.Legal way m.live h)
    (fun t A R s => (way.view s.1).Ring h (A ++ R) ∧ s.1.live = m.live ∧ s.2 = t) t (by simp)
    ?_ ?_ ⟨hring, rfl, rfl⟩ hlegal
  · rw [cursor_addr] at hscan
    refine ⟨hscan.1, fun t' l hwalk => ?_⟩
    obtain ⟨⟨m', t'⟩, hrun, hring', -, rfl⟩ := hscan.2 t' l hwalk
    exact ⟨m', hrun, by simpa using hring'⟩
  · rintro t A x R s ⟨hring, -, -⟩
    simpa using head_ne_mem hring
  · rintro t A x R ⟨m₁, t⟩ ⟨hring₁, hlive₁, rfl⟩ hx
    have hx' : LegalEdits m₁.live h x ((editor x t).1.map way.turn) (A, R) := by
      rw [hlive₁]
      exact hx
    obtain ⟨m', hrun, hlive', hring'⟩ := execEdits_spec hring₁ hx'
    refine ⟨(m', (editor x t).2), by simp [Editor.body, hrun], ?_, ?_, hlive'.trans hlive₁, rfl⟩
    · rw [cursor_addr]
      exact getNext_mem hring'
    · simpa [Editor.step] using hring'

section Loops

variable (hring : (way.view m).Ring h (A ++ R))
variable (hlegal : LegalWalk (editor.step way) (editor.Legal way m.live h) fuel t A R)
include hring hlegal

theorem listForEachContinue_follows :
    Follows way h (listForEachContinue (fun s => way.view s.1) (editor.body h) fuel
        (.addr (lastOr h A)) (.addr h) (m, t)) (walk (editor.step way) fuel t A R) := by
  rw [listForEachContinue, getNext_lastOr hring]
  exact scan_edits hring hlegal

variable (member : ε ≃ α)

theorem listForEachEntryContinue_follows :
    Follows way h (listForEachEntryContinue member (fun s => way.view s.1)
        (editor.entryBody member h) fuel (.addr (member.symm (lastOr h A))) (.addr h) (m, t))
      (walk (editor.step way) fuel t A R) := by
  have hcontinue := listForEachContinue_follows hring hlegal
  rw [← editor.entryBody_listEntry member] at hcontinue
  exact (listForEachEntryContinue_eq (.addr (lastOr h A))).symm ▸ hcontinue

theorem listForEachEntryFrom_follows :
    Follows way h (listForEachEntryFrom member (fun s => way.view s.1)
        (editor.entryBody member h) fuel (.addr (member.symm (firstOr h R))) (.addr h) (m, t))
      (walk (editor.step way) fuel t A R) := by
  have hscan := scan_edits hring hlegal
  rw [← editor.entryBody_listEntry member] at hscan
  rw [listForEachEntryFrom, show Ptr.addr (member.symm (firstOr h R)) =
    listEntry member (.addr (firstOr h R)) from rfl, scan_entry]
  exact hscan

theorem listForEach_follows (hA : A = []) :
    Follows way h (listForEach (fun s => way.view s.1) (editor.body h) fuel (.addr h) (m, t))
        (walk (editor.step way) fuel t A R) ∧
      Follows way h (listForEachEntry member (fun s => way.view s.1)
          (editor.entryBody member h) fuel (.addr h) (m, t))
        (walk (editor.step way) fuel t A R) := by
  subst hA
  have hall := listForEachContinue_follows hring hlegal
  refine ⟨hall, ?_⟩
  rw [listForEachEntry_eq, Editor.entryBody_listEntry]
  exact hall

end Loops

/-- **The loops of `list.h` under edits.**  A list is cut in two anywhere, and a body edits it
around the element that it is called for.  The loops that begin at the cut, and those over the
whole list, end when the loop over the sequence ends that has the part in front of the cut done
and the other one left, and they leave that sequence on the list.  The same holds backwards. -/
theorem list_loops_follow (member : ε ≃ α) (hring : m.Ring h (A ++ R)) :
    (LegalWalk (editor.step .forwards) (editor.Legal .forwards m.live h) fuel t A R →
      Follows .forwards h (listForEachContinue Prod.fst (editor.body h) fuel
          (.addr (lastOr h A)) (.addr h) (m, t))
        (walk (editor.step .forwards) fuel t A R) ∧
      Follows .forwards h (listForEachEntryContinue member Prod.fst (editor.entryBody member h)
          fuel (.addr (member.symm (lastOr h A))) (.addr h) (m, t))
        (walk (editor.step .forwards) fuel t A R) ∧
      Follows .forwards h (listForEachEntryFrom member Prod.fst (editor.entryBody member h)
          fuel (.addr (member.symm (firstOr h R))) (.addr h) (m, t))
        (walk (editor.step .forwards) fuel t A R) ∧
      (A = [] →
        Follows .forwards h (listForEach Prod.fst (editor.body h) fuel (.addr h) (m, t))
          (walk (editor.step .forwards) fuel t A R) ∧
        Follows .forwards h (listForEachEntry member Prod.fst (editor.entryBody member h)
            fuel (.addr h) (m, t))
          (walk (editor.step .forwards) fuel t A R))) ∧
    (LegalWalk (editor.step .backwards) (editor.Legal .backwards m.live h) fuel t
        R.reverse A.reverse →
      Follows .backwards h (listForEachEntryContinueReverse member Prod.fst
          (editor.entryBody member h) fuel (.addr (member.symm (firstOr h R))) (.addr h) (m, t))
        (walk (editor.step .backwards) fuel t R.reverse A.reverse) ∧
      Follows .backwards h (listForEachEntryFromReverse member Prod.fst
          (editor.entryBody member h) fuel (.addr (member.symm (lastOr h A))) (.addr h) (m, t))
        (walk (editor.step .backwards) fuel t R.reverse A.reverse) ∧
      (R = [] →
        Follows .backwards h (listForEachPrev Prod.fst (editor.body h) fuel (.addr h) (m, t))
          (walk (editor.step .backwards) fuel t R.reverse A.reverse) ∧
        Follows .backwards h (listForEachEntryReverse member Prod.fst (editor.entryBody member h)
            fuel (.addr h) (m, t))
          (walk (editor.step .backwards) fuel t R.reverse A.reverse))) := by
  have hflip : (Way.backwards.view m).Ring h (R.reverse ++ A.reverse) := by
    rw [← List.reverse_append]
    exact hring.flip
  refine ⟨fun hlegal => ⟨?_, ?_, ?_, ?_⟩, fun hlegal => ⟨?_, ?_, ?_⟩⟩
  · exact @listForEachContinue_follows _ _ _ _ _ _ _ _ _ .forwards _ hring hlegal
  · exact @listForEachEntryContinue_follows _ _ _ _ _ _ _ _ _ _ .forwards _ hring hlegal member
  · exact @listForEachEntryFrom_follows _ _ _ _ _ _ _ _ _ _ .forwards _ hring hlegal member
  · exact @listForEach_follows _ _ _ _ _ _ _ _ _ _ .forwards _ hring hlegal member
  · have hback := listForEachEntryContinue_follows hflip hlegal member
    rw [lastOr_reverse] at hback
    exact hback
  · have hback := listForEachEntryFrom_follows hflip hlegal member
    rw [firstOr_reverse] at hback
    exact hback
  · rintro rfl
    exact listForEach_follows hflip hlegal member rfl

/-- At the element 1, a new element goes behind it, and the element 3 goes. -/
def growAtOne : Editor (List Nat) Nat := fun x seen =>
  (if x = 1 then [.addBehind 7, .del 3] else [], seen ++ [x])

theorem list_loops_follow_threeElements :
    (∃ m, listForEach Prod.fst (growAtOne.body 0) 5 (.addr 0) (threeElements, []) =
        some (m, [1, 7, 2]) ∧ m.Ring 0 [1, 7, 2]) ∧
      ∃ m, listForEachEntryFromReverse (.refl Nat) Prod.fst (growAtOne.entryBody (.refl Nat) 0) 5
        (.addr 2) (.addr 0) (threeElements, []) = some (m, [2, 1]) ∧
          m.flip.Ring 0 [2, 7, 1] := by
  have hwhole := @list_loops_follow _ _ _ _ threeElements 0 [] [1, 2, 3] [] 5 growAtOne (.refl Nat)
    threeElements_ring
  have hfrom := @list_loops_follow _ _ _ _ threeElements 0 [1, 2] [3] [] 5 growAtOne (.refl Nat)
    threeElements_ring
  have hforwards : LegalWalk (growAtOne.step .forwards)
      (growAtOne.Legal .forwards threeElements.live 0) 5 [] [] [1, 2, 3] := by
    simp [LegalWalk, Editor.step, Editor.Legal, growAtOne, LegalEdits, effects, Edit.effect,
      Edit.Legal, Way.turn, threeElements]
  have hbackwards : LegalWalk (growAtOne.step .backwards)
      (growAtOne.Legal .backwards threeElements.live 0) 5 [] [3] [2, 1] := by
    simp [LegalWalk, Editor.step, Editor.Legal, growAtOne, LegalEdits, effects, Edit.effect,
      Edit.Legal, Way.turn, Edit.flip, threeElements]
  exact ⟨((hwhole.1 hforwards).2.2.2 rfl).1.2 _ _ rfl,
    (hfrom.2 hbackwards).2.1.2 _ _ rfl⟩

end ListHead
end Brlib
