import Brlib.Hlist.Basic

/-!
# The functions of null-terminated lists keep the lists

Each function is one or two of the links of `Brlib.Heap.Slot`, which change the list of
one head.
-/

namespace Brlib
namespace Hlist

open Heap SlotMem ListHead

variable {β α : Type} [DecidableEq β] [DecidableEq α] {m : SlotMem β α} {B : β → List α}
variable {h : β} {x : α}

theorem hlistUnhashed_eq (hlive : m.live x = true) :
    hlistUnhashed (.addr x) m = some (decide (m.pprev x = .null)) := by
  simp [hlistUnhashed, hlive]

omit [DecidableEq β] in
theorem hlistEmpty_eq (hB : m.Lists B) (hh : m.liveHead h = true) :
    hlistEmpty (.addr h) m = some (decide (B h = [])) := by
  have hslot : m.liveSlot (.first h) = true := hh
  have hchain := hB.chain h hh
  cases hl : B h with
  | nil =>
      rw [hl] at hchain
      simp [hlistEmpty, firstSlot, hslot, show m.content (.first h) = .null from hchain]
  | cons y l =>
      rw [hl] at hchain
      simp [hlistEmpty, firstSlot, hslot, hchain.1.1]

theorem sameOutside_store (next : Ptr α) (pprev : Ptr (Slot β α)) :
    SameOutside m ((m.put (.next x) next).putPprev x pprev) [] [x] := by
  refine ⟨rfl, rfl, fun h _ => rfl, fun y hy => ?_, fun y hy => ?_⟩
  · have hne : x ≠ y := fun heq => hy (by simp [heq])
    simp [putPprev, put, hne]
  · have hne : y ≠ x := fun heq => hy (by simp [heq])
    simp [putPprev, put, hne]

theorem initHlistNode_spec (hlive : m.live x = true) :
    ∃ m', initHlistNode (.addr x) m = some m' ∧ m'.next x = .null ∧ m'.pprev x = .null ∧
      SameOutside m m' [] [x] := by
  have hslot : m.liveSlot (.next x) = true := hlive
  have hlive' : (m.put (.next x) .null).live x = true := hlive
  refine ⟨(m.put (.next x) .null).putPprev x .null, ?_, ?_, ?_, sameOutside_store _ _⟩
  · simp [initHlistNode, nextSlot, hslot, hlive']
  · simp [putPprev, put]
  · simp [putPprev]

omit [DecidableEq β] [DecidableEq α] in
/-- What hangs on a slot of a list is null or a live node of the list. -/
theorem content_slotAfter {A C : List α} (hB : m.Lists B) (hh : m.liveHead h = true)
    (hAC : B h = A ++ C) : m.content (slotAfter (.first h) A) = headPtr C ∧
      (headPtr C = .null ∨ ∃ y, headPtr C = .addr y ∧ m.live y = true) := by
  have hchain : m.Chain (.first h) (A ++ C) := hAC ▸ hB.chain h hh
  refine ⟨hchain.rest.content_eq, ?_⟩
  cases C with
  | nil => exact .inl rfl
  | cons y C => exact .inr ⟨y, rfl, hB.live h y (by simp [hAC])⟩

theorem hlistAddHead_spec (hB : m.Lists B) (hh : m.liveHead h = true) (hlive : m.live x = true)
    (hx : ∀ h', x ∉ B h') :
    ∃ m', hlistAddHead (.addr x) (.addr h) m = some m' ∧
      m'.Lists (Function.update B h (x :: B h)) ∧ m'.pprev x ≠ .null ∧
      SameOutside m m' [h] (x :: B h) := by
  obtain ⟨hlists, hsame⟩ := @Lists.insert _ _ _ _ _ _ _ _ [] (B h) hB hh hlive hx rfl
  obtain ⟨hfirst, hhead⟩ := @content_slotAfter _ _ _ _ _ [] (B h) hB hh rfl
  rw [← hfirst] at hhead
  have hslot_h : m.liveSlot (.first h) = true := hh
  have hslot_x : m.liveSlot (.next x) = true := hlive
  have hcontent : m.content (.first h) = m.first h := rfl
  have hlink₁ : setFirstPprev (m.first h) (.addr x) (m.put (.next x) (m.first h)) =
      some (m.link (.next x) (m.first h)) := put_eq_link hhead
  have hslot : (m.link (.next x) (m.first h)).liveSlot (.first h) = true := hh
  have hlink₂ := @put_eq_link _ _ (m.link (.next x) (m.first h)) (.first h) _ _ (.addr x)
    (.inr ⟨x, rfl, hlive⟩)
  rw [if_pos (by simp)] at hlink₂
  refine ⟨m.hang (.first h) x, ?_, hlists, by simp [hang], hsame⟩
  simp [hlistAddHead, firstSlot, nextSlot, hslot_h, hslot_x, hcontent, hlink₁, hslot, hlink₂, hang]

/-- `__hlist_del` takes a node out of its list and leaves the fields of the node alone. -/
theorem _hlistDel_spec (hB : m.Lists B) (hx : x ∈ B h) :
    ∃ m', _hlistDel (.addr x) m = some m' ∧ m'.Lists (Function.update B h ((B h).erase x)) ∧
      SameOutside m m' [h] (B h) := by
  obtain ⟨s, hback, hslot_s, hnext, hlists, hsame⟩ := hB.delete hx
  have hlive : m.live x = true := hB.live h x hx
  have hslot_x : m.liveSlot (.next x) = true := hlive
  have hcontent : m.content (.next x) = m.next x := rfl
  refine ⟨m.link s (m.next x), ?_, hlists, hsame⟩
  rw [← put_eq_link hnext]
  simp [_hlistDel, nextSlot, hslot_x, hlive, hcontent, hback, hslot_s]

theorem not_mem_erase (hB : m.Lists B) (hx : x ∈ B h) (h' : β) :
    x ∉ Function.update B h ((B h).erase x) h' := by
  intro hmem
  by_cases heq : h' = h
  · subst heq
    rw [Function.update_self] at hmem
    exact (hB.nodup h').not_mem_erase hmem
  · rw [Function.update_of_ne heq] at hmem
    exact heq (hB.apart h' h x hmem hx)

/-- `hlist_del` takes a node out of its list and poisons its fields. -/
theorem hlistDel_spec (hB : m.Lists B) (hx : x ∈ B h) :
    ∃ m', hlistDel (.addr x) m = some m' ∧ m'.Lists (Function.update B h ((B h).erase x)) ∧
      SameOutside m m' [h] (B h) ∧ m'.next x = listPoison1 ∧ m'.pprev x = listPoison2 := by
  obtain ⟨m₁, hdel, hlists, hsame⟩ := _hlistDel_spec hB hx
  have hlive : m₁.live x = true := by
    rw [hsame.live]
    exact hB.live h x hx
  have hslot : m₁.liveSlot (.next x) = true := hlive
  have hlive' : (m₁.put (.next x) listPoison1).live x = true := hlive
  have hpoison : SameOutside m₁ ((m₁.put (.next x) listPoison1).putPprev x listPoison2) [] [x] :=
    sameOutside_store _ _
  refine ⟨(m₁.put (.next x) listPoison1).putPprev x listPoison2, ?_, ?_, ?_, ?_, ?_⟩
  · simp [hlistDel, hdel, nextSlot, hslot, hlive']
  · exact hlists.frame hpoison (by simp) fun h' y hy hyx =>
      not_mem_erase hB hx h' ((List.mem_singleton.mp hyx) ▸ hy)
  · exact hsame.trans (hpoison.mono (by simp) (by simpa using hx))
  · simp [putPprev, put]
  · simp [putPprev]

theorem hlistDelInit_spec (hB : m.Lists B) (hx : x ∈ B h) :
    ∃ m', hlistDelInit (.addr x) m = some m' ∧
      m'.Lists (Function.update B h ((B h).erase x)) ∧ m'.pprev x = .null ∧
      SameOutside m m' [h] (B h) := by
  obtain ⟨s, hback, -⟩ := hB.pprev_eq hx
  have hunhashed : hlistUnhashed (.addr x) m = some false := by
    simp [hlistUnhashed, hB.live h x hx, hback]
  obtain ⟨m₁, hdel, hlists, hsame⟩ := _hlistDel_spec hB hx
  have hlive : m₁.live x = true := by
    rw [hsame.live]
    exact hB.live h x hx
  -- the node is on no list any more when it is initialised
  obtain ⟨m', hinit, -, hpprev, hsame'⟩ := initHlistNode_spec hlive
  refine ⟨m', ?_, ?_, hpprev, hsame.trans (hsame'.mono (by simp) (by simpa using hx))⟩
  · simp [hlistDelInit, hunhashed, hdel, hinit]
  · exact hlists.frame hsame' (by simp) fun h' y hy hyx =>
      not_mem_erase hB hx h' ((List.mem_singleton.mp hyx) ▸ hy)

/-- `hlist_del_init` of a node that is on no list does nothing. -/
theorem hlistDelInit_unhashed (hlive : m.live x = true) (hx : m.pprev x = .null) :
    hlistDelInit (.addr x) m = some m := by
  simp [hlistDelInit, hlistUnhashed, hlive, hx]

theorem hlistAddBefore_eq {next : α} {t : Slot β α} (hlive : m.live x = true)
    (hnext : m.live next = true) (hne : x ≠ next) (hback : m.pprev next = .addr t)
    (hcontent : m.content t = .addr next) (ht : m.liveSlot t = true) :
    hlistAddBefore (.addr x) (.addr next) m = some (m.hang t x) := by
  have hslot_x : (m.putPprev x (.addr t)).liveSlot (.next x) = true := hlive
  have hlive_next : ((m.putPprev x (.addr t)).put (.next x) (.addr next)).live next = true := hnext
  have hlive_x : (((m.putPprev x (.addr t)).put (.next x) (.addr next)).putPprev next
      (.addr (.next x))).live x = true := hlive
  have hback_x : (((m.putPprev x (.addr t)).put (.next x) (.addr next)).putPprev next
      (.addr (.next x))).pprev x = .addr t := by
    simp [putPprev, put, hne]
  have hslot_t : (((m.putPprev x (.addr t)).put (.next x) (.addr next)).putPprev next
      (.addr (.next x))).liveSlot t = true := by
    cases t <;> exact ht
  -- the stores are those of two links, in another order
  have hstores : (((m.putPprev x (.addr t)).put (.next x) (.addr next)).putPprev next
      (.addr (.next x))).put t (.addr x) = m.hang t x := by
    unfold hang SlotMem.link put putPprev
    rw [hcontent]
    congr 1
    ext1 z
    by_cases hz : z = next
    · subst hz
      simp [hne]
    · by_cases hzx : z = x
      · subst hzx
        simp [hz]
      · simp [hz, hzx, Ne.symm hz, Ne.symm hzx]
  simp only [hlistAddBefore, nextSlot, getPprev_addr hnext, hback, setPprev_addr hlive,
    store_addr hslot_x, setPprev_addr hlive_next, getPprev_addr hlive_x, hback_x,
    store_addr hslot_t, Option.bind_eq_bind, Option.bind_some, hstores]

theorem hlistAddBehind_eq {prev : α} (hlive : m.live x = true) (hprev : m.live prev = true)
    (hne : x ≠ prev)
    (hnext : m.next prev = .null ∨ ∃ y, m.next prev = .addr y ∧ m.live y = true)
    (hout : m.next prev ≠ .addr x) :
    hlistAddBehind (.addr x) (.addr prev) m = some (m.hang (.next prev) x) := by
  have hslot : m.liveSlot (.next prev) = true := hprev
  have hcontent : m.content (.next prev) = m.next prev := rfl
  have hslot_x : m.liveSlot (.next x) = true := hlive
  have hslot_prev : (m.put (.next x) (m.next prev)).liveSlot (.next prev) = true := hprev
  have hlive_x : ((m.put (.next x) (m.next prev)).put (.next prev) (.addr x)).live x = true := hlive
  -- `n->next` is read back
  have hread : (((m.put (.next x) (m.next prev)).put (.next prev) (.addr x)).putPprev x
      (.addr (.next prev))).load (.addr (.next x)) = some (m.next prev) := by
    have hslot_x' : (((m.put (.next x) (m.next prev)).put (.next prev) (.addr x)).putPprev x
      (.addr (.next prev))).liveSlot (.next x) = true := hlive
    rw [load_addr hslot_x']
    simp [content, putPprev, put, Ne.symm hne]
  simp only [hlistAddBehind, nextSlot, load_addr hslot, hcontent, store_addr hslot_x,
    store_addr hslot_prev, setPprev_addr hlive_x, hread, Option.bind_eq_bind, Option.bind_some]
  unfold hang SlotMem.link
  rcases hnext with hnull | ⟨y, hy, hlive_y⟩
  · rw [hcontent, hnull, if_neg (by simp)]
    unfold putPprev put
    congr 2
    ext1 z
    by_cases hz : z = x
    · simp [hz]
    · simp [hz, Ne.symm hz]
  · have hyx : y ≠ x := fun heq => hout (heq ▸ hy)
    have hlive_y' : (((m.put (.next x) (m.next prev)).put (.next prev) (.addr x)).putPprev x
      (.addr (.next prev))).live y = true := hlive_y
    rw [hy] at hlive_y'
    rw [hcontent, hy, if_pos (by simp), setPprev_addr hlive_y']
    unfold putPprev put
    congr 2
    ext1 z
    by_cases hz : z = y
    · subst hz
      simp [Ne.symm hyx]
    · by_cases hzx : z = x
      · subst hzx
        simp [hz]
      · simp [hz, hzx, Ne.symm hz, Ne.symm hzx]

section Insertion

variable {A C : List α} {next prev : α}

theorem hlistAddBefore_spec (hB : m.Lists B) (hlive : m.live x = true) (hx : ∀ h', x ∉ B h')
    (hAC : B h = A ++ next :: C) :
    ∃ m', hlistAddBefore (.addr x) (.addr next) m = some m' ∧
      m'.Lists (Function.update B h (A ++ x :: next :: C)) ∧
      SameOutside m m' [h] (x :: B h) := by
  have hnext : next ∈ B h := by simp [hAC]
  have hh := hB.head h next hnext
  have hne : x ≠ next := fun heq => hx h (heq ▸ hnext)
  have hchain : m.Chain (.first h) (A ++ next :: C) := hAC ▸ hB.chain h hh
  obtain ⟨⟨hcontent, hback⟩, -⟩ := hchain.rest
  obtain ⟨hlists, hsame⟩ := hB.insert hh hlive hx hAC
  exact ⟨_, hlistAddBefore_eq hlive (hB.live h next hnext) hne hback hcontent
    (hB.live_slotAfter hh hAC), hlists, hsame⟩

theorem hlistAddBehind_spec (hB : m.Lists B) (hlive : m.live x = true) (hx : ∀ h', x ∉ B h')
    (hAC : B h = A ++ prev :: C) :
    ∃ m', hlistAddBehind (.addr x) (.addr prev) m = some m' ∧
      m'.Lists (Function.update B h (A ++ prev :: x :: C)) ∧
      SameOutside m m' [h] (x :: B h) := by
  have hprev : prev ∈ B h := by simp [hAC]
  have hh := hB.head h prev hprev
  have hAC' : B h = (A ++ [prev]) ++ C := by simpa using hAC
  obtain ⟨hcontent, hhead⟩ := content_slotAfter hB hh hAC'
  rw [slotAfter_append_singleton] at hcontent
  have hnext : m.next prev = headPtr C := hcontent
  obtain ⟨hlists, hsame⟩ := hB.insert hh hlive hx hAC'
  rw [slotAfter_append_singleton] at hlists hsame
  refine ⟨_, hlistAddBehind_eq hlive (hB.live h prev hprev) (fun heq => hx h (heq ▸ hprev))
    (hnext ▸ hhead) ?_, by simpa using hlists, hsame⟩
  rw [hnext]
  cases C with
  | nil => simp [headPtr]
  | cons c C =>
      intro heq
      obtain rfl : c = x := Ptr.addr.inj heq
      exact hx h (by simp [hAC])

end Insertion

theorem hlistMoveList_spec {old new : β} (hB : m.Lists B) (hold : m.liveHead old = true)
    (hnew : m.liveHead new = true) :
    ∃ m', hlistMoveList (.addr old) (.addr new) m = some m' ∧
      m'.Lists (Function.update (Function.update B new (B old)) old []) := by
  obtain ⟨hfirst, hhead⟩ := @content_slotAfter _ _ _ _ _ [] (B old) hB hold rfl
  rw [← hfirst] at hhead
  have hslot_old : m.liveSlot (.first old) = true := hold
  have hslot_new : m.liveSlot (.first new) = true := hnew
  have hlink : (if m.first old ≠ .null then
      (m.put (.first new) (m.first old)).setPprev (m.first old) (.addr (.first new))
    else some (m.put (.first new) (m.first old))) = some (m.link (.first new) (m.first old)) :=
    put_eq_link hhead
  have hread : (m.put (.first new) (m.first old)).load (.addr (.first new)) =
      some (m.first old) := by
    have hslot : (m.put (.first new) (m.first old)).liveSlot (.first new) = true := hnew
    rw [load_addr hslot]
    simp [content, put]
  have hslot : (m.link (.first new) (m.first old)).liveSlot (.first old) = true := hold
  have hcontent : m.content (.first old) = m.first old := rfl
  refine ⟨_, ?_, hB.transfer hold hnew⟩
  simp only [hlistMoveList, firstSlot, load_addr hslot_old, hcontent, store_addr hslot_new, hread,
    Option.bind_eq_bind, Option.bind_some]
  by_cases hnull : m.first old = .null
  · rw [if_neg (not_not.mpr hnull)] at hlink ⊢
    rw [Option.some.inj hlink, store_addr hslot]
  · rw [if_pos hnull] at hlink ⊢
    rw [hlink, Option.bind_some, store_addr hslot]

end Hlist
end Brlib
