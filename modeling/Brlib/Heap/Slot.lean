import Brlib.Heap.Memory

/-!
# Null-terminated lists with back pointers to slots

A list hangs on the one field of its head.  Each node has a pointer to the next node
and a pointer back to the slot that points to it: the field of the head, or the `next`
field of the node before.  So a node can be taken out without knowing its head.

`Chain m s l` is the list `l` that hangs on the slot `s`, and `Lists m B` says that
every live head `h` of the memory carries the list `B h`.  All changes are made of
`link`, which stores a pointer in a slot and the slot in the node pointed to.
-/

namespace Brlib
namespace Heap

/-- A place that holds a pointer to a node: the field of a head, or the `next` field of
a node. -/
inductive Slot (β α : Type*) where
  | first (h : β)
  | next (n : α)
deriving DecidableEq, Repr

/-- Heads and nodes, and which of them are live. -/
structure SlotMem (β α : Type*) where
  liveHead : β → Bool
  live : α → Bool
  first : β → Ptr α
  next : α → Ptr α
  pprev : α → Ptr (Slot β α)

namespace SlotMem

variable {β α : Type*}

def liveSlot (m : SlotMem β α) : Slot β α → Bool
  | .first h => m.liveHead h
  | .next n => m.live n

def content (m : SlotMem β α) : Slot β α → Ptr α
  | .first h => m.first h
  | .next n => m.next n

/-- The total store to a slot. -/
def put [DecidableEq β] [DecidableEq α] (m : SlotMem β α) (s : Slot β α) (v : Ptr α) :
    SlotMem β α :=
  { m with
    first := fun h => if s = .first h then v else m.first h
    next := fun n => if s = .next n then v else m.next n }

/-- The total store to a back pointer. -/
def putPprev [DecidableEq α] (m : SlotMem β α) (n : α) (v : Ptr (Slot β α)) : SlotMem β α :=
  { m with pprev := Function.update m.pprev n v }

/-- Read `*p`. -/
def load (m : SlotMem β α) : Ptr (Slot β α) → Option (Ptr α)
  | .addr s => if m.liveSlot s then some (m.content s) else none
  | _ => none

/-- Write `*p = v`. -/
def store [DecidableEq β] [DecidableEq α] (m : SlotMem β α) (p : Ptr (Slot β α)) (v : Ptr α) :
    Option (SlotMem β α) :=
  match p with
  | .addr s => if m.liveSlot s then some (m.put s v) else none
  | _ => none

/-- Read `n->pprev`. -/
def getPprev (m : SlotMem β α) : Ptr α → Option (Ptr (Slot β α))
  | .addr n => if m.live n then some (m.pprev n) else none
  | _ => none

/-- Write `n->pprev = v`. -/
def setPprev [DecidableEq α] (m : SlotMem β α) (n : Ptr α) (v : Ptr (Slot β α)) :
    Option (SlotMem β α) :=
  match n with
  | .addr n => if m.live n then some (m.putPprev n v) else none
  | _ => none

section Access

variable {m : SlotMem β α} {s : Slot β α} {n : α}

@[simp] theorem load_addr (hlive : m.liveSlot s = true) :
    m.load (.addr s) = some (m.content s) := by
  simp [load, hlive]

@[simp] theorem getPprev_addr (hlive : m.live n = true) :
    m.getPprev (.addr n) = some (m.pprev n) := by
  simp [getPprev, hlive]

@[simp] theorem setPprev_addr [DecidableEq α] (hlive : m.live n = true) (v : Ptr (Slot β α)) :
    m.setPprev (.addr n) v = some (m.putPprev n v) := by
  simp [setPprev, hlive]

@[simp] theorem store_addr [DecidableEq β] [DecidableEq α] (hlive : m.liveSlot s = true)
    (v : Ptr α) : m.store (.addr s) v = some (m.put s v) := by
  simp [store, hlive]

end Access

/-- The list `l` hangs on the slot `s`. -/
def Chain (m : SlotMem β α) (s : Slot β α) : List α → Prop
  | [] => m.content s = .null
  | x :: l => (m.content s = .addr x ∧ m.pprev x = .addr s) ∧ m.Chain (.next x) l

/-- The slot behind the nodes `A` of a list that hangs on the slot `s`. -/
def slotAfter (s : Slot β α) : List α → Slot β α
  | [] => s
  | x :: A => slotAfter (.next x) A

/-- What the slot that a list hangs on contains. -/
def headPtr : List α → Ptr α
  | [] => .null
  | x :: _ => .addr x

/-- The memories agree but for the fields of the heads `hs` and of the nodes `ns`. -/
structure SameOutside (m m' : SlotMem β α) (hs : List β) (ns : List α) : Prop where
  liveHead : m'.liveHead = m.liveHead
  live : m'.live = m.live
  first : ∀ h, h ∉ hs → m'.first h = m.first h
  next : ∀ n, n ∉ ns → m'.next n = m.next n
  pprev : ∀ n, n ∉ ns → m'.pprev n = m.pprev n

namespace SameOutside

variable {m m' m'' : SlotMem β α} {hs hs' : List β} {ns ns' : List α}

theorem trans (h : SameOutside m m' hs ns) (h' : SameOutside m' m'' hs ns) :
    SameOutside m m'' hs ns where
  liveHead := h'.liveHead.trans h.liveHead
  live := h'.live.trans h.live
  first x hx := (h'.first x hx).trans (h.first x hx)
  next x hx := (h'.next x hx).trans (h.next x hx)
  pprev x hx := (h'.pprev x hx).trans (h.pprev x hx)

theorem mono (h : SameOutside m m' hs ns) (hhs : hs ⊆ hs') (hns : ns ⊆ ns') :
    SameOutside m m' hs' ns' where
  liveHead := h.liveHead
  live := h.live
  first x hx := h.first x fun hmem => hx (hhs hmem)
  next x hx := h.next x fun hmem => hx (hns hmem)
  pprev x hx := h.pprev x fun hmem => hx (hns hmem)

end SameOutside

section Chain

variable {m m' : SlotMem β α} {s t : Slot β α} {x : α} {l A C : List α}

theorem chain_nil : m.Chain s [] ↔ m.content s = .null := Iff.rfl

theorem Chain.content_eq (h : m.Chain s l) : m.content s = headPtr l := by
  cases l with
  | nil => exact h
  | cons x l => exact h.1.1

theorem Chain.congr (h : m.Chain s l) (hs : m'.content s = m.content s)
    (hl : ∀ x ∈ l, m'.next x = m.next x ∧ m'.pprev x = m.pprev x) : m'.Chain s l := by
  induction l generalizing s with
  | nil =>
      rw [chain_nil, hs]
      exact h
  | cons x l ih =>
      obtain ⟨⟨hx, hback⟩, hrest⟩ := h
      obtain ⟨hnext, hpprev⟩ := hl x List.mem_cons_self
      refine ⟨⟨hs.trans hx, hpprev.trans hback⟩, ?_⟩
      exact ih hrest hnext fun y hy => hl y (List.mem_cons_of_mem x hy)

theorem slotAfter_eq (s : Slot β α) (A : List α) :
    slotAfter s A = s ∨ ∃ a ∈ A, slotAfter s A = .next a := by
  induction A generalizing s with
  | nil => exact .inl rfl
  | cons x A ih =>
      right
      rcases ih (.next x) with h | ⟨a, ha, h⟩
      · exact ⟨x, List.mem_cons_self, h⟩
      · exact ⟨a, List.mem_cons_of_mem x ha, h⟩

@[simp] theorem slotAfter_append_singleton (s : Slot β α) (A : List α) (x : α) :
    slotAfter s (A ++ [x]) = .next x := by
  induction A generalizing s with
  | nil => rfl
  | cons a A ih => exact ih _

theorem Chain.rest (h : m.Chain s (A ++ C)) : m.Chain (slotAfter s A) C := by
  induction A generalizing s with
  | nil => exact h
  | cons a A ih => exact ih h.2

/-- A node knows the slot that points to it, one of those of the list. -/
theorem Chain.pprev_eq (h : m.Chain s (A ++ x :: C)) :
    ∃ t, m.pprev x = .addr t ∧ m.content t = .addr x ∧ (t = s ∨ ∃ a ∈ A, t = .next a) ∧
      m.Chain (.next x) C := by
  induction A generalizing s with
  | nil => exact ⟨s, h.1.2, h.1.1, .inl rfl, h.2⟩
  | cons a A ih =>
      obtain ⟨t, hback, hx, ht, hrest⟩ := ih h.2
      refine ⟨t, hback, hx, .inr ?_, hrest⟩
      rcases ht with rfl | ⟨b, hb, rfl⟩
      · exact ⟨a, List.mem_cons_self, rfl⟩
      · exact ⟨b, List.mem_cons_of_mem a hb, rfl⟩

variable [DecidableEq β] [DecidableEq α]

/-- Store a pointer in a slot, and the slot in the node it points to. -/
def link (m : SlotMem β α) (s : Slot β α) (p : Ptr α) : SlotMem β α :=
  { m.put s p with pprev := fun z => if p = .addr z then .addr s else m.pprev z }

@[simp] theorem link_content (m : SlotMem β α) (s t : Slot β α) (p : Ptr α) :
    (m.link s p).content t = if s = t then p else m.content t := by
  cases t <;> rfl

@[simp] theorem link_next (m : SlotMem β α) (s : Slot β α) (p : Ptr α) (n : α) :
    (m.link s p).next n = if s = .next n then p else m.next n := rfl

@[simp] theorem link_pprev (m : SlotMem β α) (s : Slot β α) (p : Ptr α) (n : α) :
    (m.link s p).pprev n = if p = .addr n then .addr s else m.pprev n := rfl

theorem put_eq_link {p : Ptr α} (hp : p = .null ∨ ∃ y, p = .addr y ∧ m.live y = true) :
    (if p ≠ .null then (m.put s p).setPprev p (.addr s) else some (m.put s p)) =
      some (m.link s p) := by
  rcases hp with rfl | ⟨y, rfl, hy⟩
  · rw [if_neg (by simp), SlotMem.link]
    simp [put]
  · have hlive : (m.put s (.addr y)).live y = true := hy
    rw [if_pos (by simp), setPprev_addr hlive, putPprev, SlotMem.link]
    congr 2
    ext1 z
    by_cases hz : z = y
    · simp [hz]
    · simp [hz, Ne.symm hz, put]

theorem Chain.link (h : m.Chain t l) (hs : ∀ x ∈ l, s ≠ .next x) (hnodup : l.Nodup) :
    (m.link s (m.content t)).Chain s l := by
  cases l with
  | nil =>
      rw [chain_nil, link_content, if_pos rfl]
      exact h
  | cons y l =>
      obtain ⟨⟨hy, -⟩, hrest⟩ := h
      obtain ⟨hy_out, -⟩ := List.nodup_cons.mp hnodup
      refine ⟨⟨by simp [hy], by simp [hy]⟩, hrest.congr ?_ fun z hz => ?_⟩
      · simp [hs y List.mem_cons_self]
      · have hne : y ≠ z := fun heq => hy_out (heq ▸ hz)
        simp [hs z (List.mem_cons_of_mem y hz), hy, hne]

/-- Linking the slot before a node to what comes behind it takes the node out. -/
theorem Chain.delete (h : m.Chain s (A ++ x :: C)) (hs : ∀ y ∈ A ++ x :: C, s ≠ .next y)
    (hnodup : (A ++ x :: C).Nodup) :
    ∃ t, m.pprev x = .addr t ∧ (t = s ∨ ∃ a ∈ A, t = .next a) ∧
      (m.link t (m.next x)).Chain s (A ++ C) := by
  induction A generalizing s with
  | nil =>
      refine ⟨s, h.1.2, .inl rfl, ?_⟩
      exact h.2.link (fun y hy => hs y (List.mem_cons_of_mem x hy)) hnodup.of_cons
  | cons a A ih =>
      obtain ⟨⟨ha, hback⟩, hrest⟩ := h
      obtain ⟨ha_out, hnodup'⟩ := List.nodup_cons.mp hnodup
      have hne : ∀ y ∈ A ++ x :: C, a ≠ y := fun y hy heq => ha_out (heq ▸ hy)
      obtain ⟨t, hpprev, ht, hchain⟩ := ih hrest (by simpa using hne) hnodup'
      have ht' : ∃ b ∈ a :: A, t = .next b := by
        rcases ht with rfl | ⟨b, hb, rfl⟩
        · exact ⟨a, List.mem_cons_self, rfl⟩
        · exact ⟨b, List.mem_cons_of_mem a hb, rfl⟩
      refine ⟨t, hpprev, .inr ht', ⟨⟨?_, ?_⟩, hchain⟩⟩
      · obtain ⟨b, hb, rfl⟩ := ht'
        have hsb : s ≠ .next b := hs b (List.mem_append_left _ hb)
        simp [Ne.symm hsb, ha]
      · -- the node behind the one taken out is not `a`
        have hxa : m.next x ≠ .addr a := by
          intro heq
          obtain ⟨-, -, -, -, hC⟩ := hrest.pprev_eq
          cases C with
          | nil => simp [show m.next x = .null from hC] at heq
          | cons c C =>
              have hc : m.next x = .addr c := hC.1.1
              rw [hc] at heq
              exact hne c (by simp) (by simpa using heq.symm)
        simp [hxa, hback]

/-- A new node on a slot: what hung there hangs on the node. -/
def hang (m : SlotMem β α) (t : Slot β α) (x : α) : SlotMem β α :=
  (m.link (.next x) (m.content t)).link t (.addr x)

theorem Chain.insert (h : m.Chain s (A ++ C)) (hs : ∀ y ∈ x :: (A ++ C), s ≠ .next y)
    (hnodup : (x :: (A ++ C)).Nodup) :
    (m.hang (slotAfter s A) x).Chain s (A ++ x :: C) := by
  obtain ⟨hx, hnodup'⟩ := List.nodup_cons.mp hnodup
  induction A generalizing s with
  | nil =>
      have hslot : ∀ y ∈ C, Slot.next x ≠ (.next y : Slot β α) := fun y hy heq =>
        hx ((Slot.next.inj heq) ▸ hy)
      have hmoved : (m.link (.next x) (m.content s)).Chain (.next x) C := h.link hslot hnodup'
      refine ⟨⟨by simp [hang, slotAfter], by simp [hang, slotAfter]⟩, hmoved.congr ?_ fun y hy => ?_⟩
      · simp [hang, slotAfter, hs x List.mem_cons_self]
      · have hxy : x ≠ y := fun heq => hx (heq ▸ hy)
        simp [hang, slotAfter, hs y (List.mem_cons_of_mem x hy), hxy]
  | cons a A ih =>
      obtain ⟨⟨ha, hback⟩, hrest⟩ := h
      obtain ⟨ha_out, hnodup''⟩ := List.nodup_cons.mp hnodup'
      have hxa : x ≠ a := fun heq => hx (heq ▸ List.mem_cons_self)
      have hx' : x ∉ A ++ C := fun hmem => hx (List.mem_cons_of_mem a hmem)
      have hne : ∀ y ∈ x :: (A ++ C), Slot.next a ≠ (.next y : Slot β α) := by
        rintro y hy heq
        obtain rfl : a = y := Slot.next.inj heq
        rcases List.mem_cons.mp hy with heq | hy
        · exact hxa heq.symm
        · exact ha_out hy
      have hchain := ih hrest hne (List.nodup_cons.mpr ⟨hx', hnodup''⟩) hx' hnodup''
      -- the slot is one behind `a`, and neither of the nodes linked is `a`
      have hslot : s ≠ slotAfter (.next a) A := by
        rcases slotAfter_eq (.next a : Slot β α) A with heq | ⟨b, hb, heq⟩
        · rw [heq]
          exact hs a (by simp)
        · rw [heq]
          exact hs b (by simp [hb])
      have hcontent : m.content (slotAfter (.next a) A) ≠ .addr a := by
        rw [hrest.rest.content_eq]
        cases C with
        | nil => simp [headPtr]
        | cons c C =>
            intro heq
            obtain rfl : c = a := Ptr.addr.inj heq
            exact ha_out (by simp)
      refine ⟨⟨?_, ?_⟩, hchain⟩
      · simp [hang, slotAfter, Ne.symm hslot, Ne.symm (hs x List.mem_cons_self), ha]
      · simp [hang, slotAfter, hxa, hcontent, hback]

theorem SameOutside.of_link {h : β} {ns : List α} {p : Ptr α}
    (ht : t = .first h ∨ ∃ a ∈ ns, t = .next a) (hp : ∀ y, p = .addr y → y ∈ ns) :
    SameOutside m (m.link t p) [h] ns := by
  refine ⟨rfl, rfl, fun h' hh' => ?_, fun y hy => ?_, fun y hy => ?_⟩
  · have hne : t ≠ .first h' := by
      rintro rfl
      rcases ht with heq | ⟨a, -, heq⟩
      · exact hh' (by simpa using heq)
      · simp at heq
    show (if t = .first h' then _ else _) = _
    rw [if_neg hne]
  · have hne : t ≠ .next y := by
      rintro rfl
      rcases ht with heq | ⟨a, ha, heq⟩
      · simp at heq
      · exact hy ((Slot.next.inj heq) ▸ ha)
    simp [hne]
  · have hne : p ≠ .addr y := fun heq => hy (hp y heq)
    simp [hne]

end Chain

/-- Every live head `h` carries the list `B h`, and no node is on two lists or twice on
one. -/
structure Lists (m : SlotMem β α) (B : β → List α) : Prop where
  chain : ∀ h, m.liveHead h = true → m.Chain (.first h) (B h)
  live : ∀ h, ∀ x ∈ B h, m.live x = true
  head : ∀ h, ∀ x ∈ B h, m.liveHead h = true
  nodup : ∀ h, (B h).Nodup
  apart : ∀ h h' x, x ∈ B h → x ∈ B h' → h = h'

namespace Lists

variable {m m' : SlotMem β α} {B : β → List α} {h : β} {x : α} {hs : List β} {ns : List α}

theorem frame (hB : m.Lists B) (hsame : SameOutside m m' hs ns)
    (hhs : ∀ h ∈ hs, m.liveHead h = false) (hns : ∀ h, ∀ x ∈ B h, x ∉ ns) : m'.Lists B where
  chain h hh := by
    rw [hsame.liveHead] at hh
    have hout : h ∉ hs := fun hmem => by simp [hhs h hmem] at hh
    exact (hB.chain h hh).congr (hsame.first h hout) fun x hx =>
      ⟨hsame.next x (hns h x hx), hsame.pprev x (hns h x hx)⟩
  live h x hx := by
    rw [hsame.live]
    exact hB.live h x hx
  head h x hx := by
    rw [hsame.liveHead]
    exact hB.head h x hx
  nodup := hB.nodup
  apart := hB.apart

theorem live_slotAfter {A C : List α} (hB : m.Lists B) (hh : m.liveHead h = true)
    (hAC : B h = A ++ C) : m.liveSlot (slotAfter (.first h) A) = true := by
  rcases slotAfter_eq (.first h : Slot β α) A with heq | ⟨a, ha, heq⟩
  · rw [heq]
    exact hh
  · rw [heq]
    exact hB.live h a (by simp [hAC, ha])

theorem pprev_eq (hB : m.Lists B) (hx : x ∈ B h) :
    ∃ s, m.pprev x = .addr s ∧ m.content s = .addr x ∧ m.liveSlot s = true := by
  obtain ⟨A, C, hAC⟩ := List.append_of_mem hx
  have hchain : m.Chain (.first h) (A ++ x :: C) := hAC ▸ hB.chain h (hB.head h x hx)
  obtain ⟨s, hback, hcontent, hs, -⟩ := hchain.pprev_eq
  refine ⟨s, hback, hcontent, ?_⟩
  rcases hs with rfl | ⟨a, ha, rfl⟩
  · exact hB.head h x hx
  · exact hB.live h a (by simp [hAC, ha])

variable [DecidableEq β] [DecidableEq α]

omit [DecidableEq α] in
/-- A change of one list, by stores to its head and its nodes. -/
theorem update {l : List α} (hB : m.Lists B) (hsame : SameOutside m m' [h] (x :: B h))
    (hh : m.liveHead h = true) (hx : ∀ h', h' ≠ h → x ∉ B h') (hl : l ⊆ x :: B h)
    (hchain : m'.Chain (.first h) l) (hnodup : l.Nodup) (hlive : m.live x = true) :
    m'.Lists (Function.update B h l) := by
  -- the stores touch no other list: no node is on two
  have hother : ∀ h', h' ≠ h → ∀ y ∈ B h', y ∉ x :: B h := by
    intro h' hne y hy hmem
    rcases List.mem_cons.mp hmem with rfl | hmem
    · exact hx h' hne hy
    · exact hne (hB.apart h' h y hy hmem)
  refine ⟨fun h' hh' => ?_, fun h' y hy => ?_, fun h' y hy => ?_, fun h' => ?_,
    fun h₁ h₂ y hy₁ hy₂ => ?_⟩
  · by_cases heq : h' = h
    · subst heq
      rwa [Function.update_self]
    · rw [Function.update_of_ne heq]
      rw [hsame.liveHead] at hh'
      refine (hB.chain h' hh').congr (hsame.first h' (by simpa using heq)) fun y hy => ?_
      exact ⟨hsame.next y (hother h' heq y hy), hsame.pprev y (hother h' heq y hy)⟩
  · rw [hsame.live]
    by_cases heq : h' = h
    · subst heq
      rw [Function.update_self] at hy
      rcases List.mem_cons.mp (hl hy) with rfl | hy
      · exact hlive
      · exact hB.live h' y hy
    · rw [Function.update_of_ne heq] at hy
      exact hB.live h' y hy
  · rw [hsame.liveHead]
    by_cases heq : h' = h
    · exact heq ▸ hh
    · rw [Function.update_of_ne heq] at hy
      exact hB.head h' y hy
  · by_cases heq : h' = h
    · subst heq
      rwa [Function.update_self]
    · rw [Function.update_of_ne heq]
      exact hB.nodup h'
  · by_cases heq₁ : h₁ = h
    · by_cases heq₂ : h₂ = h
      · rw [heq₁, heq₂]
      · subst heq₁
        rw [Function.update_self] at hy₁
        rw [Function.update_of_ne heq₂] at hy₂
        exact absurd (hl hy₁) (hother h₂ heq₂ y hy₂)
    · rw [Function.update_of_ne heq₁] at hy₁
      by_cases heq₂ : h₂ = h
      · subst heq₂
        rw [Function.update_self] at hy₂
        exact absurd (hl hy₂) (hother h₁ heq₁ y hy₁)
      · rw [Function.update_of_ne heq₂] at hy₂
        exact hB.apart h₁ h₂ y hy₁ hy₂

theorem insert {A C : List α} (hB : m.Lists B) (hh : m.liveHead h = true) (hlive : m.live x = true)
    (hx : ∀ h', x ∉ B h') (hAC : B h = A ++ C) :
    (m.hang (slotAfter (.first h) A) x).Lists (Function.update B h (A ++ x :: C)) ∧
      SameOutside m (m.hang (slotAfter (.first h) A) x) [h] (x :: B h) := by
  have hchain : m.Chain (.first h) (A ++ C) := hAC ▸ hB.chain h hh
  have hnodup : (x :: (A ++ C)).Nodup := List.nodup_cons.mpr ⟨hAC ▸ hx h, hAC ▸ hB.nodup h⟩
  have hslot : slotAfter (.first h) A = .first h ∨
      ∃ a ∈ x :: B h, slotAfter (.first h) A = .next a := by
    refine (slotAfter_eq (.first h : Slot β α) A).imp_right ?_
    rintro ⟨a, ha, heq⟩
    exact ⟨a, by simp [hAC, ha], heq⟩
  have hcontent : ∀ y, m.content (slotAfter (.first h) A) = .addr y → y ∈ x :: B h := by
    intro y hy
    rw [hchain.rest.content_eq] at hy
    cases C with
    | nil => simp [headPtr] at hy
    | cons c C =>
        obtain rfl : c = y := Ptr.addr.inj hy
        simp [hAC]
  have hbehind : SameOutside m (m.link (.next x) (m.content (slotAfter (.first h) A))) [h]
      (x :: B h) := .of_link (.inr ⟨x, List.mem_cons_self, rfl⟩) hcontent
  have hsame : SameOutside m (m.hang (slotAfter (.first h) A) x) [h] (x :: B h) :=
    hbehind.trans (.of_link hslot fun y hy => (Ptr.addr.inj hy) ▸ List.mem_cons_self)
  refine ⟨hB.update hsame hh (fun h' _ => hx h') ?_ (hchain.insert (by simp) hnodup) ?_ hlive, hsame⟩
  · rw [hAC]
    intro y hy
    simp only [List.mem_cons, List.mem_append] at hy ⊢
    tauto
  · exact List.perm_middle.nodup_iff.mpr hnodup

theorem delete (hB : m.Lists B) (hx : x ∈ B h) :
    ∃ s, m.pprev x = .addr s ∧ m.liveSlot s = true ∧
      (m.next x = .null ∨ ∃ y, m.next x = .addr y ∧ m.live y = true) ∧
      (m.link s (m.next x)).Lists (Function.update B h ((B h).erase x)) ∧
      SameOutside m (m.link s (m.next x)) [h] (B h) := by
  have hh := hB.head h x hx
  obtain ⟨A, C, hAC⟩ := List.append_of_mem hx
  have hchain : m.Chain (.first h) (A ++ x :: C) := hAC ▸ hB.chain h hh
  have hnodup : (A ++ x :: C).Nodup := hAC ▸ hB.nodup h
  have hlive : ∀ y ∈ A ++ x :: C, m.live y = true := fun y hy => hB.live h y (hAC ▸ hy)
  obtain ⟨s, hback, hs, hdel⟩ := hchain.delete (by simp) hnodup
  have hnext : m.next x = .null ∨ ∃ y, m.next x = .addr y ∧ y ∈ C := by
    obtain ⟨-, -, -, -, hC⟩ := hchain.pprev_eq
    cases C with
    | nil => exact .inl hC
    | cons y C => exact .inr ⟨y, hC.1.1, List.mem_cons_self⟩
  have herase : (B h).erase x = A ++ C := by
    have hxA : x ∉ A := fun hmem =>
      List.disjoint_of_nodup_append hnodup hmem List.mem_cons_self
    rw [hAC, List.erase_append_right _ hxA, List.erase_cons_head]
  -- the slot that was linked is the head or belongs to a node before `x`
  have hsame : SameOutside m (m.link s (m.next x)) [h] (B h) := by
    refine SameOutside.of_link (hs.imp_right ?_) fun y hy => ?_
    · rintro ⟨a, ha, rfl⟩
      exact ⟨a, by simp [hAC, ha], rfl⟩
    · rcases hnext with heq | ⟨z, heq, hz⟩
      · simp [heq] at hy
      · rw [heq] at hy
        simp [hAC, ← Ptr.addr.inj hy, hz]
  refine ⟨s, hback, ?_, hnext.imp_right ?_, ?_, hsame⟩
  · rcases hs with rfl | ⟨a, ha, rfl⟩
    · exact hh
    · exact hlive a (by simp [ha])
  · rintro ⟨y, hy, hC⟩
    exact ⟨y, hy, hlive y (by simp [hC])⟩
  · rw [herase]
    have hsub : A ++ C ⊆ x :: B h := by
      rw [hAC]
      intro y hy
      simp only [List.mem_cons, List.mem_append] at hy ⊢
      tauto
    refine hB.update (hsame.mono (List.Subset.refl _) (List.subset_cons_self x _)) hh ?_ hsub hdel
      ?_ (hB.live h x hx)
    · exact fun h' hne hmem => hne (hB.apart h' h x hmem hx)
    · exact hnodup.sublist (List.Sublist.append_left (List.sublist_cons_self x C) A)

omit [DecidableEq α] in
theorem mem_transfer {h' g : β} {y : α}
    (hy : y ∈ Function.update (Function.update B h' (B h)) h [] g) :
    g = h' ∧ y ∈ B h ∨ (g ≠ h ∧ g ≠ h') ∧ y ∈ B g := by
  by_cases hgh : g = h
  · subst hgh
    simp at hy
  · rw [Function.update_of_ne hgh] at hy
    by_cases hgh' : g = h'
    · subst hgh'
      rw [Function.update_self] at hy
      exact .inl ⟨rfl, hy⟩
    · rw [Function.update_of_ne hgh'] at hy
      exact .inr ⟨⟨hgh, hgh'⟩, hy⟩

theorem transfer_chain {h' g : β} (hB : m.Lists B) (hh : m.liveHead h = true)
    (hg : m.liveHead g = true) :
    ((m.link (.first h') (m.first h)).put (.first h) .null).Chain (.first g)
      (Function.update (Function.update B h' (B h)) h [] g) := by
  have hchain := hB.chain h hh
  by_cases hgh : g = h
  · subst hgh
    rw [Function.update_self, chain_nil]
    simp [content, put]
  · rw [Function.update_of_ne hgh]
    have hslot : (Slot.first h : Slot β α) ≠ .first g := fun heq => hgh (Slot.first.inj heq).symm
    by_cases hgh' : g = h'
    · subst hgh'
      rw [Function.update_self]
      have hmoved : (m.link (.first g) (m.first h)).Chain (.first g) (B h) :=
        hchain.link (by simp) (hB.nodup h)
      refine hmoved.congr ?_ fun y _ => ⟨?_, rfl⟩
      · show (if Slot.first h = (.first g : Slot β α) then _ else _) = _
        rw [if_neg hslot]
        rfl
      · simp [put]
    · rw [Function.update_of_ne hgh']
      have hslot' : (Slot.first h' : Slot β α) ≠ .first g := fun heq =>
        hgh' (Slot.first.inj heq).symm
      have hfirst : ∀ y ∈ B g, m.first h ≠ .addr y := by
        intro y hy heq
        rw [show m.first h = _ from hchain.content_eq] at heq
        cases hl : B h with
        | nil => simp [hl, headPtr] at heq
        | cons z l =>
            rw [hl] at heq
            have hzy : z = y := Ptr.addr.inj heq
            exact hgh (hB.apart g h y hy (by simp [hl, hzy]))
      refine (hB.chain g hg).congr ?_ fun y hy => ⟨by simp [put], ?_⟩
      · show (if Slot.first h = (.first g : Slot β α) then _ else
          if Slot.first h' = (.first g : Slot β α) then _ else _) = _
        rw [if_neg hslot, if_neg hslot']
        rfl
      · show (if m.first h = .addr y then _ else _) = _
        rw [if_neg (hfirst y hy)]

/-- The list of one head goes to another one, which loses what it had. -/
theorem transfer {h' : β} (hB : m.Lists B) (hh : m.liveHead h = true) (hh' : m.liveHead h' = true) :
    ((m.link (.first h') (m.first h)).put (.first h) .null).Lists
      (Function.update (Function.update B h' (B h)) h []) := by
  refine ⟨fun g hg => hB.transfer_chain hh hg, fun g y hy => ?_, fun g y hy => ?_, fun g => ?_,
    fun g₁ g₂ y h₁ h₂ => ?_⟩
  · rcases mem_transfer hy with ⟨-, hy⟩ | ⟨-, hy⟩
    · exact hB.live h y hy
    · exact hB.live g y hy
  · rcases mem_transfer hy with ⟨rfl, -⟩ | ⟨-, hy⟩
    · exact hh'
    · exact hB.head g y hy
  · by_cases hgh : g = h
    · subst hgh
      simp
    · rw [Function.update_of_ne hgh]
      by_cases hgh' : g = h'
      · subst hgh'
        rw [Function.update_self]
        exact hB.nodup h
      · rw [Function.update_of_ne hgh']
        exact hB.nodup g
  · rcases mem_transfer h₁ with ⟨rfl, hy₁⟩ | ⟨⟨hne₁, -⟩, hy₁⟩
    · rcases mem_transfer h₂ with ⟨rfl, -⟩ | ⟨⟨hne₂, -⟩, hy₂⟩
      · rfl
      · exact absurd (hB.apart g₂ h y hy₂ hy₁) hne₂
    · rcases mem_transfer h₂ with ⟨rfl, hy₂⟩ | ⟨-, hy₂⟩
      · exact absurd (hB.apart g₁ h y hy₁ hy₂) hne₁
      · exact hB.apart g₁ g₂ y hy₁ hy₂

end Lists

end SlotMem
end Heap
end Brlib
