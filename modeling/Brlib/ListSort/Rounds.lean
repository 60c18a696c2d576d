import Brlib.ListSort.MergeFinal
import Brlib.Merging.Stable

/-!
# The main loop of `list_sort`

The pending runs are chains linked through the `prev` fields of their first
cells, and `pending` points to the newest.  A round walks to the slot that the
trailing ones of the counter select, merges the two chains found there, and adds
the next element of the input in front.

The induction on the counter carries the slot: the runs behind a slot are
changed by the merge, and the field the slot stands for is the only field of an
earlier run that is written.
-/

namespace Brlib
namespace ListSort

open Heap Heap.Mem Merging

variable {α π : Type} [DecidableEq α] {cmp : ListCmpFunc π α}
variable {m m' : Mem α} {x : α} {l ns ps xs : List α} {runs : List (List α)}
variable {pending v : Ptr α} {tail : Slot α} {s : π}

section Slots

/-- What a slot for a `prev` field or the variable `pending` holds. -/
def Slot.readPrev (tail : Slot α) (pending : Ptr α) (m : Mem α) : Ptr α :=
  match tail with
  | .field (.addr t) => m.prev t
  | _ => pending

omit [DecidableEq α] in
theorem Slot.loadPrev_eq (hfree : tail.Free m xs) :
    tail.loadPrev pending m = some (tail.readPrev pending m) := by
  match tail, hfree with
  | .var, _ => rfl
  | .field (.addr t), hfree => exact getPrev_addr hfree.1

theorem Slot.storePrev_spec (hfree : tail.Free m xs) :
    ∃ pending' m', tail.storePrev v pending m = some (pending', m') ∧
      tail.readPrev pending' m' = v ∧ (tail ≠ .var → pending' = pending) ∧
      Touches m m' [] tail.cells := by
  match tail, hfree with
  | .var, _ => exact ⟨v, m, rfl, rfl, fun hne => absurd rfl hne, Touches.refl m _ _⟩
  | .field (.addr t), hfree =>
      have hstore : (Slot.field (.addr t)).storePrev v pending m =
          some (pending, m.putPrev t v) := by simp [Slot.storePrev, hfree.1]
      have hread : (m.putPrev t v).prev t = v := by simp
      have htouch : Touches m (m.putPrev t v) [] [t] :=
        (Touches.refl m [] [t]).putPrev List.mem_cons_self v
      exact ⟨pending, m.putPrev t v, hstore, hread, fun _ => rfl, htouch⟩

omit [DecidableEq α] in
theorem Slot.readPrev_frame (hfree : tail.Free m ps) (htouch : Touches m m' ns ps) :
    tail.readPrev pending m' = tail.readPrev pending m := by
  match tail, hfree with
  | .var, _ => rfl
  | .field (.addr t), hfree => exact htouch.prev t hfree.2

end Slots

section Round

/-- The merge at a slot installs the merged run in place of its two inputs. -/
theorem mergeAtTail_spec {fuel bits : Nat} {newer older : List α} (hpos : bits ≠ 0)
    (hchains : m.Chains (tail.readPrev pending m) (newer :: older :: runs))
    (hnodup : (newer :: older :: runs).flatten.Nodup)
    (hfree : tail.Free m (newer :: older :: runs).flatten)
    (hfuel : (newer :: older :: runs).flatten.length ≤ fuel) :
    ∃ pending' m', mergeAtTail cmp fuel bits tail pending s m =
        some (pending', (mergeLists cmp older newer s).priv, m') ∧
      m'.Chains (tail.readPrev pending' m') ((mergeLists cmp older newer s).out :: runs) ∧
      (tail ≠ .var → pending' = pending) ∧
      Touches m m' (newer :: older :: runs).flatten
        (tail.cells ++ (newer :: older :: runs).flatten) := by
  match newer, older, hchains with
  | a :: l, b :: k, ⟨ha, hb, hruns⟩ =>
      have hperm := mergeLists_perm cmp (b :: k) (a :: l) s
      have hpa : tail.readPrev pending m = .addr a := ha.1
      have hpb : m.prev a = .addr b := hb.1
      have hflat : ((a :: l) :: (b :: k) :: runs).flatten =
          (a :: l) ++ ((b :: k) ++ runs.flatten) := by simp
      rw [hflat] at hnodup hfree hfuel ⊢
      have hmem : ∀ y, y ∈ (mergeLists cmp (b :: k) (a :: l) s).out → y ∈ b :: k ++ a :: l :=
        fun y => hperm.mem_iff.mp
      have hsub : b :: k ++ a :: l ⊆ (a :: l) ++ ((b :: k) ++ runs.flatten) := by
        intro y hy
        simp only [List.mem_append] at hy ⊢
        tauto
      have hout : ∀ y ∈ runs.flatten, y ∉ b :: k ++ a :: l := by
        intro y hy hmem
        rcases List.mem_append.mp hmem with hmem | hmem
        · exact List.disjoint_of_nodup_append hnodup.of_append_right hmem hy
        · exact List.disjoint_of_nodup_append hnodup hmem (List.mem_append_right _ hy)
      -- the merge itself
      obtain ⟨p, m₁, hmerge, hchain, htouch⟩ : ∃ p m₁, merge cmp fuel s (.addr b) (.addr a) m =
          some (p, (mergeLists cmp (b :: k) (a :: l) s).priv, m₁) ∧
          m₁.Chain p (mergeLists cmp (b :: k) (a :: l) s).out ∧
          Touches m m₁ (b :: k ++ a :: l) [] := by
        refine merge_spec (hpb ▸ hb) (hpa ▸ ha) (by simp) (by simp) ?_ ?_
        · refine (@List.perm_append_comm _ (b :: k) (a :: l)).nodup_iff.mpr ?_
          rw [← List.append_assoc] at hnodup
          exact hnodup.of_append_left
        · simp only [List.length_append] at hfuel
          omega
      have hlive_b : m₁.live b = true := by rw [htouch.live, hb.2.1]
      have hprev_b : m₁.prev b = m.prev b := htouch.prev b List.not_mem_nil
      have hruns₁ : m₁.Chains (m.prev b) runs := hruns.frame htouch hout (by simp)
      cases hmerged : (mergeLists cmp (b :: k) (a :: l) s).out with
      | nil => exact absurd hmerged (mergeLists_out_ne_nil cmp (by simp) s)
      | cons z o =>
          rw [hmerged] at hchain hmem
          have hz : z ∈ b :: k ++ a :: l := hmem z List.mem_cons_self
          have hlive_z : m₁.live z = true := hchain.2.1
          -- `a->prev = b->prev`, where `a` is the merged run
          have htouch₂ : Touches m₁ (m₁.putPrev z (m.prev b)) [] [z] :=
            (Touches.refl _ _ _).putPrev List.mem_cons_self _
          have hfree₂ : tail.Free (m₁.putPrev z (m.prev b))
              ((a :: l) ++ ((b :: k) ++ runs.flatten)) :=
            hfree.mono (List.Subset.refl _) htouch.live
          obtain ⟨pending', m₃, hstore, hread, hpending, htouch₃⟩ :=
            @Slot.storePrev_spec _ _ _ _ pending p tail hfree₂
          have hkeep : ∀ y, y ∈ (a :: l) ++ ((b :: k) ++ runs.flatten) → y ∉ tail.cells :=
            fun y hy => Slot.not_mem_cells hfree hy
          have hchain₃ : m₃.Chain p (z :: o) :=
            (hchain.frame htouch₂ (by simp)).frame htouch₃ (by simp)
          have hprev₃ : m₃.prev z = m.prev b := by
            rw [htouch₃.prev z (hkeep z (hsub hz))]
            simp
          have hruns₃ : m₃.Chains (m.prev b) runs := by
            refine (hruns₁.frame htouch₂ (by simp) fun y hy hmem => ?_).frame htouch₃ (by simp)
              fun y hy => hkeep y (by simp [hy])
            exact hout y hy (List.mem_singleton.mp hmem ▸ hz)
          refine ⟨pending', m₃, ?_, ?_, hpending, ?_⟩
          · obtain rfl : p = .addr z := hchain.1
            simp [mergeAtTail, hpos, Slot.loadPrev_eq hfree, hpa, ha.2.1, hpb, hmerge, hlive_b,
              hprev_b, hlive_z, hstore]
          · rw [hread]
            exact ⟨hchain₃, hprev₃ ▸ hruns₃⟩
          · exact ((htouch.mono hsub (List.nil_subset _)).putPrev
              (List.mem_append_right _ (hsub hz)) _).trans
                (htouch₃.mono (List.nil_subset _) (List.subset_append_left _ _))

/-- A round, from any slot in front of the runs it is about. -/
theorem round_spec {fuel bits : Nat}
    (hchains : m.Chains (tail.readPrev pending m) runs) (hnodup : runs.flatten.Nodup)
    (hfree : tail.Free m runs.flatten) (hsize : Nat.size bits ≤ runs.length)
    (hfuel : runs.flatten.length ≤ fuel) :
    ∃ pending' m', ((skipOnes bits tail pending m).bind fun bt =>
        mergeAtTail cmp fuel bt.1 bt.2 pending s m) =
        some (pending', (mergeBits cmp bits runs s).2, m') ∧
      m'.Chains (tail.readPrev pending' m') (mergeBits cmp bits runs s).1 ∧
      (tail ≠ .var → pending' = pending) ∧
      Touches m m' runs.flatten (tail.cells ++ runs.flatten) := by
  induction bits using Nat.strongRecOn generalizing runs tail with
  | _ bits ih =>
      by_cases hodd : bits % 2 = 1
      · -- one more trailing one: skip the first run
        have hbits : Nat.size bits = Nat.size (bits / 2) + 1 := size_half (by omega)
        cases runs with
        | nil => simp at hsize; omega
        | cons run runs =>
            cases run with
            | nil => exact hchains.elim
            | cons a l =>
                obtain ⟨hchain, hruns⟩ := hchains
                have hp : tail.readPrev pending m = .addr a := hchain.1
                have hflat : ((a :: l) :: runs).flatten = (a :: l) ++ runs.flatten := rfl
                rw [hflat] at hnodup hfree hfuel ⊢
                have hdisj : ∀ y ∈ a :: l, y ∉ runs.flatten := fun y hy hmem =>
                  List.disjoint_of_nodup_append hnodup hy hmem
                have hfree' : (Slot.field (.addr a)).Free m runs.flatten :=
                  ⟨hchain.2.1, hdisj a List.mem_cons_self⟩
                obtain ⟨pending', m', hrun, hchains', hpending, htouch⟩ :=
                  @ih (bits / 2) (by omega) runs (.field (.addr a)) hruns hnodup.of_append_right
                    hfree' (by simp at hsize; omega) (by rw [List.length_append] at hfuel; omega)
                obtain rfl : pending' = pending := hpending (by simp)
                have hcells : (Slot.field (.addr a)).cells ++ runs.flatten ⊆
                    (a :: l) ++ runs.flatten := by
                  intro y hy
                  simp only [Slot.cells, List.mem_append, List.mem_cons, List.not_mem_nil,
                    or_false] at hy ⊢
                  tauto
                have hread : tail.readPrev pending' m' = .addr a := by
                  rw [Slot.readPrev_frame (hfree.mono hcells rfl) htouch, hp]
                refine ⟨pending', m', ?_, ?_, fun _ => rfl, ?_⟩
                · rw [mergeBits_odd hodd, skipOnes, if_pos hodd, Slot.loadPrev_eq hfree, hp]
                  exact hrun
                · rw [mergeBits_odd hodd, hread]
                  exact ⟨(hp ▸ hchain).frame htouch hdisj, hchains'⟩
                · refine htouch.mono (List.subset_append_right _ _) ?_
                  exact fun y hy => List.mem_append_right _ (hcells hy)
      · have hskip : skipOnes bits tail pending m = some (bits, tail) := by
          rw [skipOnes, if_neg hodd]
        -- no bit is left, and nothing is merged
        by_cases hzero : bits = 0
        · subst hzero
          refine ⟨pending, m, ?_, ?_, fun _ => rfl, Touches.refl m _ _⟩
          · rw [hskip, mergeBits_zero]
            simp [mergeAtTail]
          · rw [mergeBits_zero]
            exact hchains
        · have hbits : Nat.size bits = Nat.size (bits / 2) + 1 := size_half (by omega)
          have hhalf : 0 < Nat.size (bits / 2) := Nat.size_pos.mpr (by omega)
          cases runs with
          | nil => simp at hsize; omega
          | cons newer runs =>
              cases runs with
              | nil => simp at hsize; omega
              | cons older runs =>
                  rw [hskip, mergeBits_even hodd hzero]
                  exact mergeAtTail_spec hzero hchains hnodup hfree hfuel

end Round

section Loops

theorem enter_spec {h y : α} (hring : m.Ring h (x :: y :: l)) :
    ∃ last m', m.getNext (.addr h) = some (.addr x) ∧ m.getPrev (.addr h) = some (.addr last) ∧
      x ≠ last ∧ m.setNext (.addr last) .null = some m' ∧
      m'.Chain (.addr x) (x :: y :: l) ∧ Touches m m' (x :: y :: l) (x :: y :: l) := by
  have hnodup : (x :: y :: l).Nodup := (List.nodup_cons.mp hring.nodup).2
  have hlast : lastOr x (y :: l) ∈ y :: l := lastOr_mem y l
  have hne : x ≠ lastOr x (y :: l) := fun heq => (List.nodup_cons.mp hnodup).1 (heq ▸ hlast)
  have hlast_live : m.live (lastOr x (y :: l)) = true :=
    hring.live_mem (List.mem_cons_of_mem x hlast)
  have hpath : m.Path x (y :: l) := (path_append.mp hring.closed.2).1
  refine ⟨lastOr x (y :: l), m.putNext (lastOr x (y :: l)) .null, ?_, ?_, hne, ?_, ?_, ?_⟩
  · rw [getNext_addr hring.live_head, hring.next_head]
    rfl
  · rw [getPrev_addr hring.live_head, hring.prev_head]
    rfl
  · exact setNext_addr hlast_live _
  · exact hpath.chain hnodup fun z hz => hring.live_mem hz
  · exact (Touches.refl m _ _).putNext (List.mem_cons_of_mem x hlast) _

/-- The body of the main loop: the indicated merge, and one element moved from the input
list to `pending`.  Returns `list`, `pending` and `count`. -/
def mainRound (cmp : ListCmpFunc π α) (fuel : Nat) (list pending : Ptr α) (count : Nat) (priv : π)
    (m : Mem α) : Option (Ptr α × Ptr α × Nat × π × Mem α) := do
  let (bits, tail) ← skipOnes count .var pending m
  let (pending, priv, m) ← mergeAtTail cmp fuel bits tail pending priv m
  let m ← m.setPrev list pending
  let pending := list
  let list ← m.getNext list
  let m ← m.setNext pending .null
  some (list, pending, (count + 1) % 2 ^ 64, priv, m)

theorem mainLoop_succ (fuel rounds : Nat) (list pending : Ptr α) (count : Nat) (s : π) (m : Mem α) :
    mainLoop cmp fuel (rounds + 1) list pending count s m =
      (mainRound cmp fuel list pending count s m).bind fun (list, pending, count, s, m) =>
        if list = .null then some (pending, s, m)
        else mainLoop cmp fuel rounds list pending count s m := by
  simp only [mainLoop, mainRound, Option.bind_eq_bind, Option.bind_assoc, Option.bind_some]

/-- A round of the main loop does what a step of `pushAll` does. -/
theorem mainRound_spec {fuel count : Nat}
    (hlist : m.Chain (.addr x) (x :: l)) (hchains : m.Chains pending runs)
    (hnodup : (runs.flatten ++ x :: l).Nodup) (hsize : Nat.size count ≤ runs.length)
    (hfuel : runs.flatten.length ≤ fuel) :
    ∃ list' m', mainRound cmp fuel (.addr x) pending count s m =
        some (list', .addr x, (count + 1) % 2 ^ 64, (mergeBits cmp count runs s).2, m') ∧
      m'.Chain list' l ∧
      m'.Chains (.addr x) ([x] :: (mergeBits cmp count runs s).1) ∧
      Touches m m' (runs.flatten ++ x :: l) (runs.flatten ++ x :: l) := by
  have hperm : (mergeBits cmp count runs s).1.flatten.Perm runs.flatten :=
    (mergeBits_merges cmp count runs s).flatten_perm
  obtain ⟨p, m₁, hround, hchains₁, -, htouch₁⟩ := @round_spec _ _ _ cmp m runs pending .var s
    fuel count hchains hnodup.of_append_left trivial hsize hfuel
  have hdisj : ∀ y ∈ x :: l, y ∉ runs.flatten := fun y hy hmem =>
    List.disjoint_of_nodup_append hnodup hmem hy
  have hlist₁ : m₁.Chain (.addr x) (x :: l) := hlist.frame htouch₁ hdisj
  have hx_runs : x ∉ (mergeBits cmp count runs s).1.flatten := fun hmem =>
    hdisj x List.mem_cons_self (hperm.mem_iff.mp hmem)
  obtain ⟨hx_not, hnodup_l⟩ := List.nodup_cons.mp hnodup.of_append_right
  -- the element becomes a run of its own in front
  have htouch₂ : Touches m₁ ((m₁.putPrev x p).putNext x .null) [x] [x] :=
    ((Touches.refl m₁ [x] [x]).putPrev List.mem_cons_self _).putNext List.mem_cons_self _
  have hx_single : ∀ ys : List α, x ∉ ys → ∀ y ∈ ys, y ∉ [x] := fun ys hx y hy hmem =>
    hx (List.mem_singleton.mp hmem ▸ hy)
  refine ⟨m₁.next x, (m₁.putPrev x p).putNext x .null, ?_, ?_, ?_, ?_⟩
  · rw [mainRound]
    simp only [Option.bind_eq_bind, ← Option.bind_assoc, hround]
    simp [hlist₁.2.1]
  · exact hlist₁.2.2.frame htouch₂ (hx_single l hx_not)
  · refine ⟨⟨rfl, by simpa using hlist₁.2.1, by simp⟩, ?_⟩
    have hp : ((m₁.putPrev x p).putNext x .null).prev x = p := by simp
    rw [hp]
    exact hchains₁.frame htouch₂ (hx_single _ hx_runs) (hx_single _ hx_runs)
  · refine ((htouch₁.mono ?_ ?_).putPrev ?_ _).putNext ?_ _
    · exact List.subset_append_left _ _
    · exact List.subset_append_left _ _
    · simp
    · simp

/-- The main loop leaves the runs that `pushAll` leaves. -/
theorem mainLoop_spec {fuel rounds count : Nat}
    (hlist : m.Chain (.addr x) (x :: l)) (hchains : m.Chains pending runs)
    (hnodup : (runs.flatten ++ x :: l).Nodup) (hsize : Nat.size count ≤ runs.length)
    (hrounds : l.length < rounds) (hfuel : (runs.flatten ++ x :: l).length ≤ fuel) :
    ∃ p m', mainLoop cmp fuel rounds (.addr x) pending count s m =
        some (p, (pushAll cmp 64 count runs (x :: l) s).2, m') ∧
      m'.Chains p (pushAll cmp 64 count runs (x :: l) s).1 ∧
      Touches m m' (runs.flatten ++ x :: l) (runs.flatten ++ x :: l) := by
  induction rounds generalizing x l pending runs count s m with
  | zero => omega
  | succ rounds ih =>
      have hfuel' : runs.flatten.length ≤ fuel := by
        rw [List.length_append] at hfuel
        omega
      obtain ⟨list', m₁, hround, hl₁, hruns₁, htouch₁⟩ :=
        @mainRound_spec _ _ _ cmp m x l runs pending s fuel count hlist hchains hnodup hsize hfuel'
      rw [pushAll, mainLoop_succ, hround, Option.bind_some]
      cases l with
      | nil =>
          obtain rfl : list' = .null := hl₁
          exact ⟨.addr x, m₁, if_pos rfl, hruns₁, htouch₁⟩
      | cons y l =>
          obtain rfl : list' = .addr y := hl₁.1
          have hperm := push_perm cmp count runs x (y :: l) s
          obtain ⟨p', m', hloop, hchains', htouch'⟩ := ih hl₁ hruns₁ (hperm.nodup_iff.mpr hnodup)
            (size_le_round 64 hsize x s) (by simpa using hrounds) (hperm.length_eq ▸ hfuel)
          refine ⟨p', m', ?_, hchains', htouch₁.trans (htouch'.mono hperm.subset hperm.subset)⟩
          exact (if_neg (by simp)).trans hloop

theorem mergeNext_spec {fuel : Nat} {newer : List α} {a : α} {p : Ptr α}
    (hnewer : m.Chain p newer) (hne : newer ≠ []) (hchains : m.Chains (.addr a) ((a :: l) :: runs))
    (hnodup : (newer ++ ((a :: l) :: runs).flatten).Nodup)
    (hfuel : (newer ++ ((a :: l) :: runs).flatten).length ≤ fuel) :
    ∃ p' m', merge cmp fuel s (.addr a) p m =
        some (p', (mergeLists cmp (a :: l) newer s).priv, m') ∧
      m'.Chain p' (mergeLists cmp (a :: l) newer s).out ∧
      m'.Chains (m.prev a) runs ∧ Touches m m' (newer ++ ((a :: l) :: runs).flatten) [] := by
  obtain ⟨holder, hruns⟩ := hchains
  have hflat : newer ++ ((a :: l) :: runs).flatten = newer ++ (a :: l) ++ runs.flatten := by simp
  rw [hflat] at hnodup hfuel ⊢
  have hnodup' : (a :: l ++ newer).Nodup :=
    (@List.perm_append_comm _ (a :: l) newer).nodup_iff.mpr hnodup.of_append_left
  obtain ⟨p', m', hmerge, hchain, htouch⟩ := @merge_spec _ _ _ cmp m _ _ s fuel _ _
    holder hnewer (by simp) hne hnodup' (by simp at hfuel ⊢; omega)
  refine ⟨p', m', hmerge, hchain, ?_, htouch.mono ?_ (List.nil_subset _)⟩
  · refine hruns.frame htouch (fun y hy hmem => ?_) (by simp)
    refine List.disjoint_of_nodup_append hnodup ?_ hy
    exact (@List.perm_append_comm _ (a :: l) newer).mem_iff.mp hmem
  · intro y hy
    simp only [List.mem_append] at hy ⊢
    tauto

omit [DecidableEq α] in
theorem mergeNext_perm (cmp : ListCmpFunc π α) (newer older : List α) (runs : List (List α))
    (s : π) :
    ((mergeLists cmp older newer s).out ++ runs.flatten).Perm
      (newer ++ (older :: runs).flatten) := by
  have hflat : newer ++ (older :: runs).flatten = newer ++ older ++ runs.flatten := by simp
  rw [hflat]
  exact ((mergeLists_perm cmp older newer s).trans List.perm_append_comm).append_right _

theorem mergePending_spec {fuel rounds : Nat} {newer older : List α} {p q : Ptr α}
    (hnewer : m.Chain p newer) (hne : newer ≠ []) (hchains : m.Chains q (older :: runs))
    (hnodup : (newer ++ (older :: runs).flatten).Nodup) (hrounds : runs.length < rounds)
    (hfuel : (newer ++ (older :: runs).flatten).length ≤ fuel) :
    ∃ p' q' m', mergePending cmp fuel rounds p q s m =
        some (p', q', (collapse cmp newer older runs s).2.2, m') ∧
      m'.Chain p' (collapse cmp newer older runs s).2.1 ∧
      m'.Chain q' (collapse cmp newer older runs s).1 ∧
      Touches m m' (newer ++ (older :: runs).flatten) [] := by
  induction rounds generalizing newer older runs p q s m with
  | zero => omega
  | succ rounds ih =>
      match older, hchains with
      | a :: l, ⟨holder, hruns⟩ =>
          obtain rfl : q = .addr a := holder.1
          have ha : m.live a = true := holder.2.1
          match runs, hruns with
          | [], hnull =>
              have hnull : m.prev a = .null := hnull
              refine ⟨p, .addr a, m, ?_, hnewer, holder, Touches.refl m _ _⟩
              simp [mergePending, ha, hnull, collapse]
          | (b :: k) :: runs, ⟨hnext, hruns⟩ =>
              have hb : m.prev a = .addr b := hnext.1
              obtain ⟨p₁, m₁, hmerge, hchain₁, hchains₁, htouch₁⟩ :=
                @mergeNext_spec _ _ _ cmp m l ((b :: k) :: runs) s fuel newer a p hnewer hne
                  ⟨holder, hnext, hruns⟩ hnodup hfuel
              have hperm := mergeNext_perm cmp newer (a :: l) ((b :: k) :: runs) s
              obtain ⟨p', q', m', hloop, hp', hq', htouch'⟩ := ih hchain₁
                (mergeLists_out_ne_nil cmp (by simp) s) hchains₁ (hperm.nodup_iff.mpr hnodup)
                (by simpa using hrounds) (hperm.length_eq ▸ hfuel)
              rw [hb] at hloop
              refine ⟨p', q', m', ?_, hp', hq', ?_⟩
              · simp [mergePending, ha, hb, hmerge, hloop, collapse]
              · exact htouch₁.trans (htouch'.mono hperm.subset (List.nil_subset _))

end Loops

end ListSort
end Brlib
