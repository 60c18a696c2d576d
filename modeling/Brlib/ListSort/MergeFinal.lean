import Brlib.ListSort.Merge

/-!
# The final merge

`merge_final` links the merged cells in both directions while it merges.  The
first loop stops when one chain is used up; the second one only restores the
`prev` fields of the other, and makes a call of the comparison on every 256th of
its cells whose result nobody looks at.
-/

namespace Brlib
namespace ListSort

open Heap Heap.Mem Merging

variable {α π : Type} [DecidableEq α] {cmp : ListCmpFunc π α}
variable {m m' : Mem α} {a b h t x : α} {l k : List α} {s : π}

omit [DecidableEq α] in
theorem callOnWrap_addr {count : Nat} (hb : m.live b = true) :
    callOnWrap cmp count s (.addr b) m =
      some (if count = 0 then (cmp s b b).2 else s) := by
  rw [callOnWrap, callCmp_addr hb hb]
  split <;> rfl

theorem remainderLoop_spec {fuel count : Nat} (hchain : m.Chain (.addr b) (b :: k))
    (hnodup : (b :: k).Nodup) (hfuel : k.length < fuel) :
    ∃ m', remainderLoop cmp fuel count (.addr t) (.addr b) s m =
        some (.addr (lastOr b k), ticks cmp 8 count (b :: k) s, m') ∧
      m'.Path b k ∧ m'.prev b = .addr t ∧ Touches m m' [] (b :: k) := by
  induction fuel generalizing b k t count s m with
  | zero => omega
  | succ fuel ih =>
      have hb : m.live b = true := hchain.2.1
      have htouch : Touches m (m.putPrev b (.addr t)) [] [b] :=
        (Touches.refl m [] [b]).putPrev List.mem_cons_self _
      have hrest : (m.putPrev b (.addr t)).Chain (m.next b) k :=
        hchain.2.2.frame htouch (by simp)
      cases k with
      | nil =>
          have hnull : m.next b = .null := hrest
          refine ⟨m.putPrev b (.addr t), ?_, path_nil, by simp, htouch⟩
          simp [remainderLoop, callOnWrap_addr hb, hb, hnull, ticks]
      | cons x k =>
          have hx : m.next b = .addr x := hrest.1
          obtain ⟨hb_not, hnodup'⟩ := List.nodup_cons.mp hnodup
          rw [hx] at hrest
          obtain ⟨m', hloop, hpath, hprev, hrun⟩ :=
            @ih (m.putPrev b (.addr t)) x b k
              (if (count + 1) % 2 ^ 8 = 0 then (cmp s b b).2 else s)
              ((count + 1) % 2 ^ 8) hrest hnodup' (by simp at hfuel; omega)
          have hnext : m'.next b = .addr x := by
            rw [hrun.next b (by simp), putPrev_next, hx]
          have hkeep : m'.prev b = .addr t := by
            rw [hrun.prev b hb_not]
            simp
          refine ⟨m', ?_, ⟨⟨hnext, hprev⟩, hpath⟩, hkeep, ?_⟩
          · rw [remainderLoop, ticks, lastOr_cons, ← hloop]
            simp [callOnWrap_addr hb, hb, hx]
          · refine (htouch.mono (List.Subset.refl _) ?_).trans (hrun.mono (List.Subset.refl _) ?_)
            · simp
            · simp

theorem finishLinking_spec {fuel : Nat} (ht : m.live t = true) (hh : m.live h = true)
    (hchain : m.Chain (.addr b) (b :: k)) (hnodup : (b :: k).Nodup)
    (ht_out : t ∉ b :: k) (hh_out : h ∉ b :: k) (hfuel : k.length < fuel) :
    ∃ m', finishLinking cmp fuel (.addr h) (.addr t) (.addr b) s m =
        some (ticks cmp 8 0 (b :: k) s, m') ∧
      m'.Path t (b :: k ++ [h]) ∧ Touches m m' (t :: b :: k) (b :: k ++ [h]) := by
  have htouch : Touches m (m.putNext t (.addr b)) [t] [] :=
    (Touches.refl m [t] []).putNext List.mem_cons_self _
  have hchain₁ : (m.putNext t (.addr b)).Chain (.addr b) (b :: k) :=
    hchain.frame htouch fun y hy hmem => ht_out (List.mem_singleton.mp hmem ▸ hy)
  obtain ⟨m₁, hloop, hpath, hprev, hrun⟩ :=
    @remainderLoop_spec _ _ _ cmp _ b t k s fuel 0 hchain₁ hnodup hfuel
  have hlast : lastOr b k ∈ b :: k := lastOr_mem b k
  have hlive : m₁.live = m.live := hrun.live.trans htouch.live
  have hlast_live : m₁.live (lastOr b k) = true := by
    rw [hlive]
    exact hchain.live _ hlast
  -- the last two stores link the last cell and the head
  refine ⟨m₁.link (lastOr b k) h, ?_, ?_, ?_⟩
  · have hh₁ : m₁.live h = true := by rw [hlive, hh]
    have hlink : (m₁.putNext (lastOr b k) (.addr h)).setPrev (.addr h) (.addr (lastOr b k)) =
        some (m₁.link (lastOr b k) h) := setPrev_addr (by simpa using hh₁) _
    simp [finishLinking, ht, hloop, hlast_live, hlink]
  · have hne : t ≠ lastOr b k := fun heq => ht_out (heq ▸ hlast)
    have hne' : b ≠ h := fun heq => hh_out (by simp [heq])
    have hnext : m₁.next t = .addr b := by
      rw [hrun.next t (by simp)]
      simp
    have hpath' : (m₁.link (lastOr b k) h).Path b (k ++ [h]) :=
      hpath.link_last hnodup fun hmem => hh_out (List.mem_cons_of_mem b hmem)
    have hlink : (m₁.link (lastOr b k) h).Link t b :=
      Link.link_of_ne ⟨hnext, hprev⟩ hne hne'
    exact ⟨hlink, hpath'⟩
  · have hrun' : Touches m m₁ (t :: b :: k) (b :: k ++ [h]) := by
      refine (htouch.mono ?_ ?_).trans (hrun.mono ?_ ?_)
      · simp
      · simp
      · simp
      · exact List.subset_append_left _ _
    exact (hrun'.putNext (List.mem_cons_of_mem t hlast) _).putPrev (by simp) _

theorem touches_link (m : Mem α) (t x : α) : Touches m (m.link t x) [t] [x] :=
  ((Touches.refl m [t] [x]).putNext List.mem_cons_self _).putPrev List.mem_cons_self _

theorem path_of_taken {all rest out : List α} (ht_out : t ∉ all) (hh_out : h ∉ all)
    (hx : x ∉ rest) (hsub : x :: rest ⊆ all)
    (hpath : m'.Path x (out ++ [h])) (hrun : Touches (m.link t x) m' (x :: rest) (rest ++ [h])) :
    m'.Path t (x :: out ++ [h]) ∧ Touches m m' (t :: all) (all ++ [h]) := by
  have hx_all : x ∈ all := hsub List.mem_cons_self
  have hrest : rest ⊆ all := fun y hy => hsub (List.mem_cons_of_mem x hy)
  constructor
  · have hnext : m'.next t = .addr x := by
      rw [hrun.next t]
      · simp
      · exact fun hmem => ht_out (hsub hmem)
    have hprev : m'.prev x = .addr t := by
      rw [hrun.prev x]
      · simp
      · intro hmem
        rcases List.mem_append.mp hmem with hmem | hmem
        · exact hx hmem
        · exact hh_out (List.mem_singleton.mp hmem ▸ hx_all)
    exact ⟨⟨hnext, hprev⟩, hpath⟩
  · have hlink : Touches m (m.link t x) (t :: all) (all ++ [h]) :=
      (touches_link m t x).mono (by simp) (by simp [hx_all])
    refine hlink.trans (hrun.mono ?_ ?_)
    · exact fun y hy => List.mem_cons_of_mem t (hsub hy)
    · exact List.append_subset.mpr
        ⟨fun y hy => List.mem_append_left _ (hrest hy), List.subset_append_right _ _⟩

theorem mergeFinalLoop_spec {fuel n : Nat} (ht : m.live t = true) (hh : m.live h = true)
    (ha : m.Chain (.addr a) (a :: l)) (hb : m.Chain (.addr b) (b :: k))
    (hnodup : (a :: l ++ b :: k).Nodup) (ht_out : t ∉ a :: l ++ b :: k)
    (hh_out : h ∉ a :: l ++ b :: k) (hfuel : l.length + k.length < fuel)
    (hn : l.length + k.length < n) :
    ∃ m', (do
        let (tail, b, priv, m) ← mergeFinalLoop cmp fuel (.addr t) (.addr a) (.addr b) s m
        finishLinking cmp n (.addr h) tail b priv m) =
        some (ticks cmp 8 0 (mergeLists cmp (a :: l) (b :: k) s).rest
          (mergeLists cmp (a :: l) (b :: k) s).priv, m') ∧
      m'.Path t ((mergeLists cmp (a :: l) (b :: k) s).out ++ [h]) ∧
      Touches m m' (t :: (a :: l ++ b :: k)) (a :: l ++ b :: k ++ [h]) := by
  induction fuel generalizing a l b k t s m with
  | zero => omega
  | succ fuel ih =>
      have hcall : callCmp cmp s (.addr a) (.addr b) m = some (cmp s a b) :=
        callCmp_addr ha.2.1 hb.2.1
      have ha_ne : t ≠ a := fun heq => ht_out (by simp [heq])
      have hb_ne : t ≠ b := fun heq => ht_out (by simp [heq])
      have hkeep : ∀ y ∈ a :: l ++ b :: k, y ∉ [t] := fun y hy hmem =>
        ht_out (List.mem_singleton.mp hmem ▸ hy)
      by_cases hle : (cmp s a b).1 ≤ 0
      · -- the cell `a` is taken
        have hlink : (m.putNext t (.addr a)).putPrev a (.addr t) = m.link t a := rfl
        have htaken : Taken m (m.link t a) a l (.addr b) (b :: k) :=
          taken_of_touches (touches_link m t a) ha hb hkeep hnodup
        have hnull := htaken.rest_chain.eq_null_iff
        obtain ⟨ha_not, hnodup'⟩ := List.nodup_cons.mp hnodup
        have hh_not : h ∉ l ++ b :: k := fun hmem => hh_out (List.mem_cons_of_mem a hmem)
        rw [mergeLists_of_le hle]
        cases l with
        | nil =>
            have hnext : m.next a = .null := hnull.mpr rfl
            -- its chain is used up: only the `prev` fields of the other are left
            obtain ⟨m', hfinish, hpath, hrun⟩ := @finishLinking_spec _ _ _ cmp _ b h a k
              (cmp s a b).2 n htaken.live hh htaken.other_chain hnodup' ha_not hh_not
              (by simp at hn; omega)
            have hsub : a :: (b :: k) ⊆ [a] ++ b :: k := List.Subset.refl _
            obtain ⟨hres, hres'⟩ :=
              path_of_taken ht_out hh_out ha_not hsub hpath hrun
            refine ⟨m', ?_, by simpa using hres, hres'⟩
            simp [mergeFinalLoop, hcall, hle, ht, hlink, ha.2.1, hnext, Ne.symm ha_ne, hfinish]
        | cons x l =>
            have hx : m.next a = .addr x := htaken.rest_chain.1
            have hl₁ := htaken.rest_chain
            rw [hx] at hl₁
            obtain ⟨m', hloop, hpath, hrun⟩ := ih htaken.live hh hl₁ htaken.other_chain hnodup'
              ha_not hh_not (by simp at hfuel; omega) (by simp at hn; omega)
            have hsub : a :: (x :: l ++ b :: k) ⊆ a :: x :: l ++ b :: k := List.Subset.refl _
            obtain ⟨hres, hres'⟩ :=
              path_of_taken ht_out hh_out ha_not hsub hpath hrun
            refine ⟨m', ?_, hres, hres'⟩
            simp only [Option.bind_eq_bind] at hloop
            simp [mergeFinalLoop, hcall, hle, ht, hlink, ha.2.1, hx, Ne.symm ha_ne, hloop]
      · -- the cell `b` is taken
        have hlink : (m.putNext t (.addr b)).putPrev b (.addr t) = m.link t b := rfl
        have hperm : (a :: l ++ b :: k).Perm (b :: (a :: l ++ k)) := List.perm_middle
        have hperm' : (b :: (k ++ a :: l)).Perm (a :: l ++ b :: k) :=
          @List.perm_append_comm _ (b :: k) (a :: l)
        have htaken : Taken m (m.link t b) b k (.addr a) (a :: l) :=
          taken_of_touches (touches_link m t b) hb ha
            (fun y hy => hkeep y (hperm'.mem_iff.mp hy)) (hperm'.nodup_iff.mpr hnodup)
        have hnull := htaken.rest_chain.eq_null_iff
        obtain ⟨hb_not, hnodup'⟩ := List.nodup_cons.mp (hperm.nodup_iff.mp hnodup)
        have hh_not : h ∉ a :: l ++ k := fun hmem =>
          hh_out (hperm.mem_iff.mpr (List.mem_cons_of_mem b hmem))
        rw [mergeLists_of_gt hle]
        cases k with
        | nil =>
            have hnext : m.next b = .null := hnull.mpr rfl
            rw [List.append_nil] at hb_not hnodup' hh_not hperm
            obtain ⟨m', hfinish, hpath, hrun⟩ := @finishLinking_spec _ _ _ cmp _ a h b l
              (cmp s a b).2 n htaken.live hh htaken.other_chain hnodup' hb_not hh_not
              (by simp at hn; omega)
            obtain ⟨hres, hres'⟩ :=
              path_of_taken ht_out hh_out hb_not hperm.symm.subset hpath hrun
            refine ⟨m', ?_, by simpa using hres, hres'⟩
            simp [mergeFinalLoop, hcall, hle, ht, hlink, hb.2.1, hnext, Ne.symm hb_ne, hfinish]
        | cons x k =>
            have hx : m.next b = .addr x := htaken.rest_chain.1
            have hk₁ := htaken.rest_chain
            rw [hx] at hk₁
            obtain ⟨m', hloop, hpath, hrun⟩ := ih htaken.live hh htaken.other_chain hk₁ hnodup'
              hb_not hh_not (by simp at hfuel; omega) (by simp at hn; omega)
            obtain ⟨hres, hres'⟩ :=
              path_of_taken ht_out hh_out hb_not hperm.symm.subset hpath hrun
            refine ⟨m', ?_, hres, hres'⟩
            simp only [Option.bind_eq_bind] at hloop
            simp [mergeFinalLoop, hcall, hle, ht, hlink, hb.2.1, hx, Ne.symm hb_ne, hloop]

/-- `merge_final` leaves the merged sequence as a ring around the head. -/
theorem mergeFinal_spec {fuel : Nat} {p q : Ptr α} (hh : m.live h = true) (hl : m.Chain p l)
    (hk : m.Chain q k) (hl_ne : l ≠ []) (hk_ne : k ≠ []) (hnodup : (h :: (l ++ k)).Nodup)
    (hfuel : l.length + k.length ≤ fuel) :
    ∃ m', mergeFinal cmp fuel s (.addr h) p q m =
        some (ticks cmp 8 0 (mergeLists cmp l k s).rest (mergeLists cmp l k s).priv, m') ∧
      m'.Ring h (mergeLists cmp l k s).out ∧ SameOutside m m' (h :: (l ++ k)) := by
  cases l with
  | nil => exact absurd rfl hl_ne
  | cons a l =>
      cases k with
      | nil => exact absurd rfl hk_ne
      | cons b k =>
          obtain rfl : p = .addr a := hl.1
          obtain rfl : q = .addr b := hk.1
          obtain ⟨hh_out, hnodup'⟩ := List.nodup_cons.mp hnodup
          have hfuel' : l.length + k.length < fuel := by
            simp only [List.length_cons] at hfuel
            omega
          obtain ⟨m', hrun, hpath, htouch⟩ := @mergeFinalLoop_spec _ _ _ cmp m a b h h l k s
            fuel fuel hh hh hl hk hnodup' hh_out hh_out hfuel' hfuel'
          have hperm := mergeLists_perm cmp (a :: l) (b :: k) s
          have hsame : SameOutside m m' (h :: (a :: l ++ b :: k)) := by
            refine htouch.sameOutside (List.Subset.refl _) (List.append_subset.mpr ⟨?_, ?_⟩)
            · exact List.subset_cons_self _ _
            · simp
          refine ⟨m', hrun, ⟨hpath, ?_, fun y hy => ?_⟩, hsame⟩
          · exact (hperm.cons h).nodup_iff.mpr hnodup
          · rw [hsame.live]
            rcases List.mem_cons.mp ((hperm.cons h).mem_iff.mp hy) with rfl | hy
            · exact hh
            · rcases List.mem_append.mp hy with hy | hy
              · exact hl.live y hy
              · exact hk.live y hy

end ListSort
end Brlib
