import Brlib.Merging.Stable

/-!
# Which pairs a sort compares

Two comparisons that give the same sign on every pair in the order of age drive
the sort to the same result, whatever they say about other pairs: the sort never
asks.  `Agree` keeps the two private states in step by a relation of the
caller's choice, and `mergeAll_sim` runs the two sorts side by side.

A comparison that writes down its calls is one instance (`logged`): the list of
calls then holds only pairs in the order of age.  The calls that compare an
element with itself come after the last merge, and are as rare as their counter
makes them (`ticks_logged`).
-/

namespace Brlib
namespace Merging

variable {α π ρ : Type*}

/-- On pairs in the order of age, from related states, two comparisons have the
same sign and go to related states. -/
def Agree (before : α → α → Prop) (R : π → ρ → Prop) (cmp : π → α → α → Int × π)
    (cmp' : ρ → α → α → Int × ρ) : Prop :=
  ∀ s s' a b, R s s' → before a b →
    ((cmp s a b).1 ≤ 0 ↔ (cmp' s' a b).1 ≤ 0) ∧ R (cmp s a b).2 (cmp' s' a b).2

section Simulation

variable {before : α → α → Prop} {R : π → ρ → Prop}
variable {cmp : π → α → α → Int × π} {cmp' : ρ → α → α → Int × ρ}

theorem mergeLists_sim (hagree : Agree before R cmp cmp') {l k : List α} {s : π} {s' : ρ}
    (haged : ∀ a ∈ l, ∀ b ∈ k, before a b) (hR : R s s') :
    (mergeLists cmp l k s).out = (mergeLists cmp' l k s').out ∧
      (mergeLists cmp l k s).rest = (mergeLists cmp' l k s').rest ∧
      R (mergeLists cmp l k s).priv (mergeLists cmp' l k s').priv := by
  induction l, k, s using mergeLists.induct cmp generalizing s' with
  | case1 k s => simpa using hR
  | case2 a l s => simpa using hR
  | case3 a l b k s hab ih =>
      obtain ⟨hsign, hnext⟩ := hagree s s' a b hR (haged a (by simp) b (by simp))
      obtain ⟨hout, hrest, hpriv⟩ :=
        ih (fun x hx => haged x (List.mem_cons_of_mem a hx)) hnext
      rw [mergeLists_of_le hab, mergeLists_of_le (hsign.mp hab)]
      exact ⟨congrArg (a :: ·) hout, hrest, hpriv⟩
  | case4 a l b k s hab ih =>
      obtain ⟨hsign, hnext⟩ := hagree s s' a b hR (haged a (by simp) b (by simp))
      obtain ⟨hout, hrest, hpriv⟩ :=
        ih (fun x hx y hy => haged x hx y (List.mem_cons_of_mem b hy)) hnext
      rw [mergeLists_of_gt hab, mergeLists_of_gt fun h => hab (hsign.mpr h)]
      exact ⟨congrArg (b :: ·) hout, hrest, hpriv⟩

theorem mergeBits_sim (hagree : Agree before R cmp cmp') (bits : Nat) {runs : List (List α)}
    {s : π} {s' : ρ} (haged : Aged before runs) (hR : R s s') :
    (mergeBits cmp bits runs s).1 = (mergeBits cmp' bits runs s').1 ∧
      R (mergeBits cmp bits runs s).2 (mergeBits cmp' bits runs s').2 := by
  induction bits using Nat.strongRecOn generalizing runs with
  | _ bits ih =>
      rw [mergeBits.eq_def, mergeBits.eq_def cmp']
      split
      · cases runs with
        | nil => exact ⟨rfl, hR⟩
        | cons run runs =>
            obtain ⟨hruns, hpriv⟩ := ih (bits / 2) (by omega) haged.2
            exact ⟨congrArg (run :: ·) hruns, hpriv⟩
      · split
        · exact ⟨rfl, hR⟩
        · match runs with
          | [] => exact ⟨rfl, hR⟩
          | [run] => exact ⟨rfl, hR⟩
          | newer :: older :: runs =>
              have hpair : ∀ a ∈ older, ∀ b ∈ newer, before a b :=
                fun a ha b hb => haged.1 a (by simp [ha]) b hb
              obtain ⟨hout, -, hpriv⟩ := mergeLists_sim hagree hpair hR
              exact ⟨congrArg (· :: runs) hout, hpriv⟩

theorem pushAll_sim (hagree : Agree before R cmp cmp') (w count : Nat) {runs : List (List α)}
    {l : List α} {s : π} {s' : ρ} (haged : Aged before runs)
    (hnext : ∀ a ∈ runs.flatten, ∀ b ∈ l, before a b) (hl : l.Pairwise before) (hR : R s s') :
    (pushAll cmp w count runs l s).1 = (pushAll cmp' w count runs l s').1 ∧
      R (pushAll cmp w count runs l s).2 (pushAll cmp' w count runs l s').2 := by
  induction l generalizing count runs s s' with
  | nil => exact ⟨rfl, hR⟩
  | cons x l ih =>
      obtain ⟨hx, hl⟩ := List.pairwise_cons.mp hl
      obtain ⟨hruns, hpriv⟩ := mergeBits_sim hagree count haged hR
      have hmerges := mergeBits_merges cmp count runs s
      have hmem : ∀ a, a ∈ (mergeBits cmp count runs s).1.flatten → a ∈ runs.flatten :=
        fun a => hmerges.flatten_perm.mem_iff.mp
      rw [pushAll, pushAll, ← hruns]
      refine ih _ ⟨fun a ha b hb => ?_, hmerges.aged haged⟩ (fun a ha b hb => ?_) hl hpriv
      · rw [List.mem_singleton.mp hb]
        exact hnext a (hmem a ha) x List.mem_cons_self
      · rcases List.mem_cons.mp (List.flatten_cons ▸ ha) with rfl | ha
        · exact hx b hb
        · exact hnext a (hmem a ha) b (List.mem_cons_of_mem x hb)

theorem collapse_sim (hagree : Agree before R cmp cmp') {newer older : List α}
    {runs : List (List α)} {s : π} {s' : ρ} (haged : Aged before (newer :: older :: runs))
    (hR : R s s') :
    (collapse cmp newer older runs s).1 = (collapse cmp' newer older runs s').1 ∧
      (collapse cmp newer older runs s).2.1 = (collapse cmp' newer older runs s').2.1 ∧
      R (collapse cmp newer older runs s).2.2 (collapse cmp' newer older runs s').2.2 := by
  induction runs generalizing newer older s s' with
  | nil => exact ⟨rfl, rfl, hR⟩
  | cons next runs ih =>
      have hpair : ∀ a ∈ older, ∀ b ∈ newer, before a b :=
        fun a ha b hb => haged.1 a (by simp [ha]) b hb
      obtain ⟨hout, -, hpriv⟩ := mergeLists_sim hagree hpair hR
      rw [collapse, collapse, ← hout]
      exact ih ((Merge.here newer older (next :: runs) s).aged haged) hpriv

/-- Comparisons that agree on pairs in the order of age sort alike. -/
theorem mergeAll_sim (hagree : Agree before R cmp cmp') (w : Nat) {l : List α} {s : π} {s' : ρ}
    (hl : l.Pairwise before) (hR : R s s') :
    (mergeAll cmp w l s).out = (mergeAll cmp' w l s').out ∧
      (mergeAll cmp w l s).rest = (mergeAll cmp' w l s').rest ∧
      R (mergeAll cmp w l s).priv (mergeAll cmp' w l s').priv := by
  have haged : Aged before (pushAll cmp w 0 [] l s).1 := pushAll_aged w 0 s trivial (by simp) hl
  obtain ⟨hruns, hpriv⟩ := pushAll_sim hagree w 0 (show Aged before [] from trivial) (by simp) hl hR
  unfold mergeAll
  generalize pushAll cmp w 0 [] l s = r at haged hruns hpriv ⊢
  generalize pushAll cmp' w 0 [] l s' = r' at hruns hpriv ⊢
  obtain ⟨runs, p⟩ := r
  obtain ⟨runs', p'⟩ := r'
  obtain rfl : runs = runs' := hruns
  match runs, haged with
  | [], _ => exact ⟨rfl, rfl, hpriv⟩
  | [run], _ => exact ⟨rfl, rfl, hpriv⟩
  | newer :: older :: runs, haged =>
      obtain ⟨holder, hnewer, hpriv'⟩ := collapse_sim hagree haged hpriv
      have hmerged := (collapse_merges cmp newer older runs p).aged haged
      dsimp only at holder hnewer hpriv' ⊢
      rw [← holder, ← hnewer]
      exact mergeLists_sim hagree
        (fun a ha b hb => hmerged.1 a (by simpa using ha) b hb) hpriv'

end Simulation

section Log

variable (cmp : π → α → α → Int × π)

/-- The comparison that also writes down its calls, the last one at the end. -/
def logged : π × List (α × α) → α → α → Int × (π × List (α × α))
  | (s, calls), a, b => ((cmp s a b).1, ((cmp s a b).2, calls ++ [(a, b)]))

variable {cmp} {before : α → α → Prop}

theorem logged_agree (cmp : π → α → α → Int × π) :
    Agree before (fun s (s' : π × List (α × α)) => s = s'.1 ∧ ∀ p ∈ s'.2, before p.1 p.2)
      cmp (logged cmp) := by
  rintro s ⟨s', calls⟩ a b ⟨rfl, hcalls⟩ hab
  refine ⟨Iff.rfl, rfl, fun p hp => ?_⟩
  rcases List.mem_append.mp hp with hp | hp
  · exact hcalls p hp
  · rw [List.mem_singleton.mp hp]
    exact hab

/-- A sort that writes down its calls gives the same result, and before the
calls at its end it has only compared pairs in the order of age. -/
theorem mergeAll_logged (w : Nat) {l : List α} (s : π) (hl : l.Pairwise before) :
    (mergeAll (logged cmp) w l (s, [])).out = (mergeAll cmp w l s).out ∧
      (mergeAll (logged cmp) w l (s, [])).rest = (mergeAll cmp w l s).rest ∧
      (mergeAll (logged cmp) w l (s, [])).priv.1 = (mergeAll cmp w l s).priv ∧
      ∀ p ∈ (mergeAll (logged cmp) w l (s, [])).priv.2, before p.1 p.2 := by
  have hnone : s = (s, ([] : List (α × α))).1 ∧ ∀ p ∈ (s, ([] : List (α × α))).2,
      before p.1 p.2 := ⟨rfl, by simp⟩
  obtain ⟨hout, hrest, hpriv, hcalls⟩ := mergeAll_sim (logged_agree cmp) w hl hnone
  exact ⟨hout.symm, hrest.symm, hpriv.symm, hcalls⟩

/-- The calls at the end compare an element with itself, and there is at most
one for every `2 ^ t` elements. -/
theorem ticks_logged (cmp : π → α → α → Int × π) (t count : Nat) (l : List α) (s : π)
    (calls : List (α × α)) :
    ∃ diag : List (α × α), ticks (logged cmp) t count l (s, calls) =
        (ticks cmp t count l s, calls ++ diag) ∧
      (∀ p ∈ diag, p.1 = p.2 ∧ p.1 ∈ l) ∧
      (count < 2 ^ t → 2 ^ t * diag.length ≤ count + l.length) := by
  induction l generalizing count s calls with
  | nil => exact ⟨[], by simp [ticks], by simp, by simp⟩
  | cons b l ih =>
      by_cases hwrap : (count + 1) % 2 ^ t = 0
      · obtain ⟨diag, heq, hdiag, hlen⟩ := ih 0 (cmp s b b).2 (calls ++ [(b, b)])
        refine ⟨(b, b) :: diag, ?_, ?_, fun hcount => ?_⟩
        · rw [ticks, ticks, hwrap, if_pos rfl, if_pos rfl]
          simpa [logged] using heq
        · refine List.forall_mem_cons.mpr ⟨⟨rfl, List.mem_cons_self⟩, fun p hp => ?_⟩
          exact ⟨(hdiag p hp).1, List.mem_cons_of_mem b (hdiag p hp).2⟩
        · have hfull : 2 ^ t ≤ count + 1 := Nat.le_of_dvd (Nat.succ_pos count)
            (Nat.dvd_of_mod_eq_zero hwrap)
          have hrest := hlen (Nat.two_pow_pos t)
          rw [List.length_cons, List.length_cons, Nat.mul_succ]
          omega
      · obtain ⟨diag, heq, hdiag, hlen⟩ := ih ((count + 1) % 2 ^ t) s calls
        refine ⟨diag, ?_, fun p hp => ?_, fun hcount => ?_⟩
        · rw [ticks, ticks, if_neg hwrap, if_neg hwrap]
          exact heq
        · exact ⟨(hdiag p hp).1, List.mem_cons_of_mem b (hdiag p hp).2⟩
        · have hrest := hlen (Nat.mod_lt _ (Nat.two_pow_pos t))
          have hle := Nat.mod_le (count + 1) (2 ^ t)
          rw [List.length_cons]
          omega

end Log

end Merging
end Brlib
