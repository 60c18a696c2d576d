import Brlib.ListSort.Rounds
import Brlib.Merging.Pending

/-!
# The heads of the loops of `list_sort`

`Reaches` is the run of `list_sort` from one loop head to the next.  At a head of the main
loop the chains behind `pending` have the sizes that the counter `count` encodes; at a head
of the loop after the end of the input, the two operands of the merge at hand, in the loop
or in `merge_final`, are balanced with all that follow.

Both are invariants of the run (`headInv_of_reaches`).
-/

namespace Brlib
namespace ListSort

open Heap Heap.Mem Merging

variable {α π : Type} [DecidableEq α] {cmp : ListCmpFunc π α}

section Definitions

/-- The variables at the head of one of the two loops, with the private data and the memory. -/
inductive LoopHead (π α : Type) where
  | main (list pending : Ptr α) (count : Nat) (priv : π) (m : Mem α)
  | final (list pending : Ptr α) (priv : π) (m : Mem α)

/-- The loop heads that a call of `list_sort` reaches. -/
inductive Reaches (cmp : ListCmpFunc π α) (fuel : Nat) (priv : π) (head : Ptr α) (m : Mem α) :
    LoopHead π α → Prop
  | enter {list last : Ptr α} {m' : Mem α} (hfirst : m.getNext head = some list)
      (hlast : m.getPrev head = some last) (hne : list ≠ last)
      (hcut : m.setNext last .null = some m') :
      Reaches cmp fuel priv head m (.main list .null 0 priv m')
  | round {list pending list' pending' : Ptr α} {count count' : Nat} {s s' : π} {m₁ m₂ : Mem α}
      (hreach : Reaches cmp fuel priv head m (.main list pending count s m₁))
      (hround : mainRound cmp fuel list pending count s m₁ =
        some (list', pending', count', s', m₂))
      (hmore : list' ≠ .null) :
      Reaches cmp fuel priv head m (.main list' pending' count' s' m₂)
  | finish {list pending pending' next : Ptr α} {count count' : Nat} {s s' : π} {m₁ m₂ : Mem α}
      (hreach : Reaches cmp fuel priv head m (.main list pending count s m₁))
      (hround : mainRound cmp fuel list pending count s m₁ =
        some (.null, pending', count', s', m₂))
      (hnext : m₂.getPrev pending' = some next) :
      Reaches cmp fuel priv head m (.final pending' next s' m₂)
  | merge {list pending next list' : Ptr α} {s s' : π} {m₁ m₂ : Mem α}
      (hreach : Reaches cmp fuel priv head m (.final list pending s m₁))
      (hnext : m₁.getPrev pending = some next) (hmore : next ≠ .null)
      (hmerge : merge cmp fuel s pending list m₁ = some (list', s', m₂)) :
      Reaches cmp fuel priv head m (.final list' next s' m₂)

omit [DecidableEq α] in
/-- The links that `skipOnes` follows. -/
def followed (bits : Nat) (tail : Slot α) (pending : Ptr α) (m : Mem α) : Option (List (Ptr α)) :=
  if bits % 2 = 1 then do
    let p ← tail.loadPrev pending m
    let ps ← followed (bits / 2) (.field p) pending m
    some (p :: ps)
  else some []
termination_by bits

end Definitions

variable {m m' : Mem α} {x h : α} {l : List α} {runs : List (List α)} {pending list : Ptr α}
variable {tail : Slot α} {s priv : π} {fuel count n k : Nat}

section Walk

omit [DecidableEq α] in
/-- The walk shifts by one for each link that it follows, and ends where the last one leads. -/
theorem skipOnes_eq_followed (bits : Nat) (tail : Slot α) (pending : Ptr α) (m : Mem α) :
    skipOnes bits tail pending m =
      (followed bits tail pending m).map fun ps =>
        (bits / 2 ^ ps.length, ps.foldl (fun _ p => Slot.field p) tail) := by
  induction bits using Nat.strongRecOn generalizing tail with
  | _ bits ih =>
      rw [skipOnes, followed]
      by_cases hodd : bits % 2 = 1
      · rw [if_pos hodd, if_pos hodd]
        cases tail.loadPrev pending m with
        | none => rfl
        | some p =>
            simp only [Option.bind_eq_bind, Option.bind_some]
            rw [ih (bits / 2) (by omega)]
            cases followed (bits / 2) (.field p) pending m with
            | none => rfl
            | some ps =>
                have hbits : bits / 2 / 2 ^ ps.length = bits / 2 ^ (ps.length + 1) := by
                  rw [Nat.div_div_eq_div_mul, pow_succ, Nat.mul_comm]
                simp [hbits]
      · rw [if_neg hodd, if_neg hodd]
        simp

theorem trailing_succ {bits q : Nat} (hodd : n % 2 = 1) (hq : 0 < q)
    (h : n / 2 = q * bits + (q - 1)) : n = q * 2 * bits + (q * 2 - 1) := by
  rw [Nat.mul_right_comm]
  omega

omit [DecidableEq α] in
/-- The walk over the trailing ones, from any slot in front of runs with the right sizes: it
follows a link to the first element of a run for each of them, and stops in front of two
runs of the same size, when any digit is left. -/
theorem walk_spec {u : Nat} (hchains : m.Chains (tail.readPrev pending m) runs)
    (hfree : tail.Free m runs.flatten) (hnodup : runs.flatten.Nodup)
    (hsizes : runs.map List.length = pendingSizes u 1 n) :
    ∃ ps bits, followed n tail pending m = some ps ∧
      (∀ p ∈ ps, ∃ a, p = .addr a ∧ m.live a = true) ∧
      n = 2 ^ ps.length * bits + (2 ^ ps.length - 1) ∧ bits % 2 = 0 ∧
      (bits ≠ 0 → ∃ a b newer older rest, runs.drop ps.length = newer :: older :: rest ∧
        (ps.foldl (fun _ p => Slot.field p) tail).loadPrev pending m = some (.addr a) ∧
        m.getPrev (.addr a) = some (.addr b) ∧
        m.Chain (.addr a) newer ∧ m.Chain (.addr b) older ∧
        newer.length = 2 ^ ps.length * u ∧ older.length = 2 ^ ps.length * u) := by
  induction n using Nat.strongRecOn generalizing tail runs u with
  | _ n ih =>
      by_cases hodd : n % 2 = 1
      · rw [pendingSizes_odd hodd] at hsizes
        match runs, hchains, hsizes with
        | (a :: k) :: runs, ⟨hchain, hruns⟩, hsizes =>
            have hp : tail.readPrev pending m = .addr a := hchain.1
            have hload : tail.loadPrev pending m = some (.addr a) := by
              rw [Slot.loadPrev_eq hfree, hp]
            rw [List.flatten_cons] at hnodup
            have hfree' : (Slot.field (.addr a)).Free m runs.flatten :=
              ⟨hchain.2.1, List.disjoint_of_nodup_append hnodup List.mem_cons_self⟩
            obtain ⟨ps, bits, hps, hlive, hn, heven, hpair⟩ :=
              @ih (n / 2) (by omega) runs (.field (.addr a)) (2 * u) hruns hfree'
                hnodup.of_append_right (List.cons.inj hsizes).2
            refine ⟨.addr a :: ps, bits, ?_, ?_, ?_, heven, ?_⟩
            · rw [followed, if_pos hodd, hload]
              simp [hps]
            · exact List.forall_mem_cons.mpr ⟨⟨a, rfl, hchain.2.1⟩, hlive⟩
            · exact trailing_succ hodd (Nat.two_pow_pos _) hn
            · intro hbits
              have hsize : 2 ^ ps.length * (2 * u) = 2 ^ (ps.length + 1) * u := by ring
              rw [hsize] at hpair
              exact hpair hbits
      · refine ⟨[], n, ?_, by simp, by simp, by omega, ?_⟩
        · rw [followed, if_neg hodd]
        · intro hn
          rw [pendingSizes_even hn hodd] at hsizes
          match runs, hchains, hsizes with
          | (a :: k) :: (b :: k') :: runs, ⟨hnewer, holder, hruns⟩, hsizes =>
              have hp : tail.readPrev pending m = .addr a := hnewer.1
              have hb : m.prev a = .addr b := holder.1
              obtain ⟨hlen, hlen', -⟩ : (a :: k).length = u ∧ (b :: k').length = u ∧
                  runs.map List.length = pendingSizes (2 * u) 0 (n / 2) := by
                simpa using hsizes
              refine ⟨a, b, a :: k, b :: k', runs, rfl, ?_, ?_, hp ▸ hnewer, hb ▸ holder, ?_, ?_⟩
              · rw [List.foldl_nil, Slot.loadPrev_eq hfree, hp]
              · rw [getPrev_addr hnewer.2.1, hb]
              · simpa using hlen
              · simpa using hlen'

end Walk

section Invariants

/-- What holds of the pending runs between two rounds of the main loop, when `l` is the
whole input. -/
structure Counted (l : List α) (list pending : Ptr α) (count : Nat) (m : Mem α)
    (runs : List (List α)) : Prop where
  chains : m.Chains pending runs
  input : m.Chain list (l.drop count)
  sizes : runs.map List.length = pendingSizes 1 1 count
  segments : Segmented runs (l.take count)

/-- What holds after the end of the input. -/
structure Closing (l : List α) (list pending : Ptr α) (m : Mem α) (newer older : List α)
    (runs : List (List α)) : Prop where
  newer_chain : m.Chain list newer
  newer_ne : newer ≠ []
  chains : m.Chains pending (older :: runs)
  perm : (newer ++ (older :: runs).flatten).Perm l
  balanced : Balanced newer.length ((older :: runs).map List.length)

/-- The invariant of the two loops. -/
def HeadInv (l : List α) : LoopHead π α → Prop
  | .main list pending count _ m => count < l.length ∧ ∃ runs, Counted l list pending count m runs
  | .final list pending _ m => ∃ newer older runs, Closing l list pending m newer older runs

omit [DecidableEq α] in
theorem Counted.perm (h : Counted l list pending count m runs) :
    (runs.flatten ++ l.drop count).Perm l := by
  conv_rhs => rw [← List.take_append_drop count l]
  exact h.segments.flatten_perm.append_right _

/-- A round of the main loop, which succeeds, goes from one number to the next. -/
theorem Counted.round (h : Counted l list pending count m runs) (hmore : count < l.length)
    (hnodup : l.Nodup) (hfuel : l.length ≤ fuel) (hword : l.length < 2 ^ 64)
    (cmp : ListCmpFunc π α) (s : π) :
    ∃ list' x s' m' runs', mainRound cmp fuel list pending count s m =
        some (list', .addr x, count + 1, s', m') ∧
      Counted l list' (.addr x) (count + 1) m' ([x] :: runs') := by
  have hperm := h.perm
  obtain ⟨hchains, hinput, hsizes, hsegments⟩ := h
  rw [List.drop_eq_getElem_cons hmore] at hinput hperm
  obtain rfl : list = .addr l[count] := hinput.1
  have hsize : Nat.size count ≤ runs.length := by
    have hle := size_le_pendingSizes 1 count
    rwa [← hsizes, List.length_map] at hle
  have hlen : runs.flatten.length ≤ fuel := by
    have hlength := hperm.length_eq
    rw [List.length_append] at hlength
    omega
  obtain ⟨list', m', hround, hinput', hchains', -⟩ := @mainRound_spec _ _ _ cmp m l[count] _ runs
    pending s fuel count hinput hchains (hperm.nodup_iff.mpr hnodup) hsize hlen
  have hcount : (count + 1) % 2 ^ 64 = count + 1 := Nat.mod_eq_of_lt (by omega)
  rw [hcount] at hround
  refine ⟨list', l[count], _, m', _, hround, hchains', hinput', ?_, ?_⟩
  · rw [List.map_cons, pendingSizes_mergeBits hsizes]
    exact pendingSizes_carry (Nat.succ_pos count)
  · rw [List.take_succ_eq_append_getElem hmore]
    exact .cons (.refl _) ((mergeBits_merges cmp count runs s).segmented hsegments)

omit [DecidableEq α] in
/-- After the end of the input the newest run is a single element, and there is another. -/
theorem Counted.closing {a : α} (h : Counted l list (.addr a) count m ([a] :: runs))
    (hend : count = l.length) (hlen : 2 ≤ l.length) :
    ∃ older runs', Closing l (.addr a) (m.prev a) m [a] older runs' := by
  subst hend
  have hsum := sum_pendingSizes (show 1 ≤ l.length by omega) 1 le_rfl
  have hsizes := h.sizes
  rw [List.map_cons] at hsizes
  cases runs with
  | nil =>
      rw [← hsizes] at hsum
      simp at hsum
      omega
  | cons older runs =>
      refine ⟨older, runs, h.chains.1, by simp, h.chains.2, ?_, balanced_tail hsizes.symm⟩
      have hperm := h.perm
      rw [List.drop_length, List.append_nil] at hperm
      exact hperm

theorem Closing.merge {b : α} {k : List α} {next : Ptr α} {newer older : List α}
    (h : Closing l list pending m newer older ((b :: k) :: runs)) (hnodup : l.Nodup)
    (hfuel : l.length ≤ fuel) (hnext : m.getPrev pending = some next)
    (cmp : ListCmpFunc π α) (s : π) :
    ∃ list' s' m' newer', merge cmp fuel s pending list m = some (list', s', m') ∧
      Closing l list' next m' newer' (b :: k) runs := by
  obtain ⟨hnewer, hne, hchains, hperm, -, -, hbalanced⟩ := h
  match older, hchains with
  | a :: k', hchains =>
      obtain rfl : pending = .addr a := hchains.1.1
      obtain rfl : m.prev a = next := by
        rw [getPrev_addr hchains.1.2.1] at hnext
        exact Option.some.inj hnext
      obtain ⟨list', m', hmerge, hnewer', hchains', -⟩ := @mergeNext_spec _ _ _ cmp m k'
        ((b :: k) :: runs) s fuel newer a list hnewer hne hchains (hperm.nodup_iff.mpr hnodup)
        (hperm.length_eq ▸ hfuel)
      refine ⟨list', _, m', _, hmerge, hnewer', mergeLists_out_ne_nil cmp (by simp) s, hchains',
        (mergeNext_perm cmp newer (a :: k') _ s).trans hperm, ?_⟩
      rw [length_mergeLists, Nat.add_comm]
      exact hbalanced

theorem Counted.of_round {list' pending' : Ptr α} {count' : Nat} {s' : π}
    (h : Counted l list pending count m runs) (hmore : count < l.length) (hnodup : l.Nodup)
    (hfuel : l.length ≤ fuel) (hword : l.length < 2 ^ 64)
    (hround : mainRound cmp fuel list pending count s m =
      some (list', pending', count', s', m')) :
    ∃ x runs', pending' = .addr x ∧ count' = count + 1 ∧
      Counted l list' (.addr x) (count + 1) m' ([x] :: runs') := by
  obtain ⟨list₁, x, s₁, m₁, runs', hround₁, hcounted⟩ :=
    h.round hmore hnodup hfuel hword cmp s
  simp only [hround₁, Option.some.injEq, Prod.mk.injEq] at hround
  obtain ⟨rfl, rfl, rfl, rfl, rfl⟩ := hround
  exact ⟨x, runs', rfl, rfl, hcounted⟩

theorem Closing.of_merge {next list' : Ptr α} {newer older : List α} {s' : π}
    (h : Closing l list pending m newer older runs) (hnodup : l.Nodup) (hfuel : l.length ≤ fuel)
    (hnext : m.getPrev pending = some next) (hmore : next ≠ .null)
    (hmerge : ListSort.merge cmp fuel s pending list m = some (list', s', m')) :
    ∃ newer' older' runs', Closing l list' next m' newer' older' runs' := by
  have hne := h.chains.ne_nil
  cases runs with
  | nil =>
      -- the last run, and the loop ends here
      cases older with
      | nil => exact absurd rfl (hne [] List.mem_cons_self)
      | cons a k =>
          have hnull : m.prev a = .null := h.chains.2
          obtain rfl : pending = .addr a := h.chains.1.1
          rw [getPrev_addr h.chains.1.2.1, hnull] at hnext
          exact absurd (Option.some.inj hnext).symm hmore
  | cons run runs =>
      cases run with
      | nil => exact absurd rfl (hne [] (List.mem_cons_of_mem _ List.mem_cons_self))
      | cons b k =>
          obtain ⟨list₁, s₁, m₁, newer', hmerge₁, hclosing⟩ :=
            h.merge hnodup hfuel hnext cmp s
          simp only [hmerge₁, Option.some.injEq, Prod.mk.injEq] at hmerge
          obtain ⟨rfl, rfl, rfl⟩ := hmerge
          exact ⟨newer', b :: k, runs, hclosing⟩

/-- **The invariant holds at every head that is reached.** -/
theorem headInv_of_reaches {head : LoopHead π α} (hring : m.Ring h l) (hlen : 2 ≤ l.length)
    (hfuel : l.length ≤ fuel) (hword : l.length < 2 ^ 64)
    (hreach : Reaches cmp fuel priv (.addr h) m head) : HeadInv l head := by
  have hnodup : l.Nodup := (List.nodup_cons.mp hring.nodup).2
  induction hreach with
  | enter hfirst hlast hne hcut =>
      match l, hlen with
      | x :: y :: l, _ =>
          obtain ⟨last, m', hfirst', hlast', -, hcut', hchain, -⟩ := enter_spec hring
          obtain rfl := Option.some.inj (hfirst.symm.trans hfirst')
          obtain rfl := Option.some.inj (hlast.symm.trans hlast')
          obtain rfl := Option.some.inj (hcut.symm.trans hcut')
          exact ⟨Nat.succ_pos _, [], rfl, hchain, by simp, .nil⟩
  | round hreach hround hmore ih =>
      obtain ⟨hcount, runs, hcounted⟩ := ih
      obtain ⟨x, runs', rfl, rfl, hcounted'⟩ :=
        hcounted.of_round hcount hnodup hfuel hword hround
      refine ⟨?_, _, hcounted'⟩
      by_contra hend
      have hnull := hcounted'.input
      rw [List.drop_eq_nil_of_le (Nat.not_lt.mp hend)] at hnull
      exact hmore hnull
  | finish hreach hround hnext ih =>
      obtain ⟨hcount, runs, hcounted⟩ := ih
      obtain ⟨x, runs', rfl, rfl, hcounted'⟩ :=
        hcounted.of_round hcount hnodup hfuel hword hround
      have hend := List.drop_eq_nil_iff.mp (hcounted'.input.eq_null_iff.mp rfl)
      rw [getPrev_addr hcounted'.chains.1.2.1] at hnext
      obtain rfl := Option.some.inj hnext
      obtain ⟨older, runs'', hclosing⟩ := hcounted'.closing (Nat.le_antisymm hcount hend) hlen
      exact ⟨[x], older, runs'', hclosing⟩
  | merge hreach hnext hmore hmerge ih =>
      obtain ⟨newer, older, runs, hclosing⟩ := ih
      exact hclosing.of_merge hnodup hfuel hnext hmore hmerge

end Invariants

end ListSort
end Brlib
