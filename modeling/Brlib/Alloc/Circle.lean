import Mathlib.Tactic

/-!
# Slots on a circle of addresses

Addresses are counted modulo `M`, so a row of slots that is long enough meets its own
beginning.  The slots are apart from one another exactly as long as they take at most
one turn (`slots_apart_iff`), and aligned exactly when their size is
(`slots_aligned_iff`).
-/

namespace Brlib
namespace Alloc

variable {M base elt node grow align a n x : ℕ}

/-- The address `x` is one of the `n` from `a` on, on a circle of `M` addresses. -/
def Occupies (M a n x : ℕ) : Prop :=
  ∃ k < n, x = (a + k) % M

instance (M a n x : ℕ) : Decidable (Occupies M a n x) := by
  unfold Occupies
  infer_instance

theorem Occupies.mono {n' : ℕ} (h : Occupies M a n x) (hn : n ≤ n') : Occupies M a n' x := by
  obtain ⟨k, hk, hx⟩ := h
  exact ⟨k, hk.trans_le hn, hx⟩

theorem slot_unique {i j : ℕ} (hturn : grow * elt ≤ M) (hi : i < grow) (hj : j < grow)
    (hx : Occupies M (base + i * elt) elt x) (hx' : Occupies M (base + j * elt) elt x) :
    i = j := by
  obtain ⟨k, hk, rfl⟩ := hx
  obtain ⟨l, hl, heq⟩ := hx'
  have hpos {i k : ℕ} (hi : i < grow) (hk : k < elt) : i * elt + k < M := by
    have hmul : (i + 1) * elt ≤ grow * elt := Nat.mul_le_mul_right elt hi
    have hsucc : (i + 1) * elt = i * elt + elt := Nat.succ_mul i elt
    omega
  have hmod : i * elt + k ≡ j * elt + l [MOD M] := by
    apply Nat.ModEq.add_left_cancel' base
    rw [← Nat.add_assoc, ← Nat.add_assoc]
    exact heq
  have hsame : i * elt + k = j * elt + l :=
    Nat.ModEq.eq_of_lt_of_lt hmod (hpos hi hk) (hpos hj hl)
  have helt : 0 < elt := by omega
  have hquot {i k : ℕ} (hk : k < elt) : (i * elt + k) / elt = i := by
    rw [Nat.mul_comm, Nat.mul_add_div helt, Nat.div_eq_of_lt hk, Nat.add_zero]
  rw [← @hquot i k hk, hsame, hquot hl]

/-- With more than one turn, the slot that ends the first one meets the slot `0`. -/
theorem slot_meets (helt : elt < M) (hpos : 0 < elt) (hturn : M < grow * elt) :
    ∃ j < grow, j ≠ 0 ∧ Occupies M (base + j * elt) elt (base % M) := by
  have hbelow : M / elt * elt ≤ M := Nat.div_mul_le_self M elt
  have habove : M < (M / elt + 1) * elt := by
    rw [Nat.mul_comm]
    exact Nat.lt_mul_div_succ M hpos
  have hsucc : (M / elt + 1) * elt = M / elt * elt + elt := Nat.succ_mul _ _
  refine ⟨M / elt, ?_, ?_, M - M / elt * elt, by omega, ?_⟩
  · exact lt_of_mul_lt_mul_right (hbelow.trans_lt hturn) (Nat.zero_le elt)
  · exact (Nat.div_pos helt.le hpos).ne'
  · rw [Nat.add_assoc, Nat.add_sub_cancel' hbelow, Nat.add_mod_right]

/-- The nodes at the beginning of the slots overlap no other slot if and only if the slots
take at most one turn. -/
theorem slots_apart_iff (hnode : 0 < node) (hle : node ≤ elt) (helt : elt < M) :
    (∀ i < grow, ∀ j < grow, i ≠ j → ∀ x, Occupies M (base + i * elt) node x →
      ¬ Occupies M (base + j * elt) elt x) ↔ grow * elt ≤ M := by
  constructor
  · intro hapart
    by_contra hturn
    obtain ⟨j, hj, hne, hmeets⟩ :=
      @slot_meets M base elt grow helt (by omega) (Nat.not_le.mp hturn)
    have hfirst : Occupies M (base + 0 * elt) node (base % M) := ⟨0, hnode, by simp⟩
    exact hapart 0 (by omega) j hj hne.symm _ hfirst hmeets
  · intro hturn i hi j hj hij x hx hx'
    exact hij (slot_unique hturn hi hj (hx.mono hle) hx')

-- three slots of three on a circle of eight
example : Occupies 8 (0 + 2 * 3) 3 0 := by decide

theorem slots_aligned_iff (hM : align ∣ M) (hbase : align ∣ base) :
    (∀ i < grow, align ∣ (base + i * elt) % M) ↔ grow ≤ 1 ∨ align ∣ elt := by
  have hslot : ∀ i, align ∣ (base + i * elt) % M ↔ align ∣ i * elt := by
    intro i
    rw [Nat.dvd_mod_iff hM]
    exact Nat.dvd_add_iff_right hbase |>.symm
  simp only [hslot]
  constructor
  · intro haligned
    by_cases hgrow : grow ≤ 1
    · exact .inl hgrow
    · have hone := haligned 1 (by omega)
      rw [Nat.one_mul] at hone
      exact .inr hone
  · rintro (hgrow | helt) i hi
    · obtain rfl : i = 0 := by omega
      rw [Nat.zero_mul]
      exact dvd_zero align
    · exact Dvd.dvd.mul_left helt i

end Alloc
end Brlib
