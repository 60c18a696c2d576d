import Mathlib.Data.Nat.Totient
import Mathlib.Data.Set.Card
import Mathlib.Tactic

/-!
# The top bits of a product with an odd number

Modulo a power of two, the multiplication by an odd number is a permutation
(`image_mul_mod`).  The numbers with the same top bits are an interval
(`card_topBits`), so each value of the top bits of the product is taken equally
often, on any type of words (`ncard_topBits_mul`).
-/

namespace Brlib
namespace Bits

open Finset

variable {w n g b x : ℕ}

/-- The top `n` of the `w` bits of `x`. -/
def topBits (w n x : ℕ) : ℕ :=
  x / 2 ^ (w - n)

theorem topBits_lt (hn : n ≤ w) (hx : x < 2 ^ w) : topBits w n x < 2 ^ n := by
  unfold topBits
  rw [Nat.div_lt_iff_lt_mul (Nat.two_pow_pos _), ← pow_add]
  rwa [Nat.add_sub_cancel' hn]

theorem topBits_half (hn : n < w) (x : ℕ) : topBits w n x = topBits w (n + 1) x / 2 := by
  unfold topBits
  rw [Nat.div_div_eq_div_mul, ← pow_succ]
  congr 2
  omega

theorem card_topBits (hn : n ≤ w) (hb : b < 2 ^ n) :
    #{x ∈ range (2 ^ w) | topBits w n x = b} = 2 ^ (w - n) := by
  have hpos : 0 < 2 ^ (w - n) := Nat.two_pow_pos _
  have hend : (b + 1) * 2 ^ (w - n) ≤ 2 ^ w := by
    calc (b + 1) * 2 ^ (w - n) ≤ 2 ^ n * 2 ^ (w - n) := Nat.mul_le_mul_right _ hb
      _ = 2 ^ w := by rw [← pow_add, Nat.add_sub_cancel' hn]
  have hinterval : {x ∈ range (2 ^ w) | topBits w n x = b} =
      Ico (b * 2 ^ (w - n)) ((b + 1) * 2 ^ (w - n)) := by
    ext x
    rw [mem_filter, mem_range, mem_Ico, topBits, Nat.div_eq_iff hpos]
    have hsucc : (b + 1) * 2 ^ (w - n) = b * 2 ^ (w - n) + 2 ^ (w - n) := Nat.succ_mul _ _
    omega
  rw [hinterval, Nat.card_Ico, Nat.succ_mul]
  exact Nat.add_sub_cancel_left _ _

theorem mul_mod_injOn (w : ℕ) (hodd : Odd g) :
    Set.InjOn (fun x => x * g % 2 ^ w) (range (2 ^ w)) := by
  intro x hx y hy heq
  rw [mem_coe, mem_range] at hx hy
  have hcoprime : Nat.gcd (2 ^ w) g = 1 := Nat.Coprime.pow_left w hodd.coprime_two_left
  have hmod : x ≡ y [MOD 2 ^ w] := Nat.ModEq.cancel_right_of_coprime hcoprime heq
  exact Nat.ModEq.eq_of_lt_of_lt hmod hx hy

/-- The multiplication by an odd number is a permutation. -/
theorem image_mul_mod (w : ℕ) (hodd : Odd g) :
    (range (2 ^ w)).image (fun x => x * g % 2 ^ w) = range (2 ^ w) := by
  apply eq_of_subset_of_card_le
  · intro y hy
    obtain ⟨x, -, rfl⟩ := mem_image.mp hy
    exact mem_range.mpr (Nat.mod_lt _ (Nat.two_pow_pos w))
  · rw [card_image_of_injOn (mul_mod_injOn w hodd)]

theorem card_filter_mul_mod (w : ℕ) (hodd : Odd g) (P : ℕ → Prop) [DecidablePred P] :
    #{x ∈ range (2 ^ w) | P (x * g % 2 ^ w)} = #{x ∈ range (2 ^ w) | P x} := by
  conv_rhs => rw [← image_mul_mod w hodd, filter_image]
  refine (card_image_of_injOn ?_).symm
  exact (mul_mod_injOn w hodd).mono (coe_subset.mpr (filter_subset _ _))

/-- **The top bits of the product are evenly spread** over the words of a type, which are
the numbers below `2 ^ w`. -/
theorem ncard_topBits_mul {α : Type*} {toNat : α → ℕ} (hinj : Function.Injective toNat)
    (hrange : ∀ x, x < 2 ^ w ↔ ∃ a, toNat a = x) (hodd : Odd g) (hn : n ≤ w) (hb : b < 2 ^ n) :
    {a | topBits w n (toNat a * g % 2 ^ w) = b}.ncard = 2 ^ (w - n) := by
  have himage : toNat '' {a | topBits w n (toNat a * g % 2 ^ w) = b} =
      ({x ∈ range (2 ^ w) | topBits w n (x * g % 2 ^ w) = b} : Finset ℕ) := by
    ext x
    rw [mem_coe, mem_filter, mem_range, hrange]
    constructor
    · rintro ⟨a, ha, rfl⟩
      exact ⟨⟨a, rfl⟩, ha⟩
    · rintro ⟨⟨a, rfl⟩, ha⟩
      exact ⟨a, ha, rfl⟩
  rw [← Set.ncard_image_of_injective _ hinj, himage, Set.ncard_coe_finset,
    card_filter_mul_mod w hodd fun y => topBits w n y = b, card_topBits hn hb]

end Bits
end Brlib
