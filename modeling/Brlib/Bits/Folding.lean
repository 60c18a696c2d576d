import Mathlib.Data.Set.Card
import Mathlib.Tactic

/-!
# Folding a word into half of its bits

A word of double size is a pair of words.  When one of them is mixed into the other by a
permutation, whatever it is, each outcome has as many pairs as there are words to mix in.
-/

namespace Brlib
namespace Bits

/-- A property holds of the mixed word as often as of a word, for each word that is mixed in. -/
theorem ncard_fold {α β γ : Type*} (e : γ ≃ β × α) (mix : β → α ≃ α) (P : α → Prop) :
    {c | P (mix (e c).1 (e c).2)}.ncard = Nat.card β * {a | P a}.ncard := by
  let shear : γ ≃ β × α := e.trans (Equiv.prodShear (.refl β) mix)
  have himage : shear '' {c | P (mix (e c).1 (e c).2)} = Set.univ ×ˢ {a | P a} := by
    ext ⟨b, a⟩
    constructor
    · rintro ⟨c, hc, heq⟩
      obtain rfl : mix (e c).1 (e c).2 = a := congrArg Prod.snd heq
      exact ⟨trivial, hc⟩
    · rintro ⟨-, ha⟩
      refine ⟨shear.symm (b, a), ?_, shear.apply_symm_apply _⟩
      simpa [shear] using ha
  rw [← Set.ncard_image_of_injective _ shear.injective, himage, Set.ncard_prod, Set.ncard_univ]

theorem xor_xor (a c : UInt32) : a ^^^ c ^^^ c = a := by
  rw [UInt32.xor_assoc, UInt32.xor_self, UInt32.xor_zero]

/-- Exclusive or with a word is a permutation. -/
def xorPerm (c : UInt32) : UInt32 ≃ UInt32 where
  toFun a := a ^^^ c
  invFun a := a ^^^ c
  left_inv a := xor_xor a c
  right_inv a := xor_xor a c

theorem toNat_high (val : UInt64) : (val >>> 32).toUInt32.toNat = val.toNat / 2 ^ 32 := by
  have hlt : val.toNat < 2 ^ 64 := val.toNat_lt
  have hshift : (val >>> 32).toNat = val.toNat / 2 ^ 32 := by
    rw [UInt64.toNat_shiftRight, ← Nat.shiftRight_eq_div_pow]
    rfl
  rw [UInt64.toNat_toUInt32, hshift]
  exact Nat.mod_eq_of_lt (by omega)

/-- The high and the low half of a word of 64 bits. -/
def halves : UInt64 ≃ UInt32 × UInt32 where
  toFun val := ((val >>> 32).toUInt32, val.toUInt32)
  invFun p := UInt64.ofNat (p.1.toNat * 2 ^ 32 + p.2.toNat)
  left_inv val := by
    apply UInt64.toNat_inj.mp
    have hlt : val.toNat < 2 ^ 64 := val.toNat_lt
    rw [UInt64.toNat_ofNat', toNat_high, UInt64.toNat_toUInt32]
    omega
  right_inv p := by
    have hhigh : p.1.toNat < 2 ^ 32 := p.1.toNat_lt
    have hlow : p.2.toNat < 2 ^ 32 := p.2.toNat_lt
    refine Prod.ext (UInt32.toNat_inj.mp ?_) (UInt32.toNat_inj.mp ?_)
    · rw [toNat_high, UInt64.toNat_ofNat']
      omega
    · rw [UInt64.toNat_toUInt32, UInt64.toNat_ofNat']
      omega

end Bits
end Brlib
