import Mathlib.Data.Nat.Bitwise
import Mathlib.Tactic

/-!
# The PJW hash of `pjwhash-inline.h`

Each byte is added to the hash, shifted up by four bits, and then the top four bits are
or-ed exclusively into the bits 4 to 7 and cleared (`fold`).  So two hashes can become one.

But two keys that differ in one byte do not.  The byte moves the sum by less than 256, and
the byte after it by 16 times what has become of that; to become one under `fold`, sums
would have to be much farther apart (`fold_near_injective`).  From there on the two hashes
agree in their lowest four bits, and the bits that `fold` changes agree before it, so it is
injective (`fold_aligned_injective`).
-/

namespace Brlib
namespace Hash

section Definitions

/-- `BITS_PER_INT` -/
def bitsPerInt : UInt32 := 32

/-- `THREE_QUARTERS` -/
def threeQuarters : UInt32 := bitsPerInt * 3 / 4

/-- `ONE_EIGHTH` -/
def oneEighth : UInt32 := bitsPerInt / 8

/-- `HIGH_BITS` -/
def highBits : UInt32 := ~~~(~~~0 >>> oneEighth)

/-- The body of the loop of `pjwhash`. -/
def pjwStep (hash : UInt32) (k : UInt8) : UInt32 :=
  let hash := (hash <<< oneEighth) + k.toUInt32
  let high := hash &&& highBits
  if high ≠ 0 then
    let hash := hash ^^^ high >>> threeQuarters
    hash &&& ~~~high
  else hash

/-- The loop of `pjwhash`; `k` is what is left of the key, and there is no byte behind it. -/
def pjwLoop (length : UInt32) : List UInt8 → UInt32 → UInt32 → Option UInt32
  | [], i, hash => if i < length then none else some hash
  | byte :: k, i, hash =>
    if i < length then pjwLoop length k (i + 1) (pjwStep hash byte) else some hash

/-- `pjwhash` -/
def pjwhash (key : List UInt8) (length : UInt32) : Option UInt32 :=
  pjwLoop length key 0 0

end Definitions

section Fold

variable {t t' : ℕ}

/-- The top four bits of a sum, or-ed exclusively into the bits 4 to 7 and cleared. -/
def fold (t : ℕ) : ℕ :=
  256 * (t / 256 % 2 ^ 20) + 16 * ((t / 16 % 16) ^^^ (t / 2 ^ 28)) + t % 16

theorem xor_top_lt (ht : t < 2 ^ 32) : (t / 16 % 16) ^^^ (t / 2 ^ 28) < 16 :=
  Nat.xor_lt_two_pow (n := 4) (Nat.mod_lt _ (by decide)) (Nat.div_lt_of_lt_mul ht)

theorem fold_lt (ht : t < 2 ^ 32) : fold t < 2 ^ 28 := by
  have hxor := xor_top_lt ht
  unfold fold
  omega

theorem parts_of_fold_eq (ht : t < 2 ^ 32) (ht' : t' < 2 ^ 32) (h : fold t = fold t') :
    t % 16 = t' % 16 ∧ t / 256 % 2 ^ 20 = t' / 256 % 2 ^ 20 ∧
      (t / 16 % 16) ^^^ (t / 2 ^ 28) = (t' / 16 % 16) ^^^ (t' / 2 ^ 28) := by
  have hxor := xor_top_lt ht
  have hxor' := xor_top_lt ht'
  unfold fold at h
  omega

/-- Two numbers whose difference modulo `m` is at most `D`. -/
def Near (m D a b : ℕ) : Prop :=
  ∃ d k : ℤ, -D ≤ d ∧ d ≤ D ∧ (a : ℤ) = b + d + m * k

/-- Sums that are near each other do not become one: their top bits would differ. -/
theorem fold_near_injective (ht : t < 2 ^ 32) (ht' : t' < 2 ^ 32)
    (hnear : Near (2 ^ 32) (2 ^ 27) t t') (h : fold t = fold t') : t = t' := by
  obtain ⟨hlow, hmid, hxor⟩ := parts_of_fold_eq ht ht' h
  obtain ⟨d, k, hd, hd', heq⟩ := hnear
  -- a difference of the top bits weighs `2 ^ 28` at least, and the sums are not that far apart
  have htop : t / 2 ^ 28 = t' / 2 ^ 28 := by omega
  rw [htop, Nat.xor_left_inj] at hxor
  omega

/-- Sums that agree in their lowest eight bits do not become one. -/
theorem fold_aligned_injective (ht : t < 2 ^ 32) (ht' : t' < 2 ^ 32)
    (hlow : t % 256 = t' % 256) (h : fold t = fold t') : t = t' := by
  obtain ⟨-, hmid, hxor⟩ := parts_of_fold_eq ht ht' h
  have hnibble : t / 16 % 16 = t' / 16 % 16 := by omega
  rw [hnibble, Nat.xor_right_inj] at hxor
  omega

/-- Sums that are near each other stay so, but for what is or-ed into the bits 4 to 7. -/
theorem fold_near {D : ℕ} (ht : t < 2 ^ 32) (ht' : t' < 2 ^ 32) (hnear : Near (2 ^ 32) D t t') :
    Near (2 ^ 28) (D + 480) (fold t) (fold t') := by
  obtain ⟨d, k, hd, hd', heq⟩ := hnear
  have hxor := xor_top_lt ht
  have hxor' := xor_top_lt ht'
  unfold fold
  -- of what is or-ed in, only that it is one hexadecimal digit matters
  generalize (t / 16 % 16) ^^^ (t / 2 ^ 28) = x at *
  generalize (t' / 16 % 16) ^^^ (t' / 2 ^ 28) = x' at *
  refine ⟨d + 16 * ((x - t / 16 % 16) - (x' - t' / 16 % 16)),
    16 * k - (t / 2 ^ 28) + (t' / 2 ^ 28), ?_, ?_, ?_⟩
  · push_cast
    omega
  · push_cast
    omega
  · push_cast
    omega

end Fold

section Sums

variable {s s' c a b D : ℕ}

/-- A hash, shifted up by four bits, and a byte. -/
def sum (s c : ℕ) : ℕ :=
  (16 * s + c) % 2 ^ 32

theorem sum_lt (s c : ℕ) : sum s c < 2 ^ 32 :=
  Nat.mod_lt _ (by decide)

theorem sum_injective (hs : s < 2 ^ 28) (hs' : s' < 2 ^ 28) (h : sum s c = sum s' c) :
    s = s' := by
  unfold sum at h
  omega

theorem sum_byte_injective (ha : a < 256) (hb : b < 256) (h : sum s a = sum s b) : a = b := by
  unfold sum at h
  omega

theorem sum_byte_near (ha : a < 256) (hb : b < 256) :
    Near (2 ^ 32) 255 (sum s a) (sum s b) := by
  unfold sum
  refine ⟨a - b, (16 * s + b) / 2 ^ 32 - (16 * s + a) / 2 ^ 32, ?_, ?_, ?_⟩
  · omega
  · omega
  · push_cast
    omega

theorem sum_near (h : Near (2 ^ 28) D s s') : Near (2 ^ 32) (16 * D) (sum s c) (sum s' c) := by
  obtain ⟨d, k, hd, hd', heq⟩ := h
  unfold sum
  refine ⟨16 * d, k - (16 * s + c) / 2 ^ 32 + (16 * s' + c) / 2 ^ 32, ?_, ?_, ?_⟩
  · omega
  · omega
  · push_cast at heq ⊢
    omega

theorem sum_aligned (h : s % 16 = s' % 16) : sum s c % 256 = sum s' c % 256 := by
  unfold sum
  omega

end Sums

section Steps

variable {s s' c a b : ℕ}

/-- One step, in numbers. -/
def pjwNat (s c : ℕ) : ℕ :=
  fold (sum s c)

theorem pjwNat_lt (s c : ℕ) : pjwNat s c < 2 ^ 28 :=
  fold_lt (sum_lt s c)

theorem pjwNat_mod (s c : ℕ) : pjwNat s c % 16 = c % 16 := by
  unfold pjwNat fold sum
  omega

theorem pjwNat_byte_injective (ha : a < 256) (hb : b < 256) (h : pjwNat s a = pjwNat s b) :
    a = b := by
  apply sum_byte_injective ha hb
  obtain ⟨d, k, hd, hd', heq⟩ := sum_byte_near (s := s) ha hb
  exact fold_near_injective (sum_lt s a) (sum_lt s b) ⟨d, k, by omega, by omega, heq⟩ h

theorem pjwNat_near_injective (hs : s < 2 ^ 28) (hs' : s' < 2 ^ 28)
    (hnear : Near (2 ^ 28) 735 s s') (h : pjwNat s c = pjwNat s' c) : s = s' := by
  apply @sum_injective s s' c hs hs'
  obtain ⟨d, k, hd, hd', heq⟩ := @sum_near s s' c 735 hnear
  exact fold_near_injective (sum_lt s c) (sum_lt s' c) ⟨d, k, by omega, by omega, heq⟩ h

theorem pjwNat_aligned_injective (hs : s < 2 ^ 28) (hs' : s' < 2 ^ 28) (hlow : s % 16 = s' % 16)
    (h : pjwNat s c = pjwNat s' c) : s = s' := by
  apply @sum_injective s s' c hs hs'
  exact fold_aligned_injective (sum_lt s c) (sum_lt s' c) (sum_aligned hlow) h

/-- Once the lowest four bits agree, different hashes stay different. -/
theorem foldl_aligned_injective (q : List ℕ) (hs : s < 2 ^ 28) (hs' : s' < 2 ^ 28)
    (hlow : s % 16 = s' % 16) (h : q.foldl pjwNat s = q.foldl pjwNat s') : s = s' := by
  induction q generalizing s s' with
  | nil => exact h
  | cons c q ih =>
    have hlow' : pjwNat s c % 16 = pjwNat s' c % 16 := by rw [pjwNat_mod, pjwNat_mod]
    have hstep := ih (pjwNat_lt s c) (pjwNat_lt s' c) hlow' h
    exact pjwNat_aligned_injective hs hs' hlow hstep

theorem foldl_byte_injective (q : List ℕ) (ha : a < 256) (hb : b < 256)
    (h : (a :: q).foldl pjwNat s = (b :: q).foldl pjwNat s) : a = b := by
  rw [List.foldl_cons, List.foldl_cons] at h
  apply @pjwNat_byte_injective s a b ha hb
  cases q with
  | nil => exact h
  | cons c q =>
    -- the next byte makes the lowest four bits agree, without merging the hashes
    have hnear := fold_near (sum_lt s a) (sum_lt s b) (sum_byte_near ha hb)
    have hlow : pjwNat (pjwNat s a) c % 16 = pjwNat (pjwNat s b) c % 16 := by
      rw [pjwNat_mod, pjwNat_mod]
    have hsame := foldl_aligned_injective q (pjwNat_lt _ c) (pjwNat_lt _ c) hlow h
    exact pjwNat_near_injective (pjwNat_lt s a) (pjwNat_lt s b) hnear hsame

end Steps

section Words

theorem toNat_and_highBits (t : UInt32) :
    (t &&& highBits).toNat = 2 ^ 28 * (t.toNat / 2 ^ 28) := by
  have hlt := t.toNat_lt
  have hdiv : (t &&& highBits).toNat / 2 ^ 28 = t.toNat / 2 ^ 28 := by
    rw [UInt32.toNat_and, Nat.and_div_two_pow]
    show t.toNat / 2 ^ 28 &&& 2 ^ 4 - 1 = _
    rw [Nat.and_two_pow_sub_one_eq_mod]
    exact Nat.mod_eq_of_lt (by omega)
  have hmod : (t &&& highBits).toNat % 2 ^ 28 = 0 := by
    rw [UInt32.toNat_and, Nat.and_mod_two_pow]
    exact Nat.and_zero _
  omega

theorem xor_and_eq_fold {t : ℕ} (ht : t < 2 ^ 32) :
    ((t ^^^ 16 * (t / 2 ^ 28)) &&& (2 ^ 32 - 1 - 2 ^ 28 * (t / 2 ^ 28))) = fold t := by
  have htop : t / 2 ^ 28 < 16 := by omega
  generalize hN : t / 2 ^ 28 = N at *
  have hclear : ∀ N < 16, N &&& (15 - N) = 0 := by decide
  have hand : ((t ^^^ 16 * N) &&& (2 ^ 32 - 1 - 2 ^ 28 * N)) = (t ^^^ 16 * N) % 2 ^ 28 := by
    rw [← Nat.div_add_mod ((t ^^^ 16 * N) &&& (2 ^ 32 - 1 - 2 ^ 28 * N)) (2 ^ 28),
      Nat.and_div_two_pow, Nat.and_mod_two_pow, Nat.xor_div_two_pow, hN,
      show 16 * N / 2 ^ 28 = 0 by omega, Nat.xor_zero,
      show (2 ^ 32 - 1 - 2 ^ 28 * N) / 2 ^ 28 = 15 - N by omega, hclear N htop,
      show (2 ^ 32 - 1 - 2 ^ 28 * N) % 2 ^ 28 = 2 ^ 28 - 1 by omega,
      Nat.and_two_pow_sub_one_eq_mod, Nat.mod_mod, Nat.mul_zero, Nat.zero_add]
  have hlow : (t ^^^ 16 * N) % 2 ^ 4 = t % 16 := by
    rw [Nat.xor_mod_two_pow, show 16 * N % 2 ^ 4 = 0 by omega, Nat.xor_zero]
  have hnibble : (t ^^^ 16 * N) / 2 ^ 4 % 2 ^ 4 = (t / 16 % 16) ^^^ N := by
    rw [Nat.xor_div_two_pow, Nat.xor_mod_two_pow, show 16 * N / 2 ^ 4 % 2 ^ 4 = N by omega]
  have hmid : (t ^^^ 16 * N) / 2 ^ 8 % 2 ^ 20 = t / 256 % 2 ^ 20 := by
    rw [Nat.xor_div_two_pow, show 16 * N / 2 ^ 8 = 0 by omega, Nat.xor_zero]
  rw [hand, fold, hN, ← hmid, ← hnibble, ← hlow]
  omega

/-- The step on words, without its branch. -/
theorem pjwStep_eq (hash : UInt32) (k : UInt8) {t : UInt32}
    (ht : (hash <<< oneEighth) + k.toUInt32 = t) :
    pjwStep hash k = (t ^^^ (t &&& highBits) >>> threeQuarters) &&& ~~~(t &&& highBits) := by
  unfold pjwStep
  rw [ht]
  by_cases h : t &&& highBits = 0
  · show (if t &&& highBits ≠ 0 then _ else t) = _
    rw [if_neg (not_not.mpr h), h]
    simp
  · exact if_pos h

theorem toNat_pjwStep (hash : UInt32) (k : UInt8) :
    (pjwStep hash k).toNat = pjwNat hash.toNat k.toNat := by
  obtain ⟨t, ht⟩ : ∃ t, (hash <<< oneEighth) + k.toUInt32 = t := ⟨_, rfl⟩
  have hsum : t.toNat = sum hash.toNat k.toNat := by
    rw [← ht, UInt32.toNat_add, UInt32.toNat_shiftLeft]
    show (hash.toNat <<< 4 % 2 ^ 32 + k.toNat) % 2 ^ 32 = _
    rw [Nat.shiftLeft_eq, Nat.mod_add_mod, Nat.mul_comm]
    rfl
  have hmoved : ((t &&& highBits) >>> threeQuarters).toNat = 16 * (t.toNat / 2 ^ 28) := by
    rw [UInt32.toNat_shiftRight, toNat_and_highBits]
    show (2 ^ 28 * (t.toNat / 2 ^ 28)) >>> 24 = _
    rw [Nat.shiftRight_eq_div_pow]
    omega
  rw [pjwStep_eq hash k ht, UInt32.toNat_and, UInt32.toNat_xor, hmoved, UInt32.toNat_not,
    toNat_and_highBits, pjwNat, ← hsum, ← xor_and_eq_fold t.toNat_lt]
  rfl

end Words

section Keys

variable {key key' : List UInt8} {length : UInt32}

theorem pjwLoop_eq (length : UInt32) (k : List UInt8) (i hash : UInt32)
    (hi : i.toNat ≤ length.toNat) (hk : length.toNat - i.toNat ≤ k.length) :
    pjwLoop length k i hash = some ((k.take (length.toNat - i.toNat)).foldl pjwStep hash) := by
  induction k generalizing i hash with
  | nil =>
    have hlt : ¬ i < length := by
      rw [UInt32.lt_iff_toNat_lt]
      simp at hk
      omega
    rw [pjwLoop, if_neg hlt, List.take_nil]
    rfl
  | cons byte k ih =>
    rw [pjwLoop]
    split
    · next hlt =>
      rw [UInt32.lt_iff_toNat_lt] at hlt
      have hsucc : (i + 1).toNat = i.toNat + 1 := by
        have hlen := length.toNat_lt
        rw [UInt32.toNat_add]
        exact Nat.mod_eq_of_lt (by show i.toNat + 1 < _; omega)
      rw [List.length_cons] at hk
      rw [ih (i + 1) _ (by omega) (by omega), hsucc,
        show length.toNat - i.toNat = length.toNat - (i.toNat + 1) + 1 by omega,
        List.take_succ_cons, List.foldl_cons]
    · next hge =>
      rw [UInt32.lt_iff_toNat_lt] at hge
      rw [show length.toNat - i.toNat = 0 by omega]
      rfl

theorem pjwhash_eq (h : length.toNat ≤ key.length) :
    pjwhash key length = some ((key.take length.toNat).foldl pjwStep 0) :=
  pjwLoop_eq length key 0 0 (Nat.zero_le _) h

theorem toNat_foldl_pjwStep (k : List UInt8) (hash : UInt32) :
    (k.foldl pjwStep hash).toNat = (k.map UInt8.toNat).foldl pjwNat hash.toNat := by
  induction k generalizing hash with
  | nil => rfl
  | cons byte k ih => rw [List.foldl_cons, ih, toNat_pjwStep, List.map_cons, List.foldl_cons]

theorem foldl_pjwStep_lt (k : List UInt8) : (k.foldl pjwStep 0).toNat < 2 ^ 28 := by
  rw [toNat_foldl_pjwStep]
  cases k using List.reverseRecOn with
  | nil => decide
  | append_singleton k byte =>
    rw [List.map_append, List.foldl_append]
    exact pjwNat_lt _ _

theorem exists_split {l l' : List UInt8} {i : ℕ} (hi : i < l.length) (hi' : i < l'.length)
    (hsame : ∀ j, j ≠ i → l[j]? = l'[j]?) :
    ∃ p q a b, l = p ++ a :: q ∧ l' = p ++ b :: q ∧ l[i]? = some a ∧ l'[i]? = some b := by
  have hbefore : l.take i = l'.take i := by
    apply List.ext_getElem?
    intro j
    rw [List.getElem?_take, List.getElem?_take]
    split
    · next hj => exact hsame j hj.ne
    · rfl
  have hbehind : l.drop (i + 1) = l'.drop (i + 1) := by
    apply List.ext_getElem?
    intro j
    rw [List.getElem?_drop, List.getElem?_drop]
    exact hsame _ (by omega)
  refine ⟨l.take i, l.drop (i + 1), l[i], l'[i], ?_, ?_, ?_, ?_⟩
  · rw [← List.drop_eq_getElem_cons hi, List.take_append_drop]
  · rw [hbefore, hbehind, ← List.drop_eq_getElem_cons hi', List.take_append_drop]
  · exact List.getElem?_eq_getElem hi
  · exact List.getElem?_eq_getElem hi'

/-- **The hash detects a substitution of one byte.**  It and the accumulator after every byte
have 28 bits, and keys of one length that differ in exactly one byte have different hashes. -/
theorem pjwhash_detects :
    (∀ (key : List UInt8) (length : UInt32), length.toNat ≤ key.length →
      pjwhash key length = some ((key.take length.toNat).foldl pjwStep 0) ∧
      ∀ n, ((key.take n).foldl pjwStep 0).toNat < 2 ^ 28) ∧
    (∀ (key key' : List UInt8) (length : UInt32) (i : ℕ),
      length.toNat ≤ key.length → length.toNat ≤ key'.length → i < length.toNat →
      key[i]? ≠ key'[i]? → (∀ j < length.toNat, j ≠ i → key[j]? = key'[j]?) →
      pjwhash key length ≠ pjwhash key' length) := by
  constructor
  · exact fun key length h => ⟨pjwhash_eq h, fun n => foldl_pjwStep_lt _⟩
  · intro key key' length i hlen hlen' hi hdiffer hsame heq
    have htake {l : List UInt8} {j : ℕ} (hj : j < length.toNat) :
        (l.take length.toNat)[j]? = l[j]? := by
      rw [List.getElem?_take, if_pos hj]
    have hsame' : ∀ j, j ≠ i →
        (key.take length.toNat)[j]? = (key'.take length.toNat)[j]? := by
      intro j hj
      rw [List.getElem?_take, List.getElem?_take]
      split
      · next hlt => exact hsame j hlt hj
      · rfl
    obtain ⟨p, q, a, b, hp, hp', ha, hb⟩ :=
      exists_split (by rw [List.length_take]; omega) (by rw [List.length_take]; omega) hsame'
    rw [htake hi] at ha hb
    rw [pjwhash_eq hlen, pjwhash_eq hlen', Option.some_inj, hp, hp', List.foldl_append,
      List.foldl_append] at heq
    have hnat := congrArg UInt32.toNat heq
    rw [toNat_foldl_pjwStep (a :: q), toNat_foldl_pjwStep (b :: q)] at hnat
    have hab := foldl_byte_injective (q.map UInt8.toNat) a.toNat_lt b.toNat_lt hnat
    rw [ha, hb, UInt8.toNat_inj.mp hab] at hdiffer
    exact hdiffer rfl

theorem pjwhash_detects_two : pjwhash [1, 2, 3] 3 ≠ pjwhash [1, 18, 3] 3 :=
  pjwhash_detects.2 [1, 2, 3] [1, 18, 3] 3 1 (by decide) (by decide) (by decide) (by decide)
    (by decide)

end Keys

end Hash
end Brlib
