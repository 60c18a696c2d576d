import Brlib.Bits.Mixing
import Brlib.Xxhash.OneShot

/-!
# What `xxh32` detects

Every step of `xxh32` is injective in the hash and in what it mixes into it, and a word goes
into one accumulator only.  So inputs of one length that differ in one aligned word, or in one
byte, have different hashes (`xxh32_detects`).
-/

namespace Brlib
namespace Xxhash

open Hash Words Unaligned Blocks Bits

variable {w : ℕ} {seed h32 : BitVec 32} {a b s t u u' pre unit unit' post : List UInt8}

section Steps

theorem xxhRotl_injective {r : ℕ} (hr : r < w) :
    Function.Injective fun x : BitVec w => xxhRotl x r := by
  have heq : (fun x : BitVec w => xxhRotl x r) = fun x => x.rotateLeft r := by
    funext x
    rw [BitVec.rotateLeft_def, Nat.mod_eq_of_lt hr, xxhRotl]
  rw [heq]
  exact rotateLeft_injective r

/-- The rounds and the loop bodies have one shape: injective in the hash, -/
theorem mix_injective {p q : BitVec w} {r : ℕ} (hq : Odd q.toNat) (hr : r < w) (y : BitVec w) :
    Function.Injective fun x => xxhRotl (x + y * p) r * q := fun x x' h => by
  have hrot := xxhRotl_injective hr (mul_odd_injective hq h)
  exact (BitVec.add_left_inj (y * p)).mp hrot

/-- and in what is mixed into it. -/
theorem mix_input_injective {p q : BitVec w} {r : ℕ} (hp : Odd p.toNat) (hq : Odd q.toNat)
    (hr : r < w) (x : BitVec w) :
    Function.Injective fun y => xxhRotl (x + y * p) r * q := fun y y' h => by
  have hrot := xxhRotl_injective hr (mul_odd_injective hq h)
  exact mul_odd_injective hp ((BitVec.add_right_inj x).mp hrot)

theorem xxh32Round_injective (input : BitVec 32) :
    Function.Injective fun seed => xxh32Round seed input :=
  mix_injective (by decide) (by decide) input

theorem xxh32Round_input_injective (seed : BitVec 32) : Function.Injective (xxh32Round seed) :=
  mix_input_injective (by decide) (by decide) (by decide) seed

theorem xxh32Word_injective (input : BitVec 32) :
    Function.Injective fun h32 => xxh32Word h32 input :=
  mix_injective (by decide) (by decide) input

theorem xxh32Word_input_injective (h32 : BitVec 32) : Function.Injective (xxh32Word h32) :=
  mix_input_injective (by decide) (by decide) (by decide) h32

theorem xxh32Byte_injective (byte : BitVec 32) :
    Function.Injective fun h32 => xxh32Byte h32 byte :=
  mix_injective (by decide) (by decide) byte

theorem xxh32Byte_input_injective (h32 : BitVec 32) : Function.Injective (xxh32Byte h32) :=
  mix_input_injective (by decide) (by decide) (by decide) h32

theorem xxh32Avalanche_injective : Function.Injective xxh32Avalanche := fun x y h => by
  have h₁ := xor_ushiftRight_injective (by decide) h
  have h₂ := mul_odd_injective (p := prime32x3) (by decide) h₁
  have h₃ := xor_ushiftRight_injective (by decide) h₂
  have h₄ := mul_odd_injective (p := prime32x2) (by decide) h₃
  exact xor_ushiftRight_injective (by decide) h₄

theorem word_inj {k : ℕ} (hu : u.length = k) (hu' : u'.length = k) (h : word k u = word k u') :
    u = u' := by
  have hlt := leValue_lt u
  have hlt' := leValue_lt u'
  rw [hu, pow_256] at hlt
  rw [hu', pow_256] at hlt'
  have hnat := congrArg BitVec.toNat h
  rw [word, word, BitVec.toNat_ofNat, BitVec.toNat_ofNat, Nat.mod_eq_of_lt hlt,
    Nat.mod_eq_of_lt hlt'] at hnat
  exact (leValue_inj (hu.trans hu'.symm)).mp hnat

end Steps

section Tail

abbrev tailWords (h32 : BitVec 32) (s : List UInt8) : BitVec 32 × List UInt8 :=
  absorb (fun h32 blk => xxh32Word h32 (word 4 blk)) 4 h32 s

abbrev tailBytes (h32 : BitVec 32) (s : List UInt8) : BitVec 32 :=
  s.foldl (fun h32 byte => xxh32Byte h32 (byte.toBitVec.setWidth 32)) h32

theorem tailBytes_injective (s : List UInt8) : Function.Injective fun h32 => tailBytes h32 s := by
  induction s with
  | nil => exact fun x y h => h
  | cons byte s ih => exact fun x y h => xxh32Byte_injective _ (ih h)

theorem xxh32Tail_injective (s : List UInt8) :
    Function.Injective fun h32 => xxh32Tail h32 s := by
  intro x y h
  by_contra hne
  have hrest : (tailWords x s).2 = (tailWords y s).2 := absorb_rest _ (by decide) s
  have hwords : (tailWords x s).1 ≠ (tailWords y s).1 :=
    absorb_rel (R := (· ≠ ·)) (by decide)
      (fun blk x y _ hxy heq => hxy (xxh32Word_injective _ heq)) hne
  have hbytes : tailBytes (tailWords x s).1 (tailWords x s).2 =
      tailBytes (tailWords y s).1 (tailWords y s).2 := xxh32Avalanche_injective h
  rw [hrest] at hbytes
  exact hwords (tailBytes_injective _ hbytes)

theorem xxh32Tail_words (ha : 4 ∣ a.length) :
    xxh32Tail h32 (a ++ s) = xxh32Tail (tailWords h32 a).1 s := by
  simp only [xxh32Tail, absorb_append_of_dvd (by decide) ha]

theorem xxh32Tail_word_ne (ha : 4 ∣ a.length) (hu : u.length = 4) (hu' : u'.length = 4)
    (hne : u ≠ u') : xxh32Tail h32 (a ++ (u ++ b)) ≠ xxh32Tail h32 (a ++ (u' ++ b)) := by
  intro h
  have hstep : ∀ v : List UInt8, v.length = 4 → ∀ x,
      xxh32Tail x (v ++ b) = xxh32Tail (xxh32Word x (word 4 v)) b := by
    intro v hv x
    simp only [xxh32Tail, absorb_block (show 0 < 4 by decide) hv]
  rw [xxh32Tail_words ha, xxh32Tail_words ha, hstep u hu, hstep u' hu'] at h
  exact hne (word_inj hu hu' (xxh32Word_input_injective _ (xxh32Tail_injective b h)))

theorem xxh32Tail_byte_ne {x y : UInt8} (ha : 4 ∣ a.length)
    (hshort : s.length + 1 + t.length < 4) (hne : x ≠ y) :
    xxh32Tail h32 (a ++ (s ++ x :: t)) ≠ xxh32Tail h32 (a ++ (s ++ y :: t)) := by
  intro h
  have hbytes : ∀ z : UInt8, ∀ hash, xxh32Tail hash (s ++ z :: t) =
      xxh32Avalanche (tailBytes (xxh32Byte (tailBytes hash s) (z.toBitVec.setWidth 32)) t) := by
    intro z hash
    have hlen : (s ++ z :: t).length < 4 := by
      rw [List.length_append, List.length_cons]
      omega
    simp only [xxh32Tail, absorb_short hlen, List.foldl_append, List.foldl_cons]
  rw [xxh32Tail_words ha, xxh32Tail_words ha, hbytes, hbytes] at h
  have hmix := xxh32Byte_input_injective _
    (tailBytes_injective t (xxh32Avalanche_injective h))
  have hnat := congrArg BitVec.toNat hmix
  rw [toNat_setWidth_byte x (by decide), toNat_setWidth_byte y (by decide)] at hnat
  exact hne (UInt8.toNat_inj.mp (by simpa using hnat))

end Tail

section Lanes

/-- The accumulators differ in one of them. -/
def OneLane (x y : Lanes w) : Prop :=
  (x.v1 ≠ y.v1 ∧ x.v2 = y.v2 ∧ x.v3 = y.v3 ∧ x.v4 = y.v4) ∨
  (x.v1 = y.v1 ∧ x.v2 ≠ y.v2 ∧ x.v3 = y.v3 ∧ x.v4 = y.v4) ∨
  (x.v1 = y.v1 ∧ x.v2 = y.v2 ∧ x.v3 ≠ y.v3 ∧ x.v4 = y.v4) ∨
  (x.v1 = y.v1 ∧ x.v2 = y.v2 ∧ x.v3 = y.v3 ∧ x.v4 ≠ y.v4)

theorem OneLane.step {x y : Lanes 32} (h : OneLane x y) (blk : List UInt8) :
    OneLane (stripeStep (k := 4) xxh32Round x blk) (stripeStep (k := 4) xxh32Round y blk) := by
  have hround : ∀ {m n : BitVec 32} (c : BitVec 32), m ≠ n → xxh32Round m c ≠ xxh32Round n c :=
    fun c hne heq => hne (xxh32Round_injective c heq)
  have hsame : ∀ {m n : BitVec 32} (c : BitVec 32), m = n → xxh32Round m c = xxh32Round n c :=
    fun c heq => by rw [heq]
  rcases h with ⟨h1, h2, h3, h4⟩ | ⟨h1, h2, h3, h4⟩ | ⟨h1, h2, h3, h4⟩ | ⟨h1, h2, h3, h4⟩
  · exact .inl ⟨hround _ h1, hsame _ h2, hsame _ h3, hsame _ h4⟩
  · exact .inr (.inl ⟨hsame _ h1, hround _ h2, hsame _ h3, hsame _ h4⟩)
  · exact .inr (.inr (.inl ⟨hsame _ h1, hsame _ h2, hround _ h3, hsame _ h4⟩))
  · exact .inr (.inr (.inr ⟨hsame _ h1, hsame _ h2, hsame _ h3, hround _ h4⟩))

/-- A stripe with another word changes the accumulator of that word. -/
theorem oneLane_of_word (v : Lanes 32) (ha : 4 ∣ a.length) (hu : u.length = 4)
    (hu' : u'.length = 4) (hlen : a.length + 4 + b.length = 16) (hne : u ≠ u') :
    OneLane (stripeStep (k := 4) xxh32Round v (a ++ (u ++ b)))
      (stripeStep (k := 4) xxh32Round v (a ++ (u' ++ b))) := by
  have hround : ∀ x, xxh32Round x (word 4 u) ≠ xxh32Round x (word 4 u') := fun x heq =>
    hne (word_inj hu hu' (xxh32Round_input_injective x heq))
  obtain ⟨j, hj⟩ := ha
  have hj4 : j < 4 := by omega
  interval_cases j
  · obtain ⟨b₁, b', rfl, hb₁, hb'⟩ := exists_append (show b.length = 4 + 8 by omega)
    obtain ⟨b₂, b₃, rfl, hb₂, hb₃⟩ := exists_append (show b'.length = 4 + 4 by omega)
    rw [List.length_eq_zero_iff.mp hj, List.nil_append, List.nil_append,
      stripeStep_append hu hb₁ hb₂ hb₃, stripeStep_append hu' hb₁ hb₂ hb₃]
    exact .inl ⟨hround _, rfl, rfl, rfl⟩
  · obtain ⟨b₁, b₂, rfl, hb₁, hb₂⟩ := exists_append (show b.length = 4 + 4 by omega)
    rw [stripeStep_append hj hu hb₁ hb₂, stripeStep_append hj hu' hb₁ hb₂]
    exact .inr (.inl ⟨rfl, hround _, rfl, rfl⟩)
  · obtain ⟨a₁, a₂, rfl, ha₁, ha₂⟩ := exists_append (show a.length = 4 + 4 by omega)
    rw [List.append_assoc, List.append_assoc, stripeStep_append ha₁ ha₂ hu (by omega),
      stripeStep_append ha₁ ha₂ hu' (by omega)]
    exact .inr (.inr (.inl ⟨rfl, rfl, hround _, rfl⟩))
  · obtain ⟨a₁, a', rfl, ha₁, ha'⟩ := exists_append (show a.length = 4 + 8 by omega)
    obtain ⟨a₂, a₃, rfl, ha₂, ha₃⟩ := exists_append (show a'.length = 4 + 4 by omega)
    have hb : b = [] := List.length_eq_zero_iff.mp (by omega)
    rw [hb, List.append_nil, List.append_nil, List.append_assoc, List.append_assoc,
      List.append_assoc, List.append_assoc, stripeStep_append ha₁ ha₂ ha₃ hu,
      stripeStep_append ha₁ ha₂ ha₃ hu']
    exact .inr (.inr (.inr ⟨rfl, rfl, rfl, hround _⟩))

theorem OneLane.merge_ne {x y : Lanes 32} (h : OneLane x y) : xxh32Merge x ≠ xxh32Merge y := by
  rcases h with ⟨h1, h2, h3, h4⟩ | ⟨h1, h2, h3, h4⟩ | ⟨h1, h2, h3, h4⟩ | ⟨h1, h2, h3, h4⟩ <;>
    intro heq
  · simp only [xxh32Merge, h2, h3, h4, BitVec.add_left_inj] at heq
    exact h1 (xxhRotl_injective (by decide) heq)
  · simp only [xxh32Merge, h1, h3, h4, BitVec.add_left_inj, BitVec.add_right_inj] at heq
    exact h2 (xxhRotl_injective (by decide) heq)
  · simp only [xxh32Merge, h1, h2, h4, BitVec.add_left_inj, BitVec.add_right_inj] at heq
    exact h3 (xxhRotl_injective (by decide) heq)
  · simp only [xxh32Merge, h1, h2, h3, BitVec.add_right_inj] at heq
    exact h4 (xxhRotl_injective (by decide) heq)

end Lanes

section Whole

theorem xxh32Value_of_short (seed : BitVec 32) {P : List UInt8} (hP : 16 ∣ P.length)
    (hs : s.length < 16) : ∃ h32, ∀ t : List UInt8, t.length = s.length →
      xxh32Value seed (P ++ t) = xxh32Tail h32 t := by
  refine ⟨(if 16 ≤ P.length + s.length then xxh32Merge (xxh32Stripes seed P).1
    else seed + prime32x5) + BitVec.ofNat 32 (P.length + s.length), fun t ht => ?_⟩
  have hstripes : xxh32Stripes seed (P ++ t) = ((xxh32Stripes seed P).1, t) := by
    rw [xxh32Stripes, absorb_append_of_dvd (by decide) hP, absorb_short (by omega)]
    rfl
  rw [xxh32Value, hstripes, List.length_append, ht]

theorem xxh32Value_word_ne (seed : BitVec 32) (hpre : 4 ∣ pre.length) (hu : u.length = 4)
    (hu' : u'.length = 4) (hne : u ≠ u') :
    xxh32Value seed (pre ++ (u ++ post)) ≠ xxh32Value seed (pre ++ (u' ++ post)) := by
  obtain ⟨P, a, rfl, hP, ha⟩ := exists_append
    (show pre.length = 16 * (pre.length / 16) + pre.length % 16 by omega)
  have hP16 : 16 ∣ P.length := ⟨_, hP⟩
  have ha4 : 4 ∣ a.length := by
    rw [List.length_append] at hpre
    exact (Nat.dvd_add_right (Dvd.dvd.trans (by decide) hP16)).mp hpre
  have ha16 : a.length < 16 := by
    rw [ha]
    exact Nat.mod_lt _ (by decide)
  rw [List.append_assoc, List.append_assoc]
  by_cases hshort : a.length + 4 + post.length < 16
  · -- the word is in the tail
    obtain ⟨h32, htail⟩ := xxh32Value_of_short (s := a ++ (u ++ post)) seed hP16
      (by simp only [List.length_append]; omega)
    rw [htail _ rfl, htail _ (by simp only [List.length_append]; omega)]
    exact xxh32Tail_word_ne ha4 hu hu' hne
  · -- the word is in a stripe, and changes its accumulator to the end
    obtain ⟨b, post, rfl, hb, -⟩ := exists_append
      (show post.length = (12 - a.length) + (post.length - (12 - a.length)) by omega)
    have hstripes : ∀ v : List UInt8, v.length = 4 →
        xxh32Stripes seed (P ++ (a ++ (v ++ (b ++ post)))) =
          absorb (stripeStep (k := 4) xxh32Round) 16
            (stripeStep (k := 4) xxh32Round (xxh32Stripes seed P).1 (a ++ (v ++ b))) post := by
      intro v hv
      rw [xxh32Stripes, absorb_append_of_dvd (by decide) hP16,
        show a ++ (v ++ (b ++ post)) = a ++ (v ++ b) ++ post by simp,
        absorb_block (by decide) (by simp only [List.length_append]; omega)]
      rfl
    have hlanes := absorb_rel (f := stripeStep (k := 4) xxh32Round) (R := OneLane) (n := 16)
      (s := post) (by decide) (fun blk x y _ hxy => OneLane.step hxy blk)
      (oneLane_of_word (xxh32Stripes seed P).1 ha4 hu hu'
        (show a.length + 4 + b.length = 16 by omega) hne)
    have hrest := absorb_rest (f := stripeStep (k := 4) xxh32Round)
      (a := stripeStep (k := 4) xxh32Round (xxh32Stripes seed P).1 (a ++ (u ++ b)))
      (b := stripeStep (k := 4) xxh32Round (xxh32Stripes seed P).1 (a ++ (u' ++ b)))
      (stripeStep (k := 4) xxh32Round) (show 0 < 16 by decide) post
    intro heq
    rw [xxh32Value, xxh32Value, hstripes u hu, hstripes u' hu', ← hrest,
      if_pos (by simp only [List.length_append]; omega),
      if_pos (by simp only [List.length_append]; omega)] at heq
    have hlen : (P ++ (a ++ (u ++ (b ++ post)))).length =
        (P ++ (a ++ (u' ++ (b ++ post)))).length := by
      simp only [List.length_append, hu, hu']
    rw [hlen] at heq
    exact hlanes.merge_ne ((BitVec.add_left_inj _).mp (xxh32Tail_injective _ heq))

theorem xxh32Value_byte_ne (seed : BitVec 32) {x y : UInt8} (hne : x ≠ y) :
    xxh32Value seed (pre ++ ([x] ++ post)) ≠ xxh32Value seed (pre ++ ([y] ++ post)) := by
  by_cases hword : 4 ≤ pre.length % 4 + 1 + post.length
  · -- the byte is in a full word
    obtain ⟨P, a, rfl, hP, ha⟩ := exists_append
      (show pre.length = 4 * (pre.length / 4) + pre.length % 4 by omega)
    obtain ⟨b, post, rfl, hb, -⟩ := exists_append
      (show post.length = (3 - a.length) + (post.length - (3 - a.length)) by omega)
    have h : xxh32Value seed (P ++ ((a ++ ([x] ++ b)) ++ post)) ≠
        xxh32Value seed (P ++ ((a ++ ([y] ++ b)) ++ post)) := xxh32Value_word_ne seed ⟨_, hP⟩
      (by simp only [List.length_append, List.length_singleton]; omega)
      (by simp only [List.length_append, List.length_singleton]; omega) (by simpa using hne)
    simpa using h
  · obtain ⟨P, a, rfl, hP, ha⟩ := exists_append
      (show pre.length = 16 * (pre.length / 16) + pre.length % 16 by omega)
    obtain ⟨a, s, rfl, ha₁, ha₂⟩ := exists_append
      (show a.length = 4 * (a.length / 4) + a.length % 4 by omega)
    obtain ⟨h32, htail⟩ := xxh32Value_of_short (s := a ++ (s ++ x :: post)) seed ⟨_, hP⟩
      (by simp only [List.length_append, List.length_cons] at *; omega)
    simp only [List.append_assoc, List.singleton_append]
    rw [htail _ rfl, htail _ (by simp)]
    exact xxh32Tail_byte_ne ⟨_, ha₁⟩ (by simp only [List.length_append] at *; omega) hne

end Whole

/-- **`xxh32` detects a change of an aligned word, and of a byte anywhere**, wherever the two
inputs are and on whatever CPUs. -/
theorem xxh32_detects {fuel fuel' : ℕ} {cpu cpu' : Cpu} {mem mem' : Bytes}
    {input input' : UInt64} (seed : BitVec 32) (pre unit unit' post : List UInt8)
    (hlen : unit.length = unit'.length)
    (hunit : unit.length = 1 ∨ unit.length = 4 ∧ 4 ∣ pre.length) (hne : unit ≠ unit')
    (hstocked : Stocked mem input (pre ++ (unit ++ post)))
    (hstocked' : Stocked mem' input' (pre ++ (unit' ++ post)))
    (hfuel : (pre ++ (unit ++ post)).length < fuel)
    (hfuel' : (pre ++ (unit' ++ post)).length < fuel') :
    xxh32 fuel cpu mem input (UInt64.ofNat (pre ++ (unit ++ post)).length) seed ≠
      xxh32 fuel' cpu' mem' input' (UInt64.ofNat (pre ++ (unit' ++ post)).length) seed := by
  rw [xxh32_eq hstocked hfuel, xxh32_eq hstocked' hfuel', Ne, Option.some_inj]
  rcases hunit with hone | ⟨hfour, halign⟩
  · obtain ⟨x, rfl⟩ := List.length_eq_one_iff.mp hone
    obtain ⟨y, rfl⟩ := List.length_eq_one_iff.mp (hlen ▸ hone)
    exact xxh32Value_byte_ne seed (by simpa using hne)
  · exact xxh32Value_word_ne seed halign hfour (hlen ▸ hfour) hne

theorem xxh32_detects_byte :
    xxh32 5 (.ofOrder .little) (fun _ => some 7) 100 4 0 ≠
      xxh32 5 (.ofOrder .big) (fun q => some (if q = 102 then 8 else 7)) 100 4 0 :=
  xxh32_detects 0 [7, 7] [7] [8] [7] rfl (.inl rfl) (by decide)
    (stocked_of_stored (by decide) (by decide) (by decide))
    (stocked_of_stored (by decide) (by decide) (by decide)) (by decide) (by decide)

end Xxhash
end Brlib
