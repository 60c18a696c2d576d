import Brlib.Xxhash.Detect

/-!
# What `xxh64` detects

The accumulators of `xxh64` go into the hash twice, so a change in a stripe may cancel itself.
Behind the stripes every step is injective in the hash and in what it mixes into it.  So inputs
of one length that differ behind the last full stripe in one aligned word, in one aligned half
of a word or in one byte have different hashes (`xxh64_detects`).
-/

namespace Brlib
namespace Xxhash

open Hash Words Unaligned Blocks Bits

variable {w : ℕ} {seed h64 : BitVec 64} {a b s t u u' pre unit unit' post : List UInt8}

section Steps

/-- The loop bodies of `xxh64` have one shape: injective in the hash, -/
theorem stir_injective {p c : BitVec w} {r : ℕ} (hp : Odd p.toNat) (hr : r < w) (y : BitVec w) :
    Function.Injective fun x => xxhRotl (x ^^^ y) r * p + c := fun x x' h => by
  have hmul := mul_odd_injective hp ((BitVec.add_left_inj c).mp h)
  exact (BitVec.xor_left_inj y).mp (xxhRotl_injective hr hmul)

/-- and in what is mixed into it. -/
theorem stir_input_injective {p c : BitVec w} {r : ℕ} (hp : Odd p.toNat) (hr : r < w)
    (x : BitVec w) : Function.Injective fun y => xxhRotl (x ^^^ y) r * p + c := fun y y' h => by
  have hmul := mul_odd_injective hp ((BitVec.add_left_inj c).mp h)
  exact (BitVec.xor_right_inj x).mp (xxhRotl_injective hr hmul)

theorem xxh64Round_input_injective (acc : BitVec 64) : Function.Injective (xxh64Round acc) :=
  mix_input_injective (by decide) (by decide) (by decide) acc

theorem xxh64Word_injective (input : BitVec 64) :
    Function.Injective fun h64 => xxh64Word h64 input :=
  stir_injective (by decide) (by decide) _

theorem xxh64Word_input_injective (h64 : BitVec 64) : Function.Injective (xxh64Word h64) :=
  fun _ _ h => xxh64Round_input_injective 0 (stir_input_injective (by decide) (by decide) h64 h)

theorem xxh64Half_injective (input : BitVec 32) :
    Function.Injective fun h64 => xxh64Half h64 input :=
  stir_injective (by decide) (by decide) _

theorem xxh64Half_input_injective (h64 : BitVec 64) : Function.Injective (xxh64Half h64) := by
  intro x y h
  have hwide := mul_odd_injective (p := prime64x1) (by decide)
    (stir_input_injective (by decide) (by decide) h64 h)
  have hback := congrArg (BitVec.setWidth 32) hwide
  simpa using hback

theorem xxh64Byte_eq (h64 byte : BitVec 64) :
    xxh64Byte h64 byte = xxhRotl (h64 ^^^ byte * prime64x5) 11 * prime64x1 + 0 :=
  (BitVec.add_zero _).symm

theorem xxh64Byte_injective (byte : BitVec 64) :
    Function.Injective fun h64 => xxh64Byte h64 byte := by
  simp only [xxh64Byte_eq]
  exact stir_injective (by decide) (by decide) _

theorem xxh64Byte_input_injective (h64 : BitVec 64) : Function.Injective (xxh64Byte h64) := by
  intro x y h
  rw [xxh64Byte_eq, xxh64Byte_eq] at h
  exact mul_odd_injective (p := prime64x5) (by decide)
    (stir_input_injective (by decide) (by decide) h64 h)

theorem xxh64Avalanche_injective : Function.Injective xxh64Avalanche := fun x y h => by
  have h₁ := xor_ushiftRight_injective (by decide) h
  have h₂ := mul_odd_injective (p := prime64x3) (by decide) h₁
  have h₃ := xor_ushiftRight_injective (by decide) h₂
  have h₄ := mul_odd_injective (p := prime64x2) (by decide) h₃
  exact xor_ushiftRight_injective (by decide) h₄

end Steps

section Tail

abbrev tailWords64 (h64 : BitVec 64) (s : List UInt8) : BitVec 64 × List UInt8 :=
  absorb (fun h64 blk => xxh64Word h64 (word 8 blk)) 8 h64 s

abbrev tailBytes64 (h64 : BitVec 64) (s : List UInt8) : BitVec 64 :=
  s.foldl (fun h64 byte => xxh64Byte h64 (byte.toBitVec.setWidth 64)) h64

theorem tailBytes64_injective (s : List UInt8) :
    Function.Injective fun h64 => tailBytes64 h64 s := by
  induction s with
  | nil => exact fun x y h => h
  | cons byte s ih => exact fun x y h => xxh64Byte_injective _ (ih h)

/-- The hash behind the words. -/
abbrev tailShort (h64 : BitVec 64) (s : List UInt8) : BitVec 64 :=
  xxh64Avalanche (tailBytes64 (xxh64HalfStep h64 s).1 (xxh64HalfStep h64 s).2)

theorem tailShort_injective (s : List UInt8) : Function.Injective fun h64 => tailShort h64 s := by
  intro x y h
  have hbytes := xxh64Avalanche_injective h
  by_cases hs : 4 ≤ s.length
  · simp only [xxh64HalfStep, if_pos hs] at hbytes
    exact xxh64Half_injective _ (tailBytes64_injective _ hbytes)
  · simp only [xxh64HalfStep, if_neg hs] at hbytes
    exact tailBytes64_injective _ hbytes

theorem xxh64Tail_injective (s : List UInt8) :
    Function.Injective fun h64 => xxh64Tail h64 s := by
  intro x y h
  by_contra hne
  have hrest : (tailWords64 x s).2 = (tailWords64 y s).2 := absorb_rest _ (by decide) s
  have hwords : (tailWords64 x s).1 ≠ (tailWords64 y s).1 :=
    absorb_rel (R := (· ≠ ·)) (by decide)
      (fun blk x y _ hxy heq => hxy (xxh64Word_injective _ heq)) hne
  have hshort : tailShort (tailWords64 x s).1 (tailWords64 x s).2 =
      tailShort (tailWords64 y s).1 (tailWords64 y s).2 := h
  rw [hrest] at hshort
  exact hwords (tailShort_injective _ hshort)

theorem xxh64Tail_words (ha : 8 ∣ a.length) :
    xxh64Tail h64 (a ++ s) = xxh64Tail (tailWords64 h64 a).1 s := by
  simp only [xxh64Tail, absorb_append_of_dvd (by decide) ha]

theorem xxh64Tail_short (hs : s.length < 8) : xxh64Tail h64 s = tailShort h64 s := by
  simp only [xxh64Tail, absorb_short hs]

theorem xxh64Tail_word_ne (ha : 8 ∣ a.length) (hu : u.length = 8) (hu' : u'.length = 8)
    (hne : u ≠ u') : xxh64Tail h64 (a ++ (u ++ b)) ≠ xxh64Tail h64 (a ++ (u' ++ b)) := by
  intro h
  have hstep : ∀ v : List UInt8, v.length = 8 → ∀ x,
      xxh64Tail x (v ++ b) = xxh64Tail (xxh64Word x (word 8 v)) b := by
    intro v hv x
    simp only [xxh64Tail, absorb_block (show 0 < 8 by decide) hv]
  rw [xxh64Tail_words ha, xxh64Tail_words ha, hstep u hu, hstep u' hu'] at h
  exact hne (word_inj hu hu' (xxh64Word_input_injective _ (xxh64Tail_injective b h)))

theorem tailShort_half (hu : u.length = 4) :
    tailShort h64 (u ++ b) = xxh64Avalanche (tailBytes64 (xxh64Half h64 (word 4 u)) b) := by
  have hlong : 4 ≤ (u ++ b).length := by simp [hu]
  simp only [tailShort, xxh64HalfStep, if_pos hlong, List.take_left' hu, List.drop_left' hu]

theorem xxh64Tail_half_ne (ha : 8 ∣ a.length) (hu : u.length = 4) (hu' : u'.length = 4)
    (hb : b.length < 4) (hne : u ≠ u') :
    xxh64Tail h64 (a ++ (u ++ b)) ≠ xxh64Tail h64 (a ++ (u' ++ b)) := by
  intro h
  have hshort : ∀ v : List UInt8, v.length = 4 → (v ++ b).length < 8 := by
    intro v hv
    rw [List.length_append]
    omega
  rw [xxh64Tail_words ha, xxh64Tail_words ha, xxh64Tail_short (hshort u hu),
    xxh64Tail_short (hshort u' hu'), tailShort_half hu, tailShort_half hu'] at h
  have hhalf := tailBytes64_injective b (xxh64Avalanche_injective h)
  exact hne (word_inj hu hu' (xxh64Half_input_injective _ hhalf))

theorem tailBytes64_ne {x y : UInt8} (hne : x ≠ y) :
    tailBytes64 h64 (s ++ x :: t) ≠ tailBytes64 h64 (s ++ y :: t) := by
  intro h
  simp only [tailBytes64, List.foldl_append, List.foldl_cons] at h
  have hmix := xxh64Byte_input_injective _ (tailBytes64_injective t h)
  have hnat := congrArg BitVec.toNat hmix
  rw [toNat_setWidth_byte x (by decide), toNat_setWidth_byte y (by decide)] at hnat
  exact hne (UInt8.toNat_inj.mp (by simpa using hnat))

theorem xxh64Tail_byte_ne {x y : UInt8} (ha : 4 ∣ a.length)
    (hshort : s.length + 1 + t.length < 4) (hne : x ≠ y) :
    xxh64Tail h64 (a ++ (s ++ x :: t)) ≠ xxh64Tail h64 (a ++ (s ++ y :: t)) := by
  have hlen : ∀ z : UInt8, (s ++ z :: t).length < 4 := by
    intro z
    rw [List.length_append, List.length_cons]
    omega
  by_cases ha8 : 8 ∣ a.length
  · -- no half of a word is left
    have hbytes : ∀ z : UInt8, ∀ hash, xxh64Tail hash (s ++ z :: t) =
        xxh64Avalanche (tailBytes64 hash (s ++ z :: t)) := by
      intro z hash
      have hz := hlen z
      rw [xxh64Tail_short (by omega)]
      simp only [tailShort, xxh64HalfStep, if_neg (by omega : ¬4 ≤ (s ++ z :: t).length)]
    rw [xxh64Tail_words ha8, xxh64Tail_words ha8, hbytes, hbytes]
    exact fun h => tailBytes64_ne hne (xxh64Avalanche_injective h)
  · obtain ⟨P, v, rfl, hP, hv⟩ := exists_append
      (show a.length = 8 * (a.length / 8) + 4 by omega)
    have hbytes : ∀ z : UInt8, ∀ hash, xxh64Tail hash (v ++ (s ++ z :: t)) =
        xxh64Avalanche (tailBytes64 (xxh64Half hash (word 4 v)) (s ++ z :: t)) := by
      intro z hash
      have hz := hlen z
      rw [xxh64Tail_short (by rw [List.length_append]; omega), tailShort_half hv]
    rw [List.append_assoc, List.append_assoc, xxh64Tail_words ⟨_, hP⟩, xxh64Tail_words ⟨_, hP⟩,
      hbytes, hbytes]
    exact fun h => tailBytes64_ne hne (xxh64Avalanche_injective h)

theorem xxh64Tail_unit_ne (ha : 4 ∣ a.length) (hu : u.length = 4) (hu' : u'.length = 4)
    (hne : u ≠ u') : xxh64Tail h64 (a ++ (u ++ b)) ≠ xxh64Tail h64 (a ++ (u' ++ b)) := by
  by_cases ha8 : 8 ∣ a.length
  · by_cases hb : b.length < 4
    · exact xxh64Tail_half_ne ha8 hu hu' hb hne
    · -- the first half of a word
      obtain ⟨v, c, rfl, hv, -⟩ := exists_append (show b.length = 4 + (b.length - 4) by omega)
      have h := @xxh64Tail_word_ne h64 a c (u ++ v) (u' ++ v)
        ha8 (by simp [hu, hv]) (by simp [hu', hv]) (by simpa using hne)
      simpa using h
  · -- the second half of a word
    obtain ⟨P, v, rfl, hP, hv⟩ := exists_append
      (show a.length = 8 * (a.length / 8) + 4 by omega)
    have h := @xxh64Tail_word_ne h64 P b (v ++ u) (v ++ u')
      ⟨_, hP⟩ (by simp [hu, hv]) (by simp [hu', hv]) (by simpa using hne)
    simpa using h

theorem xxh64Tail_ne_of_byte {x y : UInt8} (hne : x ≠ y) :
    xxh64Tail h64 (a ++ ([x] ++ b)) ≠ xxh64Tail h64 (a ++ ([y] ++ b)) := by
  obtain ⟨P, s, rfl, hP, hs⟩ := exists_append
    (show a.length = 4 * (a.length / 4) + a.length % 4 by omega)
  by_cases hhalf : 4 ≤ s.length + 1 + b.length
  · -- the byte is in a full half of a word
    obtain ⟨c, d, rfl, hc, -⟩ := exists_append
      (show b.length = (3 - s.length) + (b.length - (3 - s.length)) by omega)
    have h := @xxh64Tail_unit_ne h64 P d (s ++ ([x] ++ c)) (s ++ ([y] ++ c)) ⟨_, hP⟩
      (by simp only [List.length_append, List.length_singleton]; omega)
      (by simp only [List.length_append, List.length_singleton]; omega) (by simpa using hne)
    simpa using h
  · have h := @xxh64Tail_byte_ne h64 P s b x y ⟨_, hP⟩ (by omega) hne
    simpa using h

end Tail

theorem xxh64Value_of_short (seed : BitVec 64) {P : List UInt8} (hP : 32 ∣ P.length)
    (hs : s.length < 32) : ∃ h64, ∀ t : List UInt8, t.length = s.length →
      xxh64Value seed (P ++ t) = xxh64Tail h64 t := by
  refine ⟨(if 32 ≤ P.length + s.length then xxh64Merge (xxh64Stripes seed P).1
    else seed + prime64x5) + BitVec.ofNat 64 (P.length + s.length), fun t ht => ?_⟩
  have hstripes : xxh64Stripes seed (P ++ t) = ((xxh64Stripes seed P).1, t) := by
    rw [xxh64Stripes, absorb_append_of_dvd (by decide) hP, absorb_short (by omega)]
    rfl
  rw [xxh64Value, hstripes, List.length_append, ht]

/-- **`xxh64` detects a change of an aligned word, of an aligned half of one and of a byte
behind the last full stripe**, wherever the two inputs are and on whatever CPUs. -/
theorem xxh64_detects {fuel fuel' : ℕ} {cpu cpu' : Cpu} {mem mem' : Bytes}
    {input input' : UInt64} (seed : BitVec 64) (pre unit unit' post : List UInt8)
    (hlen : unit.length = unit'.length)
    (hunit : unit.length = 1 ∨ unit.length = 4 ∧ 4 ∣ pre.length ∨
      unit.length = 8 ∧ 8 ∣ pre.length)
    (htail : (pre ++ (unit ++ post)).length / 32 * 32 ≤ pre.length) (hne : unit ≠ unit')
    (hstocked : Stocked mem input (pre ++ (unit ++ post)))
    (hstocked' : Stocked mem' input' (pre ++ (unit' ++ post)))
    (hfuel : (pre ++ (unit ++ post)).length < fuel)
    (hfuel' : (pre ++ (unit' ++ post)).length < fuel') :
    xxh64 fuel cpu mem input (UInt64.ofNat (pre ++ (unit ++ post)).length) seed ≠
      xxh64 fuel' cpu' mem' input' (UInt64.ofNat (pre ++ (unit' ++ post)).length) seed := by
  rw [xxh64_eq hstocked hfuel, xxh64_eq hstocked' hfuel', Ne, Option.some_inj]
  obtain ⟨P, a, rfl, hP, ha⟩ := exists_append
    (show pre.length = 32 * (pre.length / 32) + pre.length % 32 by omega)
  have hP32 : 32 ∣ P.length := ⟨_, hP⟩
  have hshort : (a ++ (unit ++ post)).length < 32 := by
    simp only [List.length_append] at htail hP ha ⊢
    omega
  obtain ⟨h64, hvalue⟩ := xxh64Value_of_short seed hP32 hshort
  have hsame : (a ++ (unit' ++ post)).length = (a ++ (unit ++ post)).length := by
    simp only [List.length_append, hlen]
  rw [List.append_assoc, List.append_assoc, hvalue _ rfl, hvalue _ hsame]
  rw [List.length_append] at hunit
  rcases hunit with hone | ⟨hfour, halign⟩ | ⟨height, halign⟩
  · obtain ⟨x, rfl⟩ := List.length_eq_one_iff.mp hone
    obtain ⟨y, rfl⟩ := List.length_eq_one_iff.mp (hlen ▸ hone)
    exact xxh64Tail_ne_of_byte (by simpa using hne)
  · exact xxh64Tail_unit_ne (by omega) hfour (hlen ▸ hfour) hne
  · exact xxh64Tail_word_ne (by omega) height (hlen ▸ height) hne

theorem xxh64_detects_byte :
    xxh64 5 (.ofOrder .little) (fun _ => some 7) 100 4 0 ≠
      xxh64 5 (.ofOrder .big) (fun q => some (if q = 102 then 8 else 7)) 100 4 0 :=
  xxh64_detects 0 [7, 7] [7] [8] [7] rfl (.inl rfl) (by decide) (by decide)
    (stocked_of_stored (by decide) (by decide) (by decide))
    (stocked_of_stored (by decide) (by decide) (by decide)) (by decide) (by decide)

end Xxhash
end Brlib
