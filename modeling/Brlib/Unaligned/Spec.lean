import Brlib.Unaligned.Basic

/-!
# What is put is what is got

Every accessor has a number of bytes and an order for them.  The bytes in memory depend on
neither the alignment nor the byte order of the CPU, so that a value put by one CPU is got by
any other (`unaligned_roundTrip`).
-/

namespace Brlib
namespace Unaligned

open Hash Words

/-- The accessors, by the format of what they access. -/
inductive Format where
  | le16
  | le24
  | le32
  | le64
  | be16
  | be24
  | be32
  | be48
  | be64
deriving DecidableEq, Repr

namespace Format

def size : Format → ℕ
  | le16 | be16 => 2
  | le24 | be24 => 3
  | le32 | be32 => 4
  | be48 => 6
  | le64 | be64 => 8

def width : Format → ℕ
  | le16 | be16 => 16
  | le24 | be24 | le32 | be32 => 32
  | be48 | le64 | be64 => 64

/-- The bytes by their significance, the least first, if they are `s` by their addresses. -/
def arrange : Format → List UInt8 → List UInt8
  | le16 | le24 | le32 | le64 => id
  | be16 | be24 | be32 | be48 | be64 => List.reverse

/-- The value with the bytes `s`. -/
def value (fmt : Format) (s : List UInt8) : ℕ :=
  leValue (fmt.arrange s)

def bytes (fmt : Format) (val : ℕ) : List UInt8 :=
  fmt.arrange (leBytes fmt.size val)

/-- `get_unaligned` for a format. -/
def get (cpu : Cpu) : (fmt : Format) → Bytes → UInt64 → Option (BitVec fmt.width)
  | le16 => getUnalignedLe16 cpu
  | le24 => getUnalignedLe24
  | le32 => getUnalignedLe32 cpu
  | le64 => getUnalignedLe64 cpu
  | be16 => getUnalignedBe16 cpu
  | be24 => getUnalignedBe24
  | be32 => getUnalignedBe32 cpu
  | be48 => getUnalignedBe48
  | be64 => getUnalignedBe64 cpu

/-- `put_unaligned` for a format. -/
def put (cpu : Cpu) : (fmt : Format) → BitVec fmt.width → UInt64 → Bytes → Option Bytes
  | le16 => putUnalignedLe16 cpu
  | le24 => putUnalignedLe24
  | le32 => putUnalignedLe32 cpu
  | le64 => putUnalignedLe64 cpu
  | be16 => putUnalignedBe16 cpu
  | be24 => putUnalignedBe24
  | be32 => putUnalignedBe32 cpu
  | be48 => putUnalignedBe48
  | be64 => putUnalignedBe64 cpu

end Format

open Format

variable {mem : Bytes} {p q : UInt64} {s t : List UInt8} {byte : UInt8} {cpu : Cpu}
variable {fmt : Format} {w : ℕ}

section Bytes

theorem add_ofNat_succ (p : UInt64) (i : ℕ) :
    p + UInt64.ofNat (i + 1) = p + 1 + UInt64.ofNat i := by
  rw [UInt64.ofNat_add, UInt64.add_comm (UInt64.ofNat i), ← UInt64.add_assoc]
  rfl

theorem ne_add_ofNat {i : ℕ} (hi : i + 1 < 2 ^ 64) : p ≠ p + 1 + UInt64.ofNat i := by
  intro heq
  have h := congrArg UInt64.toNat heq
  have hp := p.toNat_lt
  rw [← add_ofNat_succ, UInt64.toNat_add, UInt64.toNat_ofNat'] at h
  omega

theorem readBytes_eq (hstored : Stored mem p (s ++ t)) : readBytes mem s.length p = some s := by
  induction s generalizing p with
  | nil => rfl
  | cons byte s ih => simp [readBytes, hstored.1, ih hstored.2]

theorem exists_stored {n : ℕ} (hmapped : ∀ i < n, (mem (p + UInt64.ofNat i)).isSome) :
    ∃ s, s.length = n ∧ Stored mem p s := by
  induction n generalizing p with
  | zero => exact ⟨[], rfl, trivial⟩
  | succ n ih =>
      obtain ⟨byte, hbyte⟩ := Option.isSome_iff_exists.mp (hmapped 0 (by omega))
      obtain ⟨s, hlen, hstored⟩ := ih fun i hi => by
        rw [← add_ofNat_succ]
        exact hmapped (i + 1) (by omega)
      exact ⟨byte :: s, by rw [List.length_cons, hlen], by simpa using hbyte, hstored⟩

theorem stored_congr {mem' : Bytes} (hstored : Stored mem p s)
    (hsame : ∀ i < s.length, mem' (p + UInt64.ofNat i) = mem (p + UInt64.ofNat i)) :
    Stored mem' p s := by
  induction s generalizing p with
  | nil => trivial
  | cons byte s ih =>
      have hfirst := hsame 0 (by simp)
      refine ⟨?_, ih hstored.2 fun i hi => ?_⟩
      · rw [← hstored.1]
        simpa using hfirst
      · rw [← add_ofNat_succ]
        exact hsame (i + 1) (by simpa using hi)

/-- A store of bytes one after the other; there are not so many that it runs into itself. -/
theorem writeBytes_spec (hstored : Stored mem p t) (hlen : s.length = t.length)
    (hsmall : s.length ≤ 2 ^ 64) :
    ∃ mem', writeBytes s p mem = some mem' ∧ Stored mem' p s ∧
      ∀ q, (∀ i < s.length, q ≠ p + UInt64.ofNat i) → mem' q = mem q := by
  induction s generalizing mem p t with
  | nil => exact ⟨mem, rfl, trivial, fun q _ => rfl⟩
  | cons byte s ih =>
      cases t with
      | nil => simp at hlen
      | cons old t =>
          simp only [List.length_cons, Nat.add_right_cancel_iff] at hlen hsmall
          have hout : ∀ i < s.length, p ≠ p + 1 + UInt64.ofNat i := fun i hi =>
            ne_add_ofNat (by omega)
          -- the first store misses the bytes behind
          have hrest : Stored (Function.update mem p (some byte)) (p + 1) t :=
            stored_congr hstored.2 fun i hi => Function.update_of_ne (hout i (by omega)).symm _ _
          obtain ⟨mem', hwrite, hstored', hsame⟩ := ih hrest hlen (by omega)
          refine ⟨mem', ?_, ⟨?_, hstored'⟩, fun q hq => ?_⟩
          · simp [writeBytes, hstored.1, hwrite]
          · rw [hsame p hout, Function.update_self]
          · have hfirst : q ≠ p := by simpa using hq 0 (by simp)
            have hbehind : ∀ i < s.length, q ≠ p + 1 + UInt64.ofNat i := fun i hi => by
              rw [← add_ofNat_succ]
              exact hq (i + 1) (by simpa using hi)
            rw [hsame q hbehind, Function.update_of_ne hfirst]

theorem writeBytes_same (hstored : Stored mem p s) : writeBytes s p mem = some mem := by
  induction s generalizing p with
  | nil => rfl
  | cons byte s ih =>
      have hsame : Function.update mem p (some byte) = mem := by
        rw [← hstored.1, Function.update_eq_self]
      simp [writeBytes, hstored.1, hsame, ih hstored.2]

end Bytes

section Words

theorem Cpu.leToCpu_load (cpu : Cpu) (s : List UInt8) :
    cpu.leToCpu s.length (cpu.order.load s) = leValue s := by
  rw [cpu.leToCpu_eq _ _ (load_lt cpu.order s), swapLe_load]

theorem Cpu.beToCpu_load (cpu : Cpu) (s : List UInt8) :
    cpu.beToCpu s.length (cpu.order.load s) = leValue s.reverse := by
  rw [cpu.beToCpu_eq _ _ (load_lt cpu.order s), swapBe_load]

theorem Cpu.store_cpuToLe (cpu : Cpu) {n val : ℕ} (hval : val < 256 ^ n) :
    cpu.order.store n (cpu.cpuToLe n val) = leBytes n val := by
  rw [cpu.cpuToLe_eq n val hval, store_swapLe]

theorem Cpu.store_cpuToBe (cpu : Cpu) {n val : ℕ} (hval : val < 256 ^ n) :
    cpu.order.store n (cpu.cpuToBe n val) = (leBytes n val).reverse := by
  rw [cpu.cpuToBe_eq n val hval, store_swapBe]

theorem getUnalignedLe_eq (cpu : Cpu) (hstored : Stored mem p (s ++ t)) :
    getUnalignedLe cpu s.length mem p = some (BitVec.ofNat _ (leValue s)) := by
  simp [getUnalignedLe, getUnalignedT, readBytes_eq hstored, Cpu.leToCpu_load]

theorem getUnalignedBe_eq (cpu : Cpu) (hstored : Stored mem p (s ++ t)) :
    getUnalignedBe cpu s.length mem p = some (BitVec.ofNat _ (leValue s.reverse)) := by
  simp [getUnalignedBe, getUnalignedT, readBytes_eq hstored, Cpu.beToCpu_load]

/-- One more byte above the bytes `s` of a word. -/
theorem toNat_or_shiftLeft {x : BitVec w} (hx : x.toNat = leValue s) (byte : UInt8)
    (hw : 8 * (s.length + 1) ≤ w) :
    (x ||| byte.toBitVec.setWidth w <<< (8 * s.length)).toNat = leValue (s ++ [byte]) := by
  have hlt := leValue_lt s
  have hbyte := byte.toNat_lt
  have hpow := pow_256 s.length
  have hle : 256 ^ (s.length + 1) ≤ 2 ^ w := by
    rw [pow_256]
    exact Nat.pow_le_pow_right (by decide) hw
  have hmul : byte.toNat * 2 ^ (8 * s.length) < 2 ^ w := by
    calc byte.toNat * 2 ^ (8 * s.length) < 256 * 2 ^ (8 * s.length) :=
          Nat.mul_lt_mul_of_pos_right hbyte (Nat.two_pow_pos _)
      _ ≤ 2 ^ w := by rwa [← hpow, ← pow_succ']
  have hset : (byte.toBitVec.setWidth w).toNat = byte.toNat := by
    rw [BitVec.toNat_setWidth]
    refine Nat.mod_eq_of_lt (lt_of_lt_of_le hbyte ?_)
    exact Nat.pow_le_pow_right (by decide) (by omega)
  rw [BitVec.toNat_or, BitVec.toNat_shiftLeft, hset, hx, Nat.shiftLeft_eq, Nat.mod_eq_of_lt hmul,
    Nat.or_comm, ← Nat.shiftLeft_eq, ← Nat.shiftLeft_add_eq_or_of_lt (hpow ▸ hlt),
    Nat.shiftLeft_eq, leValue_append, hpow]
  simp only [leValue_cons, leValue_nil]
  ring

end Words

section Odd

theorem stored_getElem (hstored : Stored mem p s) {i : ℕ} (hi : i < s.length) :
    mem (p + UInt64.ofNat i) = some s[i] := by
  induction s generalizing p i with
  | nil => simp at hi
  | cons byte s ih =>
      cases i with
      | zero => simpa using hstored.1
      | succ i =>
          rw [add_ofNat_succ]
          exact ih hstored.2 (by simpa using hi)

theorem readWord_eq (w : ℕ) (hstored : Stored mem p s) {i : ℕ} (hi : i < s.length) :
    readWord w mem p (UInt64.ofNat i) = some (s[i].toBitVec.setWidth w) := by
  simp [readWord, stored_getElem hstored hi]

theorem toNat_setWidth_byte (byte : UInt8) (hw : 8 ≤ w) :
    (byte.toBitVec.setWidth w).toNat = leValue [byte] := by
  have hbyte := byte.toNat_lt
  rw [BitVec.toNat_setWidth, leValue_cons, leValue_nil, Nat.mul_zero, Nat.add_zero]
  exact Nat.mod_eq_of_lt (lt_of_lt_of_le hbyte (Nat.pow_le_pow_right (by decide) hw))

theorem eq_ofNat_of_toNat {x : BitVec w} (hx : x.toNat = leValue s) :
    x = BitVec.ofNat w (leValue s) := by
  rw [← hx, BitVec.ofNat_toNat, BitVec.setWidth_eq]

theorem or_three (a b c : UInt8) :
    a.toBitVec.setWidth 32 ||| b.toBitVec.setWidth 32 <<< 8 ||| c.toBitVec.setWidth 32 <<< 16 =
      BitVec.ofNat 32 (leValue [a, b, c]) := by
  have h₁ := toNat_setWidth_byte a (show 8 ≤ 32 by decide)
  have h₂ := toNat_or_shiftLeft h₁ b (by simp)
  have h₃ := toNat_or_shiftLeft h₂ c (by simp)
  exact eq_ofNat_of_toNat h₃

theorem or_six (a b c d e f : UInt8) :
    a.toBitVec.setWidth 64 ||| b.toBitVec.setWidth 64 <<< 8 ||| c.toBitVec.setWidth 64 <<< 16 |||
      d.toBitVec.setWidth 64 <<< 24 ||| e.toBitVec.setWidth 64 <<< 32 |||
      f.toBitVec.setWidth 64 <<< 40 = BitVec.ofNat 64 (leValue [a, b, c, d, e, f]) := by
  have h₁ := toNat_setWidth_byte a (show 8 ≤ 64 by decide)
  have h₂ := toNat_or_shiftLeft h₁ b (by simp)
  have h₃ := toNat_or_shiftLeft h₂ c (by simp)
  have h₄ := toNat_or_shiftLeft h₃ d (by simp)
  have h₅ := toNat_or_shiftLeft h₄ e (by simp)
  have h₆ := toNat_or_shiftLeft h₅ f (by simp)
  exact eq_ofNat_of_toNat h₆

theorem or_three_reverse (x y z : BitVec w) : x ||| y ||| z = z ||| y ||| x := by
  ac_rfl

theorem or_six_reverse (u v w' x y z : BitVec w) :
    u ||| v ||| w' ||| x ||| y ||| z = z ||| y ||| x ||| w' ||| v ||| u := by
  ac_rfl

theorem getUnalignedLe24_eq {a b c : UInt8} (hstored : Stored mem p [a, b, c]) :
    getUnalignedLe24 mem p = some (BitVec.ofNat 32 (leValue [a, b, c])) := by
  have h₀ : readWord 32 mem p 0 = _ := readWord_eq 32 hstored (i := 0) (by simp)
  have h₁ : readWord 32 mem p 1 = _ := readWord_eq 32 hstored (i := 1) (by simp)
  have h₂ : readWord 32 mem p 2 = _ := readWord_eq 32 hstored (i := 2) (by simp)
  rw [getUnalignedLe24, h₀, h₁, h₂]
  exact congrArg some (or_three a b c)

theorem getUnalignedBe24_eq {a b c : UInt8} (hstored : Stored mem p [a, b, c]) :
    getUnalignedBe24 mem p = some (BitVec.ofNat 32 (leValue [c, b, a])) := by
  have h₀ : readWord 32 mem p 0 = _ := readWord_eq 32 hstored (i := 0) (by simp)
  have h₁ : readWord 32 mem p 1 = _ := readWord_eq 32 hstored (i := 1) (by simp)
  have h₂ : readWord 32 mem p 2 = _ := readWord_eq 32 hstored (i := 2) (by simp)
  rw [getUnalignedBe24, h₀, h₁, h₂, ← or_three c b a]
  exact congrArg some (or_three_reverse _ _ _)

theorem getUnalignedBe48_eq {a b c d e f : UInt8} (hstored : Stored mem p [a, b, c, d, e, f]) :
    getUnalignedBe48 mem p = some (BitVec.ofNat 64 (leValue [f, e, d, c, b, a])) := by
  have h₀ : readWord 64 mem p 0 = _ := readWord_eq 64 hstored (i := 0) (by simp)
  have h₁ : readWord 64 mem p 1 = _ := readWord_eq 64 hstored (i := 1) (by simp)
  have h₂ : readWord 64 mem p 2 = _ := readWord_eq 64 hstored (i := 2) (by simp)
  have h₃ : readWord 64 mem p 3 = _ := readWord_eq 64 hstored (i := 3) (by simp)
  have h₄ : readWord 64 mem p 4 = _ := readWord_eq 64 hstored (i := 4) (by simp)
  have h₅ : readWord 64 mem p 5 = _ := readWord_eq 64 hstored (i := 5) (by simp)
  rw [getUnalignedBe48, h₀, h₁, h₂, h₃, h₄, h₅, ← or_six f e d c b a]
  exact congrArg some (or_six_reverse _ _ _ _ _ _)

theorem lowBytes_three (val : BitVec w) :
    [lowByte val, lowByte (val >>> 8), lowByte (val >>> 16)] = leBytes 3 val.toNat := by
  simp [leBytes, lowByte, BitVec.toNat_ushiftRight, Nat.shiftRight_eq_div_pow,
    Nat.div_div_eq_div_mul]

theorem lowBytes_six (val : BitVec w) :
    [lowByte val, lowByte (val >>> 8), lowByte (val >>> 16), lowByte (val >>> 24),
      lowByte (val >>> 32), lowByte (val >>> 40)] = leBytes 6 val.toNat := by
  simp [leBytes, lowByte, BitVec.toNat_ushiftRight, Nat.shiftRight_eq_div_pow,
    Nat.div_div_eq_div_mul]

end Odd

section Formats

theorem length_arrange (fmt : Format) (s : List UInt8) : (fmt.arrange s).length = s.length := by
  cases fmt <;> simp [arrange]

theorem arrange_arrange (fmt : Format) (s : List UInt8) : fmt.arrange (fmt.arrange s) = s := by
  cases fmt <;> simp [arrange]

theorem length_bytes (fmt : Format) (val : ℕ) : (fmt.bytes val).length = fmt.size := by
  rw [bytes, length_arrange, length_leBytes]

theorem size_le_width (fmt : Format) : 8 * fmt.size ≤ fmt.width := by
  cases fmt <;> decide

theorem value_bytes (fmt : Format) (val : ℕ) :
    fmt.value (fmt.bytes val) = val % 256 ^ fmt.size := by
  rw [value, bytes, arrange_arrange, leValue_leBytes]

theorem bytes_value (hlen : s.length = fmt.size) : fmt.bytes (fmt.value s) = s := by
  have harrange : (fmt.arrange s).length = fmt.size := (length_arrange fmt s).trans hlen
  rw [bytes, value, ← harrange, leBytes_leValue, arrange_arrange]

theorem value_lt (hlen : s.length = fmt.size) : fmt.value s < 2 ^ fmt.width := by
  have hlt := leValue_lt (fmt.arrange s)
  rw [length_arrange, hlen, pow_256] at hlt
  exact lt_of_lt_of_le hlt (Nat.pow_le_pow_right (by decide) (size_le_width fmt))

theorem get_eq (cpu : Cpu) (hlen : s.length = fmt.size) (hstored : Stored mem p s) :
    fmt.get cpu mem p = some (BitVec.ofNat fmt.width (fmt.value s)) := by
  cases fmt with
  | le16 | le32 | le64 =>
    have h := getUnalignedLe_eq cpu (t := []) (by simpa using hstored)
    rw [hlen] at h
    exact h
  | be16 | be32 | be64 =>
    have h := getUnalignedBe_eq cpu (t := []) (by simpa using hstored)
    rw [hlen] at h
    exact h
  | le24 =>
    match s, hlen with
    | [a, b, c], _ => exact getUnalignedLe24_eq hstored
  | be24 =>
    match s, hlen with
    | [a, b, c], _ => exact getUnalignedBe24_eq hstored
  | be48 =>
    match s, hlen with
    | [a, b, c, d, e, f], _ => exact getUnalignedBe48_eq hstored

theorem put_eq (cpu : Cpu) (val : BitVec fmt.width) :
    fmt.put cpu val p mem = writeBytes (fmt.bytes val.toNat) p mem := by
  cases fmt with
  | le16 | le32 | le64 => exact congrArg (writeBytes · p mem) (cpu.store_cpuToLe val.isLt)
  | be16 | be32 | be64 => exact congrArg (writeBytes · p mem) (cpu.store_cpuToBe val.isLt)
  | le24 => exact congrArg (writeBytes · p mem) (lowBytes_three val)
  | be24 => exact congrArg (fun s => writeBytes s.reverse p mem) (lowBytes_three val)
  | be48 => exact congrArg (fun s => writeBytes s.reverse p mem) (lowBytes_six val)

end Formats

/-- A value put by a CPU of one byte order is got by a CPU of any other: it is in memory as
the bytes of the format, at any alignment, and no other byte is touched.  Putting back what
was got changes nothing. -/
theorem unaligned_roundTrip (fmt : Format) (cpu cpu' : Cpu) (mem : Bytes) (p : UInt64)
    (val : BitVec fmt.width) (hmapped : ∀ i < fmt.size, (mem (p + UInt64.ofNat i)).isSome) :
    (∃ mem', fmt.put cpu val p mem = some mem' ∧
      Stored mem' p (fmt.bytes val.toNat) ∧
      (∀ q, (∀ i < fmt.size, q ≠ p + UInt64.ofNat i) → mem' q = mem q) ∧
      fmt.get cpu' mem' p = some (BitVec.ofNat fmt.width (val.toNat % 256 ^ fmt.size))) ∧
    ∃ old, fmt.get cpu mem p = some old ∧ fmt.put cpu' old p mem = some mem := by
  obtain ⟨s, hlen, hstored⟩ := exists_stored hmapped
  constructor
  · obtain ⟨mem', hwrite, hstored', hsame⟩ := writeBytes_spec hstored
      (show (fmt.bytes val.toNat).length = s.length by rw [length_bytes, hlen])
      (by rw [length_bytes]; cases fmt <;> decide)
    rw [length_bytes] at hsame
    refine ⟨mem', by rw [put_eq, hwrite], hstored', hsame, ?_⟩
    rw [get_eq cpu' (length_bytes fmt _) hstored', value_bytes]
  · refine ⟨_, get_eq cpu hlen hstored, ?_⟩
    rw [put_eq, BitVec.toNat_ofNat, Nat.mod_eq_of_lt (value_lt hlen), bytes_value hlen]
    exact writeBytes_same hstored

/-- A page that can be written. -/
def page : Bytes := fun q => if q < 4096 then some 0 else none

theorem unaligned_roundTrip_page :
    (∃ mem', Format.put (.ofOrder .little) .be24 0x010203#32 4093 page = some mem' ∧
      Stored mem' 4093 (Format.bytes .be24 (0x010203#32).toNat) ∧
      (∀ q, (∀ i < Format.size .be24, q ≠ 4093 + UInt64.ofNat i) → mem' q = page q) ∧
      Format.get (.ofOrder .big) .be24 mem' 4093 =
        some (BitVec.ofNat 32 ((0x010203#32).toNat % 256 ^ Format.size .be24))) ∧
    ∃ old, Format.get (.ofOrder .little) .be24 page 4093 = some old ∧
      Format.put (.ofOrder .big) .be24 old 4093 page = some page :=
  unaligned_roundTrip .be24 (.ofOrder .little) (.ofOrder .big) page 4093 0x010203#32 (by decide)

end Unaligned
end Brlib
