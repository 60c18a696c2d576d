import Brlib.Hash.Basic

/-!
# The string hashes of `hash.c`

Strings are bytes in a memory of which some addresses cannot be read.  A plain `char` is
signed or unsigned, which the model has as a parameter.

`hash_string` counts its length down, `hashlen_string` looks for the NUL with an index.
Both fold the same update over the bytes (`hashStringLoop_eq`, `hashlenStringLoop_eq`),
and the two halves of a `hash_len` do not touch (`hashlenLen_create`,
`hashlenHash_create`).
-/

namespace Brlib
namespace Hash

/-- Whether a plain `char` is signed. -/
inductive CharSign where
  | signed
  | unsigned
deriving DecidableEq, Repr

/-- The value of a plain `char` with the given byte. -/
def CharSign.value : CharSign → UInt8 → ℤ
  | .signed, byte => byte.toInt8.toInt
  | .unsigned, byte => byte.toNat

/-- What can be read at the addresses of a memory. -/
abbrev Bytes := UInt64 → Option UInt8

/-- `(unsigned char)*p` as an `unsigned long`. -/
def readChar (sign : CharSign) (mem : Bytes) (p : UInt64) : Option UInt64 := do
  let byte ← mem p
  some (UInt8.ofInt (sign.value byte)).toUInt64

/-- `init_name_hash` -/
def initNameHash (salt : UInt64) : UInt64 := salt

/-- `partial_name_hash` -/
def partialNameHash (c prevhash : UInt64) : UInt64 :=
  (prevhash + (c <<< 4) + (c >>> 4)) * 11

/-- `end_name_hash`; `hash_long` is `hash_64`. -/
def endNameHash (hash : UInt64) : Option UInt32 :=
  hash64Generic hash 32

/-- `hashlen_hash` -/
def hashlenHash (hashlen : UInt64) : UInt32 :=
  hashlen.toUInt32

/-- `hashlen_len` -/
def hashlenLen (hashlen : UInt64) : UInt32 :=
  (hashlen >>> 32).toUInt32

/-- `hashlen_create` -/
def hashlenCreate (hash : UInt32) (len : UInt64) : UInt64 :=
  len <<< 32 ||| hash.toUInt64

/-- The loop of `hash_string`, with `len` iterations to go. -/
def hashStringLoop (sign : CharSign) (mem : Bytes) : Nat → UInt64 → UInt64 → Option UInt64
  | 0, _, hash => some hash
  | len + 1, name, hash => do
      let c ← readChar sign mem name
      hashStringLoop sign mem len (name + 1) (partialNameHash c hash)

/-- `hash_string` -/
def hashString (sign : CharSign) (mem : Bytes) (salt name : UInt64) (len : UInt32) :
    Option UInt32 := do
  let hash ← hashStringLoop sign mem len.toNat name (initNameHash salt)
  endNameHash hash

/-- The loop of `hashlen_string`; returns `hash` and `len`. -/
def hashlenStringLoop (sign : CharSign) (mem : Bytes) (name : UInt64) :
    Nat → UInt64 → UInt64 → UInt64 → Option (UInt64 × UInt64)
  | 0, _, _, _ => none
  | fuel + 1, len, c, hash =>
      if c = 0 then some (hash, len)
      else do
        let len := len + 1
        let hash := partialNameHash c hash
        let c ← readChar sign mem (name + len)
        hashlenStringLoop sign mem name fuel len c hash

/-- `hashlen_string` -/
def hashlenString (fuel : Nat) (sign : CharSign) (mem : Bytes) (salt name : UInt64) :
    Option UInt64 := do
  let hash := initNameHash salt
  let c ← readChar sign mem name
  let (hash, len) ← hashlenStringLoop sign mem name fuel 0 c hash
  let hash ← endNameHash hash
  some (hashlenCreate hash len)

variable {sign : CharSign} {mem : Bytes} {name len hash : UInt64} {byte : UInt8} {s : List UInt8}
variable {fuel : Nat}

/-- The bytes of `s` are stored from `p` on. -/
def Stored (mem : Bytes) : UInt64 → List UInt8 → Prop
  | _, [] => True
  | p, byte :: s => mem p = some byte ∧ Stored mem (p + 1) s

/-- What both functions compute of the bytes of a string. -/
def nameHash (s : List UInt8) (hash : UInt64) : UInt64 :=
  s.foldl (fun hash byte => partialNameHash byte.toUInt64 hash) hash

section Chars

/-- The conversion to `unsigned char` undoes the sign extension. -/
theorem ofInt_value (sign : CharSign) (byte : UInt8) : UInt8.ofInt (sign.value byte) = byte := by
  have hlt := byte.toNat_lt
  cases sign with
  | signed =>
      apply UInt8.toNat_inj.mp
      show (UInt8.ofNat (byte.toInt8.toInt % 2 ^ 8).toNat).toNat = _
      have hvalue : byte.toInt8.toInt = Int.bmod byte.toNat (2 ^ 8) :=
        BitVec.toInt_eq_toNat_bmod _
      have hsame : byte.toInt8.toInt % 2 ^ 8 = byte.toNat % 2 ^ 8 := by
        rw [hvalue]
        exact Int.bmod_emod
      rw [hsame, UInt8.toNat_ofNat']
      omega
  | unsigned =>
      apply UInt8.toNat_inj.mp
      show (UInt8.ofNat (((byte.toNat : ℤ)) % 2 ^ 8).toNat).toNat = _
      rw [UInt8.toNat_ofNat']
      omega

theorem readChar_eq (h : mem name = some byte) : readChar sign mem name = some byte.toUInt64 := by
  simp [readChar, h, ofInt_value]

theorem exists_readChar (sign : CharSign) (h : Stored mem name (s ++ [0])) :
    ∃ c, readChar sign mem name = some c := by
  cases s with
  | nil => exact ⟨_, readChar_eq h.1⟩
  | cons byte s => exact ⟨_, readChar_eq h.1⟩

theorem toUInt64_eq_zero_iff : byte.toUInt64 = 0 ↔ byte = 0 := by
  rw [← UInt64.toNat_inj, ← UInt8.toNat_inj, UInt8.toNat_toUInt64]
  rfl

end Chars

section Loops

theorem hashStringLoop_eq {s t : List UInt8} (hstored : Stored mem name (s ++ t)) :
    hashStringLoop sign mem s.length name hash = some (nameHash s hash) := by
  induction s generalizing name hash with
  | nil => rfl
  | cons byte s ih =>
      obtain ⟨hbyte, hrest⟩ := hstored
      rw [List.length_cons, hashStringLoop, readChar_eq hbyte]
      exact ih hrest

/-- The loop of `hashlen_string` goes on until the NUL: it has read the byte at `len`. -/
theorem hashlenStringLoop_eq {c : UInt64} (hnul : ∀ byte ∈ s, byte ≠ 0)
    (hstored : Stored mem (name + len) (s ++ [0])) (hc : readChar sign mem (name + len) = some c)
    (hfuel : s.length < fuel) :
    hashlenStringLoop sign mem name fuel len c hash =
      some (nameHash s hash, len + UInt64.ofNat s.length) := by
  induction s generalizing len c hash fuel with
  | nil =>
      obtain ⟨hbyte, -⟩ := hstored
      rw [readChar_eq hbyte] at hc
      obtain rfl : 0 = c := Option.some.inj hc
      cases fuel with
      | zero => exact absurd hfuel (Nat.not_lt_zero _)
      | succ fuel =>
          rw [hashlenStringLoop, if_pos rfl]
          simp [nameHash]
  | cons byte s ih =>
      obtain ⟨hbyte, hrest⟩ := hstored
      rw [readChar_eq hbyte] at hc
      obtain rfl : byte.toUInt64 = c := Option.some.inj hc
      have hne : byte.toUInt64 ≠ 0 := fun h =>
        hnul byte List.mem_cons_self (toUInt64_eq_zero_iff.mp h)
      cases fuel with
      | zero => exact absurd hfuel (Nat.not_lt_zero _)
      | succ fuel =>
          rw [UInt64.add_assoc] at hrest
          obtain ⟨c, hc⟩ := exists_readChar sign hrest
          have hloop := @ih (len + 1) (partialNameHash byte.toUInt64 hash) fuel c
            (fun b hb => hnul b (List.mem_cons_of_mem byte hb)) hrest hc
            (Nat.lt_of_succ_lt_succ hfuel)
          have hlen : len + 1 + UInt64.ofNat s.length =
              len + UInt64.ofNat (byte :: s).length := by
            rw [List.length_cons, UInt64.ofNat_add, UInt64.add_assoc,
              UInt64.add_comm (UInt64.ofNat s.length)]
            rfl
          rw [hashlenStringLoop, if_neg hne]
          simp only [Option.bind_eq_bind]
          rw [hc, Option.bind_some, hloop, hlen]
          rfl

end Loops

section Packing

theorem hashlenCreate_toNat (hash : UInt32) (hlen : len.toNat < 2 ^ 32) :
    (hashlenCreate hash len).toNat = len.toNat * 2 ^ 32 + hash.toNat := by
  have hlow : hash.toNat < 2 ^ 32 := hash.toNat_lt
  have hhigh : (len <<< 32).toNat = len.toNat <<< 32 := by
    rw [UInt64.toNat_shiftLeft]
    show len.toNat <<< 32 % 2 ^ 64 = _
    rw [Nat.shiftLeft_eq]
    exact Nat.mod_eq_of_lt (by omega)
  rw [hashlenCreate, UInt64.toNat_or, hhigh, UInt32.toNat_toUInt64,
    ← Nat.shiftLeft_add_eq_or_of_lt hlow, Nat.shiftLeft_eq]

theorem hashlenLen_create (hash : UInt32) (hlen : len.toNat < 2 ^ 32) :
    (hashlenLen (hashlenCreate hash len)).toNat = len.toNat := by
  have hlow : hash.toNat < 2 ^ 32 := hash.toNat_lt
  rw [hashlenLen, UInt64.toNat_toUInt32, UInt64.toNat_shiftRight, hashlenCreate_toNat hash hlen]
  show (len.toNat * 2 ^ 32 + hash.toNat) >>> 32 % 2 ^ 32 = _
  rw [Nat.shiftRight_eq_div_pow]
  omega

theorem hashlenHash_create (hash : UInt32) (hlen : len.toNat < 2 ^ 32) :
    hashlenHash (hashlenCreate hash len) = hash := by
  have hlow : hash.toNat < 2 ^ 32 := hash.toNat_lt
  apply UInt32.toNat_inj.mp
  rw [hashlenHash, UInt64.toNat_toUInt32, hashlenCreate_toNat hash hlen]
  omega

end Packing

theorem endNameHash_eq (hash : UInt64) : ∃ h, endNameHash hash = some h := by
  obtain ⟨h, hh, -⟩ := @hash64_eq 32 hash (by decide) (by decide)
  exact ⟨h, hh⟩

/-- **The two string hashes agree.**  On a string that is stored with a NUL behind it,
`hashlen_string` stops at the NUL and gives the length of the string and the hash that
`hash_string` gives, however the two read a plain `char`. -/
theorem hashlenString_eq_hashString (sign sign' : CharSign) (salt : UInt64)
    (hnul : ∀ byte ∈ s, byte ≠ 0) (hlen : s.length < 2 ^ 32)
    (hstored : Stored mem name (s ++ [0])) :
    ∃ hashlen, (∀ fuel, s.length < fuel →
        hashlenString fuel sign mem salt name = some hashlen) ∧
      (hashlenLen hashlen).toNat = s.length ∧
      hashString sign' mem salt name (UInt32.ofNat s.length) = some (hashlenHash hashlen) := by
  obtain ⟨hash, hhash⟩ := endNameHash_eq (nameHash s salt)
  have hlen64 : (UInt64.ofNat s.length).toNat = s.length :=
    UInt64.toNat_ofNat_of_lt' (hlen.trans (by decide))
  have hlen32 : (UInt32.ofNat s.length).toNat = s.length := UInt32.toNat_ofNat_of_lt' hlen
  have hsmall : (UInt64.ofNat s.length).toNat < 2 ^ 32 := by
    rw [hlen64]
    exact hlen
  refine ⟨hashlenCreate hash (UInt64.ofNat s.length), fun fuel hfuel => ?_, ?_, ?_⟩
  · obtain ⟨c, hc⟩ := exists_readChar sign hstored
    have hloop : hashlenStringLoop sign mem name fuel 0 c salt = _ :=
      hashlenStringLoop_eq hnul (by rwa [UInt64.add_zero]) (by rwa [UInt64.add_zero]) hfuel
    rw [UInt64.zero_add] at hloop
    simp [hashlenString, hc, initNameHash, hloop, hhash]
  · rw [hashlenLen_create hash hsmall, hlen64]
  · have hloop : hashStringLoop sign' mem s.length name salt = some (nameHash s salt) :=
      hashStringLoop_eq hstored
    simp [hashString, hlen32, initNameHash, hloop, hhash, hashlenHash_create hash hsmall]

/-- A memory with the bytes 200 and 65, and a NUL, from the address 4096 on. -/
def sampleBytes : Bytes := fun p =>
  if p = 4096 then some 200 else if p = 4097 then some 65 else if p = 4098 then some 0 else none

theorem hashlenString_eq_hashString_sampleBytes :
    ∃ hashlen, (∀ fuel, 2 < fuel →
        hashlenString fuel .signed sampleBytes 7 4096 = some hashlen) ∧
      (hashlenLen hashlen).toNat = 2 ∧
      hashString .unsigned sampleBytes 7 4096 2 = some (hashlenHash hashlen) :=
  @hashlenString_eq_hashString sampleBytes 4096 [200, 65] .signed .unsigned 7 (by simp)
    (by decide) ⟨by decide, by decide, by decide, trivial⟩

end Hash
end Brlib
