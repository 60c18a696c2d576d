import Brlib.Hash.String
import Brlib.Words.Bytes

/-!
# The functions of `asm/unaligned.h`

The accesses of 16, 32 and 64 bits load or store a word of the CPU and convert it with the
functions of `asm/byteorder.h`.  These are not part of the sources: they are a parameter, of
which it is known that they swap the bytes or do nothing (`Cpu`).  The accesses of 24 and 48
bits put the bytes together themselves.
-/

namespace Brlib
namespace Unaligned

open Hash Words

/-- The CPU: the order of the bytes of its words, and the functions of `asm/byteorder.h` for
words of `n` bytes. -/
structure Cpu where
  order : ByteOrder
  /-- `le16_to_cpu`, `le32_to_cpu`, `le64_to_cpu` -/
  leToCpu : ℕ → ℕ → ℕ
  /-- `cpu_to_le16`, `cpu_to_le32`, `cpu_to_le64` -/
  cpuToLe : ℕ → ℕ → ℕ
  /-- `be16_to_cpu`, `be32_to_cpu`, `be64_to_cpu` -/
  beToCpu : ℕ → ℕ → ℕ
  /-- `cpu_to_be16`, `cpu_to_be32`, `cpu_to_be64` -/
  cpuToBe : ℕ → ℕ → ℕ
  leToCpu_eq : ∀ n x, x < 256 ^ n → leToCpu n x = order.swapLe n x
  cpuToLe_eq : ∀ n x, x < 256 ^ n → cpuToLe n x = order.swapLe n x
  beToCpu_eq : ∀ n x, x < 256 ^ n → beToCpu n x = order.swapBe n x
  cpuToBe_eq : ∀ n x, x < 256 ^ n → cpuToBe n x = order.swapBe n x

/-- A CPU whose words have the bytes in this order. -/
def Cpu.ofOrder (order : ByteOrder) : Cpu where
  order
  leToCpu := order.swapLe
  cpuToLe := order.swapLe
  beToCpu := order.swapBe
  cpuToBe := order.swapBe
  leToCpu_eq _ _ _ := rfl
  cpuToLe_eq _ _ _ := rfl
  beToCpu_eq _ _ _ := rfl
  cpuToBe_eq _ _ _ := rfl

/-- The `n` bytes from `p` on. -/
def readBytes (mem : Bytes) : ℕ → UInt64 → Option (List UInt8)
  | 0, _ => some []
  | n + 1, p => do
      let byte ← mem p
      let s ← readBytes mem n (p + 1)
      some (byte :: s)

/-- The stores of the bytes `s` from `p` on. -/
def writeBytes : List UInt8 → UInt64 → Bytes → Option Bytes
  | [], _, mem => some mem
  | byte :: s, p, mem => do
      let _ ← mem p
      writeBytes s (p + 1) (Function.update mem p (some byte))

/-- `__get_unaligned_t`, for a type of `n` bytes. -/
def getUnalignedT (cpu : Cpu) (n : ℕ) (mem : Bytes) (p : UInt64) : Option ℕ := do
  let s ← readBytes mem n p
  some (cpu.order.load s)

/-- `__put_unaligned_t`, for a type of `n` bytes. -/
def putUnalignedT (cpu : Cpu) (n val : ℕ) (p : UInt64) (mem : Bytes) : Option Bytes :=
  writeBytes (cpu.order.store n val) p mem

section Words

variable (cpu : Cpu)

/-- `le_to_cpu(__get_unaligned_t(__le, p))` -/
def getUnalignedLe (n : ℕ) (mem : Bytes) (p : UInt64) : Option (BitVec (8 * n)) := do
  let x ← getUnalignedT cpu n mem p
  some (BitVec.ofNat _ (cpu.leToCpu n x))

/-- `be_to_cpu(__get_unaligned_t(__be, p))` -/
def getUnalignedBe (n : ℕ) (mem : Bytes) (p : UInt64) : Option (BitVec (8 * n)) := do
  let x ← getUnalignedT cpu n mem p
  some (BitVec.ofNat _ (cpu.beToCpu n x))

/-- `__put_unaligned_t(__le, cpu_to_le(val), p)` -/
def putUnalignedLe (n : ℕ) (val : BitVec (8 * n)) (p : UInt64) (mem : Bytes) : Option Bytes :=
  putUnalignedT cpu n (cpu.cpuToLe n val.toNat) p mem

/-- `__put_unaligned_t(__be, cpu_to_be(val), p)` -/
def putUnalignedBe (n : ℕ) (val : BitVec (8 * n)) (p : UInt64) (mem : Bytes) : Option Bytes :=
  putUnalignedT cpu n (cpu.cpuToBe n val.toNat) p mem

/-- `get_unaligned_le16` -/
def getUnalignedLe16 : Bytes → UInt64 → Option (BitVec 16) :=
  getUnalignedLe cpu 2

/-- `get_unaligned_le32` -/
def getUnalignedLe32 : Bytes → UInt64 → Option (BitVec 32) :=
  getUnalignedLe cpu 4

/-- `get_unaligned_le64` -/
def getUnalignedLe64 : Bytes → UInt64 → Option (BitVec 64) :=
  getUnalignedLe cpu 8

/-- `put_unaligned_le16` -/
def putUnalignedLe16 : BitVec 16 → UInt64 → Bytes → Option Bytes :=
  putUnalignedLe cpu 2

/-- `put_unaligned_le32` -/
def putUnalignedLe32 : BitVec 32 → UInt64 → Bytes → Option Bytes :=
  putUnalignedLe cpu 4

/-- `put_unaligned_le64` -/
def putUnalignedLe64 : BitVec 64 → UInt64 → Bytes → Option Bytes :=
  putUnalignedLe cpu 8

/-- `get_unaligned_be16` -/
def getUnalignedBe16 : Bytes → UInt64 → Option (BitVec 16) :=
  getUnalignedBe cpu 2

/-- `get_unaligned_be32` -/
def getUnalignedBe32 : Bytes → UInt64 → Option (BitVec 32) :=
  getUnalignedBe cpu 4

/-- `get_unaligned_be64` -/
def getUnalignedBe64 : Bytes → UInt64 → Option (BitVec 64) :=
  getUnalignedBe cpu 8

/-- `put_unaligned_be16` -/
def putUnalignedBe16 : BitVec 16 → UInt64 → Bytes → Option Bytes :=
  putUnalignedBe cpu 2

/-- `put_unaligned_be32` -/
def putUnalignedBe32 : BitVec 32 → UInt64 → Bytes → Option Bytes :=
  putUnalignedBe cpu 4

/-- `put_unaligned_be64` -/
def putUnalignedBe64 : BitVec 64 → UInt64 → Bytes → Option Bytes :=
  putUnalignedBe cpu 8

end Words

section Odd

/-- `(type)p[i]`; without a cast a byte is promoted to `int`, which holds all that is made
of one byte or three here. -/
def readWord (w : ℕ) (mem : Bytes) (p : UInt64) (i : UInt64) : Option (BitVec w) := do
  let byte ← mem (p + i)
  some (byte.toBitVec.setWidth w)

/-- `*p = val` -/
def lowByte {w : ℕ} (val : BitVec w) : UInt8 :=
  UInt8.ofNat val.toNat

/-- `get_unaligned_be24` -/
def getUnalignedBe24 (mem : Bytes) (p : UInt64) : Option (BitVec 32) := do
  let p0 ← readWord 32 mem p 0
  let p1 ← readWord 32 mem p 1
  let p2 ← readWord 32 mem p 2
  some (p0 <<< 16 ||| p1 <<< 8 ||| p2)

/-- `get_unaligned_le24` -/
def getUnalignedLe24 (mem : Bytes) (p : UInt64) : Option (BitVec 32) := do
  let p0 ← readWord 32 mem p 0
  let p1 ← readWord 32 mem p 1
  let p2 ← readWord 32 mem p 2
  some (p0 ||| p1 <<< 8 ||| p2 <<< 16)

/-- `put_unaligned_be24` -/
def putUnalignedBe24 (val : BitVec 32) (p : UInt64) (mem : Bytes) : Option Bytes :=
  writeBytes [lowByte (val >>> 16), lowByte (val >>> 8), lowByte val] p mem

/-- `put_unaligned_le24` -/
def putUnalignedLe24 (val : BitVec 32) (p : UInt64) (mem : Bytes) : Option Bytes :=
  writeBytes [lowByte val, lowByte (val >>> 8), lowByte (val >>> 16)] p mem

/-- `put_unaligned_be48` -/
def putUnalignedBe48 (val : BitVec 64) (p : UInt64) (mem : Bytes) : Option Bytes :=
  writeBytes [lowByte (val >>> 40), lowByte (val >>> 32), lowByte (val >>> 24),
    lowByte (val >>> 16), lowByte (val >>> 8), lowByte val] p mem

/-- `get_unaligned_be48` -/
def getUnalignedBe48 (mem : Bytes) (p : UInt64) : Option (BitVec 64) := do
  let p0 ← readWord 64 mem p 0
  let p1 ← readWord 64 mem p 1
  let p2 ← readWord 64 mem p 2
  let p3 ← readWord 64 mem p 3
  let p4 ← readWord 64 mem p 4
  let p5 ← readWord 64 mem p 5
  some (p0 <<< 40 ||| p1 <<< 32 ||| p2 <<< 24 ||| p3 <<< 16 ||| p4 <<< 8 ||| p5)

end Odd

end Unaligned
end Brlib
