import Mathlib.Data.Nat.Digits.Defs
import Mathlib.Tactic

/-!
# Words and their bytes

A word of `n` bytes is stored with its least significant byte first or last.  `leBytes` and
`leValue` are inverse to each other, and on a CPU of either byte order a conversion between
the two orders is the reversal of the bytes (`swapLe_load`).
-/

namespace Brlib
namespace Words

/-- The number with the bytes `s`, the least significant one first. -/
def leValue (s : List UInt8) : ℕ :=
  Nat.ofDigits 256 (s.map UInt8.toNat)

/-- The `n` lowest bytes of `x`, the least significant one first. -/
def leBytes : ℕ → ℕ → List UInt8
  | 0, _ => []
  | n + 1, x => UInt8.ofNat x :: leBytes n (x / 256)

variable {n x y : ℕ} {s t : List UInt8} {byte : UInt8}

section Values

theorem pow_256 (n : ℕ) : 256 ^ n = 2 ^ (8 * n) := by
  rw [pow_mul]
  rfl

@[simp] theorem leValue_nil : leValue [] = 0 := rfl

@[simp] theorem leValue_cons : leValue (byte :: s) = byte.toNat + 256 * leValue s := by
  simp [leValue, Nat.ofDigits_cons]

theorem leValue_append : leValue (s ++ t) = leValue s + 256 ^ s.length * leValue t := by
  simp [leValue, Nat.ofDigits_append]

theorem leValue_lt (s : List UInt8) : leValue s < 256 ^ s.length := by
  have hlt := Nat.ofDigits_lt_base_pow_length (b := 256) (l := s.map UInt8.toNat) (by decide)
    fun d hd => by
      obtain ⟨byte, -, rfl⟩ := List.mem_map.mp hd
      exact byte.toNat_lt
  simpa [leValue] using hlt

@[simp] theorem length_leBytes (n x : ℕ) : (leBytes n x).length = n := by
  induction n generalizing x with
  | zero => rfl
  | succ n ih => simp [leBytes, ih]

theorem leValue_leBytes (n x : ℕ) : leValue (leBytes n x) = x % 256 ^ n := by
  induction n generalizing x with
  | zero => simp [leBytes, Nat.mod_one]
  | succ n ih =>
      have hmod : x % 256 ^ (n + 1) = x % 256 + 256 * (x / 256 % 256 ^ n) := by
        rw [Nat.pow_succ', Nat.mod_mul]
      rw [leBytes, leValue_cons, ih, UInt8.toNat_ofNat', hmod]

theorem leBytes_leValue (s : List UInt8) : leBytes s.length (leValue s) = s := by
  induction s with
  | nil => rfl
  | cons byte s ih =>
      have hbyte := byte.toNat_lt
      have hlow : UInt8.ofNat (byte.toNat + 256 * leValue s) = byte := by
        apply UInt8.toNat_inj.mp
        rw [UInt8.toNat_ofNat']
        omega
      have hhigh : (byte.toNat + 256 * leValue s) / 256 = leValue s := by omega
      rw [List.length_cons, leValue_cons, leBytes, hlow, hhigh, ih]

theorem leValue_inj (hlen : s.length = t.length) : leValue s = leValue t ↔ s = t := by
  refine ⟨fun h => ?_, fun h => h ▸ rfl⟩
  rw [← leBytes_leValue s, ← leBytes_leValue t, h, hlen]

end Values

section Order

inductive ByteOrder where
  | little
  | big
deriving DecidableEq, Repr

/-- The word of `n` bytes with the bytes of `x` in the other order. -/
def swap (n x : ℕ) : ℕ :=
  leValue (leBytes n x).reverse

namespace ByteOrder

/-- The word that a CPU loads from the bytes `s`. -/
def load : ByteOrder → List UInt8 → ℕ
  | .little, s => leValue s
  | .big, s => leValue s.reverse

/-- The bytes that a CPU stores for a word of `n` bytes. -/
def store : ByteOrder → ℕ → ℕ → List UInt8
  | .little, n, x => leBytes n x
  | .big, n, x => (leBytes n x).reverse

/-- The conversion between a CPU's words and little-endian ones, which is its own inverse. -/
def swapLe : ByteOrder → ℕ → ℕ → ℕ
  | .little, _, x => x
  | .big, n, x => swap n x

/-- The conversion between a CPU's words and big-endian ones. -/
def swapBe : ByteOrder → ℕ → ℕ → ℕ
  | .little, n, x => swap n x
  | .big, _, x => x

end ByteOrder

variable {order : ByteOrder}

open ByteOrder

theorem swap_leValue (s : List UInt8) : swap s.length (leValue s) = leValue s.reverse := by
  rw [swap, leBytes_leValue]

theorem leBytes_swap (n x : ℕ) : leBytes n (swap n x) = (leBytes n x).reverse := by
  have h := leBytes_leValue (leBytes n x).reverse
  rwa [List.length_reverse, length_leBytes] at h

theorem load_lt (order : ByteOrder) (s : List UInt8) : order.load s < 256 ^ s.length := by
  cases order with
  | little => exact leValue_lt s
  | big =>
      have h := leValue_lt s.reverse
      rwa [List.length_reverse] at h

/-- What is loaded and converted does not depend on the CPU. -/
theorem swapLe_load (order : ByteOrder) (s : List UInt8) :
    order.swapLe s.length (order.load s) = leValue s := by
  cases order with
  | little => rfl
  | big =>
      have h := swap_leValue s.reverse
      rwa [List.length_reverse, List.reverse_reverse] at h

theorem swapBe_load (order : ByteOrder) (s : List UInt8) :
    order.swapBe s.length (order.load s) = leValue s.reverse := by
  cases order with
  | little => exact swap_leValue s
  | big => rfl

theorem store_swapLe (order : ByteOrder) (n x : ℕ) :
    order.store n (order.swapLe n x) = leBytes n x := by
  cases order with
  | little => rfl
  | big => rw [swapLe, store, leBytes_swap, List.reverse_reverse]

theorem store_swapBe (order : ByteOrder) (n x : ℕ) :
    order.store n (order.swapBe n x) = (leBytes n x).reverse := by
  cases order with
  | little => rw [swapBe, store, leBytes_swap]
  | big => rfl

end Order

end Words
end Brlib
