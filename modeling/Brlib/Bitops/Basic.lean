import Mathlib.Tactic
import Brlib.Bits.SetBits

/-!
# The macros of `bitops.h`

A `u32` is a `BitVec 32` and a `u64` a `BitVec 64`; an `int` or a `uint` that counts bits
is a `BitVec 32`.  Most macros have several implementations, and the preprocessor selects
one by the builtins that the compiler has (`Compiler`).  A macro whose text does not compile
has no result, nor has one whose loop does not end.
-/

namespace Brlib
namespace Bitops

open Bits

variable {w : ℕ}

/-- What `__has_builtin` says, and what the builtins give where they are not defined. -/
structure Compiler where
  hasPopcount : Bool
  hasCtz : Bool
  hasClz : Bool
  hasFfs : Bool
  /-- `__builtin_ctz(0)`, by the width of the zero. -/
  ctzZero : ℕ → BitVec 32
  /-- `__builtin_clz(0)`, by the width of the zero. -/
  clzZero : ℕ → BitVec 32

/-- A compiler without builtins. -/
def noBuiltins : Compiler :=
  ⟨false, false, false, false, fun _ => 0#32, fun _ => 0#32⟩

variable (c : Compiler)

section Builtins

/-- `__builtin_popcount` and `__builtin_popcountll` -/
def builtinPopcount (n : BitVec w) : BitVec 32 :=
  BitVec.ofNat 32 (popcount n)

/-- `__builtin_ctz` and `__builtin_ctzll` -/
def builtinCtz (n : BitVec w) : BitVec 32 :=
  if n = 0#w then c.ctzZero w else BitVec.ofNat 32 (trailingZeros n)

/-- `__builtin_clz` and `__builtin_clzll` -/
def builtinClz (n : BitVec w) : BitVec 32 :=
  if n = 0#w then c.clzZero w else BitVec.ofNat 32 (w - 1 - n.toNat.log2)

/-- `__builtin_ffs` and `__builtin_ffsll` -/
def builtinFfs (n : BitVec w) : BitVec 32 :=
  BitVec.ofNat 32 (findFirstSet n)

end Builtins

section Popcount

/-- The loop of `__popcount_emulated`, with the count and the variable. -/
def _popcountLoop : ℕ → BitVec 32 → BitVec w → Option (BitVec 32 × BitVec w)
  | 0, _, _ => none
  | fuel + 1, count, n =>
    if n = 0#w then some (count, n)
    else _popcountLoop fuel (count + 1#32) (n &&& (n - 1#w))

/-- `__popcount_emulated(n)` of a variable `n`: the count, and what `n` holds afterwards. -/
def _popcountEmulated (fuel : ℕ) (n : BitVec w) : Option (BitVec 32 × BitVec w) :=
  _popcountLoop fuel 0#32 n

/-- `popcount32(n)` of a variable `n`: the count, and what `n` holds afterwards. -/
def popcount32 (fuel : ℕ) (n : BitVec 32) : Option (BitVec 32 × BitVec 32) :=
  if c.hasPopcount then some (builtinPopcount n, n) else _popcountEmulated fuel n

/-- `popcount64(n)` of a variable `n`: the count, and what `n` holds afterwards. -/
def popcount64 (fuel : ℕ) (n : BitVec 64) : Option (BitVec 32 × BitVec 64) :=
  if c.hasPopcount then some (builtinPopcount n, n) else _popcountEmulated fuel n

end Popcount

section Ctz

/-- `__ctz32_popcount`; its `popcount`, which is defined nowhere, counts the set bits. -/
def _ctz32Popcount (n : BitVec 32) : BitVec 32 :=
  builtinPopcount (n &&& -n) - 1#32

/-- `__ctz64_popcount`; its `popcountll`, which is defined nowhere, counts the set bits. -/
def _ctz64Popcount (n : BitVec 64) : BitVec 32 :=
  builtinPopcount (n &&& -n) - 1#32

/-- `if (!(n & mask)) { n >>= s; r += s; }`, as `__ctz32_emulated` and `__ctz64_emulated`
have it for halving masks. -/
def ctzStep (mask : BitVec w) (s : ℕ) (x : BitVec w × BitVec 32) : BitVec w × BitVec 32 :=
  if x.1 &&& mask = 0#w then (x.1 >>> s, x.2 + BitVec.ofNat 32 s) else x

/-- `__ctz32_emulated` -/
def _ctz32Emulated (n : BitVec 32) : BitVec 32 :=
  let x := (n, 0#32)
  let x := ctzStep 0xffff#32 16 x
  let x := ctzStep 0xff#32 8 x
  let x := ctzStep 0xf#32 4 x
  let x := ctzStep 3#32 2 x
  let x := ctzStep 1#32 1 x
  x.2

/-- `__ctz64_emulated` -/
def _ctz64Emulated (n : BitVec 64) : BitVec 32 :=
  let x := (n, 0#32)
  let x := ctzStep 0xffffffff#64 32 x
  let x := ctzStep 0xffff#64 16 x
  let x := ctzStep 0xff#64 8 x
  let x := ctzStep 0xf#64 4 x
  let x := ctzStep 3#64 2 x
  let x := ctzStep 1#64 1 x
  x.2

/-- `ctz32` -/
def ctz32 (n : BitVec 32) : BitVec 32 :=
  if c.hasCtz then builtinCtz c n
  else if c.hasPopcount then _ctz32Popcount n
  else _ctz32Emulated n

/-- `ctz64` -/
def ctz64 (n : BitVec 64) : BitVec 32 :=
  if c.hasCtz then builtinCtz c n
  else if c.hasPopcount then _ctz64Popcount n
  else _ctz64Emulated n

/-- `lsb32` -/
def lsb32 (x : BitVec 32) : BitVec 32 :=
  ctz32 c x

/-- `lsb64` -/
def lsb64 (x : BitVec 64) : BitVec 32 :=
  ctz64 c x

end Ctz

section Clz

/-- The value of a comparison, an `int`. -/
def truth (b : Bool) : BitVec 32 :=
  if b then 1#32 else 0#32

/-- `__clz32_emulated` -/
def _clz32Emulated (n : BitVec 32) : BitVec 32 :=
  let r := truth (n > 0xFFFF#32) <<< 4
  let n := n >>> r
  let q := truth (n > 0xFF#32) <<< 3
  let n := n >>> q
  let r := r ||| q
  let q := truth (n > 0xF#32) <<< 2
  let n := n >>> q
  let r := r ||| q
  let q := truth (n > 0x3#32) <<< 1
  let n := n >>> q
  let r := r ||| q
  let r := r ||| n >>> 1
  31#32 - r

/-- `__clz64_emulated`; the last `|=` is of a `uint` and a `u64`. -/
def _clz64Emulated (n : BitVec 64) : BitVec 32 :=
  let r := truth (n > 0xFFFFFFFF#64) <<< 5
  let n := n >>> r
  let q := truth (n > 0xFFFF#64) <<< 4
  let n := n >>> q
  let r := r ||| q
  let q := truth (n > 0xFF#64) <<< 3
  let n := n >>> q
  let r := r ||| q
  let q := truth (n > 0xF#64) <<< 2
  let n := n >>> q
  let r := r ||| q
  let q := truth (n > 0x3#64) <<< 1
  let n := n >>> q
  let r := r ||| q
  let r := (r.setWidth 64 ||| n >>> 1).setWidth 32
  63#32 - r

/-- `clz32` -/
def clz32 (n : BitVec 32) : BitVec 32 :=
  if c.hasClz then builtinClz c n else _clz32Emulated n

/-- `clz64` -/
def clz64 (n : BitVec 64) : BitVec 32 :=
  if c.hasClz then builtinClz c n else _clz64Emulated n

/-- `msb32` -/
def msb32 (x : BitVec 32) : BitVec 32 :=
  31#32 ^^^ clz32 c x

/-- `msb64` -/
def msb64 (x : BitVec 64) : BitVec 32 :=
  63#32 ^^^ clz64 c x

/-- `fls32` -/
def fls32 (n : BitVec 32) : BitVec 32 :=
  if n ≠ 0#32 then 32#32 - clz32 c n else 0#32

/-- `fls64` -/
def fls64 (n : BitVec 64) : BitVec 32 :=
  if n ≠ 0#64 then 64#32 - clz64 c n else 0#32

/-- `ilog2_32` -/
def ilog2_32 (n : BitVec 32) : BitVec 32 :=
  msb32 c n

/-- `ilog2_64` -/
def ilog2_64 (n : BitVec 64) : BitVec 32 :=
  msb64 c n

end Clz

section Ffs

/-- `__ffs32_popcount`, under `HAS_POPCOUNT` -/
def _ffs32Popcount (n : BitVec 32) : Option (BitVec 32) :=
  if c.hasPopcount then some (builtinPopcount (n ^^^ ~~~(-n))) else none

/-- `__ffs64_popcount`, under `HAS_POPCOUNT` -/
def _ffs64Popcount (n : BitVec 64) : Option (BitVec 32) :=
  if c.hasPopcount then some (builtinPopcount (n ^^^ ~~~(-n))) else none

/-- `__ffs32_ctz`, under `HAS_CTZ` -/
def _ffs32Ctz (n : BitVec 32) : Option (BitVec 32) :=
  if c.hasCtz then some (if n ≠ 0#32 then builtinCtz c n + 1#32 else 0#32) else none

/-- `__ffs64_ctz`, under `HAS_CTZ` -/
def _ffs64Ctz (n : BitVec 64) : Option (BitVec 32) :=
  if c.hasCtz then some (if n ≠ 0#64 then builtinCtz c n + 1#32 else 0#32) else none

/-- `__ffs32_emulated`.  The emulated `popcount32` assigns to its argument, which is no
variable here. -/
def _ffs32Emulated (n : BitVec 32) : Option (BitVec 32) :=
  if c.hasPopcount then some (builtinPopcount (n ^^^ ~~~(-n))) else none

/-- `__ffs64_emulated`.  The emulated `popcount64` assigns to its argument, which is no
variable here. -/
def _ffs64Emulated (n : BitVec 64) : Option (BitVec 32) :=
  if c.hasPopcount then some (builtinPopcount (n ^^^ ~~~(-n))) else none

/-- `ffs32` -/
def ffs32 (n : BitVec 32) : Option (BitVec 32) :=
  if c.hasFfs then some (builtinFfs n)
  else if c.hasPopcount then _ffs32Popcount c n
  else if c.hasCtz then _ffs32Ctz c n
  else _ffs32Emulated c n

/-- `ffs64`.  For a compiler with `ctz` alone it is `__ffs64_ctzll`, which does not exist. -/
def ffs64 (n : BitVec 64) : Option (BitVec 32) :=
  if c.hasFfs then some (builtinFfs n)
  else if c.hasPopcount then _ffs64Popcount c n
  else if c.hasCtz then none
  else _ffs64Emulated c n

/-- `ffz32` -/
def ffz32 (n : BitVec 32) : Option (BitVec 32) :=
  ffs32 c (~~~n)

/-- `ffz64` -/
def ffz64 (n : BitVec 64) : Option (BitVec 32) :=
  ffs64 c (~~~n)

end Ffs

section Bswap

/-- `__bswap32_emulated` -/
def _bswap32Emulated (n : BitVec 32) : BitVec 32 :=
  let k := 0x00FF00FF#32
  let n := ((n >>> 8) &&& k) ||| ((n &&& k) <<< 8)
  let n := (n >>> 16) ||| (n <<< 16)
  n

/-- `__bswap64_emulated` -/
def _bswap64Emulated (n : BitVec 64) : BitVec 64 :=
  let k1 := 0x00FF00FF00FF00FF#64
  let k2 := 0x0000FFFF0000FFFF#64
  let n := ((n >>> 8) &&& k1) ||| ((n &&& k1) <<< 8)
  let n := ((n >>> 16) &&& k2) ||| ((n &&& k2) <<< 16)
  let n := (n >>> 32) ||| (n <<< 32)
  n

end Bswap

section Ilog2

/-- `__ilog2_32_table` -/
def _ilog2_32Table : List (BitVec 32) :=
  [0, 9, 1, 10, 13, 21, 2, 29,
   11, 14, 16, 18, 22, 25, 3, 30,
   8, 12, 20, 28, 15, 17, 24, 7,
   19, 27, 23, 6, 26, 5, 4, 31]

/-- `__ilog2_64_table` -/
def _ilog2_64Table : List (BitVec 32) :=
  [63, 0, 58, 1, 59, 47, 53, 2,
   60, 39, 48, 27, 54, 33, 42, 3,
   61, 51, 37, 40, 49, 18, 28, 20,
   55, 30, 34, 11, 43, 14, 22, 4,
   62, 57, 46, 52, 38, 26, 32, 41,
   50, 36, 17, 19, 29, 10, 13, 21,
   56, 45, 25, 31, 35, 16, 9, 12,
   44, 24, 15, 8, 23, 7, 6, 5]

/-- `__ilog2_32_emulated`; there is no result where the index is outside of the table. -/
def _ilog2_32Emulated (n : BitVec 32) : Option (BitVec 32) :=
  let n := n ||| n >>> 1
  let n := n ||| n >>> 2
  let n := n ||| n >>> 4
  let n := n ||| n >>> 8
  let n := n ||| n >>> 16
  _ilog2_32Table[((n * 0x07C4ACDD#32) >>> 27).toNat]?

/-- `__ilog2_64_emulated`; there is no result where the index is outside of the table. -/
def _ilog2_64Emulated (n : BitVec 64) : Option (BitVec 32) :=
  let n := n ||| n >>> 1
  let n := n ||| n >>> 2
  let n := n ||| n >>> 4
  let n := n ||| n >>> 8
  let n := n ||| n >>> 16
  let n := n ||| n >>> 32
  _ilog2_64Table[(((n - n >>> 1) * 0x07EDD5E59A4E28C2#64) >>> 58).toNat]?

end Ilog2

end Bitops
end Brlib
