import Mdbx.Lib.Comparator

/-!
# Compare.Model — the built-in comparators

The comparators of keys and values over the bytes that an `MDBX_val` points to, with the loads of
words as they are made for each byte order, word size and allowed alignment.
-/

namespace Mdbx.Compare

abbrev Bytes := List UInt8

/-- What the build knows of the machine. -/
structure Machine where
  -- `sizeof(size_t) == 8`, else it is 4
  wide : Bool
  -- `__BYTE_ORDER__ != __ORDER_LITTLE_ENDIAN__`
  bigEndian : Bool
  -- `MDBX_UNALIGNED_OK`
  unalignedOk : Nat
  -- `MDBX_CHECKING > 0`
  checking : Bool
  deriving DecidableEq, Repr

def Machine.sizeofSize (m : Machine) : Nat := if m.wide then 8 else 4

def intMax : Nat := 2 ^ 31 - 1

/-! ## 1. Loads -/

def codes (a : Bytes) : List Nat := a.map UInt8.toNat

/-- The `n` bytes from `pos` on. -/
def slice (a : Bytes) (pos n : Nat) : Bytes := (a.drop pos).take n

/-- The number that the machine reads from these bytes. -/
def Machine.word (m : Machine) (l : Bytes) : Nat :=
  Nat.ofDigits 256 (codes (if m.bigEndian then l.reverse else l))

def Machine.load (m : Machine) (n : Nat) (a : Bytes) (pos : Nat) : Nat := m.word (slice a pos n)

/-- A word read by halves of `n` bytes. -/
def Machine.loadHalves (m : Machine) (n : Nat) (a : Bytes) (pos : Nat) : Nat :=
  let lo := m.load n a (if m.bigEndian then pos + n else pos)
  let hi := m.load n a (if m.bigEndian then pos else pos + n)
  lo ||| hi <<< (8 * n)

/-- `unaligned_peek_u32`; the last branch goes through `bcopy_4`. -/
def unalignedPeekU32 (m : Machine) (expectedAlignment : Nat) (a : Bytes) (pos : Nat) : Nat :=
  if 4 ≤ m.unalignedOk ∨ expectedAlignment % 4 = 0 then m.load 4 a pos
  else if expectedAlignment % 2 = 0 then m.loadHalves 2 a pos
  else m.load 4 a pos

/-- `unaligned_peek_u64`; the last branch goes through `bcopy_8`. -/
def unalignedPeekU64 (m : Machine) (expectedAlignment : Nat) (a : Bytes) (pos : Nat) : Nat :=
  if 8 ≤ m.unalignedOk ∨ expectedAlignment % 8 = 0 then m.load 8 a pos
  else if expectedAlignment % 4 = 0 then m.loadHalves 4 a pos
  else m.load 8 a pos

/-- `osal_bswap32` and `osal_bswap64`, by the number of bytes -/
def bswap : Nat → Nat → Nat
  | 0, _ => 0
  | n + 1, x => x % 256 * 256 ^ n + bswap n (x / 256)

/-- `memcmp` of strings with one length -/
def memcmp : Bytes → Bytes → Int
  | x :: a, y :: b => if x = y then memcmp a b else (x.toNat : Int) - y.toNat
  | _, _ => 0

/-- `CMP2INT` -/
def cmp2int (a b : Nat) : Int := if a ≠ b then if a < b then -1 else 1 else 0

/-! ## 2. Integer keys -/

/-- `cmp_uint32_unchecked` -/
def cmpUint32Unchecked (m : Machine) (expectedAlignment : Nat) (a b : Bytes) : Int :=
  cmp2int (unalignedPeekU32 m expectedAlignment a 0) (unalignedPeekU32 m expectedAlignment b 0)

/-- `cmp_uint64_unchecked` -/
def cmpUint64Unchecked (m : Machine) (expectedAlignment : Nat) (a b : Bytes) : Int :=
  cmp2int (unalignedPeekU64 m expectedAlignment a 0) (unalignedPeekU64 m expectedAlignment b 0)

/-- `cmp_uint_inline`; a mismatch of the sizes is only reported. -/
def cmpUintInline (m : Machine) (expectedAlignment : Nat) (a b : Bytes) : Int :=
  if a.length = b.length then
    if m.wide ∧ a.length = 8 then cmpUint64Unchecked m expectedAlignment a b
    else if a.length = 4 then cmpUint32Unchecked m expectedAlignment a b
    else if ¬m.wide ∧ a.length = 8 then cmpUint64Unchecked m expectedAlignment a b
    else 0
  else 0

/-- `cmp_uint32_inline` -/
def cmpUint32Inline (m : Machine) (expectedAlignment : Nat) (a b : Bytes) : Int :=
  if a.length = b.length ∧ a.length = 4 then cmpUint32Unchecked m expectedAlignment a b else 0

/-- `cmp_uint64_inline` -/
def cmpUint64Inline (m : Machine) (expectedAlignment : Nat) (a b : Bytes) : Int :=
  if a.length = b.length ∧ a.length = 8 then cmpUint64Unchecked m expectedAlignment a b else 0

def cmpUintUnaligned (m : Machine) : Bytes → Bytes → Int := cmpUintInline m 1
def cmpUint32Unaligned (m : Machine) : Bytes → Bytes → Int := cmpUint32Inline m 1
def cmpUint64Unaligned (m : Machine) : Bytes → Bytes → Int := cmpUint64Inline m 1
def cmpUint32UnalignedUnchecked (m : Machine) : Bytes → Bytes → Int := cmpUint32Unchecked m 1
def cmpUint64UnalignedUnchecked (m : Machine) : Bytes → Bytes → Int := cmpUint64Unchecked m 1

/-- Whether the comparators of words with this alignment are functions of their own. -/
def Machine.separate (m : Machine) (alignment : Nat) : Bool :=
  m.unalignedOk < alignment ∨ m.checking

def cmpUintAlign2 (m : Machine) : Bytes → Bytes → Int :=
  if m.separate 2 then cmpUintInline m 2 else cmpUintUnaligned m
/-- Without functions of their own, both names stand for `cmp_uint_unaligned`. -/
def cmpUint32Align2 (m : Machine) : Bytes → Bytes → Int :=
  if m.separate 2 then cmpUint32Inline m 2 else cmpUintUnaligned m
def cmpUint64Align2 (m : Machine) : Bytes → Bytes → Int :=
  if m.separate 2 then cmpUint64Inline m 2 else cmpUintUnaligned m
def cmpUint32Align2Unchecked (m : Machine) : Bytes → Bytes → Int :=
  if m.separate 2 then cmpUint32Unchecked m 2 else cmpUint32UnalignedUnchecked m
def cmpUint64Align2Unchecked (m : Machine) : Bytes → Bytes → Int :=
  if m.separate 2 then cmpUint64Unchecked m 2 else cmpUint64UnalignedUnchecked m

def cmpUintAlign4 (m : Machine) : Bytes → Bytes → Int :=
  if m.separate 4 then cmpUintInline m 4 else cmpUintUnaligned m
def cmpUint32Align4 (m : Machine) : Bytes → Bytes → Int :=
  if m.separate 4 then cmpUint32Inline m 4 else cmpUint32Unaligned m
def cmpUint64Align4 (m : Machine) : Bytes → Bytes → Int :=
  if m.separate 4 then cmpUint64Inline m 4 else cmpUint64Unaligned m
def cmpUint32Align4Unchecked (m : Machine) : Bytes → Bytes → Int :=
  if m.separate 4 then cmpUint32Unchecked m 4 else cmpUint32UnalignedUnchecked m
def cmpUint64Align4Unchecked (m : Machine) : Bytes → Bytes → Int :=
  if m.separate 4 then cmpUint64Unchecked m 4 else cmpUint64UnalignedUnchecked m

/-- The comparators that take 4-byte integers, and those that take 8-byte ones. -/
def comparators32 (m : Machine) : List (Bytes → Bytes → Int) :=
  [cmpUintUnaligned m, cmpUintAlign2 m, cmpUintAlign4 m,
    cmpUint32Unaligned m, cmpUint32Align2 m, cmpUint32Align4 m,
    cmpUint32UnalignedUnchecked m, cmpUint32Align2Unchecked m, cmpUint32Align4Unchecked m]

def comparators64 (m : Machine) : List (Bytes → Bytes → Int) :=
  [cmpUintUnaligned m, cmpUintAlign2 m, cmpUintAlign4 m,
    cmpUint64Unaligned m, cmpUint64Align2 m, cmpUint64Align4 m,
    cmpUint64UnalignedUnchecked m, cmpUint64Align2Unchecked m, cmpUint64Align4Unchecked m]

/-! ## 3. Byte strings -/

/-- `cmp_len`, with its cast to `int` -/
def cmpLen (a b : Nat) : Int := ((a : Int) - b).bmod (2 ^ 32)

/-- `cmp_lexical` -/
def cmpLexical (a b : Bytes) : Int :=
  let diffLen := cmpLen a.length b.length
  let shortest := if a.length < b.length then a.length else b.length
  let diffData := if shortest ≠ 0 then memcmp (a.take shortest) (b.take shortest) else 0
  if diffData ≠ 0 then diffData else diffLen

def byte (a : Bytes) (i : Nat) : Nat := (a.getD i 0).toNat

/-- `tail3le` of the `l` bytes from `pos` on -/
def tail3le (a : Bytes) (pos l : Nat) : Nat :=
  byte a pos ||| byte a (pos + l >>> 1) <<< 8 ||| byte a (pos + l - 1) <<< 16

/-- A word of `n` bytes with its lowest byte first, whatever the byte order. -/
def Machine.peekSwapped (m : Machine) (n : Nat) (a : Bytes) (pos : Nat) : Nat :=
  let x := if n = 4 then unalignedPeekU32 m 1 a pos else unalignedPeekU64 m 1 a pos
  if m.bigEndian then bswap n x else x

/-- `if (left)` at the end of `cmp_reverse`. -/
def reverseTail (a b : Bytes) (pa pb left : Nat) : Int :=
  if left ≠ 0 then
    let xa := tail3le a (pa - left) left
    let xb := tail3le b (pb - left) left
    if xa ≠ xb then if xa < xb then -1 else 1 else cmpLen a.length b.length
  else cmpLen a.length b.length

/-- `if (sizeof(size_t) == 8 && left >= 4)` -/
def reverseHalf (m : Machine) (a b : Bytes) (pa pb left : Nat) : Int :=
  if m.wide ∧ 4 ≤ left then
    let xa := m.peekSwapped 4 a (pa - 4)
    let xb := m.peekSwapped 4 b (pb - 4)
    if xa ≠ xb then if xa < xb then -1 else 1
    else reverseTail a b (pa - 4) (pb - 4) (left - 4)
  else reverseTail a b pa pb left

/-- `while (left >= sizeof(size_t))`; each round takes at least one byte of `left`. -/
def reverseWords (m : Machine) (a b : Bytes) : Nat → Nat → Nat → Nat → Int
  | 0, pa, pb, left => reverseHalf m a b pa pb left
  | fuel + 1, pa, pb, left =>
      let n := m.sizeofSize
      if n ≤ left then
        let xa := m.peekSwapped n a (pa - n)
        let xb := m.peekSwapped n b (pb - n)
        if xa ≠ xb then if xa < xb then -1 else 1
        else reverseWords m a b fuel (pa - n) (pb - n) (left - n)
      else reverseHalf m a b pa pb left

/-- `cmp_reverse` -/
def cmpReverse (m : Machine) (a b : Bytes) : Int :=
  let left := if a.length < b.length then a.length else b.length
  if left ≠ 0 then reverseWords m a b left a.length b.length left
  else cmpLen a.length b.length

/-- `cmp_lenfast` -/
def cmpLenfast (a b : Bytes) : Int :=
  let diff := cmpLen a.length b.length
  if diff ≠ 0 ∨ a.length = 0 then diff else memcmp a (b.take a.length)

/-- The difference of two words of `n` bytes. -/
def subWord (n x y : Nat) : Nat := (x + 256 ^ n - y) % 256 ^ n

/-- `eq_fast_slowpath` -/
def eqFastSlowpath (m : Machine) (a b : Bytes) (l : Nat) : Bool :=
  if 3 < l then
    if 4 ≤ m.unalignedOk ∧ l < 9 then
      subWord 4 (unalignedPeekU32 m 1 a 0) (unalignedPeekU32 m 1 b 0) |||
        subWord 4 (unalignedPeekU32 m 1 a (l - 4)) (unalignedPeekU32 m 1 b (l - 4)) = 0
    else if 8 ≤ m.unalignedOk ∧ m.wide ∧ l < 17 then
      subWord 8 (unalignedPeekU64 m 1 a 0) (unalignedPeekU64 m 1 b 0) |||
        subWord 8 (unalignedPeekU64 m 1 a (l - 8)) (unalignedPeekU64 m 1 b (l - 8)) = 0
    else memcmp (a.take l) (b.take l) = 0
  else if l ≠ 0 then tail3le a 0 l = tail3le b 0 l
  else true

/-- `eq_fast` -/
def eqFast (m : Machine) (a b : Bytes) : Bool :=
  a.length = b.length ∧ eqFastSlowpath m a b a.length

/-- `cmp_equal_or_greater` and `cmp_equal_or_wrong` -/
def cmpEqualOrGreater (m : Machine) (a b : Bytes) : Int := if eqFast m a b then 0 else 1
def cmpEqualOrWrong (m : Machine) (a b : Bytes) : Int := if eqFast m a b then 0 else -1

end Mdbx.Compare
