import Mdbx.Lib.Binary64
import Mathlib.Data.Nat.Log

/-!
# Keys.JsonInteger — 64-bit integers as keys in the order of doubles

An integer gets the key of the double nearest to it.  The `uint64_t` of the source are numbers here,
and an operation that may wrap around is taken modulo `2 ^ 64`.
-/

namespace Mdbx.Keys

open Binary64

/-! ## 1. Definitions -/

/-- `__builtin_clzl` -/
def clz64 (value : Nat) : Nat := 63 - value.log2

def mantissaSize : Nat := 52
def exponentaBias : Nat := 0x3FF
def exponentaMax : Nat := 0x7FF
def implicitLead : Nat := 0x0010000000000000
def mantissaMask : Nat := 0x000FFFFFFFFFFFFF
def mantissaAmax : Nat := 0x001FFFFFFFFFFFFF

/-- `UINT64_C(0x8000000000000000)` -/
def bias : Nat := 2 ^ 63

def roundMantissa (u64 : Nat) (shift : Int) : Nat :=
  let shift := (-shift).toNat
  let half := 1 <<< (shift - 1)
  let lsb := 1 &&& (u64 >>> shift)
  let tie2even := 1 ^^^ lsb
  ((u64 + half - tie2even) % 2 ^ 64) >>> shift

/-- The mantissa, and the shift that is left for the exponent. -/
def scale (u64 : Nat) : Nat × Int :=
  let shift : Int := clz64 u64 - (64 - mantissaSize - 1 : Int)
  if shift < 0 then
    let mantissa := roundMantissa u64 shift
    if mantissaAmax < mantissa then (roundMantissa u64 (shift - 1), shift - 1)
    else (mantissa, shift)
  else ((u64 <<< shift.toNat) % 2 ^ 64, shift)

def magnitude (u64 : Nat) : Nat :=
  let (mantissa, shift) := scale u64
  let exponent := (exponentaBias + mantissaSize - shift : Int).toNat
  (exponent <<< mantissaSize) + (mantissa - implicitLead)

/-- `mdbx_key_from_jsonInteger`; the least integer is its own negation. -/
def keyFromJsonInteger (jsonInteger : Int64) : UInt64 :=
  let n := jsonInteger.toInt
  if 0 < n then UInt64.ofNat (bias + magnitude n.toNat)
  else if n < 0 then UInt64.ofNat (bias - 1 - magnitude (-n).toNat)
  else UInt64.ofNat bias

/-- `mdbx_jsonInteger_from_key` -/
def jsonIntegerFromKey (key : UInt64) : Int64 :=
  let key := key.toNat
  let covalent := if bias < key then key - bias else ((bias - key - 1 : Int) % 2 ^ 64).toNat
  let shift : Int := exponentaBias + 63 - (exponentaMax &&& (covalent >>> mantissaSize) : Nat)
  if shift < 1 then if key < bias then Int64.minValue else Int64.maxValue
  else if 63 < shift then 0
  else
    let unscaled := ((covalent &&& mantissaMask) <<< (63 - mantissaSize)) + bias
    let absolute : Int := (unscaled >>> shift.toNat : Nat)
    Int64.ofInt (if key < bias then -absolute else absolute)

/-- `double2key` -/
def double2key (bits : UInt64) : UInt64 :=
  -- `i < 0`
  if 0x8000000000000000 ≤ bits then 0xffffFFFFffffFFFF - bits else bits + 0x8000000000000000

/-- The bits of a finite number. -/
def ofDouble (d : Double) : UInt64 := UInt64.ofNat ((if d.neg then 2 ^ 63 else 0) + d.bits)

def keyOf (d : Double) : UInt64 := double2key (ofDouble d)

end Mdbx.Keys
