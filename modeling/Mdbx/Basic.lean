import Mathlib.Tactic

/-!
# Basic — result codes, transaction ids and page numbers shared by every component
-/

namespace Mdbx

/-- The result codes of `MDBX_error` that the modelled functions return. -/
inductive Rc where
  | success
  | resultTrue
  | notFound
  | keyExist
  | txnFull
  | mapFull
  | problem
  | corrupted
  | enomem
  | einval
  | eio
  deriving DecidableEq, Repr

/-- `txnid_t` is a `uint64_t`; ids range over `[MIN_TXNID, INVALID_TXNID)`. -/
def uint64Max : Nat := 2 ^ 64 - 1
def minTxnid : Nat := 1
def invalidTxnid : Nat := uint64Max

/-- The build-time switches that the modelled code branches on. -/
structure Build where
  -- `MDBX_DEBUG > 0`
  debug : Bool
  -- `MDBX_HAVE_CMOV`
  haveCmov : Bool
  deriving DecidableEq, Repr

end Mdbx
