import Mathlib.Algebra.Order.Ring.Nat
import Mathlib.Tactic.Ring

/-!
# Geometry.Model — how the data file grows and shrinks

The end of the data file in pages: the growth in `gc_alloc_ex` and the automatic shrink in
`dxb_sync_locked`, with steps that are packed into 16 bits, between readers that hold snapshots.
Page numbers have 32 bits, and `size_t` has 32 or 64.
-/

namespace Mdbx.Geometry

/-- The word size of the build, the page size, and the unit that the system rounds files to. -/
structure Build where
  -- `sizeof(size_t) * CHAR_BIT`
  sizeBits : Nat
  word : sizeBits = 32 ∨ sizeBits = 64
  pagesizeLn : Nat
  paged : 8 ≤ pagesizeLn ∧ pagesizeLn ≤ 16
  -- of `dxb_storage_os_alignment_unit`, at most 4 megabytes
  unitLn : Nat
  aligned : unitLn ≤ 22

/-- The casts to `size_t`, to `uint64_t` and to `pgno_t`. -/
def sizeT (b : Build) (n : Nat) : Nat := n % 2 ^ b.sizeBits
def u64 (n : Nat) : Nat := n % 2 ^ 64
def pgnoT (n : Nat) : Nat := n % 2 ^ 32

/-- Subtraction of page numbers. -/
def pgnoSub (m n : Nat) : Nat := pgnoT (m + 2 ^ 32 - n)

/-- The part of `geo_t` that is in use, with page numbers up to `MAX_PAGENO + 1`. -/
structure Geo where
  growPv : UInt16
  shrinkPv : UInt16
  lower : Nat
  upper : Nat
  now : Nat
  firstUnallocated : Nat

/-! ## 1. Packed steps and rounding -/

def me2v (m e : Nat) : Nat := pgnoT (32768 + (m + 1) * 2 ^ (e + 8))

def pv2pages (pv : UInt16) : Nat :=
  if pv &&& 0x8001 ≠ 0x8001 then pv.toNat
  else if pv = 65535 then 65536
  else me2v ((pv >>> 1) &&& 2047).toNat ((pv >>> 12) &&& 7).toNat

/-- `ceil_powerof2` -/
def ceilPowerof2 (b : Build) (value granularity : Nat) : Nat :=
  let n := sizeT b (value + granularity - 1)
  n - n % granularity

/-- `dxb_storage_pgno_ceil2os_bytes` -/
def pgnoCeil2osBytes (b : Build) (pgno : Nat) : Nat :=
  ceilPowerof2 b (sizeT b (u64 (pgno * 2 ^ b.pagesizeLn))) (2 ^ b.unitLn)

/-- `dxb_storage_pgno_ceil2os_pgno` -/
def pgnoCeil2osPgno (b : Build) (pgno : Nat) : Nat :=
  pgnoT (pgnoCeil2osBytes b pgno / 2 ^ b.pagesizeLn)

/-! ## 2. Growth -/

inductive Growth where
  -- no growth is needed
  | enough
  -- `MDBX_MAP_FULL`
  | mapFull
  | grow (aligned : Nat)
  deriving DecidableEq

/-- The end of `gc_alloc_ex`, where no pages are reused. -/
def growTo (b : Build) (geo : Geo) (num : Nat) : Growth :=
  let newnext := sizeT b (geo.firstUnallocated + num)
  if newnext ≤ geo.now then .enough
  else if geo.upper < newnext ∨ geo.growPv = 0 then .mapFull
  else
    let growStep := pv2pages geo.growPv
    let aligned := pgnoCeil2osPgno b (pgnoT (sizeT b (newnext + growStep - newnext % growStep)))
    .grow (if geo.upper < aligned then geo.upper else aligned)

/-! ## 3. Shrink -/

/-- What is read of the slot of a reader. -/
structure Slot where
  pid : Nat
  snapshotPagesUsed : Nat
  txnid : Nat

/-- `mvcc_snapshot_largest` -/
def mvccSnapshotLargest (slots : List Slot) (basalTxnid lastUsedPage : Nat) : Nat :=
  slots.foldl (fun last slot =>
    if slot.pid ≠ 0 ∧ last < slot.snapshotPagesUsed ∧ slot.txnid ≤ basalTxnid then
      slot.snapshotPagesUsed
    else last) lastUsedPage

/-- A reserve for the GC, with the height of its tree. -/
def stockpileGap (gcHeight : UInt16) : Nat := pgnoT (3 + gcHeight.toNat * 3)

/-- The conditions to shrink the file, and its new end. -/
def shrinkTo (b : Build) (pending : Geo) (gcHeight : UInt16) (largest : Nat) : Option Nat :=
  let gap := stockpileGap gcHeight
  let shrinkStep := pv2pages pending.shrinkPv
  if pending.shrinkPv ≠ 0 ∧
      pgnoT (shrinkStep + gap) < pgnoSub pending.now pending.firstUnallocated then
    if largest < pending.now ∧ pgnoT (shrinkStep + gap) < pgnoSub pending.now largest then
      let aligner := if pending.growPv ≠ 0 then pv2pages pending.growPv else shrinkStep
      let withStockpileGap := pgnoT (largest + gap)
      let aligned := pgnoCeil2osPgno b
        (sizeT b (withStockpileGap + aligner - withStockpileGap % aligner))
      let bottom := if pending.lower < aligned then aligned else pending.lower
      if bottom < pending.now then some bottom else none
    else none
  else none

/-- What `dxb_sync_locked` is called with and finds for the shrink. -/
structure SyncArgs where
  -- `txn_shrink_allowed`
  shrinkAllowed : Bool
  gcHeight : UInt16
  -- what is in `discarded_tail`, and `madv_threshold`
  prevDiscarded : Nat
  madvThreshold : Nat
  -- 4 megabytes at most
  threshold : madvThreshold ≤ 2 ^ 14

/-- The larger of two counts of allocated pages. -/
def largerOf (head pending : Nat) : Nat := if pending < head then head else pending

/-- The shrink in `dxb_sync_locked`, from the largest snapshot that is in use. -/
def syncShrink (b : Build) (args : SyncArgs) (slots : List Slot) (basalTxnid headUsed : Nat)
    (pending : Geo) : Option Nat :=
  if args.shrinkAllowed then
    if args.prevDiscarded < pending.firstUnallocated then none
    else if sizeT b (pending.firstUnallocated + args.madvThreshold) ≤ args.prevDiscarded then
      let largest := mvccSnapshotLargest slots basalTxnid
        (largerOf headUsed pending.firstUnallocated)
      shrinkTo b pending args.gcHeight largest
    else none
  else none

def shrunk (pending : Geo) : Option Nat → Geo
  | some bottom => { pending with now := bottom }
  | none => pending

/-! ## 4. Transactions and readers -/

structure Txn where
  geo : Geo
  txnid : Nat

/-- The committed head, the write transaction, and the readers. -/
structure Env where
  head : Geo
  headTxnid : Nat
  txn : Option Txn
  slots : List Slot

inductive Op where
  | beginRead (pid : Nat)
  | endRead (slot : Nat)
  | beginWrite
  -- up to `PAGELIST_LIMIT` pages from the end of the file, and whether `dxb_resize` succeeds
  | alloc (num : Fin (2 ^ 31)) (resized : Bool)
  -- `txn_refund`
  | refund (firstUnallocated : Nat)
  -- `dxb_sync_locked`, and whether it succeeds
  | commit (args : SyncArgs) (written : Bool)
  | abort
  -- `env_sync`, which is without a transaction where shrinking is allowed
  | sync (args : SyncArgs) (written : Bool)

/-- The allocation of pages from the end of the file. -/
def allocPages (b : Build) (txn : Txn) (num : Nat) (resized : Bool) : Txn :=
  let taken (now : Nat) : Txn :=
    { txn with geo := { txn.geo with
        now := now, firstUnallocated := pgnoT (txn.geo.firstUnallocated + num) } }
  match growTo b txn.geo num with
  | .enough => taken txn.geo.now
  | .mapFull => txn
  | .grow aligned => if resized then taken aligned else txn

def step (b : Build) (env : Env) : Op → Env
  | .beginRead pid =>
      { env with slots := env.slots ++ [⟨pid, env.head.firstUnallocated, env.headTxnid⟩] }
  | .endRead slot => { env with slots := env.slots.eraseIdx slot }
  | .beginWrite =>
      match env.txn with
      | none => { env with txn := some ⟨env.head, env.headTxnid + 1⟩ }
      | some _ => env
  | .alloc num resized =>
      { env with txn := env.txn.map fun txn => allocPages b txn num resized }
  | .refund firstUnallocated =>
      { env with txn := env.txn.map fun txn =>
        { txn with geo := { txn.geo with
            firstUnallocated := min firstUnallocated txn.geo.firstUnallocated } } }
  | .commit args written =>
      match env.txn with
      | none => env
      | some txn =>
          let shrink := syncShrink b args env.slots txn.txnid env.head.firstUnallocated txn.geo
          if written then
            { env with head := shrunk txn.geo shrink, headTxnid := txn.txnid, txn := none }
          else { env with txn := none }
  | .abort => { env with txn := none }
  | .sync args written =>
      match env.txn with
      | some _ => env
      | none =>
          let shrink :=
            syncShrink b args env.slots env.headTxnid env.head.firstUnallocated env.head
          if written ∧ shrink.isSome then
            { env with head := shrunk env.head shrink, headTxnid := env.headTxnid + 1 }
          else env

end Mdbx.Geometry
