import Mdbx.Basic
import Mathlib.Data.List.Sort

/-!
# Gc.StoreRetired — `gc_store_retired` with `MDBX_ENABLE_BIGFOOT`

The retired list is cut into slices that go to the GC under the ids `txnid`, `txnid + 1`, …  Every
call on the way works on the GC tree itself and so may retire further pages.  Such calls are answered
from a script: the `n`-th one fails or succeeds and appends what the script says.
-/

namespace Mdbx.Gc

def numMetas : Nat := 3

/-- `PAGELIST_LIMIT`; `pnl_reserve` refuses to go beyond it. -/
def pagelistLimit : Nat := 0x7fffffff

def uint32Max : Nat := 2 ^ 32 - 1

/-- `SAFE64_INVALID_THRESHOLD - 1` -/
def maxTxnid : Nat := 0xffffffff00000000 - 1

/-- What a call does besides its own work: it fails, or it appends to `retired_pages`. -/
structure Call where
  rc : Rc
  appended : List Nat
  deriving Repr

/-- What is fixed while `gc_store_retired` runs.  `stale` are the words behind the end of
`retired_pages`. -/
structure Gcu where
  txnid : Nat
  lifo : Bool
  goodchunk : Nat
  script : Nat → Call
  stale : Nat → Nat

/-- The list at the first put of a pass and what that put appended to it. -/
structure Opening where
  list : List Nat
  appended : List Nat
  deriving DecidableEq, Repr

structure State where
  retired : List Nat
  gc : Nat → Option (List Nat)
  retiredStored : Nat
  bigfoot : Nat
  calls : Nat
  -- a record of the pass openings so far, not a part of `gcu_t`
  openings : List Opening

def call (u : Gcu) (s : State) : Rc × State :=
  let c := u.script s.calls
  (c.rc, { s with retired := s.retired ++ c.appended, calls := s.calls + 1 })

def setRecord (gc : Nat → Option (List Nat)) (id : Nat) (r : Option (List Nat)) :
    Nat → Option (List Nat) :=
  fun i => if i = id then r else gc i

/-- A `size_t` difference. -/
def sizeSub (a b : Nat) : Nat := if b ≤ a then a - b else 2 ^ 64 + a - b

/-- `pnl_sort`: descending. -/
def pnlSort (l : List Nat) : List Nat := l.insertionSort (· ≥ ·)

/-! ## 1. `gc_clean_stored_retired` -/

/-- The body of the loop: seek the record under `bigfoot` and delete it. -/
def cleanRecord (u : Gcu) (s : State) : Rc × State :=
  let sought := call u s
  if sought.1 = .success ∧ (sought.2.gc sought.2.bigfoot).isSome then
    let deleted := call u { sought.2 with retiredStored := 0 }
    if deleted.1 = .success then
      (.success, { deleted.2 with gc := setRecord deleted.2.gc deleted.2.bigfoot none })
    else deleted
  else if sought.1 = .success ∨ sought.1 = .notFound then (.success, sought.2)
  else sought

/-- At most one round for each id from `bigfoot` down to `txnid`. -/
def cleanRounds (u : Gcu) : Nat → State → Rc × State
  | 0, s => (.success, s)
  | n + 1, s =>
      let cleaned := cleanRecord u s
      if cleaned.1 ≠ .success then cleaned
      else
        let s' := { cleaned.2 with bigfoot := cleaned.2.bigfoot - 1 }
        if s'.bigfoot ≥ u.txnid then cleanRounds u n s' else (.success, s')

def gcCleanStoredRetired (u : Gcu) (s : State) : Rc × State :=
  if s.retiredStored ≠ 0 then cleanRounds u (s.bigfoot + 1 - u.txnid) s else (.success, s)

/-! ## 2. One slice -/

def chunkHi (u : Gcu) (leftBefore bigfoot : Nat) : Nat :=
  if u.goodchunk < (leftBefore ||| 3) ∧ bigfoot < maxTxnid - uint32Max then u.goodchunk
  else leftBefore ||| 3

/-- The words of a page number list from its length word on. -/
def pnlWord (u : Gcu) (l : List Nat) : Nat → Nat
  | 0 => l.length
  | i + 1 => l.getD i (u.stale i)

/-- The `chunk_hi + 1` words that the `memcpy` takes at `retired_pages + at`, of which the first is
replaced by the length of the slice.  The word before the length word belongs to the list, too; what
is in front of it does not. -/
def sliceWords (u : Gcu) (l : List Nat) (start : Int) (chunk hi : Nat) : Option (List Nat) :=
  if start < -1 then none
  else
    some (chunk % 2 ^ 32 ::
      (List.range hi).map fun (k : Nat) => pnlWord u l (start + 1 + k).toNat)

inductive Outcome where
  -- the fuel is spent
  | running (s : State)
  | failed (rc : Rc) (s : State)
  -- an access outside of the list
  | fault (s : State)
  | done (shouldRetry : Bool) (s : State)

def Outcome.state : Outcome → State
  | .running s => s
  | .failed _ s => s
  | .fault s => s
  | .done _ s => s

/-- `cursor_put` with `MDBX_RESERVE` under `bigfoot`: `hi + 1` words of unknown content. -/
def reserveRecord (u : Gcu) (hi : Nat) (s : State) : State :=
  { (call u s).2 with
    gc := setRecord s.gc s.bigfoot (some ((List.range (hi + 1)).map u.stale))
    openings :=
      if s.retiredStored = 0 then ⟨s.retired, (u.script s.calls).appended⟩ :: s.openings
      else s.openings }

/-- The inner loop after a successful put, up to `ctx->retired_stored += chunk`. -/
def storeSlice (u : Gcu) (retiredBefore leftBefore hi : Nat) (s : State) : Outcome :=
  let reserved := reserveRecord u hi s
  let retiredAfter := reserved.retired.length
  let leftAfter := sizeSub retiredAfter s.retiredStored
  let chunk := if leftAfter < hi then leftAfter else hi
  if retiredBefore ≠ retiredAfter ∧ chunk < retiredAfter then
    .done true { reserved with retiredStored := s.retiredStored + chunk }
  else
    -- `left_before - chunk` wraps to an offset below the list where the chunk is the longer
    let start : Int := if u.lifo then (s.retiredStored : Int) else (leftBefore : Int) - chunk
    match sliceWords u reserved.retired start chunk hi with
    | none => .fault reserved
    | some words => .done false { reserved with
        gc := setRecord reserved.gc s.bigfoot (some words)
        retiredStored := s.retiredStored + chunk }

/-- The inner loop from `key.iov_len = sizeof(txnid_t)` on. -/
def putSlice (u : Gcu) (retiredBefore : Nat) (s : State) : Outcome :=
  let leftBefore := sizeSub retiredBefore s.retiredStored
  if (call u s).1 ≠ .success then .failed (call u s).1 (call u s).2
  else storeSlice u retiredBefore leftBefore (chunkHi u leftBefore s.bigfoot) s

/-! ## 3. The loops -/

/-- `do { … } while (ctx->retired_stored < pnl_size(…) && (++ctx->bigfoot, true))` -/
def putSlices (u : Gcu) (retiredBefore : Nat) : Nat → State → Outcome
  | 0, s => .running s
  | fuel + 1, s =>
      let prepared := if s.retiredStored ≠ 0 then call u s else (.success, s)
      if prepared.1 ≠ .success then .failed prepared.1 prepared.2
      else
        match putSlice u retiredBefore prepared.2 with
        | .done shouldRetry s' =>
            if s'.retiredStored < s'.retired.length then
              putSlices u retiredBefore fuel { s' with bigfoot := s'.bigfoot + 1 }
            else .done shouldRetry s'
        | o => o

/-- `gc_store_retired` -/
def gcStoreRetired (u : Gcu) : Nat → State → Outcome
  | 0, s => .running s
  | fuel + 1, s =>
      let cleaned := if u.txnid < s.bigfoot then gcCleanStoredRetired u s else (.success, s)
      if cleaned.1 ≠ .success then .failed cleaned.1 cleaned.2
      else
        -- `gc_prepare_stockpile4retired`
        let prepared := call u cleaned.2
        if prepared.1 ≠ .success then .failed prepared.1 prepared.2
        else
          let sorted := { prepared.2 with
            retired := pnlSort prepared.2.retired, retiredStored := 0, bigfoot := u.txnid }
          match putSlices u sorted.retired.length fuel sorted with
          | .done true s' => gcStoreRetired u fuel s'
          | o => o

end Mdbx.Gc
