import Mdbx.Lib.Chains
import Mdbx.PageCache.Materialize

/-!
# PageCache.Batch — many page reads at once

`page_cache_submit_read_batch` looks every request up in the cache, prepares a fill for each miss
that no earlier miss asks for, reads all fills from storage together, and hands the filled pages to
the misses and to their duplicates.  What the allocator and the storage answer is given for each
request.
-/

namespace Mdbx.PageCache

/-! ## 1. Requests and results -/

/-- The error codes, apart from `MDBX_SUCCESS` and `MDBX_RESULT_TRUE`. -/
inductive Err where
  | einval
  | eio
  | enomem
  | other (code : Nat)
  deriving DecidableEq, Repr

/-- `dxb_cache_page_submit_io_t` -/
structure SubmitIo where
  read : ReadIo
  fill : Bool
  deriving DecidableEq, Repr

/-- `dxb_page_cache_read_submit_io_t` -/
structure Request where
  read : ReadIo
  lookup : SubmitIo
  fill : SubmitIo
  deriving DecidableEq, Repr

/-- `dxb_cache_page_result_t`; without an error its page has a reference. -/
structure PageResult where
  err : Option Err
  ref : Option PageRef
  payloadBytes : Nat
  hit : Bool
  filled : Bool
  tracked : Bool
  submitted : Bool
  completed : Bool
  deriving DecidableEq, Repr

def cachePageError (err : Err) : PageResult :=
  ⟨some err, none, 0, false, false, false, false, false⟩

def cachePageSubmittedError (err : Err) (submitted : Bool) : PageResult :=
  ⟨some err, none, 0, false, false, false, submitted, false⟩

/-- `dxb_read_result_t` of one read of the batch, with the bytes that came. -/
structure BatchRead where
  err : Option Err
  submitted : Bool
  completed : Bool
  payload : List UInt8
  deriving DecidableEq, Repr

/-- The arguments of a call and the answers it will get, by the number of the request. -/
structure Call where
  pagesizeLn : Nat
  -- `page_cache_can_reuse(txn)` and `txn_basis_snapshot(txn)`
  reusable : Bool
  snapshot : Nat
  count : Nat
  ios : Nat → Request
  -- `dxb_page_cache_read_submit_io_hash`
  hash : Request → Nat
  -- `is_largepage` on the bytes of a page
  isLarge : List UInt8 → Bool
  -- the arrays of a batch of more than four
  arrays : Bool
  -- the allocations of `dxb_storage_prepare_read_cached_page`
  prepare : Nat → Option Err
  -- `dxb_storage_read_batch_begin`, the last `_drive` and `_finish`
  readBegin : Option Err
  readDrive : Option Err
  readFinish : Option Err
  reads : Nat → BatchRead
  -- the checks and the submit of an insert
  insert : Nat → Option Err

/-- `dxb_page_cache_read_batch_t`; `fills` has the addresses of the prepared entries, and
`misses` counts the entries of `fills`, `missIndex` and `duplicateNext`. -/
structure Batch where
  storage : Storage
  -- what has been read into each buffer
  bytes : Nat → List UInt8
  results : Nat → PageResult
  firstErr : Option Err
  misses : Nat
  fills : Nat → Nat
  missIndex : Nat → Nat
  duplicateOf : Nat → Option Nat
  duplicateBuckets : Nat → Option Nat
  duplicateNext : Nat → Option Nat

namespace Call

variable (c : Call)

/-- `page_cache_make_read_submit_io` -/
def makeReadSubmitIo (read : ReadIo) : Except Err Request :=
  let snapshot := if c.reusable then c.snapshot else 0
  if !readIoValid c.pagesizeLn read then .error .einval
  else if read.reusable ≠ c.reusable ∨ read.snapshot ≠ snapshot then .error .einval
  else .ok ⟨read, ⟨read, false⟩, ⟨read, true⟩⟩

/-- `page_cache_read_submit_io_validate` -/
def validate (io : Request) : Option Err :=
  match c.makeReadSubmitIo io.read with
  | .error err => some err
  | .ok checked => if checked ≠ io then some .einval else none

/-- `batch->results[i] = …` with an error, which is also the first one if there was none. -/
def fail (b : Batch) (i : Nat) (result : PageResult) (err : Err) : Batch :=
  { b with results := Function.update b.results i result
           firstErr := b.firstErr.or (some err) }

/-! ## 2. `page_cache_read_batch_begin` -/

/-- The result of a hit. -/
def hitResult (e : Entry) : PageResult :=
  ⟨none, some (makeCachedPgr e), e.io.bytes, true, false, true, false, true⟩

def bucket (io : Request) : Nat := c.hash io % c.count

/-- An earlier miss with the same request. -/
def findMaster (b : Batch) (i : Nat) : Option Nat :=
  (chainFind (fun j => c.ios i = c.ios (b.missIndex j)) b.duplicateNext b.misses
    (b.duplicateBuckets (c.bucket (c.ios i)))).map b.missIndex

/-- A new fill, its place in the arrays and in its bucket. -/
def addMiss (b : Batch) (i : Nat) : Batch :=
  let payload := (c.reads i).payload
  { b with
    storage :=
      (prepareReadCachedPage b.storage (c.ios i).fill.read true (c.isLarge payload)).2
    bytes := Function.update b.bytes b.storage.nextPage payload
    misses := b.misses + 1
    fills := Function.update b.fills b.misses b.storage.nextAddr
    missIndex := Function.update b.missIndex b.misses i
    duplicateNext := Function.update b.duplicateNext b.misses
      (b.duplicateBuckets (c.bucket (c.ios i)))
    duplicateBuckets := Function.update b.duplicateBuckets (c.bucket (c.ios i)) (some b.misses) }

/-- One round of the loop of `page_cache_read_batch_begin`.  A valid request passes the checks that
the lookup and the preparation of a fill repeat. -/
def beginOne (b : Batch) (i : Nat) : Batch :=
  match c.validate (c.ios i) with
  | some err => fail b i (cachePageError err) err
  | none =>
    match hitEntry b.storage (c.ios i).lookup.read with
    | some e =>
      { b with storage := (lookupCachedPage b.storage (c.ios i).lookup.read).2
               results := Function.update b.results i (hitResult e) }
    | none =>
      match c.findMaster b i with
      | some master => { b with duplicateOf := Function.update b.duplicateOf i (some master) }
      | none =>
        match c.prepare i with
        | some err => fail b i (cachePageError err) err
        | none => c.addMiss b i

/-- The results are written before they are read; `MDBX_EINVAL` stands where nothing is yet. -/
def start (s : Storage) (bytes : Nat → List UInt8) : Batch :=
  { storage := s, bytes := bytes, results := fun _ => cachePageError .einval, firstErr := none
    misses := 0, fills := fun _ => 0, missIndex := fun _ => 0, duplicateOf := fun _ => none
    duplicateBuckets := fun _ => none, duplicateNext := fun _ => none }

def beginLoop (s : Storage) (bytes : Nat → List UInt8) : Nat → Batch
  | 0 => start s bytes
  | n + 1 => c.beginOne (beginLoop s bytes n) n

/-! ## 3. `page_cache_read_batch_drive` -/

/-- The calls of the storage batch; one that has to wait answers `MDBX_RESULT_TRUE` and is
repeated. -/
def storageErr (misses : Nat) : Option Err :=
  if misses = 0 then none
  else
    match c.readBegin with
    | some err => some err
    | none => c.readDrive.or c.readFinish

/-- Why a fill ends in `miss_bailout`. -/
def fillErr (i : Nat) : Option Err :=
  match (c.reads i).err with
  | some err => some err
  | none =>
    if !(c.reads i).submitted ∨ !(c.reads i).completed ∨
        (c.reads i).payload.length ≠ (c.ios i).fill.read.pages.bytes then some .eio
    else if (c.ios i).fill.read.tracked then c.insert i
    else none

/-- One round of the first loop of `page_cache_read_batch_materialize`. -/
def materializeOne (b : Batch) (j : Nat) : Batch :=
  let i := b.missIndex j
  let read := c.reads i
  match b.storage.fills.find? fun f => f.entry.addr = b.fills j with
  | none => b
  | some f =>
    let done := completeFill b.storage f.entry.addr (c.fillErr i).isNone
    let b' := { b with storage := done.2 }
    if done.1 = .success then
      let result : PageResult :=
        ⟨none, some (makeCachedPgr f.entry), read.payload.length, false, true, f.read.tracked,
          read.submitted, true⟩
      { b' with results := Function.update b.results i result }
    else
      let err := (c.fillErr i).getD .einval
      fail b' i (cachePageSubmittedError err read.submitted) err

/-- `dxb_storage_make_cached_pgr` of the entry at an address. -/
def pgrAt (s : Storage) (a : Nat) : Option PageRef :=
  ((findEntry a s.cache.entries).or (findEntry a s.privates)).map makeCachedPgr

/-- One round of the second loop, over the duplicates. -/
def shareOne (b : Batch) (i : Nat) : Batch :=
  match b.duplicateOf i with
  | none => b
  | some master =>
    let result := b.results master
    match result.err with
    | some err => fail b i result err
    | none =>
      match result.ref with
      | none => fail b i (cachePageError .einval) .einval
      | some ref =>
        let s := retainCachedEntry b.storage ref.cache
        let shared : PageResult :=
          ⟨none, pgrAt s ref.cache, result.payloadBytes, true, false, result.tracked, false, true⟩
        { b with storage := s, results := Function.update b.results i shared }

/-! ## 4. `page_cache_submit_read_batch` -/

/-- The whole batch up to `page_cache_read_batch_finish`. -/
def completed (s : Storage) (bytes : Nat → List UInt8) : Batch :=
  let begun := c.beginLoop s bytes c.count
  let read := { begun with firstErr := begun.firstErr.or (c.storageErr begun.misses) }
  let filled := (List.range begun.misses).foldl c.materializeOne read
  (List.range c.count).foldl shareOne filled

/-- `page_cache_batch_fill_discard` for what is left in `fills`. -/
def discardLeft (b : Batch) (s : Storage) (j : Nat) : Storage :=
  match s.fills.find? fun f => f.entry.addr = b.fills j with
  | none => s
  | some f => discardFill s f

/-- What the caller gets: the return code, the storage, the buffers and the results. -/
structure Outcome where
  rc : Option Err
  storage : Storage
  bytes : Nat → List UInt8
  results : Nat → PageResult

/-- `page_cache_read_batch_finish` -/
def finish (b : Batch) : Outcome :=
  { rc := b.firstErr
    storage := (List.range b.misses).foldl (discardLeft b) b.storage
    bytes := b.bytes
    results := if b.firstErr = some .enomem then fun _ => cachePageError .enomem else b.results }

/-- `page_cache_submit_read_batch` -/
def submitReadBatch (s : Storage) (bytes : Nat → List UInt8) : Outcome :=
  if c.count = 0 then ⟨some .einval, s, bytes, fun _ => cachePageError .einval⟩
  else if c.count > 4 ∧ !c.arrays then
    ⟨some .enomem, s, bytes, fun _ => cachePageError .enomem⟩
  else finish (c.completed s bytes)

end Call

end Mdbx.PageCache
