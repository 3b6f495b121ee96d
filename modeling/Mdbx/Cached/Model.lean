import Mdbx.Basic

/-!
# Cached.Model — `mdbx_cache_get` for one key over a history of snapshots

A snapshot has the node of the key and its pages.  A write transaction takes pages that no snapshot
in use has, and writes to these only.  The bytes of the data file are numbered; where the search
descends the tree is left out, and the failures of reads and allocations are inputs.
-/

namespace Mdbx.Cached

/-! ## 1. State -/

abbrev Bytes := List UInt8

/-- `NUM_METAS` -/
def numMetas : Nat := 3

structure Config where
  pageSize : Nat
  -- `xMDBX_TXNID_STEP`
  txnidStep : Nat
  step_pos : 0 < txnidStep
  -- the table has `MDBX_DUPSORT`
  dupSort : Bool

/-- The node of the key in a committed leaf: the txnid of the leaf, `N_DUP`, and where the value is
in the file.  `value` is what was put. -/
structure Item where
  leafTxnid : Nat
  dup : Bool
  offset : Nat
  length : Nat
  value : Bytes

structure Snapshot where
  txnid : Nat
  item : Option Item
  pages : List Nat

/-- A leaf of the key that a write transaction has touched, and the node in it. -/
structure Dirty where
  leafTxnid : Nat
  node : Option (Bool × Bytes)

structure Writer where
  txnid : Nat
  -- none while the leaf is clean
  dirty : Option Dirty
  -- pages it has allocated
  taken : List Nat

/-- `MDBX_cache_entry_t` -/
structure Entry where
  trunkTxnid : Nat
  lastConfirmedTxnid : Nat
  offset : Nat
  length : Nat
  deriving DecidableEq, Repr

/-- `mdbx_cache_init` -/
def Entry.init : Entry := ⟨0, 0, 0, 0⟩

structure State where
  storage : Nat → UInt8
  recent : Snapshot
  older : List Snapshot
  readers : List Snapshot
  writer : Option Writer
  entry : Entry

def State.history (st : State) : List Snapshot := st.recent :: st.older

/-- Snapshots whose pages are not to be reused. -/
def State.inUse (st : State) : List Snapshot := st.recent :: st.readers

/-! ## 2. The search -/

def readBytes (storage : Nat → UInt8) (offset length : Nat) : Bytes :=
  (List.range' offset length).map storage

/-- What a search comes to; `place` is where the value is in the file. -/
structure Found where
  leafTxnid : Nat
  dup : Bool
  place : Option (Nat × Nat)
  value : Bytes

def Item.found (storage : Nat → UInt8) (it : Item) : Found where
  leafTxnid := it.leafTxnid
  dup := it.dup
  place := some (it.offset, it.length)
  value := readBytes storage it.offset it.length

/-- A transaction: `nested` is `txn_ro_nested`, which reads what the write transaction has. -/
inductive Txn where
  | reader (s : Snapshot)
  | writer (w : Writer)
  | nested (w : Writer)

def Txn.txnid : Txn → Nat
  | .reader s => s.txnid
  | .writer w => w.txnid
  | .nested w => w.txnid

/-- `txn_basis_snapshot` -/
def Txn.basis (cfg : Config) : Txn → Nat
  | .reader s => s.txnid
  | .writer w => w.txnid - cfg.txnidStep
  | .nested w => w.txnid - cfg.txnidStep

/-- `txn_ro_both` -/
def Txn.ro : Txn → Bool
  | .reader _ => true
  | .writer _ => false
  | .nested _ => true

def seekWriter (st : State) (w : Writer) : Option Found :=
  match w.dirty with
  | none => st.recent.item.map (Item.found st.storage)
  | some d => d.node.map fun n => ⟨d.leafTxnid, n.1, none, n.2⟩

def seek (st : State) : Txn → Option Found
  | .reader s => s.item.map (Item.found st.storage)
  | .writer w => seekWriter st w
  | .nested w => seekWriter st w

/-- The value that `mdbx_get` finds. -/
def mdbxGet (st : State) (txn : Txn) : Option Bytes := (seek st txn).map Found.value

/-! ## 3. `cache_get` -/

inductive Code where
  | success
  | notFound
  | invalid
  | emultival
  -- any other
  | failed
  deriving DecidableEq, Repr

/-- `MDBX_cache_status_t` -/
inductive Status where
  | error
  | behind
  | unable
  | race
  | dirty
  | hit
  | confirmed
  | refreshed
  deriving DecidableEq, Repr

/-- `status > MDBX_CACHE_HIT` -/
def Status.aboveHit : Status → Bool
  | .confirmed => true
  | .refreshed => true
  | _ => false

structure Result where
  code : Code
  status : Status
  data : Bytes

def cacheError (code : Code) : Result := ⟨code, .error, []⟩

inductive Materialize where
  | done
  -- `cache_materialize_fallbackable`
  | fallback
  | failed
  deriving DecidableEq, Repr

/-- What fails during a call, and whether the batched traversal handles the key. -/
structure Io where
  check : Bool
  batch : Bool
  seek : Bool
  valueIo : Bool
  capture : Bool
  materialize : Materialize

/-- `async_nodup_read_batchable`, and the key was handled. -/
def Io.batched (cfg : Config) (io : Io) : Bool := io.batch ∧ ¬cfg.dupSort

def cacheGetUncached (cfg : Config) (st : State) (txn : Txn) (io : Io) (status : Status) : Result :=
  if io.seek then cacheError .failed
  else match seek st txn with
    | none => ⟨.notFound, status, []⟩
    | some f =>
      if ¬io.batched cfg ∧ f.dup then cacheError .emultival
      else if io.capture then cacheError .failed
      else ⟨.success, status, f.value⟩

/-- `cache_store_entry_io`, with 64-bit sizes. -/
def cacheStoreEntryIo (offset length trunkTxnid confirmedTxnid : Nat) : Option Entry :=
  if offset ≤ uint64Max ∧ length ≤ 2 ^ 32 - 1 then
    some ⟨trunkTxnid, confirmedTxnid, offset, length⟩
  else none

/-- The value was found in a clean leaf, and the entry is stored if it fits. -/
def refreshed (cfg : Config) (txn : Txn) (entry : Entry) (f : Found) : Result × Entry :=
  match f.place with
  | none => (cacheError .failed, entry)
  | some (offset, length) =>
    match cacheStoreEntryIo offset length f.leafTxnid (txn.basis cfg) with
    | none => (⟨.success, .unable, f.value⟩, entry)
    | some stored => (⟨.success, .refreshed, f.value⟩, stored)

/-- `async_cache_get_nommap_refresh` -/
def refreshBatch (cfg : Config) (st : State) (txn : Txn) (io : Io) (entry : Entry) :
    Result × Entry :=
  if io.seek then (cacheError .failed, entry)
  else match seek st txn with
    | none => (⟨.notFound, .unable, []⟩, entry)
    | some f =>
      if io.capture then (cacheError .failed, entry)
      else if ¬f.dup ∧ f.leafTxnid ≤ txn.basis cfg ∧ ¬io.valueIo then refreshed cfg txn entry f
      else (⟨.success, .unable, f.value⟩, entry)

def refreshCursor (cfg : Config) (st : State) (txn : Txn) (io : Io) (entry : Entry) :
    Result × Entry :=
  if io.seek then (cacheError .failed, entry)
  else match seek st txn with
    | none => (⟨.notFound, .unable, []⟩, entry)
    | some f =>
      if f.dup then (cacheError .emultival, entry)
      else if txn.basis cfg < f.leafTxnid then
        if io.capture then (cacheError .failed, entry) else (⟨.success, .dirty, f.value⟩, entry)
      else if io.valueIo ∨ io.capture then (cacheError .failed, entry)
      else refreshed cfg txn entry f

def cacheGetNommapRefresh (cfg : Config) (st : State) (txn : Txn) (io : Io) (entry : Entry) :
    Result × Entry :=
  if txn.ro ∧ io.batched cfg then refreshBatch cfg st txn io entry
  else refreshCursor cfg st txn io entry

def cacheGetNommap (cfg : Config) (st : State) (txn : Txn) (io : Io) (entry : Entry) :
    Result × Entry :=
  if txn.txnid < entry.trunkTxnid then (cacheGetUncached cfg st txn io .behind, entry)
  else if txn.txnid ≤ entry.lastConfirmedTxnid then
    if entry.offset ≠ 0 then
      -- `cache_materialize_entry`
      match io.materialize with
      | .done => (⟨.success, .hit, readBytes st.storage entry.offset entry.length⟩, entry)
      | .fallback => (cacheGetUncached cfg st txn io .unable, entry)
      | .failed => (cacheError .failed, entry)
    else if txn.txnid = entry.lastConfirmedTxnid ∨ txn.txnid = entry.trunkTxnid then
      (⟨.notFound, .hit, []⟩, entry)
    else (cacheGetUncached cfg st txn io .unable, entry)
  else cacheGetNommapRefresh cfg st txn io entry

def cacheGet (cfg : Config) (st : State) (txn : Txn) (io : Io) (entry : Entry) : Result × Entry :=
  if entry.lastConfirmedTxnid < entry.trunkTxnid then (cacheError .invalid, entry)
  else if io.check then (cacheError .failed, entry)
  else cacheGetNommap cfg st txn io entry

/-- `mdbx_cache_get`, with nobody else at the entry. -/
def mdbxCacheGet (cfg : Config) (st : State) (txn : Txn) (io : Io) : Result × Entry :=
  let (result, fresh) := cacheGet cfg st txn io st.entry
  if result.status.aboveHit then
    if fresh.lastConfirmedTxnid ≤ st.entry.lastConfirmedTxnid then
      ({ result with status := .race }, st.entry)
    else (result, fresh)
  else (result, st.entry)

/-- `mdbx_cache_get_SingleThreaded` -/
def mdbxCacheGetSingleThreaded (cfg : Config) (st : State) (txn : Txn) (io : Io) :
    Result × Entry := cacheGet cfg st txn io st.entry

def cachedGet (cfg : Config) (st : State) (txn : Txn) (io : Io) (single : Bool) : Result × Entry :=
  if single then mdbxCacheGetSingleThreaded cfg st txn io else mdbxCacheGet cfg st txn io

/-! ## 4. Runs -/

/-- Whose transaction a call is made with. -/
inductive Who where
  | reader (i : Nat)
  | writer
  | nested

def State.txn (st : State) : Who → Option Txn
  | .reader i => st.readers[i]?.map .reader
  | .writer => st.writer.map .writer
  | .nested => st.writer.map .nested

inductive Event where
  | beginRead
  -- `mdbx_txn_clone`
  | clone (i : Nat)
  | endRead (i : Nat)
  | beginWrite
  | take (pgno : Nat)
  -- the leaf of the key is touched, or a nested transaction that touched it aborts
  | modify (dirty : Option Dirty)
  | commit (retired : List Nat) (writes : List (Nat × UInt8)) (offset length : Nat)
  | abort
  | init
  | get (who : Who) (io : Io) (single : Bool)

def writeBytes (storage : Nat → UInt8) : List (Nat × UInt8) → Nat → UInt8
  | [] => storage
  | (b, x) :: writes => fun c => if c = b then x else writeBytes storage writes c

/-- The value lies in these pages, behind the metas. -/
def Item.inPages (cfg : Config) (pages : List Nat) (it : Item) : Prop :=
  numMetas * cfg.pageSize ≤ it.offset ∧ 0 < it.offset ∧
    ∀ b ∈ List.range' it.offset it.length, b / cfg.pageSize ∈ pages

instance (cfg : Config) (pages : List Nat) (it : Item) : Decidable (it.inPages cfg pages) :=
  inferInstanceAs (Decidable (_ ∧ _))

/-- The node of a dirty leaf once it is written. -/
def Dirty.item (d : Dirty) (txnid offset length : Nat) : Option Item :=
  d.node.map fun n => ⟨txnid, n.1, offset, length, n.2⟩

def Writer.item (w : Writer) (recent : Option Item) (offset length : Nat) : Option Item :=
  match w.dirty with
  | none => recent
  | some d => d.item w.txnid offset length

def Dirty.Ok (cfg : Config) (txnid : Nat) (d : Dirty) : Prop :=
  txnid ≤ d.leafTxnid ∧ ∀ n ∈ d.node, n.1 = true → cfg.dupSort = true

instance (cfg : Config) (txnid : Nat) (d : Dirty) : Decidable (d.Ok cfg txnid) :=
  inferInstanceAs (Decidable (_ ∧ _))

def commit (cfg : Config) (st : State) (w : Writer) (retired : List Nat)
    (writes : List (Nat × UInt8)) (offset length : Nat) : Option State :=
  let storage := writeBytes st.storage writes
  let pages := st.recent.pages.filter (· ∉ retired) ++ w.taken
  let item := w.item st.recent.item offset length
  if (∀ x ∈ writes, x.1 / cfg.pageSize ∈ w.taken) ∧ (∀ it ∈ item, it.inPages cfg pages) ∧
      (∀ d ∈ w.dirty, ∀ n ∈ d.node, readBytes storage offset length = n.2) then
    some { st with
      storage := storage
      recent := ⟨w.txnid, item, pages⟩
      older := st.recent :: st.older
      writer := none }
  else none

def step (cfg : Config) (st : State) : Event → Option State
  | .beginRead => some { st with readers := st.recent :: st.readers }
  | .clone i => st.readers[i]?.map fun s => { st with readers := s :: st.readers }
  | .endRead i => some { st with readers := st.readers.eraseIdx i }
  | .beginWrite => match st.writer with
    | none => some { st with writer := some ⟨st.recent.txnid + cfg.txnidStep, none, []⟩ }
    | some _ => none
  | .take pgno => match st.writer with
    | some w =>
      if ∀ s ∈ st.inUse, pgno ∉ s.pages then
        some { st with writer := some { w with taken := pgno :: w.taken } }
      else none
    | none => none
  | .modify dirty => match st.writer with
    | some w =>
      if ∀ d ∈ dirty, d.Ok cfg w.txnid then
        some { st with writer := some { w with dirty := dirty } }
      else none
    | none => none
  | .commit retired writes offset length => match st.writer with
    | some w => commit cfg st w retired writes offset length
    | none => none
  | .abort => some { st with writer := none }
  | .init => some { st with entry := .init }
  | .get who io single =>
    (st.txn who).map fun txn => { st with entry := (cachedGet cfg st txn io single).2 }

/-- An empty table. -/
structure Init (st : State) : Prop where
  txnid : 0 < st.recent.txnid
  item : st.recent.item = none
  older : st.older = []
  readers : st.readers = []
  writer : st.writer = none
  entry : st.entry = .init

inductive Reachable (cfg : Config) : State → Prop where
  | init {st : State} (h : Init st) : Reachable cfg st
  | step {st st' : State} (h : Reachable cfg st) (e : Event) (hs : step cfg st e = some st') :
      Reachable cfg st'

end Mdbx.Cached
