import Mdbx.Commit.Troika
import Mdbx.Lib.WriteLog

/-!
# Commit.Model — `dxb_sync_locked` and its callers

A commit writes its data pages, syncs them or not, and writes a meta page, which it syncs or not.
What reaches the file is kept as a log; the state beside it is that of one environment and of the
lock file.  Results of system calls are inputs.
-/

namespace Mdbx.Commit

open WriteLog

/-- The pages of the file: the meta pages and the others. -/
inductive Cell where
  | slot (n : Nat)
  | page (pgno : Nat)
  deriving DecidableEq, Repr

/-- The content of a data page is not modelled. -/
abbrev Content := Option Meta

/-- The bits of the flags that a sync depends on. -/
structure Flags where
  -- `MDBX_SAFE_NOSYNC`
  safeNosync : Bool
  -- `MDBX_NOMETASYNC`
  nometasync : Bool
  -- `txn_shrink_allowed`
  shrinkAllowed : Bool
  deriving DecidableEq, Repr

structure Env where
  incore : Bool
  -- `meta_fd != data_fd`: meta pages go through a descriptor that syncs them
  metaThrough : Bool
  -- `dxb_storage_has_dsync_fd`
  hasDsyncFd : Bool
  -- `dxb_storage_can_lazy_meta_sync_with_data`
  canLazyMetaSync : Bool
  writethroughThreshold : Nat
  autosyncThreshold : Nat
  madvThreshold : Nat
  -- pages of the file in a page of the system
  osPages : Nat

/-- The environment and the lock file. -/
structure State where
  log : Log Cell Content
  shadow : Nat → Meta
  troika : Troika
  unsyncedPages : Nat
  metaSyncTxnid : Nat
  discardedTail : Nat
  -- the pages that the current write transaction has spilled or written
  written : List Nat
  -- `ENV_FATAL_ERROR`
  fatal : Bool
  -- an `ENSURE` has failed
  panicked : Bool

/-- What the outside gives to a call of `dxb_sync_locked`. -/
structure Outside where
  -- `autosync_period` has passed since `eoos_timestamp`
  overdue : Bool
  -- `mvcc_snapshot_largest`
  largestPgno : Nat
  fadvise : Bool
  dataSync : Bool
  metaWrite : Bool
  metaSync : Bool
  -- `coherency_check_written`
  coherent : Bool
  -- `meta_shadow_tap`
  tap : Bool
  -- `dxb_resize`
  resize : Bool

/-! ## 1. Flags and shrinking -/

/-- `flags &= txn_shrink_allowed` -/
def Flags.forceSteady (f : Flags) : Flags := ⟨false, false, f.shrinkAllowed⟩

/-- "Check auto-sync conditions" -/
def checkAutosync (e : Env) (st : State) (io : Outside) (flags : Flags) : Flags :=
  if flags.safeNosync ∧
      (e.autosyncThreshold ≠ 0 ∧ e.autosyncThreshold ≤ st.unsyncedPages ∨ io.overdue) then
    flags.forceSteady
  else flags

/-- `dxb_storage_pgno_ceil2os_pgno` -/
def ceil2os (e : Env) (pgno : Nat) : Nat := (pgno + e.osPages - 1) / e.osPages * e.osPages

/-- `me2v` -/
def me2v (m e : Nat) : Nat := 32768 + ((m + 1) <<< (e + 8))

/-- `pv2pages` -/
def pv2pages (pv : Nat) : Nat :=
  if pv &&& 0x8001 ≠ 0x8001 then pv
  else if pv = 65535 then 65536
  else me2v ((pv >>> 1) &&& 2047) ((pv >>> 12) &&& 7)

/-- `SAFE64_INVALID_THRESHOLD - 1` -/
def maxTxnid : Nat := 0xffffffff00000000 - 1

/-- `safe64_txnid_next` with a 64-bit compare-and-swap. -/
def txnidNext (txnid : Nat) : Nat := txnid + 1

/-- How the shrinking part ends: with new flags, a new pending meta, the number of pages to cut off
and the discarded tail; or with an error, fatal or not. -/
inductive Shrunk where
  | go (flags : Flags) (pending : Meta) (shrink discardedTail : Nat)
  | refused
  | failed

/-- `stockpile_gap` -/
def stockpileGap (pending : Meta) : Nat := 3 + pending.trees.gcHeight * 3

/-- "check conditions to shrink datafile" -/
def wantsShrink (io : Outside) (pending : Meta) : Prop :=
  let geo := pending.geometry
  let shrinkStep := pv2pages geo.shrinkPv
  geo.shrinkPv ≠ 0 ∧ shrinkStep + stockpileGap pending < geo.now - geo.firstUnallocated ∧
    io.largestPgno < geo.now ∧ shrinkStep + stockpileGap pending < geo.now - io.largestPgno

instance (io : Outside) (pending : Meta) : Decidable (wantsShrink io pending) :=
  inferInstanceAs (Decidable (_ ∧ _))

/-- `bottom` -/
def shrinkBottom (e : Env) (io : Outside) (pending : Meta) : Nat :=
  let geo := pending.geometry
  let aligner := if geo.growPv ≠ 0 then pv2pages geo.growPv else pv2pages geo.shrinkPv
  let withStockpileGap := io.largestPgno + stockpileGap pending
  let aligned := ceil2os e (withStockpileGap + aligner - withStockpileGap % aligner)
  if geo.lower < aligned then aligned else geo.lower

def shrinkDatafile (e : Env) (st : State) (io : Outside) (flags : Flags) (head pending : Meta)
    (discardedTail : Nat) : Shrunk :=
  let geo := pending.geometry
  let bottom := shrinkBottom e io pending
  if wantsShrink io pending ∧ bottom < geo.now then
    let flags := if st.troika.haveSteady then flags.forceSteady else flags
    let shrunk := { pending with geometry := { geo with now := bottom } }
    if head.txnid = pending.txnid then
      if maxTxnid < txnidNext pending.txnid then .failed
      else .go flags { shrunk with txnid := txnidNext pending.txnid } (geo.now - bottom) discardedTail
    else .go flags shrunk (geo.now - bottom) discardedTail
  else .go flags pending 0 discardedTail

/-- `if (flags & txn_shrink_allowed)` -/
def checkShrink (e : Env) (st : State) (io : Outside) (flags : Flags) (head pending : Meta) :
    Shrunk :=
  let prev := st.discardedTail
  let first := pending.geometry.firstUnallocated
  if ¬ flags.shrinkAllowed then .go flags pending 0 prev
  else if prev < first then .go flags pending 0 first
  else if prev < first + e.madvThreshold then .go flags pending 0 prev
  else
    let edge := ceil2os e io.largestPgno
    if edge + e.madvThreshold ≤ prev ∧ edge < ceil2os e prev then
      if ¬ io.fadvise then .refused
      else shrinkDatafile e st io flags head pending edge
    else shrinkDatafile e st io flags head pending prev

/-! ## 2. `dxb_sync_locked` -/

/-- What step#1 lets the pending meta carry: `keep` is a jump to `skip_lastmeta_sync`. -/
inductive Carry where
  | steady
  | weak
  | keep
  deriving DecidableEq, Repr

/-- "step#1 - sync previously written/updated data-pages"; nothing if it fails. -/
def syncDataPages (e : Env) (st : State) (io : Outside) (flags : Flags) : Option (State × Carry) :=
  if st.unsyncedPages = 0 then some (st, .steady)
  else if st.unsyncedPages = 1 ∧ flags.nometasync then some (st, .keep)
  else if ¬ flags.safeNosync then
    if io.dataSync then some ({ st with log := .sync :: st.log }, .steady) else none
  else if e.incore then some (st, .weak)
  -- with no mode bits there is nothing to be synced
  else if io.dataSync then some (st, .weak)
  else none

/-- "Steady or Weak" -/
def signPending (st : State) (pending : Meta) : Carry → State × Meta
  | .steady => ({ st with unsyncedPages := 0 }, { pending with sign := signSteady })
  | .weak => (st, { pending with sign := signWeak })
  | .keep => (st, pending)

inductive Target where
  | slot (n : Nat)
  | skip
  | panic
  deriving DecidableEq, Repr

def chooseTarget (st : State) (pending : Meta) : Target :=
  let head := st.shadow st.troika.recent
  if head.txnid = pending.txnid then
    if ¬ (head.trees = pending.trees ∧ head.canary = pending.canary ∧
        head.geometry = pending.geometry) then .panic
    else if ¬ head.snapSteady ∧ pending.isSteady then .slot st.troika.recent
    else .skip
  else
    let tail := st.troika.tail
    if ¬ (tail < 3 ∧ tail ≠ st.troika.recent ∧ tail ≠ st.troika.preferSteady) then .panic
    -- `ENSURE(target == head.ptr_c || constmeta_txnid(target) < pending->unsafe_txnid)`
    else if ¬ (st.shadow tail).txnid < pending.txnid then .panic
    else .slot tail

/-- `fail:` -/
def fail (st : State) : State := { st with fatal := true }

/-- `undo:` -/
def undo (st : State) (n : Nat) (undoMeta : Meta) : State :=
  fail { st with log := .write (.slot n) (some undoMeta) false :: st.log }

/-- `MDBX_NOMETASYNC_LAZY_FD` -/
def nometasyncLazyFd : Nat := (2 ^ 32 - 1) / 3 + (2 ^ 32 - 1) / 8

/-- What follows a meta page that is written, and synced as far as it has to be. -/
def metaWritten (st : State) (io : Outside) (flags : Flags) (pending : Meta) (n shrink : Nat) :
    State :=
  let shown := { st with shadow := fun k => if k = n then pending else st.shadow k }
  if ¬ io.coherent then fail shown
  else
    let dist := if flags.nometasync then nometasyncLazyFd else 0
    let noted := { shown with metaSyncTxnid := (pending.txnid + 2 ^ 32 - dist) % 2 ^ 32 }
    if ¬ io.tap then fail noted
    else
      let tapped := { noted with troika := metaTapShadow noted.shadow }
      if shrink ≠ 0 ∧ ¬ io.resize then fail tapped else tapped

/-- "step#2 - update meta-page" -/
def updateMeta (e : Env) (st : State) (io : Outside) (flags : Flags) (pending : Meta)
    (n shrink : Nat) : State :=
  let undoMeta := st.shadow n
  if ¬ io.metaWrite then
    undo { st with log := .write (.slot n) (some pending) false :: st.log } n undoMeta
  else
    let sent := { st with log := .write (.slot n) (some pending) e.metaThrough :: st.log }
    -- `dxb_storage_meta_write_needs_sync`
    if ¬ e.incore ∧ ¬ e.metaThrough then
      if flags.nometasync then
        metaWritten { sent with unsyncedPages := sent.unsyncedPages + 1 } io flags pending n shrink
      else if io.metaSync then
        metaWritten { sent with log := .sync :: sent.log } io flags pending n shrink
      else undo sent n undoMeta
    else metaWritten sent io flags pending n shrink

/-- `dxb_sync_locked`, and whether it returns `MDBX_SUCCESS` -/
def dxbSyncLocked (e : Env) (st : State) (io : Outside) (flags : Flags) (pending : Meta) :
    State × Bool :=
  let head := st.shadow st.troika.recent
  match checkShrink e st io (checkAutosync e st io flags) head pending with
  | .refused => (st, false)
  | .failed => (fail st, false)
  | .go flags pending shrink discardedTail =>
      match syncDataPages e { st with discardedTail := discardedTail } io flags with
      | none => (fail { st with discardedTail := discardedTail }, false)
      | some (synced, carry) =>
          let signed := signPending synced pending carry
          match chooseTarget signed.1 signed.2 with
          | .panic => ({ signed.1 with panicked := true }, false)
          | .skip => (signed.1, true)
          | .slot n =>
              let updated := updateMeta e signed.1 io flags signed.2 n shrink
              (updated, !updated.fatal)

/-! ## 3. The callers -/

/-- The data pages of a write, with the descriptor they go to. -/
def writePages (log : Log Cell Content) (pages : List Nat) (through : Bool) : Log Cell Content :=
  pages.map (fun p => Event.write (Cell.page p) none through) ++ log

/-- What `txn_basal_commit` finds in its transaction, and what the calls return that it makes before
`dxb_sync_locked`. -/
structure CommitArgs where
  flags : Flags
  -- no bit of `MDBX_TXN_DIRTY | MDBX_TXN_SPILLS | MDBX_TXN_NOSYNC | MDBX_TXN_NOMETASYNC`
  pure : Bool
  -- the pages of the dirty list, and the number of its entries
  dirty : List Nat
  entries : Nat
  commitTxnid : Nat
  geometry : Geometry
  trees : Trees
  canary : Nat
  metaSync : Bool
  -- `gc_update` and what else comes before the write
  prepared : Bool
  write : Bool
  -- the pages that a failed write has reached
  reached : List Nat

/-- `head.is_steady && meta_sync_txnid != (uint32_t)head.txnid` -/
def headUnsynced (st : State) : Bool :=
  let head := st.shadow st.troika.recent
  head.snapSteady ∧ st.metaSyncTxnid ≠ head.txnid % 2 ^ 32

/-- The sync of the previous meta is left to the sync of the data. -/
def needFlushForNometasync (e : Env) (st : State) : Bool :=
  let head := st.shadow st.troika.recent
  headUnsynced st ∧ e.canLazyMetaSync ∧
    st.metaSyncTxnid = (head.txnid + 2 ^ 32 - nometasyncLazyFd) % 2 ^ 32

/-- `meta_sync` -/
def metaSync (st : State) : State :=
  { st with
    log := .sync :: st.log
    metaSyncTxnid := (st.shadow st.troika.recent).txnid % 2 ^ 32 }

/-- "sync prev meta" -/
def syncPrevMeta (e : Env) (st : State) : State :=
  if headUnsynced st ∧ ¬ needFlushForNometasync e st then metaSync st else st

/-- `txn_write`, after the choice of the channel. -/
def txnWrite (e : Env) (st : State) (c : CommitArgs) (needFlush : Bool) : State :=
  let through : Bool := ¬ (needFlush ∨ ¬ e.hasDsyncFd ∨ e.writethroughThreshold < c.entries ∨
    st.unsyncedPages ≠ 0)
  { st with
    log := writePages st.log c.dirty through
    unsyncedPages := st.unsyncedPages + if through then 0 else c.dirty.length
    written := c.dirty ++ st.written }

/-- The meta that a commit asks for. -/
def CommitArgs.meta (c : CommitArgs) : Meta :=
  ⟨c.commitTxnid, signNone, c.geometry, c.trees, c.canary⟩

/-- A failed write leaves pages behind that nobody counts. -/
def abandon (st : State) (reached : List Nat) : State :=
  { st with log := writePages st.log reached false, written := [] }

/-- `txn_basal_commit`; its transaction ends with it. -/
def txnBasalCommit (e : Env) (st : State) (io : Outside) (c : CommitArgs) : State :=
  let needFlush := needFlushForNometasync e st
  if headUnsynced st ∧ ¬ needFlush ∧ ¬ c.metaSync then { st with written := [] }
  else
    let presynced := syncPrevMeta e st
    if c.entries = 0 ∧ c.pure ∧ ¬ needFlush ∧ ¬ (st.shadow st.troika.recent).snapSteady then
      { presynced with written := [] }
    else if ¬ c.prepared then { presynced with written := [] }
    else if ¬ c.write then abandon presynced c.reached
    else
      let done := dxbSyncLocked e (txnWrite e presynced c needFlush) io
        { c.flags with shrinkAllowed := true } c.meta
      { done.1 with written := [], fatal := done.1.fatal || !done.2 }

/-- The steps of a writer. -/
inductive Op where
  -- `spill_slowpath`, with the pages that a failed one has reached
  | spill (pages reached : List Nat) (ok : Bool)
  | abort
  | commit (io : Outside) (c : CommitArgs)
  -- `dxb_sync_locked` for a copy of the head, from `env_sync`, `gc_alloc_ex` and `defrag`
  | resync (io : Outside) (flags : Flags)
  -- `meta_sync`
  | metaSync (ok : Bool)
  -- `mdbx_env_set_geometry` outside of a transaction
  | setGeometry (io : Outside) (flags : Flags) (geometry : Geometry)

def step (e : Env) (st : State) (op : Op) : State :=
  if st.fatal ∨ st.panicked then st
  else
    let head := st.shadow st.troika.recent
    match op with
    | .spill pages reached ok =>
        if ok then { st with
          log := writePages st.log pages false
          unsyncedPages := st.unsyncedPages + pages.length
          written := pages ++ st.written }
        else abandon st reached
    | .abort => { st with written := [] }
    | .commit io c => txnBasalCommit e st io c
    | .resync io flags => (dxbSyncLocked e st io flags head).1
    | .metaSync ok => if ok then metaSync st else st
    | .setGeometry io flags geometry =>
        if maxTxnid < txnidNext head.txnid then st
        else (dxbSyncLocked e st io flags
          { head with txnid := txnidNext head.txnid, geometry := geometry }).1

end Mdbx.Commit
