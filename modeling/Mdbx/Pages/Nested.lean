import Mdbx.Pages.Runs

/-!
# Pages.Nested — the beginning and the abort of a nested transaction

`txn_nested_create`, `nested_start`, `nested_undo` and `nested_free`, over the lists of the parent and
of the nested transaction.  There is one list of retired pages: while the nested transaction has it,
the parent keeps its former length in the place of the pointer.  The trees, the canary, the tables
and the cursors themselves are left out.
-/

namespace Mdbx.Pages

/-- A parent, with the flags that a nested transaction touches. -/
structure Host where
  txn : Txn
  -- `MDBX_TXN_HAS_CHILD`
  hasChild : Bool
  -- `MDBX_TXN_DIRTY`
  dirtied : Bool
  -- `ENV_FATAL_ERROR` of the environment
  fatal : Bool

/-- A parent with its nested transaction; `lent` is `parent->wr.retired_pages` as a length, when the
list has been handed over. -/
structure Family where
  parent : Host
  nested : Txn
  lent : Option Nat

def Host.setTxn (h : Host) (t : Txn) : Host := { h with txn := t }

def Family.setParent (s : Family) (t : Txn) : Family := { s with parent := s.parent.setTxn t }

/-- What the memory of `txn_alloc` holds. -/
def blank : Txn where
  txnid := 0
  frontTxnid := 0
  firstUnallocated := 0
  endPgno := 0
  upper := 0
  growStep := 0
  repnl := []
  retired := []
  loose := []
  looseCount := 0
  looseRefundWl := 0
  dirty := []
  sorted := 0
  pagesIncludingLoose := 0
  dirtyroom := 0
  spilled := []
  parents := []
  gc := []
  gcHeight := 0
  gcBranchPages := 0
  reclaimed := []
  ready4reuse := []
  comeback := []
  error := false
  drained := false
  answers := []
  used := []

/-! ## 1. `nested_start` -/

/-- A step that follows one which has succeeded. -/
def andThen (out : Rc × Family) (next : Family → Rc × Family) : Rc × Family :=
  match out with
  | (.success, s) => next s
  | failed => failed

/-- An allocation, and what is done when there is room. -/
def alloc (s : Family) (next : Family → Family) : Rc × Family :=
  match need s.parent.txn with
  | (.room, t) => (.success, next (s.setParent t))
  | (_, t) => (.enomem, s.setParent t)

/-- Up to the first allocation. -/
def attach (s : Family) : Family :=
  { s with
    parent := { s.parent with hasChild := true }
    nested := { s.nested with
      txnid := s.parent.txn.txnid, frontTxnid := s.parent.txn.frontTxnid + 1 } }

/-- `nested->geo = parent->geo` -/
def copyGeo (s : Family) : Family :=
  { s with nested := { s.nested with
      firstUnallocated := s.parent.txn.firstUnallocated
      endPgno := s.parent.txn.endPgno
      upper := s.parent.txn.upper
      growStep := s.parent.txn.growStep } }

/-- A loose page leaves the chain and the dirty list. -/
def looseToRepnl (t : Txn) (lp : Nat) (rest : List Nat) : Txn :=
  let washed := pageWash (txnDplSearch t) lp 1
  { washed with repnl := insertSpan t.repnl lp 1, loose := rest }

/-- The loop of "Move loose pages to reclaimed list" over the chain. -/
def moveLooseLoop : List Nat → Txn → Rc × Txn
  | [], t => (.success, t)
  | lp :: rest, t =>
      match need t with
      | (.room, t) => moveLooseLoop rest (looseToRepnl t lp rest)
      | (a, t) => (a.rc, t)

/-- "Move loose pages to reclaimed list"; the count is written when the loop is over. -/
def moveLoose (t : Txn) : Rc × Txn :=
  if t.looseCount ≠ 0 then
    match moveLooseLoop t.loose t with
    | (.success, t) => (.success, { t with looseCount := 0, looseRefundWl := 0 })
    | failed => failed
  else (.success, t)

/-- From `nested->wr.dirtyroom = parent->wr.dirtyroom` to the copy of `repnl`; no step on the nested
transaction changes the lists of the parent, which are seen through `parents` from here on. -/
def copyLists (s : Family) : Family :=
  let t := txnDplSort s.parent.txn
  { s.setParent t with nested := { s.nested with
      dirtyroom := t.dirtyroom
      repnl := t.repnl
      firstUnallocated := t.firstUnallocated
      parents := ⟨t.dirty.map Item.pgno, t.spilled⟩ :: t.parents
      gc := t.gc
      gcHeight := t.gcHeight
      gcBranchPages := t.gcBranchPages
      used := t.used } }

/-- `parent->wr.retired_pages = (void *)(intptr_t)pnl_size(parent->wr.retired_pages)` -/
def lendRetired (s : Family) : Family :=
  { parent := s.parent.setTxn { s.parent.txn with retired := [] }
    nested := { s.nested with retired := s.parent.txn.retired }
    lent := some s.parent.txn.retired.length }

/-- `txn_shadow_cursors` for a number of cursors, each of which is copied -/
def txnShadowCursors : Nat → Family → Rc × Family
  | 0, s => (.success, s)
  | n + 1, s =>
      match alloc s id with
      | (.success, s) => txnShadowCursors n s
      | (rc, s) => (rc, { s with nested := { s.nested with error := true } })

/-- The step with the loose pages. -/
def moveLooseOf (s : Family) : Rc × Family :=
  let out := moveLoose s.parent.txn
  (out.1, s.setParent out.2)

def takeReclaimed (s : Family) : Family :=
  { s with nested := { s.nested with reclaimed := s.parent.txn.reclaimed } }

def takeReady (s : Family) : Family :=
  { s with nested := { s.nested with ready4reuse := s.parent.txn.ready4reuse } }

/-- `rkl_copy` of `reclaimed` and of `ready4reuse`. -/
def copyReclaimed (s : Family) : Rc × Family :=
  andThen (alloc s takeReclaimed) fun s => alloc s takeReady

/-- `nested_start` -/
def nestedStart (cursors : Nat) (s : Family) : Rc × Family :=
  andThen (alloc (attach s) copyGeo) fun s =>
    andThen (alloc s id) fun s =>
      andThen (moveLooseOf s) fun s =>
        andThen (copyReclaimed (copyLists s)) fun s =>
          txnShadowCursors cursors (lendRetired s)

/-! ## 2. `nested_undo` and `nested_free` -/

/-- How `dxb_resize` ends; `notPermitted` is `MDBX_EPERM`. -/
inductive Resized where
  | done
  | notPermitted
  | failed
  deriving DecidableEq, Repr

/-- The list of retired pages goes back to the parent with its former length. -/
def returnRetired (s : Family) : Family :=
  match s.lent with
  | none => s
  | some n =>
      { s with
        parent := s.parent.setTxn { s.parent.txn with retired := s.nested.retired.take n }
        lent := none }

/-- Whether the size of the file is another one for the nested transaction. -/
def resizes (s : Family) : Bool :=
  (s.parent.txn.upper ≠ s.nested.upper ∨ s.parent.txn.endPgno ≠ s.nested.endPgno) ∧
    !s.parent.txn.error ∧ !s.parent.fatal

/-- "undo resize performed by nested txn" -/
def undoResize (resize : Resized) (s : Family) : Family :=
  if resizes s then
    match resize with
    | .done => s
    | .notPermitted =>
        -- "unable undo resize (it is regular for Windows)"
        { s with parent :=
          { s.parent.setTxn { s.parent.txn with endPgno := s.nested.upper } with dirtied := true } }
    | .failed =>
        { s with parent :=
          { s.parent.setTxn { s.parent.txn with error := true } with fatal := true } }
  else s

/-- `nested_undo` -/
def nestedUndo (resize : Resized) (s : Family) : Family := undoResize resize (returnRetired s)

/-- `nested_free` -/
def nestedFree (s : Family) : Host := { s.parent with hasChild := false }

/-- `txn_nested_abort` -/
def txnNestedAbort (resize : Resized) (s : Family) : Host := nestedFree (nestedUndo resize s)

/-! ## 3. `txn_nested_create` -/

/-- What `txn_spill` does: nothing, or the pages of some items are written and go to the spill list, or
it fails.  The lists of a transaction whose spilling has failed are not followed. -/
inductive Spill where
  | needless
  | written (picked : List Nat)
  | failed (rc : Rc)
  deriving DecidableEq, Repr

/-- Loose pages are never spilled. -/
def spills (picked : List Nat) (x : Item) : Bool := x.pgno ∈ picked ∧ !x.loose

def Item.pages (x : Item) : List Nat := List.range' x.pgno x.npages

/-- `txn_spill`; the choice by the LRU labels comes with the call. -/
def txnSpill (t : Txn) : Spill → Rc × Txn
  | .needless => (.success, t)
  | .written picked =>
      let t := txnDplSort t
      let out := t.dirty.filter (spills picked)
      let left := t.dirty.filter fun x => !spills picked x
      (.success, { t with
        dirty := left
        sorted := left.length
        dirtyroom := t.dirtyroom + out.length
        pagesIncludingLoose := t.pagesIncludingLoose - (out.map Item.npages).sum
        spilled := pnlSort (t.spilled ++ out.flatMap Item.pages) })
  | .failed rc => (rc, { t with error := true })

/-- The arguments of `txn_nested_create`, and what happens on the way. -/
structure Create where
  readonly : Bool
  -- `options.spill_parent4child_denominator`
  spillDenominator : Nat
  spill : Spill
  -- the tracked cursors of `MAIN_DBI`
  cursors : Nat
  resize : Resized
  -- the answers of the allocations of the nested transaction
  answers : List Answer

/-- "Spill dirty-pages of parent to provide dirtyroom for child txn" -/
def spillParent (c : Create) (t : Txn) : Rc × Txn :=
  if c.spillDenominator ≠ 0 ∧ !c.readonly then txnSpill t c.spill else (.success, t)

inductive Created where
  | refused (rc : Rc) (h : Host)
  | begun (s : Family)

/-- After the spilling. -/
def createNested (c : Create) (h : Host) : Created :=
  match need h.txn with
  | (.room, t) =>
      match nestedStart c.cursors ⟨h.setTxn t, { blank with answers := c.answers }, none⟩ with
      | (.success, s) => .begun s
      | (rc, s) => .refused rc (txnNestedAbort c.resize s)
  | (_, t) => .refused .enomem (h.setTxn t)

/-- `txn_nested_create` -/
def txnNestedCreate (c : Create) (h : Host) : Created :=
  match spillParent c h.txn with
  | (.success, t) => createNested c (h.setTxn t)
  | (rc, t) => .refused rc (h.setTxn t)

/-! ## 4. Operations of the nested transaction -/

/-- A page of a parent, or a spilled one, gets a copy in the dirty list. -/
def shadowPage (t : Txn) (pgno npages : Nat) : Rc × Txn :=
  match need t with
  | (.room, t) => pageDirty t pgno npages
  | (_, t) => (.enomem, { t with error := true })

/-- `page_unspill`; a page that a parent has spilled stays in the list of the parent. -/
def pageUnspill (t : Txn) (pgno npages : Nat) : Rc × Txn :=
  match need t with
  | (.room, t) =>
      pageDirty { t with spilled := spillRemove t.spilled pgno npages } pgno npages
  | (_, t) => (.enomem, { t with error := true })

/-- A step of a nested transaction on its pages: one on the page sets, the copy of a page, the reading
back of a spilled one, the spilling of pages, a change of the geometry. -/
inductive NestedOp where
  | pages (op : Op)
  | clone (pgno : Nat)
  | unspill (pgno npages : Nat)
  | spill (s : Spill)
  | geometry (endPgno upper growStep : Nat)

def nestedStep (e : Env) (t : Txn) : NestedOp → Rc × Txn
  | .pages op => apply e t op
  | .clone pgno => shadowPage t pgno 1
  | .unspill pgno npages => pageUnspill t pgno npages
  | .spill s => txnSpill t s
  | .geometry endPgno upper growStep =>
      (.success, { t with endPgno := endPgno, upper := upper, growStep := growStep })

/-- Any steps, each with whatever result. -/
def nestedRun (e : Env) : List NestedOp → Txn → Txn
  | [], t => t
  | op :: ops, t => nestedRun e ops (nestedStep e t op).2

end Mdbx.Pages
