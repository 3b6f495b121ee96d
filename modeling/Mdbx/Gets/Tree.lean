import Mdbx.Cached.Model

/-!
# Gets.Tree — pages, and the search of a key in them

A table without `MDBX_DUPSORT` holds each value in its leaf or on a large page.  `raw` has the bytes
of a page; where a leaf has the value of a node is a part of the node.
-/

namespace Mdbx.Gets

open Mdbx.Cached (Entry Bytes cacheStoreEntryIo)

/-! ## 1. Tables and pages -/

inductive Code where
  | success
  | notFound
  | badValsize
  | badTxn
  | badDbi
  | cursorFull
  | pageNotFound
  | corrupted
  | incompatible
  | invalid
  | einval
  deriving DecidableEq, Repr

/-- `CURSOR_STACK_SIZE`, with 64-bit words. -/
def cursorStackSize : Nat := 16 + 64 / 4

/-- `PAGEHDRSZ` -/
def pageHdrSz : Nat := 20

/-- What a table is opened with (`kvx_t`), the same for as long as there is the table.  With
`MDBX_INTEGERKEY` the lengths are those of its keys: before a search has narrowed them, a search with
the other length reads past the key. -/
structure Kvx where
  dupSort : Bool
  integerKey : Bool
  lmin : Nat
  lmax : Nat
  cmp : Bytes → Bytes → Ordering
  congr : ∀ a b, cmp a b = .eq → ∀ c, cmp c a = cmp c b

structure Config where
  pageSize : Nat
  -- `xMDBX_TXNID_STEP`
  txnidStep : Nat
  step_pos : 0 < txnidStep
  header_lt : pageHdrSz < pageSize
  -- what the tables are opened with
  kvx : Nat → Kvx

/-- A node of a leaf: `big` is `N_BIG`, `dup` is `N_DUP`, and then the value is the first one. -/
structure Node where
  key : Bytes
  big : Bool
  dup : Bool
  -- `node_data`, from the start of the page
  pos : Nat
  -- `node_ds`
  len : Nat
  -- `node_largedata_pgno`
  largePgno : Nat
  deriving DecidableEq, Repr

inductive Body where
  | branch (nodes : List (Bytes × Nat))
  | leaf (nodes : List Node)
  | large
  deriving DecidableEq, Repr

structure Page where
  pgno : Nat
  txnid : Nat
  -- of a large page
  npages : Nat
  body : Body
  raw : Bytes
  deriving DecidableEq, Repr

def Page.isLarge (p : Page) : Bool :=
  match p.body with
  | .large => true
  | _ => false

def Page.read (p : Page) (pos len : Nat) : Bytes := (p.raw.drop pos).take len

/-- `largechunk_npages` -/
def largechunkNpages (cfg : Config) (bytes : Nat) : Nat :=
  (pageHdrSz - 1 + bytes) / cfg.pageSize + 1

/-! ## 2. The searches in a page -/

/-- `BINARY_BRANCHLESS_SEARCH_CYCLE`: `cmp i` compares the key of node `i` to the one sought. -/
def searchCycle (cmp : Nat → Ordering) : Nat → Nat → Nat → Nat × Bool
  | 0, lo, _ => (lo, false)
  | fuel + 1, lo, scope =>
    if scope = 0 then (lo, false)
    else
      let half := (scope - 1) / 2
      let adjust := (scope - 1) % 2
      match cmp (lo + half) with
      | .eq => (lo + half, true)
      | .lt => searchCycle cmp fuel (lo + half + 1) (half + adjust)
      | .gt => searchCycle cmp fuel lo half

/-- `SEARCH_BRANCH` -/
def treeSearchBranch (kvx : Kvx) (nodes : List (Bytes × Nat)) (key : Bytes) : Nat :=
  let cmp i := kvx.cmp ((nodes[i]?.map Prod.fst).getD []) key
  let found := searchCycle cmp nodes.length 1 (nodes.length - 1)
  if found.2 then found.1 else found.1 - 1

/-- `SEARCH_FOLIAGE`, for leaves: the index and `exact`. -/
def treeSearchFoliage (kvx : Kvx) (nodes : List Node) (key : Bytes) : Nat × Bool :=
  let cmp i := kvx.cmp ((nodes[i]?.map Node.key).getD []) key
  searchCycle cmp nodes.length 0 nodes.length

def checkKey (kvx : Kvx) (key : Bytes) : Code :=
  if key.length < kvx.lmin ∨ (kvx.lmax < key.length ∧ kvx.lmin = kvx.lmax) then .badValsize
  else if kvx.integerKey ∧ key.length ≠ 8 ∧ key.length ≠ 4 then .badValsize
  else .success

/-! ## 3. Reading of pages -/

/-- What a transaction reads pages with. -/
structure Source where
  view : Nat → Option Page
  txnid : Nat
  frontTxnid : Nat
  -- `geo.first_unallocated`
  firstUnallocated : Nat

/-- `dxb_cursor_page_get_submit_io_t`: `large` is whether a large page is wanted. -/
structure Get where
  large : Bool
  pgno : Nat
  front : Nat
  deriving DecidableEq, Repr

/-- `page_make_cursor_get_submit_io` -/
def makeGet (src : Source) (large : Bool) (pgno front : Nat) : Except Code Get :=
  if src.frontTxnid < front then .error .einval
  else if src.firstUnallocated ≤ pgno then .error .pageNotFound
  else .ok ⟨large, pgno, front⟩

def checkPageHeader (src : Source) (g : Get) (p : Page) : Code :=
  if p.isLarge ≠ g.large then .corrupted
  else if g.front < p.txnid ∧ (src.frontTxnid < p.txnid ∨ g.front < src.txnid) then .corrupted
  else if g.large ∧ (p.npages < 1 ∨ src.firstUnallocated < p.pgno + p.npages) then .corrupted
  else .success

/-- A page of a batch, once it is read. -/
def submitGet (src : Source) (g : Get) : Except Code Page :=
  match src.view g.pgno with
  | none => .error .pageNotFound
  | some p =>
    if p.pgno ≠ g.pgno then .error .corrupted
    else match checkPageHeader src g p with
      | .success => .ok p
      | code => .error code

/-- Where a value is in the file, and its bytes. -/
structure Value where
  offset : Nat
  length : Nat
  bytes : Bytes
  deriving DecidableEq, Repr

def Value.none : Value := ⟨0, 0, []⟩

def Page.value (cfg : Config) (p : Page) (pos len : Nat) : Value :=
  ⟨p.pgno * cfg.pageSize + pos, len, p.read pos len⟩

/-- The root of a table, and `tbl_root_txnid`. -/
structure Root where
  root : Option Nat
  txnid : Nat

/-! ## 4. The search in a tree, for one key -/

def getAndSubmit (src : Source) (large : Bool) (pgno front : Nat) : Except Code Page :=
  match makeGet src large pgno front with
  | .error code => .error code
  | .ok g => submitGet src g

/-- `cursor_branch_child_prepare_get` -/
def branchChildGet (src : Source) (p : Page) (nodes : List (Bytes × Nat)) (ki : Nat) :
    Except Code Get :=
  match nodes[ki]? with
  | none => .error .einval
  | some node => makeGet src false node.2 p.txnid

/-- The loop of `tree_search`; `room` is how many pages can be pushed. -/
def treeDescend (src : Source) (kvx : Kvx) (key : Bytes) : Nat → Page → Except Code Page
  | room, p =>
    match p.body with
    | .branch nodes =>
      match branchChildGet src p nodes (treeSearchBranch kvx nodes key) with
      | .error code => .error code
      | .ok g =>
        match submitGet src g with
        | .error code => .error code
        | .ok child =>
          match room with
          | 0 => .error .cursorFull
          | room + 1 => treeDescend src kvx key room child
    | _ => .ok p

def treeSearch (src : Source) (kvx : Kvx) (root : Root) (key : Bytes) : Except Code Page :=
  match root.root with
  | none => .error .notFound
  | some pgno =>
    match getAndSubmit src false pgno root.txnid with
    | .error code => .error code
    | .ok p => treeDescend src kvx key (cursorStackSize - 1) p

/-- `node_read_bigdata`, once the page is there. -/
def largeValue (cfg : Config) (len : Nat) (p : Page) : Except Code Value :=
  if p.npages < largechunkNpages cfg len then .error .corrupted
  else .ok (p.value cfg pageHdrSz len)

def nodeRead (cfg : Config) (src : Source) (p : Page) (node : Node) : Except Code Value :=
  if node.big then
    match getAndSubmit src true node.largePgno p.txnid with
    | .error code => .error code
    | .ok large => largeValue cfg node.len large
  else .ok (p.value cfg node.pos node.len)

/-- `cursor_seek` of a fresh cursor, with `MDBX_SET`. -/
def cursorSeek (cfg : Config) (src : Source) (kvx : Kvx) (root : Root) (key : Bytes) :
    Except Code Value :=
  match checkKey kvx key with
  | .success =>
    match treeSearch src kvx root key with
    | .error code => .error code
    | .ok p =>
      match p.body with
      | .leaf nodes =>
        let sr := treeSearchFoliage kvx nodes key
        if sr.2 then
          match nodes[sr.1]? with
          | none => .error .corrupted
          | some node =>
            if node.dup then
              -- `cursor_dupsort_setup`
              if kvx.dupSort then .ok (p.value cfg node.pos node.len) else .error .corrupted
            else nodeRead cfg src p node
        else .error .notFound
      | _ => .error .corrupted
  | code => .error code

end Mdbx.Gets
