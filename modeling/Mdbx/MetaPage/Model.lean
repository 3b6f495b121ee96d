import Mathlib

/-!
# MetaPage.Model — the validation of a meta page

`meta_validate` and `meta_validate_copy`: the checks that refuse a meta page in the order in which
they are made, and the repairs of its geometry between them.  Page numbers have 32 bits and sizes in
bytes have 64.
-/

namespace Mdbx.MetaPage

/-! ## 1. Meta pages -/

/-- `tree_t` -/
structure Tree where
  flags : UInt16
  height : UInt16
  dupfixSize : UInt32
  root : UInt32
  branchPages : UInt32
  leafPages : UInt32
  largePages : UInt32
  sequence : UInt64
  items : UInt64
  modTxnid : UInt64
  deriving DecidableEq

/-- `geo_t` -/
structure Geometry where
  growPv : UInt16
  shrinkPv : UInt16
  lower : UInt32
  upper : UInt32
  now : UInt32
  firstUnallocated : UInt32
  deriving DecidableEq

/-- The fields of `meta_t` that are checked. -/
structure Meta where
  magicAndVersion : UInt64
  txnidA : UInt64
  geometry : Geometry
  gc : Tree
  main : Tree
  sign : UInt64
  txnidB : UInt64
  deriving DecidableEq

/-- The page size shares its place with the field of the GC tree that is not used there. -/
def Meta.pagesize (m : Meta) : UInt32 := m.gc.dupfixSize

/-- The header of the page with the meta. -/
structure PageHead where
  flags : UInt16
  pgno : UInt32

inductive Code where
  | invalid
  | versionMismatch
  -- `MDBX_RESULT_TRUE`
  | resultTrue
  | incompatible
  | corrupted
  | tooLarge
  | io (rc : Int)
  deriving DecidableEq

/-- How the library was built, and the allocation granularity of the system. -/
structure Build where
  -- `MDBX_WORDBITS >= 64`
  wide : Bool
  windows : Bool
  -- `MDBX_PNL_ASCENDING`
  pnlAscending : Bool
  granularityLn : Nat
  -- at most 4 megabytes
  granular : granularityLn ≤ 22

/-- The size of the file that is known, and what `dxb_storage_submit_fetch_filesize` brings. -/
structure File where
  filesize : UInt64
  fetched : Except Int UInt64

def minPagesize : Nat := 256
def maxPagesize : Nat := 65536
def numMetas : Nat := 3
def minPageno : Nat := numMetas
def maxPageno : Nat := 0x7FFFFFFF
/-- `P_INVALID` -/
def pInvalid : UInt32 := 0xFFFFFFFF
def minTxnid : Nat := 1
/-- `SAFE64_INVALID_THRESHOLD - 1` -/
def maxTxnid : Nat := 0xFFFFFFFF00000000 - 1
def minMapsize : Nat := minPagesize * minPageno
def maxMapsize64 : Nat := (maxPageno + 1) * maxPagesize

def maxMapsize (b : Build) : Nat :=
  if b.wide then maxMapsize64 else if b.windows then 0x38000000 else 0x7f000000

def mdbxMagic : Nat := 0x59659DBDEF4C11

def dataMagic (b : Build) : Nat := mdbxMagic * 2 ^ 8 + (if b.pnlAscending then 1 else 0) * 64 + 3

def dataMagicLegacyCompat (b : Build) : Nat :=
  mdbxMagic * 2 ^ 8 + (if b.pnlAscending then 1 else 0) * 64 + 2

def dataMagicLegacyDevel : Nat := mdbxMagic * 2 ^ 8 + 255

/-- `P_META` -/
def pMeta : UInt16 := 0x08

def reverseKey : UInt16 := 0x02
def dupSort : UInt16 := 0x04
def integerKey : UInt16 := 0x08
def dupFixed : UInt16 := 0x10
def integerDup : UInt16 := 0x20
def reverseDup : UInt16 := 0x40

def dbPersistentFlags : UInt16 :=
  reverseKey ||| dupSort ||| integerKey ||| dupFixed ||| integerDup ||| reverseDup

/-- `check_table_flags` -/
def checkTableFlags (flags : UInt16) : Bool :=
  let both := reverseKey ||| integerKey
  [dupSort, dupSort ||| reverseDup, dupSort ||| dupFixed, dupSort ||| dupFixed ||| reverseDup,
    dupSort ||| dupFixed ||| integerDup, dupSort ||| dupFixed ||| integerDup ||| reverseDup, 0].contains
      (flags &&& ~~~both) && flags &&& both != both

def isPowerof2 (n : Nat) : Bool := n &&& (n - 1) == 0

def ceilPowerof2 (value granularity : Nat) : Nat :=
  let n := value + granularity - 1
  n - n % granularity

def signIsSteady (sign : UInt64) : Bool := 1 < sign

/-- `meta_sign_calculate` makes no checksum yet: `~DATASIGN_NONE`. -/
def metaSignCalculate (_ : Meta) : UInt64 := ~~~0

/-! ## 2. The checks -/

def refuse (bad : Prop) [Decidable bad] (code : Code) : Except Code Unit :=
  if bad then .error code else .ok ()

/-- The format of the page. -/
def checkHead (b : Build) (m : Meta) (page : PageHead) (metaNumber : Nat) : Except Code Unit := do
  let magic := m.magicAndVersion.toNat
  refuse (magic ≠ dataMagic b ∧ magic ≠ dataMagicLegacyCompat b ∧ magic ≠ dataMagicLegacyDevel)
    (if magic / 2 ^ 8 ≠ mdbxMagic then .invalid else .versionMismatch)
  refuse (page.pgno.toNat ≠ metaNumber) .invalid
  refuse (page.flags ≠ pMeta) .invalid
  refuse (¬isPowerof2 m.pagesize.toNat ∨ m.pagesize.toNat < minPagesize ∨
      maxPagesize < m.pagesize.toNat)
    (if isPowerof2 m.pagesize.toNat then .versionMismatch else .invalid)

/-- The two-phase update, the signature, the flags of the tables and the transaction. -/
def checkStamps (b : Build) (m : Meta) : Except Code Unit := do
  refuse (m.txnidA ≠ m.txnidB) .resultTrue
  refuse (signIsSteady m.sign ∧ m.sign ≠ metaSignCalculate m) .resultTrue
  refuse (m.gc.flags ≠ integerKey ∧
      (m.gc.flags &&& dbPersistentFlags ≠ integerKey ∨ m.magicAndVersion.toNat = dataMagic b))
    .incompatible
  refuse (¬checkTableFlags m.main.flags) .incompatible
  refuse (m.txnidA.toNat < minTxnid ∨ maxTxnid < m.txnidA.toNat) .resultTrue

/-- The numbers of pages; `first_unallocated - 1` wraps for none. -/
def checkBounds (m : Meta) : Except Code Unit := do
  let g := m.geometry
  refuse (g.lower.toNat < minPageno ∨ maxPageno + 1 < g.lower.toNat) .invalid
  refuse (g.upper.toNat < minPageno ∨ maxPageno + 1 < g.upper.toNat ∨
    g.upper.toNat < g.lower.toNat) .invalid
  refuse (g.firstUnallocated.toNat < minPageno ∨ maxPageno < (g.firstUnallocated - 1).toNat)
    .corrupted

def Meta.allocatedBytes (m : Meta) : Nat := m.geometry.firstUnallocated.toNat * m.pagesize.toNat

/-- There could be a race with shrinking by another process, so the size is fetched again. -/
def checkFile (m : Meta) (file : File) : Except Code Unit :=
  if file.filesize.toNat < m.allocatedBytes then
    match file.fetched with
    | .error rc => .error (.io rc)
    | .ok filesize => refuse (filesize.toNat < m.allocatedBytes) .corrupted
  else .ok ()

/-- An empty tree has no pages; others have a root among the allocated pages. -/
def checkTree (m : Meta) (t : Tree) : Except Code Unit :=
  if t.root = pInvalid then
    refuse (t.branchPages ≠ 0 ∨ t.height ≠ 0 ∨ t.items ≠ 0 ∨ t.leafPages ≠ 0 ∨ t.largePages ≠ 0)
      .corrupted
  else
    refuse (m.geometry.firstUnallocated.toNat ≤ t.root.toNat ∨ t.root.toNat < numMetas) .corrupted

def checkTrees (m : Meta) : Except Code Unit := do
  checkTree m m.gc
  checkTree m m.main
  refuse (m.txnidA < m.gc.modTxnid) .corrupted
  refuse (m.txnidA < m.main.modTxnid) .corrupted

/-! ## 3. The repairs -/

/-- `(pgno_t)(MAX_MAPSIZE / meta->pagesize)`, but not over the limit. -/
def mapPages (b : Build) (m : Meta) : Nat :=
  let pages := maxMapsize b / m.pagesize.toNat % 2 ^ 32
  if maxPageno + 1 < pages then maxPageno + 1 else pages

def repairLower (b : Build) (m : Meta) : Except Code Nat :=
  let lower := m.geometry.lower.toNat
  let mapsizeMin := lower * m.pagesize.toNat
  if mapsizeMin < minMapsize ∨ maxMapsize b < mapsizeMin then
    if maxMapsize b ≠ maxMapsize64 ∧ maxMapsize b < mapsizeMin ∧ mapsizeMin ≤ maxMapsize64 then
      .ok (mapPages b m)
    else .error .versionMismatch
  else .ok lower

def repairUpper (b : Build) (m : Meta) : Except Code Nat := do
  let upper := m.geometry.upper.toNat
  let mapsizeMax := upper * m.pagesize.toNat
  let upper ←
    if maxMapsize b < mapsizeMax ∨
        maxPageno + 1 < ceilPowerof2 mapsizeMax (2 ^ b.granularityLn) / m.pagesize.toNat then
      if maxMapsize64 < mapsizeMax then .error .versionMismatch else .ok (mapPages b m)
    else .ok upper
  .ok (if upper < m.geometry.firstUnallocated.toNat then m.geometry.firstUnallocated.toNat
    else upper)

/-- `filesize / meta->pagesize` before the size is fetched again. -/
def dxbsizePages (m : Meta) (file : File) : Nat := file.filesize.toNat / m.pagesize.toNat

/-- `geo_now` is a `pgno_t`, and `dxbsize_pages` is not. -/
def repairNow (m : Meta) (file : File) (lower upper : Nat) : Nat :=
  let now := m.geometry.now.toNat
  let now := if now < lower then lower else now
  let now := if now < dxbsizePages m file then dxbsizePages m file % 2 ^ 32 else now
  if upper < now then upper else now

def Meta.withGeometry (m : Meta) (lower upper now : Nat) : Meta :=
  { m with geometry := { m.geometry with
      lower := UInt32.ofNat lower, upper := UInt32.ofNat upper, now := UInt32.ofNat now } }

/-- `meta_validate` after the format -/
def validateContent (b : Build) (m : Meta) (file : File) : Except Code Meta := do
  checkStamps b m
  checkBounds m
  checkFile m file
  refuse (maxPageno < (m.geometry.firstUnallocated - 1).toNat ∨ maxMapsize b < m.allocatedBytes)
    .tooLarge
  let lower ← repairLower b m
  let upper ← repairUpper b m
  let now := repairNow m file lower upper
  refuse (now < m.geometry.firstUnallocated.toNat) .corrupted
  checkTrees m
  .ok (m.withGeometry lower upper now)

/-- `meta_validate`, with the meta as it is left and the page size that is guessed -/
def metaValidate (b : Build) (m : Meta) (page : PageHead) (metaNumber : Nat) (file : File)
    (guessPagesize : Option UInt32) : Except Code Meta × Option UInt32 :=
  match checkHead b m page metaNumber with
  | .error code => (.error code, guessPagesize)
  | .ok () => (validateContent b m file, guessPagesize.map fun _ => m.pagesize)

/-- `meta_validate_copy` -/
def metaValidateCopy (b : Build) (m : Meta) (page : PageHead) (metaNumber : Nat) (file : File) :
    Except Code Meta :=
  (metaValidate b m page metaNumber file none).1

end Mdbx.MetaPage
