import Mdbx.Lib.Slices
import Mdbx.Search
import Mathlib.Data.List.Sort

/-!
# DirtyList.Model — the list of dirty pages

`txn_dpl_append`, `txn_dpl_remove_ex`, `txn_dpl_sort` and the lookups.  The list is an array with a
sorted head, a tail in the order of insertion and a stub before and after both.  `dp_sort` and
`dp_radixsort` are a sort by page number.
-/

namespace Mdbx.DirtyList

open Buffer

/-- `dp_t`; `ptr` is the address of the shadow page. -/
structure Dp where
  ptr : Nat
  pgno : Nat
  npages : Nat
  deriving DecidableEq, Repr, Inhabited

/-- `dpl_t` -/
structure Dpl where
  sorted : Nat
  length : Nat
  pagesIncludingLoose : Nat
  detent : Nat
  items : Nat → Dp

/-- The switches of the build, and its constants that depend on the platform. -/
structure Config where
  -- `MDBX_HAVE_CMOV` and `MDBX_DPL_PREALLOC_FOR_RADIXSORT`
  haveCmov : Bool
  prealloc : Bool
  -- `PAGELIST_LIMIT` and `MDBX_PNL_INITIAL`
  pagelistLimit : Nat
  pnlInitial : Nat

/-- `P_INVALID` and `MDBX_RADIXSORT_THRESHOLD`. -/
def pInvalid : Nat := 2 ^ 32 - 1
def radixsortThreshold : Nat := 142

/-- `dpl_rules` -/
def dplGapMergesort : Nat := 16
def dplReserveGap : Nat := dplGapMergesort + 2
def dplInsertionThreshold : Nat := 42

/-- The items of `dpl_stub_pageB` and `dpl_stub_pageE`, which are at no address of a shadow page. -/
def stubB : Dp := ⟨0, 0, 1⟩
def stubE : Dp := ⟨0, pInvalid, 1⟩

def Dpl.list (dl : Dpl) : List Dp := slice dl.items 1 dl.length

/-- `dpl_init`, in memory that was used before -/
def dplInit (dl : Dpl) : Dpl :=
  { dl with
    sorted := 0
    length := 0
    pagesIncludingLoose := 0
    items := set (set dl.items 0 stubB) 1 stubE }

/-! ## 1. Sorting -/

/-- The `n` items from `lo` on, in the order of their page numbers. -/
def dpSort (items : Nat → Dp) (lo n : Nat) : Nat → Dp :=
  store items lo ((slice items lo n).insertionSort fun x y => x.pgno ≤ y.pgno)

/-- "merge two parts from end to begin" -/
def mergeLoop : Nat → (Nat → Dp) → Nat → Nat → Nat → (Nat → Dp)
  | 0, items, _, _, _ => items
  | fuel + 1, items, w, l, r =>
      let cmp : Bool := (items r).pgno < (items l).pgno
      let placed := set items w (if cmp then items l else items r)
      let l := if cmp then l - 1 else l
      let r := if cmp then r else r - 1
      if l < w - 1 then mergeLoop fuel placed (w - 1) l r else placed

/-- The tail is sorted in the free space behind the list and merged with the head. -/
def mergeTail (items : Nat → Dp) (sorted length last : Nat) : Nat → Dp :=
  let unsorted := length - sorted
  let tmp := last - unsorted
  let copied := copyBlock items tmp (sorted + 1) unsorted
  mergeLoop length (dpSort copied tmp unsorted) length sorted (last - 1)

/-- `txn_dpl_sort_slowpath`; `memory` tells whether `dp_radixsort` gets the memory that it asks for. -/
def txnDplSortSlowpath (c : Config) (memory : Bool) (dl : Dpl) : Dpl :=
  let unsorted := dl.length - dl.sorted
  if unsorted < radixsortThreshold ∨ ¬ (c.prealloc ∨ memory) then
    if unsorted / 4 + 4 < dl.sorted ∧
        (c.prealloc ∨ dl.length + unsorted < dl.detent + dplGapMergesort) then
      let last := if c.prealloc then dl.length + dl.length + 1 else dl.detent + dplReserveGap
      { dl with items := mergeTail dl.items dl.sorted dl.length last, sorted := dl.length }
    else { dl with items := dpSort dl.items 1 dl.length, sorted := dl.length }
  else { dl with items := dpSort dl.items 1 dl.length, sorted := dl.length }

/-- `txn_dpl_sort` -/
def txnDplSort (c : Config) (memory : Bool) (dl : Dpl) : Dpl :=
  if dl.sorted = dl.length then dl else txnDplSortSlowpath c memory dl

/-! ## 2. Lookups -/

/-- `LINEAR_SEARCH_CASE(n)` and those after it. -/
def tailScan (dl : Dpl) (pgno : Nat) : Nat → Option Nat
  | 0 => none
  | n + 1 =>
      if (dl.items (dl.length - n)).pgno = pgno then some (dl.length - n) else tailScan dl pgno n

/-- `dp_bsearch(dl->items + 1, dl->sorted, pgno) - dl->items` -/
def dpBsearch (c : Config) (dl : Dpl) (pgno : Nat) : Nat :=
  search c.haveCmov (fun i => (dl.items (i + 1)).pgno < pgno) dl.sorted + 1

/-- `txn_dpl_search` -/
def txnDplSearch (c : Config) (memory : Bool) (dl : Dpl) (pgno : Nat) : Nat × Dpl :=
  if 7 < dl.length - dl.sorted then
    let dl := txnDplSortSlowpath c memory dl
    (dpBsearch c dl pgno, dl)
  else
    match tailScan dl pgno (dl.length - dl.sorted) with
    | some i => (i, dl)
    | none => (dpBsearch c dl pgno, dl)

/-- `txn_dpl_exist` -/
def txnDplExist (c : Config) (memory : Bool) (dl : Dpl) (pgno : Nat) : Nat × Dpl :=
  let out := txnDplSearch c memory dl pgno
  (if (out.2.items out.1).pgno = pgno then out.1 else 0, out.2)

/-! ## 3. Changes -/

/-- `txn_dpl_remove_ex` -/
def txnDplRemoveEx (dl : Dpl) (i npages : Nat) : Dpl :=
  { dl with
    pagesIncludingLoose := dl.pagesIncludingLoose - npages
    sorted := dl.sorted - if i ≤ dl.sorted then 1 else 0
    length := dl.length - 1
    items := moveDown dl.items i (i + 1) (dl.length + 1 - i) }

/-- `txn_dpl_reserve`; `extra` is what the allocator gives beyond the size that is asked for. -/
def txnDplReserve (c : Config) (dl : Dpl) (size extra : Nat) : Dpl :=
  { dl with detent := (if size < c.pagelistLimit then size else c.pagelistLimit) + extra }

/-- The room for one more item. -/
def growList (c : Config) (dl : Dpl) (answer : Option Nat) : Rc × Dpl :=
  if dl.length = dl.detent then
    if c.pagelistLimit ≤ dl.detent then (.txnFull, dl)
    else
      let size := if dl.detent < c.pnlInitial * 42 then dl.detent + dl.detent
        else dl.detent + dl.detent / 2
      match answer with
      | none => (.enomem, dl)
      | some extra => (.success, txnDplReserve c dl size extra)
  else (.success, dl)

/-- `while (i->pgno > pgno)`, which the stub in the first cell ends. -/
def insertScan (pgno : Nat) : (Nat → Dp) → Nat → (Nat → Dp) × Nat
  | items, 0 => (items, 0)
  | items, i + 1 =>
      if pgno < (items (i + 1)).pgno then insertScan pgno (set items (i + 2) (items (i + 1))) i
      else (items, i + 1)

/-- The item is to be placed in the sorted head. -/
def nearEnd (c : Config) (dl : Dpl) (pgno : Nat) : Bool :=
  dl.length ≤ dl.sorted + dplInsertionThreshold ∧
    if c.haveCmov then
      (dl.items (if dl.length < dplInsertionThreshold then 0
        else dl.length - dplInsertionThreshold)).pgno < pgno
    else
      dl.length ≤ dplInsertionThreshold ∨
        (dl.items (dl.length - dplInsertionThreshold)).pgno < pgno

/-- `txn_dpl_append` when there is room. -/
def placeItem (c : Config) (dl : Dpl) (dp : Dp) : Dpl :=
  -- "copy the stub beyond the end"
  let items := set dl.items (dl.length + 2) (dl.items (dl.length + 1))
  let longer := { dl with
    length := dl.length + 1, pagesIncludingLoose := dl.pagesIncludingLoose + dp.npages }
  if nearEnd c dl dp.pgno then
    let shifted := moveUp items (dl.sorted + 1) 1 (dl.length - dl.sorted)
    let place := insertScan dp.pgno shifted dl.sorted
    { longer with sorted := dl.sorted + 1, items := set place.1 (place.2 + 1) dp }
  else { longer with items := set items (dl.length + 1) dp }

/-- `txn_dpl_append`; the LRU label in front of the page is not modelled. -/
def txnDplAppend (c : Config) (dl : Dpl) (dp : Dp) (answer : Option Nat) : Rc × Dpl :=
  match growList c dl answer with
  | (.success, dl) => (.success, placeItem c dl dp)
  | failed => failed

end Mdbx.DirtyList
