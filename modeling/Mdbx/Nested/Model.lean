import Mdbx.Lib.Cells
import Mdbx.Pnl
import Mathlib.Data.List.Sort

/-!
# Nested.Model — `nested_merge`

When a nested transaction commits, its dirty list is merged into the one of its parent, in place and
after five kinds of parent items have been filtered out.  The lists are arrays from 1 on.  The build
is one with `MDBX_ENABLE_REFUND`.
-/

namespace Mdbx.Nested

open Buffer

/-- `dp_t`; `ptr` is the address of the shadow page. -/
structure Item where
  pgno : Nat
  npages : Nat
  ptr : Nat
  deriving DecidableEq, Repr, Inhabited

def Item.endPgno (x : Item) : Nat := x.pgno + x.npages

/-- `dpl_t`; an empty cell is one whose `ptr` is null. -/
structure Dpl where
  items : Nat → Option Item
  length : Nat
  sorted : Nat
  pagesIncludingLoose : Nat

/-- `txn->wr.spilled`: page numbers shifted left by one, with the low bit set in removed ones. -/
structure Spilled where
  list : Pnl
  leastRemoved : Nat

/-- The fields of a page header that a merge writes. -/
structure Header where
  txnid : Nat
  -- `flags == P_LOOSE`
  loose : Bool
  -- the bit `P_SPILLED`
  spilled : Bool
  deriving DecidableEq, Repr

/-- The part of `MDBX_txn` that holds the page sets. -/
structure Txn where
  dirtylist : Dpl
  dirtyroom : Nat
  dirtylru : Nat
  firstUnallocated : Nat
  frontTxnid : Nat
  repnl : Pnl
  retired : Pnl
  spilled : Option Spilled

def intMax : Nat := 2 ^ 31 - 1

/-! ## 1. The dirty list -/

def Dpl.at (dl : Dpl) (i : Nat) : Item := (dl.items i).getD default

def Dpl.list (dl : Dpl) : List Item := seg dl.items 1 dl.length

/-- The cells of a list from 1 on. -/
def ofList (l : List Item) : Nat → Option Item
  | 0 => none
  | i + 1 => l[i]?

/-- `txn_dpl_sort` -/
def txnDplSort (dl : Dpl) : Dpl :=
  if dl.sorted = dl.length then dl
  else { dl with
    items := ofList (dl.list.insertionSort fun x y => x.pgno ≤ y.pgno), sorted := dl.length }

/-- `dpl_setlen`, without the stub behind the last item. -/
def dplSetlen (dl : Dpl) (n : Nat) : Dpl := { dl with length := n, sorted := n }

/-- `txn_dpl_search` in a sorted list -/
def txnDplSearch (b : Build) (dl : Dpl) (pgno : Nat) : Nat :=
  search b.haveCmov (fun i => (dl.at (i + 1)).pgno < pgno) dl.sorted + 1

/-- `txn_dpl_exist`; the stub behind the last item has no page number of a page. -/
def txnDplExist (b : Build) (dl : Dpl) (pgno : Nat) : Nat :=
  let i := txnDplSearch b dl pgno
  if i ≤ dl.length ∧ (dl.at i).pgno = pgno then i else 0

/-- `txn_dpl_remove_ex` -/
def txnDplRemoveEx (dl : Dpl) (i npages : Nat) : Dpl :=
  { items := moveDown dl.items i (i + 1) (dl.length - 1 - i + 2)
    length := dl.length - 1
    sorted := dl.sorted - if i ≤ dl.sorted then 1 else 0
    pagesIncludingLoose := dl.pagesIncludingLoose - npages }

/-- `page_wash`; the released page itself is not modelled. -/
def pageWash (t : Txn) (di npages : Nat) : Txn :=
  { t with dirtylist := txnDplRemoveEx t.dirtylist di npages, dirtyroom := t.dirtyroom + 1 }

/-! ## 2. `txn_dpl_sift` -/

/-- The scan loop up to the first item of the list `pl`, as `(r, i)`. -/
def siftScan (dl : Dpl) (pl : Nat → Nat) : Nat → Nat → Nat → Option (Nat × Nat)
  | 0, _, _ => none
  | fuel + 1, r, i =>
      if dl.length < r then none
      else if (dl.at r).pgno = pl i then some (r, i)
      else if (dl.at r).pgno < pl i then siftScan dl pl fuel (r + 1) i
      else if i - 1 = 0 then none
      else siftScan dl pl fuel r (i - 1)

/-- The update loop: cell `r` is moved to `w`, or dropped, or the next page number is taken.  Page
number 0 is past the end of `pl`. -/
def siftUpdate (pl : Nat → Nat) (length : Nat) :
    Nat → (Nat → Option Item) → Nat → Nat → Nat → Nat → (Nat → Option Item) × Nat × Nat × Nat
  | 0, items, r, w, _, pages => (items, r, w, pages)
  | fuel + 1, items, r, w, i, pages =>
      if length < r then (items, r, w, pages)
      else
        let dp := (items r).getD default
        if i = 0 ∨ dp.pgno < pl i then
          siftUpdate pl length fuel (set items w (items r)) (r + 1) (w + 1) i pages
        else if pl i < dp.pgno then siftUpdate pl length fuel items r w (i - 1) pages
        else siftUpdate pl length fuel items (r + 1) w (i - 1) (pages - dp.npages)

/-- `txn_dpl_sift`; `shift` is `spilled` as a number. -/
def txnDplSift (b : Build) (t : Txn) (pl : Pnl) (shift : Nat) : Txn :=
  if pl.size = 0 ∨ t.dirtylist.length = 0 then t
  else
    let dl := txnDplSort t.dirtylist
    let page (i : Nat) : Nat := pl.cells i >>> shift
    let r := txnDplSearch b dl (page pl.size)
    match siftScan dl page (dl.length + pl.size) r pl.size with
    | none => { t with dirtylist := dl }
    | some (r, i) =>
        let out := siftUpdate page dl.length (dl.length + pl.size) dl.items (r + 1) r (i - 1)
          (dl.pagesIncludingLoose - (dl.at r).npages)
        { t with
          dirtylist := { dplSetlen dl (out.2.2.1 - 1) with
            items := out.1, pagesIncludingLoose := out.2.2.2 }
          dirtyroom := t.dirtyroom + (out.2.1 - out.2.2.1) }

/-! ## 3. Spill lists -/

/-- `spill_search` -/
def spillSearch (b : Build) (t : Txn) (pgno : Nat) : Nat :=
  match t.spilled with
  | none => 0
  | some sp =>
      let n := sp.list.search b (2 * pgno)
      if n ≤ sp.list.size ∧ sp.list.cells n = 2 * pgno then n else 0

/-- `spill_remove` of a single page. -/
def spillRemove (sp : Spilled) (idx : Nat) : Spilled :=
  { list := ⟨set sp.list.cells idx (sp.list.cells idx ||| 1),
      sp.list.size - if idx = sp.list.size then 1 else 0⟩
    leastRemoved := if idx < sp.leastRemoved then idx else sp.leastRemoved }

/-- `for (w = r = least_removed; r <= len; ++r)` -/
def purgeLoop (len : Nat) : Nat → (Nat → Nat) → Nat → Nat → (Nat → Nat) × Nat
  | 0, cells, _, w => (cells, w)
  | fuel + 1, cells, r, w =>
      if len < r then (cells, w)
      else purgeLoop len fuel (set cells w (cells r)) (r + 1) (w + (1 - cells r % 2))

/-- `spill_purge` -/
def spillPurge (sp : Spilled) : Spilled :=
  if sp.leastRemoved = intMax then sp
  else
    let out := purgeLoop sp.list.size (sp.list.size + 1) sp.list.cells sp.leastRemoved
      sp.leastRemoved
    { list := ⟨out.1, out.2 - 1⟩, leastRemoved := intMax }

/-- The number of refunded pages at the beginning of a spill list. -/
def spillRefunded (sp : Spilled) (limit : Nat) : Nat → Nat → Nat
  | 0, i => i
  | fuel + 1, i =>
      if i < sp.list.size ∧ limit ≤ sp.list.cells (i + 1) then spillRefunded sp limit fuel (i + 1)
      else i

/-- "Remove reclaimed pages from parent's spill list" -/
def spillDropReclaimed (reclaimed : Nat → Nat) : Nat → Spilled → Nat → Nat → Spilled
  | 0, sp, _, _ => sp
  | fuel + 1, sp, s, r =>
      if s = 0 ∨ r = 0 then sp
      else if sp.list.cells s % 2 = 1 then spillDropReclaimed reclaimed fuel sp (s - 1) r
      else
        let spilledPgno := sp.list.cells s >>> 1
        if reclaimed r ≠ spilledPgno then
          if Pnl.ordered spilledPgno (reclaimed r) then
            spillDropReclaimed reclaimed fuel sp s (r - 1)
          else spillDropReclaimed reclaimed fuel sp (s - 1) r
        else spillDropReclaimed reclaimed fuel (spillRemove sp s) (s - 1) (r - 1)

/-- "Remove anything in our dirty list from parent's spill list" -/
def spillDropDirty (src : Dpl) : Nat → Spilled → Nat → Nat → Spilled
  | 0, sp, _, _ => sp
  | fuel + 1, sp, s, d =>
      if d = 0 ∨ sp.list.size < s then sp
      else if sp.list.cells s % 2 = 1 then spillDropDirty src fuel sp (s + 1) d
      else
        let spilledPgno := sp.list.cells s >>> 1
        if spilledPgno < (src.at d).pgno then spillDropDirty src fuel sp s (d - 1)
        else if (src.at d).endPgno ≤ spilledPgno then spillDropDirty src fuel sp (s + 1) d
        else spillDropDirty src fuel (spillRemove sp s) (s + 1) d

/-- "Filter-out parent spill list" -/
def filterSpilled (t : Txn) (src : Dpl) : Txn :=
  match t.spilled with
  | none => t
  | some sp =>
      if sp.list.size = 0 then t
      else
        let sl := spillPurge sp
        if sl.list.size = 0 then { t with spilled := some sl }
        else
          let gone := spillRefunded sl (2 * t.firstUnallocated) sl.list.size 0
          let kept : Spilled := { sl with
            list := ⟨moveDown sl.list.cells 1 (1 + gone) (sl.list.size - gone),
              sl.list.size - gone⟩ }
          let fresh := spillDropReclaimed t.repnl.cells (kept.list.size + t.repnl.size) kept
            kept.list.size t.repnl.size
          let clean := spillDropDirty src (fresh.list.size + src.length) fresh 1 src.length
          { t with spilled := some (spillPurge clean) }

/-! ## 4. Retired pages of the parent -/

/-- `while (w > parent_retired_len && retired_pages[w - 1] == pgno + l)` -/
def takeBack (retired : Nat → Nat) (base pgno npages : Nat) : Nat → Nat → Nat × Nat
  | 0, l => (0, l)
  | w + 1, l =>
      if base < w + 1 ∧ retired w = pgno + l then
        if l + 1 = npages then (w, l + 1) else takeBack retired base pgno npages w (l + 1)
      else (w + 1, l)

/-- One round of "Move retired pages from parent's dirty & spilled list to reclaimed". -/
def reclaimRetired (b : Build) (base : Nat) (t : Txn) (w r : Nat) : Txn × Nat :=
  let pgno := t.retired.cells r
  let di := txnDplExist b t.dirtylist pgno
  if di ≠ 0 then
    let npages := (t.dirtylist.at di).npages
    let washed := pageWash t di npages
    let back := if 1 < npages then takeBack t.retired.cells base pgno npages w 1 else (w, 1)
    ({ washed with repnl := washed.repnl.insertSpan pgno back.2 }, back.1)
  else
    let si := spillSearch b t pgno
    if si ≠ 0 then
      ({ t with spilled := t.spilled.map (spillRemove · si), repnl := t.repnl.insertSpan pgno 1 }, w)
    else
      ({ t with retired := { t.retired with cells := set t.retired.cells (w + 1) pgno } }, w + 1)

def reclaimLoop (b : Build) (base : Nat) : Nat → Txn → Nat → Nat → Txn × Nat
  | 0, t, w, _ => (t, w)
  | n + 1, t, w, r =>
      let next := reclaimRetired b base t w r
      reclaimLoop b base n next.1 next.2 (r + 1)

/-! ## 5. The merge of the dirty lists -/

/-- `while (n && dst->items[n].pgno >= parent->geo.first_unallocated)` -/
def refundScan (dl : Dpl) (first : Nat) : Nat → Nat
  | 0 => 0
  | n + 1 => if first ≤ (dl.at (n + 1)).pgno then refundScan dl first n else n + 1

/-- A page of the nested transaction becomes one of the parent. -/
def adopt (front : Nat) (headers : Nat → Header) (x : Item) : Nat → Header :=
  if (headers x.ptr).loose then headers
  else set headers x.ptr { headers x.ptr with txnid := front, spilled := false }

structure Overlap where
  items : Nat → Option Item
  headers : Nat → Header
  l : Nat
  d : Nat
  s : Nat

/-- "Find length of merging our dirty list with parent's and release filter-out pages" -/
def overlapLoop (src : Dpl) (front : Nat) : Nat → Overlap → Overlap
  | 0, o => o
  | fuel + 1, o =>
      if o.d = 0 ∨ o.s = 0 then o
      else
        let x := src.at o.s
        let y := (o.items o.d).getD default
        if x.endPgno ≤ y.pgno then
          overlapLoop src front fuel { o with d := o.d - 1, l := o.l + 1 }
        else if y.endPgno ≤ x.pgno then
          overlapLoop src front fuel
            { o with headers := adopt front o.headers x, s := o.s - 1, l := o.l + 1 }
        else overlapLoop src front fuel { o with items := set o.items o.d none, d := o.d - 1 }

/-- `while (s > 0)` after it. -/
def adoptRest (src : Dpl) (front : Nat) : Nat → (Nat → Header) → (Nat → Header)
  | 0, headers => headers
  | s + 1, headers => adoptRest src front s (adopt front headers (src.at (s + 1)))

/-- The merge "from end to begin with dst extending"; `(items, l, s, d)`. -/
def extendLoop (src : Dpl) :
    Nat → (Nat → Option Item) → Nat → Nat → Nat → (Nat → Option Item) × Nat × Nat × Nat
  | 0, items, l, s, d => (items, l, s, d)
  | fuel + 1, items, l, s, d =>
      if s = 0 ∨ d = 0 then (items, l, s, d)
      else if l ≤ d then
        let squashed := squashBegin items d
        extendLoop src fuel squashed.1 l s (squashed.2 - 1)
      else
        match items d with
        | none => extendLoop src fuel items l s (d - 1)
        | some y =>
            if (src.at s).pgno < y.pgno then
              extendLoop src fuel (set items l (some y)) (l - 1) s (d - 1)
            else extendLoop src fuel (set items l (src.items s)) (l - 1) (s - 1) d

/-- `do dst->items[l--] = src->items[s--]; while (s > 0)` -/
def copyDown (src : Dpl) : Nat → (Nat → Option Item) → Nat → (Nat → Option Item)
  | 0, items, _ => items
  | s + 1, items, l => copyDown src s (set items l (src.items (s + 1))) (l - 1)

/-- The merge "from begin to end with shrinking". -/
def shrinkLoop (src : Dpl) (length : Nat) :
    Nat → (Nat → Option Item) → Nat → Nat → Nat → (Nat → Option Item) × Nat × Nat × Nat
  | 0, items, l, s, d => (items, l, s, d)
  | fuel + 1, items, l, s, d =>
      if src.length < s ∨ length < d then (items, l, s, d)
      else if d ≤ l then
        let squashed := squashEnd items length (length + 1 - d)
        shrinkLoop src length fuel squashed.1 l s (squashed.2 + 1)
      else
        match items d with
        | none => shrinkLoop src length fuel items l s (d + 1)
        | some y =>
            if y.pgno < (src.at s).pgno then
              shrinkLoop src length fuel (set items l (some y)) (l + 1) s (d + 1)
            else shrinkLoop src length fuel (set items l (src.items s)) (l + 1) (s + 1) d

/-- `do dst->items[l++] = src->items[s++]; while (s <= src->length)` -/
def copyUp (src : Dpl) : Nat → (Nat → Option Item) → Nat → Nat → (Nat → Option Item)
  | 0, items, _, _ => items
  | n + 1, items, l, s => copyUp src n (set items l (src.items s)) (l + 1) (s + 1)

/-- "Merge our dirty list into parent's, i.e. merge(dst, src) -> dst"; `sorted` is the merged
length. -/
def mergeItems (src : Dpl) (items : Nat → Option Item) (length sorted : Nat) :
    Nat → Option Item :=
  if length ≤ sorted then
    let out := extendLoop src (src.length + length) items sorted src.length length
    if out.2.2.1 > 0 then copyDown src out.2.2.1 out.1 out.2.1 else out.1
  else
    let out := shrinkLoop src length (src.length + length) items 1 1 1
    if out.2.2.1 ≤ src.length then
      copyUp src (src.length + 1 - out.2.2.1) out.1 out.2.1 out.2.2.1
    else moveDown out.1 out.2.1 out.2.2.2 (sorted + 1 - out.2.1)

/-- The last loop. -/
def countPages (items : Nat → Option Item) (n : Nat) : Nat :=
  ((List.range' 1 n).map fun r => ((items r).getD default).npages).sum

/-- The parent's spill list takes the nested one's pages. -/
def joinSpilled (parent nested : Option Spilled) : Option Spilled :=
  match nested with
  | none => parent
  | some theirs =>
      match parent with
      | none => some theirs
      | some ours => some { ours with list := ours.list.merge theirs.list }

/-- "Remove refunded pages from parent's dirty list" -/
def dropRefunded (t : Txn) : Txn :=
  let dst := txnDplSort t.dirtylist
  let n := refundScan dst t.firstUnallocated dst.length
  { t with dirtylist := dplSetlen dst n, dirtyroom := t.dirtyroom + (dst.sorted - n) }

/-- "Move retired pages from parent's dirty & spilled list to reclaimed" -/
def moveRetired (b : Build) (base : Nat) (t : Txn) : Txn :=
  let moved := reclaimLoop b base (t.retired.size - base) t base (base + 1)
  { moved.1 with retired := { moved.1.retired with size := moved.2 } }

/-- "Remove anything in our spill list from parent's dirty list" -/
def dropSpilled (b : Build) (nested t : Txn) : Txn :=
  match nested.spilled with
  | none => t
  | some sp => txnDplSift b t sp.list 1

/-- The parent when its dirty list is about to be merged. -/
def sieve (b : Build) (parent nested : Txn) (parentRetiredLen : Nat) : Txn :=
  let refunded := dropRefunded parent
  let sifted := txnDplSift b refunded refunded.repnl 0
  let reclaimed := moveRetired b parentRetiredLen sifted
  dropSpilled b nested (filterSpilled reclaimed (txnDplSort nested.dirtylist))

/-- `nested_merge`, with the page headers it changes. -/
def nestedMerge (b : Build) (parent nested : Txn) (parentRetiredLen : Nat)
    (headers : Nat → Header) : Txn × (Nat → Header) :=
  let src := txnDplSort nested.dirtylist
  let sieved := sieve b parent nested parentRetiredLen
  let dst := sieved.dirtylist
  let o := overlapLoop src parent.frontTxnid (dst.length + src.length)
    ⟨dst.items, headers, 0, dst.length, src.length⟩
  let sorted := o.l + o.d + o.s
  let items := mergeItems src o.items dst.length sorted
  ({ sieved with
    dirtylist := ⟨items, sorted, sorted, countPages items sorted⟩
    -- `dirtyroom -= sorted - length`, a difference of either sign
    dirtyroom := sieved.dirtyroom + dst.length - sorted
    dirtylru := nested.dirtylru
    spilled := joinSpilled sieved.spilled nested.spilled },
    adoptRest src parent.frontTxnid o.s o.headers)

end Mdbx.Nested
