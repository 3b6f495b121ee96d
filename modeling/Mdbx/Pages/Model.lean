import Mdbx.Basic
import Mathlib.Data.List.Sort

/-!
# Pages.Model — where the pages of a write transaction go

`page_retire_ex`, `txn_refund`, `page_dirty` and `gc_merge_loose`, over the lists of a transaction.
Page number lists and the dirty list are lists here; a spill list holds the page numbers that are
not marked as removed.  The build has `MDBX_ENABLE_REFUND`.  The page counters of the trees, the
contents of the pages and the LRU labels are left out.
-/

namespace Mdbx.Pages

/-- `NUM_METAS` -/
def numMetas : Nat := 3

/-- A page in use, with the header fields that tell whose it is; `npages` is 1 unless it is large. -/
structure Span where
  pgno : Nat
  npages : Nat
  txnid : Nat
  deriving DecidableEq, Repr

def Span.pages (s : Span) : List Nat := List.range' s.pgno s.npages

/-- `dp_t`, with `flags == P_LOOSE` of its page. -/
structure Item where
  pgno : Nat
  npages : Nat
  loose : Bool
  deriving DecidableEq, Repr

/-- The lists of a parent transaction that tell whether a page is its own. -/
structure Parent where
  dirty : List Nat
  spilled : List Nat
  deriving DecidableEq, Repr

/-- A record of the GC: the pages retired by the transaction `id`, in descending order. -/
structure Record where
  id : Nat
  pages : List Nat
  deriving DecidableEq, Repr

/-- What an allocation answers: there is room, there is no memory, or a list is at its limit. -/
inductive Answer where
  | room
  | noMemory
  | full
  deriving DecidableEq, Repr

def Answer.rc : Answer → Rc
  | .room => .success
  | .noMemory => .enomem
  | .full => .txnFull

/-- The part of `MDBX_txn` that holds the page sets.  `used` is not in the source: it lists the pages
that were in use at the beginning or have been allocated since, less those that have been given back.
`answers` are those of the allocations to come, and there is room where it ends. -/
structure Txn where
  txnid : Nat
  frontTxnid : Nat
  firstUnallocated : Nat
  endPgno : Nat
  upper : Nat
  -- `pv2pages(geo.grow_pv)`
  growStep : Nat
  -- descending, as every list of page numbers in the source but `retired`
  repnl : List Nat
  retired : List Nat
  -- the chain of `loose_pages`
  loose : List Nat
  looseCount : Nat
  looseRefundWl : Nat
  dirty : List Item
  sorted : Nat
  pagesIncludingLoose : Nat
  dirtyroom : Nat
  spilled : List Nat
  parents : List Parent
  gc : List Record
  gcHeight : Nat
  gcBranchPages : Nat
  reclaimed : List Nat
  ready4reuse : List Nat
  comeback : List Nat
  -- `MDBX_TXN_ERROR` and `txn_gc_drained`
  error : Bool
  drained : Bool
  answers : List Answer
  used : List Span

/-- The next answer. -/
def need (t : Txn) : Answer × Txn :=
  match t.answers with
  | [] => (.room, t)
  | a :: rest => (a, { t with answers := rest })

/-! ## 1. Page number lists -/

/-- The pages of a span in descending order. -/
def spanDown (pgno n : Nat) : List Nat := (List.range' pgno n).reverse

/-- `pnl_insert_span`, when there is room -/
def insertSpan (l : List Nat) (pgno n : Nat) : List Nat :=
  l.takeWhile (fun p => pgno < p) ++ spanDown pgno n ++ l.dropWhile (fun p => pgno < p)

/-- `pnl_merge` -/
def pnlMerge (dst src : List Nat) : List Nat := List.merge dst src (fun p q => q ≤ p)

/-- `pnl_sort` -/
def pnlSort (l : List Nat) : List Nat := l.insertionSort (fun p q => q ≤ p)

/-- `MDBX_PNL_MOST(repnl) == first_unallocated - 1` -/
def atTail (t : Txn) : Bool := t.repnl.head?.any fun p => p + 1 = t.firstUnallocated

/-! ## 2. The dirty list -/

/-- `txn_dpl_sort` -/
def txnDplSort (t : Txn) : Txn :=
  if t.sorted = t.dirty.length then t
  else { t with
    dirty := t.dirty.insertionSort fun x y => x.pgno ≤ y.pgno, sorted := t.dirty.length }

/-- `txn_dpl_search` sorts the list when more than 7 of its items are not in order. -/
def txnDplSearch (t : Txn) : Txn := if t.dirty.length - t.sorted ≤ 7 then t else txnDplSort t

/-- `txn_dpl_exist` -/
def txnDplExist (t : Txn) (pgno : Nat) : Bool := t.dirty.any fun x => x.pgno = pgno

/-- `txn_dpl_remove_ex` of the item of a page -/
def txnDplRemoveEx (t : Txn) (pgno npages : Nat) : Txn :=
  let i := t.dirty.findIdx fun x => x.pgno = pgno
  { t with
    pagesIncludingLoose := t.pagesIncludingLoose - npages
    sorted := t.sorted - if i < t.sorted then 1 else 0
    dirty := t.dirty.eraseIdx i }

/-- `page_wash` -/
def pageWash (t : Txn) (pgno npages : Nat) : Txn :=
  let washed := txnDplRemoveEx t pgno npages
  { washed with dirtyroom := washed.dirtyroom + 1 }

/-- `dpl_insertion_threshold` -/
def dplInsertionThreshold : Nat := 42

/-- `txn_dpl_append`: into the sorted head when the place is near its end, else behind the tail. -/
def txnDplAppend (t : Txn) (x : Item) : Rc × Txn :=
  match need t with
  | (.room, t) =>
      let length := t.dirty.length
      let pivot := length - dplInsertionThreshold
      let below := (t.dirty[pivot - 1]?).all fun y => y.pgno < x.pgno
      let added := { t with pagesIncludingLoose := t.pagesIncludingLoose + x.npages }
      if pivot ≤ t.sorted ∧ (pivot = 0 ∨ below) then
        let head := t.dirty.take t.sorted
        let tail := t.dirty.drop t.sorted
        (.success, { added with
          sorted := t.sorted + 1
          dirty := head.takeWhile (fun y => y.pgno ≤ x.pgno) ++ x ::
            (head.dropWhile (fun y => y.pgno ≤ x.pgno) ++ tail) })
      else (.success, { added with dirty := t.dirty ++ [x] })
  | (a, t) => (a.rc, t)

/-! ## 3. `txn_refund` -/

/-- `refund_reclaimed`: the boundary and what is left of the list. -/
def dropTail : Nat → List Nat → Nat × List Nat
  | first, [] => (first, [])
  | first, p :: l => if p + 1 = first then dropTail p l else (first, p :: l)

/-- `refund_reclaimed` -/
def refundReclaimed (t : Txn) : Txn :=
  let out := dropTail t.firstUnallocated t.repnl
  { t with firstUnallocated := out.1, repnl := out.2 }

/-- `if (suitable[i] != most - 1) break; most -= 1` -/
def lowerMost : Nat → List Nat → Nat
  | most, [] => most
  | most, p :: l => if p + 1 = most then lowerMost p l else most

/-- "Filter-out loose chain & dispose refunded pages" -/
def unlinkLoose (t : Txn) : Txn :=
  { t with loose := t.loose.filter fun p => p < t.firstUnallocated }

/-- "Dirty list is useless since unsorted" -/
def refundSuitable (t : Txn) : Txn :=
  let suitable := t.loose.filter fun p => t.firstUnallocated - t.looseCount ≤ p
  let most := suitable.foldr max numMetas
  if most + 1 = t.firstUnallocated then
    let least := lowerMost most (pnlSort suitable).tail
    let refunded := t.firstUnallocated - least
    unlinkLoose { t with
      firstUnallocated := least
      looseCount := t.looseCount - refunded
      dirtyroom := t.dirtyroom + refunded
      pagesIncludingLoose := t.pagesIncludingLoose - refunded
      sorted := ((t.dirty.take t.sorted).filter fun x => x.pgno < least).length
      dirty := t.dirty.filter fun x => x.pgno < least }
  else t

/-- "Scan dirtylist tail-forward and cutoff suitable pages", from the last item on. -/
def cutLoose : Nat → List Item → Nat × List Item
  | first, [] => (first, [])
  | first, x :: l => if x.pgno + 1 = first ∧ x.loose then cutLoose (first - 1) l else (first, x :: l)

/-- "Dirtylist is mostly sorted, just refund loose pages at the end" -/
def refundSorted (t : Txn) : Txn :=
  let t := txnDplSort t
  let out := cutLoose t.firstUnallocated t.dirty.reverse
  let refunded := t.dirty.length - out.2.length
  if refunded = 0 then t
  else
    unlinkLoose { t with
      firstUnallocated := out.1
      looseCount := t.looseCount - refunded
      dirtyroom := t.dirtyroom + refunded
      pagesIncludingLoose := t.pagesIncludingLoose - refunded
      sorted := out.2.length
      dirty := out.2.reverse }

/-- `onstack` of `refund_loose` holds that many page numbers where a cache line has 64 bytes. -/
def onstack : Nat := 62

/-- The list of suitable pages is allocated when it may not fit on the stack. -/
def suitableRoom (t : Txn) : Bool × Txn :=
  if onstack < t.looseCount then
    let answer := need t
    (answer.1 = .room, answer.2)
  else (true, t)

/-- `refund_loose`; no room for the list of suitable pages is not a reason for transaction fail. -/
def refundLoose (t : Txn) : Txn :=
  if t.looseCount < t.dirty.length - t.sorted then
    let answer := suitableRoom t
    if answer.1 then
      let refunded := refundSuitable answer.2
      { refunded with looseRefundWl := refunded.firstUnallocated }
    else answer.2
  else
    let refunded := refundSorted t
    { refunded with looseRefundWl := refunded.firstUnallocated }

/-- `txn->wr.loose_pages && txn->wr.loose_refund_wl > txn->geo.first_unallocated` -/
def looseWaits (t : Txn) : Bool := t.loose ≠ [] ∧ t.firstUnallocated < t.looseRefundWl

/-- The loop of `txn_refund`; each turn lowers the boundary. -/
def refundLoop : Nat → Txn → Txn
  | 0, t => t
  | fuel + 1, t =>
      if atTail t then
        let t' := refundReclaimed t
        if looseWaits t' then
          let t'' := refundLoose t'
          if t''.firstUnallocated = t'.firstUnallocated then t'' else refundLoop fuel t''
        else t'
      else t

/-- `txn_refund`; `spill_purge` only squashes what is marked as removed. -/
def txnRefund (t : Txn) : Txn :=
  let t := if looseWaits t then refundLoose t else t
  refundLoop (t.firstUnallocated + 1) t

/-- "Refund suitable pages into unallocated space" -/
def refundAtTail (t : Txn) : Txn := if atTail t then txnRefund t else t

/-! ## 4. `page_retire_ex` -/

inductive Status where
  | frozen
  | spilled
  | shadowed
  | modifable
  deriving DecidableEq, Repr

/-- What the caller of `page_retire_ex` knows: the page itself; nothing, so that the page is read;
that it is frozen; or only its type. -/
inductive Ask where
  | given
  | fetch (rc : Rc)
  | frozen
  | typed
  deriving DecidableEq, Repr

/-- `spill_remove`: the entries of the pages that follow one another -/
def spillRemove (l : List Nat) (pgno : Nat) : Nat → List Nat
  | 0 => l
  | n + 1 => if pgno ∈ l then spillRemove (l.erase pgno) (pgno + 1) n else l

/-- `is_frozen`, `is_modifable`, `is_shadowed`. -/
def statusByHeader (t : Txn) (s : Span) : Status :=
  if s.txnid < t.txnid then .frozen
  else if s.txnid = t.frontTxnid then .modifable
  else if t.txnid < s.txnid then .shadowed
  else .spilled

/-- The nearest parent that has the page in a list. -/
def statusByParents (pgno : Nat) : List Parent → Status
  | [] => .frozen
  | par :: rest =>
      if pgno ∈ par.dirty then .shadowed
      else if pgno ∈ par.spilled then .spilled
      else statusByParents pgno rest

def statusByLists (t : Txn) (pgno : Nat) : Status :=
  if txnDplExist t pgno then .modifable
  else if pgno ∈ t.spilled then .spilled
  else statusByParents pgno t.parents

/-- The status of a page that `page_retire_ex` finds. -/
def pageStatus (t : Txn) (s : Span) : Ask → Status
  | .given | .fetch _ => statusByHeader t s
  | .frozen => .frozen
  | .typed => statusByLists t s.pgno

/-- Whether the dirty list is searched, and so may be sorted. -/
def searchesDirty (t : Txn) (s : Span) : Ask → Bool
  | .given | .fetch _ => statusByHeader t s = .modifable
  | .frozen => false
  | .typed => true

/-- `suitable4loose` -/
def suitable4loose (t : Txn) (dpLooseLimit pgno : Nat) : Bool :=
  t.looseCount < dpLooseLimit ∧
    (pgno + dpLooseLimit < t.firstUnallocated ∨ t.firstUnallocated ≤ dpLooseLimit)

/-- The label `retire`. -/
def retire (t : Txn) (s : Span) : Rc × Txn :=
  match need t with
  | (.room, t) => (.success, { t with
      used := t.used.erase s, retired := t.retired ++ spanDown s.pgno s.npages })
  | (a, t) => (a.rc, t)

/-- The label `reclaim`. -/
def reclaim (t : Txn) (s : Span) : Rc × Txn :=
  match need t with
  | (.room, t) => (.success, refundAtTail { t with
      used := t.used.erase s, repnl := insertSpan t.repnl s.pgno s.npages })
  | (a, t) => (a.rc, refundAtTail t)

/-- The page becomes the head of the loose list. -/
def loosen (t : Txn) (s : Span) : Txn :=
  { t with
    used := t.used.erase s
    dirty := t.dirty.map fun x => if x.pgno = s.pgno then { x with loose := true } else x
    loose := s.pgno :: t.loose
    looseCount := t.looseCount + 1
    looseRefundWl := max (s.pgno + 2) t.looseRefundWl }

/-- The page is given back to the unallocated tail. -/
def refundPage (t : Txn) (status : Status) (si : Bool) (s : Span) : Txn :=
  let t :=
    if status = .modifable then pageWash t s.pgno s.npages
    else if si then { t with spilled := spillRemove t.spilled s.pgno s.npages }
    else t
  txnRefund { t with used := t.used.erase s, firstUnallocated := s.pgno }

/-- A page that is neither frozen nor at the tail. -/
def retireOwn (t : Txn) (dpLooseLimit : Nat) (status : Status) (si : Bool) (s : Span) : Rc × Txn :=
  if status = .modifable then
    if s.npages = 1 ∧ suitable4loose t dpLooseLimit s.pgno ∧ txnDplExist t s.pgno then
      (.success, loosen t s)
    else reclaim (pageWash t s.pgno s.npages) s
  else if si then
    let t := { t with spilled := spillRemove t.spilled s.pgno s.npages }
    if t.parents.any fun par => s.pgno ∈ par.dirty then retire t s else reclaim t s
  else if status = .shadowed then reclaim t s
  else retire t s

/-- From the label `status_done` on. -/
def retireBy (t : Txn) (dpLooseLimit : Nat) (status : Status) (s : Span) : Rc × Txn :=
  let si : Bool := status = .spilled ∧ s.pgno ∈ t.spilled
  if status = .frozen then retire t s
  else if s.pgno + s.npages = t.firstUnallocated then (.success, refundPage t status si s)
  else retireOwn t dpLooseLimit status si s

/-- `page_retire_ex` -/
def pageRetireEx (dpLooseLimit : Nat) (t : Txn) (ask : Ask) (s : Span) : Rc × Txn :=
  match ask with
  | .fetch .success | .given | .frozen | .typed =>
      let found := if searchesDirty t s ask then txnDplSearch t else t
      retireBy found dpLooseLimit (pageStatus found s ask) s
  | .fetch rc => (rc, t)

/-! ## 5. `page_dirty` and `gc_merge_loose` -/

/-- The head of the loose list goes to `repnl`. -/
def purged (t : Txn) (lp : Nat) (rest : List Nat) : Txn :=
  let removed := txnDplRemoveEx t lp 1
  { removed with
    repnl := insertSpan removed.repnl lp 1
    loose := rest
    looseCount := removed.looseCount - 1
    dirtyroom := removed.dirtyroom + 1 }

/-- "purge-and-reclaim loose page" -/
def purgeLoose (t : Txn) (lp : Nat) (rest : List Nat) : Rc × Txn :=
  match need t with
  | (.room, t) => (.success, refundAtTail (purged (txnDplSearch t) lp rest))
  | (a, t) => (a.rc, { t with error := true })

/-- The item is appended and takes a place of the room. -/
def dirtyAppend (t : Txn) (pgno npages : Nat) : Rc × Txn :=
  match txnDplAppend t ⟨pgno, npages, false⟩ with
  | (.success, t) => (.success, { t with dirtyroom := t.dirtyroom - 1 })
  | (rc, t) => (rc, { t with error := true })

/-- `page_dirty` -/
def pageDirty (t : Txn) (pgno npages : Nat) : Rc × Txn :=
  if t.dirtyroom = 0 then
    match t.loose with
    | [] => (.txnFull, t)
    | lp :: rest =>
        match purgeLoose t lp rest with
        | (.success, t) => dirtyAppend t pgno npages
        | failed => failed
  else dirtyAppend t pgno npages

/-- "filter-out loose-pages from the dirty-list" -/
def dropLoose (t : Txn) : Txn :=
  { t with
    dirty := t.dirty.filter fun x => !x.loose
    sorted := t.sorted - ((t.dirty.take t.sorted).filter fun x => x.loose).length
    pagesIncludingLoose := t.pagesIncludingLoose - t.looseCount
    dirtyroom := t.dirtyroom + t.looseCount
    loose := []
    looseCount := 0
    looseRefundWl := 0 }

/-- `gc_merge_loose`; `gcDirty` is `dbi_state[FREE_DBI] & DBI_DIRTY`. -/
def gcMergeLoose (t : Txn) (gcDirty : Bool) : Rc × Txn :=
  match need t with
  | (.room, t) =>
      if !gcDirty ∧ t.looseCount < 3 + t.gcHeight * 2 then
        (.success, dropLoose { t with retired := t.retired ++ t.loose })
      else (.success, dropLoose { t with repnl := pnlMerge t.repnl (pnlSort t.loose) })
  | (a, t) => (a.rc, t)

end Mdbx.Pages
