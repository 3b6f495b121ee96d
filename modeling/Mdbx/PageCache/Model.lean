import Mdbx.Basic

/-!
# PageCache — the explicit-I/O page cache of `dxb_storage_t`

One list of entries with five counters beside it, all under `page_cache_lock`; a critical section is
one operation here.  Entries without an owner (private reads, detached large pages) and the fills a
read batch has prepared but not yet inserted live outside the list.
-/

namespace Mdbx.PageCache

/-- `dxb_page_io_t` without the file offset. -/
structure PageIo where
  pgno : Nat
  endPgno : Nat
  npages : Nat
  bytes : Nat
  deriving DecidableEq, Repr

/-- `page_cache_entry_t`; `addr` and `page` stand for the addresses of the entry and of its page
buffer. -/
structure Entry where
  addr : Nat
  page : Nat
  -- `is_largepage(entry->page)`
  large : Bool
  io : PageIo
  snapshotTxnid : Nat
  pins : Nat
  reusable : Bool
  deriving DecidableEq, Repr

/-- The part of `dxb_cache_read_io_t` that the cache looks at. -/
structure ReadIo where
  pages : PageIo
  snapshot : Nat
  reusable : Bool
  tracked : Bool
  deriving DecidableEq, Repr

/-- `page_ref_t` of a cached page. -/
structure PageRef where
  cache : Nat
  page : Nat
  pgno : Nat
  npages : Nat
  deriving DecidableEq, Repr

/-- `page_cache_t` -/
structure Cache where
  entries : List Entry
  entriesCount : Nat
  reusableCount : Nat
  pages : Nat
  bytes : Nat
  pinned : Nat
  deriving DecidableEq, Repr

/-- `page_cache_batch_fill_t` -/
structure Fill where
  entry : Entry
  read : ReadIo
  deriving DecidableEq, Repr

/-- Which code freed an entry. -/
inductive FreedBy where
  -- `page_cache_release_entry_locked`, or the last release of an ownerless entry
  | release
  -- `page_cache_release_all`
  | releaseAll
  -- `page_cache_batch_fill_discard`
  | fillDiscard
  deriving DecidableEq, Repr

/-- The cache side of `dxb_storage_t`, with a record of every freed entry as it was then. -/
structure Storage where
  cache : Cache
  limit : Nat
  privates : List Entry
  fills : List Fill
  freed : List (FreedBy × Entry)
  nextAddr : Nat
  nextPage : Nat
  deriving DecidableEq, Repr

def updateEntry (addr : Nat) (f : Entry → Entry) (es : List Entry) : List Entry :=
  es.map fun e => if e.addr = addr then f e else e

def findEntry (addr : Nat) (es : List Entry) : Option Entry :=
  es.find? fun e => e.addr = addr

/-- `page_cache_release_entry_locked` for an entry with an owner. -/
def releaseEntryLocked (s : Storage) (e : Entry) : Storage :=
  { s with
    cache := { s.cache with
      entries := s.cache.entries.eraseP fun x => x.addr = e.addr
      entriesCount := s.cache.entriesCount - 1
      reusableCount := s.cache.reusableCount - if e.reusable then 1 else 0
      pages := s.cache.pages - e.io.npages
      bytes := s.cache.bytes - e.io.bytes }
    freed := (.release, e) :: s.freed }

/-- The scan of `page_cache_prune_locked`: the last unpinned entry. -/
def pruneVictim (es : List Entry) : Option Entry :=
  es.reverse.find? fun e => e.pins = 0

/-- Each round frees one entry, so there are at most as many rounds as entries. -/
def pruneRounds (s : Storage) : Nat → Storage
  | 0 => s
  | n + 1 =>
      if s.cache.bytes > s.limit then
        match pruneVictim s.cache.entries with
        | none => s
        | some victim => pruneRounds (releaseEntryLocked s victim) n
      else s

/-- `page_cache_prune_locked` -/
def pruneLocked (s : Storage) : Storage := pruneRounds s s.cache.entries.length

def canReuse (e : Entry) (io : ReadIo) : Bool :=
  if !e.reusable ∨ e.io.pgno ≠ io.pages.pgno ∨ e.snapshotTxnid ≠ io.snapshot then false
  else if e.pins = 0 then true
  else e.io.npages > 1 ∨ !e.large

/-- `dxb_storage_submit_lookup_cached_page`: a hit moves to the front and gains a pin. -/
def lookupCachedPage (s : Storage) (read : ReadIo) : Rc × Storage :=
  if !read.reusable then (.resultTrue, s)
  else
    match s.cache.entries.find? fun e => canReuse e read with
    | none => (.resultTrue, s)
    | some e =>
      (.success, { s with cache := { s.cache with
        entries := { e with pins := e.pins + 1 } ::
          s.cache.entries.eraseP fun x => x.addr = e.addr
        pinned := s.cache.pinned + 1 } })

/-- `dxb_storage_prepare_read_cached_page`; `alloc` tells whether both allocations succeed and
`large` what the storage read brings. -/
def prepareReadCachedPage (s : Storage) (read : ReadIo) (alloc large : Bool) : Rc × Storage :=
  if !alloc then (.enomem, s)
  else
    let e : Entry :=
      { addr := s.nextAddr, page := s.nextPage, large := large, io := read.pages
        snapshotTxnid := read.snapshot, pins := 1, reusable := read.reusable }
    (.resultTrue, { s with
      fills := ⟨e, read⟩ :: s.fills, nextAddr := s.nextAddr + 1, nextPage := s.nextPage + 1 })

def eraseFill (addr : Nat) (fills : List Fill) : List Fill :=
  fills.eraseP fun f => f.entry.addr = addr

/-- `dxb_storage_submit_insert_cached_page` on a filled entry, with the checks of
`dxb_storage_make_cache_insert_submit_io`. -/
def insertCachedPage (s : Storage) (f : Fill) : Rc × Storage :=
  let e := f.entry
  if !f.read.tracked ∨ e.pins ≠ 1 ∨ e.snapshotTxnid ≠ f.read.snapshot ∨
      e.reusable ≠ f.read.reusable ∨ e.io ≠ f.read.pages then (.einval, s)
  else
    (.success, pruneLocked { s with
      fills := eraseFill e.addr s.fills
      cache :=
        { entries := e :: s.cache.entries
          entriesCount := s.cache.entriesCount + 1
          reusableCount := s.cache.reusableCount + if e.reusable then 1 else 0
          pages := s.cache.pages + e.io.npages
          bytes := s.cache.bytes + e.io.bytes
          pinned := s.cache.pinned + 1 } })

/-- The end of a fill in `page_cache_read_batch_materialize`: a failed one is discarded, an
untracked one goes to its reader, a tracked one into the cache. -/
def completeFill (s : Storage) (addr : Nat) (readOk : Bool) : Rc × Storage :=
  match s.fills.find? fun f => f.entry.addr = addr with
  | none => (.einval, s)
  | some f =>
    let discarded := { s with
      fills := eraseFill addr s.fills, freed := (.fillDiscard, f.entry) :: s.freed }
    if !readOk then (.eio, discarded)
    else if f.read.tracked then
      let inserted := insertCachedPage s f
      if inserted.1 ≠ .success then (inserted.1, discarded) else inserted
    else (.success, { s with
      fills := eraseFill addr s.fills, privates := f.entry :: s.privates })

/-- `dxb_storage_cache_ref_submit_io_validate` -/
def refValid (ref : PageRef) (e : Entry) : Bool :=
  ref.npages ≠ 0 ∧ e.page = ref.page ∧ e.pins ≠ 0 ∧ e.io.pgno = ref.pgno

/-- `dxb_storage_submit_retain_cached_ref` -/
def retainCachedRef (s : Storage) (ref : PageRef) : Rc × Storage :=
  match findEntry ref.cache s.cache.entries with
  | some e =>
    if !refValid ref e then (.einval, s)
    else (.success, { s with cache := { s.cache with
      entries := updateEntry ref.cache (fun e => { e with pins := e.pins + 1 }) s.cache.entries
      pinned := s.cache.pinned + 1 } })
  | none =>
    match findEntry ref.cache s.privates with
    | some e =>
      if !refValid ref e then (.einval, s)
      else (.success, { s with
        privates := updateEntry ref.cache (fun e => { e with pins := e.pins + 1 }) s.privates })
    | none => (.einval, s)

/-- `dxb_storage_submit_release_cached_ref` -/
def releaseCachedRef (s : Storage) (ref : PageRef) : Rc × Storage :=
  match findEntry ref.cache s.cache.entries with
  | some e =>
    if !refValid ref e then (.einval, s)
    else
      let e' := { e with pins := e.pins - 1 }
      let s' := { s with cache := { s.cache with
        entries := updateEntry ref.cache (fun e => { e with pins := e.pins - 1 }) s.cache.entries
        pinned := s.cache.pinned - 1 } }
      if e'.pins = 0 then
        (.success, if e'.reusable then pruneLocked s' else releaseEntryLocked s' e')
      else (.success, s')
  | none =>
    match findEntry ref.cache s.privates with
    | some e =>
      if !refValid ref e then (.einval, s)
      else
        let e' := { e with pins := e.pins - 1 }
        if e'.pins = 0 then
          (.success, { s with
            privates := s.privates.eraseP fun x => x.addr = ref.cache
            freed := (.release, e') :: s.freed })
        else (.success, { s with
          privates := updateEntry ref.cache (fun e => { e with pins := e.pins - 1 }) s.privates })
    | none => (.einval, s)

/-- What the loop below does to an entry that overlaps the range. -/
def invalidateEntry (s : Storage) (e : Entry) : Storage :=
  let marked := { s with cache := { s.cache with
    reusableCount := s.cache.reusableCount - if e.reusable then 1 else 0
    entries := updateEntry e.addr (fun e => { e with reusable := false }) s.cache.entries } }
  if e.pins = 0 then releaseEntryLocked marked { e with reusable := false } else marked

/-- The loop of `dxb_storage_submit_invalidate_cached_io` over the entries still ahead; the last
argument counts the invalidated entries. -/
def invalidateLoop (pages : PageIo) (includeReusable : Bool) :
    List Entry → Storage → Nat → Nat → Storage × Nat
  | [], s, _, n => (s, n)
  | e :: ahead, s, nonreusableLeft, n =>
      if !includeReusable ∧ e.reusable then
        invalidateLoop pages includeReusable ahead s nonreusableLeft n
      else
        let left := if includeReusable then nonreusableLeft else nonreusableLeft - 1
        let hit : Bool := e.io.pgno < pages.endPgno ∧ pages.pgno < e.io.endPgno
        let s' := if hit then invalidateEntry s e else s
        let n' := if hit then n + 1 else n
        if !includeReusable ∧ left = 0 then (s', n')
        else invalidateLoop pages includeReusable ahead s' left n'

/-- `dxb_storage_submit_invalidate_cached_io`, with the number of invalidated entries. -/
def invalidateCachedIo (s : Storage) (pages : PageIo) (includeReusable : Bool) : Storage × Nat :=
  if pages.npages = 0 then (s, 0)
  else if !includeReusable ∧ s.cache.entriesCount = s.cache.reusableCount then (s, 0)
  else
    let nonreusableLeft :=
      if includeReusable then 0 else s.cache.entriesCount - s.cache.reusableCount
    invalidateLoop pages includeReusable s.cache.entries s nonreusableLeft 0

/-- `dxb_storage_submit_replace_materialized_large_page` for the span `io`.  The sums of the source
wrap, so `+= new - old` is an addition followed by a subtraction. -/
def replaceMaterialized (s : Storage) (ref : PageRef) (io : PageIo) : Rc × Storage :=
  if io.npages ≤ 1 then (.einval, s)
  else
    let grow (e : Entry) : Entry := { e with io := io, page := s.nextPage, large := true }
    match findEntry ref.cache s.cache.entries with
    | some e =>
      if e.page ≠ ref.page ∨ e.pins ≠ 1 then (.einval, s)
      else (.success, pruneLocked { s with
        nextPage := s.nextPage + 1
        cache := { s.cache with
          entries := updateEntry ref.cache grow s.cache.entries
          pages := s.cache.pages + io.npages - e.io.npages
          bytes := s.cache.bytes + io.bytes - e.io.bytes } })
    | none =>
      match findEntry ref.cache s.privates with
      | some e =>
        if e.page ≠ ref.page ∨ e.pins = 0 then (.einval, s)
        else (.success, { s with
          nextPage := s.nextPage + 1, privates := updateEntry ref.cache grow s.privates })
      | none => (.einval, s)

/-- `dxb_storage_submit_detach_materialized_large_page`: the large page goes to a new ownerless
entry and the old reference is released. -/
def detachMaterialized (s : Storage) (ref : PageRef) (io : PageIo) (alloc : Bool) : Rc × Storage :=
  match findEntry ref.cache s.cache.entries with
  | none => (.einval, s)
  | some e =>
    if io.npages ≤ 1 ∨ e.page ≠ ref.page then (.einval, s)
    else if !alloc then (.enomem, s)
    else
      let detached : Entry :=
        { addr := s.nextAddr, page := s.nextPage, large := true, io := io
          snapshotTxnid := e.snapshotTxnid, pins := 1, reusable := false }
      (.success, (releaseCachedRef { s with
        privates := detached :: s.privates
        nextAddr := s.nextAddr + 1, nextPage := s.nextPage + 1 } ref).2)

/-- `page_cache_release_all`.  `env_active` only matters to an assertion. -/
def releaseAll (s : Storage) : Storage :=
  { s with
    cache := ⟨[], 0, 0, 0, 0, 0⟩
    freed := s.cache.entries.map (fun e => (FreedBy.releaseAll, e)) ++ s.freed }

/-- The critical sections that the threads of a process interleave. -/
inductive Op where
  | lookup (read : ReadIo)
  | prepare (read : ReadIo) (alloc large : Bool)
  | complete (addr : Nat) (readOk : Bool)
  | retain (ref : PageRef)
  | release (ref : PageRef)
  | invalidate (pages : PageIo) (includeReusable : Bool)
  | replace (ref : PageRef) (io : PageIo)
  | detach (ref : PageRef) (io : PageIo) (alloc : Bool)
  | prune
  | releaseAll
  deriving DecidableEq, Repr

def step (s : Storage) : Op → Storage
  | .lookup read => (lookupCachedPage s read).2
  | .prepare read alloc large => (prepareReadCachedPage s read alloc large).2
  | .complete addr readOk => (completeFill s addr readOk).2
  | .retain ref => (retainCachedRef s ref).2
  | .release ref => (releaseCachedRef s ref).2
  | .invalidate pages includeReusable => (invalidateCachedIo s pages includeReusable).1
  | .replace ref io => (replaceMaterialized s ref io).2
  | .detach ref io alloc => (detachMaterialized s ref io alloc).2
  | .prune => pruneLocked s
  | .releaseAll => Mdbx.PageCache.releaseAll s

def run (s : Storage) (ops : List Op) : Storage := ops.foldl step s

/-- `dxb_storage_submit_init` -/
def init (limit : Nat) : Storage := ⟨⟨[], 0, 0, 0, 0, 0⟩, limit, [], [], [], 0, 0⟩

end Mdbx.PageCache
