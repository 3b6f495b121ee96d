import Mdbx.Lib.Slices
import Mdbx.Nested.Model

/-!
# Spill.Model — dirty pages that are written before the commit

`spill_slowpath` with the choice of the pages, `spill_remove` and `spill_purge`.  Words of a spill list
are page numbers shifted left by one, with the low bit set in removed ones.  The shadow pages and what
is written are left out.
-/

namespace Mdbx.Spill

open Buffer
open Nested (Spilled)

/-- `dp_t` with the LRU label and the flags of its page. -/
structure Item where
  pgno : Nat
  npages : Nat
  label : Nat
  -- `P_LOOSE` and `P_SPILLED`
  loose : Bool
  parentSpilled : Bool
  deriving DecidableEq, Repr, Inhabited

def Item.endPgno (x : Item) : Nat := x.pgno + x.npages

/-- A parent transaction, with `MDBX_TXN_SPILLS` and its spill list. -/
structure Parent where
  spills : Bool
  spilled : Option Pnl

/-- A page on the stack of a cursor, which is one of this transaction or not. -/
structure Ref where
  pgno : Nat
  modifable : Bool
  deriving DecidableEq, Repr

/-- A cursor, with the pages of its nested cursor when that is not on a sub-page. -/
structure Cursor where
  id : Nat
  stack : List Ref
  inner : List Ref

/-- `dbi_state` and `dbs` of a table, with its cursors. -/
structure Table where
  -- `DBI_DIRTY` and `DBI_VALID`, and `root != P_INVALID`
  dirtyValid : Bool
  rooted : Bool
  cursors : List Cursor

/-- The part of `MDBX_txn` that spilling reads and writes. -/
structure Txn where
  dirtylru : Nat
  dirty : List Item
  pagesIncludingLoose : Nat
  looseCount : Nat
  dirtyroom : Nat
  spilled : Option Spilled
  parents : List Parent
  tables : List Table
  -- `MDBX_TXN_SPILLS` and `MDBX_TXN_ERROR`
  spills : Bool
  error : Bool

structure Options where
  build : Build
  spillMinDenominator : Nat
  spillMaxDenominator : Nat
  -- `CURSOR_STACK_SIZE`
  cursorStackSize : Nat

abbrev Failure := { rc : Rc // rc ≠ .success }

/-- What happens to a page: it is queued and its numbers get room in the spill list, it is not queued,
which may leave earlier pages in the queue, or there is no room for its numbers. -/
inductive Answer where
  | queued
  | refused (rc : Failure) (pending : Bool)
  | noRoom (rc : Failure)
  deriving DecidableEq

/-- The answers of the calls that may fail; the pages that have none of their own are queued. -/
structure Answers where
  -- `pnl_alloc` and `iov_init`
  list : Bool
  init : Rc
  pages : List Answer
  -- `iov_write`
  written : Rc

def u32 (n : Nat) : Nat := n % 2 ^ 32

/-! ## 1. Labels and cursors -/

/-- `txn_dpl_age` -/
def txnDplAge (dirtylru : Nat) (x : Item) : Nat := u32 (dirtylru + 2 ^ 32 - u32 x.label)

/-- `txn_dpl_lru_turn`, with `txn_dpl_lru_reduce` -/
def txnDplLruTurn (t : Txn) : Txn :=
  let turned := { t with dirtylru := u32 (t.dirtylru + 1) }
  if (2 ^ 32 - 1) / 3 < turned.dirtylru then
    { turned with
      dirtylru := turned.dirtylru / 2
      dirty := turned.dirty.map fun x => { x with label := x.label / 2 } }
  else turned

/-- A page on a stack, which is not counted twice. -/
def keepPage (dirtylru : Nat) (kept : List Item × Nat) (ref : Ref) : List Item × Nat :=
  let hit (x : Item) : Bool := ref.modifable ∧ x.pgno = ref.pgno ∧ txnDplAge dirtylru x ≠ 0
  (kept.1.map fun x => if hit x then { x with label := dirtylru } else x,
    kept.2 + if kept.1.any hit then 1 else 0)

/-- `spill_cursor_keep` -/
def spillCursorKeep (dirtylru : Nat) (kept : List Item × Nat) (mc : Cursor) : List Item × Nat :=
  (mc.stack ++ if mc.stack = [] then [] else mc.inner).foldl (keepPage dirtylru) kept

/-- The cursors that `spill_txn_keep` goes through. -/
def keptCursors (t : Txn) (m0 : Option Cursor) : List Cursor :=
  m0.toList ++ t.tables.flatMap fun table =>
    if table.dirtyValid ∧ table.rooted then
      table.cursors.filter fun mc => m0.all fun m => mc.id ≠ m.id
    else []

/-- `spill_txn_keep` -/
def spillTxnKeep (t : Txn) (m0 : Option Cursor) : Nat × Txn :=
  let turned := txnDplLruTurn t
  let kept := (keptCursors t m0).foldl (spillCursorKeep turned.dirtylru) (turned.dirty, 0)
  (kept.2, { turned with dirty := kept.1 })

/-! ## 2. Priorities -/

/-- `spill_intersect` -/
def spillIntersect (b : Build) (parent : Parent) (pgno npages : Nat) : Bool :=
  match parent.spilled with
  | none => false
  | some pnl =>
      let spilledRangeBegin := 2 * pgno
      let spilledRangeLast := 2 * (pgno + npages) - 1
      let n := pnl.search b spilledRangeLast
      n ≤ pnl.size ∧ spilledRangeBegin ≤ pnl.cells n

/-- "make sure it's not already in a parent's spill list(s)" -/
def parentsIntersect (b : Build) (parents : List Parent) (pgno npages : Nat) : Bool :=
  match parents with
  | [] => false
  | parent :: _ => parent.spills ∧ parents.any fun p => spillIntersect b p pgno npages

/-- "make a large/overflow pages be likely to spill" -/
def largePrio (prio npages : Nat) : Nat :=
  let factor := npages ||| npages >>> 1
  let factor := factor ||| factor >>> 2
  let factor := factor ||| factor >>> 4
  let factor := factor ||| factor >>> 8
  let factor := factor ||| factor >>> 16
  let factor := prio * Nat.log2 (factor + 1) + 157
  if factor < 256 then 255 - factor else 0

/-- What does not change while priorities are asked for. -/
structure Watch where
  build : Build
  dirtylru : Nat
  parents : List Parent
  reciprocal : Nat

/-- `spill_prio`; the flag that it sets is in `spillMark`. -/
def spillPrio (v : Watch) (x : Item) : Nat :=
  let age := txnDplAge v.dirtylru x
  if age = 0 then 256
  else if x.loose ∨ x.parentSpilled then 256
  else if parentsIntersect v.build v.parents x.pgno x.npages then 256
  else
    let prio := u32 (age * v.reciprocal) >>> 24
    if x.npages = 1 then 256 - prio else largePrio prio x.npages

/-- `dp->flags |= P_SPILLED` -/
def spillMark (v : Watch) (x : Item) : Item :=
  if txnDplAge v.dirtylru x ≠ 0 ∧ ¬ (x.loose ∨ x.parentSpilled) ∧
      parentsIntersect v.build v.parents x.pgno x.npages then
    { x with parentSpilled := true }
  else x

/-- `spill_gate` -/
def spillGate (o : Options) (part : Int) (total : Nat) : Nat :=
  let spillMin : Int := if o.spillMinDenominator ≠ 0 then
    ((total + o.spillMinDenominator - 1) / o.spillMinDenominator : Nat) else 1
  let spillMax : Int := (total : Int) -
    if o.spillMaxDenominator ≠ 0 then ((total / o.spillMaxDenominator : Nat) : Int) else 0
  let part := if part < spillMax then part else spillMax
  let part := if spillMin < part then part else spillMin
  part.toNat

/-- How much is to be spilled, of entries and of pages. -/
structure Amount where
  entries : Nat
  npages : Nat

structure Levels where
  prio2spill : Nat
  prio2adjacent : Nat
  amount : Amount

/-- `radix_entries` and `radix_npages`. -/
def radixEntries (v : Watch) (l : List Item) (prio : Nat) : Nat :=
  (l.filter fun x => spillPrio v x = prio).length

def radixNpages (v : Watch) (l : List Item) (prio : Nat) : Nat :=
  ((l.filter fun x => spillPrio v x = prio).map Item.npages).sum

/-- `for (size_t i = 1; i < 256; i++)`, with `n` rounds left. -/
def levelsLoop (v : Watch) (l : List Item) (wanted spillable : Amount) : Nat → Levels → Levels
  | 0, s => s
  | n + 1, s =>
      let i := 255 - n
      let amount : Amount :=
        ⟨s.amount.entries + radixEntries v l i, s.amount.npages + radixNpages v l i⟩
      if s.amount.entries < wanted.entries ∨ s.amount.npages < wanted.npages then
        levelsLoop v l wanted spillable n ⟨i, i + (257 - i) / 2, amount⟩
      else if s.amount.entries + s.amount.entries < spillable.entries + wanted.entries ∨
          s.amount.npages + s.amount.npages < spillable.npages + wanted.npages then
        levelsLoop v l wanted spillable n { s with prio2adjacent := i, amount := amount }
      else s

def levelsOf (v : Watch) (l : List Item) (wanted spillable : Amount) : Levels :=
  levelsLoop v l wanted spillable 255 ⟨0, 128, ⟨radixEntries v l 0, radixNpages v l 0⟩⟩

/-! ## 3. The loop over the dirty list -/

/-- What has been spilled, with the answers to come. -/
structure Out where
  entries : Nat
  npages : Nat
  -- the words of the spill list
  words : List Nat
  rc : Rc
  -- `!iov_empty(&ctx)`
  pending : Bool
  answers : List Answer

/-- `spill_append_span` -/
def spillAppendSpan (words : List Nat) (pgno npages : Nat) : List Nat :=
  words ++ ((List.range' pgno npages).map fun p => 2 * p).reverse

/-- `for (size_t i = w; ++i <= e;)`, with `spill_page`. -/
def spillGroup : List Item → Out → Out
  | [], s => s
  | x :: rest, s =>
      let counted := { s with entries := s.entries + 1, npages := s.npages + x.npages }
      let queued := { counted with
        words := spillAppendSpan s.words x.pgno x.npages, pending := true }
      match s.answers with
      | [] => spillGroup rest queued
      | .queued :: answers => spillGroup rest { queued with answers := answers }
      | .refused rc pending :: answers =>
          { counted with rc := rc, pending := pending, answers := answers }
      | .noRoom rc :: answers => { counted with rc := rc, pending := true, answers := answers }

/-- `while (--w && …)`, from the item `w`. -/
def walkBack (v : Watch) (levels : Levels) (items : Nat → Item) : Nat → Nat
  | 0 => 0
  | w + 1 =>
      if w ≠ 0 ∧ (items w).endPgno = (items (w + 1)).pgno ∧
          spillPrio v (items w) < levels.prio2adjacent then
        walkBack v levels items w
      else w

structure Scan where
  items : Nat → Item
  r : Nat
  w : Nat
  last : Nat
  out : Out

/-- `while (r < dl->length && …)` -/
def scanLoop (v : Watch) (levels : Levels) (wanted : Amount) (length : Nat) : Nat → Scan → Scan
  | 0, s => s
  | n + 1, s =>
      if s.r < length ∧ (s.out.entries < wanted.entries ∨ s.out.npages < wanted.npages) then
        let items := set s.items (s.w + 1) (s.items (s.r + 1))
        let x := s.items (s.r + 1)
        let prio := spillPrio v x
        if levels.prio2spill < prio ∧ (levels.prio2adjacent ≤ prio ∨ s.last ≠ x.pgno) then
          scanLoop v levels wanted length n { s with items := items, r := s.r + 1, w := s.w + 1 }
        else
          let w := walkBack v levels items (s.w + 1)
          let out := spillGroup (slice items (w + 1) (s.w + 1 - w)) s.out
          let next := { items := items, r := s.r + 1, w := w, last := x.endPgno, out := out }
          if out.rc = .success then scanLoop v levels wanted length n next else next
      else s

/-! ## 4. `spill_slowpath` -/

/-- The label `done`. -/
def done (o : Options) (need : Nat) (t : Txn) : Rc :=
  if (if o.cursorStackSize < need then o.cursorStackSize else need) < t.dirtyroom + t.looseCount then
    .success
  else .txnFull

/-- The spill list without removed words, or a new one. -/
def openList (answers : Answers) (t : Txn) : Option Spilled :=
  match t.spilled with
  | none => if answers.list then some ⟨⟨fun _ => 0, 0⟩, Nested.intMax⟩ else none
  | some sp => some (Nested.spillPurge sp)

/-- The pages are chosen and written, where there are some. -/
def spillChosen (answers : Answers) (wanted : Amount) (sp : Spilled) (v : Watch)
    (t : Txn) : Rc × Txn × List Answer :=
  let chosen := t.dirty.filter fun x => spillPrio v x < 256
  let dirty := t.dirty.map (spillMark v)
  let t := { t with dirty := dirty, spilled := some sp }
  if chosen = [] then (.success, t, answers.pages)
  else
    let levels := levelsOf v dirty wanted ⟨chosen.length, (chosen.map Item.npages).sum⟩
    if answers.init ≠ .success then (answers.init, { t with error := true }, answers.pages)
    else
      let length := dirty.length
      let start : Out := ⟨0, 0, sp.list.list, .success, false, answers.pages⟩
      let s := scanLoop v levels wanted length length
        ⟨store (fun _ => default) 1 dirty, 0, 0, 0, start⟩
      let items := moveDown s.items (s.w + 1) (s.r + 1) (length - s.r)
      let rc := if s.out.pending then answers.written else s.out.rc
      let t := { t with
        dirty := slice items 1 (s.w + (length - s.r))
        dirtyroom := t.dirtyroom + s.out.entries
        pagesIncludingLoose := t.pagesIncludingLoose - s.out.npages
        spilled := some ⟨Pnl.ofList s.out.words, Nested.intMax⟩ }
      if rc ≠ .success then (rc, { t with error := true }, s.out.answers)
      else
        let sorted := s.out.words.insertionSort fun p q => q ≤ p
        (.success, { t with spilled := some ⟨Pnl.ofList sorted, Nested.intMax⟩, spills := true },
          s.out.answers)

/-- `txn_dpl_sort`, `spill_txn_keep` and all after it. -/
def spillDirty (o : Options) (answers : Answers) (m0 : Option Cursor) (wanted : Amount) (need : Nat)
    (sp : Spilled) (t : Txn) : Rc × Txn × List Answer :=
  let sorted := { t with dirty := t.dirty.insertionSort fun x y => x.pgno ≤ y.pgno }
  let kept := spillTxnKeep sorted m0
  let t := { kept.2 with spilled := some sp }
  if t.dirty.length ≤ kept.1 + t.looseCount then (done o need t, t, answers.pages)
  else
    let ageMax := (t.dirty.map (txnDplAge t.dirtylru)).foldl max 0
    let reciprocal := 255 * 2 ^ 24 / (ageMax + 1)
    match spillChosen answers wanted sp ⟨o.build, t.dirtylru, t.parents, reciprocal⟩ t with
    | (.success, t, rest) => (done o need t, t, rest)
    | failed => failed

/-- `spill_slowpath`, with the answers that were not asked for -/
def spillSlowpath (o : Options) (answers : Answers) (t : Txn) (m0 : Option Cursor)
    (wannaSpillEntries wannaSpillNpages : Int) (need : Nat) : Rc × Txn × List Answer :=
  if t.pagesIncludingLoose ≤ t.looseCount then (done o need t, t, answers.pages)
  else
    let wanted : Amount := ⟨spillGate o wannaSpillEntries (t.dirty.length - t.looseCount),
      spillGate o wannaSpillNpages (t.pagesIncludingLoose - t.looseCount)⟩
    if max wanted.entries wanted.npages = 0 then (done o need t, t, answers.pages)
    else
      match openList answers t with
      | none => (.enomem, { t with error := true }, answers.pages)
      | some sp => spillDirty o answers m0 wanted need sp t

/-! ## 5. `spill_remove` -/

/-- `while (unlikely(npages > 1))`, for the pages behind the first. -/
def removeMore : Nat → Spilled → Nat → Spilled
  | 0, sp, _ => sp
  | n + 1, sp, idx =>
      let pgno := (sp.list.cells idx >>> 1) + 1
      let next := idx - 1
      if next < 1 ∨ sp.list.cells next >>> 1 ≠ pgno then sp
      else removeMore n (Nested.spillRemove sp next) next

/-- `spill_remove` -/
def spillRemove (sp : Spilled) (idx npages : Nat) : Spilled :=
  removeMore (npages - 1) (Nested.spillRemove sp idx) idx

end Mdbx.Spill
