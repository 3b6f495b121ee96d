import Mdbx.Pages.Model

/-!
# Pages.Alloc — `gc_alloc_single` and `gc_alloc_ex`

What lies outside of the page sets comes with the call: how the reading of a GC record goes, which
steps the early cleaning of it takes, whether the search is started again.  No caller asks for
`ALLOC_EXACTLY`.
-/

namespace Mdbx.Pages

structure Env where
  build : Build
  dpLooseLimit : Nat
  maxgcLarge1page : Nat
  rpAugmentLimit : Nat
  pagelistLimit : Nat
  -- `MDBX_LIFORECLAIM`
  lifo : Bool
  txnidStep : Nat
  -- `dxb_storage_pgno_ceil2os_pgno`
  ceil2os : Nat → Nat

/-- A step of the `cursor_del` that cleans a record early; one that names a page which is not in use,
or calls a page frozen which is not, is none. -/
inductive Inner where
  | retire (ask : Ask) (s : Span)
  | alloc (resize : Rc)
  deriving DecidableEq, Repr

/-- An early cleaning: its steps, its result if they succeed, and the shape of the GC after it. -/
structure Clean where
  inner : List Inner
  rc : Rc
  error : Bool
  gcHeight : Nat
  gcBranchPages : Nat
  deriving DecidableEq, Repr

/-- The reading of a GC record. -/
structure Row where
  seek : Rc
  read : Rc
  -- `gc_time_limit` has been reached
  timeout : Bool
  clean : Clean
  deriving DecidableEq, Repr

/-- One pass over the GC, up to `detent`; `steady` is the result of making or wiping a steady point
after it, if that is done. -/
structure Round where
  detent : Nat
  rows : Nat → Row
  steady : Rc

/-- Why the GC is searched once more: there is a new steady point, the oldest reader has been looked
up anew, or laggards have been kicked. -/
inductive Retry where
  | steady
  | refreshed
  | kicked
  deriving DecidableEq, Repr

inductive Rounds where
  | last (r : Round)
  | again (r : Round) (why : Retry) (rest : Rounds)

/-- The arguments of `gc_alloc_ex`. -/
structure Call where
  num : Nat
  reserve : Bool
  unimportant : Bool
  -- `mc->tree == &txn->dbs[FREE_DBI]`
  gcCursor : Bool
  -- `z_gcu_preparation` of `mc->flags`
  preparation : Bool
  rounds : Rounds
  -- the result of `dxb_resize`
  resize : Rc

/-- `pgr_t` -/
structure Ret where
  err : Rc
  page : Option Nat
  txn : Txn

/-- Where `gc_alloc_ex` goes: to `done` with a page or for a new one, to `reserve_done`, to
`fail`. -/
inductive Outcome where
  | found (pgno : Nat)
  | extend
  | reserved (rc : Rc)
  | failed (rc : Rc)
  deriving DecidableEq, Repr

def pInvalid : Nat := 2 ^ 32 - 1

/-! ## 1. Pages of `repnl` -/

/-- `repnl_get_single`, which takes the least page -/
def repnlGetSingle (t : Txn) : Option (Nat × Txn) :=
  t.repnl.getLast?.map fun p => (p, { t with repnl := t.repnl.dropLast })

/-- The first span of `n` pages in an ascending list, and what is left. -/
def cutSequence (n : Nat) : List Nat → Option (Nat × List Nat)
  | [] => none
  | p :: l =>
      if (p :: l)[n - 1]? = some (p + (n - 1)) then some (p, (p :: l).drop n)
      else (cutSequence n l).map fun out => (out.1, p :: out.2)

/-- `gc_repnl_get_sequence` -/
def repnlGetSequence (t : Txn) (num : Nat) (reserve : Bool) : Option (Nat × Txn) :=
  (cutSequence num t.repnl.reverse).map fun out =>
    (out.1, if reserve then t else { t with repnl := out.2.reverse })

/-- `if (pnl_size(txn->wr.repnl) >= num)` and what follows. -/
def repnlTake (a : Call) (t : Txn) : Option (Nat × Txn) :=
  if t.repnl.length < a.num then none
  else if a.num = 1 then if a.reserve then some (pInvalid, t) else repnlGetSingle t
  else repnlGetSequence t a.num a.reserve

/-! ## 2. The end of an allocation -/

/-- `page_alloc_finalize`; `page_shadow_alloc` fails for lack of memory only. -/
def pageAllocFinalize (t : Txn) (pgno num : Nat) : Rc × Txn :=
  match need t with
  | (.room, t) =>
      match pageDirty t pgno num with
      | (.success, t) => (.success, { t with used := ⟨pgno, num, t.frontTxnid⟩ :: t.used })
      | failed => failed
  | (_, t) => (.enomem, { t with error := true })

/-- The label `fail`. -/
def allocFail (a : Call) (rc : Rc) (t : Txn) : Ret :=
  let t := if t.error then t else refundAtTail t
  ⟨rc, none, if a.unimportant ∨ a.reserve then t else { t with error := true }⟩

/-- The label `done`. -/
def allocDone (a : Call) (pgno : Option Nat) (t : Txn) : Ret :=
  if a.reserve then ⟨.success, none, t⟩
  else
    let page := pgno.getD t.firstUnallocated
    let t := if pgno = none then { t with firstUnallocated := t.firstUnallocated + a.num } else t
    match pageAllocFinalize t page a.num with
    | (.success, t) => ⟨.success, some page, t⟩
    | (rc, t) => allocFail a rc t

def finish (a : Call) : Outcome × Txn → Ret
  | (.found pgno, t) => allocDone a (some pgno) t
  | (.extend, t) => allocDone a none t
  | (.reserved rc, t) => ⟨rc, none, t⟩
  | (.failed rc, t) => allocFail a rc t

/-- The label `no_gc`. -/
def noGc (e : Env) (a : Call) (t : Txn) : Outcome × Txn :=
  if a.reserve then (.failed .notFound, t)
  else
    let newnext := t.firstUnallocated + a.num
    if newnext ≤ t.endPgno then (.extend, t)
    else if t.upper < newnext ∨ t.growStep = 0 then (.failed .mapFull, t)
    else if a.resize = .success then
      let aligned := e.ceil2os (newnext + t.growStep - newnext % t.growStep)
      (.extend, { t with endPgno := min aligned t.upper })
    else (.failed a.resize, t)

/-! ## 3. `gc_alloc_single` -/

/-- The head of the loose list; its caller writes the header anew. -/
def popLoose (t : Txn) (lp : Nat) (rest : List Nat) : Txn :=
  { t with
    loose := rest
    looseCount := t.looseCount - 1
    dirty := t.dirty.map fun x => if x.pgno = lp then { x with loose := false } else x
    used := ⟨lp, 1, t.frontTxnid⟩ :: t.used }

/-- `gc_alloc_single`, which ends with the call `ex`. -/
def allocSingleOr (ex : Txn → Ret) (t : Txn) : Ret :=
  let t := if looseWaits t then txnRefund t else t
  match t.loose with
  | lp :: rest => ⟨.success, some lp, popLoose t lp rest⟩
  | [] =>
      match repnlGetSingle t with
      | some (pgno, t) =>
          match pageAllocFinalize t pgno 1 with
          | (.success, t) => ⟨.success, some pgno, t⟩
          | (rc, t) => ⟨rc, none, t⟩
      | none => ex t

/-- The call by which a cursor of the GC gets a page while the GC is not to be searched. -/
def gcCall (resize : Rc) : Call where
  num := 1
  reserve := false
  unimportant := false
  gcCursor := true
  preparation := false
  rounds := .last ⟨0, fun _ => ⟨.success, .success, false, ⟨[], .success, false, 0, 0⟩⟩, .success⟩
  resize := resize

def step (e : Env) (t : Txn) : Inner → Rc × Txn
  | .retire ask s =>
      if s ∈ t.used ∧ (ask = .frozen → s.txnid < t.txnid) then
        pageRetireEx e.dpLooseLimit t ask s
      else (.success, t)
  | .alloc resize =>
      let a := gcCall resize
      let ret := allocSingleOr (fun t => finish a (noGc e a t)) t
      (ret.err, ret.txn)

/-- The steps of a `cursor_del`, up to the first that fails. -/
def steps (e : Env) : List Inner → Txn → Rc × Txn
  | [], t => (.success, t)
  | i :: rest, t =>
      match step e t i with
      | (.success, t) => steps e rest t
      | (rc, t) => (rc, { t with error := true })

/-! ## 4. Records of the GC -/

/-- `gc_is_reclaimed` -/
def gcIsReclaimed (t : Txn) (id : Nat) : Bool := id ∈ t.reclaimed ∨ id ∈ t.comeback

/-- `gc_may_clean_reclaimed` -/
def gcMayCleanReclaimed (t : Txn) : Bool :=
  t.gcHeight * 2 + 3 < t.repnl.length + t.looseCount + (t.endPgno - t.firstUnallocated)

/-- `pnl_check` -/
def pnlCheck (e : Env) (l : List Nat) (limit : Nat) : Bool :=
  l.length ≤ e.pagelistLimit ∧ (∀ p ∈ l, numMetas ≤ p ∧ p < limit) ∧ l.Pairwise (fun p q => q < p)

/-- `txn_basis_snapshot` -/
def txnBasisSnapshot (e : Env) (t : Txn) : Nat := t.txnid - e.txnidStep

/-- The records that a pass visits, in its order. -/
def candidates (e : Env) (t : Txn) (detent : Nat) : List Record :=
  let open_ := t.gc.filter fun r => r.id ≤ detent ∧ !gcIsReclaimed t r.id
  if e.lifo then open_.reverse
  else
    let highest := t.reclaimed.foldr max 0
    open_.filter fun r => highest < r.id

/-- The early cleaning of a record: whether it is done, or how it has failed the transaction. -/
def earlyClean (e : Env) (clean : Clean) (r : Record) (t : Txn) : (Rc × Bool) × Txn :=
  match steps e clean.inner t with
  | (.success, t) =>
      if clean.rc = .success then
        ((.success, true), { t with
          gc := t.gc.filter fun x => x.id ≠ r.id
          gcHeight := clean.gcHeight
          gcBranchPages := clean.gcBranchPages })
      else if clean.error then ((clean.rc, false), { t with error := true })
      else ((.success, false), t)
  | (rc, t) => ((rc, false), t)

/-- "Merge in descending sorted order" -/
def mergeRecord (r : Record) (t : Txn) : Txn :=
  refundAtTail { t with repnl := pnlMerge t.repnl r.pages }

/-- A cursor of the GC itself cleans nothing. -/
def cleanRecord (e : Env) (a : Call) (clean : Clean) (r : Record) (t : Txn) : (Rc × Bool) × Txn :=
  if !a.gcCursor ∧ (e.build.debug ∨ gcMayCleanReclaimed t) then earlyClean e clean r t
  else ((.success, false), t)

/-- The id of a record goes to `ready4reuse` when the record is cleaned, else to `reclaimed`. -/
def pushRecord (r : Record) (done : Bool) (t : Txn) : Rc × Txn :=
  match need t with
  | (.room, t) =>
      if done then
        (.success, { t with
          drained := t.drained || t.gc.isEmpty, ready4reuse := r.id :: t.ready4reuse })
      else (.success, { t with reclaimed := r.id :: t.reclaimed })
  | (answer, t) => (answer.rc, t)

/-- "Append PNL from GC record to wr.repnl" up to `rkl_push`. -/
def takeRecord (e : Env) (a : Call) (clean : Clean) (r : Record) (t : Txn) : Rc × Txn :=
  match need t with
  | (.room, t) =>
      match cleanRecord e a clean r (mergeRecord r t) with
      | ((.success, done), t) => pushRecord r done t
      | ((rc, _), t) => (rc, t)
  | (answer, t) => (answer.rc, t)

/-! ## 5. `gc_alloc_ex` -/

/-- The label `scan`; `none` where it finds no pages. -/
def scan (a : Call) (t : Txn) : Option Outcome × Txn :=
  if a.reserve ∧ a.num < 2 then (some (.reserved .success), t)
  else
    match repnlTake a t with
    | some (pgno, t) => (some (.found pgno), t)
    | none => (none, t)

/-- What is left of a pass: its outcome, if it is not that the GC is depleted, and whether
`ALLOC_COALESCE` is still set. -/
structure Pass where
  outcome : Option Outcome
  coalesce : Bool
  txn : Txn

/-- The label `depleted_gc`. -/
def depletedGc (a : Call) (coalesce shouldScan : Bool) (t : Txn) : Pass :=
  let t := { t with drained := true }
  if shouldScan then
    let out := scan a t
    ⟨out.1, coalesce, out.2⟩
  else ⟨none, coalesce, t⟩

/-- "avoid reclaiming slot, since it is too long" -/
def tooLong (e : Env) (a : Call) (r : Record) (t : Txn) : Bool :=
  a.num = 0 ∧ e.maxgcLarge1page / 4 * 3 < r.pages.length ∧
    e.maxgcLarge1page < t.repnl.length + r.pages.length

/-- "Don't try to coalesce too much" -/
def tooMuch (e : Env) (r : Record) (t : Txn) : Bool :=
  e.maxgcLarge1page ≤ r.pages.length + t.repnl.length

/-- "Stop reclaiming to avoid large/overflow the page list" -/
def stopsReclaiming (e : Env) (a : Call) (row : Row) (r : Record) (t : Txn) : Bool :=
  e.rpAugmentLimit ≤ t.repnl.length ∧
    ((a.num ≠ 0 ∧ t.firstUnallocated + a.num ≤ t.upper ∧ row.timeout) ∨
      e.pagelistLimit ≤ r.pages.length + t.repnl.length)

/-- What the visit of a record leads to: the end of the pass, or the next record. -/
inductive Visit where
  | stop (p : Pass)
  | next (coalesce shouldScan : Bool) (t : Txn)

/-- The record is taken, and then its pages are looked through unless more are to come. -/
def collect (e : Env) (a : Call) (clean : Clean) (r : Record) (coalesce : Bool) (t : Txn) : Visit :=
  match takeRecord e a clean r t with
  | (.success, t) =>
      -- nothing is left to coalesce when the GC has become empty by an early cleaning
      let coalesce := coalesce && !t.drained
      if coalesce ∧ t.repnl.length < e.maxgcLarge1page / 2 then .next coalesce true t
      else
        match scan a t with
        | (some outcome, t) => .stop ⟨some outcome, false, t⟩
        | (none, t) =>
            if t.drained then .stop (depletedGc a false false t) else .next false false t
  | (rc, t) => .stop ⟨some (.failed rc), coalesce, t⟩

/-- A record that has been read, with the checks of the length of `repnl`. -/
def visitRecord (e : Env) (a : Call) (row : Row) (r : Record) (coalesce shouldScan : Bool)
    (t : Txn) : Visit :=
  match if tooMuch e r t ∧ shouldScan then repnlTake a t else none with
  | some (pgno, t) => .stop ⟨some (.found pgno), coalesce, t⟩
  | none =>
      let coalesce := coalesce && !tooMuch e r t
      if tooMuch e r t ∧ stopsReclaiming e a row r t then .stop (depletedGc a coalesce false t)
      else collect e a row.clean r coalesce t

/-- The label `next_gc`. -/
def visit (e : Env) (a : Call) (row : Row) (r : Record) (coalesce shouldScan : Bool) (t : Txn) :
    Visit :=
  if row.seek ≠ .success then .stop ⟨some (.failed row.seek), coalesce, t⟩
  else
    let t := { t with drained := false }
    if row.read ≠ .success then .stop ⟨some (.failed row.read), coalesce, t⟩
    else if !pnlCheck e r.pages t.firstUnallocated then
      .stop ⟨some (.failed .corrupted), coalesce, t⟩
    else if tooLong e a r t then .stop ⟨some (.reserved .notFound), coalesce, t⟩
    else visitRecord e a row r coalesce shouldScan t

def pass (e : Env) (a : Call) (rows : Nat → Row) : List Record → Bool → Bool → Txn → Pass
  | [], coalesce, shouldScan, t => depletedGc a coalesce shouldScan t
  | r :: rest, coalesce, shouldScan, t =>
      match visit e a (rows r.id) r coalesce shouldScan t with
      | .stop p => p
      | .next coalesce shouldScan t => pass e a rows rest coalesce shouldScan t

/-- Whether the search starts again after a pass. -/
def retries (e : Env) (a : Call) (r : Round) (t : Txn) : Retry → Bool
  | .steady => !a.unimportant ∧ r.steady = .success
  | .refreshed => a.unimportant ∨ r.steady = .success
  | .kicked => (a.unimportant ∨ r.steady = .success) ∧
      (a.reserve ∨ t.endPgno < t.firstUnallocated + a.num) ∧ r.detent < txnBasisSnapshot e t

/-- What follows a pass that has depleted the GC. -/
def afterGc (e : Env) (a : Call) (r : Round) (t : Txn) : Outcome × Txn :=
  if !a.unimportant ∧ r.steady ≠ .success then (.failed r.steady, t)
  else if !a.reserve ∧ t.firstUnallocated + a.num ≤ t.endPgno then (.extend, t)
  else noGc e a t

/-- A pass up to the detent of a round. -/
def round (e : Env) (a : Call) (r : Round) (coalesce : Bool) (t : Txn) : Pass :=
  if txnBasisSnapshot e t < r.detent then ⟨some (.failed .problem), coalesce, t⟩
  else pass e a r.rows (candidates e t r.detent) coalesce false t

def rounds (e : Env) (a : Call) : Rounds → Bool → Txn → Outcome × Txn
  | .last r, coalesce, t =>
      match round e a r coalesce t with
      | ⟨some outcome, _, t⟩ => (outcome, t)
      | ⟨none, _, t⟩ => afterGc e a r t
  | .again r why rest, coalesce, t =>
      match round e a r coalesce t with
      | ⟨some outcome, _, t⟩ => (outcome, t)
      | ⟨none, coalesce, t⟩ =>
          if retries e a r t why then rounds e a rest coalesce t else afterGc e a r t

/-- `is_reclaimable` -/
def isReclaimable (a : Call) (t : Txn) : Bool × Txn :=
  if a.gcCursor ∧ !(a.reserve ∨ a.preparation) then (false, t)
  else if t.gc.isEmpty then (false, { t with drained := true })
  else (true, t)

/-- `gc_alloc_ex` -/
def gcAllocEx (e : Env) (a : Call) (t : Txn) : Ret :=
  match if 1 < a.num then repnlTake a t else none with
  | some (pgno, t) => allocDone a (some pgno) t
  | none =>
      match isReclaimable a t with
      | (false, t) => finish a (noGc e a t)
      | (true, t) =>
          let coalesce := 0 < a.num ∧ t.gcBranchPages ≠ 0 ∧
            t.repnl.length < e.maxgcLarge1page / 2
          finish a (rounds e a a.rounds coalesce t)

/-- `gc_alloc_single` -/
def gcAllocSingle (e : Env) (a : Call) (t : Txn) : Ret :=
  allocSingleOr (gcAllocEx e { a with num := 1, reserve := false, unimportant := false }) t

end Mdbx.Pages
