import Mdbx.Readers.Metas

/-!
# Readers.Model — the reader table, step by step

A slot of the table has one reader at a time.  A reader and the writer take one atomic load, store
or compare-and-swap at a time, in the order of the code; a commit is one step.  What comes from
outside a step (errors, a cached copy of the metas, the choices of the application) is its input.
The regular mode is modelled, with a reader table and 64-bit compare-and-swap.
-/

namespace Mdbx.Readers

open Commit

/-! ## 1. State -/

/-- `SAFE64_INVALID_THRESHOLD`, and what `safe64_reset` stores. -/
def safe64InvalidThreshold : Nat := maxTxnid + 1
def safe64Invalid : Nat := uint64Max

/-- The thread of a slot, or one of the two marks of a parked transaction. -/
inductive Tid where
  | owner
  | parked
  | ousted
  deriving DecidableEq

/-- `reader_slot_t`; `pid` says whether it is taken. -/
structure Slot where
  pid : Bool
  tid : Tid
  txnid : Nat
  retired : Nat

/-- The locals of `ro_seize`: the metas of `troika` and the count of its rounds. -/
structure Seize where
  seen : Nat → Meta
  loop : Nat

def Seize.head (z : Seize) : Nat := recentTxnid z.seen

/-- Where the thread of a slot is: each stands before the step it names. -/
inductive Phase where
  | free
  | dead
  | idle
  -- `ro_seize`
  | seizeReset (z : Seize)
  | seizeRetired (z : Seize)
  | seizeWrite (z : Seize)
  | seizeFlag (z : Seize)
  | reread (z : Seize)
  | fetch (z : Seize)
  | loadOldest (z : Seize)
  | checkSlot (z : Seize)
  | active (txnid : Nat)
  -- `txn_ro_park`
  | parkTid (txnid : Nat)
  | parkTxnid (txnid : Nat)
  | parkStore (txnid : Nat)
  | parkFlag (txnid : Nat)
  | parked (txnid : Nat)
  -- `txn_ro_unpark`
  | unparkTid (txnid : Nat)
  | unparkTxnid (txnid : Nat) (tid : Tid)
  | unparkCas (txnid : Nat)
  | againTxnid (txnid : Nat)
  | againTid (txnid got : Nat)
  -- `ro_slot_clean`, of a parked transaction first
  | cleanTxnid
  | cleanOwner
  | cleanReadTxnid
  | cleanReadTid
  | endTxnid
  | endFlag

/-- Who calls `mvcc_shapshot_oldest_rw`. -/
inductive Caller where
  | plain
  | kick (straggler : Nat)

/-- The locals of a scan of the table, at slot `j` of `n`. -/
structure Scan where
  caller : Caller
  prev : Nat
  n : Nat
  j : Nat
  res : Nat

/-- Where the writer is. -/
inductive WPhase where
  | idle
  | txn
  -- `mvcc_shapshot_oldest_rw`
  | loadPrev (caller : Caller)
  | testFlag (caller : Caller) (prev res : Nat)
  | clear (caller : Caller) (prev : Nat)
  | loadLength (caller : Caller) (prev : Nat)
  | scanPid (c : Scan)
  | scanRetired (c : Scan)
  | scanTxnid (c : Scan) (retired : Nat)
  | scanRetired2 (c : Scan) (retired txnid : Nat)
  | scanTxnid2 (c : Scan) (txnid : Nat)
  | stuckFlag (c : Scan) (txnid : Nat)
  | stuckCas (c : Scan) (txnid : Nat)
  | publish (caller : Caller) (prev res : Nat)
  -- `mvcc_kick_laggards`, at slot `j`
  | kickForce (straggler : Nat)
  | kickTxnid (straggler oldest j : Nat)
  | kickPid (straggler oldest j : Nat)
  | kickTid (straggler oldest j : Nat)
  | kickCas (straggler oldest j : Nat)
  | kickReset (straggler oldest j : Nat)
  | kickEnd (straggler : Nat)

structure State where
  slots : Nat → Slot
  -- `rdt_length`
  length : Nat
  -- `rdt_refresh_flag` is not `NOTHING_CHANGED_SIGNATURE`
  flag : Bool
  cachedOldest : Nat
  metas : Nat → Meta
  readers : Nat → Phase
  writer : WPhase

def State.setSlot (s : State) (i : Nat) (slot : Slot) : State :=
  { s with slots := fun k => if k = i then slot else s.slots k }

def State.goto (s : State) (i : Nat) (p : Phase) : State :=
  { s with readers := fun k => if k = i then p else s.readers k }

def State.writes (s : State) (w : WPhase) : State := { s with writer := w }

def State.changed (s : State) : State := { s with flag := true }

/-! ## 2. Readers -/

/-- The outcome of `coherency_fetch_head` and of other calls. -/
inductive Outcome where
  | success
  | again
  | error
  deriving DecidableEq

structure Input where
  outcome : Outcome
  -- `pages_retired` of the head
  retired : Nat

/-- Another round, or `MDBX_PROBLEM` and the clean-up of the failed start. -/
def seizeAgain (z : Seize) : Phase :=
  if z.loop + 1 < 42 then .seizeReset { z with loop := z.loop + 1 } else .cleanTxnid

def readerStep (s : State) (i : Nat) (input : Input) : Option State :=
  let slot := s.slots i
  match s.readers i with
  | .seizeReset z =>
    some ((s.setSlot i { slot with txnid := safe64Invalid }).goto i (.seizeRetired z))
  | .seizeRetired z =>
    some ((s.setSlot i { slot with retired := input.retired }).goto i (.seizeWrite z))
  | .seizeWrite z => some ((s.setSlot i { slot with txnid := z.head }).goto i (.seizeFlag z))
  | .seizeFlag z => some (s.changed.goto i (.reread z))
  | .reread z =>
    if input.outcome = .error then some (s.goto i .cleanTxnid)
    else if metaTroikaEqual z.seen s.metas then some (s.goto i (.fetch z))
    else some (s.goto i (seizeAgain { z with seen := s.metas }))
  | .fetch z => match input.outcome with
    | .success => some (s.goto i (.loadOldest z))
    | .again => some (s.goto i (seizeAgain z))
    | .error => some (s.goto i .cleanTxnid)
  | .loadOldest z =>
    if z.head < s.cachedOldest then some (s.goto i (seizeAgain z))
    else some (s.goto i (.checkSlot z))
  | .checkSlot z =>
    if z.head = slot.txnid then some (s.goto i (.active z.head))
    else some (s.goto i (seizeAgain z))
  | .parkTid t =>
    if slot.tid = .owner then some (s.goto i (.parkTxnid t)) else some (s.goto i (.active t))
  | .parkTxnid t =>
    if slot.txnid = t then some (s.goto i (.parkStore t)) else some (s.goto i (.active t))
  | .parkStore t => some ((s.setSlot i { slot with tid := .parked }).goto i (.parkFlag t))
  | .parkFlag t => some (s.changed.goto i (.parked t))
  | .unparkTid t => some (s.goto i (.unparkTxnid t slot.tid))
  | .unparkTxnid t tid =>
    if tid = .ousted ∨ safe64InvalidThreshold ≤ slot.txnid then some (s.goto i .cleanTxnid)
    else if tid ≠ .parked ∨ slot.txnid ≠ t then some (s.goto i .cleanTxnid)
    -- `MDBX_TXN_ERROR`
    else if input.outcome = .error then some (s.goto i .cleanTxnid)
    else some (s.goto i (.unparkCas t))
  | .unparkCas t =>
    if slot.tid = .parked then
      some ((s.setSlot i { slot with tid := .owner }).goto i (.againTxnid t))
    else some (s.goto i (.unparkTid t))
  | .againTxnid t => some (s.goto i (.againTid t slot.txnid))
  | .againTid t got =>
    if got = t ∧ slot.tid = .owner then some (s.goto i (.active t))
    else some (s.goto i .cleanTxnid)
  | .cleanTxnid => some ((s.setSlot i { slot with txnid := safe64Invalid }).goto i .cleanOwner)
  | .cleanOwner => some ((s.setSlot i { slot with tid := .owner }).goto i .cleanReadTxnid)
  | .cleanReadTxnid =>
    if slot.txnid < safe64InvalidThreshold then some (s.goto i .cleanTxnid)
    else some (s.goto i .cleanReadTid)
  | .cleanReadTid =>
    if slot.tid = .owner then some (s.goto i .endTxnid) else some (s.goto i .cleanTxnid)
  | .endTxnid => some ((s.setSlot i { slot with txnid := safe64Invalid }).goto i .endFlag)
  | .endFlag => some (s.changed.goto i .idle)
  | .free | .dead | .idle | .active _ | .parked _ => none

/-! ## 3. The writer -/

structure Build where
  -- `MDBX_CHECKING < 1`
  stopsEarly : Bool

def Scan.next (c : Scan) : Scan := { c with j := c.j + 1 }

/-- A slot that was read: it is stuck behind, older than the others, or neither. -/
def judge (b : Build) (c : Scan) (txnid : Nat) : WPhase :=
  if txnid < c.prev then .stuckFlag c txnid
  else if txnid < c.res then
    if b.stopsEarly ∧ txnid = c.prev then .testFlag c.caller c.prev txnid
    else .scanPid { c.next with res := txnid }
  else .scanPid c.next

/-- What a caller does with the oldest txnid. -/
def returned (s : State) (res : Nat) : Caller → WPhase
  | .plain => .txn
  | .kick straggler =>
    if res = steadyTxnid s.metas ∨ straggler < res then .txn else .kickTxnid straggler res 0

/-- `safe64_reset_compare` -/
def resetCompare (slot : Slot) (txnid : Nat) : Slot :=
  if slot.txnid = txnid then { slot with txnid := safe64Invalid } else slot

def writerStep (b : Build) (s : State) (input : Input) : Option State :=
  match s.writer with
  | .idle | .txn => none
  | .loadPrev caller => some (s.writes (.testFlag caller s.cachedOldest s.cachedOldest))
  | .testFlag caller prev res =>
    if s.flag then some (s.writes (.clear caller prev))
    else some (s.writes (.publish caller prev res))
  | .clear caller prev => some ({ s with flag := false }.writes (.loadLength caller prev))
  | .loadLength caller prev =>
    some (s.writes (.scanPid ⟨caller, prev, s.length, 0, steadyTxnid s.metas⟩))
  | .scanPid c =>
    if c.j < c.n then
      if (s.slots c.j).pid then some (s.writes (.scanRetired c))
      else some (s.writes (.scanPid c.next))
    else some (s.writes (.testFlag c.caller c.prev c.res))
  | .scanRetired c => some (s.writes (.scanTxnid c (s.slots c.j).retired))
  | .scanTxnid c r => some (s.writes (.scanRetired2 c r (s.slots c.j).txnid))
  | .scanRetired2 c r t =>
    if (s.slots c.j).retired = r then some (s.writes (.scanTxnid2 c t))
    else some (s.writes (.scanPid c))
  | .scanTxnid2 c t =>
    if (s.slots c.j).txnid = t then some (s.writes (judge b c t))
    else some (s.writes (.scanPid c))
  | .stuckFlag c t =>
    if s.flag then some (s.writes (.scanPid c.next)) else some (s.writes (.stuckCas c t))
  | .stuckCas c t =>
    some ((s.setSlot c.j (resetCompare (s.slots c.j) t)).writes (.scanPid c.next))
  | .publish caller prev res =>
    if res = prev then some (s.writes (returned s res caller))
    else some ({ s with cachedOldest := res }.writes (returned s res caller))
  | .kickForce straggler => some (s.changed.writes (.loadPrev (.kick straggler)))
  | .kickTxnid straggler oldest j =>
    if j < s.length then
      if (s.slots j).txnid = oldest then some (s.writes (.kickPid straggler oldest j))
      else some (s.writes (.kickTxnid straggler oldest (j + 1)))
    else some (s.writes (.kickEnd straggler))
  | .kickPid straggler oldest j =>
    if (s.slots j).pid then some (s.writes (.kickTid straggler oldest j))
    else some (s.writes (.kickTxnid straggler oldest (j + 1)))
  | .kickTid straggler oldest j =>
    if (s.slots j).tid = .parked then some (s.writes (.kickCas straggler oldest j))
    else some (s.writes (.kickTxnid straggler oldest (j + 1)))
  | .kickCas straggler oldest j =>
    if (s.slots j).tid = .parked then
      some ((s.setSlot j { s.slots j with tid := .ousted }).writes (.kickReset straggler oldest j))
    else some (s.writes (.kickTxnid straggler oldest j))
  | .kickReset straggler oldest j =>
    some ((s.setSlot j (resetCompare (s.slots j) oldest)).writes
      (.kickTxnid straggler oldest (j + 1)))
  -- no reader is in the way, the callback gave up, or one more round
  | .kickEnd straggler =>
    if input.outcome = .again then some (s.writes (.kickForce straggler)) else some (s.writes .txn)

/-! ## 4. Events -/

inductive Event where
  -- `mvcc_bind_slot` and `ro_slot_release`
  | bind (i : Nat)
  | release (i : Nat)
  -- calls of a reader, and one step of the call it is in
  | start (i : Nat) (seen : Nat → Meta)
  | park (i : Nat)
  | unpark (i : Nat)
  | reset (i : Nat)
  | reader (i : Nat) (input : Input)
  -- the process of a reader dies, and its slot is cleared by `mvcc_cleanup_dead` or after the
  -- callback reported it killed or its transaction aborted
  | die (i : Nat)
  | cleanup (i : Nat)
  | killed (i : Nat)
  | aborted (i txnid : Nat)
  -- the writer
  | begin
  | oldest
  | kick (straggler : Nat)
  | writer (input : Input)
  | makeSteady
  | wipeSteady (upto : Nat)
  | commit (m : Meta)
  | abort

def step (b : Build) (s : State) : Event → Option State
  | .bind i => match s.readers i with
    | .free => if i ≤ s.length ∧ (s.slots i).pid = false then
        some ({ s with length := max s.length (i + 1) }.setSlot i
          { s.slots i with pid := true, tid := .owner, txnid := safe64Invalid } |>.goto i .idle)
      else none
    | _ => none
  | .release i => match s.readers i with
    | .idle => some (s.setSlot i { s.slots i with pid := false, txnid := safe64Invalid }
        |>.goto i .free)
    | _ => none
  | .start i seen => match s.readers i with
    | .idle => if recentTxnid seen ≤ maxTxnid then some (s.goto i (.seizeReset ⟨seen, 0⟩)) else none
    | _ => none
  | .park i => match s.readers i with
    | .active t => some (s.goto i (.parkTid t))
    | _ => none
  | .unpark i => match s.readers i with
    | .parked t => some (s.goto i (.unparkTid t))
    | _ => none
  | .reset i => match s.readers i with
    | .active _ => some (s.goto i .endTxnid)
    | .parked _ => some (s.goto i .cleanTxnid)
    | _ => none
  | .reader i input => readerStep s i input
  | .die i => match s.readers i with
    | .free => none
    | _ => some (s.goto i .dead)
  | .cleanup i => match s.readers i with
    | .dead => some ((s.setSlot i { s.slots i with pid := false }).changed.goto i .free)
    | _ => none
  | .killed i => match s.readers i with
    | .dead => some (s.setSlot i { s.slots i with
        pid := false, tid := .ousted, txnid := safe64Invalid } |>.goto i .free)
    | _ => none
  | .aborted i txnid => match s.readers i with
    | .dead => some (s.setSlot i (resetCompare (s.slots i) txnid))
    | _ => none
  | .begin => match s.writer with
    | .idle => some (s.writes .txn)
    | _ => none
  | .oldest => match s.writer with
    | .txn => some (s.writes (.loadPrev .plain))
    | _ => none
  | .kick straggler => match s.writer with
    | .txn => some (s.writes (.kickForce straggler))
    | _ => none
  | .writer input => writerStep b s input
  | .makeSteady => match s.writer with
    | .txn => if minTxnid ≤ recentTxnid s.metas then
        some { s with metas := Readers.makeSteady s.metas } else none
    | _ => none
  | .wipeSteady upto => match s.writer with
    | .txn => some { s with metas := Readers.wipeSteady s.metas upto, flag := true }
    | _ => none
  | .commit m => match s.writer with
    | .txn => if recentTxnid s.metas < m.txnid ∧ m.txnid ≤ maxTxnid then
        some ({ s with metas := commitMeta s.metas m }.writes .idle) else none
    | _ => none
  | .abort => match s.writer with
    | .txn => some (s.writes .idle)
    | _ => none

/-- A table that was just set up, over metas that were there before. -/
structure Init (s : State) : Prop where
  readers : ∀ i, s.readers i = .free
  writer : s.writer = .idle
  oldest : s.cachedOldest ≤ steadyTxnid s.metas
  recent : recentTxnid s.metas ≤ maxTxnid

inductive Reachable (b : Build) : State → Prop where
  | init {s : State} (h : Init s) : Reachable b s
  | step {s s' : State} (h : Reachable b s) (e : Event) (hs : step b s e = some s') :
      Reachable b s'

end Mdbx.Readers
