import Mdbx.Parking.Unpark

/-!
# Parking.Clone — cloning a read transaction

`mdbx_txn_clone` as a function of what each look at the source, at the oldest snapshot and at the
metas finds: other threads may end, restart or oust the source between any two of them.
-/

namespace Mdbx.Parking

/-! ## 1. What the call finds -/

def minTxnid : Nat := 1
def maxTxnid : Nat := safe64InvalidThreshold - 1

inductive Err where
  | badTxn
  | badSign
  | badRslot
  | einval
  | enomem
  | overlapping
  | ousted
  | retarded
  | problem
  | other (code : Nat)
  deriving DecidableEq

/-- A look at the source. -/
structure Source where
  -- the signature is gone, or the environment is closed
  err : Option Err
  finished : Bool
  dirty : Bool
  parked : Bool
  autounpark : Bool
  txnid : Nat
  deriving DecidableEq

/-- `check_txn_anythread` with `MDBX_TXN_FINISHED | MDBX_TXN_DIRTY` -/
def Source.check (o : Source) : Option Err :=
  match o.err with
  | some e => some e
  | none => if o.finished ∨ o.dirty then some .badTxn else none

/-- A round of `ro_seize`. -/
structure Round where
  head : Nat
  -- `meta_shadow_should_retry`
  err : Option Err
  shouldRetry : Bool
  -- `coherency_fetch_head`: an error, or `MDBX_RESULT_TRUE`
  fetchErr : Option Err
  fetchAgain : Bool
  oldest : Nat
  -- the slot was reset since it was written
  kicked : Bool

/-- The caller's handle for the clone with its slot, and all that the call finds. -/
structure Call where
  -- the kind of the source
  roFlat : Bool
  handle : Option (Txn × Option Slot)
  allocated : Bool
  -- a check that fails before the clone is ready, in the first pass and in the next one
  before : Option Err
  again : Option Err
  oldestFirst : Nat
  txnid : Nat
  -- `ro_slot_alloc`: an error, or a slot in the regular mode
  allocErr : Option Err
  bound : Option Slot
  registeredPid : Nat
  currentPid : Nat
  -- the looks of `txn_ro_clone` at the state, the flags and the snapshot of the source
  state : Source
  flags : Source
  snapshot : Source
  overlapping : Bool
  kicked : Bool
  oldest : Nat
  tapErr : Option Err
  stuckMeta : Bool
  rounds : Nat → Round
  -- the looks after it, and those of the cleaning
  recheck : Source
  last : Source
  kickedLate : Bool
  oldestLate : Nat

/-- `txn_basis_snapshot`; `xMDBX_TXNID_STEP` is 1. -/
def Call.basis (c : Call) (o : Source) : Nat :=
  if c.roFlat then o.txnid else (o.txnid + uint64Max) % (uint64Max + 1)

/-- A clone with its slot; `none` in the exclusive mode and before the slot is taken. -/
structure Clone where
  txn : Txn
  slot : Option Slot
  deriving DecidableEq

def Clone.setTxnid (k : Clone) (txnid : Nat) : Clone :=
  { k with slot := k.slot.map fun s => { s with txnid := txnid } }

/-! ## 2. Cleaning -/

/-- An error, or none; no outcome at all when an `ENSURE` fails. -/
def roSlotCheckpid (c : Call) (s : Slot) : Option Err :=
  if s.pid = c.registeredPid then none
  else if c.currentPid ≠ s.pid then some .badRslot else none

/-- `ro_slot_clean` with nobody else at the slot; `oldest` is `cached_oldest_txnid`. -/
def roSlotClean (c : Call) (oldest : Nat) (k : Clone) : Option (Option Err × Clone) :=
  match k.slot with
  | none => some (none, k)
  | some s =>
    match roSlotCheckpid c s with
    | some e => some (some e, k)
    | none =>
      if k.txn.finished then
        if s.txnid < safe64InvalidThreshold then none else some (none, k)
      else if k.txn.parked then
        some (none, {
          txn := { k.txn with
            parked := false
            ousted := k.txn.ousted || decide (s.tid = mdbxTidTxnOusted) }
          slot := some { s with tid := k.txn.owner, txnid := safe64Invalid } })
      else if k.txn.txnid < oldest then none
      else some (none, k.setTxnid safe64Invalid)

/-- `txn_ro_reset` -/
def txnRoReset (c : Call) (oldest : Nat) (k : Clone) : Option (Option Err × Clone) :=
  (roSlotClean c oldest k).map fun (rc, k) =>
    (rc, { k with txn := { k.txn with finished := true, owner := 0, txnid := invalidTxnid } })

/-- `ro_slot_release` of the slot itself. -/
def roSlotRelease (c : Call) (s : Slot) : Slot :=
  if s.pid = c.currentPid then { s with txnid := safe64Invalid, pid := 0 } else s

/-- `txn_ro_free` -/
def txnRoFree (c : Call) (oldest : Nat) (k : Clone) : Option (Option Slot) :=
  match k.slot with
  | none => some none
  | some _ => (txnRoReset c oldest k).map fun (_, k) => k.slot.map (roSlotRelease c)

/-! ## 3. The clone -/

def roSlotGet (c : Call) (k : Clone) : Option Err × Clone :=
  match k.slot with
  | some s => (roSlotCheckpid c s, k)
  | none => match c.allocErr with
    | some e => (some e, k)
    | none => (none, { k with slot := c.bound })

/-- The loop of `ro_seize` with `n` rounds left, round `i` next. -/
def seizeLoop (c : Call) (i : Nat) (k : Clone) : Nat → Option Err × Clone
  | 0 => (some .problem, k)
  | n + 1 =>
    let r := c.rounds i
    let k := k.setTxnid r.head
    match r.err with
    | some e => (some e, k)
    | none =>
      if r.shouldRetry then seizeLoop c (i + 1) k n
      else
        let k := { k with txn := { k.txn with txnid := r.head } }
        match r.fetchErr with
        | some e => (some e, k)
        | none =>
          if r.fetchAgain then seizeLoop c (i + 1) k n
          else if r.head < r.oldest then
            if c.stuckMeta then (some .retarded, k) else seizeLoop c (i + 1) k n
          else if k.slot ≠ none ∧ r.kicked ∧ r.head ≠ safe64Invalid then
            seizeLoop c (i + 1) (k.setTxnid safe64Invalid) n
          else (none, k)

def roSeize (c : Call) (k : Clone) : Option Err × Clone :=
  match c.tapErr with
  | some e => (some e, k)
  | none => seizeLoop c 0 { k with txn := { k.txn with finished := false } } 42

/-- The store of a reader's snapshot into the slot of its clone, and the checks after it. -/
def publish (c : Call) (k : Clone) : Option Err × Clone :=
  let k := k.setTxnid (if k.txn.parked then mdbxTidTxnParked else k.txn.txnid)
  if k.txn.parked then (none, k)
  else if k.slot ≠ none ∧ c.kicked ∧ k.txn.txnid ≠ safe64Invalid then
    (some .ousted, k.setTxnid safe64Invalid)
  else if k.txn.txnid < c.oldest then (some .retarded, k)
  else (none, k)

/-- The clone takes flags, owner and snapshot. -/
def fill (c : Call) (k : Clone) : Clone :=
  { k with txn := { k.txn with
    finished := true
    error := false
    hasChild := false
    parked := c.flags.parked
    autounpark := c.flags.autounpark
    ousted := false
    roFlat := true
    owner := (k.slot.map Slot.tid).getD k.txn.owner
    txnid := c.basis c.snapshot } }

/-- `txn_ro_clone` -/
def txnRoClone (c : Call) (k : Clone) : Option Err × Clone :=
  match roSlotGet c k with
  | (some e, k) => (some e, k)
  | (none, k) =>
    if c.state.finished ∨ c.state.txnid < minTxnid ∨ maxTxnid < c.state.txnid then
      (some .badTxn, k)
    else if c.roFlat then
      if c.overlapping then (some .overlapping, fill c k) else publish c (fill c k)
    else roSeize c (fill c k)

/-- What the caller gets, with the slot of the clone; the transaction is gone when it was freed. -/
inductive Result where
  | success (k : Clone)
  | error (e : Err) (slot : Option Slot)
  -- an `ENSURE` of `ro_slot_clean` fails, or a writer is taken for a reader
  | panicked

def Call.slotLate (c : Call) (k : Clone) : Clone :=
  if c.kickedLate then k.setTxnid safe64Invalid else k

/-- `bailout`: a clone of the call's own is freed, the caller's is reset. -/
def bailout (c : Call) (oldest : Nat) (e : Err) (k : Clone) : Result :=
  let k := c.slotLate k
  match c.handle with
  | none => match txnRoFree c oldest k with
    | none => .panicked
    | some slot => .error e slot
  | some _ => match txnRoReset c oldest k with
    | none => .panicked
    | some (_, k) => .error e k.slot

/-- From `txn_ro_clone` on. -/
def cloneReady (c : Call) (k : Clone) : Result :=
  match txnRoClone c k with
  | (some e, k) => bailout c c.oldestLate e k
  | (none, k) =>
    match c.recheck.check with
    | some e => bailout c c.oldestLate e k
    | none =>
      let k := { k with txn := { k.txn with finished := false } }
      if c.basis c.last ≠ k.txn.txnid ∨ c.txnid ≠ c.last.txnid then
        bailout c c.oldestLate .problem k
      else .success (c.slotLate k)

def newTxn : Txn where
  finished := true
  error := false
  hasChild := false
  parked := false
  autounpark := false
  ousted := false
  roFlat := true
  owner := 0
  txnid := 0

/-- `mdbx_txn_clone` -/
def mdbxTxnClone (c : Call) : Result :=
  match c.handle with
  | none =>
    match c.before with
    | some e => .error e none
    | none =>
      if ¬ c.allocated then .error .enomem none
      else match c.again with
        | some e => bailout c c.oldestLate e ⟨newTxn, none⟩
        | none => cloneReady c ⟨newTxn, none⟩
  | some (txn, slot) =>
    match c.before with
    | some e => if txn.roFlat then bailout c c.oldestFirst e ⟨txn, slot⟩ else .panicked
    | none =>
      if ¬ txn.roFlat then .panicked
      else if txn.finished then cloneReady c ⟨txn, slot⟩
      else match txnRoReset c c.oldestFirst ⟨txn, slot⟩ with
        | none => .panicked
        | some (some e, k) => bailout c c.oldestLate e k
        | some (none, k) => match c.again with
          | some e => bailout c c.oldestLate e k
          | none => cloneReady c k

end Mdbx.Parking
