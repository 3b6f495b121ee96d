import Mathlib

/-!
# Uring.Model — operations that share one `io_uring`

An operation puts entries behind the submission tail, enters the kernel and takes completions from
the head of the completion ring.  The kernel may take entries, complete them and fail at any call;
what it does is part of the events.  The entry a completion belongs to is kept beside it, and every
consumed completion is logged with the request the code took it for.
-/

namespace Mdbx.Uring

/-! ## 1. Rings -/

/-- `sqe->user_data`: the caller's buffer, or the address of an item of a read batch. -/
inductive UserData where
  | buf (addr : Nat)
  | item (batch index : Nat)
  deriving DecidableEq

/-- A submission entry of request `index` of operation `op`; `len` is the result its operation
asks for. -/
structure Entry where
  op : Nat
  index : Nat
  userData : UserData
  len : Nat
  deriving DecidableEq

def Entry.request (e : Entry) : Nat × Nat := (e.op, e.index)

structure Cqe where
  entry : Entry
  res : Int
  deriving DecidableEq

/-- A consumed completion and the request it was taken for, if that request exists. -/
structure Credit where
  taken : Option (Nat × Nat)
  cqe : Cqe
  deriving DecidableEq

/-- An operation that came back to its caller, with the results its requests ask for. -/
structure Return where
  op : Nat
  lens : List Nat
  rc : Int
  deriving DecidableEq

def mdbxSuccess : Int := 0
def mdbxEio : Int := 5
def mdbxEinval : Int := 22
def mdbxEbusy : Int := 16
def mdbxEnodata : Int := 61
def uint32Max : Nat := 2 ^ 32 - 1
def int32Max : Nat := 2 ^ 31 - 1

/-! ## 2. Single operations -/

inductive Kind where
  | read
  | write
  | writev
  | statx
  deriving DecidableEq

/-- The largest size an operation takes; for `statx` it is the mask. -/
def Kind.limit : Kind → Nat
  | .read => uint32Max
  | .write | .writev => int32Max
  | .statx => uint32Max

/-- The result that counts as success. -/
def Kind.want : Kind → Nat → Nat
  | .statx, _ => 0
  | _, bytes => bytes

/-- A read takes the completion at the head for its own. -/
def Kind.checksUserData : Kind → Bool
  | .read => false
  | _ => true

def Kind.mismatch : Kind → Int
  | .read => mdbxEnodata
  | _ => mdbxEio

structure Single where
  op : Nat
  kind : Kind
  addr : Nat
  bytes : Nat
  deriving DecidableEq

def Single.want (x : Single) : Nat := x.kind.want x.bytes

def Single.entry (x : Single) : Entry := ⟨x.op, 0, .buf x.addr, x.want⟩

/-- What the operation makes of the completion at the head. -/
def Single.result (x : Single) (c : Cqe) : Int :=
  if x.kind.checksUserData ∧ c.entry.userData ≠ .buf x.addr then mdbxEinval
  else if c.res < 0 then -c.res
  else if c.res ≠ x.want then x.kind.mismatch
  else mdbxSuccess

def Single.credit (x : Single) (c : Cqe) : Credit :=
  if x.kind.checksUserData ∧ c.entry.userData ≠ .buf x.addr then ⟨none, c⟩
  else ⟨some (x.op, 0), c⟩

/-! ## 3. Read batches -/

structure ReadResult where
  err : Int
  payloadBytes : Nat
  submitted : Bool
  completed : Bool
  deriving DecidableEq

def dxbReadError (err : Int) : ReadResult := ⟨err, 0, false, false⟩
def dxbReadSubmittedError (err : Int) : ReadResult := ⟨err, 0, true, false⟩
def dxbReadCompleted (payloadBytes : Nat) : ReadResult := ⟨mdbxSuccess, payloadBytes, true, true⟩

/-- `osal_ioring_linux_read_batch`; `finished` and `reported` are the copies of `completed` and
`first_err` in `osal_ioring_read_batch_t` that each drive makes. -/
structure Batch where
  ios : List Nat
  results : Nat → ReadResult
  submitted : Nat
  completed : Nat
  firstErr : Int
  finished : Nat
  reported : Int

def Batch.fail (t : Batch) (err : Int) : Batch :=
  if t.firstErr = mdbxSuccess then { t with firstErr := err } else t

def Batch.setResult (t : Batch) (i : Nat) (r : ReadResult) : Batch :=
  { t with results := Function.update t.results i r }

/-- The code for a completion of item `i`. -/
def Batch.itemErr (t : Batch) (i : Nat) (res : Int) : Int :=
  if res < 0 then -res else if res ≠ t.ios.getD i 0 then mdbxEnodata else mdbxSuccess

def Batch.itemResult (t : Batch) (i : Nat) (res : Int) : ReadResult :=
  if t.itemErr i res = mdbxSuccess then dxbReadCompleted res.toNat
  else dxbReadSubmittedError (t.itemErr i res)

/-- `osal_ioring_linux_uring_read_batch_complete` for one completion of the batch's item. -/
def Batch.take (t : Batch) (i : Nat) (res : Int) : Batch :=
  let u := { t.setResult i (t.itemResult i res) with completed := t.completed + 1 }
  if t.itemErr i res ≠ mdbxSuccess then u.fail (t.itemErr i res) else u

/-- A request of more than `UINT32_MAX` bytes is answered at once. -/
def Batch.refuse (t : Batch) : Batch :=
  let u := (t.setResult t.submitted (dxbReadError mdbxEinval)).fail mdbxEinval
  { u with submitted := u.submitted + 1, completed := u.completed + 1 }

def Batch.queue (t : Batch) : Batch :=
  { t.setResult t.submitted ⟨mdbxSuccess, 0, true, false⟩ with submitted := t.submitted + 1 }

/-- The preparing loop over the requests not submitted yet, with `space` free slots. -/
def prepare (b : Nat) : List Nat → Nat → Batch → List Entry → Batch × List Entry
  | [], _, t, acc => (t, acc)
  | _ :: _, 0, t, acc => (t, acc)
  | bytes :: rest, space + 1, t, acc =>
    if uint32Max < bytes then prepare b rest (space + 1) t.refuse acc
    else prepare b rest space t.queue
      (acc ++ [⟨b, t.submitted, .item b t.submitted, bytes⟩])

/-- The requests from `i` on that the kernel did not take are written off. -/
def writeOff (err : Int) (t : Batch) (i : Nat) : Nat → Batch
  | 0 => t
  | n + 1 => writeOff err
      { t.setResult i (dxbReadSubmittedError err) with completed := t.completed + 1 } (i + 1) n

/-- Where a drive of batch `batch` started from. -/
structure Drive where
  batch : Nat
  wait : Bool
  submittedBefore : Nat
  completedBefore : Nat
  deriving DecidableEq

/-! ## 4. State -/

/-- The call that runs under the ring's mutex. -/
inductive Pc where
  | idle
  -- about to enter the kernel for the one entry of `x`
  | submit (x : Single)
  -- about to look at the completion ring
  | look (x : Single)
  -- about to wait in the kernel
  | await (x : Single)
  -- `got` of the `prepared` entries are taken
  | driveSubmit (d : Drive) (prepared got : Nat)
  | drivePoll (d : Drive)
  | driveLook (d : Drive)
  | driveAwait (d : Drive)
  | driveAgain (d : Drive)
  deriving DecidableEq

structure State where
  /-- Entries between the submission head and tail. -/
  sq : List Entry
  inflight : List Entry
  /-- Completions between the completion head and tail. -/
  cq : List Cqe
  /-- `linux_uring_read_owner` and `linux_uring_read_holds`. -/
  owner : Nat
  holds : Nat
  batches : Nat → Batch
  /-- Batches between begin and finish. -/
  live : List Nat
  pc : Pc
  nextOp : Nat
  credits : List Credit
  returned : List Return

def noBatch : Batch := ⟨[], fun _ => dxbReadError 0, 0, 0, 0, 0, 0⟩

def start : State where
  sq := []
  inflight := []
  cq := []
  owner := 0
  holds := 0
  batches := fun _ => noBatch
  live := []
  pc := .idle
  nextOp := 0
  credits := []
  returned := []

def State.setBatch (s : State) (b : Nat) (t : Batch) : State :=
  { s with batches := Function.update s.batches b t }

/-! ## 5. Steps -/

def answer (s : State) (x : Single) (rc : Int) : State :=
  { s with nextOp := s.nextOp + 1, returned := ⟨x.op, [x.want], rc⟩ :: s.returned }

def put (s : State) (x : Single) : State :=
  { s with nextOp := s.nextOp + 1, sq := s.sq ++ [x.entry], pc := .submit x }

/-- The part of a single operation before its first call into the kernel; `entries` is the size of
the submission ring.  It waits for the mutex while another call or a batch holds it. -/
def single (entries : Nat) (s : State) (kind : Kind) (addr bytes : Nat) : Option State :=
  if kind.limit < bytes then some (answer s ⟨s.nextOp, kind, addr, bytes⟩ mdbxEinval)
  else if s.pc ≠ .idle ∨ s.holds ≠ 0 then none
  else if entries ≤ s.sq.length then some (answer s ⟨s.nextOp, kind, addr, bytes⟩ mdbxEbusy)
  else some (put s ⟨s.nextOp, kind, addr, bytes⟩)

def Single.finish (x : Single) (s : State) (rc : Int) : State :=
  { s with pc := .idle, returned := ⟨x.op, [x.want], rc⟩ :: s.returned }

/-- `osal_ioring_pread_batch_begin` with `osal_ioring_linux_uring_read_batch_lock`. -/
def begin (s : State) (thread : Nat) (ios : List Nat) : Option State :=
  if ios = [] ∨ uint32Max < ios.length then some s
  else if s.pc ≠ .idle ∨ (s.holds ≠ 0 ∧ s.owner ≠ thread) then none
  else if s.holds = uint32Max then some s
  else some { s.setBatch s.nextOp { noBatch with ios := ios } with
    live := s.nextOp :: s.live
    owner := thread
    holds := s.holds + 1
    nextOp := s.nextOp + 1 }

/-- A waiting drive that got nowhere is an error. -/
def Batch.settle (t : Batch) (d : Drive) : Batch :=
  if t.submitted = d.submittedBefore ∧ t.completed = d.completedBefore ∧
      t.completed = t.submitted ∧ d.wait then t.fail mdbxEio else t

/-- The caller's copy is brought up to date. -/
def Batch.copy (t : Batch) : Batch := { t with finished := t.completed, reported := t.firstErr }

def driveEnd (s : State) (d : Drive) : State :=
  { s.setBatch d.batch ((s.batches d.batch).settle d).copy with pc := .idle }

def afterSubmit (s : State) (d : Drive) : State :=
  if (s.batches d.batch).completed < (s.batches d.batch).submitted then
    { s with pc := .drivePoll d }
  else driveEnd s d

def prepareBatch (entries : Nat) (s : State) (b : Nat) : Batch × List Entry :=
  prepare b ((s.batches b).ios.drop (s.batches b).submitted) (entries - s.sq.length)
    (s.batches b) []

def driveFrom (s : State) (d : Drive) (t : Batch) (new : List Entry) : State :=
  if new = [] then afterSubmit (s.setBatch d.batch t) d
  else { s.setBatch d.batch t with sq := s.sq ++ new, pc := .driveSubmit d new.length 0 }

/-- `osal_ioring_pread_batch_drive` up to its first call into the kernel. -/
def drive (entries : Nat) (s : State) (b : Nat) (wait : Bool) : Option State :=
  if s.pc ≠ .idle ∨ b ∉ s.live then none
  else if (s.batches b).ios.length ≤ (s.batches b).finished then some s
  else if (s.batches b).ios.length ≤ (s.batches b).completed then
    some (s.setBatch b (s.batches b).copy)
  else
    some (driveFrom s ⟨b, wait, (s.batches b).submitted, (s.batches b).completed⟩
      (prepareBatch entries s b).1 (prepareBatch entries s b).2)

/-- The completion of an item goes to the item's batch, whichever batch is driven. -/
def creditItem (s : State) (c : Cqe) : State :=
  match c.entry.userData with
  | .item b i =>
    if b ∈ s.live then
      { s.setBatch b ((s.batches b).take i c.res) with credits := ⟨some (b, i), c⟩ :: s.credits }
    else { s with credits := ⟨none, c⟩ :: s.credits }
  | .buf _ => { s with credits := ⟨none, c⟩ :: s.credits }

def consumeAll (s : State) : State := s.cq.foldl creditItem { s with cq := [] }

/-- The kernel takes the oldest `n` entries. -/
def accept (s : State) (n : Nat) : State :=
  { s with sq := s.sq.drop n, inflight := s.inflight ++ s.sq.take n }

/-- `osal_ioring_linux_uring_submit` comes back with an error. -/
def driveSubmitFails (s : State) (d : Drive) (prepared got : Nat) (err : Int) : State :=
  afterSubmit (s.setBatch d.batch (writeOff err ((s.batches d.batch).fail err)
    ((s.batches d.batch).submitted - prepared + got) (prepared - got))) d

def driveSubmitted (s : State) (d : Drive) (prepared got : Nat) : State :=
  if got = prepared then afterSubmit s d else { s with pc := .driveSubmit d prepared got }

def submitError (res : Int) : Int := if res < 0 then -res else mdbxEio

/-- The kernel answers the running call with `res`. -/
def enter (s : State) (res : Int) : Option State :=
  match s.pc with
  | .submit x =>
    if res ≤ 0 then some (x.finish s (submitError res))
    else if res = 1 then some { accept s 1 with pc := .look x }
    else none
  | .await x => if res < 0 then some (x.finish s (-res)) else some { s with pc := .look x }
  | .driveSubmit d prepared got =>
    if res ≤ 0 then some (driveSubmitFails s d prepared got (submitError res))
    else if res.toNat ≤ prepared - got then
      some (driveSubmitted (accept s res.toNat) d prepared (got + res.toNat))
    else none
  | .driveAwait d =>
    if res < 0 then some (driveEnd (s.setBatch d.batch ((s.batches d.batch).fail (-res))) d)
    else some { s with pc := .driveAgain d }
  | _ => none

/-- A waiting drive goes on when the first look brought nothing for its batch. -/
def polled (s : State) (d : Drive) (before : Nat) : State :=
  if d.wait ∧ (s.batches d.batch).completed < (s.batches d.batch).submitted ∧
      (s.batches d.batch).completed = before then { s with pc := .driveLook d }
  else driveEnd s d

/-- The running call loads the head and the tail of the completion ring and goes on from there. -/
def load (s : State) : Option State :=
  match s.pc with
  | .look x =>
    match s.cq with
    | [] => some { s with pc := .await x }
    | c :: rest =>
      some (x.finish { s with cq := rest, credits := x.credit c :: s.credits } (x.result c))
  | .drivePoll d => some (polled (consumeAll s) d (s.batches d.batch).completed)
  | .driveLook d =>
    if s.cq = [] then some { s with pc := .driveAwait d } else some (driveEnd (consumeAll s) d)
  | .driveAgain d => some (driveEnd (consumeAll s) d)
  | _ => none

def Batch.finishCode (t : Batch) : Int :=
  if t.finished = t.ios.length ∨ t.reported ≠ mdbxSuccess then t.reported else mdbxEio

/-- `osal_ioring_pread_batch_finish` -/
def finish (s : State) (b : Nat) : Option State :=
  if s.pc ≠ .idle ∨ b ∉ s.live then none
  else some { s with
    live := s.live.erase b
    holds := s.holds - 1
    returned := ⟨b, (s.batches b).ios, (s.batches b).finishCode⟩ :: s.returned }

/-- The kernel completes one of the entries it has taken. -/
def kernelCompletes (s : State) (i : Nat) (res : Int) : Option State :=
  s.inflight[i]?.map fun e =>
    { s with inflight := s.inflight.eraseIdx i, cq := s.cq ++ [⟨e, res⟩] }

inductive Event where
  | single (kind : Kind) (addr bytes : Nat)
  | begin (thread : Nat) (ios : List Nat)
  | drive (b : Nat) (wait : Bool)
  | finish (b : Nat)
  | enter (res : Int)
  | load
  | completes (i : Nat) (res : Int)

def step (entries : Nat) (s : State) : Event → Option State
  | .single kind addr bytes => single entries s kind addr bytes
  | .begin thread ios => begin s thread ios
  | .drive b wait => drive entries s b wait
  | .finish b => finish s b
  | .enter res => enter s res
  | .load => load s
  | .completes i res => kernelCompletes s i res

def exec (entries : Nat) (s : State) : List Event → Option State
  | [] => some s
  | e :: es => (step entries s e).bind fun s' => exec entries s' es

end Mdbx.Uring
