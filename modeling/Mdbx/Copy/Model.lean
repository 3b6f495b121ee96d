import Mdbx.Lib.Steps
import Mathlib.Logic.Function.Basic
import Mathlib.Algebra.Order.Ring.Nat

/-!
# Copy.Model — the walker and the writer of a compacting copy

The walker puts page images into one of two buffers while the writer sends the other one to the
destination.  Every stretch between two releases of the condpair mutex is one step, and so is every
round of `compacting_put_bytes`, which needs no mutex.  `cond[0]` holds the walker and `cond[1]` the
writer.
-/

namespace Mdbx.Copy

/-! ## 1. Page headers -/

/-- PAGEHDRSZ. -/
def pageHdrSz : Nat := 20

/-- P_LARGE. -/
def pLarge : Nat := 4

/-- The little-endian bytes of a field. -/
def field (width v : Nat) : List UInt8 := (List.range width).map fun i => UInt8.ofNat (v / 256 ^ i)

def poke (l : List UInt8) (at' : Nat) (bytes : List UInt8) : List UInt8 :=
  l.take at' ++ bytes ++ l.drop (at' + bytes.length)

def peek (l : List UInt8) (at' width : Nat) : List UInt8 := (l.drop at').take width

/-- What `compacting_put_bytes` does to the header of a page in the buffer: `pgno` at 16, `txnid` at 0
when it was zero, and `pages` at 12 when the `flags` at 10 say that the page is large. -/
def stamp (txnid pgno npages : Nat) (l : List UInt8) : List UInt8 :=
  let numbered := poke l 16 (field 4 pgno)
  let dated := if peek numbered 0 8 = field 8 0 then poke numbered 0 (field 8 txnid) else numbered
  if peek dated 10 2 = field 2 pLarge then poke dated 12 (field 4 npages) else dated

/-! ## 2. What the walker puts -/

/-- The arguments of a call of `compacting_put_bytes`. -/
structure Put where
  src : Option (List UInt8)
  bytes : Nat
  pgno : Nat
  npages : Nat
  deriving DecidableEq

/-- The next `n` bytes as they arrive in the buffer. -/
def Put.chunk (txnid : Nat) (p : Put) (n : Nat) : List UInt8 :=
  match p.src with
  | some l => if p.pgno ≠ 0 then stamp txnid p.pgno p.npages (l.take n) else l.take n
  | none => List.replicate n 0

def Put.advance (p : Put) (n : Nat) : Put :=
  match p.src with
  | some l => { p with src := some (l.drop n), bytes := p.bytes - n, pgno := 0 }
  | none => { p with bytes := p.bytes - n }

/-- The asserts of `compacting_put_bytes` on its arguments. -/
structure Put.Ok (p : Put) : Prop where
  source : ∀ l, p.src = some l → p.bytes ≤ l.length
  header : p.pgno ≠ 0 → p.src.isSome ∧ pageHdrSz < p.bytes

/-- What the call is meant to add to the copy. -/
def Put.image (txnid : Nat) (p : Put) : List UInt8 := p.chunk txnid p.bytes

def images (txnid : Nat) (ps : List Put) : List UInt8 := ps.flatMap (Put.image txnid)

/-- `compacting_put_page`: the calls it makes, and `first_unallocated` after them. -/
def compactingPutPage (ps : Nat) (mp : List UInt8) (headBytes tailBytes npages firstUnallocated : Nat) :
    List Put × Nat :=
  ([⟨some mp, headBytes, firstUnallocated, npages⟩,
    ⟨none, npages * ps - (headBytes + tailBytes), 0, 0⟩,
    ⟨some (mp.drop (ps - tailBytes)), tailBytes, 0, 0⟩],
   firstUnallocated + npages)

/-! ## 3. State -/

structure Conf where
  -- MDBX_ENVCOPY_WRITEBUF
  writeBufSize : Nat
  writeWithOffset : Bool
  txnid : Nat
  /-- The result of the walk once it has put everything it puts. -/
  walkRc : Int

/-- The checks of the preprocessor on MDBX_ENVCOPY_WRITEBUF. -/
structure Conf.Ok (c : Conf) : Prop where
  least : 65536 ≤ c.writeBufSize
  most : c.writeBufSize ≤ 1073741824

/-- Where a call of `compacting_toggle_write_buffers` returns to. -/
inductive Caller where
  | put (ps : List Put)
  | flush (rc : Int)
  | eof (rc : Int)

inductive Walker where
  -- in `compacting_put_bytes`, or between two calls of it
  | putting (ps : List Put)
  -- the walk is over
  | walked (rc : Int)
  -- in `compacting_toggle_write_buffers`, before it holds the mutex
  | toggling (k : Caller)
  | waiting (k : Caller)
  -- out of the wait, before it holds the mutex again
  | woken (k : Caller)
  -- behind the unlock, before it reads `ctx->error`
  | leaving (k : Caller)
  | joining (rc : Int)
  | returned (rc : Int)

inductive Writer where
  | starting
  | locking
  | waiting
  | woken
  -- with the mutex, in the call that writes the first `wsize` bytes of the buffer of `tail`
  | writing (wsize : Nat)
  | exited
  deriving DecidableEq

/-- The fields of `ctx_t`, the two threads and the destination. -/
structure State where
  head : Nat
  tail : Nat
  writeBuf : Nat → List UInt8
  writeLen : Nat → Nat
  error : Int
  writeOffset : Nat
  walker : Walker
  writer : Writer
  /-- The destination file, or everything that went into the pipe. -/
  file : List UInt8

/-- `unsigned` arithmetic. -/
def wrap (n : Nat) : Nat := n % 4294967296

/-- `ctx->head - ctx->tail` -/
def State.used (s : State) : Nat := wrap (s.head + (4294967296 - s.tail))

def State.side (s : State) : Nat := s.head % 2

def State.toggle (s : State) : Nat := s.tail % 2

/-- UINT64_MAX. -/
def uint64Max : Nat := 18446744073709551615

/-- MDBX_EINVAL. -/
def mdbxEinval : Int := 22

/-- `copy_with_compacting` before the writer's thread starts: `write_offset` is the size of the meta
pages. -/
def start (c : Conf) (ps : List Put) (metaBytes : Nat) (file : List UInt8) : State where
  head := 0
  tail := 0
  writeBuf := fun _ => List.replicate c.writeBufSize 0
  writeLen := fun _ => 0
  error := 0
  writeOffset := metaBytes
  walker := .putting ps
  writer := .starting
  file := file

/-! ## 4. Writer -/

/-- `osal_condpair_signal(&ctx->condpair, false)` -/
def signalWalker (s : State) : State :=
  match s.walker with
  | .waiting k => { s with walker := .woken k }
  | _ => s

/-- `osal_condpair_signal(&ctx->condpair, true)` -/
def signalWriter (s : State) : State :=
  match s.writer with
  | .waiting => { s with writer := .woken }
  | _ => s

/-- Behind the inner loop; a set error ends the outer one in the next round. -/
def takeBuffer (s : State) : State :=
  if s.writeLen s.toggle = 0 then { s with tail := wrap (s.tail + 1), writer := .exited }
  else if s.error = 0 then
    { s with
      writeLen := Function.update s.writeLen s.toggle 0
      writer := .writing (s.writeLen s.toggle) }
  else
    { signalWalker { s with
        writeLen := Function.update s.writeLen s.toggle 0
        tail := wrap (s.tail + 1) } with writer := .exited }

/-- The inner loop of `compacting_write_thread`. -/
def awaitBuffer (s : State) : State :=
  if s.tail = s.head ∧ s.error = 0 then { s with writer := .waiting } else takeBuffer s

/-- Its outer loop. -/
def writeLoop (s : State) : State :=
  if s.error = 0 then awaitBuffer s else { s with writer := .exited }

/-- `osal_write` to a pipe appends, `copy_pwrite` puts the bytes at `write_offset`. -/
def send (c : Conf) (s : State) (bytes : List UInt8) : List UInt8 :=
  if c.writeWithOffset then poke s.file s.writeOffset bytes else s.file ++ bytes

/-- The write went through. -/
def wrote (c : Conf) (s : State) (wsize : Nat) : State :=
  let sent := { s with file := send c s ((s.writeBuf s.toggle).take wsize) }
  if c.writeWithOffset then
    if uint64Max - s.writeOffset < wsize then { sent with error := mdbxEinval, writer := .exited }
    else writeLoop (signalWalker { sent with
      writeOffset := s.writeOffset + wsize, tail := wrap (s.tail + 1) })
  else writeLoop (signalWalker { sent with tail := wrap (s.tail + 1) })

/-- One step of `compacting_write_thread`: `err` is what `pthread_sigmask`, the wait or the write
returned, and `n` is how much a failed write has sent nevertheless. -/
def writerStep (c : Conf) (s : State) (err : Int) (n : Nat) : Option State :=
  match s.writer with
  | .starting => some { s with error := err, writer := .locking }
  | .locking => some (writeLoop s)
  | .waiting => none
  | .woken =>
    some (if err = 0 then awaitBuffer s else { s with error := err, writer := .exited })
  | .writing wsize =>
    if err = 0 then some (wrote c s wsize)
    else some { s with
      file := send c s (((s.writeBuf s.toggle).take wsize).take n), error := err, writer := .exited }
  | .exited => none

/-! ## 5. Walker -/

/-- The loop of `compacting_toggle_write_buffers`. -/
def awaitSide (s : State) (k : Caller) : State :=
  if s.error = 0 ∧ s.used = 2 then { s with walker := .waiting k }
  else { s with walker := .leaving k }

def compactingToggleWriteBuffers (s : State) (k : Caller) : State :=
  awaitSide (signalWriter { s with head := wrap (s.head + 1) }) k

/-- A round of the loop of `compacting_put_bytes`. -/
def compactingPutBytes (c : Conf) (s : State) (p : Put) (ps : List Put) : State :=
  if p.bytes = 0 then { s with walker := .putting ps }
  else
    let left := c.writeBufSize - s.writeLen s.side
    if left < (if p.pgno ≠ 0 then pageHdrSz else 1) then
      { s with walker := .toggling (.put (p :: ps)) }
    else
      let chunk := if p.bytes < left then p.bytes else left
      { s with
        writeBuf := Function.update s.writeBuf s.side
          (poke (s.writeBuf s.side) (s.writeLen s.side) (p.chunk c.txnid chunk))
        writeLen := Function.update s.writeLen s.side (s.writeLen s.side + chunk)
        walker := .putting (p.advance chunk :: ps) }

/-- The value of `compacting_toggle_write_buffers` goes to its caller. -/
def toggled (s : State) : Caller → Walker
  | .put ps => if s.error = 0 then .putting ps else .walked s.error
  | .flush rc => .toggling (.eof rc)
  | .eof rc => .joining rc

/-- The return statements of `copy_with_compacting`. -/
def result (s : State) (threadErr rc : Int) : Int :=
  if threadErr ≠ 0 then threadErr else if rc ≠ 0 then rc else s.error

def mutexFree (s : State) : Prop :=
  match s.writer with
  | .writing _ => False
  | _ => True

instance (s : State) : Decidable (mutexFree s) := by
  unfold mutexFree
  exact match s.writer with
  | .writing _ => isFalse id
  | .starting | .locking | .waiting | .woken | .exited => isTrue trivial

/-- One step of the thread that copies: `err` is what the wait returned (or the unpark behind it, with
MDBX_CP_THROTTLE_MVCC), or `osal_thread_join`. -/
def walkerStep (c : Conf) (s : State) (err : Int) : Option State :=
  match s.walker with
  | .putting [] => some { s with walker := .walked c.walkRc }
  | .putting (p :: ps) => some (compactingPutBytes c s p ps)
  | .walked rc =>
    if s.writeLen s.side ≠ 0 then some { s with walker := .toggling (.flush rc) }
    else some { s with walker := .toggling (.eof rc) }
  | .toggling k => if mutexFree s then some (compactingToggleWriteBuffers s k) else none
  | .waiting _ => none
  | .woken k =>
    if mutexFree s then
      some (awaitSide (if err = 0 then s else { s with error := err }) k)
    else none
  | .leaving k => some { s with walker := toggled s k }
  | .joining rc =>
    if s.writer = .exited then some { s with walker := .returned (result s err rc) } else none
  | .returned _ => none

/-! ## 6. Steps -/

inductive Event where
  | walker (err : Int)
  | writer (err : Int) (n : Nat)
  -- a thread leaves its wait although nothing was signalled
  | wakeWalker
  | wakeWriter

def step (c : Conf) (s : State) : Event → Option State
  | .walker err => walkerStep c s err
  | .writer err n => writerStep c s err n
  | .wakeWalker => some (signalWalker s)
  | .wakeWriter => some (signalWriter s)

/-- `starting` is the only state of the writer's thread in which it sets `ctx->error` without the
mutex; an error that was set before would be lost. -/
def Prompt (s : State) : Event → Prop
  | .writer _ _ => s.writer = .starting → s.error = 0
  | _ => True

end Mdbx.Copy
