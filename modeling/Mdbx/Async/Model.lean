import Mathlib.Data.List.Basic

/-!
# Async.Model — the executor's queue, its worker and the threads that wait on its condpair

Every stretch between two releases of the condpair mutex is one step.  `cond[0]` holds the waiting
callers and `cond[1]` the worker; a signal wakes one blocked thread of its condition, which one is
part of the event, and threads may also wake with no signal.
-/

namespace Mdbx.Async

/-! ## 1. State -/

/-- The fields of `MDBX_async_op` that the queue and the waiting calls use.  A recycled operation is
prepared anew, so each submission has a handle of its own. -/
structure Op where
  seq : Nat
  done : Bool
  signature : Bool

/-- The calls that may block on `cond[0]`. -/
inductive Call where
  | wait (op : Nat)
  | waitAll (ops : List Nat)
  | waitReleaseAll (ops : List Nat)
  | drain
  deriving DecidableEq

/-- A thread between `async_wait_enter` and `async_wait_leave`, with the target it entered with. -/
structure Waiter where
  thread : Nat
  call : Call
  target : Nat
  deriving DecidableEq

inductive Worker where
  -- asleep in `osal_condpair_wait(&async->condpair, true)`
  | waiting
  -- out of the wait, before it holds the mutex again
  | awake
  -- outside the mutex with the operations of its snapshot that are not done yet
  | running (rest : List Nat)
  | exited
  deriving DecidableEq

/-- `waiters`, `untargeted_waiters` and `min_wait_seq` of `MDBX_async`. -/
structure Counts where
  waiters : Nat
  untargetedWaiters : Nat
  minWaitSeq : Nat
  deriving DecidableEq

structure State where
  /-- `signature`: false once the executor was destroyed. -/
  signature : Bool
  ops : Nat → Op
  fresh : Nat
  /-- The chain from `head` to `tail`. -/
  queue : List Nat
  refs : Nat
  counts : Counts
  nextSeq : Nat
  completedSeq : Nat
  active : Bool
  stop : Bool
  -- a caller of `mdbx_async_destroy` is in `osal_thread_join`
  joining : Bool
  worker : Worker
  /-- Threads blocked on `cond[0]` that no signal has reached. -/
  blocked : List Waiter
  /-- Threads out of the wait on `cond[0]` that do not hold the mutex yet. -/
  woken : List Waiter

/-- MDBX_ASYNC_COMPLETE_CHUNK. -/
def completeChunk : Nat := 16

/-- `mdbx_async_create` -/
def create : State where
  signature := true
  ops := fun _ => ⟨0, false, false⟩
  fresh := 0
  queue := []
  refs := 0
  counts := ⟨0, 0, 0⟩
  nextSeq := 0
  completedSeq := 0
  active := false
  stop := false
  joining := false
  worker := .awake
  blocked := []
  woken := []

/-! ## 2. Waiters -/

def asyncWaitEnter (c : Counts) (target : Nat) : Counts :=
  if target = 0 then
    { c with waiters := c.waiters + 1, untargetedWaiters := c.untargetedWaiters + 1 }
  else if c.minWaitSeq = 0 ∨ target < c.minWaitSeq then
    { c with waiters := c.waiters + 1, minWaitSeq := target }
  else
    { c with waiters := c.waiters + 1 }

/-- `--async->waiters == 0` forgets every target. -/
def leaveLast (c : Counts) : Counts :=
  if c.waiters - 1 = 0 then ⟨0, 0, 0⟩ else { c with waiters := c.waiters - 1 }

def asyncWaitLeave (c : Counts) (target : Nat) : Counts :=
  if target ≠ 0 then leaveLast c
  else leaveLast { c with untargetedWaiters := c.untargetedWaiters - 1 }

/-- `osal_condpair_signal(&async->condpair, false)`: the blocked thread at `pick` wakes, if any
thread is blocked. -/
def signalCaller (s : State) (pick : Nat) : Option State :=
  match s.blocked[pick]? with
  | some w => some { s with blocked := s.blocked.eraseIdx pick, woken := s.woken ++ [w] }
  | none => if s.blocked = [] then some s else none

/-- `osal_condpair_signal(&async->condpair, true)` -/
def signalWorker (s : State) : State :=
  if s.worker = .waiting then { s with worker := .awake } else s

def wantsSignal (c : Counts) (completedSeq : Nat) (includeUntargeted : Bool) : Prop :=
  c.waiters ≠ 0 ∧ ((includeUntargeted = true ∧ c.untargetedWaiters ≠ 0) ∨
    (c.minWaitSeq ≠ 0 ∧ c.minWaitSeq ≤ completedSeq))

instance (c : Counts) (n : Nat) (b : Bool) : Decidable (wantsSignal c n b) :=
  inferInstanceAs (Decidable (_ ∧ _))

def asyncSignalWaiters (s : State) (includeUntargeted : Bool) (pick : Nat) : Option State :=
  if wantsSignal s.counts s.completedSeq includeUntargeted then signalCaller s pick else some s

/-! ## 3. Submission -/

/-- The chain grows by `count` fresh operations, each with the next sequence number. -/
def enqueue (s : State) (count : Nat) : State :=
  { s with
    ops := fun h => if s.fresh ≤ h ∧ h < s.fresh + count
      then ⟨s.nextSeq + (h - s.fresh) + 1, false, true⟩ else s.ops h
    fresh := s.fresh + count
    queue := s.queue ++ List.range' s.fresh count
    nextSeq := s.nextSeq + count
    refs := s.refs + count }

def wakeWorker (s : State) : Prop := s.queue = [] ∧ s.active = false

instance (s : State) : Decidable (wakeWorker s) := inferInstanceAs (Decidable (_ ∧ _))

/-- `signalled` is whether the signal to the worker went through.  A failed call takes the operation
back out of the chain, but not its number. -/
def asyncOpEnqueue (s : State) (signalled : Bool) : State :=
  if s.stop then s
  else if wakeWorker s then
    if signalled then signalWorker (enqueue s 1) else { s with nextSeq := s.nextSeq + 1 }
  else enqueue s 1

/-- Unlike `asyncOpEnqueue`, a failed call restores `next_seq`. -/
def asyncOpsEnqueue (s : State) (count : Nat) (signalled : Bool) : State :=
  if s.stop ∨ count = 0 then s
  else if wakeWorker s then
    if signalled then signalWorker (enqueue s count) else s
  else enqueue s count

/-! ## 4. Waiting calls -/

/-- Every handle of the array has its signature. -/
def checked (s : State) (ops : List Nat) : Prop := ∀ h ∈ ops, (s.ops h).signature = true

instance (s : State) (ops : List Nat) : Decidable (checked s ops) :=
  inferInstanceAs (Decidable (∀ h ∈ ops, _))

def maxSeq (s : State) (ops : List Nat) : Nat := ops.foldr (fun h m => max (s.ops h).seq m) 0

def asyncOpsReleaseLocked (s : State) (ops : List Nat) : State :=
  if checked s ops ∧ ops.Nodup ∧ (∀ h ∈ ops, (s.ops h).done = true) ∧ ops.length ≤ s.refs then
    { s with
      ops := fun h => if h ∈ ops then { s.ops h with signature := false } else s.ops h
      refs := s.refs - ops.length }
  else s

/-- The end of `mdbx_async_destroy`: the worker is told to stop. -/
def destroyTail (s : State) : State :=
  if s.refs ≠ 0 then s else signalWorker { s with stop := true, joining := true }

/-- The condition of the call's `while` loop. -/
def Waiter.pending (s : State) (w : Waiter) : Bool :=
  match w.call with
  | .wait op => !(s.ops op).done
  | .waitAll _ | .waitReleaseAll _ => decide (s.completedSeq < w.target)
  | .drain => !s.queue.isEmpty || s.active

/-- What the call does behind its loop. -/
def finish (s : State) (w : Waiter) : State :=
  match w.call with
  | .wait _ | .waitAll _ => s
  | .waitReleaseAll ops => asyncOpsReleaseLocked s ops
  | .drain => destroyTail s

/-- The first round of the loop. -/
def await (s : State) (w : Waiter) : State :=
  if w.pending s then
    { s with counts := asyncWaitEnter s.counts w.target, blocked := s.blocked ++ [w] }
  else finish s w

/-- The thread leaves the loop. -/
def leave (s : State) (w : Waiter) : State :=
  { s with counts := asyncWaitLeave s.counts w.target }

/-- A woken thread holds the mutex again; `ok` is false when its wait returned an error. -/
def resume (s : State) (i : Nat) (ok : Bool) : Option State :=
  s.woken[i]?.map fun w =>
    if ok = false then leave { s with woken := s.woken.eraseIdx i } w
    else if w.pending s then
      { s with woken := s.woken.eraseIdx i, blocked := s.blocked ++ [w] }
    else finish (leave { s with woken := s.woken.eraseIdx i } w) w

def mdbxAsyncWait (s : State) (thread op : Nat) : State :=
  if (s.ops op).signature then await s ⟨thread, .wait op, (s.ops op).seq⟩ else s

def mdbxAsyncWaitAll (s : State) (thread : Nat) (ops : List Nat) : State :=
  if checked s ops ∧ ops ≠ [] then await s ⟨thread, .waitAll ops, maxSeq s ops⟩ else s

def mdbxAsyncWaitReleaseAll (s : State) (thread : Nat) (ops : List Nat) : State :=
  if checked s ops ∧ ops ≠ [] then await s ⟨thread, .waitReleaseAll ops, maxSeq s ops⟩ else s

def mdbxAsyncDestroy (s : State) (thread : Nat) (drain : Bool) : State :=
  if drain then await s ⟨thread, .drain, 0⟩
  else if s.queue ≠ [] ∨ s.active = true ∨ s.refs ≠ 0 then s
  else destroyTail s

/-! ## 5. Worker -/

/-- The head of the worker's endless loop, under the mutex. -/
def loopTop (s : State) : State :=
  if s.queue ≠ [] then
    { s with worker := .running s.queue, queue := [], active := true }
  else if s.stop then { s with worker := .exited }
  else { s with worker := .waiting }

/-- The worker is back from its wait, with an error when `ok` is false. -/
def workerWakes (s : State) (ok : Bool) : Option State :=
  if s.worker = .awake then
    if ok then some (loopTop s) else some (loopTop { s with stop := true })
  else none

/-- The operations of the chunk are flagged and the last of them gives `completed_seq`. -/
def markDone (s : State) (chunk : List Nat) : State :=
  { s with
    ops := fun h => if h ∈ chunk then { s.ops h with done := true } else s.ops h
    completedSeq := match chunk.getLast? with
      | some h => (s.ops h).seq
      | none => s.completedSeq }

/-- The worker has executed the next `n` operations of its snapshot and takes the mutex. -/
def completeFrom (s : State) (rest : List Nat) (n pick : Nat) : Option State :=
  let done := markDone s (rest.take n)
  if rest.drop n = [] then
    (asyncSignalWaiters { done with active := false, worker := .awake } true pick).map loopTop
  else
    asyncSignalWaiters { done with worker := .running (rest.drop n) } false pick

def complete (s : State) (n pick : Nat) : Option State :=
  match s.worker with
  | .running rest =>
    if 0 < n ∧ n ≤ rest.length ∧ n ≤ completeChunk then completeFrom s rest n pick else none
  | _ => none

/-! ## 6. Steps -/

inductive Event where
  | submit (signalled : Bool)
  | submitMany (count : Nat) (signalled : Bool)
  | wait (thread op : Nat)
  | waitAll (thread : Nat) (ops : List Nat)
  | waitReleaseAll (thread : Nat) (ops : List Nat)
  | release (ops : List Nat)
  | destroy (thread : Nat) (drain : Bool)
  -- `osal_thread_join` came back and the executor is freed
  | free
  -- a thread leaves its wait although nothing was signalled
  | spurious (pick : Nat)
  | spuriousWorker
  | resume (i : Nat) (ok : Bool)
  | workerWakes (ok : Bool)
  | complete (n pick : Nat)

/-- A thread makes one call at a time. -/
def idleThread (s : State) (thread : Nat) : Prop :=
  thread ∉ (s.blocked ++ s.woken).map Waiter.thread

instance (s : State) (t : Nat) : Decidable (idleThread s t) := inferInstanceAs (Decidable (_ ∉ _))

def step (s : State) (e : Event) : Option State :=
  if s.signature = false then none
  else match e with
    | .submit signalled => some (asyncOpEnqueue s signalled)
    | .submitMany count signalled => some (asyncOpsEnqueue s count signalled)
    | .wait thread op => if idleThread s thread then some (mdbxAsyncWait s thread op) else none
    | .waitAll thread ops =>
      if idleThread s thread then some (mdbxAsyncWaitAll s thread ops) else none
    | .waitReleaseAll thread ops =>
      if idleThread s thread then some (mdbxAsyncWaitReleaseAll s thread ops) else none
    | .release ops => some (asyncOpsReleaseLocked s ops)
    | .destroy thread drain =>
      if idleThread s thread then some (mdbxAsyncDestroy s thread drain) else none
    | .free =>
      if s.joining = true ∧ s.worker = .exited then some { s with signature := false } else none
    | .spurious pick => if s.blocked[pick]?.isSome then signalCaller s pick else none
    | .spuriousWorker => some (signalWorker s)
    | .resume i ok => resume s i ok
    | .workerWakes ok => workerWakes s ok
    | .complete n pick => complete s n pick

def exec (s : State) : List Event → Option State
  | [] => some s
  | e :: es => (step s e).bind fun s' => exec s' es

end Mdbx.Async
