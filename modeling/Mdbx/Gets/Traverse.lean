import Mdbx.Gets.Tree
import Mdbx.Lib.Lanes

/-!
# Gets.Traverse — the batched traversal

The keys descend level by level, and the pages of a level are read in one batch.  A lane is what the
arrays of `async_batched_get_traverse_state_t` have at one index, and a level has the indices and
requests of a batch.  Allocations succeed.
-/

namespace Mdbx.Gets

open Mdbx.Cached (Entry Bytes cacheStoreEntryIo)
open Mdbx.Lanes (collect scatter)

structure Lane where
  key : Bytes
  eligible : Bool
  initialized : Bool
  handled : Bool
  -- `pg[top]` first
  stack : List Page
  result : Code
  data : Value
  -- what `store_result` has put into the slot of the lane, if there is one
  stored : Option Entry

/-- What the lanes have in common. -/
structure Args where
  cfg : Config
  src : Source
  -- `txn_basis_snapshot`
  basis : Nat
  kvx : Kvx
  root : Root

inductive Phase where
  | done
  | rootRead
  | rootConsume
  | childPrepare
  | childRead
  | childConsume
  | seek
  | largeRead
  | largeConsume
  deriving DecidableEq, Repr

structure Trav where
  lanes : List Lane
  level : List (Nat × Get)
  pgrs : List (Except Code Page)
  phase : Phase
  -- for the batches of pages to come: how often driving one returns `MDBX_RESULT_TRUE`
  waits : List Nat

/-! ## 1. One lane -/

def Lane.fail (l : Lane) (code : Code) : Lane := { l with result := code, handled := true }

/-- The loop body of `async_batched_get_traverse_begin`. -/
def beginLane (a : Args) (l : Lane) : Lane × Option Get :=
  if ¬l.eligible ∨ l.handled then (l, none)
  else
    let l := { l with data := .none, initialized := true }
    match a.root.root with
    | none => (l.fail .notFound, none)
    | some root =>
      match makeGet a.src false root a.root.txnid with
      | .error code => (l.fail code, none)
      | .ok g => (l, some g)

/-- `async_batched_get_traverse_consume_root` -/
def consumeRoot (pgr : Except Code Page) (l : Lane) : Lane :=
  match pgr with
  | .error code => l.fail code
  | .ok p => { l with stack := [p] }

/-- The loop body of `async_batched_get_traverse_prepare_child`. -/
def prepareChild (a : Args) (l : Lane) : Lane × Option Get :=
  if ¬l.initialized ∨ l.handled then (l, none)
  else
    match l.stack with
    | [] => (l.fail .einval, none)
    | p :: _ =>
      match p.body with
      | .branch nodes =>
        match branchChildGet a.src p nodes (treeSearchBranch a.kvx nodes l.key) with
        | .error code => (l.fail code, none)
        | .ok g => (l, some g)
      | _ => (l, none)

/-- `async_batched_get_traverse_consume_child` -/
def consumeChild (pgr : Except Code Page) (l : Lane) : Lane :=
  match pgr with
  | .error code => l.fail code
  | .ok p =>
    if cursorStackSize ≤ l.stack.length then l.fail .cursorFull
    else { l with stack := p :: l.stack }

/-- The entry for a value in the leaf `mp`, unless the leaf is dirty. -/
def storeEntry (a : Args) (mp : Page) (node : Node) (value : Value) : Option Entry :=
  if node.dup = false ∧ mp.txnid ≤ a.basis then
    cacheStoreEntryIo value.offset value.length mp.txnid a.basis
  else none

/-- `async_batched_get_traverse_store_result` -/
def storeResult (a : Args) (l : Lane) (mp : Page) (node : Node) (r : Except Code Value) : Lane :=
  match r with
  | .error code => { l with result := code, data := .none, handled := true }
  | .ok value =>
    { l with
      result := .success
      data := value
      handled := true
      stored := storeEntry a mp node value }

def storeError (l : Lane) (code : Code) : Lane :=
  { l with result := code, data := .none, handled := true }

/-- The loop body of `async_batched_get_traverse_seek_complete`. -/
def seekLane (a : Args) (l : Lane) : Lane × Option Get :=
  if ¬l.initialized ∨ l.handled then (l, none)
  else
    match checkKey a.kvx l.key with
    | .success =>
      match l.stack with
      | [] => (storeError l .corrupted, none)
      | mp :: _ =>
        match mp.body with
        | .leaf nodes =>
          let sr := treeSearchFoliage a.kvx nodes l.key
          if ¬sr.2 then (storeError l .notFound, none)
          else
            match nodes[sr.1]? with
            | none => (storeError l .corrupted, none)
            | some node =>
              -- `cursor_seek` does not expect duplicates in the table
              if node.dup then (storeError l .corrupted, none)
              else if node.big then
                match makeGet a.src true node.largePgno mp.txnid with
                | .error code => (storeError l code, none)
                | .ok g => ({ l with data := ⟨0, node.len, []⟩ }, some g)
              else (storeResult a l mp node (nodeRead a.cfg a.src mp node), none)
        | _ => (storeError l .corrupted, none)
    | code => (storeError l code, none)

/-- The leaf and node the lane is at. -/
def Lane.at? (a : Args) (l : Lane) : Option (Page × Node) :=
  match l.stack with
  | [] => none
  | mp :: _ =>
    match mp.body with
    | .leaf nodes => (nodes[(treeSearchFoliage a.kvx nodes l.key).1]?).map fun node => (mp, node)
    | _ => none

/-- `async_batched_get_traverse_consume_large` -/
def consumeLarge (a : Args) (pgr : Except Code Page) (l : Lane) : Lane :=
  match pgr with
  | .error code => storeError l code
  | .ok large =>
    match l.at? a with
    | none => storeError l .corrupted
    | some (mp, node) => storeResult a l mp node (largeValue a.cfg l.data.length large)

/-! ## 2. The phases -/

def Trav.startPageBatch (t : Trav) (pass : List Lane × List (Nat × Get)) (phase : Phase) : Trav :=
  { t with lanes := pass.1, level := pass.2, phase := phase }

/-- `async_batched_get_traverse_begin` -/
def Trav.begin (a : Args) (lanes : List Lane) (waits : List Nat) : Trav :=
  let pass := collect (beginLane a) 0 lanes
  let phase := if pass.2.isEmpty then .seek else .rootRead
  Trav.startPageBatch ⟨lanes, [], [], .done, waits⟩ pass phase

/-- `async_batched_get_traverse_drive_page_batch`, called until the batch is complete. -/
def Trav.drivePageBatch (a : Args) (t : Trav) (next : Phase) : Trav :=
  match t.waits with
  | (n + 1) :: waits => { t with waits := n :: waits }
  | waits =>
    { t with
      pgrs := t.level.map fun item => submitGet a.src item.2
      waits := waits.tail
      phase := next }

def Trav.consume (t : Trav) (f : Except Code Page → Lane → Lane) (next : Phase) : Trav :=
  let items := List.zipWith (fun item pgr => (item.1, pgr)) t.level t.pgrs
  { t with lanes := scatter f items t.lanes, phase := next }

/-- A round of `async_batched_get_traverse_drive`. -/
def Trav.step (a : Args) (t : Trav) : Trav :=
  match t.phase with
  | .rootRead => t.drivePageBatch a .rootConsume
  | .rootConsume => t.consume consumeRoot .childPrepare
  | .childPrepare =>
    let pass := collect (prepareChild a) 0 t.lanes
    t.startPageBatch pass (if pass.2.isEmpty then .seek else .childRead)
  | .childRead => t.drivePageBatch a .childConsume
  | .childConsume => t.consume consumeChild .childPrepare
  | .seek =>
    let pass := collect (seekLane a) 0 t.lanes
    t.startPageBatch pass (if pass.2.isEmpty then .done else .largeRead)
  | .largeRead => t.drivePageBatch a .largeConsume
  | .largeConsume => t.consume (consumeLarge a) .done
  | .done => t

def Trav.drive (a : Args) : Nat → Trav → Trav
  | 0, t => t
  | fuel + 1, t => if t.phase = .done then t else Trav.drive a fuel (t.step a)

/-- Rounds that are enough for any tree. -/
def Trav.rounds (waits : List Nat) : Nat := waits.sum + 3 * cursorStackSize + 8

/-- `async_batched_get_traverse_stateful` -/
def traverse (a : Args) (lanes : List Lane) (waits : List Nat) : Trav :=
  Trav.drive a (Trav.rounds waits) (Trav.begin a lanes waits)

end Mdbx.Gets
