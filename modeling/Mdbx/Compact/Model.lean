import Mathlib.Data.List.Basic
import Mathlib.Tactic.Common
import Mathlib.Algebra.Order.Ring.Nat

/-!
# Compact.Model — the walk of a compacting copy

The walk reads the trees of a snapshot from the leaves up and puts each page behind the ones it has
put before.  Only the numbers in the copied pages differ: those of the children in a branch, of the
large pages in a leaf, and the roots in the records of the nested trees.
-/

namespace Mdbx.Compact

abbrev Bytes := List UInt8

/-! ## 1. Trees and pages -/

/-- The part of a `tree_t` that says what the tree is opened with. -/
structure Schema where
  dupSort : Bool
  dupFixed : Bool
  dupfixSize : Nat
  -- the rest of `flags`
  flags : Nat
  -- the counters and the sequence
  other : Bytes
  deriving DecidableEq

/-- `tree_t`; the root is `none` for `P_INVALID`. -/
structure Tree where
  root : Option Nat
  height : Nat
  modTxnid : Nat
  schema : Schema
  deriving DecidableEq

/-- Sizeof(tree_t). -/
def sizeofTree : Nat := 48

/-- What a node of a leaf holds: a value or a sub-page, `N_BIG`, or `N_TREE` with or without `N_DUP`;
`size` is `node_ds`. -/
inductive Data where
  | plain (bytes : Bytes)
  | big (size pgno : Nat)
  | tree (dup : Bool) (size : Nat) (t : Tree)
  deriving DecidableEq

structure Node where
  key : Bytes
  data : Data
  deriving DecidableEq

inductive Body where
  | branch (nodes : List (Bytes × Nat))
  | leaf (nodes : List Node)
  | dupfix (keys : List Bytes)
  deriving DecidableEq

structure Page where
  txnid : Nat
  body : Body
  deriving DecidableEq

/-- A large page and all bytes behind its header. -/
structure Large where
  txnid : Nat
  bytes : Bytes
  deriving DecidableEq

/-- What the walk reads with: the pages of the snapshot by number, which may depend on the newest txnid
they may have, and what is known of a tree that was opened. -/
structure Reader where
  txnid : Nat
  pageSize : Nat
  page : Nat → Nat → Except Int Page
  large : Nat → Nat → Except Int Large
  -- `tbl_setup_ifneed`
  tblSetup : Schema → Int
  -- `clc->v.lmin` and `clc->v.lmax` behind it
  valueBounds : Schema → Nat × Nat

def mdbxCorrupted : Int := -30796

def mdbxPageNotfound : Int := -30797

def mdbxCursorFull : Int := -30787

def mdbxEinval : Int := 22

/-- CURSOR_STACK_SIZE. -/
def cursorStackSize : Nat := 32

/-- PAGEHDRSZ. -/
def pageHdrSz : Nat := 20

def largechunkNpages (pageSize bytes : Nat) : Nat := (pageHdrSz - 1 + bytes) / pageSize + 1

/-- The leaves that `page_check` lets a cursor see, with or without `z_dupfix`. -/
def Body.fits (dupfix : Bool) : Body → Bool
  | .branch _ => true
  | .leaf _ => !dupfix
  | .dupfix _ => dupfix

/-- A page for a parent of the txnid `front`: `check_page_header` refuses one that is newer. -/
def Reader.pageAt (R : Reader) (pgno front : Nat) : Except Int Page :=
  match R.page pgno front with
  | .error err => .error err
  | .ok p => if front < p.txnid then .error mdbxCorrupted else .ok p

def Reader.largeAt (R : Reader) (pgno front : Nat) : Except Int Large :=
  match R.large pgno front with
  | .error err => .error err
  | .ok l => if front < l.txnid then .error mdbxCorrupted else .ok l

def pageGet (R : Reader) (dupfix : Bool) (pgno front : Nat) : Except Int Page :=
  match R.pageAt pgno front with
  | .error err => .error err
  | .ok p => if p.body.fits dupfix then .ok p else .error mdbxCorrupted

/-! ## 2. The pages that were put -/

inductive Put where
  | page (p : Page)
  | large (l : Large)
  deriving DecidableEq

/-- A page without a txnid gets the one of the snapshot. -/
def dateOf (txnid t : Nat) : Nat := if t = 0 then txnid else t

def Put.dated (txnid : Nat) : Put → Put
  | .page p => .page { p with txnid := dateOf txnid p.txnid }
  | .large l => .large { l with txnid := dateOf txnid l.txnid }

structure Emit where
  pgno : Nat
  npages : Nat
  put : Put
  deriving DecidableEq

/-- The fields of `ctx_t` that the walk uses, and what went to `compacting_put_page`.  A put that
fails ends the walk. -/
structure Ctx where
  firstUnallocated : Nat
  out : List Emit

def compactingPutPage (R : Reader) (ctx : Ctx) (put : Put) (npages : Nat) : Ctx :=
  ⟨ctx.firstUnallocated + npages, ctx.out ++ [⟨ctx.firstUnallocated, npages, put.dated R.txnid⟩]⟩

/-! ## 3. The stack -/

structure Frame where
  page : Page
  ki : Nat
  deriving DecidableEq

/-- `node_set_pgno(page_node(mp, ki), pgno)` -/
def Frame.setPgno (f : Frame) (pgno : Nat) : Frame :=
  match f.page.body with
  | .branch nodes =>
    { f with page := ⟨f.page.txnid, .branch (nodes.modify f.ki fun node => (node.1, pgno))⟩ }
  | _ => f

/-- Down along the left edge from the child at `ki` to a leaf; there is room for that many pages. -/
def downLeft (R : Reader) (dupfix : Bool) : Nat → Frame → List Frame →
    Except Int (Frame × List Frame)
  | room, top, rest =>
    match top.page.body with
    | .branch nodes =>
      match nodes[top.ki]? with
      | none => .error mdbxEinval
      | some node =>
        match pageGet R dupfix node.2 top.page.txnid with
        | .error err => .error err
        | .ok child =>
          match room with
          | 0 => .error mdbxCursorFull
          | room + 1 => downLeft R dupfix room ⟨child, 0⟩ (top :: rest)
    | _ => .ok (top, rest)

/-- With Z_FIRST. -/
def treeDeepenEdge (R : Reader) (dupfix : Bool) (root : Page) : Except Int (Frame × List Frame) :=
  downLeft R dupfix (cursorStackSize - 1) ⟨root, 0⟩ []

/-! ## 4. The walk of one tree -/

inductive Stop where
  | rc (err : Int)
  -- the bounds of the model on the rounds and on the nesting
  | fuel
  deriving DecidableEq

/-- The state of the loop of `compacting_walk`. -/
structure Walk where
  top : Frame
  rest : List Frame
  ctx : Ctx
  -- of the cursor
  tree : Tree

inductive Next where
  | go (w : Walk)
  | done (ctx : Ctx) (tree : Tree) (pgno : Nat)

/-- The page at the top of the stack is put, and its parent is told where. -/
def putUp (R : Reader) (mp : Page) (rest : List Frame) (ctx : Ctx) (tree : Tree) : Next :=
  match rest with
  | [] => .done (compactingPutPage R ctx (.page mp) 1) tree ctx.firstUnallocated
  | parent :: rest =>
    .go ⟨parent.setPgno ctx.firstUnallocated, rest, compactingPutPage R ctx (.page mp) 1, tree⟩

abbrev LeafPass := Ctx → Tree → Page → Except Stop (Ctx × Tree × Page)

/-- A round of the loop; `limit` is `deep_limit`. -/
def walkStep (R : Reader) (dupfix : Bool) (limit : Nat) (leaf : LeafPass) (w : Walk) :
    Except Stop Next :=
  match w.top.page.body with
  | .branch nodes =>
    if w.top.ki + 1 < nodes.length then
      match downLeft R dupfix (limit - (w.rest.length + 1)) { w.top with ki := w.top.ki + 1 }
          w.rest with
      | .error err => .error (.rc err)
      | .ok (top, rest) => .ok (.go { w with top := top, rest := rest })
    else .ok (putUp R w.top.page w.rest w.ctx w.tree)
  | _ =>
    match leaf w.ctx w.tree w.top.page with
    | .error stop => .error stop
    | .ok (ctx, tree, mp) => .ok (putUp R mp w.rest ctx tree)

def walkLoop (step : Walk → Except Stop Next) : Nat → Walk → Except Stop (Ctx × Tree × Nat)
  | 0, _ => .error .fuel
  | n + 1, w =>
    match step w with
    | .error stop => .error stop
    | .ok (.go w) => walkLoop step n w
    | .ok (.done ctx tree pgno) => .ok (ctx, tree, pgno)

/-! ## 5. Leaves and nested trees -/

/-- The node has N_DUP and N_TREE; a `dupfix_size` that the tree lacks is learned from it. -/
def cursorDupsortSetup (R : Reader) (tree : Tree) (txnid size : Nat) (nested : Tree) :
    Except Int Tree :=
  if ¬ tree.schema.dupSort then .error mdbxCorrupted
  else if size ≠ sizeofTree then .error mdbxCorrupted
  else if txnid < nested.modTxnid then .error mdbxCorrupted
  else if nested.schema.dupfixSize ≠ tree.schema.dupfixSize then
    if tree.schema.dupfixSize ≠ 0 then .error mdbxCorrupted
    else if ¬ tree.schema.dupFixed then .error mdbxCorrupted
    else if nested.schema.dupfixSize < (R.valueBounds tree.schema).1 ∨
        (R.valueBounds tree.schema).2 < nested.schema.dupfixSize then .error mdbxCorrupted
    else .ok { tree with schema := { tree.schema with dupfixSize := nested.schema.dupfixSize } }
  else .ok tree

/-- `compacting_walk` of a nested tree: whether the cursor is `z_inner`, whether it is `z_dupfix`, and
the txnid of the parent. -/
abbrev SubWalk := Bool → Bool → Ctx → Tree → Nat → Except Stop (Ctx × Tree)

def compactingWalkTree (R : Reader) (walk : SubWalk) (ctx : Ctx) (tree : Tree) :
    Except Stop (Ctx × Tree) :=
  match tree.root with
  | none => .ok (ctx, tree)
  | some _ =>
    if R.tblSetup tree.schema ≠ 0 then .error (.rc (R.tblSetup tree.schema))
    else
      let modTxnid := dateOf R.txnid tree.modTxnid
      walk false false ctx { tree with modTxnid := modTxnid } modTxnid

/-- A round of the loop over the nodes of a leaf. -/
def walkNode (R : Reader) (walk : SubWalk) (txnid : Nat) (ctx : Ctx) (tree : Tree) (node : Node) :
    Except Stop (Ctx × Tree × Node) :=
  match node.data with
  | .plain _ => .ok (ctx, tree, node)
  | .big size pgno =>
    match R.largeAt pgno txnid with
    | .error err => .error (.rc err)
    | .ok lp =>
      -- as much of the large page as the value takes
      let put := .large { lp with bytes := lp.bytes.take size }
      .ok (compactingPutPage R ctx put (largechunkNpages R.pageSize size), tree,
        { node with data := .big size ctx.firstUnallocated })
  | .tree dup size nested =>
    if size ≠ sizeofTree then .error (.rc mdbxCorrupted)
    else if dup then
      match cursorDupsortSetup R tree txnid size nested with
      | .error err => .error (.rc err)
      | .ok tree =>
        match walk true tree.schema.dupFixed ctx nested txnid with
        | .error stop => .error stop
        | .ok (ctx, nested) => .ok (ctx, tree, { node with data := .tree dup size nested })
    else
      match compactingWalkTree R walk ctx nested with
      | .error stop => .error stop
      | .ok (ctx, nested) => .ok (ctx, tree, { node with data := .tree dup size nested })

def walkNodes (one : Ctx → Tree → Node → Except Stop (Ctx × Tree × Node)) :
    List Node → Ctx → Tree → Except Stop (Ctx × Tree × List Node)
  | [], ctx, tree => .ok (ctx, tree, [])
  | node :: nodes, ctx, tree =>
    match one ctx tree node with
    | .error stop => .error stop
    | .ok (ctx, tree, node) =>
      match walkNodes one nodes ctx tree with
      | .error stop => .error stop
      | .ok (ctx, tree, nodes) => .ok (ctx, tree, node :: nodes)

/-- The nodes of an inner tree are copied as they are. -/
def leafPass (R : Reader) (inner : Bool) (walk : SubWalk) : LeafPass := fun ctx tree mp =>
  match mp.body with
  | .leaf nodes =>
    if inner then .ok (ctx, tree, mp)
    else
      match walkNodes (walkNode R walk mp.txnid) nodes ctx tree with
      | .error stop => .error stop
      | .ok (ctx, tree, nodes) => .ok (ctx, tree, { mp with body := .leaf nodes })
  | _ => .ok (ctx, tree, mp)

/-- `compacting_walk`, with at most `steps` rounds of each loop and that many trees inside each
other. -/
def compactingWalk (R : Reader) (steps : Nat) : Nat → SubWalk
  | 0, _, _, _, _, _ => .error .fuel
  | nest + 1, inner, dupfix, ctx, tree, parentTxnid =>
    match tree.root with
    | none => .error (.rc mdbxPageNotfound)
    | some pgno =>
      match pageGet R dupfix pgno parentTxnid with
      | .error err => .error (.rc err)
      | .ok root =>
        match treeDeepenEdge R dupfix root with
        | .error err => .error (.rc err)
        | .ok (top, rest) =>
          match walkLoop (walkStep R dupfix (rest.length + 1)
              (leafPass R inner (compactingWalk R steps nest))) steps ⟨top, rest, ctx, tree⟩ with
          | .error stop => .error stop
          | .ok (ctx, tree, pgno) => .ok (ctx, { tree with root := some pgno })

end Mdbx.Compact
