import Mdbx.Node.Sizes
import Mdbx.PageSearch.Model

/-!
# Split.Model — the split of an overflowing page

`page_split`: where a page is cut, and how its nodes with the new one move into the two pages and the
separator into the parent.  A page is the list of its nodes with the bytes they take; adding a node
to a page fails as `node_add_leaf` and the others do, with `MDBX_PAGE_FULL`.
-/

namespace Mdbx.Split

open Node PageSize Compare
open PageSearch (Kind)

/-- What `page_split` reads of the environment. -/
structure Env extends PageSize where
  splitReserveDot16 : UInt16
  preferWafInsteadofBalance : Bool

/-- A node, or an entry of a dupfix page. -/
structure Entry where
  key : Bytes
  -- `node_ds`
  dataLen : Nat
  -- `N_BIG`
  big : Bool
  -- `node_pgno` of a branch node
  pgno : Nat
  deriving DecidableEq

structure Page where
  kind : Kind
  -- of a dupfix page
  dupfixKsize : Nat
  nodes : List Entry

namespace Page

variable (mp : Page)

def numkeys : Nat := mp.nodes.length

/-- The bytes of a node with the entry that points to it. -/
def nodeBytes (x : Entry) : Nat :=
  match mp.kind with
  | .leaf => evenCeil (nodeHdrSz + x.key.length + indxSz + (if x.big then pgnoSz else x.dataLen))
  | .branch => evenCeil (nodeHdrSz + x.key.length + indxSz)
  | .dupfixLeaf => mp.dupfixKsize

/-- `page_used` -/
def used : Nat := (mp.nodes.map mp.nodeBytes).sum

/-- `page_room` -/
def room (env : Env) : Nat := env.space - mp.used

def empty : Page := { mp with nodes := [] }

end Page

/-- `leaf_size` or `branch_size` of the new node, or the size of a dupfix entry. -/
def newSize (env : Env) (mp : Page) (new : Entry) : Nat :=
  match mp.kind with
  | .leaf => env.leafSize new.key.length new.dataLen
  | .branch => branchSize new.key.length
  | .dupfixLeaf => mp.dupfixKsize

/-- A page up to the root, and the index in it. -/
structure Frame where
  page : Page
  ki : Nat

/-! ## 1. Adding nodes -/

/-- The check that `node_add_leaf`, `node_add_branch` and `node_add_dupfix` share. -/
def place (env : Env) (mp : Page) (indx bytes : Nat) (x : Entry) : Option Page :=
  if env.space < mp.used + bytes then none
  else some { mp with nodes := mp.nodes.insertIdx indx x }

/-- `node_add_leaf`; data that is too long gets large pages. -/
def nodeAddLeaf (env : Env) (mp : Page) (indx : Nat) (x : Entry) : Option Page :=
  if x.big then
    place env mp indx (nodeSizeLen x.key.length 0 + pgnoSz + indxSz) x
  else if env.leafNodeMax < nodeSizeLen x.key.length x.dataLen then
    place env mp indx (nodeSizeLen x.key.length 0 + pgnoSz + indxSz) { x with big := true }
  else place env mp indx (nodeSizeLen x.key.length x.dataLen + indxSz) x

/-- `node_add_branch`, with no key in place of `nullptr` -/
def nodeAddBranch (env : Env) (mp : Page) (indx : Nat) (key : Bytes) (pgno : Nat) :
    Option Page :=
  place env mp indx (branchSize key.length) ⟨key, 0, false, pgno⟩

/-- `node_add_dupfix` -/
def nodeAddDupfix (env : Env) (mp : Page) (indx : Nat) (x : Entry) : Option Page :=
  place env mp indx mp.dupfixKsize x

/-- One step of the loop that moves nodes: the first branch node needs no key. -/
def moveNode (env : Env) (mp : Page) (n : Nat) (x : Entry) : Option Page :=
  match mp.kind with
  | .branch => nodeAddBranch env mp n (if n = 0 then [] else x.key) x.pgno
  | .leaf => nodeAddLeaf env mp n x
  | .dupfixLeaf => nodeAddDupfix env mp n x

def moveNodes (env : Env) (mp : Page) : Nat → List Entry → Option Page
  | _, [] => some mp
  | n, x :: rest => (moveNode env mp n x).bind fun mp => moveNodes env mp (n + 1) rest

/-! ## 2. The choice of the cut -/

/-- `(mp->flags & P_BRANCH) + 1` -/
def minkeys (mp : Page) : Nat := (if mp.kind = .branch then 1 else 0) + 1

def leftmostSplit (mp : Page) : Nat := minkeys mp

def rightmostSplit (mp : Page) : Nat := mp.numkeys + 1 - minkeys mp

def reserveFactor (env : Env) : Nat := env.splitReserveDot16.toNat

/-- The cut to begin with; 0 stands for a new page to the left of all. -/
def startSplit (env : Env) (mp : Page) (newindx : Nat) (replace : Bool) (parents : List Frame) :
    Nat :=
  let nkeys := mp.numkeys
  let start :=
    if reserveFactor env ≠ 0 ∨ env.preferWafInsteadofBalance then newindx else (nkeys + 1) / 2
  if reserveFactor env ≠ 0 then start
  else if newindx = nkeys then rightmostSplit mp
  else if newindx ≤ minkeys mp then
    if newindx = 0 ∧ ¬replace then
      -- the separator will be the old first key, for which the parent must have room
      let sepkey := (mp.nodes.map Entry.key).headD []
      if (∀ f ∈ parents, f.ki = 0) ∧
          ∀ f ∈ parents.head?, branchSize sepkey.length ≤ f.page.room env then 0
      else leftmostSplit mp
    else leftmostSplit mp
  else start

/-- The cut of a dupfix page, whose entries all take the same space. -/
def dupfixSplit (env : Env) (mp : Page) (newindx split : Nat) : Nat :=
  let nkeys := mp.numkeys
  if reserveFactor env ≠ 0 then
    let maxKeys := nkeys
    let wanna := maxKeys * reserveFactor env / 2 ^ 16
    if maxKeys ≤ wanna + 1 + wanna then (nkeys + 1) / 2
    else
      let leftSpace := maxKeys - split - (if newindx < split then 1 else 0)
      let rightSpace := split - (if split ≤ newindx then 1 else 0)
      if leftSpace < wanna then
        max (leftmostSplit mp) (maxKeys - wanna - (if newindx < maxKeys - wanna then 1 else 0))
      else if rightSpace < wanna then
        min (rightmostSplit mp) (wanna + (if wanna ≤ newindx then 1 else 0))
      else split
  else split

/-- `UINT64_MAX` -/
def maxSkew : Nat := 2 ^ 64 - 1

/-- How far the cut `i` is from the aim. -/
def skewAt (space reserve split i left right : Nat) : Nat :=
  let reserveSkew := (reserve - (space - left)) + (reserve - (space - right))
  -- `branchless_abs(split_indx - i)`
  reserveSkew * 2 ^ 32 + ((split - i) + (i - split))

/-- The loop over the sizes of the nodes with the new one among them: the cut that both halves fit
with, and the closest to the aim up to the first that gets worse. -/
def sizeLoop (space reserve leftmost rightmost split : Nat) :
    List Nat → (i left right best bestSkew : Nat) → Nat
  | [], _, _, _, best, _ => best
  | size :: rest, i, left, right, best, bestSkew =>
      if i < rightmost ∧ left < space then
        let left := left + size
        let right := right - size
        let i := i + 1
        if leftmost ≤ i ∧ left ≤ space ∧ right ≤ space then
          let skew := skewAt space reserve split i left right
          if bestSkew ≤ skew then best
          else sizeLoop space reserve leftmost rightmost split rest i left right i skew
        else sizeLoop space reserve leftmost rightmost split rest i left right best bestSkew
      else best

/-- The nodes with the new one, as `tmp_ki_copy` lists them. -/
def withNew (mp : Page) (newindx : Nat) (new : Entry) : List Entry :=
  mp.nodes.take newindx ++ new :: mp.nodes.drop newindx

/-- Their sizes. -/
def sizesWithNew (env : Env) (mp : Page) (newindx : Nat) (new : Entry) : List Nat :=
  let sizes := mp.nodes.map mp.nodeBytes
  sizes.take newindx ++ newSize env mp new :: sizes.drop newindx

/-- The cut of other pages: where the new node may not fit, by the sizes of the nodes. -/
def sizedSplit (env : Env) (mp : Page) (newindx : Nat) (new : Entry) (split : Nat) : Nat :=
  let nkeys := mp.numkeys
  let newsize := newSize env mp new
  let dimNodes := if split ≤ newindx then split else nkeys - split
  let dimBytes := (indxSz + nodeHdrSz + 1) * dimNodes
  if reserveFactor env ≠ 0 ∨ dimBytes ≤ newsize then
    let reserve :=
      if reserveFactor env ≠ 0 then env.space * reserveFactor env / 2 ^ 16 else 0
    sizeLoop env.space reserve (leftmostSplit mp) (rightmostSplit mp) split
      (sizesWithNew env mp newindx new) 0 0 (newsize + mp.used) split maxSkew
  else split

/-! ## 3. The split -/

inductive Cut where
  | pureRight
  | pureLeft
  | at (split : Nat)
  deriving DecidableEq

/-- `clamp_unsigned` -/
def clamp (x lo hi : Nat) : Nat := if x < lo then lo else if hi < x then hi else x

def chooseCut (env : Env) (mp : Page) (newindx : Nat) (new : Entry) (replace : Bool)
    (parents : List Frame) : Cut :=
  let split := startSplit env mp newindx replace parents
  if reserveFactor env = 0 ∧ split = mp.numkeys then .pureRight
  else if reserveFactor env = 0 ∧ split = 0 then .pureLeft
  else
    let split := clamp split (leftmostSplit mp) (rightmostSplit mp)
    if mp.kind = .dupfixLeaf then .at (dupfixSplit env mp newindx split)
    else .at (sizedSplit env mp newindx new split)

/-- What becomes of the parent: it takes the separator, or it has to be split for it. -/
inductive Above where
  | added (page : Page)
  | overflows (newindx : Nat) (sepkey : Bytes)

structure Done where
  left : Page
  right : Page
  above : Above

/-- The root gets a parent with a node for it. -/
def pushRoot (env : Env) (pgno : Nat) : Option Frame :=
  (nodeAddBranch env ⟨.branch, 0, []⟩ 0 [] pgno).map fun root => ⟨root, 0⟩

/-- `node_add_branch(mn, mn->ki[prev_top], &sepkey, sister->pgno)` or the split of the parent. -/
def addSeparator (env : Env) (parent : Frame) (sepkey : Bytes) (sister : Nat) : Option Above :=
  if parent.page.room env < branchSize sepkey.length then
    some (.overflows (parent.ki + 1) sepkey)
  else (nodeAddBranch env parent.page (parent.ki + 1) sepkey sister).map .added

/-- `tree_propagate_key`, as long as there is room for the key -/
def propagateKey (env : Env) (mp : Page) (indx : Nat) (key : Bytes) : Option Page :=
  let old := (mp.nodes.map Entry.key).getD indx []
  if evenCeil old.length + mp.room env < evenCeil key.length then none
  else some { mp with nodes := mp.nodes.modify indx fun x => { x with key := key } }

/-- The parent takes the new page before the split one, and the key that this one lacks there. -/
def addBefore (env : Env) (parent : Frame) (newkey sepkey : Bytes) (sister : Nat) : Option Above :=
  if parent.page.room env < branchSize sepkey.length then
    some (.overflows (parent.ki + 1) sepkey)
  else
    let key := if parent.ki ≠ 0 then newkey else []
    (nodeAddBranch env parent.page parent.ki key sister).bind fun page =>
    if parent.ki = 0 then (propagateKey env page 1 sepkey).map .added else some (.added page)

/-- The two halves of a dupfix page. -/
def dupfixHalves (mp : Page) (newindx : Nat) (new : Entry) (split : Nat) : Page × Page :=
  if newindx < split then
    ({ mp with nodes := (mp.nodes.take split).insertIdx newindx new },
      { mp with nodes := mp.nodes.drop split })
  else
    ({ mp with nodes := mp.nodes.take split },
      { mp with nodes := (mp.nodes.drop split).insertIdx (newindx - split) new })

/-- The key of the entry that goes first to the right page. -/
def dupfixSepkey (mp : Page) (newindx : Nat) (new : Entry) (split : Nat) : Bytes :=
  if newindx = split then new.key else ((mp.nodes.drop split).map Entry.key).headD []

/-- The split of a page with a parent, the first of `parents`. -/
def splitUnder (env : Env) (mp : Page) (newindx : Nat) (new : Entry) (replace : Bool) (sister : Nat)
    (parent : Frame) (parents : List Frame) : Option Done :=
  match chooseCut env mp newindx new replace parents with
  | .pureRight =>
      (addSeparator env parent new.key sister).bind fun above =>
      (moveNode env mp.empty 0 new).map fun right => ⟨mp, right, above⟩
  | .pureLeft =>
      let sepkey := (mp.nodes.map Entry.key).headD []
      (addBefore env parent new.key sepkey sister).bind fun above =>
      (moveNode env mp.empty 0 new).map fun left => ⟨left, mp, above⟩
  | .at split =>
      if mp.kind = .dupfixLeaf then
        let halves := dupfixHalves mp newindx new split
        (addSeparator env parent (dupfixSepkey mp newindx new split) sister).map fun above =>
          ⟨halves.1, halves.2, above⟩
      else
        let nodes := withNew mp newindx new
        let sepkey := ((nodes.drop split).map Entry.key).headD []
        (addSeparator env parent sepkey sister).bind fun above =>
        (moveNodes env mp.empty 0 (nodes.drop split)).bind fun right =>
        (moveNodes env mp.empty 0 (nodes.take split)).map fun left => ⟨left, right, above⟩

/-- `page_split` of the page at the top of a cursor with the pages of `stack` over it, the nearest
first, for the new node at `newindx`; `none` for `MDBX_PAGE_FULL`. -/
def pageSplit (env : Env) (mp : Page) (newindx : Nat) (new : Entry) (replace : Bool)
    (pgno sister : Nat) (stack : List Frame) : Option Done :=
  if stack.isEmpty then
    (pushRoot env pgno).bind fun root => splitUnder env mp newindx new replace sister root [root]
  else
    stack.head?.bind fun parent => splitUnder env mp newindx new replace sister parent stack

end Mdbx.Split
