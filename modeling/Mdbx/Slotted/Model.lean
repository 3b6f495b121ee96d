import Mdbx.Node.Sizes
import Mdbx.Lib.ByteMemory

/-!
# Slotted.Model — the nodes of a page as bytes

A page begins with its header; the entries, which say where the nodes lie, grow from the header up,
and the nodes grow from the end of the page down.  Everything is bytes of one memory, so that a page
and a sub-page in the value of a node are worked on by the same functions.
-/

namespace Mdbx.Slotted

open Node ByteMemory

/-! ## 1. Fields of `page_t` and `node_t` -/

/-- `page_flags` -/
def pLeaf : Nat := 0x02
def pLarge : Nat := 0x04
def pDupfix : Nat := 0x20
def pSubp : Nat := 0x40

/-- `node_flags` -/
def nBig : Nat := 0x01
def nTree : Nat := 0x02
def nDup : Nat := 0x04

def mdbxReserve : Nat := 0x10000

section Fields

variable (m : Mem) (p : Nat)

def dupfixKsize : Nat := peek m (p + 8) 2

def pageFlags : Nat := peek m (p + 10) 2

def lower : Nat := peek m (p + 12) 2

def upper : Nat := peek m (p + 14) 2

def pagePgno : Nat := peek m (p + 16) 4

def entry (i : Nat) : Nat := peek m (p + pageHdrSz + indxSz * i) indxSz

def setLower (v : Nat) : Mem := poke m (p + 12) 2 v

def setUpper (v : Nat) : Mem := poke m (p + 14) 2 v

def setPagePgno (v : Nat) : Mem := poke m (p + 16) 4 v

def setEntry (i v : Nat) : Mem := poke m (p + pageHdrSz + indxSz * i) indxSz v

def isLeaf : Bool := pageFlags m p &&& pLeaf != 0

def isDupfixLeaf : Bool := pageFlags m p &&& pDupfix != 0

def pageNumkeys : Nat := lower m p / 2

def pageRoom : Nat := upper m p - lower m p

/-- The address of a node. -/
def pageNode (i : Nat) : Nat := p + entry m p i + pageHdrSz

def pageDupfixPtr (i : Nat) : Nat := p + pageHdrSz + dupfixKsize m p * i

end Fields

section Nodes

variable (m : Mem) (node : Nat)

def nodeDs : Nat := peek m node 4

def nodeFlags : Nat := peek m (node + 4) 1

def nodeKs : Nat := peek m (node + 6) 2

def nodeKey : Nat := node + nodeHdrSz

def nodeData : Nat := nodeKey node + nodeKs m node

def nodeSetDs (v : Nat) : Mem := poke m node 4 v

def nodeSetPgno (v : Nat) : Mem := poke m node 4 v

def nodeSetFlags (v : Nat) : Mem := poke m (node + 4) 1 v

def nodeSetExtra (v : Nat) : Mem := poke m (node + 5) 1 v

def nodeSetKs (v : Nat) : Mem := poke m (node + 6) 2 v

end Nodes

/-! ## 2. Nodes are added -/

inductive Status where
  | success
  | pageFull
  | problem
  | failed (err : Int)
  deriving DecidableEq, Repr

/-- `lower` and `upper` behind an addition, if they do not cross. -/
def adjusted (m : Mem) (p bytes : Nat) : Option (Nat × Nat) :=
  let lower : Int := lower m p + indxSz
  let upper : Int := upper m p - (bytes - indxSz : Int)
  if lower > upper then none else some (lower.toNat, upper.toNat)

def nodeAddDupfix (m : Mem) (p indx : Nat) (key : List UInt8) : Mem × Status :=
  let ksize := key.length
  let nkeys := pageNumkeys m p
  match adjusted m p ksize with
  | none => (m, .pageFull)
  | some (lower, upper) =>
    let m := setUpper (setLower m p lower) p upper
    let ptr := pageDupfixPtr m p indx
    let diff := nkeys - indx
    let m := if diff > 0 then move m (ptr + ksize) ptr (diff * ksize) else m
    (copy m ptr key, .success)

/-- `for (i = nkeys; i > indx; --i) entries[i] = entries[i - 1]` -/
def moveHigher (m : Mem) (p indx : Nat) : Nat → Mem
  | 0 => m
  | i + 1 => if i + 1 > indx then moveHigher (setEntry m p (i + 1) (entry m p i)) p indx i else m

/-- A page size, with the panic of `branch_size` left to the caller. -/
def nodeAddBranch (m : Mem) (p indx : Nat) (key : Option (List UInt8)) (pgno : Nat) :
    Mem × Status :=
  let branchBytes := PageSize.branchSize (key.elim 0 List.length)
  match adjusted m p branchBytes with
  | none => (m, .pageFull)
  | some (lower, upper) =>
    let m := moveHigher m p indx (pageNumkeys m p)
    let m := setLower m p lower
    let m := setEntry (setUpper m p upper) p indx upper
    let node := pageNode m p indx
    let m := nodeSetKs (nodeSetExtra (nodeSetFlags (nodeSetPgno m node pgno) node 0) node 0) node 0
    match key with
    | none => (m, .success)
    | some key => (copy (nodeSetKs m node key.length) (nodeKey node) key, .success)

/-- `MDBX_val` of data: for a value that already lies in a large page the bytes are its number, and
the length is that of the value. -/
structure Data where
  base : List UInt8
  len : Nat

/-- What `node_add_leaf` did: the payload of a large page that it has got is not part of the page. -/
structure Added where
  mem : Mem
  status : Status
  large : Option (Nat × List UInt8)

/-- The part of `node_add_leaf` behind the choice of the node's size.  The higher entries are moved
before it is seen whether there is room. -/
def nodeAddLeafBytes (m : Mem) (p indx nodeBytes : Nat) (key : List UInt8) (data : Data)
    (flags : Nat) (largepage : Option Nat) : Added :=
  let m := moveHigher m p indx (pageNumkeys m p)
  match adjusted m p nodeBytes with
  | none => ⟨m, .pageFull, none⟩
  | some (lower, upper) =>
    let m := setLower m p lower
    let m := setEntry (setUpper m p upper) p indx upper
    let node := pageNode m p indx
    let m := nodeSetKs m node key.length
    let m := nodeSetExtra (nodeSetFlags m node flags) node 0
    let m := nodeSetDs m node data.len
    let m := copy m (nodeKey node) key
    let nodedata := nodeData m node
    match largepage with
    | none =>
      if flags &&& nBig ≠ 0 then ⟨copy m nodedata (data.base.take pgnoSz), .success, none⟩
      else if flags &&& mdbxReserve ≠ 0 then ⟨m, .success, none⟩
      else ⟨copy m nodedata (data.base.take data.len), .success, none⟩
    | some pgno =>
      ⟨poke m nodedata pgnoSz pgno, .success,
        some (pgno, if flags &&& mdbxReserve ≠ 0 then [] else data.base.take data.len)⟩

/-- `node_add_leaf`, with what `page_new_large` would return. -/
def nodeAddLeaf (env : PageSize) (dupSort : Bool) (pageNewLarge : Except Int Nat) (m : Mem)
    (p indx : Nat) (key : List UInt8) (data : Data) (flags : Nat) : Added :=
  if flags &&& nBig ≠ 0 then
    nodeAddLeafBytes m p indx (nodeSizeLen key.length 0 + pgnoSz + indxSz) key data flags none
  else if nodeSizeLen key.length data.len > env.leafNodeMax then
    if dupSort then ⟨m, .problem, none⟩
    else if flags &&& (nDup ||| nTree) ≠ 0 then ⟨m, .problem, none⟩
    else
      match pageNewLarge with
      | .error err => ⟨m, .failed err, none⟩
      | .ok pgno =>
        nodeAddLeafBytes m p indx (nodeSizeLen key.length 0 + pgnoSz + indxSz) key data
          (flags ||| nBig) (some pgno)
  else
    nodeAddLeafBytes m p indx (nodeSizeLen key.length data.len + indxSz) key data flags none

/-! ## 3. A node is deleted -/

/-- The bytes that the data of a node takes in its page. -/
def dataBytes (m : Mem) (leaf : Bool) (node : Nat) : Nat :=
  if leaf then if nodeFlags m node &&& nBig ≠ 0 then pgnoSz else nodeDs m node else 0

/-- `hole_size` -/
def nodeBytes (m : Mem) (leaf : Bool) (node : Nat) : Nat :=
  evenCeil (nodeHdrSz + nodeKs m node + dataBytes m leaf node)

/-- `for (r = w = 0; r < nkeys; r++)`, with the rounds that are left -/
def closeGap (m : Mem) (p hole holeOffset holeSize : Nat) : Nat → Nat → Nat → Mem
  | 0, _, _ => m
  | rounds + 1, r, w =>
    if r ≠ hole then
      let offset := entry m p r
      closeGap (setEntry m p w (if offset < holeOffset then offset + holeSize else offset)) p hole
        holeOffset holeSize rounds (r + 1) (w + 1)
    else closeGap m p hole holeOffset holeSize rounds (r + 1) w

def nodeDel (m : Mem) (p hole ksize : Nat) : Mem :=
  let nkeys := pageNumkeys m p
  if isDupfixLeaf m p then
    let diff := nkeys - 1 - hole
    let base := pageDupfixPtr m p hole
    let m := if diff ≠ 0 then move m base (base + ksize) (diff * ksize) else m
    let m := setLower m p (lower m p - indxSz)
    setUpper m p (upper m p + (ksize - indxSz))
  else
    let holeSize := nodeBytes m (isLeaf m p) (pageNode m p hole)
    let holeOffset := entry m p hole
    let m := closeGap m p hole holeOffset holeSize nkeys 0 0
    let base := p + upper m p + pageHdrSz
    let m := move m (base + holeSize) base (holeOffset - upper m p)
    let m := setLower m p (lower m p - indxSz)
    setUpper m p (upper m p + holeSize)

/-! ## 4. A sub-page is shrunk and grown -/

/-- `for (i = page_numkeys(sp); --i >= 0;) xp->entries[i] = sp->entries[i] - delta` -/
def lowerEntries (m : Mem) (sp delta : Nat) : Nat → Mem
  | 0 => m
  | i + 1 => lowerEntries (setEntry m (sp + delta) i (entry m sp i - delta)) sp delta i

/-- `for (i = page_numkeys(mp); --i >= 0;)`, entries up to the pivot are raised -/
def raiseEntries (m : Mem) (p pivot delta : Nat) : Nat → Mem
  | 0 => m
  | i + 1 =>
    if entry m p i ≤ pivot then raiseEntries (setEntry m p i (entry m p i + delta)) p pivot delta i
    else raiseEntries m p pivot delta i

def nodeShrink (m : Mem) (p indx node : Nat) : Mem × Nat :=
  let sp := nodeData m node
  let delta := evenFloor (pageRoom m sp)
  if delta = 0 then (m, node)
  else
    let nsize := nodeDs m node - delta
    let dupfix := isDupfixLeaf m sp
    let len := if dupfix then nsize else pageHdrSz
    let m := if dupfix then m else lowerEntries m sp delta (pageNumkeys m sp)
    let m := setUpper m sp (upper m sp - delta)
    let m := setPagePgno m sp (pagePgno m p)
    let m := nodeSetDs m node nsize
    let base := p + upper m p + pageHdrSz
    let m := move m (base + delta) base (sp - base + len)
    let pivot := entry m p indx
    let m := raiseEntries m p pivot delta (pageNumkeys m p)
    (setUpper m p (upper m p + delta), node + delta)

/-- `for (i = 0; i < page_numkeys(fp); i++) mp->entries[i] += growth`, with the rounds that are left -/
def growEntries (m : Mem) (mp growth : Nat) : Nat → Nat → Mem
  | 0, _ => m
  | rounds + 1, i => growEntries (setEntry m mp i (entry m mp i + growth)) mp growth rounds (i + 1)

/-- The part of `cursor_put` that moves a sub-page to a larger place: `flags` are those it has there,
and `room` is the length of its node's data. -/
def growSubpage (m : Mem) (fp mp flags growth len : Nat) (frontTxnid : Nat) : Mem :=
  let nkeys := pageNumkeys m fp
  let m := poke m (mp + 10) 2 flags
  let m := poke m mp 8 frontTxnid
  let m := poke m (mp + 8) 2 (dupfixKsize m fp)
  let m := setLower m mp (lower m fp)
  let m := setUpper m mp (upper m fp + growth)
  if flags &&& pDupfix ≠ 0 then
    move m (mp + pageHdrSz) (fp + pageHdrSz) (nkeys * dupfixKsize m fp)
  else
    let m := move m (mp + upper m mp + pageHdrSz) (fp + upper m fp + pageHdrSz)
      (len - upper m fp - pageHdrSz)
    let m := move m (mp + pageHdrSz) (fp + pageHdrSz) (nkeys * indxSz)
    growEntries m mp growth nkeys 0

/-! ## 5. Copies -/

/-- `page_copy` -/
def pageCopy (wordSize cacheline : Nat) (m : Mem) (dst src size : Nat) : Mem :=
  if isDupfixLeaf m src then
    let len := pageHdrSz + dupfixKsize m src * pageNumkeys m src
    if len > size then copy m dst (List.replicate size 255) else move m dst src len
  else if pageFlags m src &&& pLarge ≠ 0 then move m dst src size
  else
    let unused : Int := upper m src - lower m src
    if unused > cacheline * 3 then
      let lower := (lower m src + pageHdrSz + wordSize - 1) / wordSize * wordSize
      let upper := (upper m src + pageHdrSz) / wordSize * wordSize
      if upper > size then copy m dst (List.replicate size 255)
      else move (move m dst src lower) (dst + upper) (src + upper) (size - upper)
    else move m dst src size

/-! ## 6. The values of a key -/

/-- What `MDBX_env` says of sub-pages. -/
structure SubpageLimits where
  limit : Nat
  roomThreshold : Nat
  reserveLimit : Nat
  reservePrereq : Nat

/-- The loop of `page_subleaf2_reserve`, with the rounds that are left. -/
def reserveLoop (lim : SubpageLimits) (hostPageRoom itemLen : Nat) : Nat → Nat → Nat → Nat × Nat
  | 0, reserve, subpageLen => (reserve, subpageLen)
  | rounds + 1, reserve, subpageLen =>
    if reserve + itemLen ≤ lim.reserveLimit ∧ evenCeil (subpageLen + itemLen) ≤ lim.limit ∧
        hostPageRoom ≥ lim.reservePrereq + evenCeil (subpageLen + itemLen) then
      reserveLoop lim hostPageRoom itemLen rounds (reserve + itemLen) (subpageLen + itemLen)
    else (reserve, subpageLen)

def pageSubleaf2Reserve (lim : SubpageLimits) (hostPageRoom subpageLen itemLen : Nat) : Nat :=
  let (reserve, subpageLen) := reserveLoop lim hostPageRoom itemLen 5 0 subpageLen
  reserve + subpageLen % 2

/-- What the functions below are given by their surroundings. -/
structure PutEnv where
  env : PageSize
  lim : SubpageLimits
  pageNewLarge : Except Int Nat
  -- the address of a new page
  gcAllocSingle : Except Int Nat
  frontTxnid : Nat
  txnid : Nat
  -- `mc->tree->flags` as far as they matter
  dupFixed : Bool
  db2sub : Nat
  pageAuxbuf : Nat

variable (pe : PutEnv)

/-- The condition for a tree instead of a sub-page. -/
def tooBig (hostRoom ks oldLen newLen : Nat) : Bool :=
  decide (newLen > pe.lim.limit) || decide (nodeSizeLen ks newLen > pe.env.leafNodeMax) ||
    (pe.lim.roomThreshold != 0 && decide (hostRoom + nodeSizeLen ks oldLen <
      pe.lim.roomThreshold + nodeSizeLen ks newLen))

/-- `cursor_put` of a value that is not there yet, the sub-cursor on a page of values: the value is
the key, and the data is empty. -/
def subPut (m : Mem) (sp i : Nat) (value : List UInt8) : Mem × Status :=
  let nsize := if isDupfixLeaf m sp then value.length else pe.env.leafSize value.length 0
  if pageRoom m sp < nsize then (m, .pageFull)
  else if isDupfixLeaf m sp then nodeAddDupfix m sp i value
  else
    let r := nodeAddLeaf pe.env false pe.pageNewLarge m sp i value ⟨[], 0⟩ 0
    (r.mem, r.status)

/-- `tree_t` of the only page of a tree -/
def treeRecord (flags dupfixSize root items modTxnid : Nat) : List UInt8 :=
  toBytes 2 flags ++ toBytes 2 1 ++ toBytes 4 dupfixSize ++ toBytes 4 root ++ toBytes 4 0 ++
    toBytes 4 1 ++ toBytes 4 0 ++ toBytes 8 0 ++ toBytes 8 items ++ toBytes 8 modTxnid

inductive DupStatus where
  -- the value was put into the sub-page
  | subpage (s : Status)
  -- into the root page of a new tree
  | tree (root : Nat) (s : Status)
  -- `page_split` is to put a node with the data into the outer page
  | split (root : Option Nat) (data : List UInt8) (flags : Nat)
  | failed (err : Int)
  | refused (s : Status)
  deriving DecidableEq, Repr

/-- From `dupsort_put` on: the value that was alone comes first. -/
def dupsortPut (m : Mem) (sp : Nat) (oldSingledup : Option (List UInt8)) (i : Nat)
    (value : List UInt8) : Mem × Status :=
  match oldSingledup with
  | none => subPut pe m sp i value
  | some old =>
    let r :=
      if isDupfixLeaf m sp then nodeAddDupfix m sp 0 old
      else
        let r := nodeAddLeaf pe.env false pe.pageNewLarge m sp 0 old ⟨[], 0⟩ 0
        (r.mem, r.status)
    if r.2 = .success then subPut pe r.1 sp i value else r

/-- `insert_node` for the node of a key whose old node was deleted.  The value that was alone is in
the buffer behind the header. -/
def insertNode (m : Mem) (p k : Nat) (key data : List UInt8) (flags : Nat) (root : Option Nat)
    (oldSingledup : Option Nat) (i : Nat) (value : List UInt8) : Mem × DupStatus :=
  if pageRoom m p < pe.env.leafSize key.length data.length then (m, .split root data flags)
  else
    let r := nodeAddLeaf pe.env true pe.pageNewLarge m p k key ⟨data, data.length⟩ flags
    if r.status = .success then
      let m := r.mem
      let old := oldSingledup.map fun len => bytes m (pe.pageAuxbuf + pageHdrSz) len
      let node := pageNode m p k
      match root with
      | none =>
        let r := dupsortPut pe m (nodeData m node) old i value
        (r.1, .subpage r.2)
      | some root =>
        let r := dupsortPut pe m root old i value
        let m := r.1
        -- `memcpy(db, &mc->subcur->nested_tree, sizeof(tree_t))`
        (copy m (nodeData m node) (treeRecord pe.db2sub
          (if pe.dupFixed then dupfixKsize m root else 0) (pagePgno m root) (pageNumkeys m root)
          pe.txnid), .tree root r.2)
    else (r.mem, .refused r.status)

/-- `convert_to_subtree`: `len` is the length of the sub-page at `fp`, and `fpFlags` is what `fp_flags`
holds there. -/
def convertToSubtree (m : Mem) (p k : Nat) (key : List UInt8) (fp len fpFlags : Nat)
    (oldSingledup : Option Nat) (i : Nat) (value : List UInt8) : Mem × DupStatus :=
  match pe.gcAllocSingle with
  | .error err => (m, .failed err)
  | .ok mp =>
    let fpFlags := fpFlags &&& (0xffff - pSubp)
    let fpFlags := if pe.dupFixed then fpFlags ||| pDupfix else fpFlags
    let record := treeRecord pe.db2sub (if pe.dupFixed then dupfixKsize m fp else 0) (pagePgno m mp)
      (pageNumkeys m fp) pe.txnid
    let m := growSubpage m fp mp fpFlags (pe.env.ps - len) len pe.frontTxnid
    insertNode pe (nodeDel m p k 0) p k key record (nDup ||| nTree) (some mp) oldSingledup i value

/-- `cursor_put` for a key whose values are in a sub-page, when the value is to be its `i`-th. -/
def putSubpage (m : Mem) (p k : Nat) (key : List UInt8) (i : Nat) (value : List UInt8) :
    Mem × DupStatus :=
  let buf := pe.pageAuxbuf
  let node := pageNode m p k
  let fp := nodeData m node
  let m := setPagePgno (poke m buf 8 pe.frontTxnid) buf (pagePgno m p)
  let growth := if isDupfixLeaf m fp then dupfixKsize m fp else nodeSizeLen value.length 0 + indxSz
  if pageRoom m fp ≥ growth then
    -- `continue_subpage`
    let m := setPagePgno (poke m fp 8 pe.frontTxnid) fp (pagePgno m buf)
    let r := dupsortPut pe m fp none i value
    (r.1, .subpage r.2)
  else
    let oldLen := nodeDs m node
    let growth := growth + growth % 2
    let xlen := oldLen + growth
    -- `fp_flags` has its first value here
    if xlen > pe.lim.limit then convertToSubtree pe m p k key fp oldLen pLeaf none i value
    else
      let growth :=
        if isDupfixLeaf m fp then
          growth + pageSubleaf2Reserve pe.lim (pageRoom m p + oldLen) xlen value.length
        else growth
      let xlen := oldLen + growth
      if tooBig pe (pageRoom m p) (nodeKs m node) oldLen xlen then
        convertToSubtree pe m p k key fp oldLen (pageFlags m fp) none i value
      else
        let m := growSubpage m fp buf (pageFlags m fp) growth oldLen pe.frontTxnid
        let m := nodeDel m p k 0
        insertNode pe m p k key (bytes m buf xlen) nDup none none i value

/-- The same for a key with one value, which is not in a sub-page yet. -/
def putSecond (m : Mem) (p k : Nat) (key : List UInt8) (i : Nat) (value : List UInt8) :
    Mem × DupStatus :=
  let buf := pe.pageAuxbuf
  let node := pageNode m p k
  let oldLen := nodeDs m node
  let m := setPagePgno (poke m buf 8 pe.frontTxnid) buf (pagePgno m p)
  let m := move m (buf + pageHdrSz) (nodeData m node) oldLen
  let m := poke m (buf + 10) 2 (if pe.dupFixed then pLeaf ||| pSubp ||| pDupfix else pLeaf ||| pSubp)
  let m := setLower m buf 0
  let m := if pe.dupFixed then poke m (buf + 8) 2 value.length else m
  let xlen := pageHdrSz + oldLen + value.length
  let xlen :=
    if pe.dupFixed then
      xlen + pageSubleaf2Reserve pe.lim (pageRoom m p + oldLen) xlen value.length
    else xlen + 2 * (indxSz + nodeHdrSz) + oldLen % 2 + value.length % 2
  let m := setUpper m buf (xlen - pageHdrSz)
  if tooBig pe (pageRoom m p) (nodeKs m node) xlen xlen then
    convertToSubtree pe m p k key buf xlen (pageFlags m buf) (some oldLen) i value
  else
    let m := nodeDel m p k 0
    insertNode pe m p k key (bytes m buf xlen) nDup none (some oldLen) i value

/-- `cursor_del` for the `i`-th value of a sub-page, up to the `tree_rebalance` behind the deletion of
the node of a key that has lost its last value. -/
def delDup (m : Mem) (p k i : Nat) : Mem :=
  let node := pageNode m p k
  let sp := nodeData m node
  -- `sp->txnid = mp->txnid`
  let m := poke m sp 8 (peek m p 8)
  let m := nodeDel m sp i (dupfixKsize m sp)
  if pageNumkeys m sp ≠ 0 then (nodeShrink m p k node).1 else nodeDel m p k 0

end Mdbx.Slotted
