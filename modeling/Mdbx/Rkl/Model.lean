import Mdbx.Lib.Buffer
import Mdbx.Search

/-!
# Rkl — the reclaimed-id set of `rkl_t`

A set of txnids kept as one solid interval `[solid_begin, solid_end)` beside an ascending list.
The functions below follow `rkl_*` of `mdbx.c` branch by branch; the list is a buffer of which
`list_length` cells are in use.
-/

namespace Mdbx

open Buffer

/-- `rkl_t`.  `inplace` says that `list` points to the array inside the structure. -/
structure Rkl where
  solidBegin : Nat
  solidEnd : Nat
  listLength : Nat
  listLimit : Nat
  list : Nat → Nat
  inplace : Bool

/-- `ARRAY_LENGTH(rkl->inplace)` -/
def rklInplaceLength : Nat := 12

/-- `MDBX_ASSUME_MALLOC_OVERHEAD` of a 64-bit build. -/
def mallocOverhead : Nat := 16

def txlGranulate : Nat := 32
def txlMax : Nat := 2 ^ 26 - 2 - mallocOverhead / 8

/-- `osal_malloc`/`osal_realloc` followed by `osal_malloc_usable_size`: a request either fails or
gives at least the requested number of bytes. -/
structure Allocator where
  alloc : Nat → Option Nat
  enough : ∀ bytes usable, alloc bytes = some usable → bytes ≤ usable

def rklSize2bytes (size : Nat) : Nat :=
  let unit := txlGranulate * 8
  (mallocOverhead + 8 * size + unit - 1) / unit * unit - mallocOverhead

def rklBytes2size (bytes : Nat) : Nat := bytes / 8

def rklClear (r : Rkl) : Rkl :=
  { r with solidBegin := uint64Max, solidEnd := 0, listLength := 0 }

def rklInit (r : Rkl) : Rkl :=
  rklClear { r with listLimit := rklInplaceLength, inplace := true }

def rklEmpty (r : Rkl) : Bool := r.solidBegin > r.solidEnd

def solidEmpty (r : Rkl) : Bool := !(r.solidBegin < r.solidEnd)

/-- `rkl_bsearch` over the list of `r`, as an offset into it. -/
def rklBsearch (b : Build) (r : Rkl) (id : Nat) : Nat :=
  search b.haveCmov (fun i => r.list i < id) r.listLength

def rklResize (al : Allocator) (r : Rkl) (wannaSize : Nat) : Rc × Rkl :=
  if wannaSize > txlMax then (.txnFull, r)
  else if wannaSize < r.listLength then (.problem, r)
  else if wannaSize ≤ rklInplaceLength then
    (.success, { r with listLimit := rklInplaceLength, inplace := true })
  else if wannaSize ≠ r.listLimit then
    match al.alloc (rklSize2bytes wannaSize) with
    | none => (.enomem, r)
    | some usable => (.success, { r with listLimit := rklBytes2size usable, inplace := false })
  else (.success, r)

/-- `rkl_destructive_move`: the new `src` and `dst`.  Every field of `dst` is overwritten, its old
buffer is freed. -/
def rklDestructiveMove (src : Rkl) : Rkl × Rkl :=
  (rklInit src,
    { solidBegin := src.solidBegin
      solidEnd := src.solidEnd
      listLength := src.listLength
      listLimit := if src.inplace then rklInplaceLength else src.listLimit
      list := src.list
      inplace := src.inplace })

/-- `rkl_copy`: the result code and the new `dst`. -/
def rklCopy (al : Allocator) (src dst : Rkl) : Rc × Rkl :=
  let dst := rklInit dst
  if rklEmpty src then (.success, dst)
  else
    let reserved :=
      if dst.listLimit < src.listLength then rklResize al dst src.listLimit else (.success, dst)
    if reserved.1 ≠ .success then reserved
    else
      let copied : Rkl := { reserved.2 with
        list := src.list, listLength := src.listLength
        solidBegin := src.solidBegin, solidEnd := src.solidEnd }
      (.success, copied)

def rklLen (r : Rkl) : Nat :=
  if rklEmpty r then 0 else r.solidEnd - r.solidBegin + r.listLength

def rklContain (b : Build) (r : Rkl) (id : Nat) : Bool :=
  if id ≥ r.solidBegin ∧ id < r.solidEnd then true
  else if r.listLength ≠ 0 then
    let it := rklBsearch b r id
    if it ≠ r.listLength then r.list it = id else false
  else false

/-! ## Insertion -/

/-- The first loop of `extend_solid`: list elements just below `solid_begin` join the interval.
`none` stands for the early `return MDBX_RESULT_TRUE`. -/
def absorbDown (list : Nat → Nat) : Nat → Nat → Option (Nat × Nat)
  | 0, solidBegin => some (0, solidBegin)
  | f + 1, solidBegin =>
      if list f ≥ solidBegin - 1 then
        if list f ≠ solidBegin - 1 then none else absorbDown list f (solidBegin - 1)
      else some (f + 1, solidBegin)

/-- The second loop of `extend_solid`, over the `n` elements from `t` to the end of the list. -/
def absorbUp (list : Nat → Nat) (t solidEnd : Nat) : Nat → Option (Nat × Nat)
  | 0 => some (t, solidEnd)
  | n + 1 =>
      if list t ≤ solidEnd then
        if list t ≠ solidEnd then none else absorbUp list (t + 1) (solidEnd + 1) n
      else some (t, solidEnd)

def extendSolid (b : Build) (r : Rkl) (solidBegin solidEnd id : Nat) : Rc × Rkl :=
  if r.listLength ≠ 0 then
    let i := rklBsearch b r id
    match absorbDown r.list i solidBegin with
    | none => (.resultTrue, r)
    | some (f, solidBegin) =>
      match absorbUp r.list i solidEnd (r.listLength - i) with
      | none => (.resultTrue, r)
      | some (t, solidEnd) =>
        let r :=
          if f < t then
            { r with
              listLength := r.listLength - (t - f)
              list := moveDown r.list f t (r.listLength - t) }
          else r
        (.success, { r with solidBegin := solidBegin, solidEnd := solidEnd })
  else (.success, { r with solidBegin := solidBegin, solidEnd := solidEnd })

/-- Result of the insertion scan: the buffer, the index reached and whether `id` was met. -/
structure PushScan where
  list : Nat → Nat
  i : Nat
  found : Bool

/-- `while (i > 0)`: elements above `id` move one cell towards the end. -/
def pushScan (id : Nat) (list : Nat → Nat) : Nat → PushScan
  | 0 => ⟨list, 0, false⟩
  | i + 1 =>
      if id < list i then pushScan id (set list (i + 1) (list i)) i
      else ⟨list, i + 1, id = list i⟩

/-- `while (from > 0 && list[from - 1] == new_solid_begin - 1)` -/
def runDown (list : Nat → Nat) : Nat → Nat → Nat × Nat
  | 0, newBegin => (0, newBegin)
  | fromIdx + 1, newBegin =>
      if list fromIdx = newBegin - 1 then runDown list fromIdx (newBegin - 1)
      else (fromIdx + 1, newBegin)

/-- `while (to < list_length && list[to] == new_solid_end)`, over the `n` elements from `to`. -/
def runUp (list : Nat → Nat) (toIdx newEnd : Nat) : Nat → Nat × Nat
  | 0 => (toIdx, newEnd)
  | n + 1 =>
      if list toIdx = newEnd then runUp list (toIdx + 1) (newEnd + 1) n else (toIdx, newEnd)

/-- The exchange of the run `[from, to)` of the list with the solid interval, whose place in the
list is `oldSolidPos`. -/
def exchangeSolid (r : Rkl) (fromIdx toIdx oldSolidPos newBegin newEnd : Nat) : Rkl :=
  let newSolidLen := toIdx - fromIdx
  let oldSolidLen := r.solidEnd - r.solidBegin
  let moved := if fromIdx > oldSolidPos then fromIdx - oldSolidPos else 0
  let step : (Nat → Nat) × Nat × Nat :=
    if fromIdx > oldSolidPos then
      (moveUp r.list oldSolidPos oldSolidLen (fromIdx - oldSolidPos), oldSolidPos, toIdx)
    else if fromIdx + newSolidLen < oldSolidPos then
      let n := oldSolidPos - newSolidLen - fromIdx
      (moveDown r.list fromIdx toIdx n, fromIdx + n, toIdx + n)
    else (r.list, fromIdx, toIdx)
  let list := fill step.1 step.2.1 (fun k => r.solidBegin + k) oldSolidLen
  let insertEnd := step.2.1 + oldSolidLen
  { r with
    list := moveDown list (moved + insertEnd) step.2.2 (r.listLength - step.2.2)
    listLength := r.listLength - newSolidLen + oldSolidLen
    solidBegin := newBegin
    solidEnd := newEnd }

/-- The tail of `rkl_push`: after `id` went to `list[i]`, the run around it may be worth swapping
with the solid interval. -/
def considerExchange (b : Build) (r : Rkl) (i id : Nat) : Rkl :=
  if r.listLength > (if b.debug then 2 else 16) ∧
      ((i > 0 ∧ r.list (i - 1) = id - 1) ∨ (i + 1 < r.listLength ∧ r.list (i + 1) = id + 1)) then
    let down := runDown r.list i id
    let up := runUp r.list (i + 1) (id + 1) (r.listLength - (i + 1))
    let newSolidLen := up.1 - down.1
    if newSolidLen > 3 then
      let oldSolidLen := r.solidEnd - r.solidBegin
      if newSolidLen > oldSolidLen then
        let oldSolidPos := rklBsearch b r r.solidBegin
        let swapCost := r.listLength - up.1 +
          (if down.1 > oldSolidPos then down.1 - oldSolidPos else 0) + oldSolidLen
        let newInsertCost := r.listLength - i
        if swapCost < newInsertCost ∨ b.debug = true then
          exchangeSolid r down.1 up.1 oldSolidPos down.2 up.2
        else r
      else r
    else r
  else r

/-- `rkl_push` once a cell is free: shift, and either undo on a duplicate or store. -/
def pushList (b : Build) (r : Rkl) (id : Nat) : Rc × Rkl :=
  let scan := pushScan id r.list r.listLength
  if scan.found then
    -- `while (++i < rkl->list_length) rkl->list[i - 1] = rkl->list[i]`
    (.resultTrue,
      { r with list := moveDown scan.list scan.i (scan.i + 1) (r.listLength - (scan.i + 1)) })
  else
    (.success, considerExchange b
      { r with list := set scan.list scan.i id, listLength := r.listLength + 1 } scan.i id)

/-- The size `rkl_push` asks for when the buffer is full. -/
def pushGrowSize (r : Rkl) : Nat :=
  let x2 := (r.listLimit + 1) * 2
  let x2 := if x2 > 62 then x2 else 62
  let x2 := if x2 < txlMax then x2 else txlMax
  if x2 > r.listLength then x2 else r.listLength + 42

/-- The part of `rkl_push` for an `id` that neither lies in the solid interval nor adjoins it. -/
def pushAside (b : Build) (al : Allocator) (r : Rkl) (id : Nat) : Rc × Rkl :=
  if r.listLength = 1 ∧ r.solidEnd = r.solidBegin + 1 ∧
      (r.list 0 = id + 1 ∨ r.list 0 = id - 1) then
    let couple := if r.list 0 = id - 1 then id - 1 else id
    (.success, { r with
      list := set r.list 0 r.solidBegin, solidBegin := couple, solidEnd := couple + 2 })
  else if r.listLength = r.listLimit then
    let grown := rklResize al r (pushGrowSize r)
    if grown.1 ≠ .success then grown else pushList b grown.2 id
  else pushList b r id

def rklPush (b : Build) (al : Allocator) (r : Rkl) (id : Nat) : Rc × Rkl :=
  if r.solidBegin ≥ r.solidEnd then extendSolid b r id (id + 1) id
  else if id < r.solidBegin then
    if id + 1 = r.solidBegin then extendSolid b r id r.solidEnd id else pushAside b al r id
  else if id ≥ r.solidEnd then
    if id = r.solidEnd then extendSolid b r r.solidBegin (id + 1) id else pushAside b al r id
  else (.resultTrue, r)

/-! ## Removal and queries -/

def afterCut (r : Rkl) : Rkl :=
  if r.listLength = 0 ∧ r.solidBegin = r.solidEnd then
    { r with solidEnd := 0, solidBegin := uint64Max }
  else r

/-- `list_remove_first`: the removed element and the shorter list. -/
def listRemoveFirst (r : Rkl) : Nat × Rkl :=
  (r.list 0, { r with
    listLength := r.listLength - 1, list := moveDown r.list 0 1 (r.listLength - 1) })

/-- `rkl_pop`: the popped id (0 when there is none) and the rest. -/
def rklPop (r : Rkl) (highestNotLowest : Bool) : Nat × Rkl :=
  if r.listLength ≠ 0 ∧ highestNotLowest = true ∧
      (solidEmpty r ∨ r.solidEnd < r.list (r.listLength - 1)) then
    (r.list (r.listLength - 1), afterCut { r with listLength := r.listLength - 1 })
  else if r.listLength ≠ 0 ∧ highestNotLowest = false ∧
      (solidEmpty r ∨ r.solidBegin > r.list 0) then
    let cut := listRemoveFirst r
    (cut.1, afterCut cut.2)
  else if !solidEmpty r then
    if highestNotLowest then
      (r.solidEnd - 1, afterCut { r with solidEnd := r.solidEnd - 1 })
    else (r.solidBegin, afterCut { r with solidBegin := r.solidBegin + 1 })
  else (0, r)

def rklLowest (r : Rkl) : Nat :=
  if r.listLength ≠ 0 then
    if solidEmpty r ∨ r.list 0 < r.solidBegin then r.list 0 else r.solidBegin
  else if !solidEmpty r then r.solidBegin else invalidTxnid

def rklHighest (r : Rkl) : Nat :=
  if r.listLength ≠ 0 then
    if solidEmpty r ∨ r.list (r.listLength - 1) ≥ r.solidEnd then r.list (r.listLength - 1)
    else r.solidEnd - 1
  else if !solidEmpty r then r.solidEnd - 1 else 0

/-- The ids of `src` in the order in which `rkl_merge` pushes them: the list from its end, then the
interval from its beginning. -/
def mergeOrder (src : Rkl) : List Nat :=
  ((List.range src.listLength).map src.list).reverse ++
    (List.range (src.solidEnd - src.solidBegin)).map (src.solidBegin + ·)

/-- The two loops of `rkl_merge`: push until the first code that is not tolerated. -/
def pushEach (b : Build) (al : Allocator) (ignoreDuplicates : Bool) : Rkl → List Nat → Rc × Rkl
  | dst, [] => (.success, dst)
  | dst, id :: ids =>
      let pushed := rklPush b al dst id
      if pushed.1 ≠ .success ∧ (ignoreDuplicates = false ∨ pushed.1 ≠ .resultTrue) then pushed
      else pushEach b al ignoreDuplicates pushed.2 ids

def rklMerge (b : Build) (al : Allocator) (src dst : Rkl) (ignoreDuplicates : Bool) : Rc × Rkl :=
  pushEach b al ignoreDuplicates dst (mergeOrder src)

end Mdbx
