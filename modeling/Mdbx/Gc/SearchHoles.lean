import Mdbx.Rkl.Hole
import Mdbx.Rkl.Insert

/-!
# Gc.SearchHoles — `gc_search_holes`

Three sources of free ids are intersected from `detent` down: the gaps of `ready4reuse`, those of
`comeback`, and the ranges between the keys of the GC tree, which a cursor reads one by one.  Seeking
and stepping back act as lookups in the set of keys.
-/

namespace Mdbx.Gc.Holes

/-! ## 1. The cursor -/

/-- `cursor_seek(.., MDBX_SET_RANGE)`: whether the key is there, and the key the cursor comes to. -/
def cursorSeek (keys : List Nat) (id : Nat) : Bool × Option Nat :=
  (id ∈ keys, (keys.filter fun k => id ≤ k).min?)

/-- `outer_prev`: the key before the cursor, which may be past the last one. -/
def outerPrev (keys : List Nat) (stand : Option Nat) : Option Nat :=
  match stand with
  | none => keys.max?
  | some key => (keys.filter fun k => k < key).max?

/-! ## 2. The search -/

/-- What a search reads: the keys of the GC tree, the ids in hand and the limits. -/
structure Env where
  build : Build
  allocator : Allocator
  keys : List Nat
  ready4reuse : Rkl
  comeback : Rkl
  detent : Nat
  maxgcPerBranch : Nat
  goodchunk : Nat
  isLifo : Bool

/-- The fields of `gcu_t` that a search uses. -/
structure Ctx where
  gcFirst : Nat
  returnLeft : Int
  sequel : Rkl

/-- An iterator with the hole it has come to. -/
structure Turn where
  iter : RklIter
  hole : RklHole

structure State where
  ready : Turn
  comeback : Turn
  scanLo : Nat
  scanHi : Nat
  -- the key the cursor stands at
  cursor : Option Nat
  ctx : Ctx
  -- the ids given to `rkl_push` so far
  pushed : List Nat

/-- `hole = rkl_hole(&iter, true)` -/
def Turn.next (t : Turn) : Turn :=
  let out := rklHole t.iter true
  ⟨out.2, out.1⟩

/-- The first hole below `id`. -/
def Turn.find (b : Build) (r : Rkl) (id : Nat) : Turn :=
  let out := rklHole (rklFind b r id).2 true
  ⟨out.2, out.1⟩

def tailSpace (e : Env) (c : Ctx) : Int :=
  ((if c.gcFirst > 0xffff then 0xffff else c.gcFirst - 1) * e.goodchunk : Nat)

def reasonableDeep (e : Env) : Nat :=
  let lowest := min (rklLowest e.ready4reuse) (rklLowest e.comeback)
  (e.maxgcPerBranch + 2 * (e.detent + 2 ^ 64 - lowest)) % 2 ^ 64

def scanThreshold (e : Env) : Nat :=
  if e.detent > reasonableDeep e then e.detent - reasonableDeep e else 0

/-- `gc_push_sequel` -/
def gcPushSequel (e : Env) (s : State) (id : Nat) : Rc × State :=
  let pushed := rklPush e.build e.allocator s.ctx.sequel id
  let given := { s with ctx := { s.ctx with sequel := pushed.2 }, pushed := s.pushed ++ [id] }
  if pushed.1 ≠ .success then (if pushed.1 = .resultTrue then .problem else pushed.1, given)
  else
    let left := s.ctx.returnLeft - e.goodchunk
    (if left ≤ 0 then .resultTrue else .success,
      { given with ctx := { given.ctx with returnLeft := left } })

/-- `while (--end >= begin)`, with the `n` ids from `low` on to be pushed. -/
def pushDown (e : Env) (low : Nat) : Nat → State → Rc × State
  | 0, s => (.success, s)
  | n + 1, s =>
      let out := gcPushSequel e s (low + n)
      if out.1 ≠ .success then out else pushDown e low n out.2

/-- The scan from the label `scan`, down to the next range between keys. -/
def scan (e : Env) : Nat → State → Option State
  | 0, _ => none
  | fuel + 1, s =>
      if s.scanHi < scanThreshold e ∧ s.ctx.returnLeft ≤ tailSpace e s.ctx then
        some { s with scanLo := 0, scanHi := s.ctx.gcFirst }
      else
        match outerPrev e.keys s.cursor with
        | none => some { s with scanLo := 0 }
        | some key =>
            let peeked := { s with scanLo := key + 1, cursor := some key }
            if key + 1 ≥ s.scanHi then scan e fuel { peeked with scanHi := key } else some peeked

inductive Next where
  | again (s : State)
  | stop (rc : Rc) (s : State)

/-- `while (end > MIN_TXNID)` -/
def whileAbove (endId : Nat) (s : State) : Next :=
  if minTxnid < endId then .again s else .stop .success s

def endOf (s : State) : Nat := min s.scanHi (min s.ready.hole.holeEnd s.comeback.hole.holeEnd)

def beginOf (s : State) : Nat :=
  max s.scanLo (max s.ready.hole.holeBegin s.comeback.hole.holeBegin)

/-- "turn-scan": the cursor is brought to `end` if that is not just a few ids away. -/
def turnScan (e : Env) (s : State) (endId : Nat) : State :=
  if s.scanLo - endId > 4 then
    let seek := cursorSeek e.keys (endId - 1)
    { s with scanHi := if seek.1 then endId - 1 else endId, cursor := seek.2 }
  else { s with scanHi := s.scanLo - 1 }

/-- The sources whose range begins where the pushed one did. -/
def pull (e : Env) (beginId : Nat) (s : State) : Option State :=
  let s₁ := if beginId = s.comeback.hole.holeBegin then { s with comeback := s.comeback.next } else s
  let s₂ := if beginId = s.ready.hole.holeBegin then { s₁ with ready := s₁.ready.next } else s₁
  if beginId = s.scanLo then scan e (e.keys.length + 1) { s₂ with scanHi := s.scanLo - 1 }
  else some s₂

/-- One round of the outer loop; `none` where the scan does not come to an end. -/
def round (e : Env) (s : State) : Option Next :=
  let endId := endOf s
  if s.comeback.hole.holeBegin ≥ endId then
    some (whileAbove endId { s with comeback := s.comeback.next })
  else if s.ready.hole.holeBegin ≥ endId then
    some (whileAbove endId { s with ready := s.ready.next })
  else if s.scanLo ≥ endId then
    (scan e (e.keys.length + 1) (turnScan e s endId)).map (whileAbove endId)
  else
    let beginId := beginOf s
    let out := pushDown e beginId (endId - beginId) s
    if out.1 ≠ .success then some (.stop out.1 out.2)
    else if minTxnid ≥ beginId then some (.stop .success out.2)
    else (pull e beginId out.2).map (whileAbove (beginId - 1))

def rounds (e : Env) : Nat → State → Option (Rc × State)
  | 0, _ => none
  | fuel + 1, s =>
      match round e s with
      | none => none
      | some (.stop rc s') => some (rc, s')
      | some (.again s') => rounds e fuel s'

/-- `ctx->gc_first`, read from the tree where it is not known. -/
def firstKnown (e : Env) (c : Ctx) : Ctx :=
  if c.gcFirst = 0 then { c with gcFirst := e.keys.min?.getD e.detent } else c

def begun (e : Env) (c : Ctx) : State :=
  let known := firstKnown e c
  let inFront := ¬ e.isLifo ∧ known.gcFirst < e.detent ∧
    e.detent - known.gcFirst < e.keys.length
  let scanHi := if inFront then known.gcFirst else e.detent
  { ready := Turn.find e.build e.ready4reuse scanHi
    comeback := Turn.find e.build e.comeback scanHi
    scanLo := if inFront then 0 else invalidTxnid
    scanHi := scanHi
    cursor := none
    ctx := known
    pushed := [] }

/-- `gc_search_holes` -/
def gcSearchHoles (e : Env) (c : Ctx) (fuel : Nat) : Option (Rc × State) := rounds e fuel (begun e c)

end Mdbx.Gc.Holes
