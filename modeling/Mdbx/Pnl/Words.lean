import Mdbx.Pnl

/-!
# Pnl.Words — lists in the memory they are given

The operations on whole lists, with each load and store checked against the memory of the list: a
list with room for `alloclen` pages owns the words from 0, its length, to `alloclen + 1`.
-/

namespace Mdbx.Pnl

/-- The memory of a list; `alloclen` is the word in front of it. -/
structure Words where
  cells : Nat → Nat
  alloclen : Nat

namespace Words

/-- `pnl_size` -/
def size (m : Words) : Nat := m.cells 0

def list (m : Words) : List Nat := (List.range' 1 m.size).map m.cells

/-! ## 1. Loads and stores -/

def rd (m : Words) (i : Nat) : Option Nat := if i ≤ m.alloclen + 1 then some (m.cells i) else none

def wr (m : Words) (i v : Nat) : Option Words :=
  if i ≤ m.alloclen + 1 then some { m with cells := Buffer.set m.cells i v } else none

/-- A pointer moves down, and stays in the list. -/
def back : Nat → Option Nat
  | 0 => none
  | i + 1 => some i

def copied (dst src : Nat → Nat) (base start n : Nat) : Nat → Nat :=
  fun i => if base ≤ i ∧ i < base + n then src (start + (i - base)) else dst i

/-- `memcpy` or `memmove` of `n` words from `src + start` to `dst + base` -/
def copy (dst : Words) (base : Nat) (src : Words) (start n : Nat) : Option Words :=
  if base + n ≤ dst.alloclen + 2 ∧ start + n ≤ src.alloclen + 2 then
    some { dst with cells := copied dst.cells src.cells base start n }
  else none

/-! ## 2. `pnl_merge` -/

/-- `pnl_merge_inner` with `MDBX_HAVE_CMOV`: every round moves one word. -/
def mergeCmov (src : Words) : Nat → Words → Nat → Nat → Nat → Option Words
  | 0, _, _, _, _ => none
  | fuel + 1, dst, w, a, b =>
    (src.rd b).bind fun x => (dst.rd a).bind fun y =>
    let flag := ordered x y
    (dst.wr w (if flag then y else x)).bind fun dst =>
    (if flag then some b else back b).bind fun b => (if flag then back a else some a).bind fun a =>
    (back w).bind fun w => if 0 < b then mergeCmov src fuel dst w a b else some dst

/-- `while (MDBX_PNL_ORDERED(*src_b, *src_a)) *dst-- = *src_a--` -/
def takeDst (src : Words) (b : Nat) : Nat → Words → Nat → Nat → Option (Words × Nat × Nat)
  | 0, _, _, _ => none
  | fuel + 1, dst, w, a =>
    (src.rd b).bind fun x => (dst.rd a).bind fun y =>
    if ordered x y then
      (dst.wr w y).bind fun dst => (back w).bind fun w => (back a).bind fun a =>
        takeDst src b fuel dst w a
    else some (dst, w, a)

/-- `pnl_merge_inner` without it: every round ends with a word of `src`. -/
def mergePlain (src : Words) : Nat → Words → Nat → Nat → Nat → Option Words
  | 0, _, _, _, _ => none
  | fuel + 1, dst, w, a, b =>
    (takeDst src b (w + 1) dst w a).bind fun (dst, w, a) =>
    (src.rd b).bind fun x => (dst.wr w x).bind fun dst =>
    (back w).bind fun w => (back b).bind fun b =>
      if 0 < b then mergePlain src fuel dst w a b else some dst

def mergeInner (haveCmov : Bool) (src dst : Words) (w a b : Nat) : Option Words :=
  if haveCmov then mergeCmov src (w + 1) dst w a b else mergePlain src (w + 1) dst w a b

/-- Behind the label `avoid_call_libc_for_short_cases`. -/
def mergeShort (haveCmov : Bool) (dst src : Words) (dstLen srcLen : Nat) : Option Words :=
  (dst.wr 0 pInvalid).bind fun dst =>
    mergeInner haveCmov src dst (dstLen + srcLen) dstLen srcLen

/-- `dst_len == 0 || MDBX_PNL_ORDERED(MDBX_PNL_LAST(dst), MDBX_PNL_FIRST(src))` -/
def appends (dst src : Words) (dstLen : Nat) : Option Bool :=
  if dstLen = 0 then some true
  else (dst.rd dstLen).bind fun x => (src.rd 1).map fun y => ordered x y

/-- `MDBX_PNL_ORDERED(MDBX_PNL_LAST(src), MDBX_PNL_FIRST(dst))` -/
def precedes (dst src : Words) (srcLen : Nat) : Option Bool :=
  (src.rd srcLen).bind fun x => (dst.rd 1).map fun y => ordered x y

/-- The ways to the merged words. -/
def mergeWords (b : Build) (dst src : Words) (dstLen srcLen : Nat) : Option Words :=
  if b.debug = false ∧ dstLen + srcLen < (if b.haveCmov then 21 else 12) then
    mergeShort b.haveCmov dst src dstLen srcLen
  else (appends dst src dstLen).bind fun yes =>
    if yes then dst.copy (dstLen + 1) src 1 srcLen
    else (precedes dst src srcLen).bind fun yes =>
      if yes then
        (dst.copy (1 + srcLen) dst 1 dstLen).bind fun dst => dst.copy 1 src 1 srcLen
      else mergeShort b.haveCmov dst src dstLen srcLen

/-- `pnl_merge` -/
def pnlMerge (b : Build) (dst src : Words) : Option (Words × Nat) :=
  (src.rd 0).bind fun srcLen => (dst.rd 0).bind fun dstLen =>
  if 0 < srcLen then
    (mergeWords b dst src dstLen srcLen).bind fun dst =>
      (dst.wr 0 (dstLen + srcLen)).map fun dst => (dst, dstLen + srcLen)
  else some (dst, dstLen)

/-! ## 3. `pnl_insert_span` -/

/-- `PAGELIST_LIMIT` -/
def pagelistLimit : Nat := 0x7FFFffff

/-- `pnl_need`, where `realloc` gives the words behind those asked for, or fails -/
def pnlNeed (m : Words) (more : Nat) (realloc : Option Nat) : Rc × Words :=
  let wanna := m.size + more
  if wanna ≤ m.alloclen then (.success, m)
  else if pagelistLimit < wanna then (.txnFull, m)
  else
    let size := if wanna + wanna - m.alloclen < pagelistLimit then wanna + wanna - m.alloclen
      else pagelistLimit
    match realloc with
    | none => (.enomem, m)
    | some extra => (.success, { m with alloclen := size + extra })

/-- `while (r && MDBX_PNL_DISORDERED(pnl[r], pgno)) pnl[w--] = pnl[r--]`, with `w` always `n`
above. -/
def shiftUp (pgno n : Nat) : Nat → Words → Option (Words × Nat)
  | 0, m => some (m, 0)
  | r + 1, m => (m.rd (r + 1)).bind fun v =>
    if v ≤ pgno then (m.wr (r + 1 + n) v).bind fun m => shiftUp pgno n r m else some (m, r + 1)

/-- `for (fill = pgno; w > r; --w) pnl[w] = fill++`, with `k` for `w - r`. -/
def fillSpan (r : Nat) : Nat → Nat → Words → Option Words
  | 0, _, m => some m
  | k + 1, fill, m => (m.wr (r + (k + 1)) fill).bind fun m => fillSpan r k ((fill + 1) % 2 ^ 32) m

/-- `pnl_insert_span` -/
def pnlInsertSpan (m : Words) (pgno n : Nat) (realloc : Option Nat) : Option (Rc × Words) :=
  match pnlNeed m n realloc with
  | (.success, m) => (m.rd 0).bind fun r => (m.wr 0 (r + n)).bind fun m =>
    (shiftUp pgno n r m).bind fun (m, r) =>
      (fillSpan r n pgno m).map fun m => (.success, m)
  | (rc, m) => some (rc, m)

/-! ## 4. `pnl_sift` -/

/-- `pnl_search`; it looks at the pages of the list alone (`pnlSearch_congr`). -/
def pnlSearch (b : Build) (m : Words) (pgno : Nat) : Option Nat :=
  if m.size ≤ m.alloclen + 1 then
    some (Mdbx.search b.haveCmov (fun i => ordered (m.cells (i + 1)) pgno) m.size + 1)
  else none

/-- `while (r <= len) pnl[w++] = pnl[r++]`, with the number of the words left. -/
def siftRest : Nat → Words → Nat → Nat → Option (Words × Nat)
  | 0, m, w, _ => some (m, w)
  | n + 1, m, w, r => (m.rd r).bind fun v => (m.wr w v).bind fun m => siftRest n m (w + 1) (r + 1)

/-- The loop behind the label `next`; `remove` moves `r` as well. -/
def siftUpdate (fo : Words) (len fe : Nat) : Nat → Words → Nat → Nat → Nat → Option (Words × Nat)
  | 0, _, _, _, _ => none
  | fuel + 1, m, w, r, f =>
    if r ≤ len then
      (fo.rd f).bind fun foPgno => (m.rd r).bind fun plPgno =>
      if ordered plPgno foPgno then
        (m.wr w plPgno).bind fun m => siftUpdate fo len fe fuel m (w + 1) (r + 1) f
      else
        let r := if plPgno < foPgno then r else r + 1
        if f + 1 = fe then siftRest (len + 1 - r) m w r
        else siftUpdate fo len fe fuel m w r (f + 1)
    else some (m, w)

/-- "scan loop", up to the first page of both lists. -/
def siftScan (fo : Words) (len fe : Nat) : Nat → Words → Nat → Nat → Option Words
  | 0, _, _, _ => none
  | fuel + 1, m, f, r =>
    if r ≤ len then
      (fo.rd f).bind fun foPgno => (m.rd r).bind fun plPgno =>
      if plPgno ≠ foPgno then
        let cmp := ordered plPgno foPgno
        let r := if cmp then r + 1 else r
        let f := if cmp then f else f + 1
        if f ≠ fe then siftScan fo len fe fuel m f r else some m
      else
        (if f + 1 = fe then siftRest (len - r) m r (r + 1)
          else siftUpdate fo len fe (len + fe + 1) m r (r + 1) (f + 1)).bind fun (m, w) =>
        m.wr 0 (w - 1)
    else some m

/-- `pnl_sift` -/
def pnlSift (b : Build) (m fo : Words) : Option Words :=
  (m.rd 0).bind fun len =>
  if len = 0 then some m
  else (fo.rd 0).bind fun n =>
    if n = 0 then some m
    else (fo.rd 1).bind fun p => (pnlSearch b m p).bind fun r =>
      siftScan fo len (n + 1) (len + n + 2) m 1 r

end Words

end Mdbx.Pnl
