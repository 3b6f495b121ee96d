import Mdbx.Lib.Buffer
import Mdbx.Search

/-!
# Pnl — page number lists

A list is an array of words from 1 on, sorted in descending order; the source no longer supports
the other one.  Room for insertions is a matter of the callers and not modelled.
-/

namespace Mdbx

/-- `pnl_t`: the words of the list and `pnl_size`. -/
structure Pnl where
  cells : Nat → Nat
  size : Nat

namespace Pnl

def list (pl : Pnl) : List Nat := (List.range' 1 pl.size).map pl.cells

/-- `P_INVALID` -/
def pInvalid : Nat := 2 ^ 32 - 1

def ofList (l : List Nat) : Pnl := ⟨fun i => l.getD (i - 1) 0, l.length⟩

/-- `MDBX_PNL_ORDERED` -/
def ordered (first last : Nat) : Bool := last < first

/-- `pnl_search` without its assertions -/
def search (b : Build) (pl : Pnl) (pgno : Nat) : Nat :=
  Mdbx.search b.haveCmov (fun i => ordered (pl.cells (i + 1)) pgno) pl.size + 1

/-- `while (r && MDBX_PNL_DISORDERED(pnl[r], pgno))` of `pnl_insert_span`. -/
def insertScan (cells : Nat → Nat) (pgno : Nat) : Nat → Nat
  | 0 => 0
  | r + 1 => if cells (r + 1) ≤ pgno then insertScan cells pgno r else r + 1

/-- `pnl_insert_span`, where there is room for `n` more words -/
def insertSpan (pl : Pnl) (pgno n : Nat) : Pnl :=
  let r := insertScan pl.cells pgno pl.size
  let shifted := Buffer.moveUp pl.cells (r + 1) n (pl.size - r)
  ⟨Buffer.fill shifted (r + 1) (fun k => pgno + (n - 1 - k)) n, pl.size + n⟩

/-- `pnl_merge_inner`: `a` and `b` are the words of `dst` and `src` not yet placed, `w` the next
place. -/
def mergeInner (src : Nat → Nat) : Nat → (Nat → Nat) → Nat → Nat → (Nat → Nat)
  | 0, dst, _, _ => dst
  | w + 1, dst, a, b =>
      if ordered (src b) (dst a) then mergeInner src w (Buffer.set dst (w + 1) (dst a)) (a - 1) b
      else
        let dst' := Buffer.set dst (w + 1) (src b)
        if b - 1 > 0 then mergeInner src w dst' a (b - 1) else dst'

/-- `pnl_merge` -/
def merge (dst src : Pnl) : Pnl :=
  if src.size = 0 then dst
  else
    let total := dst.size + src.size
    let withDetent := Buffer.set dst.cells 0 pInvalid
    ⟨mergeInner src.cells total withDetent dst.size src.size, total⟩

end Pnl

end Mdbx
