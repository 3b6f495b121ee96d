import Mdbx.Lib.Buffer

/-!
# Sort.Model — `SORT_IMPL` and `RADIXSORT_IMPL`

A quick sort with an explicit stack, and with networks for parts of up to eight items; and a radix
sort by bytes of a key, with two passes a round.  An array is a part of a buffer, from a cell that
is not the first, so that there is a pointer to the cell before it.
-/

namespace Mdbx.Sort

open Buffer

variable {α : Type}

/-! ## 1. Networks -/

/-- `MDBX_HAVE_CMOV`, `EXPECT_LOW_CARDINALITY_OR_PRESORTED` and `sizeof(size_t) * CHAR_BIT`. -/
structure Config where
  haveCmov : Bool
  expectPresorted : Bool
  sizeBits : Nat

/-- `SORT_CMP_SWAP` -/
def sortCmpSwap (c : Config) (cmp : α → α → Bool) (x : Nat → α) (a b : Nat) : Nat → α :=
  if c.haveCmov then
    let swapTmp := x a
    let swapCmp := cmp swapTmp (x b)
    let x := set x a (if swapCmp then swapTmp else x b)
    set x b (if swapCmp then x b else swapTmp)
  else if ¬ cmp (x a) (x b) then
    let swapTmp := x a
    let x := set x a (x b)
    set x b swapTmp
  else x

def sortNetwork3 : List (Nat × Nat) := [(1, 2), (0, 2), (0, 1)]

def sortNetwork4 : List (Nat × Nat) := [(0, 1), (2, 3), (0, 2), (1, 3), (1, 2)]

def sortNetwork5 : List (Nat × Nat) :=
  [(0, 4), (1, 3), (0, 2), (2, 4), (0, 1), (2, 3), (1, 4), (1, 2), (3, 4)]

def sortNetwork6 : List (Nat × Nat) :=
  [(1, 2), (4, 5), (0, 2), (3, 5), (0, 1), (3, 4), (2, 5), (0, 3), (1, 4), (2, 4), (1, 3), (2, 3)]

def sortNetwork7 : List (Nat × Nat) :=
  [(0, 4), (1, 5), (2, 6), (0, 2), (1, 3), (4, 6), (2, 4), (3, 5), (0, 1), (2, 3), (4, 5), (1, 4),
    (3, 6), (1, 2), (3, 4), (5, 6)]

def sortNetwork8 : List (Nat × Nat) :=
  [(0, 4), (1, 5), (2, 6), (3, 7), (0, 2), (1, 3), (4, 6), (5, 7), (2, 4), (3, 5), (0, 1), (6, 7),
    (2, 3), (4, 5), (1, 4), (3, 6), (1, 2), (3, 4), (5, 6)]

/-- The cases of `SORT_INNER`. -/
def sortNetwork : Nat → List (Nat × Nat)
  | 2 => [(0, 1)]
  | 3 => sortNetwork3
  | 4 => sortNetwork4
  | 5 => sortNetwork5
  | 6 => sortNetwork6
  | 7 => sortNetwork7
  | 8 => sortNetwork8
  | _ => []

/-- `SORT_INNER`, for a length of at most 8 -/
def sortInner (c : Config) (cmp : α → α → Bool) (x : Nat → α) (begin len : Nat) : Nat → α :=
  (sortNetwork len).foldl (fun x p => sortCmpSwap c cmp x (begin + p.1) (begin + p.2)) x

/-! ## 2. Quick sort -/

/-- `NAME_is_sorted`, of so many items after the first. -/
def isSorted (cmp : α → α → Bool) (x : Nat → α) : Nat → Nat → Bool
  | 0, _ => true
  | n + 1, first => if cmp (x (first + 1)) (x first) then false else isSorted cmp x n (first + 1)

/-- `while (CMP(*left, *mid)) ++left`, or nothing behind the part. -/
def scanLeft (cmp : α → α → Bool) (x : Nat → α) (mid : Nat) : Nat → Nat → Option Nat
  | 0, _ => none
  | n + 1, left => if cmp (x left) (x mid) then scanLeft cmp x mid n (left + 1) else some left

/-- `while (CMP(*mid, *right)) --right`, or nothing before the part. -/
def scanRight (cmp : α → α → Bool) (x : Nat → α) (mid : Nat) : Nat → Nat → Option Nat
  | 0, _ => none
  | n + 1, right => if cmp (x mid) (x right) then scanRight cmp x mid n (right - 1) else some right

/-- `SORT_SWAP` -/
def sortSwap (x : Nat → α) (a b : Nat) : Nat → α :=
  let swapTmp := x a
  let x := set x a (x b)
  set x b swapTmp

/-- What the partition leaves. -/
structure Partition (α : Type) where
  items : Nat → α
  left : Nat
  right : Nat

/-- The loop of the partition between `lo` and `hi`. -/
def partitionLoop (cmp : α → α → Bool) (lo hi : Nat) :
    Nat → (Nat → α) → Nat → Nat → Nat → Option (Partition α)
  | 0, _, _, _, _ => none
  | fuel + 1, x, mid, left, right => do
      let left ← scanLeft cmp x mid (hi + 1 - left) left
      let right ← scanRight cmp x mid (right + 1 - lo) right
      if left > right then pure ⟨x, left, right⟩
      else
        let x := sortSwap x left right
        let mid := if mid = left then right else if mid = right then left else mid
        partitionLoop cmp lo hi fuel x mid (left + 1) (right - 1)

/-- From the choice of the median on. -/
def partition (c : Config) (cmp : α → α → Bool) (x : Nat → α) (lo hi : Nat) :
    Option (Partition α) :=
  let mid := lo + (hi - lo) / 2
  let x := sortCmpSwap c cmp x lo mid
  let x := sortCmpSwap c cmp x mid hi
  let x := sortCmpSwap c cmp x lo mid
  partitionLoop cmp lo hi (hi + 1 - lo) x mid (lo + 1) (hi - 1)

/-- A part of the array, with its last item; `hi` is before `lo` in an empty one. -/
structure Part where
  lo : Nat
  hi : Nat

/-- What is left to be done first, and what is pushed. -/
def choose (lo hi left right : Nat) : Part × Part :=
  if (right : Int) - lo > (hi : Int) - left then (⟨left, hi⟩, ⟨lo, right⟩)
  else (⟨lo, right⟩, ⟨left, hi⟩)

/-- The main loop, with as many rounds as `fuel`; nothing where the stack overflows. -/
def sortLoop (c : Config) (cmp : α → α → Bool) : Nat → (Nat → α) → Part → List Part →
    Option (Nat → α)
  | 0, _, _, _ => none
  | fuel + 1, x, ⟨lo, hi⟩, stack =>
      if hi + 1 - lo ≤ 8 then
        let x := sortInner c cmp x lo (hi + 1 - lo)
        match stack with
        | [] => some x
        | top :: stack => sortLoop c cmp fuel x top stack
      else do
        let p ← partition c cmp x lo hi
        let lo' := if c.expectPresorted ∧ isSorted cmp p.items (p.right - lo) lo then p.right + 1
          else lo
        let hi' := if c.expectPresorted ∧ isSorted cmp p.items (hi - p.left) p.left then p.left
          else hi
        let next := choose lo' hi' p.left p.right
        if stack.length < c.sizeBits then
          sortLoop c cmp fuel p.items next.1 (next.2 :: stack)
        else none

/-- `SORT_IMPL`, for the cells from `begin` up to `end` -/
def sort (c : Config) (cmp : α → α → Bool) (x : Nat → α) (begin «end» : Nat) : Option (Nat → α) :=
  sortLoop c cmp (2 * («end» - begin) + 1) x ⟨begin, «end» - 1⟩ []

/-! ## 3. Radix sort -/

/-- `pgno_t` counters. -/
def incr (counter : Nat → Nat) (digit : Nat) : Nat → Nat :=
  set counter digit ((counter digit + 1) % 2 ^ 32)

/-- What the first loop counts. -/
structure Counters where
  a : Nat → Nat
  b : Nat → Nat
  keyDiffMask : Nat
  prevKey : Nat

def Counters.count (s : Counters) (key : Nat) : Counters where
  a := incr s.a (key &&& 255)
  b := incr s.b ((key >>> 8) &&& 255)
  keyDiffMask := s.keyDiffMask ||| (s.prevKey ^^^ key)
  prevKey := key

/-- `do … while (++r != end)`, with `end - r` items left; nothing behind the end. -/
def countLoop (key : α → Nat) (x : Nat → α) (shift : Nat) : Nat → Nat → Counters → Option Counters
  | 0, _, _ => none
  | left + 1, r, s =>
      let s := s.count (key (x r) >>> shift)
      if left = 0 then some s else countLoop key x shift left (r + 1) s

/-- A counter becomes the sum of those before it. -/
def sumLoop : Nat → Nat → Nat → (Nat → Nat) → (Nat → Nat)
  | 0, _, _, counter => counter
  | n + 1, i, t, counter =>
      sumLoop n (i + 1) ((t + counter i) % 2 ^ 32) (set counter i t)

/-- `do dst[counter[digit]++] = *r; while (++r != end)` -/
def scatterLoop (digit : α → Nat) (src : Nat → α) : Nat → Nat → (Nat → Nat) → (Nat → α) →
    Option (Nat → α)
  | 0, _, _, _ => none
  | left + 1, r, counter, dst =>
      let d := digit (src r)
      let dst := set dst (counter d) (src r)
      if left = 0 then some dst else scatterLoop digit src left (r + 1) (incr counter d) dst

/-- `memcpy(begin, tmp, …)` -/
def copyBack (x tmp : Nat → α) (length : Nat) : Nat → α := fun j => if j < length then tmp j else x j

/-- The rounds, two bytes of the key each, on the array `x` from its first cell on and another
buffer. -/
def radixLoop (key : α → Nat) (length : Nat) : Nat → Nat → (Nat → α) → (Nat → α) →
    Option (Nat → α)
  | 0, _, _, _ => none
  | fuel + 1, shift, x, tmp => do
      let s ← countLoop key x shift length 0 ⟨fun _ => 0, fun _ => 0, 0, key (x 0) >>> shift⟩
      let a := sumLoop 256 0 0 s.a
      let b := sumLoop 256 0 0 s.b
      let tmp ← scatterLoop (fun v => (key v >>> shift) &&& 255) x length 0 a tmp
      if s.keyDiffMask < 256 then pure (copyBack x tmp length)
      else
        let x ← scatterLoop (fun v => (key v >>> shift >>> 8) &&& 255) tmp length 0 b x
        if s.keyDiffMask >>> 16 ≠ 0 then radixLoop key length fuel (shift + 16) x tmp else pure x

/-- `NAME_radixsort`, with `memory` for a buffer that is preallocated or can be allocated; a key has
at most 64 bits. -/
def radixsort (memory : Bool) (key : α → Nat) (x tmp : Nat → α) (length : Nat) :
    Option (Bool × (Nat → α)) :=
  if memory then (radixLoop key length 4 0 x tmp).map fun x => (true, x) else some (false, x)

end Mdbx.Sort
