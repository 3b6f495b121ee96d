import Mdbx.Compare.Model

/-!
# PageSearch.Model — the search for a key in one page

The branch-free searches that `SEARCH_FOLIAGE` and `SEARCH_BRANCH` generate, the choice among them
for a cursor, and the plain search they are checked against.  A page is the list of its keys; the
first key of a branch page stands for minus infinity and is not looked at.
-/

namespace Mdbx.PageSearch

open Compare

inductive Kind where
  | leaf
  | dupfixLeaf
  | branch
  deriving DecidableEq, Repr

/-- A page; `page_numkeys` is the half of `lower`, which has 16 bits. -/
structure Page where
  kind : Kind
  keys : List Bytes
  fits : keys.length < 2 ^ 15

def Page.numkeys (mp : Page) : Nat := mp.keys.length

/-- The key of `page_node` or `page_dupfix_ptr`. -/
def Page.key (mp : Page) (i : Nat) : Bytes := mp.keys.getD i []

/-- `mp->flags & P_BRANCH` -/
def Page.start (mp : Page) : Nat := if mp.kind = .branch then 1 else 0

/-- `sfr_t::node`; entries of a dupfix page have no node. -/
inductive NodePtr where
  | null
  | fake
  | node (i : Nat)
  deriving DecidableEq, Repr

/-- `sfr_t`, and the index that the search stores in the cursor. -/
structure Sfr where
  node : NodePtr
  exact : Bool
  ki : Nat
  deriving DecidableEq, Repr

/-- The cast to `indx_t`. -/
def indx (i : Nat) : Nat := i % 2 ^ 16

/-! ## 1. The branch-free cycle -/

/-- `x & CMP` after `CMP >>= CHAR_BIT * sizeof(CMP) - 1`. -/
def masked (cmp : Int) (x : Nat) : Nat := if cmp < 0 then x else 0

/-- How a cycle ends: on an equal key, or with no scope left. -/
inductive Outcome where
  | found (it : Nat)
  | missed (it lo : Nat) (cmp : Int)

/-- `do … while (scope > 0)`; `cmpAt i` compares entry `i` with the key.  The scope shrinks by each
round, so the fuel ends only after it. -/
def cycle (cmpAt : Nat → Int) : Nat → Nat → Nat → Outcome
  | 0, lo, _ => .missed lo lo 0
  | fuel + 1, lo, scope =>
      let half := (scope - 1) / 2
      let adjust := (scope - 1) % 2
      let it := lo + half
      let cmp := cmpAt it
      if cmp = 0 then .found it
      else
        let lo := lo + masked cmp (half + 1)
        let scope := half + masked cmp adjust
        if 0 < scope then cycle cmpAt fuel lo scope else .missed it lo cmp

/-- One of the three loops of `SEARCH_FOLIAGE` with what follows it. -/
def foliageLoop (node : Nat → NodePtr) (cmpAt : Nat → Int) (nkeys lo : Nat) : Sfr :=
  let scope := nkeys - lo
  match cycle cmpAt scope lo scope with
  | .found it => ⟨node it, true, indx it⟩
  | .missed it _ cmp =>
      -- `it += cmp & 1`
      let it := it + masked cmp 1
      ⟨if it < nkeys then node it else .null, false, indx it⟩

/-- `SEARCH_FOLIAGE` -/
def searchFoliage (branchComparator leafComparator : Bytes → Bytes → Int)
    (differentComparators dupfixed : Bool) (mp : Page) (key : Bytes) : Sfr :=
  let nkeys := mp.numkeys
  let lo := mp.start
  if (nkeys : Int) - 1 < lo then ⟨.null, false, 0⟩
  else if (differentComparators ∨ dupfixed) ∧ lo = 0 then
    if dupfixed then foliageLoop (fun _ => .fake) (fun i => leafComparator (mp.key i) key) nkeys lo
    else foliageLoop .node (fun i => leafComparator (mp.key i) key) nkeys lo
  else foliageLoop .node (fun i => branchComparator (mp.key i) key) nkeys lo

/-- `SEARCH_BRANCH`, called for pages with an entry at least -/
def searchBranch (comparator : Bytes → Bytes → Int) (mp : Page) (key : Bytes) : Nat :=
  let nkeys := mp.numkeys
  if 1 < nkeys then
    match cycle (fun i => comparator (mp.key i) key) (nkeys - 1) 1 (nkeys - 1) with
    | .found it => it
    | .missed _ lo _ => lo - 1
  else 0

/-! ## 2. The generated searches and the choice among them -/

/-- `null_comparator` must not be called. -/
def nullComparator (_ _ : Bytes) : Int := 0

/-- The functions that `clc->k.cmp`, an `MDBX_cmp_func`, points to. -/
inductive CmpFunc where
  | lexical
  | reverse
  | lenfast
  | uintUnaligned
  | uintAlign2
  | uintAlign4
  | custom (cmp : Bytes → Bytes → Int)

def CmpFunc.call (m : Machine) : CmpFunc → Bytes → Bytes → Int
  | .lexical => cmpLexical
  | .reverse => cmpReverse m
  | .lenfast => cmpLenfast
  | .uintUnaligned => cmpUintUnaligned m
  | .uintAlign2 => cmpUintAlign2 m
  | .uintAlign4 => cmpUintAlign4 m
  | .custom cmp => cmp

/-- The part of a cursor that the choice depends on. -/
structure Cursor where
  -- `MDBX_DUPFIXED` and `MDBX_INTEGERKEY` of the tree
  dupfixed : Bool
  integerKey : Bool
  dupfixSize : Nat
  -- `is_inner`
  inner : Bool
  -- `MDBX_VALIDATION` of the environment
  validation : Bool
  cmp : CmpFunc
  lmin : Nat
  lmax : Nat

def searchFoliageLexicalUsual : Page → Bytes → Sfr :=
  searchFoliage cmpLexical nullComparator false false
def searchFoliageReverseUsual (m : Machine) : Page → Bytes → Sfr :=
  searchFoliage (cmpReverse m) nullComparator false false
def searchFoliageLenfastUsual : Page → Bytes → Sfr :=
  searchFoliage cmpLenfast nullComparator false false
def searchFoliageCustomUsual (cmp : Bytes → Bytes → Int) : Page → Bytes → Sfr :=
  searchFoliage cmp nullComparator false false
/-- `#if defined(cmp_uint_align4)`: one comparator serves both kinds of pages. -/
def searchFoliageOrdinalUsual (m : Machine) : Page → Bytes → Sfr :=
  if m.separate 4 then searchFoliage (cmpUintAlign4 m) (cmpUintUnaligned m) true false
  else searchFoliage (cmpUintAlign4 m) nullComparator false false
def searchFoliageUint32Usual (m : Machine) : Page → Bytes → Sfr :=
  if m.separate 4 then
    searchFoliage (cmpUint32Align4Unchecked m) (cmpUint32UnalignedUnchecked m) true false
  else searchFoliage (cmpUint32Align4Unchecked m) nullComparator false false
def searchFoliageUint64Usual (m : Machine) : Page → Bytes → Sfr :=
  if m.separate 4 then
    searchFoliage (cmpUint64Align4Unchecked m) (cmpUint64UnalignedUnchecked m) true false
  else searchFoliage (cmpUint64Align4Unchecked m) nullComparator false false

def searchFoliageLexicalDupfix : Page → Bytes → Sfr :=
  searchFoliage cmpLexical cmpLexical false true
def searchFoliageReverseDupfix (m : Machine) : Page → Bytes → Sfr :=
  searchFoliage (cmpReverse m) (cmpReverse m) false true
def searchFoliageLenfastDupfix : Page → Bytes → Sfr :=
  searchFoliage cmpLenfast cmpLenfast false true
def searchFoliageCustomDupfix (cmp : Bytes → Bytes → Int) : Page → Bytes → Sfr :=
  searchFoliage cmp cmp false true
def searchFoliageOrdinalDupfix (m : Machine) : Page → Bytes → Sfr :=
  searchFoliage (cmpUintAlign4 m) (cmpUintUnaligned m) true true
def searchFoliageUint32Dupfix (m : Machine) : Page → Bytes → Sfr :=
  searchFoliage (cmpUint32Align4Unchecked m) (cmpUint32UnalignedUnchecked m) true true
def searchFoliageUint64Dupfix (m : Machine) : Page → Bytes → Sfr :=
  searchFoliage (cmpUint64Align4Unchecked m) (cmpUint64UnalignedUnchecked m) true true

/-- `keylen`, once it is in the limits, becomes the only length. -/
def Cursor.narrow (c : Cursor) (keylen : Nat) : Cursor :=
  if c.lmin ≤ keylen ∧ keylen ≤ c.lmax ∧ (keylen = 4 ∨ keylen = 8) then
    { c with lmin := keylen, lmax := keylen }
  else c

/-- Whether the comparator is one of `cmp_uint_*`; where names stand for `cmp_uint_unaligned`, the
test against it covers them. -/
def CmpFunc.isUint : CmpFunc → Bool
  | .uintUnaligned => true
  | .uintAlign2 => true
  | .uintAlign4 => true
  | _ => false

/-- The choice for integer keys: by one length, of both lengths, or none. -/
def ordinalChoice {α : Type} (c : Cursor) (keylen : Nat) (uint32 uint64 ordinal custom : α) : α :=
  let c := c.narrow keylen
  let size := if c.cmp.isUint then keylen else 0
  if size ≠ 0 then
    if ¬c.validation ∧ size = c.lmin ∧ size = c.lmax ∧ size = 4 then uint32
    else if ¬c.validation ∧ size = c.lmin ∧ size = c.lmax ∧ size = 8 then uint64
    else ordinal
  else custom

/-- `cursor_to_search_foliage`, with `mp` on the top of the stack of the cursor -/
def cursorToSearchFoliage (m : Machine) (c : Cursor) (mp : Page) : Page → Bytes → Sfr :=
  if c.dupfixed ∧ c.inner then
    match c.cmp with
    | .lexical => searchFoliageLexicalDupfix
    | .reverse => searchFoliageReverseDupfix m
    | .lenfast => searchFoliageLenfastDupfix
    | cmp =>
        if c.integerKey then
          ordinalChoice c c.dupfixSize (searchFoliageUint32Dupfix m) (searchFoliageUint64Dupfix m)
            (searchFoliageOrdinalDupfix m) (searchFoliageCustomDupfix (cmp.call m))
        else searchFoliageCustomDupfix (cmp.call m)
  else
    match c.cmp with
    | .lexical => searchFoliageLexicalUsual
    | .reverse => searchFoliageReverseUsual m
    | .lenfast => searchFoliageLenfastUsual
    | cmp =>
        if c.integerKey then
          ordinalChoice c (mp.key 0).length (searchFoliageUint32Usual m)
            (searchFoliageUint64Usual m) (searchFoliageOrdinalUsual m)
            (searchFoliageCustomUsual (cmp.call m))
        else searchFoliageCustomUsual (cmp.call m)

/-- `cursor_to_search_branch`, with `mp` on the top of the stack of the cursor -/
def cursorToSearchBranch (m : Machine) (c : Cursor) (mp : Page) : Page → Bytes → Nat :=
  match c.cmp with
  | .lexical => searchBranch cmpLexical
  | .reverse => searchBranch (cmpReverse m)
  | .lenfast => searchBranch cmpLenfast
  | cmp =>
      if c.integerKey then
        let keylen := if mp.kind = .dupfixLeaf then c.dupfixSize else (mp.key mp.start).length
        ordinalChoice c keylen (searchBranch (cmpUint32Align4Unchecked m))
          (searchBranch (cmpUint64Align4Unchecked m)) (searchBranch (cmpUintAlign4 m))
          (searchBranch (cmp.call m))
      else searchBranch (cmp.call m)

/-! ## 3. The plain search -/

/-- `do … while (lo <= hi)`; `cmpAt i` compares the key with entry `i`. -/
def oldLoop (cmpAt : Nat → Int) : Nat → Int → Int → Int × Bool
  | 0, lo, _ => (lo, false)
  | fuel + 1, lo, hi =>
      -- `(lo + hi) >> 1`
      let i := (lo + hi) / 2
      let cmp := cmpAt i.toNat
      if 0 < cmp then if i + 1 ≤ hi then oldLoop cmpAt fuel (i + 1) hi else (i + 1, false)
      else if cmp < 0 then if lo ≤ i - 1 then oldLoop cmpAt fuel lo (i - 1) else (i, false)
      else (i, true)

/-- Branch pages hold no data, so integer keys are aligned there. -/
def oldComparator (m : Machine) (c : CmpFunc) (mp : Page) : Bytes → Bytes → Int :=
  match c with
  | .uintAlign2 =>
      if m.unalignedOk < 4 ∧ mp.kind = .branch then cmpUintAlign4 m else cmpUintAlign2 m
  -- `cmp_uint_align2` may be another name of `cmp_uint_unaligned`
  | .uintUnaligned =>
      if m.unalignedOk < 4 ∧ mp.kind = .branch ∧ ¬m.separate 2 then cmpUintAlign4 m
      else cmpUintUnaligned m
  | c => c.call m

/-- `old_node_search` -/
def oldNodeSearch (m : Machine) (c : CmpFunc) (mp : Page) (key : Bytes) : Sfr :=
  let nkeys := mp.numkeys
  let lo := mp.start
  if (nkeys : Int) - 1 < lo then ⟨.null, false, 0⟩
  else if mp.kind = .dupfixLeaf then
    let out := oldLoop (fun i => c.call m key (mp.key i)) nkeys lo (nkeys - 1)
    ⟨if out.1 < nkeys then .fake else .null, out.2, indx out.1.toNat⟩
  else
    let out := oldLoop (fun i => oldComparator m c mp key (mp.key i)) nkeys lo (nkeys - 1)
    ⟨if out.1 < nkeys then .node out.1.toNat else .null, out.2, indx out.1.toNat⟩

/-- `old_branch_search` -/
def oldBranchSearch (m : Machine) (c : CmpFunc) (mp : Page) (key : Bytes) : Nat :=
  let nsr := oldNodeSearch m c mp key
  if nsr.node ≠ .null then nsr.ki + (if nsr.exact then 1 else 0) - 1 else mp.numkeys - 1

end Mdbx.PageSearch
