import Mdbx.Lib.PageTree

/-!
# Dups.Cursor — the duplicates of a key, page by page

An outer cursor stands at a node of a `MDBX_DUPFIXED` table; its inner cursor is in the sub-page or
the nested tree of that node.  All the values are of one length, so that a page of them is fetched as
it is.
-/

namespace Mdbx.Dups

open PageTree

/-! ## 1. Cursors -/

/-- The flags of `enum cursor_state` that come and go. -/
structure Flags where
  fresh : Bool
  afterDelete : Bool
  eofSoft : Bool
  eofHard : Bool
  hollow : Bool
  deriving DecidableEq, Repr

/-- What `z_clear_mask` leaves. -/
def clear : Flags := ⟨false, false, false, false, false⟩

/-- `z_poor_mark` -/
def poorMark : Flags := ⟨false, false, false, true, true⟩

/-- `z_fresh_mark` -/
def freshMark : Flags := { poorMark with fresh := true }

def isFilled (flags : Flags) : Bool := !flags.eofHard && !flags.hollow

/-- `top` is the length of the stack less one. -/
structure Cursor (V : Type) where
  stack : List (Frame V V)
  flags : Flags

/-- `tree_t`; the height is that of the root above the leaves. -/
structure Nested (V : Type) where
  height : Nat
  root : Tree V V

/-- The data of a node: one value, `N_DUP` or `N_DUP | N_TREE`. -/
inductive Node (V : Type) where
  | single (data : V)
  | subPage (values : List V)
  | nested (tree : Nested V)

structure Couple (V : Type) where
  node : Node V
  -- of the outer cursor, which stands at the node
  flags : Flags
  inner : Cursor V

inductive Answer (V : Type) where
  | page (values : List V)
  | success
  | notFound
  | enodata
  -- a sub-page or a `tree_t` read as if it were a value
  | nodeBytes
  deriving DecidableEq, Repr

variable {V : Type}

def Answer.isSuccess : Answer V → Bool
  | .success => true
  | _ => false

/-- Where the duplicates of a node are. -/
def Node.tree : Node V → Nested V
  | .single data => ⟨0, .leaf [data]⟩
  | .subPage values => ⟨0, .leaf values⟩
  | .nested tree => tree

def setTop (c : Cursor V) (ki : Nat) : Cursor V :=
  match c.stack with
  | [] => c
  | top :: rest => { c with stack := { top with ki := ki } :: rest }

/-! ## 2. Moves of an inner cursor -/

/-- `tree_search(.., Z_FIRST)` and `tree_search(.., Z_LAST)`. -/
def treeSearch (tree : Nested V) (first : Bool) : List (Frame V V) :=
  deepen first tree.height [⟨tree.root, edge first tree.root⟩]

/-- `cursor_bring` on a `P_DUPFIX` leaf. -/
def bringInner (c : Cursor V) (eof : Bool) : Answer V × Cursor V :=
  (.success, { c with flags := { clear with eofSoft := eof } })

/-- `cursor_brim`: `inner_first` and `inner_last` -/
def innerBrim (tree : Nested V) (first : Bool) (c : Cursor V) : Answer V × Cursor V :=
  let found := if c.stack.length ≠ 1 then { c with stack := treeSearch tree first } else c
  match found.stack with
  | [] => (.enodata, found)
  | top :: _ => bringInner (setTop found (edge first top.page)) (!first)

def cursorSiblingLeft (c : Cursor V) : Answer V × Cursor V :=
  match stepAside false c.stack with
  | some stack => (.success, { c with stack := stack })
  | none => (.notFound, setTop c 0)

def cursorSiblingRight (c : Cursor V) : Answer V × Cursor V :=
  match stepAside true c.stack with
  | some stack => (.success, { c with stack := stack })
  | none =>
      match c.stack with
      | [] => (.notFound, c)
      | top :: _ =>
          (.notFound, { setTop c (top.page.numkeys - 1) with
            flags := { clear with eofSoft := true, eofHard := true } })

/-- The part of `cursor_step` after the flags have been looked at. -/
def innerTurn (forward : Bool) (c : Cursor V) (top : Frame V V) : Answer V × Cursor V :=
  let aside := if forward then cursorSiblingRight c else cursorSiblingLeft c
  if (if forward then top.ki + 1 < top.page.numkeys else 0 < top.ki) then
    bringInner (setTop c (if forward then top.ki + 1 else top.ki - 1)) false
  else if ¬ aside.1.isSuccess then aside
  else bringInner aside.2 false

/-- `cursor_step` for an inner cursor: `inner_next` and `inner_prev` -/
def innerStep (tree : Nested V) (forward : Bool) (c : Cursor V) :
    Answer V × Cursor V :=
  match c.stack with
  | [] =>
      if c.flags.fresh then innerBrim tree forward c
      else (if c.flags.afterDelete then .notFound else .enodata, { c with flags := poorMark })
  | top :: _ =>
      if ¬ c.flags.afterDelete ∧ ¬ c.flags.hollow ∧ ¬ c.flags.eofHard ∧ ¬ c.flags.eofSoft then
        innerTurn forward c top
      else if c.flags.hollow then (.enodata, c)
      else if forward then
        if c.flags.afterDelete then
          if top.ki < top.page.numkeys then bringInner c false else innerTurn forward c top
        else (.notFound, c)
      else if c.flags.eofHard then bringInner (setTop c (top.page.numkeys - 1)) false
      else innerTurn forward c top

/-! ## 3. Placing -/

/-- `cursor_dupsort_setup`, or `inner_gone` where there are no duplicates. -/
def dupsortSetup : Node V → Cursor V
  | .single _ => ⟨[], poorMark⟩
  | .subPage values => ⟨[⟨.leaf values, 0⟩], clear⟩
  | .nested _ => ⟨[], freshMark⟩

/-- `cursor_bring` at a node, by `MDBX_FIRST`, `MDBX_LAST` or, with `first`, a seek of its key -/
def bring (first eof : Bool) (node : Node V) : Couple V :=
  match node with
  | .single _ => ⟨node, { clear with eofSoft := eof }, dupsortSetup node⟩
  | .subPage values =>
      let c := dupsortSetup node
      ⟨node, clear,
        if first then c
        else { setTop c (values.length - 1) with flags := { c.flags with eofSoft := true } }⟩
  | .nested tree => ⟨node, clear, (innerBrim tree first (dupsortSetup node)).2⟩

/-! ## 4. Multi-value fetches -/

def innerPointed (c : Couple V) : Bool := !c.inner.stack.isEmpty

def innerFilled (c : Couple V) : Bool := isFilled c.inner.flags

/-- `fetch_multiple` -/
def fetchMultiple (c : Couple V) : Answer V × Couple V :=
  match c.inner.stack with
  | [] => (.enodata, c)
  | top :: _ =>
      (.page top.page.items, { c with inner := setTop c.inner (top.page.numkeys - 1) })

def nodeRead : Node V → Answer V
  | .single data => .page [data]
  | _ => .nodeBytes

/-- `MDBX_GET_MULTIPLE` -/
def getMultiple (c : Couple V) : Answer V × Couple V :=
  if ¬ isFilled c.flags then (.enodata, c)
  else if ¬ innerFilled c then
    if innerPointed c then (.enodata, c) else (nodeRead c.node, c)
  else fetchMultiple c

/-- `outer_next(.., MDBX_NEXT_DUP)` -/
def outerNextDup (c : Couple V) : Answer V × Couple V :=
  if ¬ c.flags.afterDelete ∧ ¬ c.flags.hollow ∧ ¬ c.flags.eofHard ∧ ¬ c.flags.eofSoft then
    if innerPointed c then
      let out := innerStep c.node.tree true c.inner
      (out.1, { c with inner := out.2 })
    else (.notFound, c)
  else if c.flags.hollow then (.enodata, c)
  else (.notFound, c)

/-- `MDBX_NEXT_MULTIPLE` -/
def nextMultiple (c : Couple V) : Answer V × Couple V :=
  let out := outerNextDup c
  if ¬ out.1.isSuccess then out else fetchMultiple out.2

/-- `MDBX_PREV_MULTIPLE` -/
def prevMultiple (c : Couple V) : Answer V × Couple V :=
  if ¬ isFilled c.flags ∨ ¬ innerFilled c then (.enodata, c)
  else
    let out := cursorSiblingLeft c.inner
    if ¬ out.1.isSuccess then (out.1, { c with inner := out.2 })
    else fetchMultiple { c with inner := out.2 }

inductive Op where
  | get
  | next
  | prev
  deriving DecidableEq, Repr

def step (c : Couple V) : Op → Answer V × Couple V
  | .get => getMultiple c
  | .next => nextMultiple c
  | .prev => prevMultiple c

end Mdbx.Dups
