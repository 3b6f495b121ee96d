import Mdbx.Lib.SortedMap

/-!
# Put.Model — `cursor_put` over the items of a table

A table is the list of its leaf nodes in the order of their keys, and a node holds a value, the
values of a sub-page or nested tree, or the record of a named table.  Pages, splits and the failures
of allocations and reads are left out: none of them changes which items there are or returns one of
the codes that refuse a put.
-/

namespace Mdbx.Put

/-! ## 1. Tables -/

/-- The value of a leaf node: `dups` is `N_DUP`, and `record` is `N_TREE` alone. -/
inductive Node (V : Type) where
  | single (v : V)
  | dups (vs : List V)
  | record (v : V)
  deriving DecidableEq, Repr

def Node.values {V : Type} : Node V → List V
  | .single v => [v]
  | .dups vs => vs
  | .record v => [v]

structure Table (K V : Type) where
  dupSort : Bool
  dupFixed : Bool
  integerDup : Bool
  dupfixSize : Nat
  nodes : List (K × Node V)
  deriving DecidableEq, Repr

/-- The size of a value, and whether `node_size` of a key and a value is above `leaf_nodemax`. -/
structure Sizes (K V : Type) where
  valLen : V → Nat
  tooBig : K → V → Bool

inductive Code where
  | success
  | notFound
  | enodata
  | keyExist
  | eKeyMismatch
  | badValSize
  | incompatible
  | einval
  deriving DecidableEq, Repr

/-- `MDBX_put_flags_t`; `MDBX_MULTIPLE` comes with its values. -/
structure Flags where
  noOverwrite : Bool
  noDupData : Bool
  current : Bool
  allDups : Bool
  reserve : Bool
  append : Bool
  appendDup : Bool
  deriving DecidableEq, Repr

/-- What is put: a value, or with `MDBX_MULTIPLE` an array of values of size `len`. -/
inductive Data (V : Type) where
  | value (v : V)
  | multiple (len : Nat) (vs : List V)
  deriving DecidableEq, Repr

/-- What `MDBX_GET_CURRENT` finds. -/
inductive Cursor (K V : Type) where
  | item (k : K) (v : V)
  | hollow
  | atEnd
  deriving DecidableEq, Repr

variable {K V : Type} [LinearOrder K] [LinearOrder V]

omit [LinearOrder K] in
-- the values of a node are compared by the order of the table
scoped instance memDecidable (d : V) (vs : List V) : Decidable (d ∈ vs) := inferInstance

def Table.get? (t : Table K V) (k : K) : Option (Node V) := SortedMap.get? k t.nodes

def Table.set (t : Table K V) (k : K) (n : Node V) : Table K V :=
  { t with nodes := SortedMap.put k n t.nodes }

def Table.erase (t : Table K V) (k : K) : Table K V :=
  { t with nodes := SortedMap.erase k t.nodes }

/-- The items of a table, in order. -/
def Table.items (t : Table K V) : List (K × V) :=
  t.nodes.flatMap fun p => p.2.values.map fun v => (p.1, v)

/-! ## 2. `cursor_del` -/

/-- `cursor_del` at the value `v` under `k`. -/
def cursorDel (t : Table K V) (k : K) (v : V) (allDups : Bool) : Except Code (Table K V) :=
  match t.get? k with
  | none => .error .enodata
  | some (.dups vs) =>
    if allDups then .ok (t.erase k)
    else if vs.erase v = [] then .ok (t.erase k)
    else .ok (t.set k (.dups (vs.erase v)))
  | some (.single _) => .ok (t.erase k)
  | some (.record _) => .error .incompatible

/-! ## 3. The nested `cursor_put` -/

/-- `cursor_put` of a value into the values of a key, where `at?` is the value to be overwritten
with `MDBX_CURRENT`; `noDupData` and `appendDup` have been shifted to `MDBX_NOOVERWRITE` and
`MDBX_APPEND`. -/
def innerPut (s : Sizes K V) (t : Table K V) (flags : Flags) (at? : Option V) (vs : List V) (d : V) :
    List V × Code :=
  match at? with
  | some a =>
    if t.dupFixed ∧ s.valLen d ≠ t.dupfixSize then (vs, .badValSize)
    else (vs.map fun v => if v = a then d else v, .success)
  | none =>
    match flags.appendDup, vs.getLast? with
    | true, some last =>
      if last < d then (vs ++ [d], .success)
      else if d ≠ last then (vs, .eKeyMismatch)
      else (vs, if flags.noDupData then .keyExist else .success)
    | _, _ =>
      if d ∈ vs then (vs, if flags.noDupData then .keyExist else .success)
      else (vs.orderedInsert (· ≤ ·) d, .success)

/-! ## 4. The block of `MDBX_CURRENT` -/

/-- What a part of `cursor_put` leads to: it returns, or goes on, with the flag that it has left. -/
inductive Stage (K V : Type) where
  | ret (t : Table K V) (code : Code)
  | go (t : Table K V) (flag : Bool)

/-- The item was deleted, and is going to be inserted. -/
def Stage.afterDel (t : Table K V) : Except Code (Table K V) → Stage K V
  | .error code => .ret t code
  | .ok t' => .go t' false

def Cursor.getCurrent : Cursor K V → Except Code (K × V)
  | .item k v => .ok (k, v)
  | .hollow => .error .enodata
  | .atEnd => .error .notFound

/-- `skip_check_samedata` is behind it. -/
def sameData (t : Table K V) (flags : Flags) (v d : V) : Stage K V :=
  if ¬flags.reserve ∧ v = d then .ret t .success else .go t true

/-- `MDBX_MULTIPLE` at the item `v` under `k`. -/
def updateMultiple (t : Table K V) (flags : Flags) (k : K) (v : V) (vs : List V) : Stage K V :=
  if ¬t.dupSort then .ret t .einval
  else match cursorDel t k v flags.allDups with
    | .error code => .ret t code
    | .ok t' => if vs = [] then .ret t' .success else .go t' false

/-- The value `d` in place of the item `v` under `k`. -/
def updateValue (s : Sizes K V) (t : Table K V) (flags : Flags) (k : K) (v d : V) : Stage K V :=
  if t.dupSort then
    match t.get? k with
    | some (.dups vs) =>
      if 1 < vs.length ∨ s.valLen v ≠ s.valLen d then .afterDel t (cursorDel t k v flags.allDups)
      else sameData t flags v d
    | _ =>
      if s.tooBig k d then .afterDel t (cursorDel t k v false) else sameData t flags v d
  else sameData t flags v d

def putCurrent (s : Sizes K V) (t : Table K V) (cur : Cursor K V) (flags : Flags) (key : K)
    (data : Data V) : Stage K V :=
  if flags.append ∨ flags.noOverwrite then .ret t .einval
  else match cur.getCurrent with
    | .error code => .ret t code
    | .ok (k, v) =>
      if key ≠ k then .ret t .eKeyMismatch
      else match data with
        | .multiple _ vs => updateMultiple t flags k v vs
        | .value d => updateValue s t flags k v d

/-! ## 5. The search -/

inductive Place where
  | absent
  | exact
  | mismatch
  deriving DecidableEq, Repr

def place (t : Table K V) (flags : Flags) (key : K) : Place :=
  match flags.append, t.nodes.getLast? with
  | true, some (last, _) =>
    if last < key then .absent else if key ≠ last then .mismatch else .exact
  | _, _ => if (t.get? key).isSome then .exact else .absent

/-- The part for `exact`; the flag it leaves is `insert_key`. -/
def putExact (t : Table K V) (flags : Flags) (key : K) (data : Data V) : Stage K V :=
  match t.get? key with
  | none => .go t true
  | some n =>
    if flags.noOverwrite then .ret t .keyExist
    else match n with
      | .dups vs =>
        -- `cursor_del` of all duplicates
        if flags.allDups then .go (t.erase key) true
        else match data with
          | .multiple _ _ => .go t false
          | .value d =>
            if flags.reserve then .go t false
            else if d ∈ vs then
              .ret t (if flags.noDupData then .keyExist
                else if flags.appendDup then .eKeyMismatch else .success)
            else .go t false
      | .single v | .record v => match data with
        | .multiple _ _ => .go t false
        | .value d =>
          if ¬flags.reserve ∧ d = v then
            .ret t (if t.dupSort ∧ flags.noDupData then .keyExist else .success)
          else .go t false

def putSeek (t : Table K V) (flags : Flags) (key : K) (data : Data V) : Stage K V :=
  if t.nodes = [] then .go t true
  else match place t flags key with
    | .absent => .go t true
    | .mismatch => .ret t .eKeyMismatch
    | .exact => putExact t flags key data

/-! ## 6. The values -/

/-- The key does not exist. -/
def insertNode (s : Sizes K V) (t : Table K V) (flags : Flags) (key : K) (d : V) :
    Table K V × Code :=
  if t.dupSort ∧ s.tooBig key d then
    let (vs, code) := innerPut s t flags none [] d
    (t.set key (.dups vs), code)
  else (t.set key (.single d), .success)

/-- From the label `more` to the end of a round; `current` is what is left of `MDBX_CURRENT`. -/
def more (s : Sizes K V) (t : Table K V) (flags : Flags) (current : Bool) (key : K) (d : V) :
    Table K V × Code :=
  match t.get? key with
  | none => (t, .success)
  | some (.record _) => (t, .incompatible)
  | some (.single v) =>
    if t.dupSort then
      if flags.appendDup ∧ d ≤ v then (t, .eKeyMismatch)
      else if d = v then (t, if flags.noDupData then .keyExist else .success)
      else if current then (t.set key (.single d), .success)
      else
        let (vs, code) := innerPut s t flags none [v] d
        (t.set key (.dups vs), code)
    else (t.set key (.single d), .success)
  | some (.dups vs) =>
    let (vs', code) := innerPut s t flags (if current then vs.head? else none) vs d
    (t.set key (.dups vs'), code)

def round (s : Sizes K V) (t : Table K V) (flags : Flags) (current insertKey : Bool) (key : K)
    (d : V) : Table K V × Code :=
  if insertKey then insertNode s t flags key d else more s t flags current key d

/-- What `cursor_put` returns; `count` is what `MDBX_MULTIPLE` leaves in `data[1].iov_len`. -/
structure Outcome (K V : Type) where
  table : Table K V
  code : Code
  count : Nat

/-- The rounds of `MDBX_MULTIPLE`, of which `done` have been made. -/
def rounds (s : Sizes K V) (flags : Flags) (key : K) :
    Table K V → Bool → Nat → List V → Outcome K V
  | t, _, done, [] => ⟨t, .success, done⟩
  | t, insertKey, done, d :: ds =>
    let (t', code) := round s t flags false insertKey key d
    if code = .success then rounds s flags key t' false (done + 1) ds else ⟨t', code, done⟩

def Data.count : Data V → Nat
  | .value _ => 0
  | .multiple _ vs => vs.length

def Data.len (s : Sizes K V) : Data V → Nat
  | .value v => s.valLen v
  | .multiple len _ => len

/-- A new root page fixes the size of the values. -/
def newRoot (s : Sizes K V) (t : Table K V) (data : Data V) : Table K V :=
  if t.nodes = [] ∧ (t.integerDup ∨ t.dupFixed) then { t with dupfixSize := data.len s } else t

def putValues (s : Sizes K V) (t : Table K V) (flags : Flags) (current insertKey : Bool) (key : K)
    (data : Data V) : Outcome K V :=
  match data with
  | .multiple _ [] => ⟨t, .success, 0⟩
  | .multiple _ vs => rounds s flags key (newRoot s t data) insertKey 0 vs
  | .value d =>
    let (t', code) := round s (newRoot s t data) flags current insertKey key d
    ⟨t', code, 0⟩

def cursorPut (s : Sizes K V) (t : Table K V) (cur : Cursor K V) (flags : Flags) (key : K)
    (data : Data V) : Outcome K V :=
  match if flags.current then putCurrent s t cur flags key data else .go t false with
  | .ret t' code => ⟨t', code, data.count⟩
  | .go t₁ current =>
    match if current then .go t₁ false else putSeek t₁ flags key data with
    | .ret t' code => ⟨t', code, data.count⟩
    | .go t₂ insertKey => putValues s t₂ flags current insertKey key data

end Mdbx.Put
