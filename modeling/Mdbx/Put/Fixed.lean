import Mdbx.Put.Batch

/-!
# Put.Fixed — `cursor_put` over sub-pages and nested trees of values of one size

In a table with `MDBX_DUPFIXED` the values of a key are a lone value in the leaf node, an array on a
sub-page, or the keys of a nested tree with a counter.  What the values fit into depends on the layout
of the pages, which is an input of each put here; other cursors are left out.
-/

namespace Mdbx.Put.Fixed

/-! ## 1. Tables -/

/-- `nested_tree`, with its keys in order. -/
structure Nested (V : Type) where
  items : Nat
  vs : List V
  deriving DecidableEq, Repr

/-- A leaf node: with `N_DUP` the data is a sub-page, with `N_TREE` as well the record of a tree. -/
inductive Hive (V : Type) where
  | single (v : V)
  | subPage (vs : List V)
  | subTree (db : Nested V)
  deriving DecidableEq, Repr

/-- What `cursor_dupsort_setup` finds. -/
def Hive.nested {V : Type} : Hive V → Nested V
  | .single v => ⟨1, [v]⟩
  | .subPage vs => ⟨vs.length, vs⟩
  | .subTree db => db

def Hive.values {V : Type} (node : Hive V) : List V := node.nested.vs

/-- `tree_t` -/
structure Tree (K V : Type) where
  dupfixSize : Nat
  items : Nat
  nodes : List (K × Hive V)
  deriving DecidableEq, Repr

/-- What the pages have room for: the value on the sub-page as it is, or no sub-page at all. -/
structure Layout where
  room : Bool
  toTree : Bool

variable {K V : Type} [LinearOrder K] [LinearOrder V]

def Tree.get? (t : Tree K V) (k : K) : Option (Hive V) := SortedMap.get? k t.nodes

def Tree.set (t : Tree K V) (k : K) (node : Hive V) (items : Nat) : Tree K V :=
  { t with nodes := SortedMap.put k node t.nodes, items := items }

def Tree.erase (t : Tree K V) (k : K) (items : Nat) : Tree K V :=
  { t with nodes := SortedMap.erase k t.nodes, items := items }

/-! ## 2. `cursor_del` -/

/-- A node with `N_DUP`; `node` writes the nested tree back. -/
def delDups (t : Tree K V) (k : K) (v : V) (allDups : Bool) (db : Nested V)
    (node : Nested V → Hive V) : Tree K V :=
  if allDups then t.erase k (t.items - (db.items - 1) - 1)
  else
    let db' : Nested V := ⟨db.items - 1, db.vs.erase v⟩
    if db'.items ≠ 0 then t.set k (node db') (t.items - 1) else t.erase k (t.items - 1)

def cursorDel (t : Tree K V) (k : K) (v : V) (allDups : Bool) : Except Code (Tree K V) :=
  match t.get? k with
  | none => .error .enodata
  | some (.single _) => .ok (t.erase k (t.items - 1))
  | some (.subPage vs) =>
      .ok (delDups t k v allDups ⟨vs.length, vs⟩ fun db => .subPage db.vs)
  | some (.subTree db) => .ok (delDups t k v allDups db .subTree)

/-! ## 3. The nested `cursor_put` -/

def nestedPut (s : Sizes K V) (t : Tree K V) (flags : Flags) (at? : Option V) (db : Nested V) (d : V) :
    Nested V × Code :=
  match at? with
  | some a =>
    if s.valLen d ≠ t.dupfixSize then (db, .badValSize)
    else (⟨db.items, db.vs.map fun v => if v = a then d else v⟩, .success)
  | none =>
    match flags.appendDup, db.vs.getLast? with
    | true, some last =>
      if last < d then (⟨db.items + 1, db.vs ++ [d]⟩, .success)
      else if d ≠ last then (db, .eKeyMismatch)
      else (db, if flags.noDupData then .keyExist else .success)
    | _, _ =>
      if d ∈ db.vs then (db, if flags.noDupData then .keyExist else .success)
      else (⟨db.items + 1, db.vs.orderedInsert (· ≤ ·) d⟩, .success)

/-! ## 4. A round -/

/-- What `cursor_put` carries from value to value: `N_DUP` and `N_TREE` in the flags, and its
variables. -/
structure Local (V : Type) where
  dup : Bool
  tree : Bool
  insertKey : Bool
  insertData : Bool
  oldSingledup : Option V

/-- How the node of the key is prepared for a value. -/
inductive Prepared (V : Type) where
  | ret (code : Code)
  -- "data is match exactly byte-to-byte, nothing to update"
  | same
  -- the label `current`
  | overwrite
  | put (node : Hive V) (l : Local V)

/-- From the label `more` to the labels `insert_node` and `dupsort_put`. -/
def prepare (flags : Flags) (current : Bool) (lay : Layout) (node : Hive V) (d : V) (l : Local V) :
    Prepared V :=
  match node with
  | .single v =>
    if flags.appendDup ∧ d ≤ v then .ret .eKeyMismatch
    else if ¬ flags.appendDup ∧ d = v then
      if flags.noDupData then .ret .keyExist else .same
    else if current then .overwrite
    -- the value that is there is backed up, and put to an empty page
    else if lay.toTree then
      .put (.subTree ⟨0, []⟩) { l with dup := true, tree := true, oldSingledup := some v }
    else .put (.subPage []) { l with dup := true, oldSingledup := some v }
  | .subTree db => .put (.subTree db) { l with dup := true, tree := true }
  | .subPage vs =>
    -- the cases of `switch (flags)`
    if (current ∧ ¬ flags.appendDup ∧ ¬ flags.allDups) ∨ lay.room then
      .put (.subPage vs) { l with dup := true }
    else if lay.toTree then .put (.subTree ⟨vs.length, vs⟩) { l with dup := true, tree := true }
    -- a larger sub-page
    else .put (.subPage vs) { l with dup := true }

/-- The record of the nested tree is written with `N_TREE` only. -/
def writeBack (node : Hive V) (tree : Bool) (db : Nested V) : Hive V :=
  if tree then .subTree db
  else match node with
    | .subTree old => .subTree ⟨old.items, db.vs⟩
    | _ => .subPage db.vs

/-- From the label `dupsort_put`. -/
def dupsortPut (s : Sizes K V) (t : Tree K V) (flags : Flags) (current : Bool) (node : Hive V)
    (l : Local V) (d : V) : Hive V × Local V × Code :=
  let db : Nested V := match l.oldSingledup with
    | some old => ⟨1, old :: node.nested.vs⟩
    | none => node.nested
  let probe := db.items
  let (db', code) := nestedPut s t flags (if current then db.vs.head? else none) db d
  (writeBack node l.tree db', { l with insertData := decide (probe ≠ db'.items) }, code)

/-- `if (insert_data) mc->tree->items++` -/
def Local.count (l : Local V) (items : Nat) : Nat := if l.insertData then items + 1 else items

def round (s : Sizes K V) (t : Tree K V) (flags : Flags) (current : Bool) (lay : Layout) (key : K)
    (d : V) (l : Local V) : Tree K V × Local V × Code :=
  if l.insertKey then
    if s.tooBig key d then
      -- the label `convert_to_subtree`, with an empty page
      let (node, l', code) :=
        dupsortPut s t flags false (.subTree ⟨0, []⟩) { l with dup := true, tree := true } d
      (t.set key node (l'.count t.items), l', code)
    else (t.set key (.single d) (l.count t.items), l, .success)
  else match t.get? key with
    | none => (t, l, .success)
    | some node =>
      match prepare flags current lay node d l with
      | .ret code => (t, l, code)
      | .same => (t, l, .success)
      | .overwrite => (t.set key (.single d) t.items, l, .success)
      | .put node' l₁ =>
        let (node₂, l', code) := dupsortPut s t flags current node' l₁ d
        (t.set key node₂ (l'.count t.items), l', code)

/-- The label `batch_dupfix_continue`. -/
def Local.continue (l : Local V) : Local V :=
  { l with insertKey := false, insertData := false, oldSingledup := none }

structure Outcome (K V : Type) where
  tree : Tree K V
  code : Code
  count : Nat

/-- The rounds of `MDBX_MULTIPLE`, of which `done` have been made. -/
def rounds (s : Sizes K V) (flags : Flags) (lays : Nat → Layout) (key : K) :
    Tree K V → Local V → Nat → List V → Outcome K V
  | t, _, done, [] => ⟨t, .success, done⟩
  | t, l, done, d :: ds =>
    let (t', l', code) := round s t flags false (lays done) key d l
    if code = .success then rounds s flags lays key t' l'.continue (done + 1) ds
    else ⟨t', code, done⟩

/-! ## 5. `cursor_put` -/

/-- What a part of `cursor_put` leads to. -/
inductive Stage (K V : Type) where
  | ret (t : Tree K V) (code : Code)
  | go (t : Tree K V) (flag : Bool)

def Stage.afterDel (t : Tree K V) : Except Code (Tree K V) → Stage K V
  | .error code => .ret t code
  | .ok t' => .go t' false

def sameData (t : Tree K V) (flags : Flags) (v d : V) : Stage K V :=
  if ¬flags.reserve ∧ v = d then .ret t .success else .go t true

def updateMultiple (t : Tree K V) (flags : Flags) (k : K) (v : V) (vs : List V) : Stage K V :=
  match cursorDel t k v flags.allDups with
  | .error code => .ret t code
  | .ok t' => if vs = [] then .ret t' .success else .go t' false

def updateDups (s : Sizes K V) (t : Tree K V) (flags : Flags) (k : K) (v d : V) (db : Nested V) :
    Stage K V :=
  if 1 < db.items ∨ s.valLen v ≠ s.valLen d then .afterDel t (cursorDel t k v flags.allDups)
  else sameData t flags v d

def updateValue (s : Sizes K V) (t : Tree K V) (flags : Flags) (k : K) (v d : V) : Stage K V :=
  match t.get? k with
  | some (.subPage vs) => updateDups s t flags k v d ⟨vs.length, vs⟩
  | some (.subTree db) => updateDups s t flags k v d db
  | _ => if s.tooBig k d then .afterDel t (cursorDel t k v false) else sameData t flags v d

/-- The block of `MDBX_CURRENT`. -/
def putCurrent (s : Sizes K V) (t : Tree K V) (cur : Cursor K V) (flags : Flags) (key : K)
    (data : Data V) : Stage K V :=
  if flags.append ∨ flags.noOverwrite then .ret t .einval
  else match cur.getCurrent with
    | .error code => .ret t code
    | .ok (k, v) =>
      if key ≠ k then .ret t .eKeyMismatch
      else match data with
        | .multiple _ vs => updateMultiple t flags k v vs
        | .value d => updateValue s t flags k v d

def place (t : Tree K V) (flags : Flags) (key : K) : Place :=
  match flags.append, t.nodes.getLast? with
  | true, some (last, _) =>
    if last < key then .absent else if key ≠ last then .mismatch else .exact
  | _, _ => if (t.get? key).isSome then .exact else .absent

/-- A key with duplicates. -/
def exactDups (t : Tree K V) (flags : Flags) (key : K) (data : Data V) (db : Nested V) : Stage K V :=
  -- `cursor_del` with `MDBX_ALLDUPS`
  if flags.allDups then .go (t.erase key (t.items - (db.items - 1) - 1)) true
  else match data with
    | .multiple _ _ => .go t false
    | .value d =>
      if flags.reserve then .go t false
      else if d ∈ db.vs then
        .ret t (if flags.noDupData then .keyExist
          else if flags.appendDup then .eKeyMismatch else .success)
      else .go t false

def putExact (t : Tree K V) (flags : Flags) (key : K) (data : Data V) : Stage K V :=
  match t.get? key with
  | none => .go t true
  | some node =>
    if flags.noOverwrite then .ret t .keyExist
    else match node with
      | .subPage vs => exactDups t flags key data ⟨vs.length, vs⟩
      | .subTree db => exactDups t flags key data db
      | .single v => match data with
        | .multiple _ _ => .go t false
        | .value d =>
          if ¬flags.reserve ∧ d = v then
            .ret t (if flags.noDupData then .keyExist else .success)
          else .go t false

def putSeek (t : Tree K V) (flags : Flags) (key : K) (data : Data V) : Stage K V :=
  if t.nodes = [] then .go t true
  else match place t flags key with
    | .absent => .go t true
    | .mismatch => .ret t .eKeyMismatch
    | .exact => putExact t flags key data

def newRoot (s : Sizes K V) (t : Tree K V) (data : Data V) : Tree K V :=
  if t.nodes = [] then { t with dupfixSize := data.len s } else t

/-- The variables before the first value. -/
def Local.begin (insertKey : Bool) : Local V := ⟨false, false, insertKey, insertKey, none⟩

def putValues (s : Sizes K V) (t : Tree K V) (flags : Flags) (current insertKey : Bool)
    (lays : Nat → Layout) (key : K) (data : Data V) : Outcome K V :=
  match data with
  | .multiple _ [] => ⟨t, .success, 0⟩
  | .multiple _ vs => rounds s flags lays key (newRoot s t data) (.begin insertKey) 0 vs
  | .value d =>
    let (t', _, code) := round s (newRoot s t data) flags current (lays 0) key d (.begin insertKey)
    ⟨t', code, 0⟩

/-- What is done before the values. -/
def search (s : Sizes K V) (t : Tree K V) (cur : Cursor K V) (flags : Flags) (key : K)
    (data : Data V) : Stage K V :=
  match if flags.current then putCurrent s t cur flags key data else .go t false with
  | .ret t' code => .ret t' code
  | .go t₁ current => if current then .go t₁ false else putSeek t₁ flags key data

def cursorPut (s : Sizes K V) (t : Tree K V) (cur : Cursor K V) (flags : Flags)
    (lays : Nat → Layout) (key : K) (data : Data V) : Outcome K V :=
  match if flags.current then putCurrent s t cur flags key data else .go t false with
  | .ret t' code => ⟨t', code, data.count⟩
  | .go t₁ current =>
    match if current then .go t₁ false else putSeek t₁ flags key data with
    | .ret t' code => ⟨t', code, data.count⟩
    | .go t₂ insertKey => putValues s t₂ flags current insertKey lays key data

/-! ## 6. The items -/

/-- A node without its representation. -/
def Hive.node : Hive V → Node V
  | .single v => .single v
  | .subPage vs => .dups vs
  | .subTree db => .dups db.vs

def Tree.forget (t : Tree K V) : Table K V :=
  ⟨true, true, false, t.dupfixSize, SortedMap.mapVal Hive.node t.nodes⟩

def total (nodes : List (K × Hive V)) : Nat := (nodes.map fun p => p.2.values.length).sum

/-- A table is well-formed, and its counters are right. -/
structure Tree.Counted (t : Tree K V) : Prop where
  ok : t.forget.Ok
  nested : ∀ p ∈ t.nodes, p.2.nested.items = p.2.values.length
  items : t.items = total t.nodes

section Forget

variable {t : Tree K V} {key : K}

omit [LinearOrder K] [LinearOrder V] in
theorem Hive.node_values (node : Hive V) : node.node.values = node.values := by
  cases node with
  | single v | subPage vs | subTree db => rfl

omit [LinearOrder V] in
theorem forget_get? (t : Tree K V) (key : K) : t.forget.get? key = (t.get? key).map Hive.node :=
  SortedMap.get?_mapVal Hive.node key t.nodes

omit [LinearOrder V] in
theorem forget_set (t : Tree K V) (key : K) (node : Hive V) (n : Nat) :
    (t.set key node n).forget = t.forget.set key node.node := by
  unfold Tree.forget Tree.set Table.set
  rw [SortedMap.put_mapVal]

omit [LinearOrder V] in
theorem forget_erase (t : Tree K V) (key : K) (n : Nat) :
    (t.erase key n).forget = t.forget.erase key := by
  unfold Tree.forget Tree.erase Table.erase
  rw [SortedMap.erase_mapVal]

theorem Tree.Counted.sorted (h : t.Counted) : SortedMap.Sorted t.nodes := by
  have hs := h.ok.sorted
  unfold SortedMap.Sorted Tree.forget SortedMap.mapVal at hs
  rw [List.pairwise_map] at hs
  exact hs

theorem Tree.Counted.node (h : t.Counted) {node : Hive V} (hget : t.get? key = some node) :
    node.nested.items = node.values.length ∧ node.node.Ok true :=
  ⟨h.nested (key, node) ((SortedMap.mem_iff_get? h.sorted).mpr hget),
    h.ok.node (by rw [forget_get?, hget]; rfl)⟩

-- the counter follows the values of the key
theorem Tree.Counted.set (h : t.Counted) {node : Hive V} {n : Nat} (hok : node.node.Ok true)
    (hnested : node.nested.items = node.values.length)
    (hn : n + ((t.get? key).elim 0 fun old => old.values.length) = t.items + node.values.length) :
    (t.set key node n).Counted where
  ok := by
    rw [forget_set]
    exact h.ok.set hok
  nested := fun p hp => by
    cases SortedMap.mem_put hp with
    | inl heq =>
      rw [heq]
      exact hnested
    | inr hin => exact h.nested p hin
  items := by
    have hsum := SortedMap.sum_put h.sorted (fun node : Hive V => node.values.length) key node
    have hitems := h.items
    unfold total at hitems
    unfold Tree.get? at hn
    show n = total (SortedMap.put key node t.nodes)
    unfold total
    omega

theorem Tree.Counted.erase (h : t.Counted) {n : Nat}
    (hn : n + ((t.get? key).elim 0 fun old => old.values.length) = t.items) :
    (t.erase key n).Counted where
  ok := by
    rw [forget_erase]
    exact h.ok.erase key
  nested := fun p hp => h.nested p ((SortedMap.erase_sublist key t.nodes).subset hp)
  items := by
    have hsum := SortedMap.sum_erase (fun node : Hive V => node.values.length) key t.nodes
    have hitems := h.items
    unfold total at hitems
    unfold Tree.get? at hn
    show n = total (SortedMap.erase key t.nodes)
    unfold total
    omega

end Forget

/-! ## 7. A round over the items -/

section Round

variable {s : Sizes K V} {t : Tree K V} {flags : Flags} {key : K} {d : V}

omit [LinearOrder K] in
/-- The nested put stores what it does over the items, and counts it. -/
theorem nestedPut_forget (s : Sizes K V) (t : Tree K V) (flags : Flags) (db : Nested V) (d : V) :
    (nestedPut s t flags none db d).1.vs = (innerPut s t.forget flags none db.vs d).1 ∧
      (nestedPut s t flags none db d).2 = (innerPut s t.forget flags none db.vs d).2 ∧
      ((nestedPut s t flags none db d).1 = db ∨
        (nestedPut s t flags none db d).1.items = db.items + 1 ∧
          (nestedPut s t flags none db d).1.vs.length = db.vs.length + 1) := by
  unfold nestedPut innerPut
  cases happend : flags.appendDup with
  | false =>
    simp only
    by_cases hmem : d ∈ db.vs
    · rw [if_pos hmem, if_pos hmem]
      exact ⟨rfl, rfl, Or.inl rfl⟩
    · rw [if_neg hmem, if_neg hmem]
      exact ⟨rfl, rfl, Or.inr ⟨rfl, List.orderedInsert_length _ _ _⟩⟩
  | true =>
    cases hlast : db.vs.getLast? with
    | none =>
      have hmem : d ∉ db.vs := by
        rw [List.getLast?_eq_none_iff.mp hlast]
        exact List.not_mem_nil
      simp only
      rw [if_neg hmem, if_neg hmem]
      exact ⟨rfl, rfl, Or.inr ⟨rfl, List.orderedInsert_length _ _ _⟩⟩
    | some last =>
      simp only
      by_cases hlt : last < d
      · rw [if_pos hlt, if_pos hlt]
        exact ⟨rfl, rfl, Or.inr ⟨rfl, List.length_append⟩⟩
      · rw [if_neg hlt, if_neg hlt]
        by_cases hne : d ≠ last
        · rw [if_pos hne, if_pos hne]
          exact ⟨rfl, rfl, Or.inl rfl⟩
        · rw [if_neg hne, if_neg hne]
          exact ⟨rfl, rfl, Or.inl rfl⟩

/-- The node after `dupsort_put` holds what was put over the items. -/
structure Written (s : Sizes K V) (t : Tree K V) (flags : Flags) (old : List V) (d : V)
    (out : Hive V × Local V × Code) : Prop where
  node : out.1.node = .dups (innerPut s t.forget flags none old d).1
  code : out.2.2 = (innerPut s t.forget flags none old d).2
  nested : out.1.nested.items = out.1.values.length
  length : out.1.values.length = if out.2.1.insertData then old.length + 1 else old.length
  tree : out.2.1.tree = true → ∃ db, out.1 = .subTree db

-- `db` is what the nested tree is before the put
omit [LinearOrder K] in
theorem dupsortPut_written (s : Sizes K V) (t : Tree K V) (flags : Flags) (d : V) {l : Local V}
    (node : Hive V) (db : Nested V)
    (htree : l.tree = false → ∃ vs, node = .subPage vs)
    (hdb : db = match l.oldSingledup with
      | some old => ⟨1, old :: node.nested.vs⟩
      | none => node.nested)
    (hitems : db.items = db.vs.length) :
    Written s t flags db.vs d (dupsortPut s t flags false node l d) := by
  have hput := nestedPut_forget s t flags db d
  have heq : dupsortPut s t flags false node l d =
      (writeBack node l.tree (nestedPut s t flags none db d).1,
        { l with insertData := decide (db.items ≠ (nestedPut s t flags none db d).1.items) },
        (nestedPut s t flags none db d).2) := by
    unfold dupsortPut
    rw [← hdb]
    rfl
  have hlength : (nestedPut s t flags none db d).1.items =
        (nestedPut s t flags none db d).1.vs.length ∧
      (nestedPut s t flags none db d).1.vs.length =
        if decide (db.items ≠ (nestedPut s t flags none db d).1.items) then db.vs.length + 1
        else db.vs.length := by
    cases hput.2.2 with
    | inl hsame =>
      rw [hsame]
      simp only [ne_eq, not_true_eq_false, decide_false, Bool.false_eq_true, if_false]
      exact ⟨hitems, trivial⟩
    | inr hmore =>
      have hne : db.items ≠ (nestedPut s t flags none db d).1.items := by omega
      rw [if_pos (decide_eq_true hne)]
      omega
  rw [heq]
  unfold writeBack
  cases hflag : l.tree with
  | true =>
    exact ⟨congrArg Node.dups hput.1, hput.2.1, hlength.1, hlength.2, fun _ => ⟨_, rfl⟩⟩
  | false =>
    obtain ⟨vs, hpage⟩ := htree hflag
    rw [hpage]
    exact ⟨congrArg Node.dups hput.1, hput.2.1, rfl, hlength.2,
      fun hc => absurd (show false = true from hc) Bool.false_ne_true⟩

-- the node is put back, and the counter of the table follows
theorem Written.counted {old : List V} {out : Hive V × Local V × Code} (ht : t.Counted)
    (h : Written s t flags old d out) (hsorted : old.Pairwise (· < ·)) (hne : old ≠ [] ∨
      out.2.2 = .success)
    (hold : old.length = (t.get? key).elim 0 fun node => node.values.length) :
    (t.set key out.1 (out.2.1.count t.items)).Counted := by
  refine ht.set ?_ h.nested ?_
  · rw [h.node]
    by_cases hcode : (innerPut s t.forget flags none old d).2 = .success
    · have hstored := innerPut_stored hsorted hcode
      exact ⟨rfl, hstored.1, hstored.2.1⟩
    · rw [innerPut_refused hcode]
      exact ⟨rfl, hne.resolve_right fun hc => hcode (h.code.symm.trans hc), hsorted⟩
  · rw [← hold, h.length]
    unfold Local.count
    split_ifs
    · omega
    · rfl

/-- The variables before a value. -/
structure Entry (t : Tree K V) (key : K) (l : Local V) : Prop where
  old : l.oldSingledup = none
  data : l.insertData = l.insertKey
  flag : l.insertKey = true ↔ t.get? key = none
  tree : l.tree = true → ∃ db, t.get? key = some (.subTree db)

/-- A round stores what it does over the items, and leaves the counters right. -/
structure Follows (key : K) (l : Local V) (out : Tree K V × Local V × Code)
    (u : Table K V × Code) : Prop where
  table : out.1.forget = u.1
  code : out.2.2 = u.2
  counted : out.1.Counted
  entry : out.2.2 = .success → Entry out.1 key out.2.1.continue

omit [LinearOrder V] in
theorem get?_set (t : Tree K V) (key : K) (node : Hive V) (n : Nat) :
    (t.set key node n).get? key = some node := SortedMap.get?_put_self key node t.nodes

-- the next value finds the node that was put
omit [LinearOrder V] in
theorem entry_set {node : Hive V} {n : Nat} {l : Local V}
    (htree : l.tree = true → ∃ db, node = .subTree db) :
    Entry (t.set key node n) key l.continue := by
  have hget : (t.set key node n).get? key = some node := get?_set t key node n
  refine ⟨rfl, rfl, ?_, fun hflag => ?_⟩
  · rw [hget]
    exact iff_of_false Bool.false_ne_true (Option.some_ne_none node)
  · have ⟨db, hdb⟩ := htree hflag
    exact ⟨db, hget.trans (congrArg some hdb)⟩

theorem round_insert (ht : t.Counted) {l : Local V} (hl : Entry t key l) (lay : Layout)
    (hnone : t.get? key = none) :
    Follows key l (round s t flags false lay key d l)
      (Put.round s t.forget flags false l.insertKey key d) := by
  have hins : l.insertKey = true := hl.flag.mpr hnone
  unfold round Put.round insertNode
  rw [if_pos hins, if_pos hins]
  by_cases hbig : s.tooBig key d = true
  · have hwritten := dupsortPut_written s t flags d (l := { l with dup := true, tree := true })
      (.subTree ⟨0, []⟩) ⟨0, []⟩ (fun hc => nomatch hc) (by rw [hl.old]; rfl) rfl
    have hsuccess := innerPut_nil s t.forget flags d
    rw [if_pos hbig, if_pos ⟨rfl, hbig⟩]
    refine ⟨?_, hwritten.code, hwritten.counted ht List.Pairwise.nil
      (Or.inr (hwritten.code.trans hsuccess)) ?_, fun _ => entry_set hwritten.tree⟩
    · rw [forget_set, hwritten.node]
    · rw [hnone]
      rfl
  · rw [if_neg hbig, if_neg fun hc => hbig hc.2]
    refine ⟨forget_set t key (.single d) _, rfl, ht.set trivial rfl ?_, fun _ => entry_set ?_⟩
    · unfold Local.count
      rw [hl.data, hins, if_pos rfl, hnone]
      rfl
    · intro htree
      have ⟨db, hdb⟩ := hl.tree htree
      exact nomatch hnone.symm.trans hdb

theorem Written.follows {old : List V} {out : Hive V × Local V × Code} (ht : t.Counted) {l : Local V}
    (h : Written s t flags old d out) (hsorted : old.Pairwise (· < ·)) (hne : old ≠ [])
    {node : Hive V} (hget : t.get? key = some node) (hold : old.length = node.values.length) :
    Follows key l (t.set key out.1 (out.2.1.count t.items), out.2.1, out.2.2)
      (t.forget.set key (.dups (innerPut s t.forget flags none old d).1),
        (innerPut s t.forget flags none old d).2) := by
  refine ⟨?_, h.code, h.counted ht hsorted (Or.inl hne) ?_, fun _ => entry_set h.tree⟩
  · rw [forget_set, h.node]
  · rw [hget]
    exact hold

-- what is prepared for a value of a key with duplicates
theorem dups_follow (s : Sizes K V) (flags : Flags) (d : V) (ht : t.Counted) {l l' : Local V} {node node' : Hive V}
    (hget : t.get? key = some node) (hdups : node.node = .dups node.values)
    (hsame : node'.nested = node.nested) (hold : l'.oldSingledup = none)
    (htree : l'.tree = false → ∃ vs, node' = .subPage vs) :
    Follows key l
      (t.set key (dupsortPut s t flags false node' l' d).1
          ((dupsortPut s t flags false node' l' d).2.1.count t.items),
        (dupsortPut s t flags false node' l' d).2.1, (dupsortPut s t flags false node' l' d).2.2)
      (t.forget.set key (.dups (innerPut s t.forget flags none node.values d).1),
        (innerPut s t.forget flags none node.values d).2) := by
  have ⟨hitems, hok⟩ := ht.node hget
  rw [hdups] at hok
  have hwritten := dupsortPut_written s t flags d node' node.nested
    htree (by rw [hold, hsame]) hitems
  exact hwritten.follows ht hok.2.2 hok.2.1 hget rfl

-- a second value under a key
theorem second_follows (s : Sizes K V) (flags : Flags) (d : V) (ht : t.Counted) {l l' : Local V} {v : V} {node' : Hive V}
    (hget : t.get? key = some (.single v)) (hempty : node'.nested.vs = [])
    (hold : l'.oldSingledup = some v) (htree : l'.tree = false → ∃ vs, node' = .subPage vs) :
    Follows key l
      (t.set key (dupsortPut s t flags false node' l' d).1
          ((dupsortPut s t flags false node' l' d).2.1.count t.items),
        (dupsortPut s t flags false node' l' d).2.1, (dupsortPut s t flags false node' l' d).2.2)
      (t.forget.set key (.dups (innerPut s t.forget flags none [v] d).1),
        (innerPut s t.forget flags none [v] d).2) := by
  have hwritten := dupsortPut_written s t flags d node' ⟨1, [v]⟩
    htree (by rw [hold, hempty]) rfl
  exact hwritten.follows ht (List.pairwise_singleton _ v) (List.cons_ne_nil v []) hget rfl

omit [LinearOrder V] in
theorem Entry.unchanged {l : Local V} (hl : Entry t key l) {node : Hive V}
    (hget : t.get? key = some node) : Entry t key l.continue where
  old := rfl
  data := rfl
  flag := iff_of_false Bool.false_ne_true fun hc => nomatch hget.symm.trans hc
  tree := hl.tree

theorem round_found (ht : t.Counted) {l : Local V} (hl : Entry t key l) (lay : Layout)
    {node : Hive V} (hget : t.get? key = some node) :
    Follows key l (round s t flags false lay key d l)
      (Put.round s t.forget flags false l.insertKey key d) := by
  have hins : ¬ l.insertKey = true := fun hc => nomatch hget.symm.trans (hl.flag.mp hc)
  have hforget : t.forget.get? key = some node.node := by
    rw [forget_get?, hget]
    rfl
  have hstay : ∀ code, Follows key l (t, l, code) (t.forget, code) := fun code =>
    ⟨rfl, rfl, ht, fun _ => hl.unchanged hget⟩
  unfold round Put.round more
  rw [if_neg hins, if_neg hins, hget, hforget]
  cases node with
  | single v =>
    simp only [prepare, Hive.node, Tree.forget, if_true]
    by_cases happend : flags.appendDup ∧ d ≤ v
    · rw [if_pos happend, if_pos happend]
      exact hstay .eKeyMismatch
    · rw [if_neg happend, if_neg happend]
      by_cases heq : d = v
      · have hnot : ¬ flags.appendDup = true := fun hc => happend ⟨hc, le_of_eq heq⟩
        rw [if_pos ⟨hnot, heq⟩, if_pos heq]
        by_cases hno : flags.noDupData = true
        · rw [if_pos hno, if_pos hno]
          exact hstay .keyExist
        · rw [if_neg hno, if_neg hno]
          exact hstay .success
      · rw [if_neg fun hc => heq hc.2, if_neg heq, if_neg Bool.false_ne_true,
          if_neg Bool.false_ne_true]
        by_cases hlay : lay.toTree = true
        · rw [if_pos hlay]
          exact second_follows s flags d ht hget rfl rfl fun hc => nomatch hc
        · rw [if_neg hlay]
          exact second_follows s flags d ht hget rfl rfl fun _ => ⟨[], rfl⟩
  | subTree db => exact dups_follow s flags d ht hget rfl rfl hl.old fun hc => nomatch hc
  | subPage vs =>
    simp only [prepare, Bool.false_eq_true, false_and, false_or, if_false]
    by_cases hroom : lay.room = true
    · rw [if_pos hroom]
      exact dups_follow s flags d ht hget rfl rfl hl.old fun _ => ⟨vs, rfl⟩
    · rw [if_neg hroom]
      by_cases hlay : lay.toTree = true
      · rw [if_pos hlay]
        exact dups_follow s flags d ht hget rfl rfl hl.old fun hc => nomatch hc
      · rw [if_neg hlay]
        exact dups_follow s flags d ht hget rfl rfl hl.old fun _ => ⟨vs, rfl⟩

/-- A round over the representations is a round over the items. -/
theorem round_follows (ht : t.Counted) {l : Local V} (hl : Entry t key l) (lay : Layout) :
    Follows key l (round s t flags false lay key d l)
      (Put.round s t.forget flags false l.insertKey key d) := by
  cases hget : t.get? key with
  | none => exact round_insert ht hl lay hget
  | some node => exact round_found ht hl lay hget

end Round

/-! ## 8. The put over the items -/

/-- An outcome, and the one over the items. -/
structure Mirrors (out : Outcome K V) (u : Put.Outcome K V) : Prop where
  table : out.tree.forget = u.table
  code : out.code = u.code
  count : out.count = u.count
  counted : out.tree.Counted

theorem rounds_mirrors (s : Sizes K V) (flags : Flags) (lays : Nat → Layout) {key : K}
    (ds : List V) (n : Nat) {t : Tree K V} {l : Local V} (ht : t.Counted) (hl : Entry t key l) :
    Mirrors (rounds s flags lays key t l n ds)
      (Put.rounds s flags key t.forget l.insertKey n ds) := by
  induction ds generalizing t l n with
  | nil => exact ⟨rfl, rfl, rfl, ht⟩
  | cons d ds ih =>
    have hround : Follows key l (round s t flags false (lays n) key d l)
        (Put.round s t.forget flags false l.insertKey key d) := round_follows ht hl (lays n)
    unfold rounds Put.rounds
    dsimp only
    rw [← hround.table, ← hround.code]
    by_cases hcode : (round s t flags false (lays n) key d l).2.2 = .success
    · rw [if_pos hcode, if_pos hcode]
      exact ih (n + 1) hround.counted (hround.entry hcode)
    · rw [if_neg hcode, if_neg hcode]
      exact ⟨rfl, rfl, rfl, hround.counted⟩

/-- A stage, and the one over the items. -/
inductive Stage.Mirrors : Stage K V → Put.Stage K V → Prop
  | ret {t : Tree K V} (code : Code) (ht : t.Counted) : Mirrors (.ret t code) (.ret t.forget code)
  | go {t : Tree K V} (flag : Bool) (ht : t.Counted) : Mirrors (.go t flag) (.go t.forget flag)

section Put

variable {s : Sizes K V} {t : Tree K V} {flags : Flags} {key : K}

omit [LinearOrder V] in
theorem length_le_total {k : K} {node : Hive V} (hget : t.get? k = some node) :
    node.values.length ≤ total t.nodes := by
  have hsum := SortedMap.sum_erase (fun node : Hive V => node.values.length) k t.nodes
  unfold Tree.get? at hget
  rw [hget] at hsum
  unfold total
  simp only [Option.elim_some] at hsum
  omega

theorem erase_counted (ht : t.Counted) {k : K} {node : Hive V} {n : Nat}
    (hget : t.get? k = some node) (hn : n = t.items - node.values.length) :
    (t.erase k n).Counted := by
  have hle := length_le_total hget
  have hitems := ht.items
  refine ht.erase ?_
  rw [hget]
  show n + node.values.length = t.items
  omega

theorem delDups_mirrors (ht : t.Counted) {k : K} {v : V} (allDups : Bool) {node : Hive V}
    (back : Nested V → Hive V) (hget : t.get? k = some node) (hdups : node.node = .dups node.values)
    (hv : v ∈ node.values) (hback : ∀ db, (back db).node = .dups db.vs)
    (hnested : ∀ db, db.items = db.vs.length → (back db).nested.items = (back db).values.length)
    (hvalues : ∀ db, (back db).values = db.vs) :
    (delDups t k v allDups node.nested back).Counted ∧
      Put.cursorDel t.forget k v allDups =
        .ok (delDups t k v allDups node.nested back).forget := by
  have ⟨hitems, hok⟩ := ht.node hget
  have hforget : t.forget.get? k = some (.dups node.values) := by
    rw [forget_get?, hget, ← hdups]
    rfl
  have hpos := List.length_pos_of_mem hv
  have hlen : (node.values.erase v).length = node.values.length - 1 := List.length_erase_of_mem hv
  unfold delDups Put.cursorDel
  rw [hforget]
  by_cases hall : allDups = true
  · rw [if_pos hall, forget_erase]
    simp only [if_pos hall]
    exact ⟨erase_counted ht hget (by omega), trivial⟩
  · rw [if_neg hall]
    simp only [if_neg hall]
    by_cases hmore : node.nested.items - 1 ≠ 0
    · have hne : node.values.erase v ≠ [] := by
        intro hnil
        rw [hnil, List.length_nil] at hlen
        omega
      rw [if_pos hmore, forget_set, hback, if_neg hne]
      have hlength : (node.nested.vs.erase v).length = node.values.length - 1 := hlen
      refine ⟨ht.set ?_ (hnested _ ?_) ?_, rfl⟩
      · rw [hback]
        rw [hdups] at hok
        exact ⟨rfl, hne, hok.2.2.sublist List.erase_sublist⟩
      · show node.nested.items - 1 = (node.nested.vs.erase v).length
        omega
      · rw [hget, hvalues]
        have hle := length_le_total hget
        have htotal := ht.items
        show t.items - 1 + node.values.length = t.items + (node.nested.vs.erase v).length
        omega
    · have hnil : node.values.erase v = [] := List.eq_nil_of_length_eq_zero (by omega)
      rw [if_neg hmore, forget_erase, if_pos hnil]
      exact ⟨erase_counted ht hget (by omega), rfl⟩

/-- `cursor_del` at an item that is there. -/
theorem cursorDel_mirrors (ht : t.Counted) {k : K} {v : V} (allDups : Bool) {node : Hive V}
    (hget : t.get? k = some node) (hv : v ∈ node.values) :
    ∃ t', cursorDel t k v allDups = .ok t' ∧ t'.Counted ∧
      Put.cursorDel t.forget k v allDups = .ok t'.forget := by
  unfold cursorDel
  rw [hget]
  cases node with
  | single u =>
    refine ⟨_, rfl, erase_counted ht hget rfl, ?_⟩
    unfold Put.cursorDel
    rw [forget_get?, hget, forget_erase]
    rfl
  | subPage vs =>
    have hdel := delDups_mirrors ht allDups (fun db => .subPage db.vs) hget rfl hv (fun _ => rfl)
      (fun _ _ => rfl) fun _ => rfl
    exact ⟨_, rfl, hdel⟩
  | subTree db =>
    have hdel := delDups_mirrors ht allDups .subTree hget rfl hv (fun _ => rfl)
      (fun _ h => h) fun _ => rfl
    exact ⟨_, rfl, hdel⟩

omit [LinearOrder V] in
theorem place_forget (t : Tree K V) (flags : Flags) (key : K) :
    place t flags key = Put.place t.forget flags key := by
  have hlast : t.forget.nodes.getLast? = t.nodes.getLast?.map fun p => (p.1, p.2.node) :=
    List.getLast?_map
  have hsome : (t.forget.get? key).isSome = (t.get? key).isSome := by
    rw [forget_get?, Option.isSome_map]
  unfold place Put.place
  rw [hlast, hsome]
  cases flags.append with
  | false => rfl
  | true =>
    cases t.nodes.getLast? with
    | none | some p => rfl

theorem exactDups_mirrors (ht : t.Counted) (data : Data V) {node : Hive V}
    (hget : t.get? key = some node) (hdups : node.node = .dups node.values)
    (hover : ¬ flags.noOverwrite = true) :
    (exactDups t flags key data node.nested).Mirrors (Put.putExact t.forget flags key data) := by
  have ⟨hitems, hok⟩ := ht.node hget
  have hforget : t.forget.get? key = some (.dups node.values) := by
    rw [forget_get?, hget, ← hdups]
    rfl
  have hpos : 0 < node.values.length := by
    rw [hdups] at hok
    exact List.length_pos_of_ne_nil hok.2.1
  unfold exactDups Put.putExact
  rw [hforget]
  simp only [if_neg hover]
  by_cases hall : flags.allDups = true
  · rw [if_pos hall, if_pos hall, ← forget_erase t key (t.items - (node.nested.items - 1) - 1)]
    exact .go true (erase_counted ht hget (by omega))
  · rw [if_neg hall, if_neg hall]
    cases data with
    | multiple len vs => exact .go false ht
    | value d =>
      simp only
      by_cases hreserve : flags.reserve = true
      · rw [if_pos hreserve, if_pos hreserve]
        exact .go false ht
      · rw [if_neg hreserve, if_neg hreserve]
        by_cases hmem : d ∈ node.values
        · rw [if_pos hmem, if_pos (show d ∈ node.nested.vs from hmem)]
          exact .ret _ ht
        · rw [if_neg hmem, if_neg (show d ∉ node.nested.vs from hmem)]
          exact .go false ht

theorem putExact_mirrors (ht : t.Counted) (flags : Flags) (key : K) (data : Data V) :
    (putExact t flags key data).Mirrors (Put.putExact t.forget flags key data) := by
  cases hget : t.get? key with
  | none =>
    have hforget : t.forget.get? key = none := by
      rw [forget_get?, hget]
      rfl
    unfold putExact Put.putExact
    rw [hget, hforget]
    exact .go true ht
  | some node =>
    have hforget : t.forget.get? key = some node.node := by
      rw [forget_get?, hget]
      rfl
    by_cases hover : flags.noOverwrite = true
    · unfold putExact Put.putExact
      rw [hget, hforget]
      simp only [if_pos hover]
      exact .ret .keyExist ht
    · cases node with
      | subPage vs =>
        have hstage := exactDups_mirrors ht data hget rfl hover
        unfold putExact
        rw [hget]
        simp only [if_neg hover]
        exact hstage
      | subTree db =>
        have hstage := exactDups_mirrors ht data hget rfl hover
        unfold putExact
        rw [hget]
        simp only [if_neg hover]
        exact hstage
      | single v =>
        unfold putExact Put.putExact
        rw [hget, hforget]
        simp only [if_neg hover, Hive.node]
        cases data with
        | multiple len vs => exact .go false ht
        | value d =>
          by_cases hsame : ¬ flags.reserve = true ∧ d = v
          · simp only [if_pos hsame, Tree.forget, true_and]
            exact .ret _ ht
          · simp only [if_neg hsame]
            exact .go false ht

theorem putSeek_mirrors (ht : t.Counted) (flags : Flags) (key : K) (data : Data V) :
    (putSeek t flags key data).Mirrors (Put.putSeek t.forget flags key data) := by
  have hnil : t.forget.nodes = [] ↔ t.nodes = [] := List.map_eq_nil_iff
  unfold putSeek Put.putSeek
  rw [← place_forget]
  by_cases hempty : t.nodes = []
  · rw [if_pos hempty, if_pos (hnil.mpr hempty)]
    exact .go true ht
  · rw [if_neg hempty, if_neg fun hc => hempty (hnil.mp hc)]
    cases place t flags key with
    | absent => exact .go true ht
    | mismatch => exact .ret .eKeyMismatch ht
    | exact => exact putExact_mirrors ht flags key data

/-- The cursor stands on an item, or on none. -/
def Stands (t : Tree K V) (cur : Cursor K V) : Prop :=
  ∀ k v, cur = .item k v → ∃ node, t.get? k = some node ∧ v ∈ node.values

theorem putCurrent_mirrors (s : Sizes K V) (ht : t.Counted) {cur : Cursor K V} (hcur : Stands t cur)
    (flags : Flags) (key : K) (len : Nat) (vs : List V) :
    (putCurrent s t cur flags key (.multiple len vs)).Mirrors
      (Put.putCurrent s t.forget cur flags key (.multiple len vs)) := by
  unfold putCurrent Put.putCurrent
  by_cases hflags : flags.append ∨ flags.noOverwrite
  · rw [if_pos hflags, if_pos hflags]
    exact .ret .einval ht
  · rw [if_neg hflags, if_neg hflags]
    cases cur with
    | hollow => exact .ret .enodata ht
    | atEnd => exact .ret .notFound ht
    | item k v =>
      simp only [Cursor.getCurrent]
      by_cases hkey : key ≠ k
      · rw [if_pos hkey, if_pos hkey]
        exact .ret .eKeyMismatch ht
      · have ⟨node, hget, hv⟩ := hcur k v rfl
        have ⟨t', hdel, ht', hdel'⟩ := cursorDel_mirrors ht flags.allDups hget hv
        rw [if_neg hkey, if_neg hkey]
        unfold updateMultiple Put.updateMultiple
        rw [hdel, hdel', if_neg (show ¬ ¬ t.forget.dupSort = true from not_not_intro rfl)]
        simp only
        by_cases hvs : vs = []
        · rw [if_pos hvs, if_pos hvs]
          exact .ret .success ht'
        · rw [if_neg hvs, if_neg hvs]
          exact .go false ht'

theorem newRoot_mirrors (s : Sizes K V) (ht : t.Counted) (data : Data V) :
    (newRoot s t data).Counted ∧ (newRoot s t data).forget = Put.newRoot s t.forget data ∧
      ∀ key, (newRoot s t data).get? key = t.get? key := by
  have hnil : t.forget.nodes = [] ↔ t.nodes = [] := List.map_eq_nil_iff
  have hdup : t.forget.integerDup = true ∨ t.forget.dupFixed = true := Or.inr rfl
  unfold newRoot Put.newRoot
  by_cases hempty : t.nodes = []
  · rw [if_pos hempty, if_pos ⟨hnil.mpr hempty, hdup⟩]
    exact ⟨⟨⟨ht.ok.sorted, ht.ok.nodes⟩, ht.nested, ht.items⟩, rfl, fun _ => rfl⟩
  · rw [if_neg hempty, if_neg fun hc => hempty (hnil.mp hc.1)]
    exact ⟨ht, rfl, fun _ => rfl⟩

theorem putValues_mirrors (s : Sizes K V) (ht : t.Counted) (flags : Flags) (lays : Nat → Layout)
    (key : K) (data : Data V) {ins : Bool} (hins : ins = true ↔ t.get? key = none) :
    Mirrors (putValues s t flags false ins lays key data)
      (Put.putValues s t.forget flags false ins key data) := by
  have ⟨hroot, hforget, hget⟩ := newRoot_mirrors s ht data
  have hentry : Entry (newRoot s t data) key (.begin ins) :=
    ⟨rfl, rfl, (hget key).symm ▸ hins, fun hc => absurd hc Bool.false_ne_true⟩
  cases data with
  | multiple len vs =>
    cases vs with
    | nil => exact ⟨rfl, rfl, rfl, ht⟩
    | cons v vs =>
      have hrounds := rounds_mirrors s flags lays (v :: vs) 0 hroot hentry
      rw [hforget] at hrounds
      exact hrounds
  | value d =>
    have hround : Follows key (.begin ins) (round s (newRoot s t (.value d)) flags false (lays 0) key
        d (.begin ins)) (Put.round s (newRoot s t (.value d)).forget flags false
        (Local.begin ins).insertKey key d) := round_follows hroot hentry (lays 0)
    rw [hforget] at hround
    exact ⟨hround.table, hround.code, rfl, hround.counted⟩

omit [LinearOrder V] in
theorem forget_get?_none (t : Tree K V) (key : K) :
    t.forget.get? key = none ↔ t.get? key = none := by
  rw [forget_get?, Option.map_eq_none_iff]

-- the search and the values
theorem seek_mirrors (s : Sizes K V) (ht : t.Counted) (flags : Flags) (lays : Nat → Layout) (key : K)
    (data : Data V)
    (hins : ∀ u ins, Put.putSeek t.forget flags key data = .go u ins →
      (ins = true ↔ u.get? key = none)) :
    Mirrors
      (match putSeek t flags key data with
        | .ret t' code => ⟨t', code, data.count⟩
        | .go t₂ ins => putValues s t₂ flags false ins lays key data)
      (match Put.putSeek t.forget flags key data with
        | .ret t' code => ⟨t', code, data.count⟩
        | .go t₂ ins => Put.putValues s t₂ flags false ins key data) := by
  have hstage := putSeek_mirrors ht flags key data
  generalize putSeek t flags key data = stage at hstage ⊢
  generalize Put.putSeek t.forget flags key data = u at hstage hins ⊢
  cases hstage with
  | ret code ht' => exact ⟨rfl, rfl, rfl, ht'⟩
  | go flag ht₂ =>
    have hflag := hins _ flag rfl
    rw [forget_get?_none] at hflag
    exact putValues_mirrors s ht₂ flags lays key data hflag

/-- A batch over the representations is the batch over the items. -/
theorem multiple_mirrors (s : Sizes K V) (ht : t.Counted) {cur : Cursor K V} (hcur : Stands t cur)
    (flags : Flags) (lays : Nat → Layout) (key : K) (len : Nat) (vs : List V) :
    Mirrors (cursorPut s t cur flags lays key (.multiple len vs))
      (Put.cursorPut s t.forget cur flags key (.multiple len vs)) := by
  have hins : ∀ {t : Tree K V}, t.Counted → ∀ u ins,
      Put.putSeek t.forget flags key (.multiple len vs) = .go u ins →
        (ins = true ↔ u.get? key = none) :=
    fun ht _ _ hgo => (putSeek_multiple ht.ok hgo).2.flag_iff
  unfold cursorPut Put.cursorPut
  by_cases hcurrent : flags.current = true
  · rw [if_pos hcurrent, if_pos hcurrent]
    have hstage := putCurrent_mirrors s ht hcur flags key len vs
    have hoff : ∀ u flag, Put.putCurrent s t.forget cur flags key (.multiple len vs) = .go u flag →
        flag = false := by
      intro u flag hgo
      cases putCurrent_multiple s t.forget cur flags key len vs with
      | inl hret =>
        have ⟨code, _, hret⟩ := hret
        exact nomatch hgo.symm.trans hret
      | inr hdel =>
        have ⟨_, t', _, _, hdel⟩ := hdel
        rw [hdel] at hgo
        split_ifs at hgo
        exact (Put.Stage.go.inj hgo).2.symm
    generalize putCurrent s t cur flags key (.multiple len vs) = stage at hstage ⊢
    generalize Put.putCurrent s t.forget cur flags key (.multiple len vs) = u at hstage hoff ⊢
    cases hstage with
    | ret code ht' => exact ⟨rfl, rfl, rfl, ht'⟩
    | go flag ht₁ =>
      simp only [hoff _ flag rfl, Bool.false_eq_true, if_false]
      exact seek_mirrors s ht₁ flags lays key _ (hins ht₁)
  · rw [if_neg hcurrent, if_neg hcurrent]
    exact seek_mirrors s ht flags lays key _ (hins ht)

/-- A put of one value, without the flags that are for a batch as a whole. -/
theorem value_mirrors (s : Sizes K V) (ht : t.Counted) (cur : Cursor K V) (flags : Flags)
    (lays : Nat → Layout) (key : K) (d : V) :
    Mirrors (cursorPut s t cur flags.rest lays key (.value d))
      (Put.cursorPut s t.forget cur flags.rest key (.value d)) := by
  refine seek_mirrors s ht flags.rest lays key (.value d) fun u ins hgo => ?_
  have hkeeps : (Put.putSeek t.forget flags.rest key (.value d)).Keeps t.forget
      fun ins => ins = true ↔ t.forget.get? key = none :=
    putSeek_keeps ht.ok fun hc => Bool.false_ne_true hc.1
  rw [hgo] at hkeeps
  rw [hkeeps.1]
  exact hkeeps.2

end Put

/-! ## 9. The batch -/

def puts (s : Sizes K V) (cur : Cursor K V) (flags : Flags) (lays : Nat → Layout) (key : K)
    (t : Tree K V) (vs : List V) : Tree K V :=
  vs.foldl (fun t d => (cursorPut s t cur flags lays key (.value d)).tree) t

/-- `MDBX_ALLDUPS` deletes the duplicates of the key. -/
def dropDups (t : Tree K V) (flags : Flags) (key : K) : Tree K V :=
  match flags.allDups, t.get? key with
  | true, some (.subPage vs) => t.erase key (t.items - vs.length)
  | true, some (.subTree db) => t.erase key (t.items - db.items)
  | _, _ => t

/-- The table without what `MDBX_CURRENT` and `MDBX_ALLDUPS` ask to delete. -/
def cleared (t : Tree K V) (cur : Cursor K V) (flags : Flags) (key : K) : Tree K V :=
  match flags.current, cur with
  | true, .item k v =>
    match cursorDel t k v flags.allDups with
    | .ok t' => dropDups t' flags key
    | .error _ => t
  | _, _ => dropDups t flags key

def Tree.content (t : Tree K V) : List (K × List V) := SortedMap.mapVal Hive.values t.nodes

section Batch

variable {s : Sizes K V} {t : Tree K V} {flags : Flags} {key : K}

omit [LinearOrder K] [LinearOrder V] in
theorem content_forget (t : Tree K V) : t.forget.content = t.content := by
  unfold Table.content Tree.content Tree.forget SortedMap.mapVal
  rw [List.map_map]
  refine List.map_congr_left fun p _ => ?_
  exact Prod.ext rfl (Hive.node_values p.2)

-- the counter is right, so it is a matter of the content
omit [LinearOrder K] [LinearOrder V] in
theorem total_eq (t : Tree K V) : total t.nodes = (t.content.map fun p => p.2.length).sum := by
  unfold total Tree.content SortedMap.mapVal
  rw [List.map_map]
  rfl

theorem puts_mirrors (s : Sizes K V) (cur : Cursor K V) (flags : Flags) (lays : Nat → Layout) (key : K)
    (vs : List V) (ht : t.Counted) :
    (puts s cur flags.rest lays key t vs).Counted ∧
      (puts s cur flags.rest lays key t vs).forget = Put.puts s cur flags.rest key t.forget vs := by
  induction vs generalizing t with
  | nil => exact ⟨ht, rfl⟩
  | cons d vs ih =>
    have hput := value_mirrors s ht cur flags lays key d
    have hrest := ih hput.counted
    rw [hput.table] at hrest
    exact hrest

theorem dropDups_mirrors (ht : t.Counted) (flags : Flags) (key : K) :
    (dropDups t flags key).Counted ∧ (dropDups t flags key).forget = Put.dropDups t.forget flags key := by
  unfold dropDups Put.dropDups
  rw [forget_get?]
  cases hall : flags.allDups with
  | false => exact ⟨ht, rfl⟩
  | true =>
    cases hget : t.get? key with
    | none => exact ⟨ht, rfl⟩
    | some node =>
      have hitems := (ht.node hget).1
      cases node with
      | single v => exact ⟨ht, rfl⟩
      | subPage vs => exact ⟨erase_counted ht hget rfl, forget_erase t key _⟩
      | subTree db =>
        have hlen : db.items = db.vs.length := hitems
        exact ⟨erase_counted ht hget (congrArg (t.items - ·) hlen), forget_erase t key _⟩

theorem cleared_mirrors (ht : t.Counted) {cur : Cursor K V} (hcur : Stands t cur) (flags : Flags)
    (key : K) :
    (cleared t cur flags key).Counted ∧
      (cleared t cur flags key).forget = Put.cleared t.forget cur flags key := by
  have hdrop := dropDups_mirrors ht flags key
  unfold cleared Put.cleared
  cases flags.current with
  | false => exact hdrop
  | true =>
    cases cur with
    | hollow | atEnd => exact hdrop
    | item k v =>
      have ⟨node, hget, hv⟩ := hcur k v rfl
      have ⟨t', hdel, ht', hdel'⟩ := cursorDel_mirrors ht flags.allDups hget hv
      simp only [hdel, hdel']
      exact dropDups_mirrors ht' flags key

/-- The search before the values has come to its end. -/
def Searched (s : Sizes K V) (t : Tree K V) (cur : Cursor K V) (flags : Flags) (key : K)
    (data : Data V) : Prop :=
  ∃ t₂ ins, search s t cur flags key data = .go t₂ ins

theorem Stage.Mirrors.go_iff {stage : Stage K V} {u : Put.Stage K V} (h : stage.Mirrors u) :
    (∃ t₂ ins, stage = .go t₂ ins) ↔ ∃ t₂ ins, u = .go t₂ ins := by
  cases h with
  | ret code ht => exact iff_of_false (fun ⟨_, _, hc⟩ => nomatch hc) fun ⟨_, _, hc⟩ => nomatch hc
  | go flag ht => exact iff_of_true ⟨_, _, rfl⟩ ⟨_, _, rfl⟩

theorem search_mirrors (s : Sizes K V) (ht : t.Counted) {cur : Cursor K V} (hcur : Stands t cur)
    (flags : Flags) (key : K) (len : Nat) (vs : List V) :
    (search s t cur flags key (.multiple len vs)).Mirrors
      (Put.search s t.forget cur flags key (.multiple len vs)) := by
  unfold search Put.search
  by_cases hcurrent : flags.current = true
  · have hstage := putCurrent_mirrors s ht hcur flags key len vs
    rw [if_pos hcurrent, if_pos hcurrent]
    generalize putCurrent s t cur flags key (.multiple len vs) = stage at hstage ⊢
    generalize Put.putCurrent s t.forget cur flags key (.multiple len vs) = u at hstage ⊢
    cases hstage with
    | ret code ht' => exact .ret code ht'
    | go flag ht₁ =>
      cases flag with
      | true => exact .go false ht₁
      | false => exact putSeek_mirrors ht₁ flags key _
  · rw [if_neg hcurrent, if_neg hcurrent]
    exact putSeek_mirrors ht flags key _

/-- A batch that is stored leaves the content and the counter that its values leave when they are put
one by one with the flags for every value, after the deletion that `MDBX_CURRENT` or `MDBX_ALLDUPS`
asks for.  Of a batch that is refused at one of its values, the values before are stored so, and
they are counted. -/
theorem batch_puts {s : Sizes K V} {t : Tree K V} {cur : Cursor K V} {flags : Flags} {key : K} {len : Nat}
    {vs : List V} (lays lays' : Nat → Layout) (ht : t.Counted) (hcur : Stands t cur)
    (hreserve : flags.reserve = false)
    (hsearch : (cursorPut s t cur flags lays key (.multiple len vs)).code = .success ∨
      Searched s t cur flags key (.multiple len vs)) :
    ∃ stored others, vs = stored ++ others ∧
      (cursorPut s t cur flags lays key (.multiple len vs)).count = stored.length ∧
      (cursorPut s t cur flags lays key (.multiple len vs)).tree.content =
        (puts s cur flags.rest lays' key (cleared t cur flags key) stored).content ∧
      (cursorPut s t cur flags lays key (.multiple len vs)).tree.items =
        (puts s cur flags.rest lays' key (cleared t cur flags key) stored).items ∧
      ((cursorPut s t cur flags lays key (.multiple len vs)).code = .success ↔ others = []) := by
  have hbatch := multiple_mirrors s ht hcur flags lays key len vs
  have ⟨hclear, hforget⟩ := cleared_mirrors ht hcur flags key
  rw [hbatch.code, Searched, (search_mirrors s ht hcur flags key len vs).go_iff] at hsearch
  have ⟨stored, others, hvs, hcount, hcontent, hcode⟩ :=
    multiple_puts ht.ok rfl hreserve hsearch
  have ⟨hputs, hsame⟩ := puts_mirrors s cur flags lays' key stored hclear
  have heq : (cursorPut s t cur flags lays key (.multiple len vs)).tree.content =
      (puts s cur flags.rest lays' key (cleared t cur flags key) stored).content := by
    rw [← content_forget, ← content_forget, hbatch.table, hsame, hforget]
    exact hcontent
  refine ⟨stored, others, hvs, hbatch.count.trans hcount, heq, ?_, hbatch.code ▸ hcode⟩
  rw [hbatch.counted.items, hputs.items, total_eq, total_eq, heq]

end Batch

/-- Two duplicates of a key on a sub-page. -/
def twoDups : Tree Nat Nat := ⟨8, 2, [(1, .subPage [5, 7])]⟩

theorem twoDups_counted : twoDups.Counted where
  ok := ⟨List.pairwise_singleton _ _, fun p hp => by
    rw [List.mem_singleton.mp hp]
    exact ⟨rfl, List.cons_ne_nil 5 [7], by decide⟩⟩
  nested := fun p hp => by
    rw [List.mem_singleton.mp hp]
    rfl
  items := rfl

theorem stands_hollow (t : Tree Nat Nat) : Stands t .hollow := fun _ _ h => nomatch h

def noFlags : Flags := ⟨false, false, false, false, false, false, false⟩

def allDups : Flags := { noFlags with allDups := true }

/-- The values go to a nested tree. -/
def growing : Nat → Layout := fun _ => ⟨false, true⟩

def staying : Nat → Layout := fun _ => ⟨true, false⟩

theorem batch_puts_twoDups :
    ∃ stored others, [6, 5, 4] = stored ++ others ∧
      (cursorPut plainSizes twoDups .hollow allDups growing 1 (.multiple 8 [6, 5, 4])).count =
        stored.length ∧
      (cursorPut plainSizes twoDups .hollow allDups growing 1 (.multiple 8 [6, 5, 4])).tree.content =
        (puts plainSizes .hollow allDups.rest staying 1 (cleared twoDups .hollow allDups 1)
          stored).content ∧
      (cursorPut plainSizes twoDups .hollow allDups growing 1 (.multiple 8 [6, 5, 4])).tree.items =
        (puts plainSizes .hollow allDups.rest staying 1 (cleared twoDups .hollow allDups 1)
          stored).items ∧
      ((cursorPut plainSizes twoDups .hollow allDups growing 1 (.multiple 8 [6, 5, 4])).code =
        .success ↔ others = []) :=
  batch_puts growing staying twoDups_counted (stands_hollow _) rfl (Or.inl (by decide))

/-- With `MDBX_ALLDUPS` a batch replaces the values once, and every put of one value replaces them. -/
theorem batch_replaces_once :
    ¬ ∀ (s : Sizes Nat Nat) (t : Tree Nat Nat) (cur : Cursor Nat Nat) (flags : Flags)
        (lays : Nat → Layout) (key len : Nat) (vs : List Nat), t.Counted → Stands t cur →
          flags.reserve = false →
          (cursorPut s t cur flags lays key (.multiple len vs)).code = .success →
            (cursorPut s t cur flags lays key (.multiple len vs)).tree.content =
              (puts s cur flags lays key t vs).content := by
  intro h
  have hsame := h plainSizes twoDups .hollow allDups staying 1 8 [6, 5, 4] twoDups_counted
    (stands_hollow _) rfl (by decide)
  exact absurd hsame (by decide)

end Mdbx.Put.Fixed
