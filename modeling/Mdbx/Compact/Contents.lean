import Mdbx.Compact.Model

/-!
# Compact.Contents — what a tree holds

A plain reading of trees, the same for a snapshot and for its copy: the entries in the order of the
leaves and the number of pages it takes.  No page may be newer than the one that refers to it.
-/

namespace Mdbx.Compact

/-! ## 1. Readings -/

/-- The value of an entry.  What is nested comes with what its tree is opened with. -/
inductive Item where
  | plain (bytes : Bytes)
  | big (bytes : Bytes)
  | tree (dup : Bool) (schema : Schema) (height : Nat) (entries : List (Bytes × Item))

structure Found where
  entries : List (Bytes × Item)
  pages : Nat

def Found.and (x y : Found) : Found := ⟨x.entries ++ y.entries, x.pages + y.pages⟩

/-- One after the other. -/
def gather {α : Type} (f : α → Option Found) : List α → Option Found
  | [] => some ⟨[], 0⟩
  | a :: as => (f a).bind fun x => (gather f as).map fun y => x.and y

/-- The pages by number, for a parent of the given txnid. -/
structure View where
  page : Nat → Nat → Option Page
  large : Nat → Nat → Option Large

def Reader.view (R : Reader) : View where
  page pgno front := (R.pageAt pgno front).toOption
  large pgno front := (R.largeAt pgno front).toOption

/-- The snapshot, with the dates that its pages have in a copy: one without a txnid is as new as the
snapshot itself, so that it must not be below a page that is older. -/
def Reader.datedView (R : Reader) : View where
  page pgno front := (R.view.page pgno front).filter fun p =>
    dateOf R.txnid p.txnid ≤ dateOf R.txnid front
  large pgno front := (R.view.large pgno front).filter fun l =>
    dateOf R.txnid l.txnid ≤ dateOf R.txnid front

def Put.page? : Put → Option Page
  | .page p => some p
  | .large _ => none

def Put.large? : Put → Option Large
  | .page _ => none
  | .large l => some l

def Ctx.find (ctx : Ctx) (pgno : Nat) : Option Put :=
  (ctx.out.find? fun e => e.pgno = pgno).map Emit.put

/-- What was put so far, with the check of the txnid as in `Reader.pageAt`. -/
def Ctx.view (ctx : Ctx) : View where
  page pgno front := ((ctx.find pgno).bind Put.page?).filter fun p => p.txnid ≤ front
  large pgno front := ((ctx.find pgno).bind Put.large?).filter fun l => l.txnid ≤ front

/-! ## 2. Trees -/

/-- The pages of a tree from the given one down to the leaves, which are that many levels below. -/
def pageItems (V : View) (dupfix : Bool) (leaf : Page → Option Found) : Nat → Nat → Nat →
    Option Found
  | 0, pgno, front =>
    (V.page pgno front).bind fun p =>
      match p.body with
      | .branch _ => none
      | body => if body.fits dupfix then (leaf p).map fun x => { x with pages := x.pages + 1 } else none
  | level + 1, pgno, front =>
    (V.page pgno front).bind fun p =>
      match p.body with
      | .branch [] => none
      | .branch nodes =>
        (gather (fun node => pageItems V dupfix leaf level node.2 p.txnid) nodes).map fun x =>
          { x with pages := x.pages + 1 }
      | _ => none

/-- A dupsort tree may be nested in this one. -/
structure Nests (outer : Schema) (txnid : Nat) (nested : Tree) : Prop where
  dupSort : outer.dupSort = true
  known : nested.schema.dupfixSize = outer.dupfixSize
  older : nested.modTxnid ≤ txnid

instance (outer : Schema) (txnid : Nat) (nested : Tree) : Decidable (Nests outer txnid nested) :=
  decidable_of_iff (outer.dupSort = true ∧ nested.schema.dupfixSize = outer.dupfixSize ∧
      nested.modTxnid ≤ txnid)
    ⟨fun h => ⟨h.1, h.2.1, h.2.2⟩, fun h => ⟨h.dupSort, h.known, h.older⟩⟩

abbrev SubItems := Bool → Bool → Tree → Nat → Option Found

/-- A tree of its own, which may be empty. -/
def tableItems (R : Reader) (sub : SubItems) (t : Tree) : Option Found :=
  match t.root with
  | none => some ⟨[], 0⟩
  | some _ =>
    if R.tblSetup t.schema = 0 then
      sub false false t (dateOf R.txnid t.modTxnid)
    else none

def nodeItem (R : Reader) (V : View) (sub : SubItems) (outer : Schema) (txnid : Nat) (node : Node) :
    Option Found :=
  match node.data with
  | .plain bytes => some ⟨[(node.key, .plain bytes)], 0⟩
  | .big size pgno =>
    (V.large pgno txnid).bind fun lp =>
      if size ≤ lp.bytes.length then
        some ⟨[(node.key, .big (lp.bytes.take size))], largechunkNpages R.pageSize size⟩
      else none
  | .tree dup size t =>
    if size ≠ sizeofTree then none
    else if dup then
      if Nests outer txnid t then
        (sub true outer.dupFixed t txnid).map fun x =>
          ⟨[(node.key, .tree true t.schema t.height x.entries)], x.pages⟩
      else none
    else (tableItems R sub t).map fun x =>
      ⟨[(node.key, .tree false t.schema t.height x.entries)], x.pages⟩

/-- Inside a dupsort tree there are plain nodes only. -/
def innerItem (node : Node) : Option Found :=
  match node.data with
  | .plain bytes => some ⟨[(node.key, .plain bytes)], 0⟩
  | _ => none

def leafItems (R : Reader) (V : View) (sub : SubItems) (inner : Bool) (outer : Schema) (p : Page) :
    Option Found :=
  match p.body with
  | .leaf nodes =>
    if inner then gather innerItem nodes else gather (nodeItem R V sub outer p.txnid) nodes
  | .dupfix keys => some ⟨keys.map fun key => (key, .plain []), 0⟩
  | .branch _ => none

/-- The entries of a tree that has no more than `nest` trees inside each other. -/
def treeItems (R : Reader) (V : View) : Nat → SubItems
  | 0, _, _, _, _ => none
  | nest + 1, inner, dupfix, t, front =>
    if t.height = 0 ∨ cursorStackSize < t.height then none
    else t.root.bind fun pgno =>
      pageItems V dupfix (leafItems R V (treeItems R V nest) inner t.schema) (t.height - 1) pgno front

/-! ## 3. What is in a view is in every larger one -/

/-- Every page of `V` is a page of `W`. -/
structure View.Within (V W : View) : Prop where
  page : ∀ {pgno front p}, V.page pgno front = some p → W.page pgno front = some p
  large : ∀ {pgno front l}, V.large pgno front = some l → W.large pgno front = some l

/-- No page gets a date behind that of the page it is read for. -/
structure View.Dated (V : View) (txnid : Nat) : Prop where
  page : ∀ {pgno front p}, V.page pgno front = some p → dateOf txnid p.txnid ≤ dateOf txnid front
  large : ∀ {pgno front l}, V.large pgno front = some l → dateOf txnid l.txnid ≤ dateOf txnid front

theorem View.Within.refl (V : View) : V.Within V := ⟨id, id⟩

theorem Reader.datedView_within (R : Reader) : R.datedView.Within R.view where
  page := fun h => (Option.filter_eq_some_iff.mp h).1
  large := fun h => (Option.filter_eq_some_iff.mp h).1

theorem Reader.datedView_dated (R : Reader) : R.datedView.Dated R.txnid where
  page := fun h => of_decide_eq_true (Option.filter_eq_some_iff.mp h).2
  large := fun h => of_decide_eq_true (Option.filter_eq_some_iff.mp h).2

theorem gather_mono {α : Type} {f g : α → Option Found} (h : ∀ a x, f a = some x → g a = some x)
    {as : List α} {x : Found} (hx : gather f as = some x) : gather g as = some x := by
  induction as generalizing x with
  | nil => exact hx
  | cons a as ih =>
    obtain ⟨y, hy, hrest⟩ := Option.bind_eq_some_iff.mp hx
    obtain ⟨z, hz, hyz⟩ := Option.map_eq_some_iff.mp hrest
    unfold gather
    rw [h a y hy, ih hz]
    exact congrArg some hyz

variable {R : Reader} {V W : View} {dupfix : Bool}

theorem pageItems_mono (hw : V.Within W) {leaf leaf' : Page → Option Found}
    (h : ∀ p x, leaf p = some x → leaf' p = some x) {level pgno front : Nat} {x : Found}
    (hx : pageItems V dupfix leaf level pgno front = some x) :
    pageItems W dupfix leaf' level pgno front = some x := by
  induction level generalizing pgno front x with
  | zero =>
    obtain ⟨p, hp, hx⟩ := Option.bind_eq_some_iff.mp hx
    unfold pageItems
    rw [hw.page hp]
    have hleaf : ∀ y, (leaf p).map (fun x => { x with pages := x.pages + 1 }) = some y →
        (leaf' p).map (fun x => { x with pages := x.pages + 1 }) = some y := by
      intro y hy
      obtain ⟨z, hz, hzy⟩ := Option.map_eq_some_iff.mp hy
      rw [h p z hz]
      exact congrArg some hzy
    cases hbody : p.body with
    | branch nodes =>
      rw [hbody] at hx
      cases hx
    | leaf nodes | dupfix keys =>
      simp only [hbody, Option.bind_some] at hx ⊢
      split_ifs at hx ⊢
      exact hleaf x hx
  | succ level ih =>
    obtain ⟨p, hp, hx⟩ := Option.bind_eq_some_iff.mp hx
    unfold pageItems
    rw [hw.page hp]
    cases hbody : p.body with
    | branch nodes =>
      cases nodes with
      | nil =>
        rw [hbody] at hx
        cases hx
      | cons node nodes =>
        simp only [hbody, Option.bind_some] at hx ⊢
        obtain ⟨y, hy, hyx⟩ := Option.map_eq_some_iff.mp hx
        rw [gather_mono (fun a z hz => ih hz) hy]
        exact congrArg some hyx
    | leaf nodes | dupfix keys =>
      rw [hbody] at hx
      cases hx

theorem tableItems_mono {sub sub' : SubItems}
    (h : ∀ inner dupfix t front x, sub inner dupfix t front = some x →
      sub' inner dupfix t front = some x) {t : Tree} {x : Found}
    (hx : tableItems R sub t = some x) : tableItems R sub' t = some x := by
  unfold tableItems at hx ⊢
  cases hroot : t.root with
  | none =>
    rw [hroot] at hx
    exact hx
  | some pgno =>
    simp only [hroot] at hx ⊢
    split_ifs at hx ⊢
    exact h _ _ _ _ _ hx

theorem nodeItem_mono (hw : V.Within W) {sub sub' : SubItems}
    (h : ∀ inner dupfix t front x, sub inner dupfix t front = some x →
      sub' inner dupfix t front = some x) {outer : Schema} {txnid : Nat} {node : Node} {x : Found}
    (hx : nodeItem R V sub outer txnid node = some x) :
    nodeItem R W sub' outer txnid node = some x := by
  unfold nodeItem at hx ⊢
  cases hdata : node.data with
  | plain bytes =>
    rw [hdata] at hx
    exact hx
  | big size pgno =>
    simp only [hdata] at hx ⊢
    obtain ⟨lp, hlp, hx⟩ := Option.bind_eq_some_iff.mp hx
    rw [hw.large hlp]
    exact hx
  | tree dup size t =>
    simp only [hdata] at hx ⊢
    split_ifs at hx ⊢
    · obtain ⟨y, hy, hyx⟩ := Option.map_eq_some_iff.mp hx
      rw [h _ _ _ _ _ hy]
      exact congrArg some hyx
    · obtain ⟨y, hy, hyx⟩ := Option.map_eq_some_iff.mp hx
      rw [tableItems_mono h hy]
      exact congrArg some hyx

theorem leafItems_mono (hw : V.Within W) {sub sub' : SubItems}
    (h : ∀ inner dupfix t front x, sub inner dupfix t front = some x →
      sub' inner dupfix t front = some x) {inner : Bool} {outer : Schema} {p : Page} {x : Found}
    (hx : leafItems R V sub inner outer p = some x) :
    leafItems R W sub' inner outer p = some x := by
  unfold leafItems at hx ⊢
  cases hbody : p.body with
  | branch nodes =>
    rw [hbody] at hx
    cases hx
  | dupfix keys =>
    rw [hbody] at hx
    exact hx
  | leaf nodes =>
    simp only [hbody] at hx ⊢
    split_ifs at hx ⊢
    · exact hx
    · exact gather_mono (fun node y hy => nodeItem_mono hw h hy) hx

theorem treeItems_mono (hw : V.Within W) {nest : Nat} {inner : Bool} {t : Tree} {front : Nat}
    {x : Found} (hx : treeItems R V nest inner dupfix t front = some x) :
    treeItems R W nest inner dupfix t front = some x := by
  induction nest generalizing inner dupfix t front x with
  | zero => cases hx
  | succ nest ih =>
    unfold treeItems at hx ⊢
    split_ifs at hx ⊢
    obtain ⟨pgno, hroot, hx⟩ := Option.bind_eq_some_iff.mp hx
    rw [hroot]
    exact pageItems_mono hw (fun p y hy => leafItems_mono hw (fun _ _ _ _ _ => ih) hy) hx

end Mdbx.Compact
