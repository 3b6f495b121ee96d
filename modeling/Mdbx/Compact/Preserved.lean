import Mdbx.Compact.Places

/-!
# Compact.Preserved — the copy holds what the snapshot holds

What the stack does below a page is settled by induction on its level: from the first leaf under the
page the loop comes to the page itself, puts it and goes on with its parent.
-/

namespace Mdbx.Compact

variable {R : Reader} {S : View} {ctx : Ctx} {tree : Tree} {nest bound : Nat} {inner dupfix : Bool}
  {outer : Schema}

/-! ## 1. Readings of a view of the snapshot -/

theorem view_page {pgno front : Nat} {p : Page} (h : R.view.page pgno front = some p) :
    R.pageAt pgno front = .ok p := by
  change (R.pageAt pgno front).toOption = some p at h
  cases hp : R.pageAt pgno front with
  | error err =>
    rw [hp] at h
    cases h
  | ok p' =>
    rw [hp] at h
    cases h
    rfl

theorem view_large {pgno front : Nat} {l : Large} (h : R.view.large pgno front = some l) :
    R.largeAt pgno front = .ok l := by
  change (R.largeAt pgno front).toOption = some l at h
  cases hl : R.largeAt pgno front with
  | error err =>
    rw [hl] at h
    cases h
  | ok l' =>
    rw [hl] at h
    cases h
    rfl

theorem gather_cons {α : Type} {f : α → Option Found} {a : α} {as : List α} {x : Found}
    (h : gather f (a :: as) = some x) :
    ∃ y z, f a = some y ∧ gather f as = some z ∧ x = y.and z := by
  obtain ⟨y, hy, hrest⟩ := Option.bind_eq_some_iff.mp h
  obtain ⟨z, hz, hx⟩ := Option.map_eq_some_iff.mp hrest
  exact ⟨y, z, hy, hz, hx.symm⟩

theorem gather_cons_eq {α : Type} {f : α → Option Found} {a : α} {as : List α} {y z : Found}
    (hy : f a = some y) (hz : gather f as = some z) : gather f (a :: as) = some (y.and z) := by
  unfold gather
  rw [hy, hz]
  rfl

/-! ## 2. Nested trees and leaves -/

/-- The items are there after the walk, and every page that was put is counted. -/
structure Copied (ctx ctx' : Ctx) (pages : Nat) : Prop where
  grown : Grown ctx ctx'
  first : ctx'.firstUnallocated = ctx.firstUnallocated + pages

theorem Copied.refl (ctx : Ctx) : Copied ctx ctx 0 := ⟨Grown.refl ctx, rfl⟩

theorem Copied.trans {ctx ctx' ctx'' : Ctx} {a b : Nat} (h : Copied ctx ctx' a)
    (h' : Copied ctx' ctx'' b) : Copied ctx ctx'' (a + b) := by
  refine ⟨h.grown.trans h'.grown, ?_⟩
  rw [h'.first, h.first, Nat.add_assoc]

/-- The walk of a nested tree does what it should, up to a number of pages.  The copy of a snapshot
with dated pages is read for any parent that is not older than the one in the snapshot. -/
def SubOk (R : Reader) (S : View) (nest bound : Nat) (walk : SubWalk) : Prop :=
  ∀ inner dupfix t front x ctx, ctx.Ok → x.pages ≤ bound →
    treeItems R S nest inner dupfix t front = some x →
    ∃ ctx' q, walk inner dupfix ctx t front = .ok (ctx', { t with root := some q }) ∧
      Copied ctx ctx' x.pages ∧ q + 1 = ctx'.firstUnallocated ∧
      (S.Dated R.txnid → ∀ front', dateOf R.txnid front ≤ front' →
        treeItems R ctx'.view nest inner dupfix { t with root := some q } front' = some x)

theorem dated_le (txnid t : Nat) : t ≤ dateOf txnid t := by
  unfold dateOf
  split_ifs with h
  · omega
  · exact Nat.le_refl t

-- a tree is read without its `mod_txnid`
theorem treeItems_dated (V : View) (t : Tree) (front modTxnid : Nat) :
    treeItems R V nest inner dupfix { t with modTxnid := modTxnid } front =
      treeItems R V nest inner dupfix t front := by
  cases nest with
  | zero => rfl
  | succ nest => rfl

theorem compactingWalkTree_copied {walk : SubWalk} (hwalk : SubOk R S nest bound walk)
    (hok : ctx.Ok) {t : Tree} {x : Found} (hle : x.pages ≤ bound)
    (hx : tableItems R (treeItems R S nest) t = some x) :
    ∃ ctx' t', compactingWalkTree R walk ctx t = .ok (ctx', t') ∧ Copied ctx ctx' x.pages ∧
      t'.schema = t.schema ∧ t'.height = t.height ∧
      (∀ pgno, t.root = some pgno → ∃ q, t'.root = some q ∧ q + 1 = ctx'.firstUnallocated) ∧
      (S.Dated R.txnid → tableItems R (treeItems R ctx'.view nest) t' = some x) := by
  unfold tableItems at hx
  unfold compactingWalkTree
  cases hroot : t.root with
  | none =>
    rw [hroot] at hx
    cases hx
    refine ⟨ctx, t, rfl, Copied.refl ctx, rfl, rfl,
      fun pgno h => absurd h (Option.some_ne_none _).symm, fun _ => ?_⟩
    unfold tableItems
    rw [hroot]
  | some pgno =>
    simp only [hroot] at hx ⊢
    by_cases hsetup : R.tblSetup t.schema = 0
    · rw [if_pos hsetup] at hx
      rw [if_neg (not_not.mpr hsetup)]
      have hx' := hx
      rw [← treeItems_dated S t _ (dateOf R.txnid t.modTxnid)] at hx'
      obtain ⟨ctx', q, hrun, hcopied, hq, hitems⟩ := hwalk _ _ _ _ x ctx hok hle hx'
      rw [hroot] at hrun
      refine ⟨ctx', _, hrun, hcopied, rfl, rfl, fun _ _ => ⟨q, rfl, hq⟩, fun hdated => ?_⟩
      unfold tableItems
      simp only
      rw [if_pos hsetup]
      exact hitems hdated _ (Nat.le_refl _)
    · rw [if_neg hsetup] at hx
      cases hx

theorem walkNode_copied (hS : S.Within R.view) {walk : SubWalk} (hwalk : SubOk R S nest bound walk)
    (hok : ctx.Ok) {txnid : Nat} {node : Node} {x : Found} (hle : x.pages ≤ bound)
    (hx : nodeItem R S (treeItems R S nest) tree.schema txnid node = some x) :
    ∃ ctx' node', walkNode R walk txnid ctx tree node = .ok (ctx', tree, node') ∧
      Copied ctx ctx' x.pages ∧ (S.Dated R.txnid → ∀ txnid', dateOf R.txnid txnid ≤ txnid' →
        nodeItem R ctx'.view (treeItems R ctx'.view nest) tree.schema txnid' node' = some x) := by
  unfold nodeItem at hx
  unfold walkNode
  cases hdata : node.data with
  | plain bytes =>
    simp only [hdata] at hx
    cases hx
    refine ⟨ctx, node, rfl, Copied.refl ctx, fun _ txnid' _ => ?_⟩
    unfold nodeItem
    rw [hdata]
  | big size pgno =>
    simp only [hdata] at hx ⊢
    obtain ⟨lp, hlp, hx⟩ := Option.bind_eq_some_iff.mp hx
    split_ifs at hx with hsize
    cases hx
    rw [view_large (hS.large hlp)]
    have hpos : 0 < largechunkNpages R.pageSize size := Nat.succ_pos _
    refine ⟨_, _, rfl, ⟨put_grown R ctx _ hpos, rfl⟩, fun hdated txnid' hge => ?_⟩
    unfold nodeItem
    simp only
    have hnew := (hdated.large hlp).trans hge
    rw [put_large hok { lp with bytes := lp.bytes.take size } _ hnew]
    simp only [Option.bind_some]
    have hlen : (lp.bytes.take size).length = size := List.length_take_of_le hsize
    rw [if_pos (Nat.le_of_eq hlen.symm), List.take_take, Nat.min_self]
  | tree dup size t =>
    simp only [hdata] at hx ⊢
    by_cases hsize : size = sizeofTree
    · rw [if_neg (not_not.mpr hsize)] at hx ⊢
      cases dup with
      | true =>
        simp only [if_true] at hx ⊢
        split_ifs at hx with hnests
        obtain ⟨y, hy, rfl⟩ := Option.map_eq_some_iff.mp hx
        have hsetup : cursorDupsortSetup R tree txnid size t = .ok tree := by
          unfold cursorDupsortSetup
          rw [if_neg (not_not.mpr hnests.dupSort), if_neg (not_not.mpr hsize),
            if_neg (Nat.not_lt.mpr hnests.older), if_neg (not_not.mpr hnests.known)]
        obtain ⟨ctx', q, hrun, hcopied, -, hitems⟩ := hwalk _ _ _ _ y ctx hok hle hy
        rw [hsetup]
        simp only
        rw [hrun]
        refine ⟨ctx', _, rfl, hcopied, fun hdated txnid' hge => ?_⟩
        have hnests' : Nests tree.schema txnid' { t with root := some q } :=
          ⟨hnests.dupSort, hnests.known, hnests.older.trans ((dated_le R.txnid txnid).trans hge)⟩
        unfold nodeItem
        simp only [if_true]
        rw [if_neg (not_not.mpr hsize), if_pos hnests', hitems hdated txnid' hge]
        rfl
      | false =>
        simp only [Bool.false_eq_true, if_false] at hx ⊢
        obtain ⟨y, hy, rfl⟩ := Option.map_eq_some_iff.mp hx
        obtain ⟨ctx', t', hrun, hcopied, hschema, hheight, -, hitems⟩ :=
          compactingWalkTree_copied (x := y) hwalk hok hle hy
        rw [hrun]
        refine ⟨ctx', _, rfl, hcopied, fun hdated txnid' _ => ?_⟩
        unfold nodeItem
        simp only [Bool.false_eq_true, if_false]
        rw [if_neg (not_not.mpr hsize), hitems hdated, hschema, hheight]
        rfl
    · rw [if_pos hsize] at hx
      cases hx

theorem walkNodes_copied (hS : S.Within R.view) {walk : SubWalk} (hwalk : SubOk R S nest bound walk)
    {txnid : Nat} {nodes : List Node} (hok : ctx.Ok) {x : Found} (hle : x.pages ≤ bound)
    (hx : gather (nodeItem R S (treeItems R S nest) tree.schema txnid) nodes = some x) :
    ∃ ctx' nodes', walkNodes (walkNode R walk txnid) nodes ctx tree = .ok (ctx', tree, nodes') ∧
      Copied ctx ctx' x.pages ∧ (S.Dated R.txnid → ∀ txnid', dateOf R.txnid txnid ≤ txnid' →
        gather (nodeItem R ctx'.view (treeItems R ctx'.view nest) tree.schema txnid') nodes' =
          some x) := by
  induction nodes generalizing ctx x with
  | nil =>
    cases hx
    exact ⟨ctx, [], rfl, Copied.refl ctx, fun _ _ _ => rfl⟩
  | cons node nodes ih =>
    obtain ⟨y, z, hy, hz, rfl⟩ := gather_cons hx
    have hsum : y.pages + z.pages ≤ bound := hle
    obtain ⟨ctx₁, node', hrun, hcopied, hitem⟩ :=
      walkNode_copied hS hwalk hok (by omega) hy
    obtain ⟨ctx₂, nodes', hruns, hcopied', hitems⟩ := ih (hcopied.grown.ok hok) (by omega) hz
    refine ⟨ctx₂, node' :: nodes', ?_, hcopied.trans hcopied', fun hdated txnid' hge => ?_⟩
    · unfold walkNodes
      rw [hrun]
      simp only
      rw [hruns]
    · refine gather_cons_eq (nodeItem_mono hcopied'.grown.within ?_ (hitem hdated txnid' hge))
        (hitems hdated txnid' hge)
      exact fun _ _ _ _ _ => treeItems_mono hcopied'.grown.within

/-- A leaf that was worked through holds the same. -/
structure LeafCopied (R : Reader) (S : View) (nest : Nat) (inner : Bool) (outer : Schema)
    (p p' : Page) (x : Found) (ctx ctx' : Ctx) : Prop where
  copied : Copied ctx ctx' x.pages
  txnid : p'.txnid = p.txnid
  fits : ∀ dupfix, p'.body.fits dupfix = p.body.fits dupfix
  leafy : ∀ nodes, p'.body ≠ .branch nodes
  items : S.Dated R.txnid → ∀ txnid, dateOf R.txnid p.txnid ≤ txnid →
    leafItems R ctx'.view (treeItems R ctx'.view nest) inner outer ⟨txnid, p'.body⟩ = some x

theorem inner_pages {nodes : List Node} {x : Found} (hx : gather innerItem nodes = some x) :
    x.pages = 0 := by
  induction nodes generalizing x with
  | nil =>
    cases hx
    rfl
  | cons node nodes ih =>
    obtain ⟨y, z, hy, hz, rfl⟩ := gather_cons hx
    have hzero := ih hz
    have hone : y.pages = 0 := by
      unfold innerItem at hy
      cases hdata : node.data with
      | plain bytes =>
        rw [hdata] at hy
        cases hy
        rfl
      | big size pgno | tree dup size t =>
        rw [hdata] at hy
        cases hy
    change y.pages + z.pages = 0
    omega

theorem leafPass_copied (hS : S.Within R.view) {walk : SubWalk} (hwalk : SubOk R S nest bound walk)
    (hok : ctx.Ok) {p : Page} {x : Found} (hle : x.pages ≤ bound)
    (hx : leafItems R S (treeItems R S nest) inner tree.schema p = some x) :
    ∃ ctx' p', leafPass R inner walk ctx tree p = .ok (ctx', tree, p') ∧
      LeafCopied R S nest inner tree.schema p p' x ctx ctx' := by
  unfold leafItems at hx
  unfold leafPass
  cases hbody : p.body with
  | branch nodes =>
    rw [hbody] at hx
    cases hx
  | dupfix keys =>
    rw [hbody] at hx
    cases hx
    refine ⟨ctx, p, rfl, Copied.refl ctx, rfl, fun _ => rfl, fun nodes h => ?_, fun _ txnid _ => ?_⟩
    · rw [hbody] at h
      cases h
    · unfold leafItems
      rw [hbody]
  | leaf nodes =>
    simp only [hbody] at hx ⊢
    cases inner with
    | true =>
      simp only [if_true] at hx ⊢
      have hpages := inner_pages hx
      refine ⟨ctx, p, rfl, ?_, rfl, fun _ => rfl, fun nodes h => ?_, fun _ txnid _ => ?_⟩
      · rw [hpages]
        exact Copied.refl ctx
      · rw [hbody] at h
        cases h
      · unfold leafItems
        simp only [hbody, if_true]
        exact hx
    | false =>
      simp only [Bool.false_eq_true, if_false] at hx ⊢
      obtain ⟨ctx', nodes', hrun, hcopied, hitems⟩ := walkNodes_copied hS hwalk hok hle hx
      rw [hrun]
      refine ⟨ctx', ⟨p.txnid, .leaf nodes'⟩, rfl, hcopied, rfl, fun dupfix => ?_,
        fun _ => Body.noConfusion, fun hdated txnid hge => ?_⟩
      · rw [hbody]
        rfl
      · unfold leafItems
        simp only [Bool.false_eq_true, if_false]
        exact hitems hdated txnid hge

/-! ## 3. The loop -/

/-- Behind a page that was put as `q`. -/
def after (step : Walk → Except Stop Next) (rest : List Frame) (q : Nat) (ctx : Ctx) (tree : Tree)
    (n : Nat) : Except Stop (Ctx × Tree × Nat) :=
  match rest with
  | [] => .ok (ctx, tree, q)
  | parent :: rest => walkLoop step n ⟨parent.setPgno q, rest, ctx, tree⟩

theorem walkLoop_go {step : Walk → Except Stop Next} {w w' : Walk} (h : step w = .ok (.go w'))
    (n : Nat) : walkLoop step (n + 1) w = walkLoop step n w' := by
  rw [walkLoop, h]

theorem walkLoop_put {step : Walk → Except Stop Next} {w : Walk} {mp : Page} {rest : List Frame}
    (h : step w = .ok (putUp R mp rest ctx tree)) (n : Nat) :
    walkLoop step (n + 1) w = after step rest ctx.firstUnallocated
      (compactingPutPage R ctx (.page mp) 1) tree n := by
  rw [walkLoop, h]
  unfold after
  cases rest with
  | nil => rfl
  | cons parent rest => rfl

theorem modify_at {α : Type} (pre post : List α) (a : α) (f : α → α) :
    (pre ++ a :: post).modify pre.length f = pre ++ f a :: post := by
  induction pre with
  | nil => rfl
  | cons b pre ih =>
    change b :: (pre ++ a :: post).modify pre.length f = _
    rw [ih]
    rfl

theorem setPgno_at (txnid : Nat) (pre post : List (Bytes × Nat)) (node : Bytes × Nat) (q : Nat) :
    (⟨⟨txnid, .branch (pre ++ node :: post)⟩, pre.length⟩ : Frame).setPgno q =
      ⟨⟨txnid, .branch (pre ++ (node.1, q) :: post)⟩, pre.length⟩ := by
  unfold Frame.setPgno
  simp only
  rw [modify_at]

/-- What a leaf holds, for a tree that is opened in this way. -/
def leavesOf (R : Reader) (nest : Nat) (inner : Bool) (outer : Schema) (V : View) :
    Page → Option Found := leafItems R V (treeItems R V nest) inner outer

/-- What the walk makes of a page and everything below it, wherever the page is in the stack. -/
def Visited (R : Reader) (S : View) (dupfix : Bool) (leaves : View → Page → Option Found)
    (step : Walk → Except Stop Next) (limit : Nat) (tree : Tree) (level pgno front : Nat)
    (x : Found) (ctx : Ctx) : Prop :=
  ∃ p ctx' q, pageGet R dupfix pgno front = .ok p ∧ Copied ctx ctx' x.pages ∧
    q + 1 = ctx'.firstUnallocated ∧
    (S.Dated R.txnid → ∀ front', dateOf R.txnid front ≤ front' →
      pageItems ctx'.view dupfix (leaves ctx'.view) level q front' = some x) ∧
    ∀ rest room, rest.length + level + 1 = limit → level ≤ room →
      ∃ top rest' k, downLeft R dupfix room ⟨p, 0⟩ rest = .ok (top, rest') ∧
        rest'.length + 1 = limit ∧ k + 1 ≤ 2 * x.pages ∧
        ∀ n, walkLoop step (n + k) ⟨top, rest', ctx, tree⟩ = after step rest q ctx' tree n

/-- Every leaf that can be read is worked through as it should be. -/
def LeafOk (R : Reader) (S : View) (nest bound : Nat) (inner : Bool) (tree : Tree)
    (leaf : LeafPass) : Prop :=
  ∀ p x ctx, ctx.Ok → x.pages ≤ bound →
    leavesOf R nest inner tree.schema S p = some x →
    ∃ ctx' p', leaf ctx tree p = .ok (ctx', tree, p') ∧
      LeafCopied R S nest inner tree.schema p p' x ctx ctx'

theorem downLeft_leafy {p : Page} {ki : Nat} (h : ∀ nodes, p.body ≠ .branch nodes) (room : Nat)
    (rest : List Frame) : downLeft R dupfix room ⟨p, ki⟩ rest = .ok (⟨p, ki⟩, rest) := by
  unfold downLeft
  cases hbody : p.body with
  | branch nodes => exact absurd hbody (h nodes)
  | leaf nodes | dupfix keys => rfl

theorem downLeft_branch {txnid ki room : Nat} {nodes : List (Bytes × Nat)} {node : Bytes × Nat}
    {child : Page} (hnode : nodes[ki]? = some node)
    (hget : pageGet R dupfix node.2 txnid = .ok child) (rest : List Frame) :
    downLeft R dupfix (room + 1) ⟨⟨txnid, .branch nodes⟩, ki⟩ rest =
      downLeft R dupfix room ⟨child, 0⟩ (⟨⟨txnid, .branch nodes⟩, ki⟩ :: rest) := by
  rw [downLeft]
  simp only [hnode, hget]

section Loop

variable {leaf : LeafPass} {limit level : Nat}

theorem walkStep_leafy {p : Page} {ki : Nat} {rest : List Frame} {ctx' : Ctx} {p' : Page}
    (h : ∀ nodes, p.body ≠ .branch nodes) (hleaf : leaf ctx tree p = .ok (ctx', tree, p')) :
    walkStep R dupfix limit leaf ⟨⟨p, ki⟩, rest, ctx, tree⟩ = .ok (putUp R p' rest ctx' tree) := by
  unfold walkStep
  cases hbody : p.body with
  | branch nodes => exact absurd hbody (h nodes)
  | leaf nodes | dupfix keys => simp only [hleaf]

theorem leavesOf_mono {V W : View} (hw : V.Within W) {p : Page} {x : Found}
    (h : leavesOf R nest inner outer V p = some x) : leavesOf R nest inner outer W p = some x :=
  leafItems_mono hw (fun _ _ _ _ _ => treeItems_mono hw) h

-- a page that is not a branch, at level 0
theorem pageItems_zero {V : View} {leaves : Page → Option Found} {pgno front : Nat} {p : Page}
    {x : Found} (hp : V.page pgno front = some p) (hleafy : ∀ nodes, p.body ≠ .branch nodes)
    (hfits : p.body.fits dupfix = true) (hx : leaves p = some x) :
    pageItems V dupfix leaves 0 pgno front = some { x with pages := x.pages + 1 } := by
  unfold pageItems
  rw [hp]
  cases hbody : p.body with
  | branch nodes => exact absurd hbody (hleafy nodes)
  | leaf nodes | dupfix keys =>
    rw [hbody] at hfits
    simp only [Option.bind_some, hbody, hfits, if_true, hx]
    rfl

theorem pageItems_zero_inv {V : View} {leaves : Page → Option Found} {pgno front : Nat} {x : Found}
    (h : pageItems V dupfix leaves 0 pgno front = some x) :
    ∃ p y, V.page pgno front = some p ∧ (∀ nodes, p.body ≠ .branch nodes) ∧
      p.body.fits dupfix = true ∧ leaves p = some y ∧ x = { y with pages := y.pages + 1 } := by
  obtain ⟨p, hp, hx⟩ := Option.bind_eq_some_iff.mp h
  cases hbody : p.body with
  | branch nodes =>
    rw [hbody] at hx
    cases hx
  | leaf nodes | dupfix keys =>
    simp only [hbody] at hx
    split_ifs at hx with hfits
    obtain ⟨y, hy, rfl⟩ := Option.map_eq_some_iff.mp hx
    refine ⟨p, y, hp, fun nodes' h' => ?_, ?_, hy, rfl⟩
    · rw [hbody] at h'
      cases h'
    · rw [hbody]
      exact hfits

theorem pageGet_of_view (hS : S.Within R.view) {pgno front : Nat} {p : Page}
    (hp : S.page pgno front = some p) (hfits : p.body.fits dupfix = true) :
    pageGet R dupfix pgno front = .ok p := by
  unfold pageGet
  rw [view_page (hS.page hp)]
  simp only [hfits, if_true]

theorem visit_leaf (hS : S.Within R.view) (hleaf : LeafOk R S nest bound inner tree leaf)
    {pgno front : Nat} {x : Found} (hok : ctx.Ok) (hle : x.pages ≤ bound)
    (hx : pageItems S dupfix (leavesOf R nest inner tree.schema S) 0 pgno front = some x) :
    Visited R S dupfix (leavesOf R nest inner tree.schema) (walkStep R dupfix limit leaf) limit tree
      0 pgno front x ctx := by
  obtain ⟨p, y, hp, hleafy, hfits, hy, rfl⟩ := pageItems_zero_inv hx
  have hsum : y.pages + 1 ≤ bound := hle
  obtain ⟨ctx₁, p', hrun, hc⟩ := hleaf p y ctx hok (by omega) hy
  have hok₁ := hc.copied.grown.ok hok
  have hput := put_grown R ctx₁ (.page p') Nat.one_pos
  refine ⟨p, compactingPutPage R ctx₁ (.page p') 1, ctx₁.firstUnallocated,
    pageGet_of_view hS hp hfits, hc.copied.trans ⟨hput, rfl⟩, rfl, fun hdated front' hge => ?_,
    fun rest room hlimit _ => ⟨⟨p, 0⟩, rest, 1, downLeft_leafy hleafy room rest, hlimit, ?_,
      fun n => walkLoop_put (walkStep_leafy hleafy hrun) n⟩⟩
  · have hdate : dateOf R.txnid p'.txnid = dateOf R.txnid p.txnid := by rw [hc.txnid]
    have hitems := hc.items hdated _ (Nat.le_of_eq hdate.symm)
    have hnew := hdate.le.trans ((hdated.page hp).trans hge)
    exact pageItems_zero (put_page hok₁ p' 1 hnew) hc.leafy ((hc.fits dupfix).trans hfits)
      (leavesOf_mono hput.within hitems)
  · change 1 + 1 ≤ 2 * (y.pages + 1)
    omega

-- the loop moves on to the child behind the one that was put last
theorem walkStep_next {txnid : Nat} {pre post : List (Bytes × Nat)} {node : Bytes × Nat}
    {rest : List Frame} {top : Frame} {rest' : List Frame} (hpre : pre ≠ [])
    (hdown : downLeft R dupfix (limit - (rest.length + 1))
      ⟨⟨txnid, .branch (pre ++ node :: post)⟩, pre.length⟩ rest = .ok (top, rest')) :
    walkStep R dupfix limit leaf
        ⟨⟨⟨txnid, .branch (pre ++ node :: post)⟩, pre.length - 1⟩, rest, ctx, tree⟩ =
      .ok (.go ⟨top, rest', ctx, tree⟩) := by
  have hlen := List.length_pos_of_ne_nil hpre
  have hki : pre.length - 1 + 1 = pre.length := by omega
  unfold walkStep
  simp only [hki]
  rw [if_pos (by rw [List.length_append, List.length_cons]; omega), hdown]

-- behind the last child the page itself is put
theorem walkStep_last {txnid ki : Nat} {nodes : List (Bytes × Nat)} {rest : List Frame}
    (hki : nodes.length ≤ ki + 1) :
    walkStep R dupfix limit leaf ⟨⟨⟨txnid, .branch nodes⟩, ki⟩, rest, ctx, tree⟩ =
      .ok (putUp R ⟨txnid, .branch nodes⟩ rest ctx tree) := by
  unfold walkStep
  simp only
  rw [if_neg (Nat.not_lt.mpr hki)]

variable {leaves : View → Page → Option Found}

/-- The children of a branch from the second one on. -/
theorem visit_children
    (hmono : ∀ V W, V.Within W → ∀ p x, leaves V p = some x → leaves W p = some x)
    {txnid : Nat} (ih : ∀ pgno x ctx, ctx.Ok → x.pages ≤ bound →
      pageItems S dupfix (leaves S) level pgno txnid = some x →
      Visited R S dupfix leaves (walkStep R dupfix limit leaf) limit tree level pgno txnid x ctx)
    {post : List (Bytes × Nat)} (pre : List (Bytes × Nat)) {y : Found} (hpre : pre ≠ [])
    (hok : ctx.Ok) (hle : y.pages ≤ bound)
    (hy : gather (fun node => pageItems S dupfix (leaves S) level node.2 txnid) post = some y) :
    ∃ ctx' post', Copied ctx ctx' y.pages ∧ post'.length = post.length ∧
      (S.Dated R.txnid → ∀ front', dateOf R.txnid txnid ≤ front' →
        gather (fun node => pageItems ctx'.view dupfix (leaves ctx'.view) level node.2 front') post' =
          some y) ∧
      ∀ rest, rest.length + (level + 1) + 1 = limit → ∃ k, k ≤ 2 * y.pages ∧
        ∀ n, walkLoop (walkStep R dupfix limit leaf) (n + k)
            ⟨⟨⟨txnid, .branch (pre ++ post)⟩, pre.length - 1⟩, rest, ctx, tree⟩ =
          walkLoop (walkStep R dupfix limit leaf) n
            ⟨⟨⟨txnid, .branch (pre ++ post')⟩, pre.length + post.length - 1⟩, rest, ctx', tree⟩ := by
  induction post generalizing pre ctx y with
  | nil =>
    cases hy
    exact ⟨ctx, [], Copied.refl ctx, rfl, fun _ _ _ => rfl,
      fun rest _ => ⟨0, Nat.zero_le _, fun n => rfl⟩⟩
  | cons node post ih' =>
    obtain ⟨a, b, ha, hb, rfl⟩ := gather_cons hy
    have hsum : a.pages + b.pages ≤ bound := hle
    obtain ⟨p, ctx₁, q, hget, hcopied, -, hitems, hloop⟩ := ih node.2 a ctx hok (by omega) ha
    obtain ⟨ctx₂, post', hcopied', hlen, hitems', hloop'⟩ :=
      ih' (pre ++ [(node.1, q)]) (by simp) (hcopied.grown.ok hok) (by omega) hb
    refine ⟨ctx₂, (node.1, q) :: post', hcopied.trans hcopied', by simp [hlen],
      fun hdated front' hge => ?_, fun rest hlimit => ?_⟩
    · refine gather_cons_eq ?_ (hitems' hdated front' hge)
      exact pageItems_mono hcopied'.grown.within (hmono _ _ hcopied'.grown.within)
        (hitems hdated front' hge)
    · -- down to the first leaf below this child, and up again
      have hdepth : limit - (rest.length + 1) = level + 1 := by omega
      let parent : Frame := ⟨⟨txnid, .branch (pre ++ node :: post)⟩, pre.length⟩
      obtain ⟨top, rest', k, hdown, -, hk, hrun⟩ :=
        hloop (parent :: rest) level (by rw [List.length_cons]; omega) (Nat.le_refl _)
      obtain ⟨k', hk', hrun'⟩ := hloop' rest hlimit
      have hnode : (pre ++ node :: post)[pre.length]? = some node := by
        rw [List.getElem?_append_right (Nat.le_refl _), Nat.sub_self]
        rfl
      have hnext : walkStep R dupfix limit leaf
          ⟨⟨⟨txnid, .branch (pre ++ node :: post)⟩, pre.length - 1⟩, rest, ctx, tree⟩ =
            .ok (.go ⟨top, rest', ctx, tree⟩) := by
        refine walkStep_next hpre ?_
        rw [hdepth, downLeft_branch hnode hget]
        exact hdown
      refine ⟨k' + k + 1, ?_, fun n => ?_⟩
      · change _ ≤ 2 * (a.pages + b.pages)
        omega
      · have hfirst := walkLoop_go hnext (n + k' + k)
        have hmid := hrun (n + k')
        have hpost := hrun' n
        rw [← Nat.add_assoc, ← Nat.add_assoc, hfirst, hmid]
        unfold after
        simp only
        rw [setPgno_at]
        have hshape : pre ++ (node.1, q) :: post = pre ++ [(node.1, q)] ++ post := by simp
        have hshape' : pre ++ (node.1, q) :: post' = pre ++ [(node.1, q)] ++ post' := by simp
        have hki : (pre ++ [(node.1, q)]).length - 1 = pre.length := by simp
        have hend : (pre ++ [(node.1, q)]).length + post.length - 1 =
            pre.length + (node :: post).length - 1 := by
          simp
        rw [hki, hend] at hpost
        rw [hshape, hshape']
        exact hpost

theorem pageItems_succ_inv {V : View} {lf : Page → Option Found} {pgno front : Nat} {x : Found}
    (h : pageItems V dupfix lf (level + 1) pgno front = some x) :
    ∃ txnid node nodes y, V.page pgno front = some ⟨txnid, .branch (node :: nodes)⟩ ∧
      gather (fun node => pageItems V dupfix lf level node.2 txnid) (node :: nodes) = some y ∧
      x = { y with pages := y.pages + 1 } := by
  obtain ⟨p, hp, hx⟩ := Option.bind_eq_some_iff.mp h
  obtain ⟨txnid, body⟩ := p
  cases body with
  | leaf nodes | dupfix keys => cases hx
  | branch nodes =>
    cases nodes with
    | nil => cases hx
    | cons node nodes =>
      obtain ⟨y, hy, rfl⟩ := Option.map_eq_some_iff.mp hx
      exact ⟨txnid, node, nodes, y, hp, hy, rfl⟩

theorem pageItems_succ {V : View} {lf : Page → Option Found} {pgno front txnid : Nat}
    {nodes : List (Bytes × Nat)} {y : Found} (hne : nodes ≠ [])
    (hp : V.page pgno front = some ⟨txnid, .branch nodes⟩)
    (hy : gather (fun node => pageItems V dupfix lf level node.2 txnid) nodes = some y) :
    pageItems V dupfix lf (level + 1) pgno front = some { y with pages := y.pages + 1 } := by
  cases nodes with
  | nil => exact absurd rfl hne
  | cons node nodes =>
    unfold pageItems
    rw [hp]
    simp only [Option.bind_some, hy]
    rfl

theorem visit_branch (hS : S.Within R.view)
    (hmono : ∀ V W, V.Within W → ∀ p x, leaves V p = some x → leaves W p = some x)
    (ih : ∀ pgno front x ctx, ctx.Ok → x.pages ≤ bound →
      pageItems S dupfix (leaves S) level pgno front = some x →
      Visited R S dupfix leaves (walkStep R dupfix limit leaf) limit tree level pgno front x ctx)
    {pgno front : Nat} {x : Found} (hok : ctx.Ok) (hle : x.pages ≤ bound)
    (hx : pageItems S dupfix (leaves S) (level + 1) pgno front = some x) :
    Visited R S dupfix leaves (walkStep R dupfix limit leaf) limit tree (level + 1) pgno front x
      ctx := by
  obtain ⟨txnid, node, nodes, y, hp, hy, rfl⟩ := pageItems_succ_inv hx
  obtain ⟨a, b, ha, hb, rfl⟩ := gather_cons hy
  have hsum : a.pages + b.pages + 1 ≤ bound := hle
  obtain ⟨p, ctx₁, q, hget, hcopied, -, hitems, hloop⟩ := ih node.2 txnid a ctx hok (by omega) ha
  obtain ⟨ctx₂, nodes', hcopied', hlen, hitems', hloop'⟩ :=
    visit_children hmono (fun pgno x ctx => ih pgno txnid x ctx) [(node.1, q)]
      (List.cons_ne_nil _ _) (hcopied.grown.ok hok) (by omega) hb
  have hok₂ := (hcopied.trans hcopied').grown.ok hok
  let root : Page := ⟨txnid, .branch ((node.1, q) :: nodes')⟩
  have hput := put_grown R ctx₂ (.page root) Nat.one_pos
  -- the children, for the date that the page gets
  have hall : S.Dated R.txnid → gather (fun node => pageItems ctx₂.view dupfix (leaves ctx₂.view)
      level node.2 (dateOf R.txnid txnid)) ((node.1, q) :: nodes') = some (a.and b) := fun hdated =>
    gather_cons_eq (pageItems_mono hcopied'.grown.within (hmono _ _ hcopied'.grown.within)
      (hitems hdated _ (Nat.le_refl _))) (hitems' hdated _ (Nat.le_refl _))
  refine ⟨⟨txnid, .branch (node :: nodes)⟩, compactingPutPage R ctx₂ (.page root) 1,
    ctx₂.firstUnallocated, pageGet_of_view hS hp rfl, (hcopied.trans hcopied').trans ⟨hput, rfl⟩,
    rfl, fun hdated front' hge => ?_, fun rest room hlimit hroom => ?_⟩
  · have hnew : dateOf R.txnid root.txnid ≤ front' := (hdated.page hp).trans hge
    refine pageItems_succ (List.cons_ne_nil _ _) (put_page hok₂ root 1 hnew) ?_
    exact gather_mono (fun node z hz => pageItems_mono hput.within (hmono _ _ hput.within) hz)
      (hall hdated)
  · obtain ⟨room, rfl⟩ : ∃ r, room = r + 1 := ⟨room - 1, by omega⟩
    let parent : Frame := ⟨⟨txnid, .branch (node :: nodes)⟩, 0⟩
    obtain ⟨top, rest', k, hdown, hdepth, hk, hrun⟩ :=
      hloop (parent :: rest) room (by rw [List.length_cons]; omega) (by omega)
    obtain ⟨k', hk', hrun'⟩ := hloop' rest hlimit
    refine ⟨top, rest', k' + 1 + k, ?_, hdepth, ?_, fun n => ?_⟩
    · rw [downLeft_branch rfl hget]
      exact hdown
    · change _ ≤ 2 * (a.pages + b.pages + 1)
      omega
    · have hshape : (⟨⟨txnid, .branch (node :: nodes)⟩, 0⟩ : Frame).setPgno q =
          ⟨⟨txnid, .branch ((node.1, q) :: nodes)⟩, 0⟩ := setPgno_at txnid [] nodes node q
      have hlast : walkStep R dupfix limit leaf
          ⟨⟨root, [(node.1, q)].length + nodes.length - 1⟩, rest, ctx₂, tree⟩ =
            .ok (putUp R root rest ctx₂ tree) := by
        refine walkStep_last ?_
        simp only [List.length_cons, List.length_nil, hlen]
        omega
      have hmid := hrun (n + (k' + 1))
      have hpost := hrun' (n + 1)
      have hcount : n + (k' + 1) = n + 1 + k' := by omega
      rw [← Nat.add_assoc, hmid, hcount]
      unfold after
      simp only
      rw [hshape]
      exact hpost.trans (walkLoop_put hlast n)

theorem visit (hS : S.Within R.view) (hleaf : LeafOk R S nest bound inner tree leaf)
    {pgno front : Nat} {x : Found} (hok : ctx.Ok) (hle : x.pages ≤ bound)
    (hx : pageItems S dupfix (leavesOf R nest inner tree.schema S) level pgno front = some x)
    (limit : Nat) :
    Visited R S dupfix (leavesOf R nest inner tree.schema) (walkStep R dupfix limit leaf) limit tree
      level pgno front x ctx := by
  induction level generalizing pgno front x ctx with
  | zero => exact visit_leaf hS hleaf hok hle hx
  | succ level ih =>
    have hmono : ∀ V W, View.Within V W → ∀ p x,
        leavesOf R nest inner tree.schema V p = some x →
        leavesOf R nest inner tree.schema W p = some x := fun _ _ hw _ _ => leavesOf_mono hw
    exact visit_branch hS hmono (fun _ _ _ _ hok hle hx => ih hok hle hx) hok hle hx

end Loop

/-! ## 4. Trees -/

/-- A tree that can be read is copied: the walk comes to an end, and the copy reads the same. -/
theorem compactingWalk_copied (hS : S.Within R.view) {steps depth : Nat} (hdeep : nest ≤ depth)
    {bound : Nat} (hsteps : 2 * bound ≤ steps) :
    SubOk R S nest bound (compactingWalk R steps depth) := by
  induction nest generalizing depth with
  | zero =>
    intro inner dupfix t front x ctx _ _ hx
    cases hx
  | succ nest ih =>
    intro inner dupfix t front x ctx hok hle hx
    obtain ⟨depth, rfl⟩ : ∃ d, depth = d + 1 := ⟨depth - 1, by omega⟩
    unfold treeItems at hx
    split_ifs at hx with hheight
    obtain ⟨pgno, hroot, hx⟩ := Option.bind_eq_some_iff.mp hx
    have hleaf : LeafOk R S nest bound inner t (leafPass R inner (compactingWalk R steps depth)) :=
      fun p x ctx hok hle hx => leafPass_copied hS (ih (Nat.le_of_succ_le_succ hdeep)) hok hle hx
    obtain ⟨p, ctx', q, hget, hcopied, hq, hitems, hloop⟩ :=
      visit hS hleaf hok hle hx (t.height - 1 + 1)
    obtain ⟨top, rest, k, hdown, hlimit, hk, hrun⟩ :=
      hloop [] (cursorStackSize - 1) (by simp) (by omega)
    refine ⟨ctx', q, ?_, hcopied, hq, fun hdated front' hge => ?_⟩
    · have hedge : treeDeepenEdge R dupfix p = .ok (top, rest) := hdown
      have hdone := hrun (steps - k)
      have hsum : steps - k + k = steps := Nat.sub_add_cancel (by omega)
      rw [hsum] at hdone
      unfold compactingWalk
      simp only [hroot, hget, hedge]
      rw [hlimit, hdone]
      rfl
    · unfold treeItems
      rw [if_neg hheight]
      exact hitems hdated front' hge

end Mdbx.Compact
