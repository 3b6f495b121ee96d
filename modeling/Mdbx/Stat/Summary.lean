import Mathlib.Algebra.Order.BigOperators.Group.List
import Mathlib.Data.List.Nodup
import Mdbx.Lib.PageTree
import Mdbx.Stat.Foreach

/-!
# Stat.Summary — the statistics of all tables together

`tbl_stat_summary` adds up the tables that are open from their handles, and the others from the
records of MainDB, leaf by leaf.  At the record of an open table it goes on with the next leaf, so
that the tables behind this record on the same leaf are left out.
-/

namespace Mdbx.Stat

open PageTree

/-! ## 1. Definitions -/

/-- The fields of `tree_t` that are added up. -/
structure TreeRec where
  height : Nat
  branchPages : Nat
  leafPages : Nat
  largePages : Nat
  items : Nat
  modTxnid : Nat
  deriving DecidableEq

/-- `MDBX_stat` -/
structure MdbxStat where
  psize : Nat
  depth : Nat
  branchPages : Nat
  leafPages : Nat
  overflowPages : Nat
  entries : Nat
  modTxnid : Nat
  deriving DecidableEq

/-- `tbl_stat_add` -/
def tblStatAdd (st : MdbxStat) (db : TreeRec) : MdbxStat :=
  { st with
    depth := st.depth + db.height
    branchPages := st.branchPages + db.branchPages
    leafPages := st.leafPages + db.leafPages
    overflowPages := st.overflowPages + db.largePages
    entries := st.entries + db.items
    modTxnid := if st.modTxnid > db.modTxnid then st.modTxnid else db.modTxnid }

def mainDbi : Nat := 1
def coreDbs : Nat := 2
def dbiStale : Nat := 0x02
def dbiValid : Nat := 0x10

/-- `N_TREE` of `node_flags`. -/
def nTree : Nat := 0x02

/-- `sizeof(tree_t)` -/
def sizeofTree : Nat := 48

/-- A node of a leaf of MainDB. -/
structure Node (K : Type) where
  key : K
  flags : Nat
  -- `node_ds`
  size : Nat
  -- the data, as a `tree_t`
  db : TreeRec

/-- The tree of MainDB; the height is that of the root above the leaves. -/
structure MainTree (K : Type) where
  height : Nat
  root : Tree K (Node K)

structure Txn (K : Type) extends Slots where
  -- `env->ps`
  psize : Nat
  dbs : Nat → TreeRec
  -- `MDBX_DUPSORT` of MainDB
  mainDupsort : Bool
  main : Option (MainTree K)
  -- `env->kvs[dbi].name`
  name : Nat → K
  -- the key comparison of MainDB
  cmp : K → K → Int

inductive Rc where
  | success
  | corrupted
  deriving DecidableEq

section Model

variable {K : Type} (t : Txn K)

/-- `(txn->dbi_state[dbi] & (DBI_VALID | DBI_STALE)) == DBI_VALID` -/
def opened (dbi : Nat) : Bool := t.dbiState dbi &&& (dbiValid ||| dbiStale) = dbiValid

/-- The search for a name among the user handles. -/
def accounted (name : K) : Bool :=
  (foreachDbi t.toSlots coreDbs).any fun dbi => opened t dbi && t.cmp name (t.name dbi) = 0

/-- The loop over a leaf, which is left at the record of an open table; false for a wrong size. -/
def scanPage : List (Node K) → MdbxStat → Bool × MdbxStat
  | [], st => (true, st)
  | node :: rest, st =>
      if node.flags ≠ nTree then scanPage rest st
      else if node.size ≠ sizeofTree then (false, st)
      else if accounted t node.key then (true, st)
      else scanPage rest (tblStatAdd st node.db)

/-- The loop over the leaves from the one on top of the stack. -/
def scanLoop : Nat → List (Frame K (Node K)) → MdbxStat → Rc × MdbxStat
  | fuel + 1, top :: rest, st =>
      let page := scanPage t top.page.items st
      if ¬ page.1 then (.corrupted, page.2)
      else
        match stepAside true (top :: rest) with
        | none => (.success, page.2)
        | some stack => scanLoop fuel stack page.2
  | _, _, st => (.success, st)

def MainTree.leaves (m : MainTree K) : List (Tree K (Node K)) := m.root.level m.height

/-- `memset` and the page size. -/
def emptyStat (psize : Nat) : MdbxStat := ⟨psize, 0, 0, 0, 0, 0, 0⟩

/-- The handles that are added up first. -/
def openedFrom (start : Nat) : List Nat := (foreachDbi t.toSlots start).filter (opened t)

/-- `tbl_stat_summary` -/
def tblStatSummary : Rc × MdbxStat :=
  let handles := openedFrom t mainDbi
  let done := handles.length
  let st := handles.foldl (fun st dbi => tblStatAdd st (t.dbs dbi)) (emptyStat t.psize)
  if ¬ t.mainDupsort ∧ done < (t.dbs mainDbi).items + 1 then
    match t.main with
    | none => (.success, st)
    | some m => scanLoop t m.leaves.length (deepen true m.height [⟨m.root, 0⟩]) st
  else (.success, st)

/-! ## 2. What is to be counted -/

/-- The leaves of MainDB. -/
def pages : List (List (Node K)) :=
  match t.main with
  | none => []
  | some m => m.leaves.map Tree.items

def nodes : List (Node K) := (pages t).flatten

/-- A record of a named table. -/
def isTable (node : Node K) : Bool := node.flags = nTree

def tables : List (Node K) := (nodes t).filter isTable

/-- A named table without an open handle. -/
def isClosed (node : Node K) : Bool := isTable node && !accounted t node.key

/-- A quantity of a table and its sum. -/
structure Counter where
  ofStat : MdbxStat → Nat
  ofTree : TreeRec → Nat
  add : ∀ st db, ofStat (tblStatAdd st db) = ofStat st + ofTree db
  empty : ∀ psize, ofStat (emptyStat psize) = 0

def branchCounter : Counter :=
  ⟨MdbxStat.branchPages, TreeRec.branchPages, fun _ _ => rfl, fun _ => rfl⟩

def leafCounter : Counter := ⟨MdbxStat.leafPages, TreeRec.leafPages, fun _ _ => rfl, fun _ => rfl⟩

def largeCounter : Counter := ⟨MdbxStat.overflowPages, TreeRec.largePages, fun _ _ => rfl, fun _ => rfl⟩

def itemCounter : Counter := ⟨MdbxStat.entries, TreeRec.items, fun _ _ => rfl, fun _ => rfl⟩

def counters : List Counter := [branchCounter, leafCounter, largeCounter, itemCounter]

def Counter.sum (c : Counter) (l : List (Node K)) : Nat := (l.map fun node => c.ofTree node.db).sum

/-- MainDB and each named table once. -/
def Counter.total (c : Counter) : Nat := c.ofTree (t.dbs mainDbi) + c.sum (tables t)

def Exact (st : MdbxStat) : Prop := ∀ c ∈ counters, c.ofStat st = c.total t

def TreeRec.Hollow (db : TreeRec) : Prop := ∀ c ∈ counters, c.ofTree db = 0

/-- On each leaf the closed tables behind an open one are empty. -/
def NothingBehind : Prop :=
  ∀ page ∈ pages t, ∀ before node rest, page = before ++ node :: rest →
    isTable node = true → accounted t node.key = true →
      ∀ other ∈ rest, isClosed t other = true → other.db.Hollow

/-- A consistent database and the handles of a transaction. -/
structure Txn.Wf (t : Txn K) : Prop where
  uniform : ∀ m, t.main = some m → m.root.Uniform m.height
  plain : t.mainDupsort = false
  sizes : ∀ node ∈ nodes t, node.flags = nTree → node.size = sizeofTree
  keys : ((nodes t).map Node.key).Nodup
  items : (t.dbs mainDbi).items = (nodes t).length
  cmp_eq : ∀ a b, t.cmp a b = 0 ↔ a = b
  main_in : mainDbi < t.nDbi
  main_live : Live t.toSlots mainDbi
  main_opened : opened t mainDbi = true
  names : ∀ i ∈ openedFrom t coreDbs, ∀ j ∈ openedFrom t coreDbs, t.name i = t.name j → i = j
  -- the cached record is the one that is stored
  stored : ∀ dbi ∈ openedFrom t coreDbs,
    ∃ node ∈ tables t, node.key = t.name dbi ∧ node.db = t.dbs dbi

end Model

/-! ## 3. A leaf -/

section Page

variable {K : Type} {t : Txn K} {c : Counter}

theorem sum_cons (node : Node K) (l : List (Node K)) :
    c.sum (node :: l) = c.ofTree node.db + c.sum l := List.sum_cons

theorem sum_append (l l' : List (Node K)) : c.sum (l ++ l') = c.sum l + c.sum l' := by
  unfold Counter.sum
  rw [List.map_append, List.sum_append]

/-- The closed tables that the loop does not come to. -/
def behind (t : Txn K) : List (Node K) → List (Node K)
  | [] => []
  | node :: rest =>
      if isTable node ∧ accounted t node.key then rest.filter (isClosed t) else behind t rest

/-- A leaf adds its closed tables, but for those behind an open one. -/
theorem scanPage_count {page : List (Node K)} (st : MdbxStat)
    (hsize : ∀ node ∈ page, node.flags = nTree → node.size = sizeofTree) :
    (scanPage t page st).1 = true ∧
      c.ofStat (scanPage t page st).2 + c.sum (behind t page) =
        c.ofStat st + c.sum (page.filter (isClosed t)) := by
  induction page generalizing st with
  | nil => exact ⟨rfl, rfl⟩
  | cons node rest ih =>
    have hrest : ∀ n ∈ rest, n.flags = nTree → n.size = sizeofTree :=
      fun n hn => hsize n (List.mem_cons_of_mem _ hn)
    unfold scanPage behind
    by_cases htree : node.flags = nTree
    · have hthis := hsize node List.mem_cons_self htree
      have htable : isTable node = true := decide_eq_true htree
      rw [if_neg (not_not.2 htree), if_neg (not_not.2 hthis)]
      by_cases hopen : accounted t node.key = true
      · have hnot : isClosed t node = false := by
          unfold isClosed
          rw [hopen, Bool.not_true, Bool.and_false]
        rw [if_pos hopen, if_pos ⟨htable, hopen⟩, List.filter_cons, hnot]
        exact ⟨rfl, rfl⟩
      · have hclosed : isClosed t node = true := by
          unfold isClosed
          rw [htable, Bool.eq_false_iff.2 hopen]
          rfl
        obtain ⟨hdone, hcount⟩ := ih (tblStatAdd st node.db) hrest
        rw [if_neg hopen, if_neg fun hc => hopen hc.2, List.filter_cons, hclosed, if_pos rfl,
          sum_cons, hcount, c.add]
        exact ⟨hdone, Nat.add_assoc _ _ _⟩
    · have hnot : isTable node = false := decide_eq_false htree
      have hclosed : isClosed t node = false := by
        unfold isClosed
        rw [hnot, Bool.false_and]
      rw [if_pos htree, if_neg, List.filter_cons, hclosed]
      · exact ih st hrest
      · rintro ⟨htable, -⟩
        rw [hnot] at htable
        exact Bool.false_ne_true htable

theorem behind_hollow_iff {page : List (Node K)} :
    (∀ other ∈ behind t page, other.db.Hollow) ↔
      ∀ before node rest, page = before ++ node :: rest →
        isTable node = true → accounted t node.key = true →
          ∀ other ∈ rest, isClosed t other = true → other.db.Hollow := by
  induction page with
  | nil =>
    refine iff_of_true (fun other hmem => absurd hmem List.not_mem_nil) ?_
    intro before node rest heq
    cases before <;> cases heq
  | cons first page ih =>
    unfold behind
    by_cases hfirst : isTable first = true ∧ accounted t first.key = true
    · rw [if_pos hfirst]
      constructor
      · intro h before node rest heq htable hopen other hmem hclosed
        refine h other (List.mem_filter.2 ⟨?_, hclosed⟩)
        cases before with
        | nil =>
          cases heq
          exact hmem
        | cons b before =>
          cases heq
          exact List.mem_append_right _ (List.mem_cons_of_mem _ hmem)
      · intro h other hmem
        obtain ⟨hin, hclosed⟩ := List.mem_filter.1 hmem
        exact h [] first page rfl hfirst.1 hfirst.2 other hin hclosed
    · rw [if_neg hfirst, ih]
      constructor
      · intro h before node rest heq htable hopen
        cases before with
        | nil =>
          cases heq
          exact absurd ⟨htable, hopen⟩ hfirst
        | cons b before =>
          cases heq
          exact h before node rest rfl htable hopen
      · intro h before node rest heq
        exact h (first :: before) node rest (by rw [heq]; rfl)

end Page

/-! ## 4. All leaves -/

section Scan

variable {K : Type} {t : Txn K} {c : Counter}

/-- What stands behind open tables on some leaf. -/
def skipped (t : Txn K) : List (Node K) := ((pages t).map (behind t)).flatten

theorem scanLoop_count {root : Tree K (Node K)} {height : Nat} {top : Frame K (Node K)}
    {rest : List (Frame K (Node K))} (fuel : Nat) (st : MdbxStat) {after : List (Tree K (Node K))}
    (hpath : Path root height 0 (top :: rest)) (hafter : side true (top :: rest) = after)
    (hfuel : after.length < fuel)
    (hsize : ∀ page ∈ top.page :: after, ∀ node ∈ page.items, node.flags = nTree →
      node.size = sizeofTree) :
    (scanLoop t fuel (top :: rest) st).1 = .success ∧
      c.ofStat (scanLoop t fuel (top :: rest) st).2 +
          c.sum (((top.page :: after).map fun page => behind t page.items).flatten) =
        c.ofStat st + c.sum (((top.page :: after).map Tree.items).flatten.filter (isClosed t)) := by
  induction after generalizing top rest fuel st with
  | nil =>
    obtain ⟨fuel, rfl⟩ : ∃ f, fuel = f + 1 := ⟨fuel - 1, by omega⟩
    have hstep := stepAside_spec true hpath
    rw [hafter] at hstep
    obtain ⟨hdone, hcount⟩ := scanPage_count (t := t) (c := c) st
      (hsize top.page List.mem_cons_self)
    unfold scanLoop
    dsimp only at hstep ⊢
    rw [if_neg (not_not.2 hdone), hstep]
    refine ⟨rfl, ?_⟩
    rw [List.map_singleton, List.map_singleton, List.flatten_singleton, List.flatten_singleton]
    exact hcount
  | cons next after ih =>
    obtain ⟨fuel, rfl⟩ : ∃ f, fuel = f + 1 := ⟨fuel - 1, by omega⟩
    have hstep := stepAside_spec true hpath
    rw [hafter] at hstep
    obtain ⟨rest', hrun, hpath', hafter', -⟩ := hstep
    obtain ⟨hdone, hcount⟩ := scanPage_count (t := t) (c := c) st
      (hsize top.page List.mem_cons_self)
    obtain ⟨hsucc, hmore⟩ := ih fuel (scanPage t top.page.items st).2 hpath'
      hafter' (by rw [List.length_cons] at hfuel; omega)
      fun page hmem => hsize page (List.mem_cons_of_mem _ hmem)
    unfold scanLoop
    dsimp only
    rw [if_neg (not_not.2 hdone), hrun]
    refine ⟨hsucc, ?_⟩
    simp only [List.map_cons, List.flatten_cons, List.filter_append, sum_append] at hmore ⊢
    omega

theorem pages_some {m : MainTree K} (hm : t.main = some m) : pages t = m.leaves.map Tree.items := by
  unfold pages
  rw [hm]

/-- The walk over MainDB adds its closed tables, but for those behind an open one. -/
theorem scan_count (h : t.Wf) {m : MainTree K} (hm : t.main = some m) (st : MdbxStat) :
    (scanLoop t m.leaves.length (deepen true m.height [⟨m.root, 0⟩]) st).1 = .success ∧
      c.ofStat (scanLoop t m.leaves.length (deepen true m.height [⟨m.root, 0⟩]) st).2 +
          c.sum (skipped t) = c.ofStat st + c.sum ((nodes t).filter (isClosed t)) := by
  have hroot : Path m.root m.height m.height [⟨m.root, 0⟩] := .root 0 (h.uniform m hm)
  obtain ⟨leaf, rest, hrun, hpath, hleft⟩ :=
    deepen_spec true hroot (Nat.le_refl m.height) rfl
  have hempty : side false (⟨leaf, edge true leaf⟩ :: rest) = [] := hleft rfl
  have hheight : rest.length = m.height := by
    have := hpath.length
    rw [List.length_cons] at this
    omega
  have hleaves : m.leaves = leaf :: side true (⟨leaf, edge true leaf⟩ :: rest) := by
    have hlevel := hpath.level
    rw [hempty, hheight] at hlevel
    exact hlevel
  have hpages := pages_some hm
  rw [hrun]
  unfold skipped nodes
  rw [hpages, hleaves, List.map_map]
  refine scanLoop_count _ st hpath rfl (by rw [List.length_cons]; omega) fun page hpage node hnode => ?_
  refine h.sizes node ?_
  unfold nodes
  rw [hpages, hleaves]
  exact List.mem_flatten.2 ⟨page.items, List.mem_map.2 ⟨page, hpage, rfl⟩, hnode⟩

theorem skipped_hollow_iff :
    (∀ other ∈ skipped t, other.db.Hollow) ↔ NothingBehind t := by
  unfold skipped NothingBehind
  constructor
  · intro h page hpage
    refine behind_hollow_iff.1 fun other hother => h other ?_
    exact List.mem_flatten.2 ⟨_, List.mem_map.2 ⟨page, hpage, rfl⟩, hother⟩
  · intro h other hmem
    obtain ⟨l, hl, hother⟩ := List.mem_flatten.1 hmem
    obtain ⟨page, hpage, rfl⟩ := List.mem_map.1 hl
    exact behind_hollow_iff.2 (h page hpage) other hother

theorem sum_eq_zero_iff {l : List (Node K)} :
    c.sum l = 0 ↔ ∀ node ∈ l, c.ofTree node.db = 0 := by
  induction l with
  | nil => exact iff_of_true rfl fun node hmem => absurd hmem List.not_mem_nil
  | cons node l ih =>
    rw [sum_cons, List.forall_mem_cons, ← ih]
    omega

end Scan

/-! ## 5. Open tables -/

section Opened

variable {K : Type} {t : Txn K} {c : Counter}

theorem openedFrom_nodup {start : Nat} (hlo : 1 ≤ start) (hhi : start < 32) :
    (openedFrom t start).Nodup := by
  unfold openedFrom
  rw [foreachDbi_eq hlo hhi]
  exact List.Nodup.filter _ (List.Nodup.filter _ List.nodup_range')

-- the handle of MainDB is the first one
theorem openedFrom_main (h : t.Wf) :
    openedFrom t mainDbi = mainDbi :: openedFrom t coreDbs := by
  have hlen : t.nDbi - mainDbi = t.nDbi - coreDbs + 1 := by
    have := h.main_in
    unfold mainDbi at this ⊢
    unfold coreDbs
    omega
  unfold openedFrom
  rw [foreachDbi_eq (by decide) (by decide), foreachDbi_eq (by decide) (by decide), hlen,
    List.range'_succ, List.filter_cons, decide_eq_true h.main_live, if_pos rfl, List.filter_cons,
    h.main_opened, if_pos rfl]
  rfl

theorem accounted_iff (h : t.Wf) {name : K} :
    accounted t name = true ↔ ∃ dbi ∈ openedFrom t coreDbs, t.name dbi = name := by
  unfold accounted openedFrom
  rw [List.any_eq_true]
  constructor
  · rintro ⟨dbi, hmem, hboth⟩
    rw [Bool.and_eq_true, decide_eq_true_eq, h.cmp_eq] at hboth
    exact ⟨dbi, List.mem_filter.2 ⟨hmem, hboth.1⟩, hboth.2.symm⟩
  · rintro ⟨dbi, hmem, hname⟩
    obtain ⟨hin, hopen⟩ := List.mem_filter.1 hmem
    refine ⟨dbi, hin, ?_⟩
    rw [Bool.and_eq_true, decide_eq_true_eq, h.cmp_eq]
    exact ⟨hopen, hname.symm⟩

/-- The records of the open tables. -/
def openTables (t : Txn K) : List (Node K) := (tables t).filter fun node => accounted t node.key

/-- The handles and the records of the open tables are the same names. -/
theorem names_perm (h : t.Wf) :
    ((openedFrom t coreDbs).map t.name).Perm ((openTables t).map Node.key) := by
  have hnodes : ((openTables t).map Node.key).Nodup := by
    refine List.Nodup.sublist ?_ h.keys
    exact (List.filter_sublist.trans List.filter_sublist).map Node.key
  have hhandles : ((openedFrom t coreDbs).map t.name).Nodup :=
    List.Nodup.map_on h.names (openedFrom_nodup (by decide) (by decide))
  rw [List.perm_ext_iff_of_nodup hhandles hnodes]
  intro name
  rw [List.mem_map, List.mem_map, ← accounted_iff h]
  constructor
  · intro hopen
    obtain ⟨dbi, hmem, rfl⟩ := (accounted_iff h).1 hopen
    obtain ⟨node, hnode, hkey, -⟩ := h.stored dbi hmem
    refine ⟨node, List.mem_filter.2 ⟨hnode, ?_⟩, hkey⟩
    rw [hkey]
    exact hopen
  · rintro ⟨node, hmem, rfl⟩
    exact (List.mem_filter.1 hmem).2

-- a key has one record
theorem node_unique (h : t.Wf) {node node' : Node K} (hmem : node ∈ nodes t)
    (hmem' : node' ∈ nodes t) (hkey : node.key = node'.key) : node = node' :=
  List.inj_on_of_nodup_map h.keys hmem hmem' hkey

/-- What the handles give is what the records of the open tables say. -/
theorem opened_sum (h : t.Wf) :
    ((openedFrom t coreDbs).map fun dbi => c.ofTree (t.dbs dbi)).sum = c.sum (openTables t) := by
  classical
  -- the quantity of the table with a name
  let quantity (name : K) : Nat :=
    if hex : ∃ node ∈ nodes t, node.key = name then c.ofTree hex.choose.db else 0
  have hnode : ∀ node ∈ nodes t, quantity node.key = c.ofTree node.db := by
    intro node hmem
    have hex : ∃ node' ∈ nodes t, node'.key = node.key := ⟨node, hmem, rfl⟩
    have hsame := node_unique h hex.choose_spec.1 hmem hex.choose_spec.2
    show (if hex : ∃ node' ∈ nodes t, node'.key = node.key then c.ofTree hex.choose.db else 0) = _
    rw [dif_pos hex, hsame]
  have hleft : (openedFrom t coreDbs).map (fun dbi => c.ofTree (t.dbs dbi)) =
      ((openedFrom t coreDbs).map t.name).map quantity := by
    rw [List.map_map]
    refine List.map_congr_left fun dbi hmem => ?_
    obtain ⟨node, htable, hkey, hdb⟩ := h.stored dbi hmem
    show c.ofTree (t.dbs dbi) = quantity (t.name dbi)
    rw [← hkey, ← hdb, hnode node (List.mem_filter.1 htable).1]
  have hright : c.sum (openTables t) = (((openTables t).map Node.key).map quantity).sum := by
    unfold Counter.sum
    rw [List.map_map]
    congr 1
    refine List.map_congr_left fun node hmem => ?_
    have hin : node ∈ nodes t := (List.mem_filter.1 (List.mem_filter.1 hmem).1).1
    exact (hnode node hin).symm
  rw [hleft, hright]
  exact ((names_perm h).map quantity).sum_eq

theorem foldl_count (l : List Nat) (st : MdbxStat) :
    c.ofStat (l.foldl (fun st dbi => tblStatAdd st (t.dbs dbi)) st) =
      c.ofStat st + (l.map fun dbi => c.ofTree (t.dbs dbi)).sum := by
  induction l generalizing st with
  | nil => rfl
  | cons dbi l ih => rw [List.foldl_cons, ih, c.add, List.map_cons, List.sum_cons, Nat.add_assoc]

-- open and closed tables are all tables
theorem sum_tables (l : List (Node K)) :
    c.sum ((l.filter isTable).filter fun node => accounted t node.key) +
      c.sum (l.filter (isClosed t)) = c.sum (l.filter isTable) := by
  induction l with
  | nil => rfl
  | cons node l ih =>
    rw [List.filter_cons, List.filter_cons]
    unfold isClosed at ih ⊢
    cases isTable node with
    | false => exact ih
    | true =>
      rw [if_pos rfl, List.filter_cons]
      cases accounted t node.key with
      | false =>
        rw [if_neg Bool.false_ne_true, Bool.true_and, Bool.not_false, if_pos rfl, sum_cons,
          sum_cons, ← ih]
        exact Nat.add_left_comm _ _ _
      | true =>
        rw [if_pos rfl, Bool.true_and, Bool.not_true, if_neg Bool.false_ne_true, sum_cons,
          sum_cons, ← ih, Nat.add_assoc]

end Opened

/-! ## 6. The sum -/

section Summary

variable {K : Type} {t : Txn K}

/-- The sum of the handles. -/
def openSum (t : Txn K) : MdbxStat :=
  (openedFrom t mainDbi).foldl (fun st dbi => tblStatAdd st (t.dbs dbi)) (emptyStat t.psize)

theorem openSum_count (h : t.Wf) (c : Counter) :
    c.ofStat (openSum t) + c.sum ((nodes t).filter (isClosed t)) = c.total t := by
  have hall := sum_tables (t := t) (c := c) (nodes t)
  have hopen := opened_sum (c := c) h
  unfold openSum Counter.total tables
  rw [foldl_count, c.empty, openedFrom_main h, List.map_cons, List.sum_cons, hopen, ← hall]
  show 0 + (_ + c.sum (openTables t)) + _ = _ + (c.sum (openTables t) + _)
  omega

/-- Where the handles are as many as the records, no table is closed. -/
theorem closed_none (h : t.Wf)
    (hdone : ¬ (openedFrom t mainDbi).length < (t.dbs mainDbi).items + 1) :
    (nodes t).filter (isClosed t) = [] := by
  have hperm := (names_perm h).length_eq
  rw [List.length_map, List.length_map] at hperm
  rw [openedFrom_main h, List.length_cons, h.items, hperm] at hdone
  have hsub : (openTables t).Sublist (nodes t) := List.filter_sublist.trans List.filter_sublist
  have hall : openTables t = nodes t := hsub.eq_of_length_le (by omega)
  rw [List.filter_eq_nil_iff]
  intro node hmem
  rw [← hall] at hmem
  have hopen : accounted t node.key = true := (List.mem_filter.1 hmem).2
  unfold isClosed
  rw [hopen, Bool.not_true, Bool.and_false]
  exact Bool.false_ne_true

theorem mem_closed_of_behind {other : Node K} :
    ∀ {page : List (Node K)}, other ∈ behind t page → other ∈ page.filter (isClosed t)
  | node :: rest, hmem => by
    unfold behind at hmem
    rw [List.filter_cons]
    split_ifs at hmem with hc
    · split_ifs
      · exact List.mem_cons_of_mem _ hmem
      · exact hmem
    · have := mem_closed_of_behind hmem
      split_ifs
      · exact List.mem_cons_of_mem _ this
      · exact this

theorem skipped_closed {other : Node K} (hmem : other ∈ skipped t) :
    other ∈ (nodes t).filter (isClosed t) := by
  obtain ⟨l, hl, hother⟩ := List.mem_flatten.1 hmem
  obtain ⟨page, hpage, rfl⟩ := List.mem_map.1 hl
  obtain ⟨hin, hclosed⟩ := List.mem_filter.1 (mem_closed_of_behind hother)
  exact List.mem_filter.2 ⟨List.mem_flatten.2 ⟨page, hpage, hin⟩, hclosed⟩

/-- The result falls short by the tables that are skipped. -/
theorem summary_count (h : t.Wf) :
    (tblStatSummary t).1 = .success ∧
      ∀ c : Counter, c.ofStat (tblStatSummary t).2 + c.sum (skipped t) = c.total t := by
  have hplain : (¬ t.mainDupsort = true) := by
    rw [h.plain]
    exact Bool.false_ne_true
  unfold tblStatSummary
  dsimp only
  by_cases hscan : (openedFrom t mainDbi).length < (t.dbs mainDbi).items + 1
  · simp only [if_pos (And.intro hplain hscan)]
    cases hm : t.main with
    | none =>
      have hnodes : nodes t = [] := by
        unfold nodes pages
        rw [hm]
        rfl
      have hskip : skipped t = [] := by
        unfold skipped pages
        rw [hm]
        rfl
      refine ⟨rfl, fun c => ?_⟩
      have hcount := openSum_count h c
      rw [hnodes] at hcount
      rw [hskip]
      exact hcount
    | some m =>
      refine ⟨(scan_count (c := branchCounter) h hm (openSum t)).1, fun c => ?_⟩
      have hcount := openSum_count h c
      have hwalk := (scan_count (c := c) h hm (openSum t)).2
      exact hwalk.trans hcount
  · rw [if_neg fun hc => hscan (And.right hc)]
    refine ⟨rfl, fun c => ?_⟩
    have hcount := openSum_count h c
    have hnone := closed_none h hscan
    have hskip : skipped t = [] := by
      apply List.eq_nil_iff_forall_not_mem.2
      intro other hmem
      have := skipped_closed hmem
      rw [hnone] at this
      exact List.not_mem_nil this
    rw [hnone] at hcount
    rw [hskip]
    exact hcount

/-- All tables are counted once exactly if no table with pages or entries stands on its leaf behind
an open one. -/
theorem tblStatSummary_exact_iff (t : Txn K) (h : t.Wf) :
    (tblStatSummary t).1 = .success ∧ Exact t (tblStatSummary t).2 ↔ NothingBehind t := by
  obtain ⟨hsuccess, hcount⟩ := summary_count h
  rw [and_iff_right hsuccess, ← skipped_hollow_iff]
  unfold Exact TreeRec.Hollow
  constructor
  · intro hexact other hmem c hc
    have hall := hcount c
    rw [hexact c hc] at hall
    exact sum_eq_zero_iff.1 (by omega) other hmem
  · intro hhollow c hc
    have hzero : c.sum (skipped t) = 0 :=
      sum_eq_zero_iff.2 fun other hmem => hhollow other hmem c hc
    rw [← hcount c, hzero, Nat.add_zero]

end Summary

/-! ## 7. Two tables on a leaf -/

/-- A table of one leaf with `items` entries. -/
def smallTable (items : Nat) : TreeRec := ⟨1, 0, 1, 0, items, 5⟩

/-- MainDB with the tables 1 and 2, of which the one that the handle 2 names is open. -/
def twoTables (openName : Nat) : Txn Nat where
  nDbi := 3
  dbiState := fun _ => dbiValid
  dbiSparse := fun _ => 7
  psize := 4096
  dbs := fun dbi => if dbi = 2 then smallTable openName else smallTable 2
  mainDupsort := false
  main := some ⟨0, .leaf
    [⟨1, nTree, sizeofTree, smallTable 1⟩, ⟨2, nTree, sizeofTree, smallTable 2⟩]⟩
  name := fun _ => openName
  cmp := fun a b => (a : Int) - b

theorem twoTables_wf {openName : Nat} (hname : openName = 1 ∨ openName = 2) :
    (twoTables openName).Wf := by
  have hopened : openedFrom (twoTables openName) coreDbs = [2] := by
    rcases hname with rfl | rfl
    · decide
    · decide
  have htables : tables (twoTables openName) =
      [⟨1, nTree, sizeofTree, smallTable 1⟩, ⟨2, nTree, sizeofTree, smallTable 2⟩] := rfl
  have hkeys : (nodes (twoTables openName)).map Node.key = [1, 2] := rfl
  have hmain : opened (twoTables openName) mainDbi = true := by
    rcases hname with rfl | rfl
    · decide
    · decide
  refine ⟨fun m hm => ?_, rfl, fun node hmem _ => ?_, by rw [hkeys]; decide, rfl, fun a b => ?_,
    ?_, ?_, hmain, fun i hi j hj _ => ?_, fun dbi hmem => ?_⟩
  · cases hm
    exact ⟨_, rfl, List.cons_ne_nil _ _⟩
  · have hnodes : nodes (twoTables openName) = tables (twoTables openName) := rfl
    rw [hnodes, htables] at hmem
    rcases List.mem_pair.1 hmem with rfl | rfl
    · rfl
    · rfl
  · show (a : Int) - b = 0 ↔ a = b
    omega
  · show 1 < 3
    decide
  · rcases hname with rfl | rfl
    · decide
    · decide
  · rw [hopened, List.mem_singleton] at hi hj
    rw [hi, hj]
  · rw [hopened, List.mem_singleton] at hmem
    rw [htables, hmem]
    rcases hname with rfl | rfl
    · exact ⟨_, List.mem_cons_self, rfl, rfl⟩
    · exact ⟨_, List.mem_cons_of_mem _ List.mem_cons_self, rfl, rfl⟩

-- the second table is open
theorem tblStatSummary_exact_last :
    (twoTables 2).Wf ∧ ((tblStatSummary (twoTables 2)).1 = .success ∧
      Exact (twoTables 2) (tblStatSummary (twoTables 2)).2 ↔ NothingBehind (twoTables 2)) :=
  ⟨twoTables_wf (Or.inr rfl), tblStatSummary_exact_iff (twoTables 2) (twoTables_wf (Or.inr rfl))⟩

/-- With the first table open, the second one is not counted. -/
theorem tblStatSummary_misses_second :
    (twoTables 1).Wf ∧ (tblStatSummary (twoTables 1)).1 = .success ∧
      (tblStatSummary (twoTables 1)).2.entries = 3 ∧ itemCounter.total (twoTables 1) = 5 ∧
      (tblStatSummary (twoTables 2)).2.entries = 5 := by
  exact ⟨twoTables_wf (Or.inl rfl), by decide, by decide, by decide, by decide⟩

end Mdbx.Stat
