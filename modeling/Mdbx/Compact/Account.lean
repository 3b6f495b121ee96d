import Mdbx.Compact.Preserved
import Mdbx.Geometry.Packed
import Mdbx.Geometry.Steps

/-!
# Compact.Account — the meta pages of a compacting copy

The copy is expected to take what the snapshot uses less what its GC holds.  More than that is a
corruption, and less is a leak, which a pipe does not forgive: its meta pages went ahead.
-/

namespace Mdbx.Compact

open Mdbx.Geometry

/-! ## 1. Geometry of the copy -/

def compactingFixupMeta (b : Geometry.Build) (geo : Geo) : Geo :=
  let now :=
    if geo.firstUnallocated ≠ geo.now then
      let aligner := pv2pages (if geo.growPv ≠ 0 then geo.growPv else geo.shrinkPv)
      if aligner ≠ 0 then
        pgnoCeil2osPgno b
          (sizeT b (geo.firstUnallocated + aligner - geo.firstUnallocated % aligner))
      else geo.firstUnallocated
    else geo.now
  let now := if now < geo.lower then geo.lower else now
  { geo with now := if geo.upper < now then geo.upper else now }

/-- MIN_PAGENO. -/
def minPageno : Nat := numMetas

def metaMakeSizeable (geo : Geo) : Geo :=
  let geo := { geo with lower := minPageno }
  let geo :=
    if geo.growPv = 0 then { geo with growPv := pages2pv (pgnoT (1 + (geo.upper - geo.lower) / 42)) }
    else geo
  if geo.shrinkPv = 0 then { geo with shrinkPv := pages2pv (pgnoT (2 * pv2pages geo.growPv)) }
  else geo

/-- The new end is rounded in a word of the size of `size_t`. -/
def FixupFits (b : Geometry.Build) (geo : Geo) : Prop :=
  geo.firstUnallocated ≠ geo.now → ∀ aligner, aligner = pv2pages (if geo.growPv ≠ 0 then geo.growPv
    else geo.shrinkPv) → aligner ≠ 0 → Room b (nextStep geo.firstUnallocated aligner)

theorem fixupFits_of_wide {b : Geometry.Build} (hwide : b.sizeBits = 64) {geo : Geo}
    (hused : geo.firstUnallocated ≤ 2 ^ 31) : FixupFits b geo := by
  intro _ aligner haligner hne
  have hstep := nextStep_bounds geo.firstUnallocated (Nat.pos_of_ne_zero hne)
  have hle := (pv2pages_bounds (if geo.growPv ≠ 0 then geo.growPv else geo.shrinkPv)).2
  rw [← haligner] at hle
  exact room_of_wide hwide (by omega)

/-- The fixed geometry keeps its limits, and its end covers all that was copied. -/
theorem compactingFixupMeta_covers (b : Geometry.Build) {geo : Geo} (hlimits : geo.lower ≤ geo.upper)
    (hused : geo.firstUnallocated ≤ geo.upper) (hupper : geo.upper ≤ 2 ^ 31)
    (hfits : FixupFits b geo) :
    geo.lower ≤ (compactingFixupMeta b geo).now ∧ (compactingFixupMeta b geo).now ≤ geo.upper ∧
      geo.firstUnallocated ≤ (compactingFixupMeta b geo).now := by
  -- the end before the limits
  have hclamp : ∀ now, geo.firstUnallocated ≤ now →
      let low := if now < geo.lower then geo.lower else now
      let high := if geo.upper < low then geo.upper else low
      geo.lower ≤ high ∧ high ≤ geo.upper ∧ geo.firstUnallocated ≤ high := by
    intro now hnow
    dsimp only
    split_ifs <;> omega
  unfold compactingFixupMeta
  dsimp only
  by_cases hsame : geo.firstUnallocated = geo.now
  · rw [if_neg (not_not.mpr hsame)]
    exact hclamp geo.now (Nat.le_of_eq hsame)
  · rw [if_pos hsame]
    set aligner := pv2pages (if geo.growPv ≠ 0 then geo.growPv else geo.shrinkPv) with haligner
    by_cases hzero : aligner = 0
    · rw [if_neg (not_not.mpr hzero)]
      exact hclamp _ (Nat.le_refl _)
    · rw [if_pos hzero]
      have hstep := nextStep_bounds geo.firstUnallocated (Nat.pos_of_ne_zero hzero)
      have hle := (pv2pages_bounds (if geo.growPv ≠ 0 then geo.growPv else geo.shrinkPv)).2
      rw [← haligner] at hle
      have hbits := (sizeBits_le b).1
      have hsize : sizeT b (geo.firstUnallocated + aligner - geo.firstUnallocated % aligner) =
          nextStep geo.firstUnallocated aligner := by
        unfold sizeT
        exact Nat.mod_eq_of_lt (Nat.lt_of_le_of_lt hstep.2 (by omega))
      rw [hsize, pgnoCeil2osPgno_eq (hfits hsame aligner haligner hzero) (by omega)]
      exact hclamp _ (hstep.1.trans (ceilPages_bounds b _).1)

/-! ## 2. The copy -/

structure Meta where
  geo : Geo
  main : Tree

/-- What the copy takes from the transaction. -/
structure Snapshot where
  main : Tree
  firstUnallocated : Nat
  -- the pages of the GC and the pages in it
  gcNpages : Nat

structure Job where
  build : Geometry.Build
  destIsPipe : Bool
  -- MDBX_CP_FORCE_DYNAMIC_SIZE
  dynamic : Bool
  /-- The geometry of `meta_init_triplet`. -/
  geo : Geo

structure Outcome where
  /-- The meta page in the buffer, which goes to a file at last. -/
  last : Meta
  -- what went into a pipe ahead of the pages
  piped : Option Meta
  ctx : Ctx

def Job.start (j : Job) : Geo := if j.dynamic then metaMakeSizeable j.geo else j.geo

/-- `txn->geo.first_unallocated - gc_npages` -/
def Snapshot.expected (s : Snapshot) : Nat := pgnoSub s.firstUnallocated s.gcNpages

/-- The record of an empty main tree. -/
def emptyMain (flagsOf : Schema) : Tree :=
  ⟨none, 0, 0, { flagsOf with dupfixSize := 0, other := List.replicate 28 0 }⟩

/-- The meta page when the walk begins; it goes into a pipe like this. -/
def earlyMeta (R : Reader) (j : Job) (s : Snapshot) : Meta :=
  let geo := { j.start with firstUnallocated := s.expected }
  if j.destIsPipe then
    ⟨compactingFixupMeta j.build geo,
      if s.main.modTxnid = 0 then { s.main with modTxnid := R.txnid } else s.main⟩
  else ⟨geo, s.main⟩

/-- The meta page behind a walk. -/
def lateMeta (j : Job) (early : Meta) (ctx : Ctx) (main : Tree) : Meta :=
  let geo := { early.geo with firstUnallocated := ctx.firstUnallocated }
  ⟨if j.destIsPipe then geo else compactingFixupMeta j.build geo, main⟩

/-- `copy_with_compacting` where the writer's thread has no error; a result other than
`MDBX_SUCCESS` is a stop. -/
def copyWithCompacting (R : Reader) (steps depth : Nat) (j : Job) (s : Snapshot) :
    Except Stop Outcome :=
  match s.main.root with
  | none =>
    let last := ⟨compactingFixupMeta j.build j.start, emptyMain s.main.schema⟩
    .ok ⟨last, if j.destIsPipe then some last else none, ⟨numMetas, []⟩⟩
  | some _ =>
    let early := earlyMeta R j s
    match compactingWalkTree R (compactingWalk R steps depth) ⟨numMetas, []⟩ early.main with
    | .error stop => .error stop
    | .ok (ctx, main) =>
      if s.expected < ctx.firstUnallocated then .error (.rc mdbxCorrupted)
      else if ctx.firstUnallocated < s.expected ∧ j.destIsPipe = true then
        .error (.rc mdbxCorrupted)
      else .ok ⟨lateMeta j early ctx main, if j.destIsPipe then some early else none, ctx⟩

/-! ## 3. A snapshot of five pages -/

def flat : Schema := ⟨false, false, 0, 0, []⟩

def tinyPage (pgno : Nat) : Except Int Page :=
  match pgno with
  | 7 => .ok ⟨4, .leaf [⟨[7], .plain [70]⟩]⟩
  | 8 => .ok ⟨5, .leaf [⟨[1], .plain [10]⟩, ⟨[2], .big 3 12⟩]⟩
  | 9 => .ok ⟨5, .leaf [⟨[5], .tree false sizeofTree ⟨some 7, 1, 4, flat⟩⟩]⟩
  | 10 => .ok ⟨5, .branch [([], 8), ([5], 9)]⟩
  | _ => .error mdbxPageNotfound

def tiny : Reader where
  txnid := 6
  pageSize := 256
  page pgno _ := tinyPage pgno
  large pgno _ := if pgno = 12 then .ok ⟨3, [1, 2, 3, 4]⟩ else .error mdbxPageNotfound
  tblSetup _ := 0
  valueBounds _ := (0, 0)

def tinyFound : Found where
  entries := [([1], .plain [10]), ([2], .big [1, 2, 3]),
    ([5], .tree false flat 1 [([7], .plain [70])])]
  pages := 5

def tinySnapshot : Snapshot := ⟨⟨some 10, 2, 5, flat⟩, 20, 12⟩

theorem wide : 64 = 32 ∨ 64 = 64 := Or.inr rfl

theorem page_bits : 8 ≤ 12 ∧ 12 ≤ 16 := by decide

theorem unit_bits : 12 ≤ 22 := by decide

def tinyJob (pipe : Bool) : Job where
  build := ⟨64, wide, 12, page_bits, 12, unit_bits⟩
  destIsPipe := pipe
  dynamic := false
  geo := ⟨4, 8, 3, 100, 20, 3⟩

theorem tiny_readable : tableItems tiny (treeItems tiny tiny.view 2) tinySnapshot.main =
    some tinyFound := rfl

theorem tiny_dated : tableItems tiny (treeItems tiny tiny.datedView 2) tinySnapshot.main =
    some tinyFound := rfl

theorem tiny_small : 2 * tinyFound.pages ≤ 10 := by decide

theorem tiny_copied (pipe : Bool) :
    ∃ o, copyWithCompacting tiny 10 2 (tinyJob pipe) tinySnapshot = .ok o := by
  have hok : ∀ pipe, (copyWithCompacting tiny 10 2 (tinyJob pipe) tinySnapshot).toOption.isSome =
      true := by decide +kernel
  have h := hok pipe
  cases hcopy : copyWithCompacting tiny 10 2 (tinyJob pipe) tinySnapshot with
  | error stop =>
    rw [hcopy] at h
    cases h
  | ok o => exact ⟨o, rfl⟩

-- the root goes from page 10 to page 7, which the meta pages in the pipe do not know
example : (copyWithCompacting tiny 10 2 (tinyJob true) tinySnapshot).toOption.map
    (fun o => (o.last.main.root, o.piped.map fun m => m.main.root)) =
      some (some 7, some (some 10)) := by decide +kernel

/-! ## 4. What the copy is -/

variable {R : Reader} {S : View} {steps depth nest : Nat} {j : Job} {s : Snapshot} {x : Found}
  {o : Outcome}

-- the record that the walk starts from
theorem tableItems_early (sub : SubItems)
    (hsub : ∀ t front m, sub false false { t with modTxnid := m } front = sub false false t front)
    (t : Tree) : tableItems R sub (if t.modTxnid = 0 then { t with modTxnid := R.txnid } else t) =
      tableItems R sub t := by
  by_cases hzero : t.modTxnid = 0
  · rw [if_pos hzero]
    unfold tableItems dateOf
    simp only [hsub, if_pos hzero, ite_self]
  · rw [if_neg hzero]

/-- The walk of the main tree of a snapshot that can be read. -/
theorem walk_main (hS : S.Within R.view) (hsteps : 2 * x.pages ≤ steps) (hdepth : nest ≤ depth)
    {t : Tree} (hx : tableItems R (treeItems R S nest) t = some x) :
    ∃ ctx t', compactingWalkTree R (compactingWalk R steps depth) ⟨numMetas, []⟩ t = .ok (ctx, t') ∧
      ctx.Ok ∧ ctx.firstUnallocated = numMetas + x.pages ∧
      (∀ pgno, t.root = some pgno → ∃ q, t'.root = some q ∧ q + 1 = ctx.firstUnallocated) ∧
      (S.Dated R.txnid → tableItems R (treeItems R ctx.view nest) t' = some x) := by
  have hstart : (⟨numMetas, []⟩ : Ctx).Ok := rfl
  obtain ⟨ctx, t', hrun, hcopied, -, -, hroot, hitems⟩ :=
    compactingWalkTree_copied (compactingWalk_copied hS hdepth hsteps) hstart (Nat.le_refl _) hx
  exact ⟨ctx, t', hrun, hcopied.grown.ok hstart, hcopied.first, hroot, hitems⟩

/-- A copy that is made holds what the snapshot holds, in as many pages, and its meta page tells how
many these are. -/
structure Outcome.Exact (R : Reader) (nest : Nat) (x : Found) (o : Outcome) : Prop where
  items : tableItems R (treeItems R o.ctx.view nest) o.last.main = some x
  used : o.ctx.firstUnallocated = numMetas + x.pages
  told : o.last.geo.firstUnallocated = o.ctx.firstUnallocated

/-- What a copy consists of, whether its pages can be read or not. -/
structure Outcome.Made (R : Reader) (j : Job) (s : Snapshot) (x : Found) (o : Outcome) : Prop where
  placed : o.ctx.Ok
  used : o.ctx.firstUnallocated = numMetas + x.pages
  told : o.last.geo.firstUnallocated = o.ctx.firstUnallocated
  root : ∃ t' q, t'.root = some q ∧ q + 1 = numMetas + x.pages ∧
    o.last = lateMeta j (earlyMeta R j s) o.ctx t'
  piped : o.piped = if j.destIsPipe then some (earlyMeta R j s) else none

/-- The copy does not take more than expected, and less only in a file. -/
def Fits (j : Job) (s : Snapshot) (used : Nat) : Prop :=
  used = s.expected ∨ used < s.expected ∧ j.destIsPipe = false

theorem Fits.le {used : Nat} (h : Fits j s used) : used ≤ s.expected :=
  h.elim Nat.le_of_eq fun hless => hless.1.le

theorem earlyMeta_items (hx : tableItems R (treeItems R S nest) s.main = some x) :
    tableItems R (treeItems R S nest) (earlyMeta R j s).main = some x := by
  unfold earlyMeta
  by_cases hpipe : j.destIsPipe = true
  · rw [if_pos hpipe]
    rw [← tableItems_early _ (fun t front m => treeItems_dated S t front m) s.main] at hx
    exact hx
  · rw [if_neg hpipe]
    exact hx

theorem earlyMeta_root (R : Reader) (j : Job) (s : Snapshot) :
    (earlyMeta R j s).main.root = s.main.root := by
  unfold earlyMeta
  dsimp only
  split_ifs <;> rfl

theorem lateMeta_told (j : Job) (early : Meta) (ctx : Ctx) (main : Tree) :
    (lateMeta j early ctx main).geo.firstUnallocated = ctx.firstUnallocated := by
  unfold lateMeta
  dsimp only
  split_ifs <;> rfl

theorem copyWithCompacting_some (hS : S.Within R.view) {pgno : Nat} (hroot : s.main.root = some pgno)
    (hsteps : 2 * x.pages ≤ steps) (hdepth : nest ≤ depth)
    (hx : tableItems R (treeItems R S nest) s.main = some x) :
    ∃ o : Outcome, o.Made R j s x ∧ (S.Dated R.txnid → o.Exact R nest x) ∧
      copyWithCompacting R steps depth j s =
        if s.expected < numMetas + x.pages then .error (.rc mdbxCorrupted)
        else if numMetas + x.pages < s.expected ∧ j.destIsPipe = true then
          .error (.rc mdbxCorrupted)
        else .ok o := by
  obtain ⟨ctx, t', hrun, hok, hfirst, hroot', hitems⟩ :=
    walk_main hS hsteps hdepth (earlyMeta_items (j := j) hx)
  obtain ⟨q, hq, hlast⟩ := hroot' pgno ((earlyMeta_root R j s).trans hroot)
  have htold := lateMeta_told j (earlyMeta R j s) ctx t'
  refine ⟨⟨lateMeta j (earlyMeta R j s) ctx t',
    if j.destIsPipe then some (earlyMeta R j s) else none, ctx⟩,
    ⟨hok, hfirst, htold, ⟨t', q, hq, hlast.trans hfirst, rfl⟩, rfl⟩,
    fun hdated => ⟨hitems hdated, hfirst, htold⟩, ?_⟩
  unfold copyWithCompacting
  simp only [hroot, hrun]
  rw [hfirst]

/-- When the copy is made, and of what it consists. -/
theorem copy_made (hS : S.Within R.view) {pgno : Nat} (hroot : s.main.root = some pgno)
    (hsteps : 2 * x.pages ≤ steps) (hdepth : nest ≤ depth)
    (hx : tableItems R (treeItems R S nest) s.main = some x)
    (ho : copyWithCompacting R steps depth j s = .ok o) :
    Fits j s (numMetas + x.pages) ∧ o.Made R j s x ∧ (S.Dated R.txnid → o.Exact R nest x) := by
  obtain ⟨o', hmade, hexact, hcopy⟩ :=
    copyWithCompacting_some (j := j) hS hroot hsteps hdepth hx
  rw [hcopy] at ho
  by_cases hmore : s.expected < numMetas + x.pages
  · rw [if_pos hmore] at ho
    cases ho
  · rw [if_neg hmore] at ho
    by_cases hless : numMetas + x.pages < s.expected ∧ j.destIsPipe = true
    · rw [if_pos hless] at ho
      cases ho
    · rw [if_neg hless] at ho
      cases ho
      refine ⟨?_, hmade, hexact⟩
      by_cases heq : numMetas + x.pages = s.expected
      · exact Or.inl heq
      · have hlt : numMetas + x.pages < s.expected := by omega
        exact Or.inr ⟨hlt, Bool.eq_false_iff.mpr fun hp => hless ⟨hlt, hp⟩⟩

/-- A copy is made when no page is used twice and, for a pipe, none is leaked.  It holds what the
snapshot holds, unless a page without a txnid, which gets the newest one, is below an older page. -/
theorem compact_copy_exact {pgno : Nat} (hroot : s.main.root = some pgno)
    (hsteps : 2 * x.pages ≤ steps) (hdepth : nest ≤ depth)
    (hx : tableItems R (treeItems R R.view nest) s.main = some x) :
    ((∃ o, copyWithCompacting R steps depth j s = .ok o) ↔
      numMetas + x.pages = s.expected ∨
        numMetas + x.pages < s.expected ∧ j.destIsPipe = false) ∧
    (tableItems R (treeItems R R.datedView nest) s.main = some x →
      ∀ o, copyWithCompacting R steps depth j s = .ok o → o.Exact R nest x) := by
  have hS := View.Within.refl R.view
  refine ⟨⟨fun ⟨o, ho⟩ => (copy_made hS hroot hsteps hdepth hx ho).1, fun hfit => ?_⟩,
    fun hdated o ho => (copy_made R.datedView_within hroot hsteps hdepth hdated ho).2.2
      R.datedView_dated⟩
  obtain ⟨o, -, -, hcopy⟩ := copyWithCompacting_some (j := j) hS hroot hsteps hdepth hx
  have hmore : ¬ s.expected < numMetas + x.pages := by omega
  have hless : ¬ (numMetas + x.pages < s.expected ∧ j.destIsPipe = true) := by
    rintro ⟨hlt, hp⟩
    rcases hfit with h | ⟨-, h⟩
    · omega
    · exact Bool.noConfusion (hp.symm.trans h)
  rw [if_neg hmore, if_neg hless] at hcopy
  exact ⟨o, hcopy⟩

theorem compact_copy_exact_tiny : ∃ o,
    copyWithCompacting tiny 10 2 (tinyJob false) tinySnapshot = .ok o ∧ o.Exact tiny 2 tinyFound := by
  have h := compact_copy_exact (s := tinySnapshot) (j := tinyJob false) rfl
    tiny_small (Nat.le_refl 2) tiny_readable
  obtain ⟨o, ho⟩ := h.1.mpr (Or.inl rfl)
  exact ⟨o, ho, h.2 tiny_dated o ho⟩

/-- A leaf without a txnid below a branch of txnid 5. -/
def undated : Reader := { tiny with page := fun pgno _ => match pgno with
  | 8 => .ok ⟨0, .leaf [⟨[1], .plain [10]⟩]⟩
  | 10 => .ok ⟨5, .branch [([], 8)]⟩
  | _ => .error mdbxPageNotfound }

-- the copy says that the leaf is of txnid 6, and nobody can read it for its parent
example : (tableItems undated (treeItems undated undated.view 1) tinySnapshot.main).isSome = true ∧
    (copyWithCompacting undated 4 1 (tinyJob false) tinySnapshot).toOption.any (fun o =>
      (tableItems undated (treeItems undated o.ctx.view 1) o.last.main).isNone) = true := by
  decide +kernel

/-- The meta pages that go into a pipe have the root of the snapshot, and the root of the copy is the
last page that is put: they agree only where the snapshot happens to have its root there. -/
theorem piped_root_iff {pgno : Nat} (hroot : s.main.root = some pgno)
    (hsteps : 2 * x.pages ≤ steps) (hdepth : nest ≤ depth)
    (hx : tableItems R (treeItems R R.view nest) s.main = some x)
    (ho : copyWithCompacting R steps depth j s = .ok o) {m : Meta} (hm : o.piped = some m) :
    m.main.root = o.last.main.root ↔ pgno + 1 = s.expected := by
  obtain ⟨hfit, hmade, -⟩ := copy_made (View.Within.refl R.view) hroot hsteps hdepth hx ho
  obtain ⟨t', q, hq, hlast, hlate⟩ := hmade.root
  have hpiped := hmade.piped
  rw [hm] at hpiped
  by_cases hpipe : j.destIsPipe = true
  · rw [if_pos hpipe] at hpiped
    cases hpiped
    have hroot' : o.last.main.root = some q := by
      rw [hlate]
      exact hq
    rw [earlyMeta_root, hroot, hroot', Option.some_inj]
    rcases hfit with hfit | ⟨-, hfit⟩
    · omega
    · exact absurd (hpipe.symm.trans hfit) Bool.noConfusion
  · rw [if_neg hpipe] at hpiped
    cases hpiped

theorem piped_root_tiny : ∃ o m, copyWithCompacting tiny 10 2 (tinyJob true) tinySnapshot = .ok o ∧
    o.piped = some m ∧ (m.main.root = o.last.main.root ↔ 10 + 1 = 8) := by
  obtain ⟨o, ho⟩ := tiny_copied true
  have hpiped := (copy_made (View.Within.refl _) rfl tiny_small (Nat.le_refl 2) tiny_readable
    ho).2.1.piped
  exact ⟨o, _, ho, hpiped, piped_root_iff rfl tiny_small (Nat.le_refl 2) tiny_readable ho hpiped⟩

/-- The pages of a copy lie side by side: each number from the metas on belongs to one page, and to
no other. -/
theorem compact_copy_tiled {pgno : Nat} (hroot : s.main.root = some pgno)
    (hsteps : 2 * x.pages ≤ steps) (hdepth : nest ≤ depth)
    (hx : tableItems R (treeItems R R.view nest) s.main = some x)
    (ho : copyWithCompacting R steps depth j s = .ok o) :
    ∀ p, numMetas ≤ p → p < o.last.geo.firstUnallocated →
      ∃ e ∈ o.ctx.out, (e.pgno ≤ p ∧ p < e.pgno + e.npages) ∧
        ∀ e' ∈ o.ctx.out, e'.pgno ≤ p ∧ p < e'.pgno + e'.npages → e' = e := by
  intro p hge hlt
  have hmade := (copy_made (View.Within.refl R.view) hroot hsteps hdepth hx ho).2.1
  rw [hmade.told] at hlt
  exact hmade.placed.covers hge hlt

theorem compact_copy_tiled_tiny : ∃ o,
    copyWithCompacting tiny 10 2 (tinyJob false) tinySnapshot = .ok o ∧
      ∃ e ∈ o.ctx.out, (e.pgno ≤ 4 ∧ 4 < e.pgno + e.npages) ∧
        ∀ e' ∈ o.ctx.out, e'.pgno ≤ 4 ∧ 4 < e'.pgno + e'.npages → e' = e := by
  obtain ⟨o, ho⟩ := tiny_copied false
  have hmade := (copy_made (View.Within.refl _) rfl tiny_small (Nat.le_refl 2) tiny_readable ho).2.1
  have hlt : 4 < o.last.geo.firstUnallocated := by
    rw [hmade.told, hmade.used]
    decide
  exact ⟨o, ho, compact_copy_tiled rfl tiny_small (Nat.le_refl 2) tiny_readable ho 4 (by decide) hlt⟩

/-- The end of the copy keeps its limits and covers its pages. -/
theorem compact_copy_covers {pgno : Nat} (hroot : s.main.root = some pgno)
    (hsteps : 2 * x.pages ≤ steps) (hdepth : nest ≤ depth)
    (hx : tableItems R (treeItems R R.view nest) s.main = some x)
    (ho : copyWithCompacting R steps depth j s = .ok o) (hwide : j.build.sizeBits = 64)
    (hlimits : j.start.lower ≤ j.start.upper) (hupper : j.start.upper ≤ 2 ^ 31)
    (hexpected : s.expected ≤ j.start.upper) :
    j.start.lower ≤ o.last.geo.now ∧ o.last.geo.now ≤ j.start.upper ∧
      o.last.geo.firstUnallocated ≤ o.last.geo.now := by
  obtain ⟨hfit, hmade, -⟩ := copy_made (View.Within.refl R.view) hroot hsteps hdepth hx ho
  obtain ⟨t', q, -, -, hlate⟩ := hmade.root
  have hfixed : ∀ used, used ≤ j.start.upper →
      let geo := { j.start with firstUnallocated := used }
      j.start.lower ≤ (compactingFixupMeta j.build geo).now ∧
        (compactingFixupMeta j.build geo).now ≤ j.start.upper ∧
          used ≤ (compactingFixupMeta j.build geo).now := by
    intro used hle geo
    have hlow : geo.lower ≤ geo.upper := hlimits
    have hused : geo.firstUnallocated ≤ geo.upper := hle
    exact compactingFixupMeta_covers j.build hlow hused hupper
      (fixupFits_of_wide hwide (hused.trans hupper))
  rw [hlate]
  have hused := hmade.used
  have hle := hfit.le
  cases hpipe : j.destIsPipe with
  | true =>
    -- the end was fixed for the expected number of pages
    have heq : o.ctx.firstUnallocated = s.expected := by
      rcases hfit with h | ⟨-, h⟩
      · omega
      · exact absurd (hpipe.symm.trans h) Bool.noConfusion
    have hcover := hfixed s.expected hexpected
    unfold lateMeta earlyMeta
    simp only [hpipe, if_true]
    rw [heq]
    exact hcover
  | false =>
    have hcover := hfixed o.ctx.firstUnallocated (by omega)
    unfold lateMeta earlyMeta
    simp only [hpipe, Bool.false_eq_true, if_false]
    exact hcover

theorem compact_copy_covers_tiny : ∃ o,
    copyWithCompacting tiny 10 2 (tinyJob false) tinySnapshot = .ok o ∧
      3 ≤ o.last.geo.now ∧ o.last.geo.now ≤ 100 ∧
        o.last.geo.firstUnallocated ≤ o.last.geo.now := by
  obtain ⟨o, ho⟩ := tiny_copied false
  exact ⟨o, ho, compact_copy_covers rfl tiny_small (Nat.le_refl 2) tiny_readable ho rfl (by decide)
    (by decide) (by decide)⟩

end Mdbx.Compact
