import Mdbx.Spill.Model

/-!
# Spill.Barred — pages that are not to be spilled

A page on the stack of a cursor that is kept gets the newest label, and a page of a parent's spill list
is found there.  Neither these nor loose pages have a priority below 256.
-/

namespace Mdbx.Spill

open Buffer

variable {lru : Nat} {l : List Item} {v : Watch} {x : Item}

/-- What labels and `P_SPILLED` are not a part of. -/
def core (x : Item) : Nat × Nat × Bool := (x.pgno, x.npages, x.loose)

/-- The items of the page are too young. -/
def Young (lru : Nat) (l : List Item) (pgno : Nat) : Prop :=
  ∀ x ∈ l, x.pgno = pgno → txnDplAge lru x = 0

/-! ## 1. Cursors -/

/-- The pages that `spill_cursor_keep` goes through. -/
def refsOf (mc : Cursor) : List Ref := mc.stack ++ if mc.stack = [] then [] else mc.inner

theorem txnDplAge_newest (h : lru < 2 ^ 32) (x : Item) :
    txnDplAge lru { x with label := lru } = 0 := by
  unfold txnDplAge u32
  rw [Nat.mod_eq_of_lt h, Nat.add_sub_cancel_left, Nat.mod_self]

theorem keepPage_core (kept : List Item × Nat) (ref : Ref) :
    (keepPage lru kept ref).1.map core = kept.1.map core := by
  unfold keepPage
  dsimp only
  rw [List.map_map]
  refine List.map_congr_left fun x _ => ?_
  dsimp only [Function.comp_apply]
  split
  · rfl
  · rfl

theorem keepPage_young (h : lru < 2 ^ 32) (kept : List Item × Nat) (ref : Ref) :
    (ref.modifable → Young lru (keepPage lru kept ref).1 ref.pgno) ∧
    ∀ pgno, Young lru kept.1 pgno → Young lru (keepPage lru kept ref).1 pgno := by
  unfold keepPage Young
  dsimp only
  constructor
  · intro hmod y hy hpgno
    obtain ⟨x, hx, rfl⟩ := List.mem_map.mp hy
    by_cases hhit : ref.modifable ∧ x.pgno = ref.pgno ∧ txnDplAge lru x ≠ 0
    · rw [if_pos (decide_eq_true hhit)]
      exact txnDplAge_newest h x
    · rw [if_neg fun htrue => hhit (of_decide_eq_true htrue)] at hpgno ⊢
      by_contra hage
      exact hhit ⟨hmod, hpgno, hage⟩
  · intro pgno hyoung y hy hpgno
    obtain ⟨x, hx, rfl⟩ := List.mem_map.mp hy
    by_cases hhit : ref.modifable ∧ x.pgno = ref.pgno ∧ txnDplAge lru x ≠ 0
    · rw [if_pos (decide_eq_true hhit)]
      exact txnDplAge_newest h x
    · rw [if_neg fun htrue => hhit (of_decide_eq_true htrue)] at hpgno ⊢
      exact hyoung x hx hpgno

theorem keepPages_spec (h : lru < 2 ^ 32) : ∀ (refs : List Ref) (kept : List Item × Nat),
    (refs.foldl (keepPage lru) kept).1.map core = kept.1.map core ∧
    (∀ pgno, Young lru kept.1 pgno → Young lru (refs.foldl (keepPage lru) kept).1 pgno) ∧
    ∀ ref ∈ refs, ref.modifable → Young lru (refs.foldl (keepPage lru) kept).1 ref.pgno
  | [], _ => ⟨rfl, fun _ hyoung => hyoung, fun _ hin => absurd hin List.not_mem_nil⟩
  | ref :: refs, kept => by
      obtain ⟨hcore, hstay, hnew⟩ := keepPages_spec h refs (keepPage lru kept ref)
      obtain ⟨hself, hold⟩ := keepPage_young h kept ref
      refine ⟨hcore.trans (keepPage_core kept ref), fun pgno hyoung => hstay _ (hold _ hyoung),
        fun other hin hmod => ?_⟩
      rcases List.mem_cons.mp hin with rfl | hin
      · exact hstay _ (hself hmod)
      · exact hnew other hin hmod

theorem txnDplLruTurn_spec (t : Txn) :
    (txnDplLruTurn t).dirtylru < 2 ^ 32 ∧ (txnDplLruTurn t).dirty.map core = t.dirty.map core ∧
    txnDplLruTurn t =
      { t with dirtylru := (txnDplLruTurn t).dirtylru, dirty := (txnDplLruTurn t).dirty } := by
  have hlt : u32 (t.dirtylru + 1) < 2 ^ 32 := Nat.mod_lt _ (by decide)
  unfold txnDplLruTurn
  dsimp only
  split
  · refine ⟨?_, ?_, rfl⟩
    · change u32 (t.dirtylru + 1) / 2 < 2 ^ 32
      omega
    · change (t.dirty.map _).map core = _
      rw [List.map_map]
      rfl
  · exact ⟨hlt, rfl, rfl⟩

/-- No page on the stack of a cursor that `spill_txn_keep` goes through has an age. -/
theorem spillTxnKeep_spec (t : Txn) (m0 : Option Cursor) :
    (spillTxnKeep t m0).2.dirty.map core = t.dirty.map core ∧
    (spillTxnKeep t m0).2 =
      { t with
        dirtylru := (spillTxnKeep t m0).2.dirtylru
        dirty := (spillTxnKeep t m0).2.dirty } ∧
    ∀ mc ∈ keptCursors t m0, ∀ ref ∈ refsOf mc, ref.modifable →
      Young (spillTxnKeep t m0).2.dirtylru (spillTxnKeep t m0).2.dirty ref.pgno := by
  obtain ⟨hlt, hcore, hturned⟩ := txnDplLruTurn_spec t
  have hfold : ∀ kept : List Item × Nat,
      (keptCursors t m0).foldl (spillCursorKeep (txnDplLruTurn t).dirtylru) kept =
        ((keptCursors t m0).flatMap refsOf).foldl (keepPage (txnDplLruTurn t).dirtylru) kept := by
    intro kept
    rw [List.foldl_flatMap]
    rfl
  obtain ⟨hkept, -, hyoung⟩ := keepPages_spec hlt ((keptCursors t m0).flatMap refsOf)
    ((txnDplLruTurn t).dirty, 0)
  rw [← hfold] at hkept hyoung
  have hout : (spillTxnKeep t m0).2 = { txnDplLruTurn t with
      dirty := ((keptCursors t m0).foldl (spillCursorKeep (txnDplLruTurn t).dirtylru)
        ((txnDplLruTurn t).dirty, 0)).1 } := rfl
  refine ⟨hkept.trans hcore, ?_, fun mc hmc ref href hmod =>
    hyoung ref (List.mem_flatMap.mpr ⟨mc, hmc, href⟩) hmod⟩
  rw [hout]
  conv_lhs => rw [hturned]

/-! ## 2. Parents -/

/-- The page is in the spill list of the parent. -/
def Parent.Holds (parent : Parent) (p : Nat) : Prop :=
  ∃ pnl, parent.spilled = some pnl ∧ 2 * p ∈ pnl.list

/-- Spill lists are in order, and `MDBX_TXN_SPILLS` comes down to the first parent. -/
structure Inherited (parents : List Parent) : Prop where
  sorted : ∀ parent ∈ parents, ∀ pnl, parent.spilled = some pnl → pnl.list.Pairwise (· > ·)
  spills : ∀ parent ∈ parents, ∀ p, parent.Holds p → ∀ first ∈ parents.head?, first.spills

theorem spillIntersect_of_holds {b : Build} {parent : Parent} {p pgno npages : Nat}
    (hsorted : ∀ pnl, parent.spilled = some pnl → pnl.list.Pairwise (· > ·))
    (hlo : pgno ≤ p) (hhi : p < pgno + npages) (hholds : parent.Holds p) :
    spillIntersect b parent pgno npages = true := by
  obtain ⟨pnl, hsome, hword⟩ := hholds
  have hdesc := hsorted pnl hsome
  change (slice pnl.cells 1 pnl.size).Pairwise _ at hdesc
  change 2 * p ∈ slice pnl.cells 1 pnl.size at hword
  rw [pairwise_slice] at hdesc
  obtain ⟨j, hj, hjs, hcell⟩ := mem_slice.mp hword
  obtain ⟨last, hlast⟩ : ∃ last, last = 2 * (pgno + npages) - 1 := ⟨_, rfl⟩
  have ho : SearchOrdered (fun i => Pnl.ordered (pnl.cells (i + 1)) last) pnl.size := by
    intro i k hik hk hbefore
    have hlt : last < pnl.cells (k + 1) := of_decide_eq_true hbefore
    have hgt := hdesc (i + 1) (k + 1) (by omega) (by omega) (by omega)
    exact decide_eq_true (Nat.lt_trans hlt hgt)
  have hpos : pnl.search b last =
      search b.haveCmov (fun i => Pnl.ordered (pnl.cells (i + 1)) last) pnl.size + 1 := rfl
  obtain ⟨-, hleft, -⟩ := search_lowerBound b.haveCmov _ _ ho
  -- the word of the page is not before the position
  have hbound : pnl.search b last ≤ j := by
    by_contra hgt
    have hbefore := hleft (j - 1) (by omega)
    have hlt : last < pnl.cells (j - 1 + 1) := of_decide_eq_true hbefore
    rw [Nat.sub_add_cancel hj, hcell] at hlt
    omega
  have hfirst : 2 * pgno ≤ pnl.cells (pnl.search b last) := by
    by_cases hsame : pnl.search b last = j
    · rw [hsame, hcell]
      omega
    · have hgt := hdesc (pnl.search b last) j (by omega) (by omega) hjs
      omega
  unfold spillIntersect
  rw [hsome, ← hlast]
  exact decide_eq_true ⟨by omega, hfirst⟩

/-! ## 3. Priorities -/

/-- An item with a priority below 256 is none of these. -/
theorem spillPrio_free (hparents : Inherited v.parents) (h : spillPrio v x < 256) :
    txnDplAge v.dirtylru x ≠ 0 ∧ x.loose = false ∧
    ∀ p, x.pgno ≤ p → p < x.endPgno → ∀ parent ∈ v.parents, ¬ parent.Holds p := by
  unfold spillPrio at h
  dsimp only at h
  by_cases hage : txnDplAge v.dirtylru x = 0
  · rw [if_pos hage] at h
    omega
  rw [if_neg hage] at h
  by_cases hflags : x.loose ∨ x.parentSpilled
  · rw [if_pos hflags] at h
    omega
  rw [if_neg hflags] at h
  by_cases hmeet : parentsIntersect v.build v.parents x.pgno x.npages = true
  · rw [if_pos hmeet] at h
    omega
  refine ⟨hage, by simpa using fun hloose => hflags (.inl hloose),
    fun p hlo hhi parent hin hholds => hmeet ?_⟩
  have hfound := spillIntersect_of_holds (b := v.build) (hparents.sorted parent hin) hlo hhi hholds
  unfold parentsIntersect
  cases hlist : v.parents with
  | nil =>
      rw [hlist] at hin
      exact absurd hin List.not_mem_nil
  | cons first rest =>
      have hspills := hparents.spills parent hin p hholds first (by rw [hlist]; rfl)
      rw [hlist] at hin
      change decide (first.spills = true ∧ (first :: rest).any _ = true) = true
      exact decide_eq_true ⟨hspills, List.any_eq_true.mpr ⟨parent, hin, hfound⟩⟩

theorem spillMark_core (v : Watch) (l : List Item) : (l.map (spillMark v)).map core = l.map core := by
  rw [List.map_map]
  refine List.map_congr_left fun x _ => ?_
  dsimp only [Function.comp_apply]
  unfold spillMark
  split
  · rfl
  · rfl

theorem spillMark_young {pgno : Nat} (h : Young lru l pgno) :
    Young lru (l.map (spillMark v)) pgno := by
  intro y hy hpgno
  obtain ⟨x, hx, rfl⟩ := List.mem_map.mp hy
  have hsame : (spillMark v x).pgno = x.pgno ∧ (spillMark v x).label = x.label := by
    unfold spillMark
    split
    · exact ⟨rfl, rfl⟩
    · exact ⟨rfl, rfl⟩
  have hage := h x hx (hsame.1 ▸ hpgno)
  unfold txnDplAge at hage ⊢
  rw [hsame.2]
  exact hage

end Mdbx.Spill
