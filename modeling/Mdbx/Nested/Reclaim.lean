import Mdbx.Nested.Retired

/-!
# Nested.Reclaim — which large pages are reclaimed whole

The look-back of the loop compares the word before the last one it has kept, while the next page of
a large page is the last one.  So only the first page is taken, except where the word in front of
the list, its length, happens to be the number looked for.
-/

namespace Mdbx.Nested

open Buffer

/-! ## 1. Before and after the loop -/

/-- The parent when the loop begins. -/
def sifted (b : Build) (parent : Txn) : Txn :=
  txnDplSift b (dropRefunded parent) (dropRefunded parent).repnl 0

@[simp] theorem txnDplSift_repnl (b : Build) (t : Txn) (pl : Pnl) (shift : Nat) :
    (txnDplSift b t pl shift).repnl = t.repnl := by
  unfold txnDplSift
  split
  · rfl
  · simp only
    split
    · rfl
    · rfl

@[simp] theorem txnDplSift_spilled (b : Build) (t : Txn) (pl : Pnl) (shift : Nat) :
    (txnDplSift b t pl shift).spilled = t.spilled := by
  unfold txnDplSift
  split
  · rfl
  · simp only
    split
    · rfl
    · rfl

@[simp] theorem filterSpilled_repnl (t : Txn) (src : Dpl) :
    (filterSpilled t src).repnl = t.repnl := by
  unfold filterSpilled
  split
  · rfl
  · split
    · rfl
    · simp only
      split
      · rfl
      · rfl

@[simp] theorem filterSpilled_retired (t : Txn) (src : Dpl) :
    (filterSpilled t src).retired = t.retired := by
  unfold filterSpilled
  split
  · rfl
  · split
    · rfl
    · simp only
      split
      · rfl
      · rfl

theorem dropSpilled_repnl (b : Build) (nested t : Txn) :
    (dropSpilled b nested t).repnl = t.repnl := by
  unfold dropSpilled
  cases nested.spilled with
  | none => rfl
  | some sp => exact txnDplSift_repnl b t sp.list 1

theorem dropSpilled_retired (b : Build) (nested t : Txn) :
    (dropSpilled b nested t).retired = t.retired := by
  unfold dropSpilled
  cases nested.spilled with
  | none => rfl
  | some sp => exact txnDplSift_retired b t sp.list 1

theorem sifted_retired (b : Build) (parent : Txn) : (sifted b parent).retired = parent.retired :=
  txnDplSift_retired b (dropRefunded parent) _ 0

/-- The state after all the rounds. -/
def roundsDone (b : Build) (base : Nat) (parent : Txn) : Txn × Nat :=
  rounds b base (sifted b parent) (parent.retired.size - base)

theorem moveRetired_sifted (b : Build) (base : Nat) (parent : Txn) :
    moveRetired b base (sifted b parent) =
      { (roundsDone b base parent).1 with
        retired := ⟨(roundsDone b base parent).1.retired.cells, (roundsDone b base parent).2⟩ } := by
  unfold moveRetired roundsDone rounds
  rw [sifted_retired]

theorem nestedMerge_repnl (b : Build) (parent nested : Txn) (base : Nat)
    (headers : Nat → Header) :
    (nestedMerge b parent nested base headers).1.repnl = (roundsDone b base parent).1.repnl := by
  show (sieve b parent nested base).repnl = _
  unfold sieve
  simp only
  rw [dropSpilled_repnl, filterSpilled_repnl]
  show (moveRetired b base (sifted b parent)).repnl = _
  rw [moveRetired_sifted]

theorem nestedMerge_retired (b : Build) (parent nested : Txn) (base : Nat)
    (headers : Nat → Header) :
    (nestedMerge b parent nested base headers).1.retired =
      ⟨(roundsDone b base parent).1.retired.cells, (roundsDone b base parent).2⟩ := by
  show (sieve b parent nested base).retired = _
  unfold sieve
  simp only
  rw [dropSpilled_retired, filterSpilled_retired]
  show (moveRetired b base (sifted b parent)).retired = _
  rw [moveRetired_sifted]

theorem sorted_sifted (b : Build) {parent nested : Txn} (h : Mergeable parent nested) :
    Sorted (sifted b parent).dirtylist ∧
      ∀ x ∈ (sifted b parent).dirtylist.list, x ∈ parent.dirtylist.list := by
  have hsort := txnDplSort_spec h.parentItems
  have hrefund := @refund_filtered { parent with dirtylist := txnDplSort parent.dirtylist }
    hsort.1 parent.firstUnallocated
  have hsift := txnDplSift_filtered b hrefund.sorted parent.repnl 0 (h.repnl.shiftRight 0)
  apply And.intro hsift.sorted
  intro x hx
  rw [show (sifted b parent).dirtylist.list = _ from hsift.list] at hx
  have hr := List.mem_of_mem_filter hx
  rw [show _ = List.filter _ (txnDplSort parent.dirtylist).list from hrefund.list] at hr
  exact hsort.2.1.mem_iff.1 (List.mem_of_mem_filter hr)

/-! ## 2. Large pages -/

/-- The page sets of a parent whose retired list has been extended by `spans`. -/
structure Retiring (parent : Txn) (before : Pnl) (spans : List (Nat × Nat)) : Prop where
  list : parent.retired = retireSpans before spans
  -- the first word of a list is its length
  length : before.cells 0 = before.size
  nodup : parent.retired.list.Nodup
  repnl : ∀ q ∈ retiredSince parent before.size, q ∉ parent.repnl.list
  spilled : ∀ x ∈ parent.dirtylist.list, ∀ k, k < x.npages → NotSpilled parent (x.pgno + k)

/-- The pages of the retired list that the loop has kept. -/
def keptPages (s : Txn × Nat) : List Nat := (List.range' 1 s.2).map s.1.retired.cells

/-- All the pages of the span are reclaimed, none of them stays among the retired ones, and the
round that meets the first page takes no other page from those. -/
structure SpanReclaimed (b : Build) (parent nested : Txn) (base : Nat) (headers : Nat → Header)
    (before pgno npages : Nat) : Prop where
  repnl : ∀ k, k < npages → pgno + k ∈ (nestedMerge b parent nested base headers).1.repnl.list
  retired : ∀ k, k < npages →
    pgno + k ∉ (nestedMerge b parent nested base headers).1.retired.list
  others : ∀ q ∈ keptPages (rounds b base (sifted b parent) (before + npages - 1)),
    q ∉ keptPages (rounds b base (sifted b parent) (before + npages)) →
      pgno ≤ q ∧ q < pgno + npages

theorem Spans.eq_of_common {l : List Item} (h : Spans l) {x y : Item} (hx : x ∈ l) (hy : y ∈ l)
    {q : Nat} (hqx : x.pgno ≤ q ∧ q < x.endPgno) (hqy : y.pgno ≤ q ∧ q < y.endPgno) : x = y := by
  obtain ⟨i, hi, hxi⟩ := List.getElem_of_mem hx
  obtain ⟨j, hj, hyj⟩ := List.getElem_of_mem hy
  have hp := List.pairwise_iff_getElem.1 h.apart
  by_cases hij : i < j
  · have := hp i j hi hj hij
    rw [hxi, hyj] at this
    omega
  · by_cases hji : j < i
    · have := hp j i hj hi hji
      rw [hxi, hyj] at this
      omega
    · have he : i = j := by omega
      subst he
      exact hxi.symm.trans hyj

/-! ## 3. One large page in the list -/

/-- A span of the retired list that is an item of the dirty list. -/
structure SpanAt (base : Nat) (t : Txn) (before : Nat) (x : Item) : Prop where
  sorted : Sorted t.dirtylist
  item : x ∈ t.dirtylist.list
  fits : base + before + x.npages ≤ t.retired.size
  cells : ∀ k, k < x.npages → t.retired.cells (base + before + x.npages - k) = x.pgno + k
  inj : ∀ i j, 1 ≤ i → i ≤ t.retired.size → 1 ≤ j → j ≤ t.retired.size →
    t.retired.cells i = t.retired.cells j → i = j
  notSpilled : ∀ k, k < x.npages → NotSpilled t (x.pgno + k)
  fresh : ∀ k, k < x.npages → x.pgno + k ∉ t.repnl.list
  length : t.retired.cells 0 = t.retired.size ∨ 0 < base

section Span

variable {b : Build} {base before : Nat} {t : Txn} {x : Item}

theorem SpanAt.pos (h : SpanAt base t before x) : 1 ≤ x.npages := h.sorted.spans.pos x h.item

-- a page of the span stands in no other place of the list
theorem SpanAt.cell_eq (h : SpanAt base t before x) {k i : Nat} (hk : k < x.npages) (hi : 1 ≤ i)
    (his : i ≤ t.retired.size) (hc : t.retired.cells i = x.pgno + k) :
    i = base + before + x.npages - k := by
  have hfits := h.fits
  exact h.inj _ _ hi his (by omega) (by omega) (hc.trans (h.cells k hk).symm)

-- an item that shares a page with the span is the item itself
theorem SpanAt.item_eq (h : SpanAt base t before x) {y : Item} (hy : y ∈ t.dirtylist.list) {k : Nat}
    (hk : k < x.npages) (hlo : y.pgno ≤ x.pgno + k) (hhi : x.pgno + k < y.pgno + y.npages) : y = x :=
  h.sorted.spans.eq_of_common hy h.item ⟨hlo, hhi⟩ ⟨by omega, by unfold Item.endPgno; omega⟩

theorem mem_rounds (h : SpanAt base t before x) {k : Nat} {y : Item}
    (hy : y ∈ (rounds b base t k).1.dirtylist.list) : y ∈ t.dirtylist.list := by
  rw [list_rounds b base h.sorted k] at hy
  exact List.mem_of_mem_filter hy

/-- The pages after the first are kept. -/
theorem SpanAt.keep (h : SpanAt base t before x) {j : Nat} (hj : 1 ≤ j) (hjn : j < x.npages) :
    (rounds b base t (before + x.npages - j)).2 =
        (rounds b base t (before + x.npages - j - 1)).2 + 1 ∧
      (rounds b base t (before + x.npages - j)).1.retired.cells =
        set (rounds b base t (before + x.npages - j - 1)).1.retired.cells
          ((rounds b base t (before + x.npages - j - 1)).2 + 1) (x.pgno + j) := by
  have hr := round_rounds b base h.sorted (before + x.npages - j - 1)
  have hcell : (rounds b base t (before + x.npages - j - 1)).1.retired.cells
      (base + 1 + (before + x.npages - j - 1)) = x.pgno + j := by
    rw [(compacting_rounds b base h.sorted (before + x.npages - j - 1)).ahead _ (by omega),
      show base + 1 + (before + x.npages - j - 1) = base + before + x.npages - j by omega]
    exact h.cells j hjn
  rw [show before + x.npages - j - 1 + 1 = before + x.npages - j by omega] at hr
  cases hr with
  | dirty y hy hp _ _ _ _ =>
    have hy' := mem_rounds h hy
    rw [hcell] at hp
    have hpos := h.sorted.spans.pos y hy'
    have he := h.item_eq hy' hjn (by omega) (by omega)
    rw [he] at hp
    omega
  | spilled _ hsi _ _ _ _ =>
    rw [hcell] at hsi
    exact absurd (notSpilled_rounds b base h.sorted (h.notSpilled j hjn) _).search hsi
  | keep _ _ hretired _ _ hw =>
    rw [hcell] at hretired
    exact ⟨hw, by rw [hretired]⟩

-- the round that meets the first page finds the item
theorem SpanAt.dirty (h : SpanAt base t before x) :
    let s := rounds b base t (before + x.npages - 1)
    let next := rounds b base t (before + x.npages)
    next.1.retired = s.1.retired ∧
      next.1.repnl = s.1.repnl.insertSpan x.pgno
        (taken s.1.retired.cells base x.pgno x.npages s.2).2 ∧
      next.2 = (taken s.1.retired.cells base x.pgno x.npages s.2).1 := by
  intro s next
  have hpos := h.pos
  have hfits := h.fits
  have hr := round_rounds b base h.sorted (before + x.npages - 1)
  have hcell : s.1.retired.cells (base + 1 + (before + x.npages - 1)) = x.pgno := by
    have hc := h.cells 0 (by omega)
    rw [Nat.sub_zero, Nat.add_zero] at hc
    rw [(compacting_rounds b base h.sorted (before + x.npages - 1)).ahead _ (by omega), ← hc]
    congr 1
    omega
  have hitem : x ∈ s.1.dirtylist.list := by
    show x ∈ (rounds b base t (before + x.npages - 1)).1.dirtylist.list
    rw [list_rounds b base h.sorted]
    refine List.mem_filter.2 ⟨h.item, decide_eq_true fun hin => ?_⟩
    obtain ⟨i, hi, hc⟩ := List.mem_map.1 hin
    have hi' := List.mem_range'_1.1 hi
    have := h.cell_eq (show 0 < x.npages by omega) (by omega) (by omega) hc
    omega
  rw [show before + x.npages - 1 + 1 = before + x.npages by omega] at hr
  cases hr with
  | dirty y hy hp hretired _ hrepnl hw =>
    have hpos' := h.sorted.spans.pos y (mem_rounds h hy)
    rw [hcell] at hp
    have he := h.item_eq (mem_rounds h hy) (show 0 < x.npages by omega) (by omega) (by omega)
    rw [he] at hrepnl hw
    exact ⟨hretired, hrepnl, hw⟩
  | spilled hno _ _ _ _ _ => exact absurd hcell.symm (hno x hitem)
  | keep hno _ _ _ _ _ => exact absurd hcell.symm (hno x hitem)

/-- The length of the list is mistaken for the second page: it is the only one kept so far, and
nothing had been retired before. -/
def Coincidence (b : Build) (base : Nat) (t : Txn) (before : Nat) (x : Item) : Prop :=
  x.npages = 2 ∧ base = 0 ∧ (rounds b base t (before + x.npages - 1)).2 = 1 ∧
    t.retired.size = x.pgno + 1

-- what stands before the last word kept when the first page comes
theorem SpanAt.lookBack (h : SpanAt base t before x) (hlarge : 2 ≤ x.npages) :
    let s := rounds b base t (before + x.npages - 1)
    base < s.2 ∧ s.1.retired.cells s.2 = x.pgno + 1 ∧
      (s.1.retired.cells (s.2 - 1) = x.pgno + 1 ↔ Coincidence b base t before x) := by
  intro s
  have hfits := h.fits
  obtain ⟨hw, hcells⟩ := h.keep (b := b) (Nat.le_refl 1) hlarge
  have hs : s = rounds b base t (before + x.npages - 1) := rfl
  have hprev := compacting_rounds b base h.sorted (before + x.npages - 1 - 1)
  generalize hp : rounds b base t (before + x.npages - 1 - 1) = prev at hw hcells hprev
  rw [← hs] at hw hcells
  have hlo := hprev.lo
  refine ⟨by omega, ?_, ?_⟩
  · rw [hcells, hw, set_self]
  have hback : s.1.retired.cells (s.2 - 1) = prev.1.retired.cells prev.2 := by
    rw [hcells, hw, Nat.add_sub_cancel, set_of_ne _ _ (by omega)]
  rw [hback]
  constructor
  · intro he
    by_cases hkept : base < prev.2
    · -- a word kept before is one of the words before the span's second page
      obtain ⟨j, hj, hjk, hc⟩ := hprev.kept prev.2 hkept (Nat.le_refl _)
      have := h.cell_eq hlarge (show 1 ≤ j by omega) (by omega) (hc.symm.trans he)
      omega
    · have hbase : prev.2 = base := by omega
      rw [hbase, hprev.front base (Nat.le_refl _)] at he
      by_cases hzero : base = 0
      · subst hzero
        have hlen := h.length.resolve_right (Nat.lt_irrefl 0)
        rw [hlen] at he
        refine ⟨?_, rfl, ?_, he⟩
        · -- a third page would have been kept as well
          by_contra hne
          have hthird := (h.keep (b := b) (show 1 ≤ 2 by omega) (by omega)).1
          rw [show before + x.npages - 2 = before + x.npages - 1 - 1 by omega, hp] at hthird
          omega
        · rw [← hs, hw, hbase]
      · have := h.cell_eq hlarge (show 1 ≤ base by omega) (by omega) he
        omega
  · intro hc
    obtain ⟨-, hzero, hone, hsize⟩ := hc
    subst hzero
    rw [← hs] at hone
    have hz : prev.2 = 0 := by omega
    rw [hz, hprev.front 0 (Nat.le_refl _), h.length.resolve_right (Nat.lt_irrefl 0)]
    exact hsize

/-- What the round takes: one page, but in the coincidence both. -/
theorem SpanAt.taken_eq (h : SpanAt base t before x) :
    let s := rounds b base t (before + x.npages - 1)
    (Coincidence b base t before x →
      taken s.1.retired.cells base x.pgno x.npages s.2 = (0, 2)) ∧
    (¬ Coincidence b base t before x →
      taken s.1.retired.cells base x.pgno x.npages s.2 = (s.2, 1)) := by
  intro s
  have hpos := h.pos
  unfold taken
  by_cases hlarge : 1 < x.npages
  · rw [if_pos hlarge]
    have hback := h.lookBack (b := b) hlarge
    obtain ⟨hlt, -, hiff⟩ := hback
    have hs : s.2 = s.2 - 1 + 1 := by
      have : base < s.2 := hlt
      omega
    constructor
    · intro hc
      have hone : s.2 = 1 := hc.2.2.1
      have hcell := hiff.2 hc
      rw [show (rounds b base t (before + x.npages - 1)).2 = 1 from hone] at hcell
      rw [hone]
      unfold takeBack
      rw [if_pos ⟨by have := hc.2.1; omega, hcell⟩, if_pos hc.1.symm]
    · intro hc
      rw [hs]
      unfold takeBack
      rw [if_neg]
      exact fun hin => hc (hiff.1 hin.2)
  · rw [if_neg hlarge]
    exact ⟨fun hc => absurd hc.1 (by omega), fun _ => rfl⟩

end Span

/-! ## 4. What becomes of the pages -/

theorem mem_keptPages {s : Txn × Nat} {q : Nat} :
    q ∈ keptPages s ↔ ∃ i, 1 ≤ i ∧ i ≤ s.2 ∧ s.1.retired.cells i = q :=
  @mem_pnl ⟨s.1.retired.cells, s.2⟩ q

theorem Round.notKept {b : Build} {base r q : Nat} {s next : Txn × Nat}
    (hspans : Spans s.1.dirtylist.list) (hbase : base ≤ s.2)
    (hr : Round b base s.1 s.2 r next) (hq : q ∉ keptPages s) (hne : s.1.retired.cells r ≠ q) :
    q ∉ keptPages next := by
  intro hmem
  obtain ⟨i, hi, his, hc⟩ := mem_keptPages.1 hmem
  apply hq
  cases hr with
  | dirty x hx _ hretired _ _ hw =>
    have hb := (taken_bounds s.1.retired.cells x.pgno (hspans.pos x hx) hbase).2.1
    rw [hretired] at hc
    exact mem_keptPages.2 ⟨i, hi, by omega, hc⟩
  | spilled _ _ hretired _ _ hw =>
    rw [hretired] at hc
    exact mem_keptPages.2 ⟨i, hi, by omega, hc⟩
  | keep _ _ hretired _ _ hw =>
    rw [hretired] at hc
    change set _ _ _ i = q at hc
    by_cases he : i = s.2 + 1
    · rw [he, set_self] at hc
      exact absurd hc hne
    · rw [set_of_ne _ _ he] at hc
      exact mem_keptPages.2 ⟨i, hi, by omega, hc⟩

section Outcome

variable {b : Build} {base before : Nat} {t : Txn} {x : Item}

-- once out of the list, a page of the span never comes back
theorem SpanAt.notKept (h : SpanAt base t before x) {k : Nat} (hk : k < x.npages)
    (hout : x.pgno + k ∉ keptPages (rounds b base t (before + x.npages))) :
    ∀ n, base + before + x.npages + n ≤ t.retired.size →
      x.pgno + k ∉ keptPages (rounds b base t (before + x.npages + n))
  | 0, _ => hout
  | n + 1, hn => by
    have ih := h.notKept hk hout n (by omega)
    have hcomp := compacting_rounds b base h.sorted (before + x.npages + n)
    refine (round_rounds b base h.sorted (before + x.npages + n)).notKept
      (sorted_rounds b base h.sorted _).spans hcomp.lo ih ?_
    rw [hcomp.ahead _ (by omega)]
    intro hc
    have := h.cell_eq hk (show 1 ≤ base + 1 + (before + x.npages + n) by omega) (by omega) hc
    omega

theorem SpanAt.out_of_single (h : SpanAt base t before x) (hone : x.npages = 1) :
    x.pgno ∉ keptPages (rounds b base t (before + x.npages)) := by
  intro hmem
  obtain ⟨i, hi, his, hc⟩ := mem_keptPages.1 hmem
  have hfits := h.fits
  obtain ⟨hretired, -, hw⟩ := h.dirty (b := b)
  have htaken := (h.taken_eq (b := b)).2 fun hco => absurd hco.1 (by omega)
  rw [htaken] at hw
  rw [hretired] at hc
  have hcomp := compacting_rounds b base h.sorted (before + x.npages - 1)
  have hword : ∀ j, 1 ≤ j → j ≤ base + before → t.retired.cells j ≠ x.pgno := by
    intro j hj hjb he
    have := h.cell_eq (show 0 < x.npages by omega) hj (by omega) he
    omega
  by_cases hfront : i ≤ base
  · rw [hcomp.front i hfront] at hc
    exact hword i hi (by omega) hc
  · obtain ⟨j, hj, hjk, hcj⟩ := hcomp.kept i (by omega) (by simp only at hw; omega)
    exact hword j (by omega) (by omega) (hcj.symm.trans hc)

theorem SpanAt.out_of_coincidence (h : SpanAt base t before x) (hco : Coincidence b base t before x)
    {q : Nat} : q ∉ keptPages (rounds b base t (before + x.npages)) := by
  intro hmem
  obtain ⟨i, hi, his, -⟩ := mem_keptPages.1 hmem
  have hw := (h.dirty (b := b)).2.2
  rw [(h.taken_eq (b := b)).1 hco] at hw
  simp only at hw
  omega

/-- Without the coincidence the second page never comes into `repnl`. -/
theorem SpanAt.second_lost (h : SpanAt base t before x) (hlarge : 2 ≤ x.npages)
    (hco : ¬ Coincidence b base t before x) :
    ∀ k, base + k ≤ t.retired.size → x.pgno + 1 ∉ (rounds b base t k).1.repnl.list
  | 0, _ => h.fresh 1 hlarge
  | k + 1, hk => by
    have ih := h.second_lost hlarge hco k (by omega)
    have hr := round_rounds b base h.sorted k
    have hcomp := compacting_rounds b base h.sorted k
    have hcell := hcomp.ahead (base + 1 + k) (by omega)
    cases hr with
    | keep _ _ _ _ hrepnl _ =>
      rw [hrepnl]
      exact ih
    | spilled _ hsi _ _ hrepnl _ =>
      rw [hrepnl]
      intro hmem
      cases (mem_insertSpan _ _ _ _).1 hmem with
      | inl hold => exact ih hold
      | inr hnew =>
        rw [show (rounds b base t k).1.retired.cells (base + 1 + k) = x.pgno + 1 by omega] at hsi
        exact hsi (notSpilled_rounds b base h.sorted (h.notSpilled 1 hlarge) k).search
    | dirty y hy hp _ _ hrepnl _ =>
      have hy' := mem_rounds h hy
      have hpos := h.sorted.spans.pos y hy'
      rw [hrepnl]
      intro hmem
      cases (mem_insertSpan _ _ _ _).1 hmem with
      | inl hold => exact ih hold
      | inr hnew =>
        have hb := taken_bounds (rounds b base t k).1.retired.cells y.pgno hpos hcomp.lo
        have he := h.item_eq hy' hlarge hnew.1 (by omega)
        rw [he] at hp hnew
        -- this is the round of the first page
        have hk' := h.cell_eq (show 0 < x.npages by omega) (show 1 ≤ base + 1 + k by omega)
          (by omega) (hcell.symm.trans hp.symm)
        rw [show k = before + x.npages - 1 by omega, (h.taken_eq (b := b)).2 hco] at hnew
        omega

end Outcome

/-! ## 5. The merge -/

theorem Retiring.spanAt {b : Build} {parent nested : Txn} {before : Pnl}
    {pre post : List (Nat × Nat)} {x : Item} (hm : Mergeable parent nested)
    (h : Retiring parent before (pre ++ (x.pgno, x.npages) :: post))
    (hx : x ∈ (sifted b parent).dirtylist.list) :
    SpanAt before.size (sifted b parent) (spanWords pre) x := by
  obtain ⟨hsorted, hsub⟩ := sorted_sifted b hm
  have hretired := sifted_retired b parent
  have hsize : parent.retired.size = before.size + spanWords pre + x.npages + spanWords post := by
    rw [h.list, retireSpans_size]
    unfold spanWords
    rw [List.map_append, List.sum_append, List.map_cons, List.sum_cons]
    omega
  have hcells : ∀ k, k < x.npages →
      parent.retired.cells (before.size + spanWords pre + x.npages - k) = x.pgno + k := by
    intro k hk
    rw [h.list]
    exact retireSpans_span before pre post x.pgno x.npages hk
  refine ⟨hsorted, hx, ?_, ?_, ?_, ?_, ?_, ?_⟩
  · rw [hretired]
    omega
  · rw [hretired]
    exact hcells
  · rw [hretired]
    intro i j hi his hj hjs hc
    exact List.inj_on_of_nodup_map h.nodup (List.mem_range'_1.2 ⟨hi, by omega⟩)
      (List.mem_range'_1.2 ⟨hj, by omega⟩) hc
  · intro k hk sp hsp
    have hs : (sifted b parent).spilled = parent.spilled :=
      txnDplSift_spilled b (dropRefunded parent) _ 0
    exact h.spilled x (hsub x hx) k hk sp (hs.symm.trans hsp)
  · intro k hk
    rw [show (sifted b parent).repnl = parent.repnl from
      txnDplSift_repnl b (dropRefunded parent) _ 0]
    apply h.repnl
    rw [← hcells k hk]
    exact List.mem_map.2 ⟨_, List.mem_range'_1.2 ⟨by omega, by omega⟩, rfl⟩
  · rw [hretired, h.list]
    exact Or.inl (retireSpans_length before _ h.length)

-- the three parts hold where the span is one page or the coincidence helps
theorem spanReclaimed_of {b : Build} {parent nested : Txn} {base before : Nat}
    {headers : Nat → Header} {x : Item} (h : SpanAt base (sifted b parent) before x)
    (hok : x.npages = 1 ∨ Coincidence b base (sifted b parent) before x) :
    SpanReclaimed b parent nested base headers before x.pgno x.npages := by
  have hpos := h.pos
  have hfits := h.fits
  rw [sifted_retired] at hfits
  have hrest : parent.retired.size - base =
      before + x.npages + (parent.retired.size - base - before - x.npages) := by omega
  obtain ⟨hretired, hrepnl, hw⟩ := h.dirty (b := b)
  have hin : ∀ k, k < x.npages →
      x.pgno + k ∈ (rounds b base (sifted b parent) (before + x.npages)).1.repnl.list := by
    intro k hk
    rw [hrepnl, mem_insertSpan]
    right
    by_cases hco : Coincidence b base (sifted b parent) before x
    · rw [h.taken_eq.1 hco]
      have := hco.1
      simp only
      omega
    · rw [h.taken_eq.2 hco]
      have := hok.resolve_right hco
      simp only
      omega
  have hout : ∀ k, k < x.npages →
      x.pgno + k ∉ keptPages (rounds b base (sifted b parent) (before + x.npages)) := by
    intro k hk
    by_cases hco : Coincidence b base (sifted b parent) before x
    · exact h.out_of_coincidence hco
    · have hone := hok.resolve_right hco
      rw [show k = 0 by omega]
      exact h.out_of_single hone
  constructor
  · intro k hk
    rw [nestedMerge_repnl]
    unfold roundsDone
    rw [hrest]
    exact repnl_rounds b base h.sorted (hin k hk) _
  · intro k hk
    rw [nestedMerge_retired]
    show _ ∉ keptPages (roundsDone b base parent)
    unfold roundsDone
    rw [hrest]
    apply h.notKept hk (hout k hk)
    rw [sifted_retired]
    omega
  · intro q hq hgone
    obtain ⟨i, hi, his, hc⟩ := mem_keptPages.1 hq
    by_cases hco : Coincidence b base (sifted b parent) before x
    · have hlook := h.lookBack (b := b) (by have := hco.1; omega)
      have hlast := hco.2.2.1
      rw [show i = (rounds b base (sifted b parent) (before + x.npages - 1)).2 by omega,
        hlook.2.1] at hc
      have := hco.1
      omega
    · rw [h.taken_eq.2 hco] at hw
      refine absurd (mem_keptPages.2 ⟨i, hi, ?_, ?_⟩) hgone
      · simp only at hw
        omega
      · rw [hretired]
        exact hc

/-- A retired span that is an item of the parent's dirty list is reclaimed whole just where it has
one page, or where the loop takes the length of the list for its second page. -/
theorem spanReclaimed_iff (b : Build) (parent nested : Txn) (headers : Nat → Header) (before : Pnl)
    (pre post : List (Nat × Nat)) (pgno npages : Nat) (hm : Mergeable parent nested)
    (h : Retiring parent before (pre ++ (pgno, npages) :: post))
    (hfound : ∃ x ∈ (sifted b parent).dirtylist.list, x.pgno = pgno ∧ x.npages = npages) :
    SpanReclaimed b parent nested before.size headers (spanWords pre) pgno npages ↔
      npages = 1 ∨ (npages = 2 ∧ before.size = 0 ∧ parent.retired.size = pgno + 1 ∧
        (rounds b 0 (sifted b parent) (spanWords pre + 1)).2 = 1) := by
  obtain ⟨x, hx, hp, hn⟩ := hfound
  subst hp hn
  have hspan := h.spanAt hm hx
  have hcond : Coincidence b before.size (sifted b parent) (spanWords pre) x ↔
      (x.npages = 2 ∧ before.size = 0 ∧ parent.retired.size = x.pgno + 1 ∧
        (rounds b 0 (sifted b parent) (spanWords pre + 1)).2 = 1) := by
    unfold Coincidence
    rw [sifted_retired]
    constructor
    · intro hc
      obtain ⟨htwo, hzero, hlast, hsize⟩ := hc
      rw [hzero, htwo] at hlast
      exact ⟨htwo, hzero, hsize, hlast⟩
    · intro hc
      obtain ⟨htwo, hzero, hsize, hlast⟩ := hc
      rw [hzero, htwo]
      exact ⟨rfl, rfl, hlast, hsize⟩
  rw [← hcond]
  constructor
  · intro hr
    by_contra hno
    have hpos := hspan.pos
    have hlarge : 2 ≤ x.npages := by omega
    have hsecond := hr.repnl 1 (by omega)
    rw [nestedMerge_repnl] at hsecond
    have hfits := hspan.fits
    refine hspan.second_lost hlarge (fun hc => hno (Or.inr hc)) _ ?_ hsecond
    rw [sifted_retired] at hfits ⊢
    omega
  · exact fun hok => spanReclaimed_of hspan hok

/-- The items of the parent are a large page and another page; both are retired. -/
def largeParent : Txn :=
  { sampleTxn [⟨20, 2, 0⟩, ⟨30, 1, 1⟩] 2 10 80 [] [] none with
    retired := retireSpans ⟨fun _ => 0, 0⟩ [(20, 2), (30, 1)] }

theorem large_mergeable : Mergeable largeParent emptyNested where
  parentItems := ⟨by decide, by decide, by decide, ⟨by decide, by decide⟩⟩
  nestedItems := ⟨by decide, by decide, by decide, ⟨by decide, by decide⟩⟩
  room := rfl
  repnl := descending_ofList (by decide)
  spilled := by
    intro sp hsp
    cases hsp

theorem large_retiring : Retiring largeParent ⟨fun _ => 0, 0⟩ [(20, 2), (30, 1)] where
  list := rfl
  length := rfl
  nodup := by decide
  repnl := fun q _ => List.not_mem_nil
  spilled := by
    intro x _ k _ sp hsp
    cases hsp

-- the single page, for which the loop is right
theorem spanReclaimed_iff_single :
    SpanReclaimed ⟨false, true⟩ largeParent emptyNested 0 sampleHeaders 2 30 1 :=
  (spanReclaimed_iff ⟨false, true⟩ largeParent emptyNested sampleHeaders ⟨fun _ => 0, 0⟩ [(20, 2)]
    [] 30 1 large_mergeable large_retiring ⟨⟨30, 1, 1⟩, by decide, rfl, rfl⟩).2 (Or.inl rfl)

/-- Of the large page 20–21 only the first page is reclaimed; 21 stays in the retired list. -/
theorem large_page_left_behind :
    Mergeable largeParent emptyNested ∧
      Retiring largeParent ⟨fun _ => 0, 0⟩ [(20, 2), (30, 1)] ∧
      (∃ x ∈ (sifted ⟨false, true⟩ largeParent).dirtylist.list, x.pgno = 20 ∧ x.npages = 2) ∧
      (nestedMerge ⟨false, true⟩ largeParent emptyNested 0 sampleHeaders).1.repnl.list = [30, 20] ∧
      (nestedMerge ⟨false, true⟩ largeParent emptyNested 0 sampleHeaders).1.retired.list = [21] ∧
      ¬ SpanReclaimed ⟨false, true⟩ largeParent emptyNested 0 sampleHeaders 0 20 2 := by
  have hrepnl : (nestedMerge ⟨false, true⟩ largeParent emptyNested 0 sampleHeaders).1.repnl.list =
      [30, 20] := by decide
  refine ⟨large_mergeable, large_retiring, ⟨⟨20, 2, 0⟩, by decide, rfl, rfl⟩, hrepnl, by decide,
    fun h => ?_⟩
  have hin := h.repnl 1 (by decide)
  rw [hrepnl] at hin
  exact absurd hin (by decide)

end Mdbx.Nested
