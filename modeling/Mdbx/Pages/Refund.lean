import Mdbx.Lib.Tiling
import Mdbx.Pages.Alloc

/-!
# Pages.Refund — the partition of the pages, and `txn_refund`

Every page number up to the boundary is in one place: in use, retired, in `repnl`, in the loose list,
or among the pages `own` that a step has in hand.  `txn_refund` lowers the boundary over pages of
`repnl` and of the loose list only.
-/

namespace Mdbx.Pages

/-! ## 1. The invariant -/

def usedPages (l : List Span) : List Nat := l.flatMap Span.pages

/-- The pages of a transaction and those in hand. -/
def Txn.pages (t : Txn) (own : List Nat) : List Nat :=
  usedPages t.used ++ (own ++ (t.retired ++ (t.repnl ++ t.loose)))

/-- Neither spilled nor an own page of a parent. -/
def Unlisted (t : Txn) (pgno : Nat) : Prop :=
  pgno ∉ t.spilled ∧ ∀ par ∈ t.parents, pgno ∉ par.dirty ∧ pgno ∉ par.spilled

structure Inv (t : Txn) (own : List Nat) : Prop where
  tiles : Tiles numMetas t.firstUnallocated (t.pages own)
  low : numMetas ≤ t.firstUnallocated
  desc : t.repnl.Pairwise fun p q => q ≤ p
  -- the items of loose pages, and those of pages in use
  flagged : ∀ x ∈ t.dirty, x.loose = true → x.pgno ∈ t.loose
  owned : ∀ x ∈ t.dirty, x.loose = false →
    ∃ s ∈ t.used, s.pgno = x.pgno ∧ s.txnid = t.frontTxnid
  distinct : (t.dirty.map Item.pgno).Nodup
  counted : t.looseCount = t.loose.length
  spans : ∀ s ∈ t.used, 0 < s.npages
  clean : ∀ s ∈ t.used, s.txnid < t.txnid → Unlisted t s.pgno
  front : t.txnid ≤ t.frontTxnid

/-- What no step on the page sets changes. -/
def Txn.fixed (t : Txn) : Nat × Nat × List Parent :=
  (t.txnid, t.frontTxnid, t.parents)

/-- The state of the GC. -/
def Txn.garbage (t : Txn) : List Record × List Nat × List Nat :=
  (t.gc, t.reclaimed, t.comeback)

/-- Nothing leaves the retired pages, and a frozen page goes there or stays in use. -/
structure Kept (t t' : Txn) : Prop where
  fixed : t'.fixed = t.fixed
  retired : ∀ p ∈ t.retired, p ∈ t'.retired
  frozen : ∀ s ∈ t.used, s.txnid < t.txnid → s ∈ t'.used ∨ ∀ p ∈ s.pages, p ∈ t'.retired

/-- A step that does not touch the GC either. -/
structure Moved (t t' : Txn) : Prop extends Kept t t' where
  garbage : t'.garbage = t.garbage

variable {t t' t'' : Txn} {own own' : List Nat}

theorem Kept.refl (t : Txn) : Kept t t :=
  ⟨rfl, fun _ hp => hp, fun _ hs _ => .inl hs⟩

theorem Kept.txnid (h : Kept t t') : t'.txnid = t.txnid := congrArg (fun f => f.1) h.fixed

theorem Kept.trans (h : Kept t t') (h' : Kept t' t'') : Kept t t'' where
  fixed := h'.fixed.trans h.fixed
  retired := fun p hp => h'.retired p (h.retired p hp)
  frozen := by
    intro s hs hfrozen
    rcases h.frozen s hs hfrozen with hused | hretired
    · exact h'.frozen s hused (h.txnid ▸ hfrozen)
    · exact .inr fun p hp => h'.retired p (hretired p hp)

theorem Moved.refl (t : Txn) : Moved t t := ⟨Kept.refl t, rfl⟩

theorem Moved.trans (h : Moved t t') (h' : Moved t' t'') : Moved t t'' :=
  ⟨h.toKept.trans h'.toKept, h'.garbage.trans h.garbage⟩

/-- A step that leaves `used` and `retired` as they are. -/
theorem Moved.of_eq (hfixed : t'.fixed = t.fixed) (hgarbage : t'.garbage = t.garbage)
    (hused : t'.used = t.used) (hretired : t'.retired = t.retired) : Moved t t' where
  fixed := hfixed
  retired := fun p hp => by rw [hretired]; exact hp
  frozen := fun s hs _ => .inl (by rw [hused]; exact hs)
  garbage := hgarbage

/-! ## 2. What the partition says -/

theorem Inv.sum (h : Inv t own) (p : Nat) :
    (usedPages t.used).count p + (own.count p +
      (t.retired.count p + (t.repnl.count p + t.loose.count p))) =
        if numMetas ≤ p ∧ p < t.firstUnallocated then 1 else 0 := by
  have hp := h.tiles p
  simpa only [Txn.pages, List.count_append] using hp

theorem Inv.sum_le_one (h : Inv t own) (p : Nat) :
    (usedPages t.used).count p + (own.count p +
      (t.retired.count p + (t.repnl.count p + t.loose.count p))) ≤ 1 := by
  rw [h.sum p]
  split <;> decide

theorem Inv.loose_bounds (h : Inv t own) {p : Nat} (hp : p ∈ t.loose) :
    numMetas ≤ p ∧ p < t.firstUnallocated := by
  have hsum := h.sum p
  have hpos := List.count_pos_iff.mpr hp
  split at hsum
  · assumption
  · omega

theorem mem_pages {s : Span} {p : Nat} : p ∈ s.pages ↔ s.pgno ≤ p ∧ p < s.pgno + s.npages := by
  unfold Span.pages
  rw [List.mem_range'_1]

theorem count_pages (s : Span) (p : Nat) :
    s.pages.count p = if s.pgno ≤ p ∧ p < s.pgno + s.npages then 1 else 0 :=
  count_interval s.pgno s.npages p

theorem usedPages_erase {l : List Span} {s : Span} (hs : s ∈ l) (p : Nat) :
    (usedPages l).count p = s.pages.count p + (usedPages (l.erase s)).count p := by
  have hperm : (usedPages l).Perm (usedPages (s :: l.erase s)) :=
    (List.perm_cons_erase hs).flatMap_right Span.pages
  rw [hperm.count_eq]
  exact List.count_append

theorem Inv.head_mem (h : Inv t own) {s : Span} (hs : s ∈ t.used) : s.pgno ∈ s.pages :=
  mem_pages.mpr ⟨Nat.le_refl _, Nat.lt_add_of_pos_right (h.spans s hs)⟩

theorem mem_usedPages {l : List Span} {s : Span} {p : Nat} (hs : s ∈ l) (hp : p ∈ s.pages) :
    0 < (usedPages l).count p :=
  List.count_pos_iff.mpr (List.mem_flatMap.mpr ⟨s, hs, hp⟩)

/-- A page in use is in no list. -/
theorem Inv.elsewhere (h : Inv t own) {s : Span} (hs : s ∈ t.used) {p : Nat} (hp : p ∈ s.pages) :
    p ∉ own ∧ p ∉ t.retired ∧ p ∉ t.repnl ∧ p ∉ t.loose := by
  have hsum := h.sum_le_one p
  have hpos := mem_usedPages hs hp
  simp only [← List.count_pos_iff]
  omega

theorem Inv.span_eq (h : Inv t own) {s s' : Span} (hs : s ∈ t.used) (hs' : s' ∈ t.used)
    (heq : s.pgno = s'.pgno) : s = s' := by
  by_contra hne
  have hsum := h.sum_le_one s.pgno
  have herase := usedPages_erase hs s.pgno
  have hcount := List.count_pos_iff.mpr (h.head_mem hs)
  have hleft : s' ∈ t.used.erase s := (List.mem_erase_of_ne (Ne.symm hne)).mpr hs'
  have hpos := mem_usedPages hleft (h.head_mem hs')
  rw [← heq] at hpos
  omega

/-- The dirty item of a page in use is its own, and then it is a page of this transaction. -/
theorem Inv.item_of_used (h : Inv t own) {s : Span} (hs : s ∈ t.used) {x : Item}
    (hx : x ∈ t.dirty) (heq : x.pgno = s.pgno) : x.loose = false ∧ s.txnid = t.frontTxnid := by
  cases hloose : x.loose with
  | true =>
      have hmem := h.flagged x hx hloose
      rw [heq] at hmem
      exact absurd hmem (h.elsewhere hs (h.head_mem hs)).2.2.2
  | false =>
      obtain ⟨s', hs', hpgno, hfront⟩ := h.owned x hx hloose
      have hsame := h.span_eq hs' hs (hpgno.trans heq)
      exact ⟨rfl, hsame ▸ hfront⟩

/-- Fields that the invariant does not speak of. -/
theorem Inv.same (h : Inv t own) (hfixed : t'.fixed = t.fixed)
    (hfirst : t'.firstUnallocated = t.firstUnallocated) (hpages : t'.pages own = t.pages own)
    (hlists : (t'.used, t'.repnl, t'.loose, t'.looseCount, t'.dirty, t'.spilled) =
      (t.used, t.repnl, t.loose, t.looseCount, t.dirty, t.spilled)) : Inv t' own := by
  simp only [Txn.fixed, Prod.mk.injEq] at hfixed hlists
  obtain ⟨htxnid, hfront, hparents⟩ := hfixed
  obtain ⟨hused, hrepnl, hloose, hcount, hdirty, hspilled⟩ := hlists
  constructor
  · rw [hfirst, hpages]
    exact h.tiles
  · rw [hfirst]
    exact h.low
  · rw [hrepnl]
    exact h.desc
  · rw [hdirty, hloose]
    exact h.flagged
  · rw [hdirty, hused, hfront]
    exact h.owned
  · rw [hdirty]
    exact h.distinct
  · rw [hcount, hloose]
    exact h.counted
  · rw [hused]
    exact h.spans
  · unfold Unlisted
    rw [hused, htxnid, hspilled, hparents]
    exact h.clean
  · rw [htxnid, hfront]
    exact h.front

theorem Inv.own_congr (h : Inv t own) (hc : ∀ p, own'.count p = own.count p) : Inv t own' :=
  { h with
    tiles := h.tiles.congr fun p => by
      simp only [Txn.pages, List.count_append]
      rw [hc p] }

theorem Inv.need (h : Inv t own) : Inv (need t).2 own := by
  unfold Pages.need
  split
  · exact h
  · exact h.same rfl rfl rfl rfl

theorem Moved.need (t : Txn) : Moved t (need t).2 := by
  unfold Pages.need
  split
  · exact Moved.refl t
  · exact Moved.of_eq rfl rfl rfl rfl

theorem txnDplSort_dirty (t : Txn) : (txnDplSort t).dirty.Perm t.dirty := by
  unfold txnDplSort
  split
  · exact .refl _
  · exact List.perm_insertionSort _ _

theorem Inv.permDirty (h : Inv t own) {dirty : List Item} {sorted : Nat}
    (hperm : dirty.Perm t.dirty) : Inv { t with dirty := dirty, sorted := sorted } own :=
  { h with
    tiles := h.tiles
    flagged := fun x hx => h.flagged x (hperm.mem_iff.mp hx)
    owned := fun x hx => h.owned x (hperm.mem_iff.mp hx)
    distinct := (hperm.map Item.pgno).nodup_iff.mpr h.distinct
    clean := h.clean }

theorem Inv.txnDplSort (h : Inv t own) : Inv (txnDplSort t) own := by
  unfold Pages.txnDplSort
  split
  · exact h
  · exact h.permDirty (List.perm_insertionSort _ _)

theorem Moved.txnDplSort (t : Txn) : Moved t (txnDplSort t) := by
  unfold Pages.txnDplSort
  split
  · exact Moved.refl t
  · exact Moved.of_eq rfl rfl rfl rfl

theorem Inv.txnDplSearch (h : Inv t own) : Inv (txnDplSearch t) own := by
  unfold Pages.txnDplSearch
  split
  · exact h
  · exact h.txnDplSort

theorem Moved.txnDplSearch (t : Txn) : Moved t (txnDplSearch t) := by
  unfold Pages.txnDplSearch
  split
  · exact Moved.refl t
  · exact Moved.txnDplSort t

/-! ## 3. Pages of `repnl` at the tail -/

theorem dropTail_spec (first : Nat) (l : List Nat) :
    (dropTail first l).1 ≤ first ∧ (dropTail first l).2.IsSuffix l ∧
      ∀ p, l.count p = (dropTail first l).2.count p +
        if (dropTail first l).1 ≤ p ∧ p < first then 1 else 0 := by
  induction l generalizing first with
  | nil =>
      refine ⟨Nat.le_refl _, List.suffix_refl _, fun p => ?_⟩
      change List.count p [] = List.count p [] + if first ≤ p ∧ p < first then 1 else 0
      rw [if_neg (by omega), Nat.add_zero]
  | cons q l ih =>
      by_cases hq : q + 1 = first
      · obtain ⟨hle, hsuffix, hcount⟩ := ih q
        simp only [dropTail, if_pos hq]
        refine ⟨by omega, hsuffix.trans (List.suffix_cons q l), fun p => ?_⟩
        rw [List.count_cons, hcount p]
        simp only [beq_iff_eq]
        split <;> split <;> split <;> omega
      · simp only [dropTail, if_neg hq]
        refine ⟨Nat.le_refl _, List.suffix_refl _, fun p => ?_⟩
        rw [if_neg (by omega), Nat.add_zero]

theorem Inv.refundReclaimed (h : Inv t own) : Inv (refundReclaimed t) own := by
  obtain ⟨hle, hsuffix, hcount⟩ := dropTail_spec t.firstUnallocated t.repnl
  have hall : ∀ p, (t.pages own).count p = ((Pages.refundReclaimed t).pages own).count p +
      if (dropTail t.firstUnallocated t.repnl).1 ≤ p ∧ p < t.firstUnallocated then 1 else 0 := by
    intro p
    simp only [Pages.refundReclaimed, Txn.pages, List.count_append]
    rw [hcount p]
    omega
  exact { h with
    tiles := h.tiles.lower hall hle
    low := h.tiles.le_of_lower hall h.low hle
    desc := h.desc.sublist hsuffix.sublist
    clean := h.clean }

theorem Moved.refundReclaimed (t : Txn) : Moved t (refundReclaimed t) :=
  Moved.of_eq rfl rfl rfl rfl

/-! ## 4. Loose pages at the tail -/

/-- The boundary goes down to `least` over loose pages, which leave the list and the dirty list. -/
theorem Inv.lowerLoose (h : Inv t own) {least : Nat} (hle : least ≤ t.firstUnallocated)
    (hcover : ∀ p, least ≤ p → p < t.firstUnallocated → p ∈ t.loose) {dirty : List Item}
    (hsub : dirty.Sublist t.dirty) (hcut : ∀ x ∈ dirty, x.loose = true → x.pgno < least)
    {sorted pagesIncludingLoose dirtyroom : Nat} :
    Inv { t with
      firstUnallocated := least
      looseCount := t.looseCount - (t.firstUnallocated - least)
      dirtyroom := dirtyroom
      pagesIncludingLoose := pagesIncludingLoose
      sorted := sorted
      dirty := dirty
      loose := t.loose.filter fun p => p < least } own := by
  have hcount : ∀ p, t.loose.count p = (t.loose.filter fun q => q < least).count p +
      if least ≤ p ∧ p < t.firstUnallocated then 1 else 0 := by
    intro p
    have hsum := h.sum_le_one p
    rw [count_filter_lt]
    by_cases hin : least ≤ p ∧ p < t.firstUnallocated
    · have hpos := List.count_pos_iff.mpr (hcover p hin.1 hin.2)
      rw [if_pos hin, if_neg (by omega)]
      omega
    · rw [if_neg hin]
      by_cases hp : p < least
      · rw [if_pos hp, Nat.add_zero]
      · rw [if_neg hp, Nat.add_zero, List.count_eq_zero]
        exact fun hmem => hin ⟨Nat.le_of_not_lt hp, (h.loose_bounds hmem).2⟩
  have hlength : t.loose.length =
      (t.loose.filter fun q => q < least).length + (t.firstUnallocated - least) := by
    have hperm : t.loose.Perm ((t.loose.filter fun q => q < least) ++
        List.range' least (t.firstUnallocated - least)) := by
      refine List.perm_iff_count.mpr fun p => ?_
      rw [hcount p, List.count_append, count_interval, Nat.add_sub_cancel' hle]
    rw [hperm.length_eq, List.length_append, List.length_range']
  have hall : ∀ p, (t.pages own).count p =
      (usedPages t.used ++ (own ++ (t.retired ++ (t.repnl ++
        t.loose.filter fun q => q < least)))).count p +
        if least ≤ p ∧ p < t.firstUnallocated then 1 else 0 := by
    intro p
    simp only [Txn.pages, List.count_append]
    rw [hcount p]
    omega
  exact { h with
    tiles := h.tiles.lower hall hle
    low := h.tiles.le_of_lower hall h.low hle
    flagged := by
      intro x hx hloose
      have hmem := h.flagged x (hsub.subset hx) hloose
      exact List.mem_filter.mpr ⟨hmem, by simpa using hcut x hx hloose⟩
    owned := fun x hx => h.owned x (hsub.subset hx)
    distinct := h.distinct.sublist (hsub.map Item.pgno)
    counted := by
      show t.looseCount - _ = _
      rw [h.counted, hlength, Nat.add_sub_cancel]
    clean := h.clean }

theorem lowerMost_spec (most : Nat) (l : List Nat) :
    lowerMost most l ≤ most ∧ ∀ p, lowerMost most l ≤ p → p < most → p ∈ l := by
  induction l generalizing most with
  | nil => exact ⟨Nat.le_refl _, fun p hlo hhi => absurd hhi (Nat.not_lt.mpr hlo)⟩
  | cons q l ih =>
      by_cases hq : q + 1 = most
      · obtain ⟨hle, hmem⟩ := ih q
        simp only [lowerMost, if_pos hq]
        refine ⟨by omega, fun p hlo hhi => ?_⟩
        by_cases hp : p = q
        · exact hp ▸ List.mem_cons_self
        · exact List.mem_cons_of_mem q (hmem p hlo (by omega))
      · simp only [lowerMost, if_neg hq]
        exact ⟨Nat.le_refl _, fun p hlo hhi => absurd hhi (Nat.not_lt.mpr hlo)⟩

theorem foldr_max_mem (b : Nat) (l : List Nat) : l.foldr max b = b ∨ l.foldr max b ∈ l := by
  induction l with
  | nil => exact .inl rfl
  | cons q l ih =>
      simp only [List.foldr_cons]
      rcases Nat.le_total q (l.foldr max b) with hle | hle
      · rw [Nat.max_eq_right hle]
        exact ih.imp id (List.mem_cons_of_mem q)
      · rw [Nat.max_eq_left hle]
        exact .inr List.mem_cons_self

/-- The last page before the boundary is loose when it is the greatest suitable one. -/
theorem Inv.most_mem (h : Inv t own) (hne : t.loose ≠ [])
    (hmost : (t.loose.filter fun p => t.firstUnallocated - t.looseCount ≤ p).foldr max numMetas + 1 =
      t.firstUnallocated) :
    (t.loose.filter fun p => t.firstUnallocated - t.looseCount ≤ p).foldr max numMetas ∈ t.loose := by
  rcases foldr_max_mem numMetas
    (t.loose.filter fun p => t.firstUnallocated - t.looseCount ≤ p) with heq | hmem
  · rw [heq] at hmost ⊢
    obtain ⟨q, hq⟩ := List.exists_mem_of_ne_nil _ hne
    have hbounds := h.loose_bounds hq
    have hq3 : q = numMetas := by omega
    exact hq3 ▸ hq
  · exact (List.mem_filter.mp hmem).1

theorem Inv.refundSuitable (h : Inv t own) (hne : t.loose ≠ []) : Inv (refundSuitable t) own := by
  unfold Pages.refundSuitable
  by_cases hmost : (t.loose.filter fun p => t.firstUnallocated - t.looseCount ≤ p).foldr max
      numMetas + 1 = t.firstUnallocated
  · simp only [if_pos hmost]
    obtain ⟨hle, hrun⟩ := lowerMost_spec
      ((t.loose.filter fun p => t.firstUnallocated - t.looseCount ≤ p).foldr max numMetas)
      (pnlSort (t.loose.filter fun p => t.firstUnallocated - t.looseCount ≤ p)).tail
    have hleast := Nat.le_trans hle (Nat.le_of_succ_le (Nat.le_of_eq hmost))
    refine h.lowerLoose hleast ?_ List.filter_sublist ?_
    · intro p hlo hhi
      by_cases hp : p + 1 = t.firstUnallocated
      · have hlast := h.most_mem hne hmost
        have heq := Nat.succ.inj (hp.trans hmost.symm)
        exact heq ▸ hlast
      · have hmem := List.mem_of_mem_tail (hrun p hlo (by omega))
        have hsuit := (List.perm_insertionSort _ _).mem_iff.mp hmem
        exact (List.mem_filter.mp hsuit).1
    · intro x hx _
      simpa using (List.mem_filter.mp hx).2
  · simp only [if_neg hmost]
    exact h

/-- What `cutLoose` takes from the end of the dirty list. -/
theorem cutLoose_spec (first : Nat) (l : List Item) : ∃ cut, l = cut ++ (cutLoose first l).2 ∧
    (cutLoose first l).1 + cut.length = first ∧
    (∀ x ∈ cut, (cutLoose first l).1 ≤ x.pgno) ∧
    ∀ p, (cutLoose first l).1 ≤ p → p < first → ∃ x ∈ cut, x.loose = true ∧ x.pgno = p := by
  induction l generalizing first with
  | nil => exact ⟨[], rfl, rfl, by simp, fun p hlo hhi => absurd hhi (Nat.not_lt.mpr hlo)⟩
  | cons y l ih =>
      by_cases hy : y.pgno + 1 = first ∧ y.loose = true
      · obtain ⟨cut, hl, hlen, habove, hcover⟩ := ih (first - 1)
        simp only [cutLoose, if_pos hy]
        refine ⟨y :: cut, by rw [List.cons_append, ← hl], ?_, ?_, fun p hlo hhi => ?_⟩
        · rw [List.length_cons]
          omega
        · intro x hx
          rcases List.mem_cons.mp hx with rfl | hx
          · omega
          · exact habove x hx
        · by_cases hp : p = y.pgno
          · exact ⟨y, List.mem_cons_self, hy.2, hp.symm⟩
          · obtain ⟨x, hx, hflag⟩ := hcover p hlo (by omega)
            exact ⟨x, List.mem_cons_of_mem y hx, hflag⟩
      · simp only [cutLoose, if_neg hy]
        exact ⟨[], rfl, rfl, by simp, fun p hlo hhi => absurd hhi (Nat.not_lt.mpr hlo)⟩

theorem Inv.refundSorted (h : Inv t own) : Inv (refundSorted t) own := by
  have hs := h.txnDplSort
  unfold Pages.refundSorted
  generalize Pages.txnDplSort t = t at hs
  dsimp only
  obtain ⟨cut, hl, hlen, habove, hcover⟩ := cutLoose_spec t.firstUnallocated t.dirty.reverse
  split
  · exact hs
  · have hdirty : t.dirty = (cutLoose t.firstUnallocated t.dirty.reverse).2.reverse ++
        cut.reverse := by
      rw [← List.reverse_append, ← hl, List.reverse_reverse]
    have hrefunded : t.dirty.length - (cutLoose t.firstUnallocated t.dirty.reverse).2.length =
        t.firstUnallocated - (cutLoose t.firstUnallocated t.dirty.reverse).1 := by
      have hlength := congrArg List.length hl
      rw [List.length_reverse, List.length_append] at hlength
      omega
    rw [hrefunded]
    have hleast := Nat.le.intro hlen
    refine hs.lowerLoose hleast ?_ ?_ ?_
    · intro p hlo hhi
      obtain ⟨x, hx, hflag, hp⟩ := hcover p hlo hhi
      have hmem : x ∈ t.dirty := by
        rw [hdirty]
        exact List.mem_append_right _ (List.mem_reverse.mpr hx)
      exact hp ▸ hs.flagged x hmem hflag
    · conv_rhs => rw [hdirty]
      exact List.sublist_append_left _ _
    · intro x hx hflag
      -- an item at or above the new boundary has the page number of one that is cut off
      by_contra hnot
      have hmem : x ∈ t.dirty := by
        rw [hdirty]
        exact List.mem_append_left _ hx
      have hbound := (hs.loose_bounds (hs.flagged x hmem hflag)).2
      obtain ⟨y, hy, _, hpgno⟩ := hcover x.pgno (Nat.le_of_not_lt hnot) hbound
      have hdistinct := hs.distinct
      rw [hdirty, List.map_append, List.nodup_append] at hdistinct
      exact hdistinct.2.2 _ (List.mem_map_of_mem hx) _
        (List.mem_map_of_mem (List.mem_reverse.mpr hy)) hpgno.symm

theorem Moved.refundSuitable (t : Txn) : Moved t (refundSuitable t) := by
  unfold Pages.refundSuitable
  dsimp only
  split
  · exact Moved.of_eq rfl rfl rfl rfl
  · exact Moved.refl t

theorem Moved.refundSorted (t : Txn) : Moved t (refundSorted t) := by
  refine (Moved.txnDplSort t).trans ?_
  unfold Pages.refundSorted
  generalize Pages.txnDplSort t = t
  dsimp only
  split
  · exact Moved.refl t
  · exact Moved.of_eq rfl rfl rfl rfl

theorem suitableRoom_cases (t : Txn) :
    (suitableRoom t).2 = t ∨ (suitableRoom t).2 = (need t).2 := by
  unfold suitableRoom
  split
  · exact .inr rfl
  · exact .inl rfl

theorem need_loose (t : Txn) : (need t).2.loose = t.loose := by
  unfold need
  split <;> rfl

theorem Inv.refundLoose (h : Inv t own) (hne : t.loose ≠ []) : Inv (refundLoose t) own := by
  unfold Pages.refundLoose
  by_cases hunsorted : t.looseCount < t.dirty.length - t.sorted
  · simp only [if_pos hunsorted]
    have hroom : Inv (suitableRoom t).2 own ∧ (suitableRoom t).2.loose ≠ [] := by
      rcases suitableRoom_cases t with heq | heq
      · rw [heq]
        exact ⟨h, hne⟩
      · rw [heq, need_loose]
        exact ⟨h.need, hne⟩
    split
    · exact (hroom.1.refundSuitable hroom.2).same rfl rfl rfl rfl
    · exact hroom.1
  · simp only [if_neg hunsorted]
    exact h.refundSorted.same rfl rfl rfl rfl

theorem Moved.refundLoose (t : Txn) : Moved t (refundLoose t) := by
  unfold Pages.refundLoose
  by_cases hunsorted : t.looseCount < t.dirty.length - t.sorted
  · simp only [if_pos hunsorted]
    have hroom : Moved t (suitableRoom t).2 := by
      rcases suitableRoom_cases t with heq | heq
      · rw [heq]
        exact Moved.refl t
      · rw [heq]
        exact Moved.need t
    split
    · exact (hroom.trans (Moved.refundSuitable _)).trans (Moved.of_eq rfl rfl rfl rfl)
    · exact hroom
  · simp only [if_neg hunsorted]
    exact (Moved.refundSorted t).trans (Moved.of_eq rfl rfl rfl rfl)

/-! ## 5. `txn_refund` -/

theorem looseWaits_ne (h : looseWaits t = true) : t.loose ≠ [] := by
  unfold looseWaits at h
  exact (of_decide_eq_true h).1

theorem Inv.refundLoop (fuel : Nat) (h : Inv t own) : Inv (refundLoop fuel t) own := by
  induction fuel generalizing t with
  | zero => exact h
  | succ fuel ih =>
      unfold Pages.refundLoop
      dsimp only
      split
      · split
        next hwaits =>
          have hloose := h.refundReclaimed.refundLoose (looseWaits_ne hwaits)
          split
          · exact hloose
          · exact ih hloose
        next => exact h.refundReclaimed
      · exact h

theorem Moved.refundLoop (fuel : Nat) (t : Txn) : Moved t (refundLoop fuel t) := by
  induction fuel generalizing t with
  | zero => exact Moved.refl t
  | succ fuel ih =>
      have hreclaimed := Moved.refundReclaimed t
      have hloose := hreclaimed.trans (Moved.refundLoose _)
      unfold Pages.refundLoop
      dsimp only
      split
      · split
        · split
          · exact hloose
          · exact hloose.trans (ih _)
        · exact hreclaimed
      · exact Moved.refl t

theorem refundReclaimed_lt (h : atTail t = true) :
    (refundReclaimed t).firstUnallocated < t.firstUnallocated := by
  unfold atTail at h
  cases hrepnl : t.repnl with
  | nil => simp [hrepnl] at h
  | cons p l =>
      have hp : p + 1 = t.firstUnallocated := by simpa [hrepnl] using h
      obtain ⟨hle, _, _⟩ := dropTail_spec p l
      have hdrop : (refundReclaimed t).firstUnallocated = (dropTail p l).1 := by
        unfold refundReclaimed
        rw [hrepnl]
        simp only [dropTail, if_pos hp]
      omega

theorem refundLoose_le (t : Txn) : (refundLoose t).firstUnallocated ≤ t.firstUnallocated := by
  have hroom : (suitableRoom t).2.firstUnallocated = t.firstUnallocated := by
    unfold suitableRoom need
    dsimp only
    split
    · split <;> rfl
    · rfl
  have hsuitable : ∀ t : Txn, (refundSuitable t).firstUnallocated ≤ t.firstUnallocated := by
    intro t
    unfold refundSuitable
    dsimp only
    split
    next hmost =>
      have hle := (lowerMost_spec
        ((t.loose.filter fun p => t.firstUnallocated - t.looseCount ≤ p).foldr max numMetas)
        (pnlSort (t.loose.filter fun p => t.firstUnallocated - t.looseCount ≤ p)).tail).1
      exact Nat.le_trans hle (Nat.le_of_succ_le (Nat.le_of_eq hmost))
    next => exact Nat.le_refl _
  have hsorted : (refundSorted t).firstUnallocated ≤ t.firstUnallocated := by
    have hsort : (txnDplSort t).firstUnallocated = t.firstUnallocated := by
      unfold txnDplSort
      split <;> rfl
    unfold refundSorted
    dsimp only
    obtain ⟨cut, _, hlen, _⟩ := cutLoose_spec (txnDplSort t).firstUnallocated
      (txnDplSort t).dirty.reverse
    split
    · exact Nat.le_of_eq hsort
    · exact Nat.le_trans (Nat.le.intro hlen) (Nat.le_of_eq hsort)
  unfold refundLoose
  split
  · dsimp only
    split
    · exact Nat.le_trans (hsuitable _) (Nat.le_of_eq hroom)
    · exact Nat.le_of_eq hroom
  · exact hsorted

/-- The fuel of the loop is no bound: each turn lowers the boundary. -/
theorem refundLoop_fuel {fuel : Nat} (hfuel : t.firstUnallocated < fuel) :
    refundLoop (fuel + 1) t = refundLoop fuel t := by
  induction fuel generalizing t with
  | zero => exact absurd hfuel (Nat.not_lt_zero _)
  | succ fuel ih =>
      rw [refundLoop, refundLoop]
      dsimp only
      split
      next htail =>
        have hlt := refundReclaimed_lt htail
        have hle := refundLoose_le (refundReclaimed t)
        split
        · split
          · rfl
          · exact ih (by omega)
        · rfl
      next => rfl

theorem Inv.txnRefund (h : Inv t own) : Inv (txnRefund t) own := by
  unfold Pages.txnRefund
  dsimp only
  split
  next hwaits => exact (h.refundLoose (looseWaits_ne hwaits)).refundLoop _
  next => exact h.refundLoop _

theorem Moved.txnRefund (t : Txn) : Moved t (txnRefund t) := by
  unfold Pages.txnRefund
  dsimp only
  split
  · exact (Moved.refundLoose t).trans (Moved.refundLoop _ _)
  · exact Moved.refundLoop _ t

theorem Inv.refundAtTail (h : Inv t own) : Inv (refundAtTail t) own := by
  unfold Pages.refundAtTail
  split
  · exact h.txnRefund
  · exact h

theorem Moved.refundAtTail (t : Txn) : Moved t (refundAtTail t) := by
  unfold Pages.refundAtTail
  split
  · exact Moved.txnRefund t
  · exact Moved.refl t

end Mdbx.Pages
