import Mdbx.Pages.Retire

/-!
# Pages.Settle — what `txn_refund` leaves behind

The page before the boundary is then neither in `repnl` nor loose, as long as the loose pages could be
collected, and the boundary went down over the pages that were taken from the two lists.
-/

namespace Mdbx.Pages

variable {t t' t'' : Txn}

/-! ## 1. The lists of a transaction -/

/-- The lists are apart, and `loose_refund_wl` is beyond the page after each loose page. -/
structure Refundable (t : Txn) : Prop where
  desc : t.repnl.Pairwise fun p q => q < p
  below : ∀ p ∈ t.repnl, p < t.firstUnallocated
  chain : t.loose.Nodup
  metas : ∀ p ∈ t.loose, numMetas ≤ p
  counted : t.looseCount = t.loose.length
  watermark : ∀ p ∈ t.loose, p + 2 ≤ t.looseRefundWl
  allocated : ∀ x ∈ t.dirty, x.pgno < t.firstUnallocated
  distinct : (t.dirty.map Item.pgno).Nodup
  flagged : ∀ x ∈ t.dirty, (x.loose = true ↔ x.pgno ∈ t.loose)
  listed : ∀ p ∈ t.loose, p ∈ t.dirty.map Item.pgno
  apart : ∀ x ∈ t.dirty, x.pgno ∉ t.repnl
  prefixed : t.sorted ≤ t.dirty.length
  sorted : (t.dirty.take t.sorted).Pairwise fun x y => x.pgno < y.pgno

/-- Both lists have lost the pages from the new boundary on, and those are as many as the boundary went
down by. -/
structure Refunded (t t' : Txn) : Prop where
  boundary : t'.firstUnallocated ≤ t.firstUnallocated
  repnl : t'.repnl = t.repnl.filter fun p => p < t'.firstUnallocated
  loose : t'.loose = t.loose.filter fun p => p < t'.firstUnallocated
  dropped : t'.firstUnallocated + (t.repnl.length + t.loose.length) =
    t.firstUnallocated + (t'.repnl.length + t'.loose.length)
  room : t'.dirtyroom + t'.dirty.length = t.dirtyroom + t.dirty.length

theorem Refundable.loose_below (h : Refundable t) {p : Nat} (hp : p ∈ t.loose) : p < t.firstUnallocated := by
  obtain ⟨x, hx, hpgno⟩ := List.mem_map.mp (h.listed p hp)
  exact hpgno ▸ h.allocated x hx

theorem Refundable.loose_apart (h : Refundable t) {p : Nat} (hp : p ∈ t.loose) : p ∉ t.repnl := by
  obtain ⟨x, hx, hpgno⟩ := List.mem_map.mp (h.listed p hp)
  exact hpgno ▸ h.apart x hx

theorem filter_eq_self_of_lt {l : List Nat} {n : Nat} (h : ∀ p ∈ l, p < n) :
    (l.filter fun p => p < n) = l :=
  List.filter_eq_self.mpr fun p hp => decide_eq_true (h p hp)

theorem Refunded.refl (h : Refundable t) : Refunded t t where
  boundary := Nat.le_refl _
  repnl := (filter_eq_self_of_lt h.below).symm
  loose := (filter_eq_self_of_lt fun _ hp => h.loose_below hp).symm
  dropped := rfl
  room := rfl

theorem filter_lt_lt (l : List Nat) {m n : Nat} (h : n ≤ m) :
    ((l.filter fun p => p < m).filter fun p => p < n) = l.filter fun p => p < n := by
  rw [List.filter_filter]
  refine List.filter_congr fun p _ => ?_
  by_cases hp : p < n
  · rw [decide_eq_true hp, decide_eq_true (Nat.lt_of_lt_of_le hp h)]
    rfl
  · rw [decide_eq_false hp]
    rfl

theorem Refunded.trans (h : Refunded t t') (h' : Refunded t' t'') : Refunded t t'' where
  boundary := h'.boundary.trans h.boundary
  repnl := by rw [h'.repnl, h.repnl, filter_lt_lt _ h'.boundary]
  loose := by rw [h'.loose, h.loose, filter_lt_lt _ h'.boundary]
  dropped := by
    have hfirst := h.dropped
    have hsecond := h'.dropped
    omega
  room := h'.room.trans h.room

/-! ## 2. Pages of an interval -/

/-- The numbers of an interval at the end are as many as the filter takes out. -/
theorem length_filter_lt {l : List Nat} {lo hi : Nat} (hle : lo ≤ hi) (hnodup : l.Nodup)
    (hbelow : ∀ p ∈ l, p < hi) (hcover : ∀ p, lo ≤ p → p < hi → p ∈ l) :
    (l.filter fun p => p < lo).length + (hi - lo) = l.length := by
  have hperm : l.Perm ((l.filter fun p => p < lo) ++ List.range' lo (hi - lo)) := by
    refine List.perm_iff_count.mpr fun p => ?_
    rw [List.count_append, count_interval, Nat.add_sub_cancel' hle, count_filter_lt]
    by_cases hin : lo ≤ p ∧ p < hi
    · rw [if_pos hin, if_neg (by omega), hnodup.count, if_pos (hcover p hin.1 hin.2)]
    · rw [if_neg hin, Nat.add_zero]
      by_cases hp : p < lo
      · rw [if_pos hp]
      · rw [if_neg hp, List.count_eq_zero]
        exact fun hmem => hin ⟨Nat.le_of_not_lt hp, hbelow p hmem⟩
  rw [hperm.length_eq, List.length_append, List.length_range']

theorem length_filter_pgno (l : List Item) (n : Nat) :
    ((l.map Item.pgno).filter fun p => p < n).length = (l.filter fun x => x.pgno < n).length := by
  rw [List.filter_map, List.length_map]
  rfl

/-! ## 3. Pages of `repnl` -/

/-- What is dropped of a descending list are the numbers up to the boundary that follow one another. -/
theorem dropTail_desc {l : List Nat} (hdesc : l.Pairwise fun p q => q < p) {first : Nat}
    (hbelow : ∀ p ∈ l, p < first) :
    (∀ p ∈ (dropTail first l).2, p + 1 < (dropTail first l).1) ∧
    (dropTail first l).1 + l.length = first + (dropTail first l).2.length := by
  induction l generalizing first with
  | nil => exact ⟨nofun, rfl⟩
  | cons q l ih =>
      obtain ⟨hhead, htail⟩ := List.pairwise_cons.mp hdesc
      by_cases hq : q + 1 = first
      · obtain ⟨hstop, hlength⟩ := ih htail hhead
        simp only [dropTail, if_pos hq, List.length_cons]
        exact ⟨hstop, by omega⟩
      · simp only [dropTail, if_neg hq]
        have hlt := hbelow q List.mem_cons_self
        refine ⟨fun p hp => ?_, trivial⟩
        rcases List.mem_cons.mp hp with rfl | hp
        · omega
        · have hless := hhead p hp
          omega

theorem dropTail_eq_filter {l : List Nat} (hdesc : l.Pairwise fun p q => q < p) {first : Nat}
    (hbelow : ∀ p ∈ l, p < first) :
    (dropTail first l).2 = l.filter fun p => p < (dropTail first l).1 := by
  induction l generalizing first with
  | nil => rfl
  | cons q l ih =>
      obtain ⟨hhead, htail⟩ := List.pairwise_cons.mp hdesc
      by_cases hq : q + 1 = first
      · have hle := (dropTail_spec q l).1
        simp only [dropTail, if_pos hq]
        rw [List.filter_cons_of_neg (by simpa using hle)]
        exact ih htail hhead
      · simp only [dropTail, if_neg hq]
        exact (filter_eq_self_of_lt hbelow).symm

/-- `refund_reclaimed` leaves nothing of `repnl` at the boundary. -/
theorem refundReclaimed_ready (h : Refundable t) :
    Refundable (refundReclaimed t) ∧ Refunded t (refundReclaimed t) ∧
    ∀ p ∈ (refundReclaimed t).repnl, p + 1 < (refundReclaimed t).firstUnallocated := by
  obtain ⟨hle, hsuffix, hcount⟩ := dropTail_spec t.firstUnallocated t.repnl
  obtain ⟨hstop, hlength⟩ := dropTail_desc h.desc h.below
  have hfilter := dropTail_eq_filter h.desc h.below
  -- the pages that are given back were in `repnl`
  have hkeeps : ∀ p, p ∉ t.repnl → p < t.firstUnallocated →
      p < (dropTail t.firstUnallocated t.repnl).1 := by
    intro p hnot hp
    by_contra hge
    have hone := hcount p
    rw [if_pos ⟨Nat.le_of_not_lt hge, hp⟩, List.count_eq_zero.mpr hnot] at hone
    omega
  refine ⟨{ h with
      desc := h.desc.sublist hsuffix.sublist
      below := fun p hp => Nat.lt_of_succ_lt (hstop p hp)
      allocated := fun x hx => hkeeps x.pgno (h.apart x hx) (h.allocated x hx)
      apart := fun x hx hmem => h.apart x hx (hsuffix.subset hmem) }, ?_, hstop⟩
  constructor
  · exact hle
  · exact hfilter
  · exact (filter_eq_self_of_lt fun p hp =>
      hkeeps p (h.loose_apart hp) (h.loose_below hp)).symm
  · change (dropTail t.firstUnallocated t.repnl).1 + (t.repnl.length + t.loose.length) =
      t.firstUnallocated + ((dropTail t.firstUnallocated t.repnl).2.length + t.loose.length)
    omega
  · rfl

/-! ## 4. Loose pages -/

/-- The page before the boundary is not loose. -/
def Settled (t : Txn) : Prop := ∀ p ∈ t.loose, p + 1 < t.firstUnallocated

/-- The loose pages from `least` on are taken out, with their dirty items. -/
def takenLoose (t : Txn) (least sorted pagesIncludingLoose : Nat) : Txn :=
  { t with
    firstUnallocated := least
    looseCount := t.looseCount - (t.firstUnallocated - least)
    dirtyroom := t.dirtyroom + (t.firstUnallocated - least)
    pagesIncludingLoose := pagesIncludingLoose
    sorted := sorted
    dirty := t.dirty.filter fun x => x.pgno < least
    loose := t.loose.filter fun p => p < least
    looseRefundWl := least }

theorem takenLoose_ready (h : Refundable t) {least : Nat} (hle : least ≤ t.firstUnallocated)
    (hcover : ∀ p, least ≤ p → p < t.firstUnallocated → p ∈ t.loose)
    (hstop : ∀ p ∈ t.loose, p + 1 ≠ least) {sorted : Nat} (pagesIncludingLoose : Nat)
    (hprefixed : sorted ≤ (t.dirty.filter fun x => x.pgno < least).length)
    (hsorted : ((t.dirty.filter fun x => x.pgno < least).take sorted).Pairwise
      fun x y => x.pgno < y.pgno) :
    Refundable (takenLoose t least sorted pagesIncludingLoose) ∧
    Refunded t (takenLoose t least sorted pagesIncludingLoose) ∧
    Settled (takenLoose t least sorted pagesIncludingLoose) := by
  have hloose := length_filter_lt hle h.chain (fun _ hp => h.loose_below hp) hcover
  have hdirty := length_filter_lt hle h.distinct
    (fun p hp => by
      obtain ⟨x, hx, rfl⟩ := List.mem_map.mp hp
      exact h.allocated x hx)
    fun p hlo hhi => h.listed p (hcover p hlo hhi)
  rw [length_filter_pgno, List.length_map] at hdirty
  have hcounted := h.counted
  have hsettled : Settled (takenLoose t least sorted pagesIncludingLoose) := by
    intro p hp
    obtain ⟨hmem, hlt⟩ := List.mem_filter.mp hp
    have hne := hstop p hmem
    have hlt := of_decide_eq_true hlt
    change p + 1 < least
    omega
  -- a page of `repnl` is not among those that are taken out
  have hrepnl : ∀ p ∈ t.repnl, p < least := by
    intro p hp
    by_contra hge
    exact h.loose_apart (hcover p (Nat.le_of_not_lt hge) (h.below p hp)) hp
  refine ⟨?_, ?_, hsettled⟩
  · constructor
    · exact h.desc
    · exact hrepnl
    · exact h.chain.filter _
    · exact fun p hp => h.metas p (List.mem_filter.mp hp).1
    · change t.looseCount - (t.firstUnallocated - least) =
        (t.loose.filter fun p => p < least).length
      omega
    · intro p hp
      exact hsettled p hp
    · exact fun x hx => of_decide_eq_true (List.mem_filter.mp hx).2
    · exact h.distinct.sublist (List.filter_sublist.map Item.pgno)
    · intro x hx
      obtain ⟨hmem, hlt⟩ := List.mem_filter.mp hx
      rw [h.flagged x hmem]
      change x.pgno ∈ t.loose ↔ x.pgno ∈ t.loose.filter fun p => p < least
      rw [List.mem_filter]
      exact ⟨fun hin => ⟨hin, hlt⟩, And.left⟩
    · intro p hp
      obtain ⟨hmem, hlt⟩ := List.mem_filter.mp hp
      obtain ⟨x, hx, rfl⟩ := List.mem_map.mp (h.listed p hmem)
      exact List.mem_map_of_mem (List.mem_filter.mpr ⟨hx, hlt⟩)
    · exact fun x hx => h.apart x (List.mem_filter.mp hx).1
    · exact hprefixed
    · exact hsorted
  · constructor
    · exact hle
    · exact (filter_eq_self_of_lt hrepnl).symm
    · rfl
    · change least + (t.repnl.length + t.loose.length) =
        t.firstUnallocated + (t.repnl.length + (t.loose.filter fun p => p < least).length)
      omega
    · change t.dirtyroom + (t.firstUnallocated - least) +
        (t.dirty.filter fun x => x.pgno < least).length = t.dirtyroom + t.dirty.length
      omega

/-- The scan down from the greatest suitable page stops before a page that is not suitable. -/
theorem lowerMost_stops {most : Nat} {l : List Nat} (hdesc : l.Pairwise fun p q => q < p)
    (hbelow : ∀ p ∈ l, p < most) : ∀ p ∈ l, p + 1 ≠ lowerMost most l := by
  induction l generalizing most with
  | nil => exact nofun
  | cons q l ih =>
      obtain ⟨hhead, htail⟩ := List.pairwise_cons.mp hdesc
      by_cases hq : q + 1 = most
      · have hle := (lowerMost_spec q l).1
        simp only [lowerMost, if_pos hq]
        intro p hp
        rcases List.mem_cons.mp hp with rfl | hp
        · omega
        · exact ih htail hhead p hp
      · simp only [lowerMost, if_neg hq]
        intro p hp
        rcases List.mem_cons.mp hp with rfl | hp
        · exact hq
        · have hless := hhead p hp
          have hlt := hbelow q List.mem_cons_self
          omega

theorem le_foldr_max {p : Nat} (b : Nat) {l : List Nat} (hp : p ∈ l) : p ≤ l.foldr max b := by
  induction l with
  | nil => exact nomatch hp
  | cons q l ih =>
      rw [List.foldr_cons]
      rcases List.mem_cons.mp hp with rfl | hp
      · exact Nat.le_max_left _ _
      · exact (ih hp).trans (Nat.le_max_right _ _)

theorem pairwise_strict {l : List Nat} (hdesc : l.Pairwise fun p q => q ≤ p) (hnodup : l.Nodup) :
    l.Pairwise fun p q => q < p :=
  hdesc.imp₂ (fun _ _ hle hne => Nat.lt_of_le_of_ne hle (Ne.symm hne)) hnodup

theorem pnlSort_strict {l : List Nat} (hnodup : l.Nodup) :
    (pnlSort l).Pairwise fun p q => q < p :=
  pairwise_strict (pnlSort_desc l)
    ((List.perm_insertionSort (fun p q => q ≤ p) l).nodup_iff.mpr hnodup)

theorem settled_rewatermark (h : Refundable t) (hsettled : Settled t) :
    Refundable { t with looseRefundWl := t.firstUnallocated } :=
  { h with watermark := fun p hp => hsettled p hp }

/-! ## 5. The two ways to collect them -/

section Suitable

/-- The suitable pages, and the greatest of them. -/
def suitableOf (t : Txn) : List Nat :=
  t.loose.filter fun p => t.firstUnallocated - t.looseCount ≤ p

def mostOf (t : Txn) : Nat := (suitableOf t).foldr max numMetas

theorem looseCount_pos (h : Refundable t) (hne : t.loose ≠ []) : 0 < t.looseCount := by
  rw [h.counted]
  exact List.length_pos_iff.mpr hne

theorem mostOf_bounds (h : Refundable t) (hne : t.loose ≠ []) :
    mostOf t < t.firstUnallocated ∧ (mostOf t + 1 = t.firstUnallocated → mostOf t ∈ suitableOf t) := by
  obtain ⟨q, hq⟩ := List.exists_mem_of_ne_nil _ hne
  have hlow := h.metas q hq
  have hhigh := h.loose_below hq
  have hcount := looseCount_pos h hne
  have hbelow : mostOf t < t.firstUnallocated := by
    rcases foldr_max_mem numMetas (suitableOf t) with heq | hmem
    · have hmost : mostOf t = numMetas := heq
      omega
    · exact h.loose_below (List.mem_filter.mp hmem).1
  refine ⟨hbelow, fun hmost => ?_⟩
  rcases foldr_max_mem numMetas (suitableOf t) with heq | hmem
  · have hmeta : mostOf t = numMetas := heq
    have hpage : mostOf t = q := by omega
    rw [hpage]
    exact List.mem_filter.mpr ⟨hq, decide_eq_true (by omega)⟩
  · exact hmem

/-- The suitable pages in descending order begin with the greatest. -/
theorem suitable_sorted (h : Refundable t) (hne : t.loose ≠ [])
    (hmost : mostOf t + 1 = t.firstUnallocated) :
    ∃ rest, pnlSort (suitableOf t) = mostOf t :: rest := by
  have hmem : mostOf t ∈ pnlSort (suitableOf t) :=
    (List.perm_insertionSort _ _).mem_iff.mpr ((mostOf_bounds h hne).2 hmost)
  have hdesc := pnlSort_strict (h.chain.filter fun p => t.firstUnallocated - t.looseCount ≤ p)
  change (pnlSort (suitableOf t)).Pairwise _ at hdesc
  cases hsort : pnlSort (suitableOf t) with
  | nil =>
      rw [hsort] at hmem
      exact nomatch hmem
  | cons q rest =>
      rw [hsort] at hmem hdesc
      have hq : q ∈ suitableOf t :=
        (List.perm_insertionSort _ _).mem_iff.mp (hsort ▸ List.mem_cons_self : q ∈ pnlSort _)
      have hlt := h.loose_below (List.mem_filter.mp hq).1
      rcases List.mem_cons.mp hmem with heq | hrest
      · exact ⟨rest, by rw [heq]⟩
      · have hless := (List.pairwise_cons.mp hdesc).1 _ hrest
        omega

/-- A loose page is suitable when all pages after it are loose too. -/
theorem suitable_of_run (h : Refundable t) {p : Nat} (hp : p ∈ t.loose)
    (hrun : ∀ q, p < q → q < t.firstUnallocated → q ∈ t.loose) : p ∈ suitableOf t := by
  have hlength := length_filter_lt (h.loose_below hp).le h.chain
    (fun _ hq => h.loose_below hq) (fun q hlo hhi => by
      rcases Nat.eq_or_lt_of_le hlo with heq | hlt
      · exact heq ▸ hp
      · exact hrun q hlt hhi)
  have hcounted := h.counted
  exact List.mem_filter.mpr ⟨hp, decide_eq_true (by omega)⟩

theorem take_filter_front (l : List Item) (n : Nat) (p : Item → Bool) :
    (l.filter p).take ((l.take n).filter p).length = (l.take n).filter p := by
  conv_lhs => rw [← List.take_append_drop n l, List.filter_append]
  rw [List.take_append_drop, List.take_left]

theorem refundSuitable_ready (h : Refundable t) (hne : t.loose ≠ []) :
    let t' := { refundSuitable t with looseRefundWl := (refundSuitable t).firstUnallocated }
    Refundable t' ∧ Refunded t t' ∧ Settled t' := by
  have hbounds := mostOf_bounds h hne
  by_cases hmost : mostOf t + 1 = t.firstUnallocated
  · obtain ⟨rest, hsort⟩ := suitable_sorted h hne hmost
    have hdesc := pnlSort_strict (h.chain.filter fun p => t.firstUnallocated - t.looseCount ≤ p)
    change (pnlSort (suitableOf t)).Pairwise _ at hdesc
    rw [hsort] at hdesc
    obtain ⟨hhead, htail⟩ := List.pairwise_cons.mp hdesc
    have hrest : ∀ p, p ∈ suitableOf t ↔ p = mostOf t ∨ p ∈ rest := by
      intro p
      rw [← List.mem_cons, ← hsort]
      exact (List.perm_insertionSort _ _).mem_iff.symm
    obtain ⟨hle, hrun⟩ := lowerMost_spec (mostOf t) rest
    have hcover : ∀ p, lowerMost (mostOf t) rest ≤ p → p < t.firstUnallocated → p ∈ t.loose := by
      intro p hlo hhi
      by_cases hp : p = mostOf t
      · exact (List.mem_filter.mp ((hrest p).mpr (.inl hp))).1
      · exact (List.mem_filter.mp ((hrest p).mpr (.inr (hrun p hlo (by omega))))).1
    have hstop : ∀ p ∈ t.loose, p + 1 ≠ lowerMost (mostOf t) rest := by
      intro p hp heq
      have hsuitable := suitable_of_run h hp fun q hlo hhi => hcover q (by omega) hhi
      rcases (hrest p).mp hsuitable with hfirst | hmem
      · omega
      · exact lowerMost_stops htail hhead p hmem heq
    have htaken := takenLoose_ready h (by omega) hcover hstop
      (t.pagesIncludingLoose - (t.firstUnallocated - lowerMost (mostOf t) rest))
      (((List.take_sublist t.sorted t.dirty).filter _).length_le)
      (by
        rw [take_filter_front]
        exact h.sorted.filter _)
    unfold refundSuitable
    dsimp only
    change mostOf t + 1 = t.firstUnallocated at hmost
    rw [show (List.foldr max numMetas (List.filter
      (fun p => decide (t.firstUnallocated - t.looseCount ≤ p)) t.loose)) = mostOf t from rfl,
      show (List.filter (fun p => decide (t.firstUnallocated - t.looseCount ≤ p)) t.loose) =
        suitableOf t from rfl, hsort, List.tail_cons, if_pos hmost]
    exact htaken
  · have hkeep : refundSuitable t = t := if_neg hmost
    rw [hkeep]
    have hsettled : Settled t := by
      intro p hp
      have hlt := h.loose_below hp
      by_contra hlast
      have hsuitable := suitable_of_run h hp fun q hlo hhi => absurd hhi (by omega)
      have hgreatest : p ≤ mostOf t := le_foldr_max numMetas hsuitable
      omega
    exact ⟨settled_rewatermark h hsettled, { Refunded.refl h with }, hsettled⟩

end Suitable

theorem txnDplSort_ready (h : Refundable t) : Refundable (txnDplSort t) ∧ Refunded t (txnDplSort t) ∧
    (txnDplSort t).sorted = (txnDplSort t).dirty.length := by
  unfold txnDplSort
  by_cases hall : t.sorted = t.dirty.length
  · rw [if_pos hall]
    exact ⟨h, Refunded.refl h, hall⟩
  · rw [if_neg hall]
    have hperm : (t.dirty.insertionSort fun x y => x.pgno ≤ y.pgno).Perm t.dirty :=
      List.perm_insertionSort _ _
    have hle : (t.dirty.insertionSort fun x y => x.pgno ≤ y.pgno).Pairwise
        fun x y => x.pgno ≤ y.pgno := List.pairwise_insertionSort _ _
    have hdistinct := (hperm.map Item.pgno).nodup_iff.mpr h.distinct
    have hless := hle.imp₂ (fun x y hxy (hne : x.pgno ≠ y.pgno) => Nat.lt_of_le_of_ne hxy hne)
      (List.pairwise_map.mp hdistinct)
    refine ⟨?_, { Refunded.refl h with room := ?_ }, hperm.length_eq.symm⟩
    · exact { h with
        allocated := fun x hx => h.allocated x (hperm.mem_iff.mp hx)
        distinct := hdistinct
        flagged := fun x hx => h.flagged x (hperm.mem_iff.mp hx)
        listed := fun p hp => (hperm.map Item.pgno).mem_iff.mpr (h.listed p hp)
        apart := fun x hx => h.apart x (hperm.mem_iff.mp hx)
        prefixed := hperm.length_eq.symm.le
        sorted := hless.sublist (List.take_sublist _ _) }
    · change t.dirtyroom + (t.dirty.insertionSort fun x y => x.pgno ≤ y.pgno).length = _
      rw [hperm.length_eq]

/-- The scan from the end of a sorted dirty list stops at a page that is not loose or not the last. -/
theorem cutLoose_stops {l : List Item} (hdesc : l.Pairwise fun x y => y.pgno < x.pgno) {first : Nat}
    (hbelow : ∀ x ∈ l, x.pgno < first) : ∀ x ∈ (cutLoose first l).2,
      x.pgno < (cutLoose first l).1 ∧ (x.loose = true → x.pgno + 1 ≠ (cutLoose first l).1) := by
  induction l generalizing first with
  | nil => exact nofun
  | cons y l ih =>
      obtain ⟨hhead, htail⟩ := List.pairwise_cons.mp hdesc
      by_cases hy : y.pgno + 1 = first ∧ y.loose = true
      · simp only [cutLoose, if_pos hy]
        refine ih htail fun x hx => ?_
        have hless := hhead x hx
        omega
      · simp only [cutLoose, if_neg hy]
        intro x hx
        refine ⟨hbelow x hx, fun hloose heq => ?_⟩
        rcases List.mem_cons.mp hx with rfl | hx
        · exact hy ⟨heq, hloose⟩
        · have hless := hhead x hx
          have hlt := hbelow y List.mem_cons_self
          omega

theorem refundSorted_ready (h : Refundable t) :
    let t' := { refundSorted t with looseRefundWl := (refundSorted t).firstUnallocated }
    Refundable t' ∧ Refunded t t' ∧ Settled t' := by
  obtain ⟨hs, hrefunded, hsorted⟩ := txnDplSort_ready h
  unfold refundSorted
  generalize txnDplSort t = s at hs hrefunded hsorted
  dsimp only
  have hascending : s.dirty.Pairwise fun x y => x.pgno < y.pgno := by
    have hprefix := hs.sorted
    rwa [hsorted, List.take_length] at hprefix
  obtain ⟨cut, hl, hlen, habove, hcover⟩ := cutLoose_spec s.firstUnallocated s.dirty.reverse
  have hstops := cutLoose_stops (l := s.dirty.reverse)
    (List.pairwise_reverse.mpr hascending) fun x hx => hs.allocated x (List.mem_reverse.mp hx)
  generalize cutLoose s.firstUnallocated s.dirty.reverse = out at *
  have hdirty : s.dirty = out.2.reverse ++ cut.reverse := by
    rw [← List.reverse_append, ← hl, List.reverse_reverse]
  have hfilter : (s.dirty.filter fun x => x.pgno < out.1) = out.2.reverse := by
    rw [hdirty, List.filter_append, List.filter_eq_self.mpr, List.filter_eq_nil_iff.mpr,
      List.append_nil]
    · intro x hx
      have hge := habove x (List.mem_reverse.mp hx)
      simpa using hge
    · intro x hx
      exact decide_eq_true (hstops x (List.mem_reverse.mp hx)).1
  have hpages : ∀ p, out.1 ≤ p → p < s.firstUnallocated → p ∈ s.loose := by
    intro p hlo hhi
    obtain ⟨x, hx, hflag, rfl⟩ := hcover p hlo hhi
    refine (hs.flagged x ?_).mp hflag
    rw [hdirty]
    exact List.mem_append_right _ (List.mem_reverse.mpr hx)
  have hstop : ∀ p ∈ s.loose, p + 1 ≠ out.1 := by
    intro p hp heq
    obtain ⟨x, hx, rfl⟩ := List.mem_map.mp (hs.listed p hp)
    have hflag := (hs.flagged x hx).mpr hp
    have hkept : x ∈ out.2.reverse := by
      rw [← hfilter]
      exact List.mem_filter.mpr ⟨hx, decide_eq_true (by omega)⟩
    exact (hstops x (List.mem_reverse.mp hkept)).2 hflag heq
  have hlength : s.dirty.length - out.2.length = s.firstUnallocated - out.1 := by
    have hcut := congrArg List.length hl
    rw [List.length_reverse, List.length_append] at hcut
    omega
  rw [hlength]
  by_cases hnone : s.firstUnallocated - out.1 = 0
  · rw [if_pos hnone]
    have hsettled : Settled s := by
      intro p hp
      have hne := hstop p hp
      have hlt := hs.loose_below hp
      omega
    exact ⟨settled_rewatermark hs hsettled, { hrefunded with }, hsettled⟩
  · rw [if_neg hnone]
    have htaken := takenLoose_ready hs (by omega) hpages hstop
      (s.pagesIncludingLoose - (s.firstUnallocated - out.1))
      (by rw [hfilter, List.length_reverse])
      (hascending.sublist ((List.take_sublist _ _).trans List.filter_sublist))
    have hsame : takenLoose s out.1 out.2.length
        (s.pagesIncludingLoose - (s.firstUnallocated - out.1)) =
        { unlinkLoose { s with
            firstUnallocated := out.1
            looseCount := s.looseCount - (s.firstUnallocated - out.1)
            dirtyroom := s.dirtyroom + (s.firstUnallocated - out.1)
            pagesIncludingLoose := s.pagesIncludingLoose - (s.firstUnallocated - out.1)
            sorted := out.2.length
            dirty := out.2.reverse } with looseRefundWl := out.1 } := by
      unfold takenLoose unlinkLoose
      rw [hfilter]
    rw [hsame] at htaken
    exact ⟨htaken.1, hrefunded.trans htaken.2.1, htaken.2.2⟩

/-! ## 6. The loop -/

/-- No list of suitable pages was refused. -/
def Granted (t t' : Txn) (done : Prop) : Prop :=
  ∃ asked, t.answers = asked ++ t'.answers ∧ ((∀ a ∈ asked, a = .room) → done)

theorem Granted.refl {done : Prop} (h : done) : Granted t t done := ⟨[], rfl, fun _ => h⟩

theorem Granted.trans {done done' : Prop} (h : Granted t t' done) (h' : Granted t' t'' done') :
    Granted t t'' done' := by
  obtain ⟨asked, heq, -⟩ := h
  obtain ⟨asked', heq', hdone⟩ := h'
  refine ⟨asked ++ asked', by rw [heq, heq', List.append_assoc], fun hroom => ?_⟩
  exact hdone fun a ha => hroom a (List.mem_append_right _ ha)

/-- What `refund_loose` does, with the answer to its request for a list. -/
structure LooseDone (t t' : Txn) : Prop where
  ready : Refundable t'
  refunded : Refunded t t'
  granted : Granted t t' (Settled t')

theorem need_asked (t : Txn) : ∃ asked, t.answers = asked ++ (need t).2.answers ∧
    ((∀ a ∈ asked, a = .room) → (need t).1 = .room) := by
  unfold need
  cases hanswers : t.answers with
  | nil => exact ⟨[], hanswers.symm, fun _ => rfl⟩
  | cons a rest => exact ⟨[a], rfl, fun hroom => hroom a List.mem_cons_self⟩

theorem need_keeps (t : Txn) : (need t).2 = { t with answers := (need t).2.answers } := by
  unfold need
  split
  · rfl
  · rfl

theorem refundLoose_answers (t : Txn) :
    (refundSuitable t).answers = t.answers ∧ (refundSorted t).answers = t.answers := by
  constructor
  · unfold refundSuitable
    dsimp only
    split
    · rfl
    · rfl
  · have hsort : (txnDplSort t).answers = t.answers := by
      unfold txnDplSort
      split
      · rfl
      · rfl
    unfold refundSorted
    dsimp only
    split
    · exact hsort
    · exact hsort

theorem refundLoose_done (h : Refundable t) (hne : t.loose ≠ []) : LooseDone t (refundLoose t) := by
  unfold refundLoose
  by_cases hunsorted : t.looseCount < t.dirty.length - t.sorted
  · rw [if_pos hunsorted]
    unfold suitableRoom
    by_cases hstack : onstack < t.looseCount
    · rw [if_pos hstack]
      obtain ⟨asked, hasked, hroom⟩ := need_asked t
      have hready : Refundable (need t).2 := by
        rw [need_keeps]
        exact { h with }
      have hsame : Refunded t (need t).2 := by
        rw [need_keeps]
        exact { Refunded.refl h with }
      dsimp only
      by_cases hgot : (need t).1 = .room
      · rw [if_pos (decide_eq_true hgot)]
        obtain ⟨hdone, hrefunded, hsettled⟩ :=
          refundSuitable_ready hready ((need_loose t).symm ▸ hne)
        refine ⟨hdone, hsame.trans hrefunded, asked, ?_, fun _ => hsettled⟩
        change t.answers = asked ++ (refundSuitable (need t).2).answers
        rw [(refundLoose_answers (need t).2).1]
        exact hasked
      · rw [if_neg (by simpa using hgot)]
        exact ⟨hready, hsame, asked, hasked, fun hall => absurd (hroom hall) hgot⟩
    · rw [if_neg hstack]
      obtain ⟨hdone, hrefunded, hsettled⟩ := refundSuitable_ready h hne
      exact ⟨hdone, hrefunded, [], (refundLoose_answers t).1.symm, fun _ => hsettled⟩
  · rw [if_neg hunsorted]
    obtain ⟨hdone, hrefunded, hsettled⟩ := refundSorted_ready h
    exact ⟨hdone, hrefunded, [], (refundLoose_answers t).2.symm, fun _ => hsettled⟩

/-- Without loose pages beyond the watermark there is none before the boundary. -/
theorem settled_of_not_waits (h : Refundable t) (hwaits : looseWaits t = false) : Settled t := by
  intro p hp
  have hwl := h.watermark p hp
  have hne : t.loose ≠ [] := List.ne_nil_of_mem hp
  have hle : t.looseRefundWl ≤ t.firstUnallocated := by
    by_contra hlt
    have htrue : looseWaits t = true := decide_eq_true ⟨hne, Nat.lt_of_not_le hlt⟩
    rw [htrue] at hwaits
    exact nomatch hwaits
  omega

theorem repnl_of_not_atTail (h : Refundable t) (htail : atTail t = false) :
    ∀ p ∈ t.repnl, p + 1 < t.firstUnallocated := by
  have hdesc := h.desc
  have hbelow := h.below
  unfold atTail at htail
  cases hrepnl : t.repnl with
  | nil => exact nofun
  | cons q l =>
      rw [hrepnl] at htail hdesc hbelow
      have hq : q + 1 ≠ t.firstUnallocated := by simpa using htail
      have hlt := hbelow q List.mem_cons_self
      intro p hp
      rcases List.mem_cons.mp hp with rfl | hp
      · omega
      · have hless := (List.pairwise_cons.mp hdesc).1 p hp
        omega

/-- Both refunders have come to an end. -/
structure Done (t t' : Txn) : Prop extends LooseDone t t' where
  reclaimed : ∀ p ∈ t'.repnl, p + 1 < t'.firstUnallocated

theorem refundLoop_done {t₀ : Txn} {fuel : Nat} (hfuel : t.firstUnallocated < fuel)
    (h : LooseDone t₀ t) : Done t₀ (refundLoop fuel t) := by
  -- by induction on the fuel, of which each turn needs less than the boundary goes down by
  induction fuel generalizing t with
  | zero => exact absurd hfuel (Nat.not_lt_zero _)
  | succ fuel ih =>
      rw [refundLoop]
      dsimp only
      cases htail : atTail t with
      | false => exact ⟨h, repnl_of_not_atTail h.ready htail⟩
      | true =>
          obtain ⟨hready, hrefunded, hreclaimed⟩ := refundReclaimed_ready h.ready
          have hlower := refundReclaimed_lt htail
          have hall := h.refunded.trans hrefunded
          rw [if_pos rfl]
          cases hwaits : looseWaits (refundReclaimed t) with
          | false =>
              have hsettled := settled_of_not_waits hready hwaits
              obtain ⟨asked, heq, -⟩ := h.granted
              exact ⟨⟨hready, hall, asked, heq, fun _ => hsettled⟩, hreclaimed⟩
          | true =>
              have hne : (refundReclaimed t).loose ≠ [] := looseWaits_ne hwaits
              have hloose := refundLoose_done hready hne
              have hgranted : Granted t₀ (refundLoose (refundReclaimed t))
                  (Settled (refundLoose (refundReclaimed t))) := by
                refine @Granted.trans _ _ _ True _ ?_ hloose.granted
                obtain ⟨asked, heq, -⟩ := h.granted
                exact ⟨asked, heq, fun _ => trivial⟩
              have hdone : LooseDone t₀ (refundLoose (refundReclaimed t)) :=
                ⟨hloose.ready, hall.trans hloose.refunded, hgranted⟩
              rw [if_pos rfl]
              by_cases hmemo : (refundLoose (refundReclaimed t)).firstUnallocated =
                  (refundReclaimed t).firstUnallocated
              · rw [if_pos hmemo]
                refine ⟨hdone, fun p hp => ?_⟩
                rw [hloose.refunded.repnl] at hp
                rw [hmemo]
                exact hreclaimed p (List.mem_filter.mp hp).1
              · rw [if_neg hmemo]
                have hle := hloose.refunded.boundary
                exact ih (by omega) hdone

theorem txnRefund_done (h : Refundable t) : Done t (txnRefund t) := by
  unfold txnRefund
  dsimp only
  cases hwaits : looseWaits t with
  | true =>
      have hloose := refundLoose_done h (looseWaits_ne hwaits)
      have hle := hloose.refunded.boundary
      rw [if_pos rfl]
      exact refundLoop_done (Nat.lt_succ_self _) hloose
  | false =>
      rw [if_neg (by decide)]
      have hsettled := settled_of_not_waits h hwaits
      exact refundLoop_done (Nat.lt_succ_self _) ⟨h, Refunded.refl h, Granted.refl hsettled⟩

/-! ## 7. The steps that change the loose list -/

/-- A dirty page that becomes loose is below the watermark. -/
theorem loosen_ready (h : Refundable t) {s : Span} (hmeta : numMetas ≤ s.pgno) {x : Item}
    (hx : x ∈ t.dirty) (hpgno : x.pgno = s.pgno) (hloose : x.loose = false) :
    Refundable (loosen t s) := by
  let mark : Item → Item := fun y => if y.pgno = s.pgno then { y with loose := true } else y
  have hmark : ∀ y, (mark y).pgno = y.pgno := by
    intro y
    dsimp only [mark]
    split
    · rfl
    · rfl
  have hnumbers : (t.dirty.map mark).map Item.pgno = t.dirty.map Item.pgno := by
    rw [List.map_map]
    exact List.map_congr_left fun y _ => hmark y
  have hnew : s.pgno ∉ t.loose := by
    rw [← hpgno, ← h.flagged x hx, hloose]
    exact nofun
  constructor
  · exact h.desc
  · exact h.below
  · exact List.nodup_cons.mpr ⟨hnew, h.chain⟩
  · intro p hp
    rcases List.mem_cons.mp hp with rfl | hp
    · exact hmeta
    · exact h.metas p hp
  · exact congrArg Nat.succ h.counted
  · intro p hp
    change p + 2 ≤ max (s.pgno + 2) t.looseRefundWl
    rcases List.mem_cons.mp hp with rfl | hp
    · exact Nat.le_max_left _ _
    · exact (h.watermark p hp).trans (Nat.le_max_right _ _)
  · intro y hy
    obtain ⟨z, hz, rfl⟩ := List.mem_map.mp hy
    exact (hmark z).symm ▸ h.allocated z hz
  · exact hnumbers.symm ▸ h.distinct
  · intro y hy
    obtain ⟨z, hz, rfl⟩ := List.mem_map.mp hy
    change ((mark z).loose = true ↔ (mark z).pgno ∈ s.pgno :: t.loose)
    rw [hmark, List.mem_cons]
    dsimp only [mark]
    by_cases hsame : z.pgno = s.pgno
    · rw [if_pos hsame]
      exact ⟨fun _ => .inl hsame, fun _ => rfl⟩
    · rw [if_neg hsame, h.flagged z hz]
      exact ⟨Or.inr, fun hor => hor.resolve_left hsame⟩
  · intro p hp
    change p ∈ (t.dirty.map mark).map Item.pgno
    rw [hnumbers]
    rcases List.mem_cons.mp hp with rfl | hp
    · exact hpgno ▸ List.mem_map_of_mem hx
    · exact h.listed p hp
  · intro y hy
    obtain ⟨z, hz, rfl⟩ := List.mem_map.mp hy
    exact (hmark z).symm ▸ h.apart z hz
  · change t.sorted ≤ (t.dirty.map mark).length
    rw [List.length_map]
    exact h.prefixed
  · change ((t.dirty.map mark).take t.sorted).Pairwise _
    rw [← List.map_take, List.pairwise_map]
    refine h.sorted.imp fun hless => ?_
    rw [hmark, hmark]
    exact hless

/-- The loose pages are given to `repnl`, or they are retired and `repnl` is as before. -/
theorem dropLoose_ready (h : Refundable t) {retired repnl : List Nat}
    (hdesc : repnl.Pairwise fun p q => q < p) (hfrom : ∀ p ∈ repnl, p ∈ t.repnl ∨ p ∈ t.loose) :
    Refundable (dropLoose { t with retired := retired, repnl := repnl }) := by
  have hsorted : t.sorted - ((t.dirty.take t.sorted).filter fun x => x.loose).length =
      ((t.dirty.take t.sorted).filter fun x => !x.loose).length := by
    have hsplit := List.length_eq_length_filter_add (l := t.dirty.take t.sorted) fun x => x.loose
    have hlength := List.length_take_of_le h.prefixed
    omega
  have hloose : ∀ x ∈ t.dirty.filter fun x => !x.loose, x ∈ t.dirty ∧ x.pgno ∉ t.loose := by
    intro x hx
    obtain ⟨hmem, hflag⟩ := List.mem_filter.mp hx
    refine ⟨hmem, fun hin => ?_⟩
    rw [(h.flagged x hmem).mpr hin] at hflag
    exact nomatch hflag
  constructor
  · exact hdesc
  · intro p hp
    rcases hfrom p hp with hfree | hfree
    · exact h.below p hfree
    · exact h.loose_below hfree
  · exact List.nodup_nil
  · exact nofun
  · rfl
  · exact nofun
  · exact fun x hx => h.allocated x (hloose x hx).1
  · exact h.distinct.sublist (List.filter_sublist.map Item.pgno)
  · intro x hx
    have hflag := (List.mem_filter.mp hx).2
    refine ⟨fun htrue => ?_, nofun⟩
    rw [htrue] at hflag
    exact nomatch hflag
  · exact nofun
  · intro x hx hin
    obtain ⟨hmem, hnot⟩ := hloose x hx
    rcases hfrom _ hin with hfree | hfree
    · exact h.apart x hmem hfree
    · exact hnot hfree
  · change t.sorted - _ ≤ (t.dirty.filter fun x => !x.loose).length
    rw [hsorted]
    exact ((List.take_sublist t.sorted t.dirty).filter _).length_le
  · change ((t.dirty.filter fun x => !x.loose).take (t.sorted - _)).Pairwise _
    rw [hsorted, take_filter_front]
    exact h.sorted.filter _

theorem gcMergeLoose_ready (h : Refundable t) (gcDirty : Bool) : Refundable (gcMergeLoose t gcDirty).2 := by
  have hneed : Refundable (need t).2 := by
    rw [need_keeps]
    exact { h with }
  unfold gcMergeLoose
  generalize need t = answer at hneed
  obtain ⟨a, t⟩ := answer
  cases a with
  | noMemory | full => exact hneed
  | room =>
      dsimp only
      split
      · exact dropLoose_ready hneed hneed.desc fun p hp => .inl hp
      · have hmem : ∀ p ∈ pnlMerge t.repnl (pnlSort t.loose), p ∈ t.repnl ∨ p ∈ t.loose := by
          intro p hp
          rcases List.mem_append.mp ((List.merge_perm_append _).mem_iff.mp hp) with hin | hin
          · exact .inl hin
          · exact .inr ((List.perm_insertionSort _ _).mem_iff.mp hin)
        have hnodup : (pnlMerge t.repnl (pnlSort t.loose)).Nodup := by
          refine (List.merge_perm_append _).nodup_iff.mpr (List.nodup_append.mpr ⟨?_, ?_, ?_⟩)
          · exact hneed.desc.imp fun hless => (Nat.ne_of_lt hless).symm
          · exact (List.perm_insertionSort _ _).nodup_iff.mpr hneed.chain
          · rintro p hp q hq rfl
            exact hneed.loose_apart ((List.perm_insertionSort _ _).mem_iff.mp hq) hp
        have hle := pnlMerge_desc (hneed.desc.imp Nat.le_of_lt) (pnlSort_desc t.loose)
        exact dropLoose_ready hneed (pairwise_strict hle hnodup) hmem

/-! ## 8. The fixpoint -/

/-- After `txn_refund` the last page before the boundary is not in `repnl`, and not loose unless a list
of suitable pages was refused; the boundary went down by the pages that left both lists. -/
theorem txnRefund_settles (t : Txn) (h : Refundable t) :
    (txnRefund t).firstUnallocated - 1 ∉ (txnRefund t).repnl ∧
    Granted t (txnRefund t) ((txnRefund t).firstUnallocated - 1 ∉ (txnRefund t).loose) ∧
    Refunded t (txnRefund t) ∧
    (txnRefund t).looseCount = (txnRefund t).loose.length ∧
    (txnRefund t).sorted ≤ (txnRefund t).dirty.length ∧
    ((txnRefund t).dirty.take (txnRefund t).sorted).Pairwise fun x y => x.pgno < y.pgno := by
  have hdone := txnRefund_done h
  refine ⟨fun hmem => ?_, ?_, hdone.refunded, hdone.ready.counted, hdone.ready.prefixed,
    hdone.ready.sorted⟩
  · have hlt := hdone.reclaimed _ hmem
    omega
  · obtain ⟨asked, heq, hsettled⟩ := hdone.granted
    refine ⟨asked, heq, fun hroom hmem => ?_⟩
    have hlt := hsettled hroom _ hmem
    omega

/-- The pages at the tail are in turn of `repnl` and loose. -/
def alternatingTxn : Txn where
  txnid := 9
  frontTxnid := 10
  firstUnallocated := 10
  endPgno := 16
  upper := 32
  growStep := 4
  repnl := [9, 7, 6]
  retired := []
  loose := [8, 4]
  looseCount := 2
  looseRefundWl := 10
  dirty := [⟨4, 1, true⟩, ⟨5, 1, false⟩, ⟨8, 1, true⟩]
  sorted := 2
  pagesIncludingLoose := 3
  dirtyroom := 10
  spilled := []
  parents := []
  gc := []
  gcHeight := 1
  gcBranchPages := 0
  reclaimed := []
  ready4reuse := []
  comeback := []
  error := false
  drained := false
  answers := []
  used := [⟨5, 1, 10⟩]

theorem alternatingTxn_refundable : Refundable alternatingTxn := by
  constructor
  all_goals decide

theorem txnRefund_settles_alternating :
    (txnRefund alternatingTxn).firstUnallocated = 6 ∧
    (txnRefund alternatingTxn).firstUnallocated - 1 ∉ (txnRefund alternatingTxn).repnl ∧
    Refunded alternatingTxn (txnRefund alternatingTxn) :=
  have hsettles := txnRefund_settles alternatingTxn alternatingTxn_refundable
  ⟨by decide, hsettles.1, hsettles.2.2.1⟩

/-- 63 loose pages up to the boundary, and 64 large pages before them that are not in order. -/
def crowdedTxn : Txn :=
  { alternatingTxn with
    firstUnallocated := 363
    endPgno := 400
    upper := 400
    repnl := []
    loose := List.range' 300 63
    looseCount := 63
    looseRefundWl := 364
    dirty := (List.range' 300 63).map (fun p => ⟨p, 1, true⟩) ++
      (List.range' 1 64).map fun i => ⟨4 * i, 4, false⟩
    sorted := 63
    pagesIncludingLoose := 319
    answers := [.noMemory]
    used := (List.range' 1 64).map fun i => ⟨4 * i, 4, 10⟩ }

theorem crowdedTxn_refundable : Refundable crowdedTxn := by
  constructor
  all_goals decide +kernel

/-- Without memory for the list of suitable pages the last page before the boundary stays loose. -/
theorem crowded_stays_loose :
    Refundable crowdedTxn ∧
    (txnRefund crowdedTxn).firstUnallocated - 1 ∈ (txnRefund crowdedTxn).loose :=
  ⟨crowdedTxn_refundable, by decide +kernel⟩

end Mdbx.Pages
