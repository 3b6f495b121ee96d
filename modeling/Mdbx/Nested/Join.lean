import Mdbx.Nested.Merge

/-!
# Nested.Join — what a nested transaction leaves to its parent

The phases of `nested_merge` put together, from lists that need not be sorted yet.
-/

namespace Mdbx.Nested

open Buffer

/-! ## 1. Sorting a dirty list -/

abbrev Disjoint (x y : Item) : Prop := x.endPgno ≤ y.pgno ∨ y.endPgno ≤ x.pgno

theorem disjoint_symm {x y : Item} (h : Disjoint x y) : Disjoint y x := h.symm

/-- A dirty list as a transaction keeps it: no two items share a page, a part at its beginning is
sorted. -/
structure Listed (dl : Dpl) : Prop where
  full : dl.list.length = dl.length
  disjoint : dl.list.Pairwise Disjoint
  pos : ∀ x ∈ dl.list, 0 < x.npages
  sorted : Spans (dl.list.take dl.sorted)

theorem spans_of_disjoint {l : List Item} (hd : l.Pairwise Disjoint)
    (hasc : l.Pairwise fun x y => x.pgno ≤ y.pgno) (hpos : ∀ x ∈ l, 0 < x.npages) : Spans l where
  apart := by
    apply (hd.and hasc).imp_of_mem
    intro x y hx hy h
    have hy' := hpos y hy
    rcases h.1 with h₁ | h₁
    · exact h₁
    · have h₂ := h.2
      unfold Item.endPgno at h₁
      omega
  pos := hpos

theorem seg_ofList (l : List Item) : seg (ofList l) 1 l.length = l := by
  have hcell : ∀ i, i < l.length → ofList l (1 + i) = l[i]? := by
    intro i _
    rw [Nat.add_comm]
    rfl
  apply List.ext_getElem?
  intro i
  have hfull : (seg (ofList l) 1 l.length).length = l.length := by
    apply seg_full_of_isSome
    intro j hlo hhi
    rw [show j = 1 + (j - 1) by omega, hcell _ (by omega), List.getElem?_eq_getElem (by omega)]
    exact Option.some_ne_none _
  by_cases hi : i < l.length
  · rw [seg_getElem? hfull hi, hcell i hi]
  · rw [List.getElem?_eq_none (by omega), List.getElem?_eq_none (by omega)]

theorem txnDplSort_spec {dl : Dpl} (h : Listed dl) :
    Sorted (txnDplSort dl) ∧ (txnDplSort dl).list.Perm dl.list ∧
      (txnDplSort dl).length = dl.length := by
  unfold txnDplSort
  by_cases hs : dl.sorted = dl.length
  · rw [if_pos hs]
    have hspans := h.sorted
    rw [hs, ← h.full, List.take_length] at hspans
    exact ⟨⟨h.full, hs, hspans⟩, List.Perm.refl _, rfl⟩
  · rw [if_neg hs]
    have hperm := dl.list.perm_insertionSort fun x y => x.pgno ≤ y.pgno
    have hasc : (dl.list.insertionSort fun x y => x.pgno ≤ y.pgno).Pairwise
        fun x y => x.pgno ≤ y.pgno := by
      have htotal : Std.Total fun x y : Item => x.pgno ≤ y.pgno :=
        ⟨fun x y => Nat.le_total x.pgno y.pgno⟩
      have htrans : IsTrans Item fun x y => x.pgno ≤ y.pgno :=
        ⟨fun _ _ _ hxy hyz => Nat.le_trans hxy hyz⟩
      exact List.pairwise_insertionSort _ _
    generalize dl.list.insertionSort (fun x y => x.pgno ≤ y.pgno) = l at *
    have hlen : l.length = dl.length := hperm.length_eq.trans h.full
    have hlist : seg (ofList l) 1 dl.length = l := by
      rw [← hlen]
      exact seg_ofList l
    refine ⟨⟨?_, rfl, ?_⟩, ?_, rfl⟩
    · change (seg (ofList l) 1 dl.length).length = dl.length
      rw [hlist, hlen]
    · change Spans (seg (ofList l) 1 dl.length)
      rw [hlist]
      apply spans_of_disjoint
      · exact (hperm.pairwise_iff disjoint_symm).mpr h.disjoint
      · exact hasc
      · intro x hx
        exact h.pos x (hperm.subset hx)
    · change (seg (ofList l) 1 dl.length).Perm dl.list
      rw [hlist]
      exact hperm

/-! ## 2. The phases before the merge -/

/-- The pages of the nested spill list, which has been purged. -/
def spilledPages (t : Txn) : List Nat :=
  match t.spilled with
  | none => []
  | some sp => (List.range' 1 sp.list.size).map fun i => sp.list.cells i >>> 1

/-- The pages that the retired list has got since the nested transaction began. -/
def retiredSince (t : Txn) (base : Nat) : List Nat :=
  (List.range' (base + 1) (t.retired.size - base)).map t.retired.cells

/-- The pages of the parent's items that are now in another list. -/
def movedPages (parent nested : Txn) (base : Nat) : List Nat :=
  parent.repnl.list ++ retiredSince parent base ++ spilledPages nested

/-- The items that pass the filters by their first page. -/
def passes (parent nested : Txn) (base : Nat) (x : Item) : Bool :=
  x.pgno < parent.firstUnallocated ∧ x.pgno ∉ movedPages parent nested base

/-- What the caller of `nested_merge` provides. -/
structure Mergeable (parent nested : Txn) : Prop where
  parentItems : Listed parent.dirtylist
  nestedItems : Listed nested.dirtylist
  -- the limit of a nested transaction is the room of its parent
  room : nested.dirtyroom + nested.dirtylist.length = parent.dirtyroom
  repnl : Descending parent.repnl.cells parent.repnl.size
  spilled : ∀ sp, nested.spilled = some sp → Descending sp.list.cells sp.list.size

@[simp] theorem txnDplSift_retired (b : Build) (t : Txn) (pl : Pnl) (shift : Nat) :
    (txnDplSift b t pl shift).retired = t.retired := by
  unfold txnDplSift
  split
  · rfl
  · simp only
    split
    · rfl
    · rfl

@[simp] theorem filterSpilled_dirtylist (t : Txn) (src : Dpl) :
    (filterSpilled t src).dirtylist = t.dirtylist := by
  unfold filterSpilled
  split
  · rfl
  · split
    · rfl
    · simp only
      split
      · rfl
      · rfl

@[simp] theorem filterSpilled_dirtyroom (t : Txn) (src : Dpl) :
    (filterSpilled t src).dirtyroom = t.dirtyroom := by
  unfold filterSpilled
  split
  · rfl
  · split
    · rfl
    · simp only
      split
      · rfl
      · rfl

theorem Filtered.congr {p q : Item → Bool} {t t' : Txn} (h : Filtered p t t')
    (hpq : ∀ x, p x = q x) : Filtered q t t' where
  sorted := h.sorted
  list := by
    rw [h.list]
    exact List.filter_congr fun x _ => hpq x
  room := h.room

theorem Descending.shiftRight {pl : Nat → Nat} {size : Nat} (h : Descending pl size) (k : Nat) :
    Descending (fun i => pl i >>> k) size where
  le := by
    intro i j hi hij hj
    simp only [Nat.shiftRight_eq_div_pow]
    exact Nat.div_le_div_right (h.le i j hi hij hj)

theorem moveRetired_filtered (b : Build) (base : Nat) {t : Txn} (h : Sorted t.dirtylist) :
    Filtered (fun x => x.pgno ∉ retiredSince t base) t (moveRetired b base t) := by
  have hloop := reclaimLoop_filtered b base (t.retired.size - base) h (show base < base + 1 by omega)
  exact ⟨hloop.sorted, hloop.list, hloop.room⟩

theorem filterSpilled_filtered {t : Txn} (h : Sorted t.dirtylist) (src : Dpl) :
    Filtered (fun _ => true) t (filterSpilled t src) :=
  Filtered.refl_of_all h (fun _ _ => rfl) (filterSpilled_dirtylist t src)
    (filterSpilled_dirtyroom t src)

theorem dropSpilled_filtered (b : Build) {nested t : Txn} (h : Sorted t.dirtylist)
    (hsp : ∀ sp, nested.spilled = some sp → Descending sp.list.cells sp.list.size) :
    Filtered (fun x => x.pgno ∉ spilledPages nested) t (dropSpilled b nested t) := by
  unfold dropSpilled spilledPages
  cases hs : nested.spilled with
  | none => exact Filtered.refl_of_all h (fun x _ => by simp) rfl rfl
  | some sp => exact txnDplSift_filtered b h sp.list 1 ((hsp sp hs).shiftRight 1)

theorem sieve_filtered (b : Build) {parent nested : Txn} (base : Nat) (h : Mergeable parent nested) :
    Filtered (passes parent nested base) { parent with dirtylist := txnDplSort parent.dirtylist }
      (sieve b parent nested base) := by
  have hrefund := @refund_filtered { parent with dirtylist := txnDplSort parent.dirtylist }
    (txnDplSort_spec h.parentItems).1 parent.firstUnallocated
  have hsift := txnDplSift_filtered b hrefund.sorted parent.repnl 0 (h.repnl.shiftRight 0)
  have hmove := moveRetired_filtered b base hsift.sorted
  have hfilter := filterSpilled_filtered hmove.sorted (txnDplSort nested.dirtylist)
  have hdrop := dropSpilled_filtered b hfilter.sorted h.spilled
  have hall := (((hrefund.trans hsift).trans hmove).trans hfilter).trans hdrop
  apply hall.congr
  intro x
  unfold passes movedPages outside Pnl.list retiredSince
  simp only [txnDplSift_retired, Nat.shiftRight_zero, List.mem_append, not_or, Bool.decide_and,
    Bool.and_true, Bool.and_assoc]

/-! ## 3. The merged list -/

theorem hit_perm {l₁ l₂ : List Item} (h : l₁.Perm l₂) (x : Item) : hit l₁ x = hit l₂ x := h.any_eq

theorem hit_false_disjoint {src : List Item} {y : Item} (h : hit src y = false) {x : Item}
    (hx : x ∈ src) : Disjoint y x := hit_eq_false.mp h x hx

theorem emptied_seg {src dl : Dpl} (h : Sorted dl) {items : Nat → Option Item}
    (hcells : ∀ i, 1 ≤ i → i ≤ dl.length → items i = emptied src dl i) :
    seg items 1 dl.length = dl.list.filter fun y => !hit src.list y := by
  apply seg_filter
  intro i hlo hhi
  rw [hcells i hlo (by omega)]
  unfold emptied
  rw [(h.get hlo (by omega)).1]
  cases hh : hit src.list (dl.at i) with
  | false => simp [Option.filter, hh]
  | true => simp [Option.filter, hh]

theorem countPages_eq {items : Nat → Option Item} {n : Nat} (h : (seg items 1 n).length = n) :
    countPages items n = ((seg items 1 n).map Item.npages).sum := by
  rw [seg_eq_map h, List.map_map]
  rfl

-- the overlaps and the merge, for sorted lists
theorem merge_result {src dl : Dpl} (hsrc : Sorted src) (hdl : Sorted dl) (front : Nat)
    (headers : Nat → Header) :
    let o := overlapLoop src front (dl.length + src.length)
      ⟨dl.items, headers, 0, dl.length, src.length⟩
    Merged (o.l + o.d + o.s) ((dl.list.filter fun y => !hit src.list y) ++ src.list)
      (mergeItems src o.items dl.length (o.l + o.d + o.s)) := by
  intro o
  obtain ⟨hcells, hcount⟩ := overlap_result hsrc hdl front headers
  change ∀ i, 1 ≤ i → i ≤ dl.length → o.items i = emptied src dl i at hcells
  change o.l + o.d + o.s = (seg o.items 1 dl.length).length + src.length at hcount
  have hseg := emptied_seg hdl hcells
  rw [← hseg]
  apply mergeItems_spec hsrc hcount
  · intro hzero
    have hnil : src.list = [] := by
      unfold Dpl.list
      rw [hzero]
      rfl
    have hall : dl.list.filter (fun y => !hit [] y) = dl.list :=
      List.filter_eq_self.mpr fun _ _ => rfl
    rw [hseg, hnil, hall]
    exact hdl.full
  · rw [hseg]
    exact hdl.spans.ascending.sublist List.filter_sublist
  · rw [hseg]
    intro x hx y hy heq
    have hno : hit src.list x = false := by simpa using (List.mem_filter.mp hx).2
    have hposx := hdl.spans.pos x (List.mem_filter.mp hx).1
    have hposy := hsrc.spans.pos y hy
    have := hit_false_disjoint hno hy
    unfold Disjoint Item.endPgno at this
    omega

/-- The parent's items that stay. -/
def kept (parent nested : Txn) (base : Nat) (x : Item) : Bool :=
  passes parent nested base x && !hit nested.dirtylist.list x

/-- The items none of whose pages is in a nested item, in another list or in the refunded tail. -/
def untouched (parent nested : Txn) (base : Nat) (x : Item) : Bool :=
  !hit nested.dirtylist.list x ∧ x.endPgno ≤ parent.firstUnallocated ∧
    ∀ p ∈ movedPages parent nested base, p < x.pgno ∨ x.endPgno ≤ p

theorem kept_of_untouched {parent nested : Txn} {base : Nat} {x : Item} (hpos : 0 < x.npages)
    (h : untouched parent nested base x = true) : kept parent nested base x = true := by
  have h' := of_decide_eq_true h
  obtain ⟨hno, hend, hmoved⟩ := h'
  unfold kept passes
  rw [hno, Bool.and_true]
  apply decide_eq_true
  unfold Item.endPgno at hend hmoved
  refine ⟨by omega, ?_⟩
  intro hin
  have := hmoved _ hin
  omega

theorem spans_of_merged {n : Nat} {all : List Item} {items : Nat → Option Item}
    (h : Merged n all items) (hd : all.Pairwise Disjoint) (hpos : ∀ x ∈ all, 0 < x.npages) :
    Spans (seg items 1 n) := by
  apply spans_of_disjoint
  · exact (h.perm.pairwise_iff disjoint_symm).mpr hd
  · exact h.ascending.imp Nat.le_of_lt
  · intro x hx
    exact hpos x (h.perm.subset hx)

theorem sieve_kept (b : Build) {parent nested : Txn} (base : Nat) (h : Mergeable parent nested) :
    ((sieve b parent nested base).dirtylist.list.filter
      fun y => !hit (txnDplSort nested.dirtylist).list y).Perm
        (parent.dirtylist.list.filter (kept parent nested base)) := by
  have hsperm := (txnDplSort_spec h.nestedItems).2.1
  have hdperm := (txnDplSort_spec h.parentItems).2.1
  rw [(sieve_filtered b base h).list, List.filter_filter]
  have hsame : ((txnDplSort parent.dirtylist).list.filter fun y =>
      !hit (txnDplSort nested.dirtylist).list y && passes parent nested base y) =
      (txnDplSort parent.dirtylist).list.filter (kept parent nested base) := by
    apply List.filter_congr
    intro y _
    unfold kept
    rw [hit_perm hsperm, Bool.and_comm]
  exact (List.Perm.of_eq hsame).trans (hdperm.filter _)

theorem kept_disjoint {parent nested : Txn} (base : Nat) (h : Mergeable parent nested) :
    (nested.dirtylist.list ++ parent.dirtylist.list.filter (kept parent nested base)).Pairwise
      Disjoint := by
  refine List.pairwise_append.mpr ⟨h.nestedItems.disjoint,
    h.parentItems.disjoint.sublist List.filter_sublist, ?_⟩
  intro x hx y hy
  have hk := (List.mem_filter.mp hy).2
  unfold kept at hk
  have hno : hit nested.dirtylist.list y = false := by
    simpa using (Bool.and_eq_true_iff.mp hk).2
  exact disjoint_symm (hit_false_disjoint hno hx)

/-- After `nested_merge` the parent's dirty list has the nested items and those of its own that
overlap none of them and whose first page is in no other list and not refunded.  It is sorted and has
no empty cell, its page count is right and the sum of room and length is what it was.  Where the
first page stands for the whole item, the items that stay are the untouched ones. -/
theorem nestedMerge_exact (b : Build) {parent nested : Txn} (base : Nat) (headers : Nat → Header)
    (h : Mergeable parent nested) :
    let out := (nestedMerge b parent nested base headers).1
    Sorted out.dirtylist ∧
      out.dirtylist.list.Perm
        (nested.dirtylist.list ++ parent.dirtylist.list.filter (kept parent nested base)) ∧
      out.dirtylist.pagesIncludingLoose = (out.dirtylist.list.map Item.npages).sum ∧
      out.dirtyroom + out.dirtylist.length = parent.dirtyroom + parent.dirtylist.length ∧
      ((∀ x ∈ parent.dirtylist.list, kept parent nested base x = true →
          untouched parent nested base x = true) →
        out.dirtylist.list.Perm
          (nested.dirtylist.list ++
            parent.dirtylist.list.filter (untouched parent nested base))) := by
  intro out
  obtain ⟨hsrc, hsperm, hslen⟩ := txnDplSort_spec h.nestedItems
  have hdlen := (txnDplSort_spec h.parentItems).2.2
  have hsieve := sieve_filtered b base h
  have hmerge := merge_result hsrc hsieve.sorted parent.frontTxnid headers
  have hperm : out.dirtylist.list.Perm
      (nested.dirtylist.list ++ parent.dirtylist.list.filter (kept parent nested base)) :=
    hmerge.perm.trans (List.perm_append_comm.trans (hsperm.append (sieve_kept b base h)))
  have hpos : ∀ x ∈ nested.dirtylist.list ++
      parent.dirtylist.list.filter (kept parent nested base), 0 < x.npages := by
    intro x hx
    rcases List.mem_append.mp hx with hx | hx
    · exact h.nestedItems.pos x hx
    · exact h.parentItems.pos x (List.mem_filter.mp hx).1
  have hspans := spans_of_merged ⟨hmerge.full, hmerge.ascending, hperm⟩ (kept_disjoint base h) hpos
  refine ⟨⟨hmerge.full, rfl, hspans⟩, hperm, countPages_eq hmerge.full, ?_, ?_⟩
  · -- the nested items fit into the room of the parent, so the difference is not cut off at zero
    have hroom := hsieve.room
    have hlimit := h.room
    have hlen := hperm.length_eq
    have hfull := hmerge.full
    have hkept := (sieve_kept b base h).length_eq
    have hle : ((sieve b parent nested base).dirtylist.list.filter
        fun y => !hit (txnDplSort nested.dirtylist).list y).length ≤
        (sieve b parent nested base).dirtylist.length := by
      rw [← hsieve.sorted.full]
      exact List.length_filter_le _ _
    have hout : out.dirtylist.list.length = out.dirtylist.length := hfull
    have hsieved : (sieve b parent nested base).dirtylist.length ≤
        (txnDplSort parent.dirtylist).length := by
      rw [← hsieve.sorted.full, hsieve.list, ← (txnDplSort_spec h.parentItems).1.full]
      exact List.length_filter_le _ _
    have hnested := h.nestedItems.full
    rw [List.length_append] at hlen
    simp only at hroom
    change (sieve b parent nested base).dirtyroom + (sieve b parent nested base).dirtylist.length -
      out.dirtylist.length + out.dirtylist.length = parent.dirtyroom + parent.dirtylist.length
    omega
  · intro hwhole
    have hsame : parent.dirtylist.list.filter (kept parent nested base) =
        parent.dirtylist.list.filter (untouched parent nested base) := by
      apply List.filter_congr
      intro x hx
      apply Bool.eq_iff_iff.mpr
      exact ⟨hwhole x hx, kept_of_untouched (h.parentItems.pos x hx)⟩
    rw [← hsame]
    exact hperm

/-! ## 4. Samples -/

def sampleDirty (l : List Item) (sorted : Nat) : Dpl :=
  ⟨ofList l, l.length, sorted, (l.map Item.npages).sum⟩

def sampleTxn (dirty : List Item) (sorted room first : Nat) (repnl retired : List Nat)
    (spilled : Option (List Nat)) : Txn :=
  ⟨sampleDirty dirty sorted, room, 0, first, 8, Pnl.ofList repnl, Pnl.ofList retired,
    spilled.map fun l => ⟨Pnl.ofList l, intMax⟩⟩

/-- The large item at 20 overlaps four nested ones, 50 has been spilled, 60 reclaimed, 70 retired
and 90 refunded. -/
def sampleParent : Txn :=
  sampleTxn [⟨90, 1, 0⟩, ⟨20, 9, 1⟩, ⟨12, 1, 2⟩, ⟨50, 1, 3⟩, ⟨40, 2, 4⟩, ⟨60, 1, 5⟩, ⟨70, 1, 6⟩] 1 10
    80 [60, 33] [7, 70] none

def sampleNested : Txn :=
  sampleTxn [⟨21, 1, 10⟩, ⟨24, 1, 11⟩, ⟨35, 2, 12⟩] 3 7 80 [] [] (some [100])

theorem descending_ofList {l : List Nat} (h : l.Pairwise (· ≥ ·)) :
    Descending (Pnl.ofList l).cells (Pnl.ofList l).size where
  le := by
    intro j k hlo hjk hk
    change k ≤ l.length at hk
    change l.getD (k - 1) 0 ≤ l.getD (j - 1) 0
    rw [List.getD_eq_getElem?_getD, List.getD_eq_getElem?_getD,
      List.getElem?_eq_getElem (show k - 1 < l.length by omega),
      List.getElem?_eq_getElem (show j - 1 < l.length by omega)]
    simp only [Option.getD_some]
    by_cases heq : j = k
    · subst heq
      exact Nat.le_refl _
    · exact List.pairwise_iff_getElem.mp h (j - 1) (k - 1) (by omega) (by omega) (by omega)

theorem sample_mergeable : Mergeable sampleParent sampleNested where
  parentItems := ⟨by decide, by decide, by decide, ⟨by decide, by decide⟩⟩
  nestedItems := ⟨by decide, by decide, by decide, ⟨by decide, by decide⟩⟩
  room := rfl
  repnl := descending_ofList (by decide)
  spilled := by
    intro sp hsp
    cases hsp
    exact descending_ofList (by decide)

def sampleHeaders (_ : Nat) : Header := ⟨9, false, false⟩

theorem nestedMerge_exact_sample :
    Mergeable sampleParent sampleNested ∧
      (nestedMerge ⟨false, true⟩ sampleParent sampleNested 1 sampleHeaders).1.dirtylist.list.Perm
        [⟨21, 1, 10⟩, ⟨24, 1, 11⟩, ⟨35, 2, 12⟩, ⟨12, 1, 2⟩, ⟨40, 2, 4⟩] :=
  ⟨sample_mergeable, (nestedMerge_exact ⟨false, true⟩ 1 sampleHeaders sample_mergeable).2.1⟩

/-- A page in the middle of a parent item is in `repnl`, its first page is not. -/
def splitParent : Txn := sampleTxn [⟨100, 4, 1⟩] 1 10 200 [102] [] none

def emptyNested : Txn := sampleTxn [] 0 10 200 [] [] none

theorem split_mergeable : Mergeable splitParent emptyNested where
  parentItems := ⟨by decide, by decide, by decide, ⟨by decide, by decide⟩⟩
  nestedItems := ⟨by decide, by decide, by decide, ⟨by decide, by decide⟩⟩
  room := rfl
  repnl := descending_ofList (by decide)
  spilled := by
    intro sp hsp
    cases hsp

theorem nestedMerge_keeps_split_item :
    Mergeable splitParent emptyNested ∧ splitParent.spilled = none ∧ emptyNested.spilled = none ∧
      splitParent.dirtylist.list.filter (untouched splitParent emptyNested 0) = [] ∧
      (nestedMerge ⟨false, true⟩ splitParent emptyNested 0 sampleHeaders).1.dirtylist.list =
        [⟨100, 4, 1⟩] ∧
      ¬ (nestedMerge ⟨false, true⟩ splitParent emptyNested 0 sampleHeaders).1.dirtylist.list.Perm
        (emptyNested.dirtylist.list ++
          splitParent.dirtylist.list.filter (untouched splitParent emptyNested 0)) :=
  ⟨split_mergeable, rfl, rfl, by decide, by decide, by decide⟩

end Mdbx.Nested
