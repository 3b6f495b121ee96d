import Mdbx.DirtyList.Model

/-!
# DirtyList.Sorting — the list in order

However the list is sorted, its items stay the same and the stubs in their places.  The merge fills
the list from its end; what it has placed is in order and after all that is still to be placed.
-/

namespace Mdbx.DirtyList

open Buffer

/-- In the order of page numbers. -/
def Ascends (l : List Dp) : Prop := l.Pairwise fun x y => x.pgno < y.pgno

theorem insertionSort_ascends {l : List Dp} (hdistinct : (l.map Dp.pgno).Nodup) :
    Ascends (l.insertionSort fun x y => x.pgno ≤ y.pgno) := by
  have htotal : Std.Total (fun x y : Dp => x.pgno ≤ y.pgno) := ⟨fun x y => Nat.le_total _ _⟩
  have htrans : IsTrans Dp (fun x y => x.pgno ≤ y.pgno) := ⟨fun _ _ _ h h' => Nat.le_trans h h'⟩
  have hle := List.pairwise_insertionSort (fun x y : Dp => x.pgno ≤ y.pgno) l
  have hperm := List.perm_insertionSort (fun x y : Dp => x.pgno ≤ y.pgno) l
  have hne := List.pairwise_map.mp ((hperm.map Dp.pgno).nodup_iff.mpr hdistinct)
  exact hle.imp₂ (fun x y hxy (hxy' : x.pgno ≠ y.pgno) => Nat.lt_of_le_of_ne hxy hxy') hne

/-! ## 1. A part of the array -/

theorem dpSort_spec (items : Nat → Dp) {lo n : Nat}
    (hdistinct : ((slice items lo n).map Dp.pgno).Nodup) :
    Ascends (slice (dpSort items lo n) lo n) ∧
    (slice (dpSort items lo n) lo n).Perm (slice items lo n) ∧
    ∀ j, j < lo ∨ lo + n ≤ j → dpSort items lo n j = items j := by
  have hlength : ((slice items lo n).insertionSort fun x y => x.pgno ≤ y.pgno).length = n := by
    rw [List.length_insertionSort, slice_length]
  have hslice : slice (dpSort items lo n) lo n =
      (slice items lo n).insertionSort fun x y => x.pgno ≤ y.pgno := by
    have hstore := slice_store items lo
      ((slice items lo n).insertionSort fun x y => x.pgno ≤ y.pgno)
    rw [hlength] at hstore
    exact hstore
  refine ⟨?_, ?_, fun j hj => store_outside items (by rw [hlength]; exact hj)⟩
  · rw [hslice]
    exact insertionSort_ascends hdistinct
  · rw [hslice]
    exact List.perm_insertionSort _ _

/-! ## 2. The merge of head and tail -/

section Merge

variable {items : Nat → Dp} {first : Nat → Dp} {sorted length tmp w l r : Nat}

/-- The head and the sorted copy of the tail, before the merge. -/
structure Parted (first : Nat → Dp) (sorted length tmp : Nat) : Prop where
  stub : (first 0).pgno = 0
  le : sorted ≤ length
  behind : length + 1 < tmp
  head : Ascends (slice first 1 sorted)
  tail : Ascends (slice first tmp (length - sorted))
  distinct : ∀ i j, 1 ≤ i → i ≤ sorted → tmp ≤ j → j < tmp + (length - sorted) →
    (first i).pgno ≠ (first j).pgno

/-- The items behind `w` are placed. -/
structure Merging (first : Nat → Dp) (sorted length tmp : Nat) (items : Nat → Dp)
    (w l r : Nat) : Prop where
  place : w + tmp = l + (r + 1)
  left : l ≤ sorted
  right : r < tmp + (length - sorted)
  ends : tmp ≤ r + 1
  below : ∀ i ≤ l, items i = first i
  above : ∀ i, length < i → items i = first i
  ascends : Ascends (slice items (w + 1) (length - w))
  perm : (slice items (w + 1) (length - w)).Perm
    (slice first (l + 1) (sorted - l) ++ slice first (r + 1) (tmp + (length - sorted) - (r + 1)))
  beyond : ∀ x ∈ slice items (w + 1) (length - w),
    (1 ≤ l → (first l).pgno < x.pgno) ∧ (tmp ≤ r → (first r).pgno < x.pgno)

-- the next item in front of those that are placed
theorem slice_placed (items : Nat → Dp) {w length : Nat} (v : Dp) (hw : 1 ≤ w) (hle : w ≤ length) :
    slice (set items w v) (w - 1 + 1) (length - (w - 1)) =
      v :: slice items (w + 1) (length - w) := by
  rw [show length - (w - 1) = length - w + 1 by omega, Nat.sub_add_cancel hw, slice_set_first]

theorem Merging.takeHead (hp : Parted first sorted length tmp)
    (h : Merging first sorted length tmp items w l r) (hl : 1 ≤ l) (hr : tmp ≤ r)
    (hless : (first r).pgno < (first l).pgno) :
    Merging first sorted length tmp (set items w (first l)) (w - 1) (l - 1) r := by
  have hplace := h.place
  have hleft := h.left
  have hright := h.right
  have hle := hp.le
  have hbehind := hp.behind
  have hslice := slice_placed items (first l) (show 1 ≤ w by omega) (show w ≤ length by omega)
  constructor
  · omega
  · omega
  · exact h.right
  · exact h.ends
  · intro i hi
    rw [set_of_ne _ _ (by omega)]
    exact h.below i (by omega)
  · intro i hi
    rw [set_of_ne _ _ (by omega)]
    exact h.above i hi
  · rw [hslice]
    exact List.pairwise_cons.mpr ⟨fun x hx => (h.beyond x hx).1 hl, h.ascends⟩
  · rw [hslice, show sorted - (l - 1) = sorted - l + 1 by omega, Nat.sub_add_cancel hl, slice_cons]
    exact h.perm.cons _
  · rw [hslice]
    intro x hx
    have hprev : 1 ≤ l - 1 → (first (l - 1)).pgno < (first l).pgno := fun hpos =>
      pairwise_slice.mp hp.head (l - 1) l hpos (by omega) (by omega)
    rcases List.mem_cons.mp hx with rfl | hx
    · exact ⟨hprev, fun _ => hless⟩
    · have hbeyond := h.beyond x hx
      exact ⟨fun hpos => (hprev hpos).trans (hbeyond.1 hl), hbeyond.2⟩

theorem Merging.takeTail (hp : Parted first sorted length tmp)
    (h : Merging first sorted length tmp items w l r) (hr : tmp ≤ r)
    (hless : 1 ≤ l → (first l).pgno < (first r).pgno) :
    Merging first sorted length tmp (set items w (first r)) (w - 1) l (r - 1) := by
  have hplace := h.place
  have hleft := h.left
  have hright := h.right
  have hle := hp.le
  have hbehind := hp.behind
  have hslice := slice_placed items (first r) (show 1 ≤ w by omega) (show w ≤ length by omega)
  constructor
  · omega
  · exact h.left
  · omega
  · omega
  · intro i hi
    rw [set_of_ne _ _ (by omega)]
    exact h.below i hi
  · intro i hi
    rw [set_of_ne _ _ (by omega)]
    exact h.above i hi
  · rw [hslice]
    exact List.pairwise_cons.mpr ⟨fun x hx => (h.beyond x hx).2 hr, h.ascends⟩
  · rw [hslice, show tmp + (length - sorted) - (r - 1 + 1) =
      tmp + (length - sorted) - (r + 1) + 1 by omega, show r - 1 + 1 = r by omega, slice_cons]
    exact (h.perm.cons _).trans List.perm_middle.symm
  · rw [hslice]
    intro x hx
    have hprev : tmp ≤ r - 1 → (first (r - 1)).pgno < (first r).pgno := fun hpos =>
      pairwise_slice.mp hp.tail (r - 1) r hpos (by omega) (by omega)
    rcases List.mem_cons.mp hx with rfl | hx
    · exact ⟨hless, hprev⟩
    · have hbeyond := h.beyond x hx
      exact ⟨hbeyond.1, fun hpos => (hprev hpos).trans (hbeyond.2 hr)⟩

theorem mergeLoop_spec (hp : Parted first sorted length tmp) {fuel : Nat} (hfuel : w ≤ fuel)
    (hmore : l < w) (h : Merging first sorted length tmp items w l r) :
    ∃ l', Merging first sorted length tmp (mergeLoop fuel items w l r) l' l' (tmp - 1) := by
  have hstub := hp.stub
  have hbehind := hp.behind
  induction fuel generalizing items w l r with
  | zero => omega
  | succ fuel ih =>
      have hplace := h.place
      have hright := h.right
      have hle := hp.le
      have hr : tmp ≤ r := by omega
      have hcell : items r = first r := h.above r (by omega)
      have hhead : items l = first l := h.below l (Nat.le_refl l)
      rw [mergeLoop, hcell, hhead]
      by_cases hcmp : (first r).pgno < (first l).pgno
      · simp only [hcmp, decide_true, if_true]
        have hl : 1 ≤ l := by
          by_contra hzero
          have hz : l = 0 := by omega
          rw [hz, hstub] at hcmp
          exact absurd hcmp (Nat.not_lt_zero _)
        have hnext := h.takeHead hp hl hr hcmp
        rw [if_pos (by omega)]
        exact ih (by omega) (by omega) hnext
      · simp only [hcmp, decide_false, if_false, Bool.false_eq_true]
        have hless : 1 ≤ l → (first l).pgno < (first r).pgno := by
          intro hl
          have hne := hp.distinct l r hl h.left hr h.right
          omega
        have hnext := h.takeTail hp hr hless
        by_cases hdone : l < w - 1
        · rw [if_pos hdone]
          exact ih (by omega) hdone hnext
        · rw [if_neg hdone]
          have hw : w - 1 = l := by omega
          have hend : r - 1 = tmp - 1 := by omega
          rw [hw, hend] at hnext
          exact ⟨l, hnext⟩

/-- The merge of the whole: head and tail are one list in order. -/
theorem mergeLoop_merges (hp : Parted first sorted length tmp) (hmore : sorted < length) :
    let merged := mergeLoop length first length sorted (tmp + (length - sorted) - 1)
    Ascends (slice merged 1 length) ∧
    (slice merged 1 length).Perm (slice first 1 sorted ++ slice first tmp (length - sorted)) ∧
    merged 0 = first 0 ∧ merged (length + 1) = first (length + 1) := by
  have hle := hp.le
  have hbehind := hp.behind
  have hstart : Merging first sorted length tmp first length sorted
      (tmp + (length - sorted) - 1) := by
    constructor
    · omega
    · exact Nat.le_refl _
    · omega
    · omega
    · exact fun _ _ => rfl
    · exact fun _ _ => rfl
    · rw [Nat.sub_self]
      exact List.Pairwise.nil
    · rw [Nat.sub_self, Nat.sub_self, show tmp + (length - sorted) -
        (tmp + (length - sorted) - 1 + 1) = 0 by omega]
      exact .refl _
    · rw [Nat.sub_self]
      exact nofun
  obtain ⟨l, h⟩ := mergeLoop_spec hp (Nat.le_refl length) hmore hstart
  dsimp only
  generalize mergeLoop length first length sorted (tmp + (length - sorted) - 1) = merged at h
  have hleft := h.left
  have hsplit : slice merged 1 length = slice first 1 l ++ slice merged (l + 1) (length - l) := by
    rw [slice_at merged (hleft.trans hle), slice_congr fun i _ hi => h.below i (by omega)]
  refine ⟨?_, ?_, h.below 0 (Nat.zero_le l), h.above (length + 1) (Nat.lt_succ_self length)⟩
  · rw [hsplit]
    refine List.pairwise_append.mpr ⟨?_, h.ascends, ?_⟩
    · exact pairwise_slice.mpr fun i j hi hij hj =>
        pairwise_slice.mp hp.head i j hi hij (by omega)
    · intro x hx y hy
      obtain ⟨i, hi, hil, rfl⟩ := mem_slice.mp hx
      have hlast := (h.beyond y hy).1 (by omega)
      by_cases hsame : i = l
      · exact hsame ▸ hlast
      · exact (pairwise_slice.mp hp.head i l hi (by omega) (by omega)).trans hlast
  · rw [hsplit]
    have hperm := h.perm
    rw [show tmp - 1 + 1 = tmp by omega, show tmp + (length - sorted) - tmp =
      length - sorted by omega] at hperm
    rw [slice_at first hleft, List.append_assoc]
    exact hperm.append_left _

end Merge

/-! ## 3. The whole list -/

/-- What holds of the list all the time. -/
structure Inv (dl : Dpl) : Prop where
  begins : dl.items 0 = stubB
  ends : dl.items (dl.length + 1) = stubE
  head : dl.sorted ≤ dl.length
  ascends : Ascends (slice dl.items 1 dl.sorted)
  distinct : (dl.list.map Dp.pgno).Nodup
  pages : ∀ x ∈ dl.list, 0 < x.pgno ∧ x.pgno < pInvalid
  counted : dl.pagesIncludingLoose = (dl.list.map Dp.npages).sum

/-- The same items in order. -/
structure SortedFrom (dl dl' : Dpl) : Prop where
  begins : dl'.items 0 = dl.items 0
  ends : dl'.items (dl.length + 1) = dl.items (dl.length + 1)
  length : dl'.length = dl.length
  sorted : dl'.sorted = dl.length
  counted : dl'.pagesIncludingLoose = dl.pagesIncludingLoose
  ascends : Ascends dl'.list
  perm : dl'.list.Perm dl.list

variable {dl dl' : Dpl}

theorem Inv.of_sorted (h : Inv dl) (hs : SortedFrom dl dl') : Inv dl' := by
  constructor
  · exact hs.begins.trans h.begins
  · rw [hs.length]
    exact hs.ends.trans h.ends
  · rw [hs.sorted, hs.length]
  · have hascends := hs.ascends
    unfold Dpl.list at hascends
    rwa [hs.length, ← hs.sorted] at hascends
  · exact (hs.perm.map Dp.pgno).nodup_iff.mpr h.distinct
  · exact fun x hx => h.pages x (hs.perm.mem_iff.mp hx)
  · rw [hs.counted, h.counted]
    exact ((hs.perm.map Dp.npages).sum_eq).symm

theorem dpSort_whole (h : Inv dl) :
    SortedFrom dl { dl with items := dpSort dl.items 1 dl.length, sorted := dl.length } := by
  obtain ⟨hascends, hperm, hrest⟩ := dpSort_spec dl.items h.distinct
  exact ⟨hrest 0 (by omega), hrest _ (by omega), rfl, rfl, rfl, hascends, hperm⟩

/-- Head and copied tail, when the copy is behind the list. -/
theorem parted_of_inv (h : Inv dl) {tmp : Nat} (hbehind : dl.length + 1 < tmp) :
    let first := dpSort (copyBlock dl.items tmp (dl.sorted + 1) (dl.length - dl.sorted)) tmp
      (dl.length - dl.sorted)
    Parted first dl.sorted dl.length tmp ∧
    (slice first 1 dl.sorted ++ slice first tmp (dl.length - dl.sorted)).Perm dl.list ∧
    ∀ i ≤ dl.length + 1, first i = dl.items i := by
  have hdistinct := h.distinct
  unfold Dpl.list at hdistinct ⊢
  rw [slice_at dl.items h.head, List.map_append, List.nodup_append] at hdistinct
  obtain ⟨-, htail, hapart⟩ := hdistinct
  have hcopy := slice_copyBlock dl.items tmp (dl.sorted + 1) (dl.length - dl.sorted)
  obtain ⟨hascends, hperm, hrest⟩ := dpSort_spec
    (copyBlock dl.items tmp (dl.sorted + 1) (dl.length - dl.sorted))
    (n := dl.length - dl.sorted) (by rw [hcopy]; exact htail)
  dsimp only
  generalize dpSort (copyBlock dl.items tmp (dl.sorted + 1) (dl.length - dl.sorted)) tmp
    (dl.length - dl.sorted) = first at *
  have hfront : ∀ i ≤ dl.length + 1, first i = dl.items i := by
    intro i hi
    rw [hrest i (by omega), copyBlock_outside dl.items (by omega)]
  have hhead : slice first 1 dl.sorted = slice dl.items 1 dl.sorted := by
    have hle := h.head
    exact slice_congr fun i _ hi => hfront i (by omega)
  rw [hcopy] at hperm
  refine ⟨⟨?_, h.head, hbehind, ?_, hascends, ?_⟩, ?_, hfront⟩
  · rw [hfront 0 (Nat.zero_le _), h.begins]
    rfl
  · rw [hhead]
    exact h.ascends
  · intro i j hi his hj hjt
    have hx : first i ∈ slice dl.items 1 dl.sorted := by
      rw [← hhead]
      exact mem_slice.mpr ⟨i, hi, by omega, rfl⟩
    have hy : first j ∈ slice dl.items (dl.sorted + 1) (dl.length - dl.sorted) :=
      hperm.mem_iff.mp (mem_slice.mpr ⟨j, hj, hjt, rfl⟩)
    exact hapart _ (List.mem_map_of_mem hx) _ (List.mem_map_of_mem hy)
  · rw [hhead, slice_at dl.items h.head]
    exact hperm.append_left _

theorem mergeTail_sorted (h : Inv dl) (hmore : dl.sorted < dl.length) {last : Nat}
    (hlast : dl.length + 1 + (dl.length - dl.sorted) < last) :
    SortedFrom dl { dl with
      items := mergeTail dl.items dl.sorted dl.length last, sorted := dl.length } := by
  obtain ⟨hparted, hperm, hfront⟩ := parted_of_inv h
    (show dl.length + 1 < last - (dl.length - dl.sorted) by omega)
  obtain ⟨hascends, hmerged, hbegins, hends⟩ := mergeLoop_merges hparted hmore
  have hend : last - (dl.length - dl.sorted) + (dl.length - dl.sorted) - 1 = last - 1 := by omega
  rw [hend] at hascends hmerged hbegins hends
  exact ⟨hbegins.trans (hfront 0 (Nat.zero_le _)), hends.trans (hfront _ (Nat.le_refl _)), rfl, rfl,
    rfl, hascends, hmerged.trans hperm⟩

/-- The slow path sorts the list in each of its ways. -/
theorem slowpath_sorted (c : Config) (memory : Bool) (h : Inv dl) (hmore : dl.sorted < dl.length) :
    SortedFrom dl (txnDplSortSlowpath c memory dl) := by
  have hle := h.head
  unfold txnDplSortSlowpath
  dsimp only
  split
  · split
    · rename_i hmerge
      refine mergeTail_sorted h hmore ?_
      obtain ⟨hlong, hroom⟩ := hmerge
      by_cases hprealloc : c.prealloc = true
      · rw [if_pos hprealloc]
        omega
      · rw [if_neg hprealloc]
        have hgap := hroom.resolve_left hprealloc
        unfold dplReserveGap dplGapMergesort at *
        omega
    · exact dpSort_whole h
  · exact dpSort_whole h

theorem txnDplSort_sorted (c : Config) (memory : Bool) (h : Inv dl) :
    SortedFrom dl (txnDplSort c memory dl) := by
  unfold txnDplSort
  by_cases hall : dl.sorted = dl.length
  · rw [if_pos hall]
    have hascends := h.ascends
    rw [hall] at hascends
    exact ⟨rfl, rfl, rfl, hall, rfl, hascends, .refl _⟩
  · rw [if_neg hall]
    have hle := h.head
    exact slowpath_sorted c memory h (by omega)

end Mdbx.DirtyList
