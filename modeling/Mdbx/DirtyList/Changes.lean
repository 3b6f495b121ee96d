import Mdbx.DirtyList.Sorting

/-!
# DirtyList.Changes — one item more or less

An append puts the item behind the tail or in its place in the head, with the stub moved on; a removal
closes the gap up to the stub.
-/

namespace Mdbx.DirtyList

open Buffer

variable {dl dl' : Dpl} {dp : Dp}

/-! ## 1. An insertion -/

/-- The cells with the item behind the first `k` ones. -/
structure InsertedAt (dl : Dpl) (dp : Dp) (k : Nat) (items : Nat → Dp) : Prop where
  le : k ≤ dl.length
  before : ∀ j ≤ k, items j = dl.items j
  here : items (k + 1) = dp
  after : ∀ j, k + 1 < j → j ≤ dl.length + 2 → items j = dl.items (j - 1)

theorem InsertedAt.slice {k : Nat} {items : Nat → Dp} (h : InsertedAt dl dp k items) {n : Nat}
    (hk : k ≤ n) (hn : n ≤ dl.length) :
    Buffer.slice items 1 (n + 1) =
      Buffer.slice dl.items 1 k ++ dp :: Buffer.slice dl.items (k + 1) (n - k) := by
  rw [slice_split (i := k + 1) (by omega) (by omega), h.here, Nat.add_sub_cancel,
    slice_congr fun j _ hj => h.before j (by omega)]
  congr 2
  rw [show 1 + (n + 1) - (k + 1 + 1) = n - k by omega]
  refine slice_shift fun j hj => ?_
  rw [h.after (k + 1 + 1 + j) (by omega) (by omega)]
  congr 1
  omega

/-- What an append leaves of the list, with one more item. -/
structure Appended (dl : Dpl) (dp : Dp) (dl' : Dpl) : Prop where
  inv : Inv dl'
  perm : dl'.list.Perm (dp :: dl.list)

theorem InsertedAt.appended (h : Inv dl) (hpage : 0 < dp.pgno ∧ dp.pgno < pInvalid)
    (hnew : dp.pgno ∉ dl.list.map Dp.pgno) {k : Nat} {items : Nat → Dp}
    (hat : InsertedAt dl dp k items) {sorted : Nat} (hsorted : sorted ≤ dl.length + 1)
    (hascends : Ascends (Buffer.slice items 1 sorted)) (detent : Nat) :
    Appended dl dp (Dpl.mk sorted (dl.length + 1) (dl.pagesIncludingLoose + dp.npages) detent
      items) := by
  have hperm : (Buffer.slice items 1 (dl.length + 1)).Perm (dp :: dl.list) := by
    rw [hat.slice hat.le (Nat.le_refl _)]
    unfold Dpl.list
    rw [slice_at _ hat.le]
    exact List.perm_middle
  refine ⟨?_, hperm⟩
  constructor
  · exact (hat.before 0 (Nat.zero_le k)).trans h.begins
  · change items (dl.length + 1 + 1) = stubE
    have hle := hat.le
    rw [hat.after _ (by omega) (by omega)]
    exact h.ends
  · exact hsorted
  · exact hascends
  · refine (hperm.map Dp.pgno).nodup_iff.mpr ?_
    exact List.nodup_cons.mpr ⟨hnew, h.distinct⟩
  · intro x hx
    rcases List.mem_cons.mp (hperm.mem_iff.mp hx) with rfl | hx
    · exact hpage
    · exact h.pages x hx
  · change dl.pagesIncludingLoose + dp.npages = ((Buffer.slice items 1 _).map Dp.npages).sum
    rw [(hperm.map Dp.npages).sum_eq, List.map_cons, List.sum_cons, h.counted, Nat.add_comm]

/-- The scan down the head moves the items with a greater page number on by one. -/
theorem insertScan_spec (pgno : Nat) : ∀ (sorted : Nat) (items : Nat → Dp),
    (insertScan pgno items sorted).2 ≤ sorted ∧
    (∀ j, j ≤ (insertScan pgno items sorted).2 ∨ sorted + 1 < j →
      (insertScan pgno items sorted).1 j = items j) ∧
    (∀ j, (insertScan pgno items sorted).2 + 1 < j → j ≤ sorted + 1 →
      (insertScan pgno items sorted).1 j = items (j - 1)) ∧
    (1 ≤ (insertScan pgno items sorted).2 →
      (items (insertScan pgno items sorted).2).pgno ≤ pgno) ∧
    ∀ j, (insertScan pgno items sorted).2 < j → j ≤ sorted → pgno < (items j).pgno
  | 0, items => by
      refine ⟨Nat.le_refl _, fun _ _ => rfl, fun j hj hle => ?_, fun h => ?_, fun j hj hle => ?_⟩
      · rw [insertScan] at hj
        omega
      · rw [insertScan] at h
        omega
      · rw [insertScan] at hj
        omega
  | sorted + 1, items => by
      rw [insertScan]
      by_cases hmore : pgno < (items (sorted + 1)).pgno
      · rw [if_pos hmore]
        obtain ⟨hle, hsame, hmoved, hstop, hgreater⟩ :=
          insertScan_spec pgno sorted (set items (sorted + 2) (items (sorted + 1)))
        refine ⟨by omega, fun j hj => ?_, fun j hj hjle => ?_, fun h => ?_, fun j hj hjle => ?_⟩
        · rw [hsame j (by omega), set_of_ne _ _ (by omega)]
        · by_cases hlast : j = sorted + 2
          · rw [hsame j (by omega), hlast, set_self]
            rfl
          · rw [hmoved j hj (by omega), set_of_ne _ _ (by omega)]
        · have hbound := hstop h
          rwa [set_of_ne _ _ (by omega)] at hbound
        · by_cases hlast : j = sorted + 1
          · exact hlast ▸ hmore
          · have hbound := hgreater j hj (by omega)
            rwa [set_of_ne _ _ (by omega)] at hbound
      · rw [if_neg hmore]
        refine ⟨Nat.le_refl _, fun _ _ => rfl, fun j hj hle => ?_, fun _ => ?_, fun j hj hle => ?_⟩
        · exact absurd hle (by omega)
        · exact Nat.le_of_not_lt hmore
        · exact absurd hle (by omega)

/-- The tail is moved on by one, with the stub behind it. -/
theorem moveUp_tail (h : dl.sorted ≤ dl.length) :
    let shifted := moveUp (set dl.items (dl.length + 2) (dl.items (dl.length + 1)))
      (dl.sorted + 1) 1 (dl.length - dl.sorted)
    (∀ j ≤ dl.sorted, shifted j = dl.items j) ∧
    ∀ j, dl.sorted + 1 < j → j ≤ dl.length + 2 → shifted j = dl.items (j - 1) := by
  constructor
  · intro j hj
    rw [moveUp_apply, if_neg (by omega), set_of_ne _ _ (by omega)]
  · intro j hj hle
    rw [moveUp_apply]
    by_cases hlast : j = dl.length + 2
    · rw [if_neg (by omega), hlast, set_self]
      rfl
    · rw [if_pos (by omega), set_of_ne _ _ (by omega)]

/-- The place in the head is after all smaller page numbers. -/
theorem insertedAt_head (h : Inv dl) (hnew : dp.pgno ∉ dl.list.map Dp.pgno) :
    let shifted := moveUp (set dl.items (dl.length + 2) (dl.items (dl.length + 1)))
      (dl.sorted + 1) 1 (dl.length - dl.sorted)
    let place := insertScan dp.pgno shifted dl.sorted
    InsertedAt dl dp place.2 (set place.1 (place.2 + 1) dp) ∧ place.2 ≤ dl.sorted ∧
    Ascends (Buffer.slice (set place.1 (place.2 + 1) dp) 1 (dl.sorted + 1)) := by
  have hhead := h.head
  dsimp only
  obtain ⟨hfront, htail⟩ := moveUp_tail hhead
  generalize moveUp (set dl.items (dl.length + 2) (dl.items (dl.length + 1))) (dl.sorted + 1) 1
    (dl.length - dl.sorted) = shifted at *
  obtain ⟨hle, hsame, hmoved, hstop, hgreater⟩ := insertScan_spec dp.pgno dl.sorted shifted
  generalize insertScan dp.pgno shifted dl.sorted = place at *
  have hat : InsertedAt dl dp place.2 (set place.1 (place.2 + 1) dp) := by
    refine ⟨by omega, fun j hj => ?_, set_self _ _ _, fun j hj hjle => ?_⟩
    · rw [set_of_ne _ _ (by omega), hsame j (.inl hj), hfront j (by omega)]
    · rw [set_of_ne _ _ (by omega)]
      by_cases hin : j ≤ dl.sorted + 1
      · rw [hmoved j hj hin, hfront (j - 1) (by omega)]
      · rw [hsame j (by omega), htail j (by omega) hjle]
  refine ⟨hat, hle, ?_⟩
  have hascends := pairwise_slice.mp h.ascends
  -- the item before the place has a smaller page number, as no item has the same
  have hless : ∀ x ∈ Buffer.slice dl.items 1 place.2, x.pgno < dp.pgno := by
    intro x hx
    obtain ⟨i, hi, hik, rfl⟩ := mem_slice.mp hx
    have hbound := hstop (by omega)
    rw [hfront place.2 hle] at hbound
    have hne : (dl.items i).pgno ≠ dp.pgno := fun heq =>
      hnew (heq ▸ List.mem_map_of_mem (mem_slice.mpr ⟨i, hi, by omega, rfl⟩))
    by_cases hlast : i = place.2
    · rw [hlast] at hne ⊢
      omega
    · have hlt := hascends i place.2 hi (by omega) (by omega)
      omega
  have hmore : ∀ y ∈ Buffer.slice dl.items (place.2 + 1) (dl.sorted - place.2),
      dp.pgno < y.pgno := by
    intro y hy
    obtain ⟨j, hj, hjs, rfl⟩ := mem_slice.mp hy
    have hbound := hgreater j (by omega) (by omega)
    rwa [hfront j (by omega)] at hbound
  rw [hat.slice hle hhead]
  refine List.pairwise_append.mpr ⟨?_, List.pairwise_cons.mpr ⟨hmore, ?_⟩, ?_⟩
  · exact pairwise_slice.mpr fun i j hi hij hj => hascends i j hi hij (by omega)
  · exact pairwise_slice.mpr fun i j hi hij hj => hascends i j (by omega) hij (by omega)
  · intro x hx y hy
    rcases List.mem_cons.mp hy with rfl | hy
    · exact hless x hx
    · exact (hless x hx).trans (hmore y hy)

/-- An item of a page that is not in the list yet. -/
theorem placeItem_appended (c : Config) (h : Inv dl)
    (hpage : 0 < dp.pgno ∧ dp.pgno < pInvalid) (hnew : dp.pgno ∉ dl.list.map Dp.pgno) :
    Appended dl dp (placeItem c dl dp) := by
  have hhead := h.head
  unfold placeItem
  dsimp only
  split
  · obtain ⟨hat, hle, hascends⟩ := insertedAt_head h hnew
    exact hat.appended h hpage hnew (by omega) hascends dl.detent
  · have hat : InsertedAt dl dp dl.length
        (set (set dl.items (dl.length + 2) (dl.items (dl.length + 1))) (dl.length + 1) dp) := by
      refine ⟨Nat.le_refl _, fun j hj => ?_, set_self _ _ _, fun j hj hjle => ?_⟩
      · rw [set_of_ne _ _ (by omega), set_of_ne _ _ (by omega)]
      · have hlast : j = dl.length + 2 := by omega
        rw [set_of_ne _ _ (by omega), hlast, set_self]
        rfl
    refine hat.appended h hpage hnew (Nat.le_succ_of_le hhead) ?_ dl.detent
    rw [slice_congr fun j _ hj => hat.before j (by omega)]
    exact h.ascends

/-- More room does not change the list. -/
theorem growList_inv (c : Config) (h : Inv dl) (answer : Option Nat) :
    Inv (growList c dl answer).2 ∧ (growList c dl answer).2.list = dl.list := by
  unfold growList
  split
  · split
    · exact ⟨h, rfl⟩
    · cases answer with
      | none => exact ⟨h, rfl⟩
      | some extra => exact ⟨{ h with }, rfl⟩
  · exact ⟨h, rfl⟩

/-- An append adds the item, or it fails and the list is as before. -/
theorem txnDplAppend_spec (c : Config) (h : Inv dl) (hpage : 0 < dp.pgno ∧ dp.pgno < pInvalid)
    (hnew : dp.pgno ∉ dl.list.map Dp.pgno) (answer : Option Nat) :
    Inv (txnDplAppend c dl dp answer).2 ∧
    ((txnDplAppend c dl dp answer).1 = .success →
      (txnDplAppend c dl dp answer).2.list.Perm (dp :: dl.list)) ∧
    ((txnDplAppend c dl dp answer).1 ≠ .success →
      (txnDplAppend c dl dp answer).2.list = dl.list) := by
  obtain ⟨hinv, hlist⟩ := growList_inv c h answer
  unfold txnDplAppend
  generalize growList c dl answer = grown at *
  obtain ⟨rc, grown⟩ := grown
  dsimp only at hinv hlist
  split
  · rename_i room heq
    cases heq
    have happended := placeItem_appended c hinv hpage (by rw [hlist]; exact hnew)
    refine ⟨happended.inv, fun _ => ?_, fun hno => absurd rfl hno⟩
    have hperm := happended.perm
    rwa [hlist] at hperm
  · rename_i hfailed
    refine ⟨hinv, fun hrc => ?_, fun _ => hlist⟩
    exact (hfailed grown (Prod.ext hrc rfl)).elim

/-! ## 2. A removal -/

theorem txnDplRemoveEx_spec (h : Inv dl) {i : Nat} (hi : 1 ≤ i) (hle : i ≤ dl.length) :
    Inv (txnDplRemoveEx dl i (dl.items i).npages) ∧
    dl.list.Perm (dl.items i :: (txnDplRemoveEx dl i (dl.items i).npages).list) := by
  have hhead := h.head
  have hcells : ∀ j, moveDown dl.items i (i + 1) (dl.length + 1 - i) j =
      if i ≤ j ∧ j < dl.length + 1 then dl.items (j + 1) else dl.items j := by
    intro j
    rw [moveDown_apply _ _ _ _ _ (Nat.le_succ i)]
    by_cases hin : i ≤ j ∧ j < dl.length + 1
    · rw [if_pos (by omega), if_pos hin]
      congr 1
      omega
    · rw [if_neg (by omega), if_neg hin]
  unfold txnDplRemoveEx Dpl.list
  dsimp only
  generalize moveDown dl.items i (i + 1) (dl.length + 1 - i) = items at *
  -- a part of the list without the item
  have hslice : ∀ n, i ≤ n → n ≤ dl.length → Buffer.slice items 1 (n - 1) =
      Buffer.slice dl.items 1 (i - 1) ++ Buffer.slice dl.items (i + 1) (n - i) := by
    intro n hin hn
    rw [slice_at _ (show i - 1 ≤ n - 1 by omega)]
    congr 1
    · exact slice_congr fun j _ hj => by rw [hcells, if_neg (by omega)]
    · rw [show n - 1 - (i - 1) = n - i by omega]
      refine slice_shift fun j hj => ?_
      rw [hcells, if_pos (by omega)]
      congr 1
      omega
  have hsplit : Buffer.slice dl.items 1 dl.length = Buffer.slice dl.items 1 (i - 1) ++
      dl.items i :: Buffer.slice dl.items (i + 1) (dl.length - i) := by
    rw [slice_split (i := i) hi (by omega), show 1 + dl.length - (i + 1) = dl.length - i by omega]
  have hperm : (Buffer.slice dl.items 1 dl.length).Perm
      (dl.items i :: Buffer.slice items 1 (dl.length - 1)) := by
    rw [hslice dl.length hle (Nat.le_refl _), hsplit]
    exact List.perm_middle
  refine ⟨?_, hperm⟩
  constructor
  · change items 0 = stubB
    rw [hcells, if_neg (by omega)]
    exact h.begins
  · change items (dl.length - 1 + 1) = stubE
    rw [hcells, if_pos (by omega), show dl.length - 1 + 1 + 1 = dl.length + 1 by omega]
    exact h.ends
  · change dl.sorted - (if i ≤ dl.sorted then 1 else 0) ≤ dl.length - 1
    split
    · omega
    · omega
  · change Ascends (Buffer.slice items 1 (dl.sorted - if i ≤ dl.sorted then 1 else 0))
    have hascends := pairwise_slice.mp h.ascends
    by_cases hin : i ≤ dl.sorted
    · rw [if_pos hin, hslice dl.sorted hin hhead]
      refine List.Pairwise.sublist ?_ h.ascends
      rw [slice_split (b := dl.items) (n := dl.sorted) hi (by omega),
        show 1 + dl.sorted - (i + 1) = dl.sorted - i by omega]
      exact (List.Sublist.refl _).append (List.sublist_cons_self _ _)
    · rw [if_neg hin, Nat.sub_zero, slice_congr fun j _ hj => by rw [hcells, if_neg (by omega)]]
      exact h.ascends
  · have hdistinct := (hperm.map Dp.pgno).nodup_iff.mp h.distinct
    exact (List.nodup_cons.mp hdistinct).2
  · exact fun x hx => h.pages x (hperm.mem_iff.mpr (List.mem_cons_of_mem _ hx))
  · change dl.pagesIncludingLoose - (dl.items i).npages =
      ((Buffer.slice items 1 (dl.length - 1)).map Dp.npages).sum
    have hsum := (hperm.map Dp.npages).sum_eq
    rw [List.map_cons, List.sum_cons] at hsum
    rw [h.counted]
    unfold Dpl.list
    omega

end Mdbx.DirtyList
