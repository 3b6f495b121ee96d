import Mdbx.Nested.Model

/-!
# Nested.Filter — the filters on the parent's dirty list

Each phase of `nested_merge` before the merge proper drops the items with certain page numbers from
a sorted list, in place, and gives their room back.
-/

namespace Mdbx.Nested

open Buffer

/-! ## 1. Sorted dirty lists -/

/-- Ascending, and no two items share a page. -/
structure Spans (l : List Item) : Prop where
  apart : l.Pairwise fun x y => x.endPgno ≤ y.pgno
  pos : ∀ x ∈ l, 0 < x.npages

theorem Spans.sublist {l l' : List Item} (h : Spans l) (hs : l'.Sublist l) : Spans l' :=
  ⟨h.apart.sublist hs, fun x hx => h.pos x (hs.subset hx)⟩

theorem Spans.ascending {l : List Item} (h : Spans l) : l.Pairwise fun x y => x.pgno < y.pgno := by
  apply h.apart.imp_of_mem
  intro x y hx _ hxy
  have hpos := h.pos x hx
  unfold Item.endPgno at hxy
  omega

/-- A dirty list after `txn_dpl_sort`: no empty cells, one sorted part. -/
structure Sorted (dl : Dpl) : Prop where
  full : dl.list.length = dl.length
  sorted : dl.sorted = dl.length
  spans : Spans dl.list

theorem Sorted.get {dl : Dpl} (h : Sorted dl) {i : Nat} (hlo : 1 ≤ i) (hhi : i ≤ dl.length) :
    dl.items i = some (dl.at i) ∧ dl.list[i - 1]? = some (dl.at i) := by
  have hget : dl.list[i - 1]? = dl.items i := by
    have hg := seg_getElem? h.full (show i - 1 < dl.length by omega)
    rw [show 1 + (i - 1) = i by omega] at hg
    exact hg
  have hsome : dl.items i ≠ none := isSome_of_seg_full h.full hlo (by omega)
  have hat : dl.items i = some (dl.at i) := by
    unfold Dpl.at
    cases hx : dl.items i with
    | none => exact absurd hx hsome
    | some x => rfl
  exact ⟨hat, hget.trans hat⟩

theorem Sorted.mem {dl : Dpl} (h : Sorted dl) {i : Nat} (hlo : 1 ≤ i) (hhi : i ≤ dl.length) :
    dl.at i ∈ dl.list := List.mem_of_getElem? (h.get hlo hhi).2

theorem Sorted.lt {dl : Dpl} (h : Sorted dl) {i j : Nat} (hlo : 1 ≤ i) (hij : i < j)
    (hhi : j ≤ dl.length) : (dl.at i).endPgno ≤ (dl.at j).pgno := by
  have hi := List.getElem?_eq_some_iff.mp (h.get hlo (by omega)).2
  have hj := List.getElem?_eq_some_iff.mp (h.get (by omega) hhi).2
  obtain ⟨hi, hxi⟩ := hi
  obtain ⟨hj, hxj⟩ := hj
  have hp := List.pairwise_iff_getElem.mp h.spans.apart (i - 1) (j - 1) hi hj (by omega)
  rw [hxi, hxj] at hp
  exact hp

theorem Sorted.pgno_lt {dl : Dpl} (h : Sorted dl) {i j : Nat} (hlo : 1 ≤ i) (hij : i < j)
    (hhi : j ≤ dl.length) : (dl.at i).pgno < (dl.at j).pgno := by
  have hend := h.lt hlo hij hhi
  have hpos := h.spans.pos _ (h.mem hlo (by omega))
  unfold Item.endPgno at hend
  omega

/-- A phase keeps the items with `p` and their order, and the sum of room and length. -/
structure Filtered (p : Item → Bool) (t t' : Txn) : Prop where
  sorted : Sorted t'.dirtylist
  list : t'.dirtylist.list = t.dirtylist.list.filter p
  room : t'.dirtyroom + t'.dirtylist.length = t.dirtyroom + t.dirtylist.length

theorem Filtered.trans {p q : Item → Bool} {t t' t'' : Txn} (h : Filtered p t t')
    (h' : Filtered q t' t'') : Filtered (fun x => p x && q x) t t'' where
  sorted := h'.sorted
  list := by
    rw [h'.list, h.list, List.filter_filter]
    apply List.filter_congr
    intro x _
    exact Bool.and_comm _ _
  room := h'.room.trans h.room

/-! ## 2. The refunded tail -/

theorem refundScan_spec (dl : Dpl) (first n : Nat) :
    refundScan dl first n ≤ n ∧
      (∀ i, refundScan dl first n < i → i ≤ n → first ≤ (dl.at i).pgno) ∧
      (0 < refundScan dl first n → (dl.at (refundScan dl first n)).pgno < first) := by
  induction n with
  | zero =>
    refine ⟨Nat.le_refl 0, ?_, ?_⟩
    · intro i hlo hhi
      omega
    · intro hpos
      exact absurd hpos (Nat.lt_irrefl 0)
  | succ n ih =>
    unfold refundScan
    by_cases hout : first ≤ (dl.at (n + 1)).pgno
    · rw [if_pos hout]
      obtain ⟨hle, habove, hat⟩ := ih
      refine ⟨by omega, ?_, hat⟩
      intro i hlo hhi
      by_cases hi : i = n + 1
      · rw [hi]
        exact hout
      · exact habove i hlo (by omega)
    · rw [if_neg hout]
      refine ⟨Nat.le_refl _, ?_, fun _ => by omega⟩
      intro i hlo hhi
      omega

theorem refund_filtered {t : Txn} (h : Sorted t.dirtylist) (first : Nat) :
    Filtered (fun x => x.pgno < first) t { t with
      dirtylist := dplSetlen t.dirtylist (refundScan t.dirtylist first t.dirtylist.length)
      dirtyroom := t.dirtyroom +
        (t.dirtylist.sorted - refundScan t.dirtylist first t.dirtylist.length) } := by
  obtain ⟨hle, habove, hat⟩ := refundScan_spec t.dirtylist first t.dirtylist.length
  generalize hn : refundScan t.dirtylist first t.dirtylist.length = n at *
  have hlen : n + (t.dirtylist.length - n) = t.dirtylist.length := by omega
  have hcut : t.dirtylist.list = seg t.dirtylist.items 1 n ++
      seg t.dirtylist.items (1 + n) (t.dirtylist.length - n) := by
    rw [← seg_append, hlen]
    rfl
  have hfull := h.full
  unfold Dpl.list at hfull
  rw [← hlen] at hfull
  obtain ⟨hf₁, hf₂⟩ := seg_full_split hfull
  have hkeep : ∀ x ∈ seg t.dirtylist.items 1 n, x.pgno < first := by
    intro x hx
    obtain ⟨i, hlo, hhi, hxi⟩ := mem_seg.mp hx
    have hxat : x = t.dirtylist.at i := by
      have hg := (h.get hlo (by omega)).1
      rw [hxi] at hg
      exact Option.some.inj hg
    have hlast := hat (by omega)
    by_cases hi : i = n
    · rw [hxat, hi]
      exact hlast
    · have := h.pgno_lt hlo (show i < n by omega) hle
      rw [hxat]
      omega
  have hdrop : ∀ x ∈ seg t.dirtylist.items (1 + n) (t.dirtylist.length - n), ¬ x.pgno < first := by
    intro x hx
    obtain ⟨i, hlo, hhi, hxi⟩ := mem_seg.mp hx
    have hg := (h.get (show 1 ≤ i by omega) (show i ≤ t.dirtylist.length by omega)).1
    rw [hxi] at hg
    have hxat : x = t.dirtylist.at i := Option.some.inj hg
    have := habove i (by omega) (by omega)
    rw [hxat]
    omega
  have hlist : (dplSetlen t.dirtylist n).list = t.dirtylist.list.filter fun x => x.pgno < first := by
    rw [hcut, List.filter_append, List.filter_eq_self.mpr fun x hx => by simpa using hkeep x hx,
      List.filter_eq_nil_iff.mpr fun x hx => by simpa using hdrop x hx, List.append_nil]
    rfl
  refine ⟨⟨hf₁, rfl, ?_⟩, hlist, ?_⟩
  · rw [hlist]
    exact h.spans.sublist List.filter_sublist
  · change t.dirtyroom + (t.dirtylist.sorted - n) + n = t.dirtyroom + t.dirtylist.length
    rw [h.sorted]
    omega

end Mdbx.Nested
