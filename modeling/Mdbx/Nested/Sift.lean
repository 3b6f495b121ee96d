import Mdbx.Nested.Filter

/-!
# Nested.Sift — `txn_dpl_sift` and the retired pages

A sorted dirty list is sifted through a page number list by one pass over both.  The invariant of
the pass: everything in front of the write position has been decided, and the page numbers already
passed are below the item under consideration.
-/

namespace Mdbx.Nested

open Buffer

/-! ## 1. Searching -/

theorem txnDplSearch_spec (b : Build) {dl : Dpl} (h : Sorted dl) (pgno : Nat) :
    1 ≤ txnDplSearch b dl pgno ∧ txnDplSearch b dl pgno ≤ dl.length + 1 ∧
      (∀ i, 1 ≤ i → i < txnDplSearch b dl pgno → (dl.at i).pgno < pgno) ∧
      ∀ i, txnDplSearch b dl pgno ≤ i → i ≤ dl.length → pgno ≤ (dl.at i).pgno := by
  have ho : SearchOrdered (fun i => decide ((dl.at (i + 1)).pgno < pgno)) dl.sorted := by
    intro i j hij hj hb
    have hlt := h.pgno_lt (show 1 ≤ i + 1 by omega) (show i + 1 < j + 1 by omega)
      (by rw [h.sorted] at hj; omega)
    have hbj : (dl.at (j + 1)).pgno < pgno := of_decide_eq_true hb
    apply decide_eq_true
    omega
  obtain ⟨hle, hleft, hright⟩ := search_lowerBound b.haveCmov _ _ ho
  unfold txnDplSearch
  rw [h.sorted] at hle hright ⊢
  rw [h.sorted] at hleft
  refine ⟨by omega, by omega, ?_, ?_⟩
  · intro i hlo hi
    have hb := of_decide_eq_true (hleft (i - 1) (by omega))
    rw [show i - 1 + 1 = i by omega] at hb
    exact hb
  · intro i hlo hi
    have hb := of_decide_eq_false (hright (i - 1) (by omega) (by omega))
    rw [show i - 1 + 1 = i by omega] at hb
    omega

theorem txnDplExist_of_ne {b : Build} {dl : Dpl} {pgno : Nat} (h : Sorted dl)
    (hne : txnDplExist b dl pgno ≠ 0) :
    1 ≤ txnDplExist b dl pgno ∧ txnDplExist b dl pgno ≤ dl.length ∧
      (dl.at (txnDplExist b dl pgno)).pgno = pgno := by
  have hlo := (txnDplSearch_spec b h pgno).1
  unfold txnDplExist at hne ⊢
  simp only at hne ⊢
  by_cases hc : txnDplSearch b dl pgno ≤ dl.length ∧ (dl.at (txnDplSearch b dl pgno)).pgno = pgno
  · rw [if_pos hc]
    exact ⟨hlo, hc.1, hc.2⟩
  · rw [if_neg hc] at hne
    exact absurd rfl hne

theorem txnDplExist_eq_zero {b : Build} {dl : Dpl} {pgno : Nat} (h : Sorted dl)
    (hzero : txnDplExist b dl pgno = 0) {i : Nat} (hlo : 1 ≤ i) (hhi : i ≤ dl.length) :
    (dl.at i).pgno ≠ pgno := by
  intro heq
  obtain ⟨hpos, hle, hleft, hright⟩ := txnDplSearch_spec b h pgno
  have hnot : ¬ i < txnDplSearch b dl pgno := by
    intro hlt
    have := hleft i hlo hlt
    omega
  -- the item with that page number is the one found
  have hfound : (dl.at (txnDplSearch b dl pgno)).pgno = pgno := by
    by_cases hi : i = txnDplSearch b dl pgno
    · rw [← hi]
      exact heq
    · have hlt := h.pgno_lt hpos (show txnDplSearch b dl pgno < i by omega) hhi
      have := hright (txnDplSearch b dl pgno) (Nat.le_refl _) (by omega)
      omega
  unfold txnDplExist at hzero
  simp only at hzero
  rw [if_pos ⟨by omega, hfound⟩] at hzero
  omega

/-! ## 2. The two loops of the sieve -/

/-- The items whose first page is not in the list `pl 1 … pl size`. -/
def outside (pl : Nat → Nat) (size : Nat) (x : Item) : Bool :=
  x.pgno ∉ (List.range' 1 size).map pl

theorem outside_iff {pl : Nat → Nat} {size : Nat} {x : Item} :
    outside pl size x = true ↔ ∀ j, 1 ≤ j → j ≤ size → pl j ≠ x.pgno := by
  unfold outside
  simp only [decide_eq_true_eq, List.mem_map, List.mem_range'_1, not_exists, not_and]
  constructor
  · intro h j hlo hhi
    exact h j ⟨hlo, by omega⟩
  · intro h j hj
    exact h j hj.1 (by omega)

structure Descending (pl : Nat → Nat) (size : Nat) : Prop where
  le : ∀ j k, 1 ≤ j → j ≤ k → k ≤ size → pl k ≤ pl j

variable {dl : Dpl} {pl : Nat → Nat} {size : Nat}

/-- The page numbers above index `i` are below the item at `r` and so below all the items from there
on. -/
def Passed (dl : Dpl) (pl : Nat → Nat) (size r i : Nat) : Prop :=
  ∀ j, i < j → j ≤ size → r ≤ dl.length → pl j < (dl.at r).pgno

theorem Passed.lt {r i : Nat} (h : Sorted dl) (hp : Passed dl pl size r i) {j k : Nat} (hr : 1 ≤ r)
    (hj : i < j) (hjs : j ≤ size) (hk : r ≤ k) (hkl : k ≤ dl.length) : pl j < (dl.at k).pgno := by
  have hbelow := hp j hj hjs (by omega)
  by_cases hrk : r = k
  · rw [← hrk]
    exact hbelow
  · have := h.pgno_lt hr (show r < k by omega) hkl
    omega

theorem outside_of_between {r i : Nat} (h : Sorted dl) (hd : Descending pl size)
    (hp : Passed dl pl size r i) (hr : 1 ≤ r) (hrl : r ≤ dl.length)
    (hi : i = 0 ∨ (dl.at r).pgno < pl i) (his : i ≤ size) :
    outside pl size (dl.at r) = true := by
  rw [outside_iff]
  intro j hlo hhi
  by_cases hj : i < j
  · have := hp.lt h hr hj hhi (Nat.le_refl r) hrl
    omega
  · have hge := hd.le j i hlo (by omega) his
    omega

structure SiftInv (dl : Dpl) (pl : Nat → Nat) (size : Nat) (items : Nat → Option Item)
    (r w i : Nat) : Prop where
  wpos : 1 ≤ w
  gap : w < r
  rle : r ≤ dl.length + 1
  ile : i ≤ size
  ahead : ∀ j, r ≤ j → items j = dl.items j
  done : seg items 1 (w - 1) = (seg dl.items 1 (r - 1)).filter (outside pl size)
  full : (seg items 1 (w - 1)).length = w - 1
  passed : Passed dl pl size r i

theorem seg_succ_at (h : Sorted dl) {r : Nat} (hr : 1 ≤ r) (hrl : r ≤ dl.length) :
    seg dl.items 1 r = seg dl.items 1 (r - 1) ++ [dl.at r] := by
  have hcat := seg_concat dl.items 1 (r - 1)
  rw [show r - 1 + 1 = r by omega, show 1 + (r - 1) = r by omega, (h.get hr hrl).1] at hcat
  exact hcat

theorem SiftInv.written {items : Nat → Option Item} {r w i : Nat} (h : Sorted dl)
    (hinv : SiftInv dl pl size items r w i) (hrl : r ≤ dl.length) :
    seg (set items w (items r)) 1 w = seg items 1 (w - 1) ++ [dl.at r] := by
  have hw := hinv.wpos
  have hr := hinv.gap
  have hcat := seg_set_concat items 1 (w - 1) (items r)
  rw [show w - 1 + 1 = w by omega, show 1 + (w - 1) = w by omega] at hcat
  rw [hcat, hinv.ahead r (Nat.le_refl r), (h.get (by omega) hrl).1]
  rfl

theorem SiftInv.keep {items : Nat → Option Item} {r w i : Nat} (h : Sorted dl)
    (hinv : SiftInv dl pl size items r w i) (hrl : r ≤ dl.length)
    (hout : outside pl size (dl.at r) = true) :
    SiftInv dl pl size (set items w (items r)) (r + 1) (w + 1) i where
  wpos := by omega
  gap := by
    have := hinv.gap
    omega
  rle := by omega
  ile := hinv.ile
  ahead := by
    intro j hj
    have := hinv.gap
    rw [set_of_ne _ _ (by omega)]
    exact hinv.ahead j (by omega)
  done := by
    have hr := hinv.gap
    rw [show w + 1 - 1 = w by omega, hinv.written h hrl, hinv.done, show r + 1 - 1 = r by omega,
      seg_succ_at h (by omega) hrl, List.filter_append, List.filter_cons_of_pos hout]
    rfl
  full := by
    have hw := hinv.wpos
    rw [show w + 1 - 1 = w by omega, hinv.written h hrl, List.length_append, hinv.full]
    simp only [List.length_cons, List.length_nil]
    omega
  passed := by
    intro j hj hjs hrl'
    exact hinv.passed.lt h (by have := hinv.gap; omega) hj hjs (by omega) hrl'

theorem SiftInv.drop {items : Nat → Option Item} {r w i : Nat} (h : Sorted dl)
    (hinv : SiftInv dl pl size items r w i) (hrl : r ≤ dl.length) (hi : 1 ≤ i)
    (heq : pl i = (dl.at r).pgno) : SiftInv dl pl size items (r + 1) w (i - 1) where
  wpos := hinv.wpos
  gap := by
    have := hinv.gap
    omega
  rle := by omega
  ile := by
    have := hinv.ile
    omega
  ahead := fun j hj => hinv.ahead j (by omega)
  done := by
    have hr := hinv.gap
    have hnot : ¬ outside pl size (dl.at r) = true := by
      rw [outside_iff]
      intro hall
      exact hall i hi hinv.ile heq
    rw [show r + 1 - 1 = r by omega, seg_succ_at h (by omega) hrl, List.filter_append,
      List.filter_cons_of_neg hnot, List.filter_nil, List.append_nil]
    exact hinv.done
  full := hinv.full
  passed := by
    intro j hj hjs hrl'
    have hr := hinv.gap
    by_cases hji : j = i
    · have := h.pgno_lt (show 1 ≤ r by omega) (show r < r + 1 by omega) hrl'
      rw [hji, heq]
      exact this
    · exact hinv.passed.lt h (by omega) (by omega) hjs (by omega) hrl'

theorem siftUpdate_spec (h : Sorted dl) (hd : Descending pl size) (fuel : Nat)
    {items : Nat → Option Item} {r w i : Nat} (pages : Nat)
    (hinv : SiftInv dl pl size items r w i) (hfuel : dl.length + 1 - r + i ≤ fuel) :
    SiftInv dl pl size (siftUpdate pl dl.length fuel items r w i pages).1 (dl.length + 1)
        (siftUpdate pl dl.length fuel items r w i pages).2.2.1 0 ∧
      (siftUpdate pl dl.length fuel items r w i pages).2.1 = dl.length + 1 := by
  induction fuel generalizing items r w i pages with
  | zero =>
    have hr : r = dl.length + 1 := by
      have := hinv.rle
      omega
    have hi : i = 0 := by omega
    subst hr hi
    exact ⟨hinv, rfl⟩
  | succ fuel ih =>
    have hrle := hinv.rle
    have hgap := hinv.gap
    unfold siftUpdate
    by_cases hend : dl.length < r
    · rw [if_pos hend]
      have hr : r = dl.length + 1 := by omega
      subst hr
      refine ⟨⟨hinv.wpos, hinv.gap, hinv.rle, Nat.zero_le _, hinv.ahead, hinv.done, hinv.full, ?_⟩,
        rfl⟩
      intro j _ _ hle
      omega
    · rw [if_neg hend]
      have hdp : (items r).getD default = dl.at r := by
        rw [hinv.ahead r (Nat.le_refl r)]
        rfl
      simp only [hdp]
      by_cases hkeep : i = 0 ∨ (dl.at r).pgno < pl i
      · rw [if_pos hkeep]
        have hout := outside_of_between h hd hinv.passed (by omega) (by omega) hkeep hinv.ile
        exact ih pages (hinv.keep h (by omega) hout) (by omega)
      · rw [if_neg hkeep]
        have hi : 1 ≤ i := by omega
        by_cases hnext : pl i < (dl.at r).pgno
        · rw [if_pos hnext]
          refine ih pages ⟨hinv.wpos, hinv.gap, hinv.rle, ?_, hinv.ahead, hinv.done, hinv.full, ?_⟩
            (by omega)
          · have := hinv.ile
            omega
          · intro j hj hjs hrl
            by_cases hji : j = i
            · rw [hji]
              exact hnext
            · exact hinv.passed j (by omega) hjs hrl
        · rw [if_neg hnext]
          exact ih _ (hinv.drop h (by omega) hi (by omega)) (by omega)

theorem siftScan_spec (h : Sorted dl) (hd : Descending pl size) (fuel : Nat) {r i : Nat}
    (hr : 1 ≤ r) (hrle : r ≤ dl.length + 1) (hi : 1 ≤ i) (his : i ≤ size)
    (hbefore : ∀ x ∈ seg dl.items 1 (r - 1), outside pl size x = true)
    (hp : Passed dl pl size r i) (hfuel : dl.length + 1 - r + i ≤ fuel) :
    (siftScan dl pl fuel r i = none ∧ ∀ x ∈ dl.list, outside pl size x = true) ∨
      ∃ r' i', siftScan dl pl fuel r i = some (r', i') ∧ 1 ≤ r' ∧ r' ≤ dl.length ∧ 1 ≤ i' ∧
        i' ≤ size ∧ pl i' = (dl.at r').pgno ∧ Passed dl pl size r' i' ∧
        ∀ x ∈ seg dl.items 1 (r' - 1), outside pl size x = true := by
  induction fuel generalizing r i with
  | zero => omega
  | succ fuel ih =>
    unfold siftScan
    by_cases hend : dl.length < r
    · rw [if_pos hend]
      left
      refine ⟨rfl, ?_⟩
      have hr' : r - 1 = dl.length := by omega
      rw [hr'] at hbefore
      exact hbefore
    · rw [if_neg hend]
      by_cases heq : (dl.at r).pgno = pl i
      · rw [if_pos heq]
        right
        exact ⟨r, i, rfl, hr, by omega, hi, his, heq.symm, hp, hbefore⟩
      · rw [if_neg heq]
        by_cases hlt : (dl.at r).pgno < pl i
        · rw [if_pos hlt]
          apply ih (by omega) (by omega) hi his _ _ (by omega)
          · rw [show r + 1 - 1 = r by omega, seg_succ_at h hr (by omega)]
            intro x hx
            rcases List.mem_append.mp hx with hx | hx
            · exact hbefore x hx
            · rw [List.mem_singleton.mp hx]
              exact outside_of_between h hd hp hr (by omega) (Or.inr hlt) his
          · intro j hj hjs hrl
            exact hp.lt h hr hj hjs (by omega) hrl
        · rw [if_neg hlt]
          have hp' : Passed dl pl size r (i - 1) := by
            intro j hj hjs hrl
            by_cases hji : j = i
            · rw [hji]
              omega
            · exact hp j (by omega) hjs hrl
          by_cases hlast : i - 1 = 0
          · rw [if_pos hlast]
            left
            refine ⟨rfl, ?_⟩
            intro x hx
            obtain ⟨k, hklo, hkhi, hxk⟩ := mem_seg.mp hx
            have hxat : x = dl.at k := by
              have hg := (h.get hklo (by omega)).1
              rw [hxk] at hg
              exact Option.some.inj hg
            by_cases hk : k < r
            · exact hbefore x (mem_seg.mpr ⟨k, hklo, by omega, hxk⟩)
            · rw [outside_iff, hxat]
              intro j hlo hhi
              have := hp'.lt h hr (show i - 1 < j by omega) hhi (show r ≤ k by omega) (by omega)
              omega
          · rw [if_neg hlast]
            exact ih hr hrle (by omega) (by omega) hbefore hp' (by omega)

theorem txnDplSort_of_sorted (h : Sorted dl) : txnDplSort dl = dl := if_pos h.sorted

/-- `txn_dpl_sift` drops exactly the items whose first page is in the list. -/
theorem txnDplSift_filtered (b : Build) {t : Txn} (h : Sorted t.dirtylist) (pnl : Pnl) (shift : Nat)
    (hd : Descending (fun i => pnl.cells i >>> shift) pnl.size) :
    Filtered (outside (fun i => pnl.cells i >>> shift) pnl.size) t
      (txnDplSift b t pnl shift) := by
  have hall : (∀ x ∈ t.dirtylist.list,
      outside (fun i => pnl.cells i >>> shift) pnl.size x = true) →
      Filtered (outside (fun i => pnl.cells i >>> shift) pnl.size) t t := by
    intro hout
    exact ⟨h, (List.filter_eq_self.mpr hout).symm, rfl⟩
  unfold txnDplSift
  by_cases hempty : pnl.size = 0 ∨ t.dirtylist.length = 0
  · rw [if_pos hempty]
    apply hall
    intro x hx
    rw [outside_iff]
    intro j hlo hhi
    rcases hempty with hs | hl
    · omega
    · have hnil : t.dirtylist.list = [] := by
        unfold Dpl.list
        rw [hl]
        rfl
      rw [hnil] at hx
      exact absurd hx List.not_mem_nil
  · rw [if_neg hempty, txnDplSort_of_sorted h]
    simp only
    obtain ⟨hlo, hhi, hleft, -⟩ :=
      txnDplSearch_spec b h (pnl.cells pnl.size >>> shift)
    generalize txnDplSearch b t.dirtylist (pnl.cells pnl.size >>> shift) = r₀ at *
    have hbefore : ∀ x ∈ seg t.dirtylist.items 1 (r₀ - 1),
        outside (fun i => pnl.cells i >>> shift) pnl.size x = true := by
      intro x hx
      obtain ⟨k, hklo, hkhi, hxk⟩ := mem_seg.mp hx
      have hg := (h.get hklo (by omega)).1
      rw [hxk] at hg
      rw [outside_iff, Option.some.inj hg]
      intro j hj hjs
      have hbelow := hleft k hklo (by omega)
      have hmost := hd.le j pnl.size hj hjs (Nat.le_refl _)
      omega
    have hpassed : Passed t.dirtylist (fun i => pnl.cells i >>> shift) pnl.size r₀ pnl.size := by
      intro j hj hjs
      omega
    rcases siftScan_spec h hd (t.dirtylist.length + pnl.size) hlo hhi (by omega) (Nat.le_refl _)
      hbefore hpassed (by omega) with ⟨hnone, hout⟩ | ⟨r, i, hsome, hr, hrl, hi, his, heq, hp, hb⟩
    · rw [hnone]
      exact hall hout
    · rw [hsome]
      simp only
      -- the first hit is dropped, so that a gap opens
      have hnot : ¬ outside (fun i => pnl.cells i >>> shift) pnl.size (t.dirtylist.at r) = true := by
        rw [outside_iff]
        intro hno
        exact hno i hi his heq
      have hseg : seg t.dirtylist.items 1 r = seg t.dirtylist.items 1 (r - 1) ++
          [t.dirtylist.at r] := seg_succ_at h hr hrl
      have hinv : SiftInv t.dirtylist (fun i => pnl.cells i >>> shift) pnl.size
          t.dirtylist.items (r + 1) r (i - 1) := by
        refine ⟨hr, by omega, by omega, by omega, fun _ _ => rfl, ?_, ?_, ?_⟩
        · rw [show r + 1 - 1 = r by omega, hseg, List.filter_append,
            List.filter_cons_of_neg hnot, List.filter_nil, List.append_nil,
            List.filter_eq_self.mpr hb]
        · have hf := h.full
          unfold Dpl.list at hf
          rw [show t.dirtylist.length = (r - 1) + (t.dirtylist.length - (r - 1)) by omega] at hf
          exact (seg_full_split hf).1
        · intro j hj hjs hrl'
          by_cases hji : j = i
          · have := h.pgno_lt hr (show r < r + 1 by omega) hrl'
            rw [hji]
            simp only at heq ⊢
            omega
          · exact hp.lt h hr (by omega) hjs (by omega) hrl'
      obtain ⟨hend, hrend⟩ := siftUpdate_spec h hd (t.dirtylist.length + pnl.size)
        (t.dirtylist.pagesIncludingLoose - (t.dirtylist.at r).npages) hinv (by omega)
      generalize siftUpdate _ _ _ _ _ _ _ _ = out at *
      have hwpos := hend.wpos
      have hgap := hend.gap
      have hdone : seg out.1 1 (out.2.2.1 - 1) = t.dirtylist.list.filter
          (outside (fun i => pnl.cells i >>> shift) pnl.size) := by
        have hdn := hend.done
        rw [show t.dirtylist.length + 1 - 1 = t.dirtylist.length by omega] at hdn
        exact hdn
      refine ⟨⟨hend.full, rfl, ?_⟩, hdone, ?_⟩
      · change Spans (seg out.1 1 (out.2.2.1 - 1))
        rw [hdone]
        exact h.spans.sublist List.filter_sublist
      · change t.dirtyroom + (out.2.1 - out.2.2.1) + (out.2.2.1 - 1) =
          t.dirtyroom + t.dirtylist.length
        omega

/-! ## 3. Washing one item out -/

theorem filter_ne_eq {l₁ l₂ : List Item} {x : Item} (h : Spans (l₁ ++ x :: l₂)) :
    (l₁ ++ x :: l₂).filter (fun y => y.pgno ≠ x.pgno) = l₁ ++ l₂ := by
  have hasc := h.ascending
  rw [List.pairwise_append] at hasc
  obtain ⟨-, h₂, hcross⟩ := hasc
  have hright := (List.pairwise_cons.mp h₂).1
  rw [List.filter_append, List.filter_cons_of_neg (by simp)]
  congr 1
  · apply List.filter_eq_self.mpr
    intro y hy
    have := hcross y hy x List.mem_cons_self
    apply decide_eq_true
    omega
  · apply List.filter_eq_self.mpr
    intro y hy
    have := hright y hy
    apply decide_eq_true
    omega

theorem pageWash_filtered {t : Txn} (h : Sorted t.dirtylist) {di : Nat} (hlo : 1 ≤ di)
    (hhi : di ≤ t.dirtylist.length) (npages : Nat) :
    Filtered (fun x => x.pgno ≠ (t.dirtylist.at di).pgno) t (pageWash t di npages) := by
  have hlen : t.dirtylist.length = (di - 1) + (1 + (t.dirtylist.length - di)) := by omega
  have hfull := h.full
  unfold Dpl.list at hfull
  rw [hlen] at hfull
  obtain ⟨hf₁, hf₂⟩ := seg_full_split hfull
  obtain ⟨-, hf₃⟩ := seg_full_split hf₂
  rw [show 1 + (di - 1) + 1 = di + 1 by omega] at hf₃
  have hcut : t.dirtylist.list = seg t.dirtylist.items 1 (di - 1) ++ t.dirtylist.at di ::
      seg t.dirtylist.items (di + 1) (t.dirtylist.length - di) := by
    unfold Dpl.list
    conv_lhs => rw [hlen]
    rw [seg_append, seg_append, seg_one, show 1 + (di - 1) = di by omega, (h.get hlo hhi).1]
    rfl
  -- the items behind the gap move down by one cell
  have hlist : (txnDplRemoveEx t.dirtylist di npages).list = seg t.dirtylist.items 1 (di - 1) ++
      seg t.dirtylist.items (di + 1) (t.dirtylist.length - di) := by
    change seg (moveDown t.dirtylist.items di (di + 1) _) 1 (t.dirtylist.length - 1) = _
    rw [show t.dirtylist.length - 1 = (di - 1) + (t.dirtylist.length - di) by omega, seg_append,
      show 1 + (di - 1) = di by omega]
    congr 1
    · apply seg_congr
      intro i _ hi
      rw [moveDown_apply _ _ _ _ _ (by omega), if_neg (by omega)]
    · apply seg_shift
      intro i hi
      rw [moveDown_apply _ _ _ _ _ (by omega), if_pos (by omega)]
      congr 1
      omega
  have hsp := h.spans
  rw [hcut] at hsp
  have hfil : (txnDplRemoveEx t.dirtylist di npages).list =
      t.dirtylist.list.filter fun x => x.pgno ≠ (t.dirtylist.at di).pgno := by
    rw [hlist, hcut, filter_ne_eq hsp]
  refine ⟨⟨?_, ?_, ?_⟩, hfil, ?_⟩
  · change (txnDplRemoveEx t.dirtylist di npages).list.length = t.dirtylist.length - 1
    rw [hlist, List.length_append, hf₁, hf₃]
    omega
  · change t.dirtylist.sorted - (if di ≤ t.dirtylist.sorted then 1 else 0) =
      t.dirtylist.length - 1
    rw [h.sorted, if_pos hhi]
  · change Spans (txnDplRemoveEx t.dirtylist di npages).list
    rw [hfil]
    exact h.spans.sublist List.filter_sublist
  · change t.dirtyroom + 1 + (t.dirtylist.length - 1) = t.dirtyroom + t.dirtylist.length
    omega

/-! ## 4. The retired pages of the parent -/

theorem takeBack_le (retired : Nat → Nat) (base pgno npages w l : Nat) :
    (takeBack retired base pgno npages w l).1 ≤ w := by
  induction w generalizing l with
  | zero => exact Nat.le_refl 0
  | succ w ih =>
    unfold takeBack
    split_ifs
    · exact Nat.le_succ w
    · exact Nat.le_trans (ih (l + 1)) (Nat.le_succ w)
    · exact Nat.le_refl _

theorem Filtered.refl_of_all {p : Item → Bool} {t t' : Txn} (h : Sorted t.dirtylist)
    (hall : ∀ x ∈ t.dirtylist.list, p x = true) (hdl : t'.dirtylist = t.dirtylist)
    (hroom : t'.dirtyroom = t.dirtyroom) : Filtered p t t' where
  sorted := hdl ▸ h
  list := by
    rw [hdl]
    exact (List.filter_eq_self.mpr hall).symm
  room := by rw [hdl, hroom]

-- What a round does besides: the cells from `r + 1` on and the size of the retired list stay.
theorem reclaimRetired_spec (b : Build) (base : Nat) {t : Txn} {w r : Nat} (h : Sorted t.dirtylist)
    (hw : w < r) :
    Filtered (fun x => x.pgno ≠ t.retired.cells r) t (reclaimRetired b base t w r).1 ∧
      (reclaimRetired b base t w r).2 ≤ r ∧
      ∀ j, r < j → (reclaimRetired b base t w r).1.retired.cells j = t.retired.cells j := by
  unfold reclaimRetired
  simp only
  by_cases hdi : txnDplExist b t.dirtylist (t.retired.cells r) ≠ 0
  · rw [if_pos hdi]
    obtain ⟨hlo, hhi, hpg⟩ := txnDplExist_of_ne h hdi
    have hfil := pageWash_filtered h hlo hhi
      (t.dirtylist.at (txnDplExist b t.dirtylist (t.retired.cells r))).npages
    rw [hpg] at hfil
    refine ⟨⟨hfil.sorted, hfil.list, hfil.room⟩, ?_, fun _ _ => rfl⟩
    split_ifs
    · exact Nat.le_trans (takeBack_le _ _ _ _ _ _) (Nat.le_of_lt hw)
    · exact Nat.le_of_lt hw
  · rw [if_neg hdi]
    have hout : ∀ x ∈ t.dirtylist.list, decide (x.pgno ≠ t.retired.cells r) = true := by
      intro x hx
      obtain ⟨k, hklo, hkhi, hxk⟩ := mem_seg.mp hx
      have hg := (h.get hklo (by omega)).1
      rw [hxk] at hg
      have hne := txnDplExist_eq_zero h (not_not.mp hdi) hklo (show k ≤ t.dirtylist.length by omega)
      rw [Option.some.inj hg]
      exact decide_eq_true hne
    split_ifs with hsi
    · exact ⟨Filtered.refl_of_all h hout rfl rfl, Nat.le_of_lt hw, fun _ _ => rfl⟩
    · refine ⟨Filtered.refl_of_all h hout rfl rfl, hw, ?_⟩
      intro j hj
      exact set_of_ne _ _ (by omega)

theorem reclaimLoop_filtered (b : Build) (base n : Nat) {t : Txn} {w r : Nat}
    (h : Sorted t.dirtylist) (hw : w < r) :
    Filtered (fun x => x.pgno ∉ (List.range' r n).map t.retired.cells) t
      (reclaimLoop b base n t w r).1 := by
  induction n generalizing t w r with
  | zero => exact Filtered.refl_of_all h (fun x _ => by simp) rfl rfl
  | succ n ih =>
    obtain ⟨hfil, hle, hkeep⟩ := reclaimRetired_spec b base h hw
    have hrest := ih hfil.sorted (show (reclaimRetired b base t w r).2 < r + 1 by omega)
    have hcells : (List.range' (r + 1) n).map (reclaimRetired b base t w r).1.retired.cells =
        (List.range' (r + 1) n).map t.retired.cells := by
      apply List.map_congr_left
      intro j hj
      exact hkeep j (List.mem_range'_1.mp hj).1
    rw [hcells] at hrest
    have hboth := hfil.trans hrest
    refine ⟨hboth.sorted, ?_, hboth.room⟩
    change (reclaimLoop b base n _ _ (r + 1)).1.dirtylist.list = _
    rw [hboth.list]
    apply List.filter_congr
    intro x _
    rw [List.range'_succ, List.map_cons]
    simp only [List.mem_cons, not_or, ← Bool.decide_and]

end Mdbx.Nested
