import Mdbx.Nested.Join

/-!
# Nested.Retired — large pages among the retired ones

A nested transaction appends the pages of a large page to `retired_pages` in descending order, so
that the first page comes last.  When `nested_merge` meets the first page and finds the item in the
parent's dirty list, the other pages are the ones it has kept just before.
-/

namespace Mdbx.Nested

open Buffer

/-! ## 1. Spans in a page number list -/

/-- `pnl_append_span`, where there is room for `n` more words; the length is in the first word. -/
def appendSpan (pl : Pnl) (pgno n : Nat) : Pnl :=
  ⟨set (fill pl.cells (pl.size + 1) (fun k => pgno + (n - 1 - k)) n) 0 (pl.size + n), pl.size + n⟩

/-- The retired list after a run of `page_retire_ex` calls that retire these spans. -/
def retireSpans (pl : Pnl) (spans : List (Nat × Nat)) : Pnl :=
  spans.foldl (fun pl s => appendSpan pl s.1 s.2) pl

/-- The number of words of some spans. -/
def spanWords (spans : List (Nat × Nat)) : Nat := (spans.map Prod.snd).sum

theorem appendSpan_cells (pl : Pnl) (pgno n : Nat) {i : Nat} (hi : 1 ≤ i) :
    (appendSpan pl pgno n).cells i =
      if pl.size < i ∧ i ≤ pl.size + n then pgno + (pl.size + n - i) else pl.cells i := by
  change set _ 0 _ i = _
  rw [set_of_ne _ _ (by omega), fill_apply]
  by_cases hin : pl.size < i ∧ i ≤ pl.size + n
  · rw [if_pos (by omega), if_pos hin]
    omega
  · rw [if_neg (by omega), if_neg hin]

theorem appendSpan_length (pl : Pnl) (pgno n : Nat) :
    (appendSpan pl pgno n).cells 0 = (appendSpan pl pgno n).size := by
  simp only [appendSpan, set_self]

theorem retireSpans_append (pl : Pnl) (pre post : List (Nat × Nat)) :
    retireSpans pl (pre ++ post) = retireSpans (retireSpans pl pre) post := List.foldl_append

theorem retireSpans_size (pl : Pnl) (spans : List (Nat × Nat)) :
    (retireSpans pl spans).size = pl.size + spanWords spans := by
  induction spans generalizing pl with
  | nil => rfl
  | cons s spans ih =>
    show (retireSpans (appendSpan pl s.1 s.2) spans).size = _
    rw [ih]
    unfold spanWords
    rw [List.map_cons, List.sum_cons]
    show pl.size + s.2 + _ = _
    omega

-- later spans leave the words before them alone
theorem retireSpans_cells (pl : Pnl) (spans : List (Nat × Nat)) {i : Nat} (hi : 1 ≤ i)
    (his : i ≤ pl.size) : (retireSpans pl spans).cells i = pl.cells i := by
  induction spans generalizing pl with
  | nil => rfl
  | cons s spans ih =>
    show (retireSpans (appendSpan pl s.1 s.2) spans).cells i = _
    rw [ih _ (show i ≤ pl.size + s.2 by omega), appendSpan_cells _ _ _ hi, if_neg (by omega)]

theorem retireSpans_length (pl : Pnl) (spans : List (Nat × Nat)) (h : pl.cells 0 = pl.size) :
    (retireSpans pl spans).cells 0 = (retireSpans pl spans).size := by
  induction spans generalizing pl with
  | nil => exact h
  | cons s spans ih => exact ih (appendSpan pl s.1 s.2) (appendSpan_length pl s.1 s.2)

/-- The words of one span, counted from the last one. -/
theorem retireSpans_span (pl : Pnl) (pre post : List (Nat × Nat)) (pgno n : Nat) {k : Nat}
    (hk : k < n) :
    (retireSpans pl (pre ++ (pgno, n) :: post)).cells (pl.size + spanWords pre + n - k) =
      pgno + k := by
  rw [retireSpans_append]
  show (retireSpans (appendSpan (retireSpans pl pre) pgno n) post).cells _ = _
  have hsize := retireSpans_size pl pre
  rw [retireSpans_cells _ _ (by omega)
    (show _ ≤ (retireSpans pl pre).size + n by omega), appendSpan_cells _ _ _ (by omega),
    if_pos (by omega)]
  omega

theorem mem_pnl {pl : Pnl} {q : Nat} :
    q ∈ pl.list ↔ ∃ i, 1 ≤ i ∧ i ≤ pl.size ∧ pl.cells i = q := by
  unfold Pnl.list
  simp only [List.mem_map, List.mem_range'_1]
  apply exists_congr
  intro i
  constructor
  · exact fun h => ⟨h.1.1, by have := h.1.2; omega, h.2⟩
  · exact fun h => ⟨⟨h.1, by have := h.2.1; omega⟩, h.2.2⟩

theorem insertScan_le (cells : Nat → Nat) (pgno r : Nat) : Pnl.insertScan cells pgno r ≤ r := by
  induction r with
  | zero => exact Nat.le_refl 0
  | succ r ih =>
    unfold Pnl.insertScan
    split_ifs
    · exact Nat.le_succ_of_le ih
    · exact Nat.le_refl _

theorem insertSpan_cells (pl : Pnl) (pgno n i : Nat) :
    (pl.insertSpan pgno n).cells i =
      if i ≤ Pnl.insertScan pl.cells pgno pl.size then pl.cells i
      else if i ≤ Pnl.insertScan pl.cells pgno pl.size + n then
        pgno + (Pnl.insertScan pl.cells pgno pl.size + n - i)
      else if i ≤ pl.size + n then pl.cells (i - n) else pl.cells i := by
  have hle := insertScan_le pl.cells pgno pl.size
  unfold Pnl.insertSpan
  simp only
  generalize Pnl.insertScan pl.cells pgno pl.size = r at hle ⊢
  rw [fill_apply, moveUp_apply]
  by_cases hlow : i ≤ r
  · rw [if_neg (by omega), if_neg (by omega), if_pos hlow]
  · rw [if_neg hlow]
    by_cases hin : i ≤ r + n
    · rw [if_pos (by omega), if_pos hin]
      omega
    · rw [if_neg (by omega), if_neg hin]
      by_cases hhigh : i ≤ pl.size + n
      · rw [if_pos (by omega), if_pos hhigh]
      · rw [if_neg (by omega), if_neg hhigh]

/-- Insertion adds the pages of the span and loses none. -/
theorem mem_insertSpan (pl : Pnl) (pgno n q : Nat) :
    q ∈ (pl.insertSpan pgno n).list ↔ q ∈ pl.list ∨ (pgno ≤ q ∧ q < pgno + n) := by
  have hle := insertScan_le pl.cells pgno pl.size
  have hsize : (pl.insertSpan pgno n).size = pl.size + n := rfl
  have hcells := insertSpan_cells pl pgno n
  generalize Pnl.insertScan pl.cells pgno pl.size = r at hle hcells
  constructor
  · intro h
    obtain ⟨i, hi, his, hc⟩ := mem_pnl.1 h
    rw [hcells] at hc
    by_cases hlow : i ≤ r
    · rw [if_pos hlow] at hc
      exact Or.inl (mem_pnl.2 ⟨i, hi, by omega, hc⟩)
    · rw [if_neg hlow] at hc
      by_cases hin : i ≤ r + n
      · rw [if_pos hin] at hc
        exact Or.inr ⟨by omega, by omega⟩
      · rw [if_neg hin, if_pos (by omega)] at hc
        exact Or.inl (mem_pnl.2 ⟨i - n, by omega, by omega, hc⟩)
  · intro h
    cases h with
    | inl h =>
      obtain ⟨i, hi, his, hc⟩ := mem_pnl.1 h
      by_cases hlow : i ≤ r
      · refine mem_pnl.2 ⟨i, hi, by omega, ?_⟩
        rw [hcells, if_pos hlow]
        exact hc
      · refine mem_pnl.2 ⟨i + n, by omega, by omega, ?_⟩
        rw [hcells, if_neg (by omega), if_neg (by omega), if_pos (by omega), Nat.add_sub_cancel]
        exact hc
    | inr h =>
      refine mem_pnl.2 ⟨r + n - (q - pgno), by omega, by omega, ?_⟩
      rw [hcells, if_neg (by omega), if_pos (by omega)]
      omega

/-! ## 2. One round -/

section Round

variable {b : Build} {base : Nat} {t : Txn} {w r : Nat}

theorem takeBack_ge (retired : Nat → Nat) (base pgno npages l : Nat) :
    ∀ {w : Nat}, base ≤ w → base ≤ (takeBack retired base pgno npages w l).1
  | 0, h => h
  | w + 1, h => by
    unfold takeBack
    split_ifs with hin hlast
    · show base ≤ w
      omega
    · exact takeBack_ge retired base pgno npages (l + 1) (by omega)
    · exact h

theorem takeBack_len (retired : Nat → Nat) (base pgno npages : Nat) :
    ∀ (w l : Nat), 1 ≤ l → l < npages →
      1 ≤ (takeBack retired base pgno npages w l).2 ∧
        (takeBack retired base pgno npages w l).2 ≤ npages
  | 0, l, hpos, hl => ⟨hpos, Nat.le_of_lt hl⟩
  | w + 1, l, hpos, hl => by
    unfold takeBack
    split_ifs with hin hlast
    · exact ⟨by simp, by simp only; omega⟩
    · exact takeBack_len retired base pgno npages w (l + 1) (by omega) (by omega)
    · exact ⟨hpos, Nat.le_of_lt hl⟩

/-- What the round takes for an item of `npages` pages: the next place and the pages found. -/
def taken (retired : Nat → Nat) (base pgno npages w : Nat) : Nat × Nat :=
  if 1 < npages then takeBack retired base pgno npages w 1 else (w, 1)

theorem taken_bounds (retired : Nat → Nat) (pgno : Nat) {npages : Nat} (hpos : 0 < npages)
    (hw : base ≤ w) :
    base ≤ (taken retired base pgno npages w).1 ∧ (taken retired base pgno npages w).1 ≤ w ∧
      1 ≤ (taken retired base pgno npages w).2 ∧
      (taken retired base pgno npages w).2 ≤ npages := by
  unfold taken
  by_cases hn : 1 < npages
  · rw [if_pos hn]
    have hlen := takeBack_len retired base pgno npages w 1 (Nat.le_refl 1) hn
    exact ⟨takeBack_ge _ _ _ _ _ hw, takeBack_le _ _ _ _ _ _, hlen.1, hlen.2⟩
  · rw [if_neg hn]
    exact ⟨hw, Nat.le_refl _, Nat.le_refl 1, hpos⟩

/-- The three ways of a round: the page is the first one of a dirty item, it has been spilled, or it
is kept. -/
inductive Round (b : Build) (base : Nat) (t : Txn) (w r : Nat) (next : Txn × Nat) : Prop
  | dirty (x : Item) (hx : x ∈ t.dirtylist.list) (hp : x.pgno = t.retired.cells r)
      (hretired : next.1.retired = t.retired) (hspilled : next.1.spilled = t.spilled)
      (hrepnl : next.1.repnl =
        t.repnl.insertSpan x.pgno (taken t.retired.cells base x.pgno x.npages w).2)
      (hw : next.2 = (taken t.retired.cells base x.pgno x.npages w).1)
  | spilled (hno : ∀ x ∈ t.dirtylist.list, x.pgno ≠ t.retired.cells r)
      (hsi : spillSearch b t (t.retired.cells r) ≠ 0) (hretired : next.1.retired = t.retired)
      (hspilled : next.1.spilled =
        t.spilled.map (spillRemove · (spillSearch b t (t.retired.cells r))))
      (hrepnl : next.1.repnl = t.repnl.insertSpan (t.retired.cells r) 1) (hw : next.2 = w)
  | keep (hno : ∀ x ∈ t.dirtylist.list, x.pgno ≠ t.retired.cells r)
      (hsi : spillSearch b t (t.retired.cells r) = 0)
      (hretired : next.1.retired =
        ⟨set t.retired.cells (w + 1) (t.retired.cells r), t.retired.size⟩)
      (hspilled : next.1.spilled = t.spilled) (hrepnl : next.1.repnl = t.repnl)
      (hw : next.2 = w + 1)

theorem reclaimRetired_round (h : Sorted t.dirtylist) :
    Round b base t w r (reclaimRetired b base t w r) := by
  unfold reclaimRetired
  simp only
  by_cases hdi : txnDplExist b t.dirtylist (t.retired.cells r) ≠ 0
  · rw [if_pos hdi]
    obtain ⟨hlo, hhi, hpg⟩ := txnDplExist_of_ne h hdi
    have hmem := h.mem hlo hhi
    generalize t.dirtylist.at (txnDplExist b t.dirtylist (t.retired.cells r)) = x at hpg hmem ⊢
    apply Round.dirty x hmem hpg rfl rfl
    · show t.repnl.insertSpan (t.retired.cells r) (taken _ base _ _ w).2 = _
      rw [hpg]
    · show (taken t.retired.cells base (t.retired.cells r) x.npages w).1 = _
      rw [hpg]
  · rw [if_neg hdi]
    have hno : ∀ x ∈ t.dirtylist.list, x.pgno ≠ t.retired.cells r := by
      intro x hx
      obtain ⟨k, hklo, hkhi, rfl⟩ := mem_list_at h hx
      exact txnDplExist_eq_zero h (not_not.mp hdi) hklo hkhi
    by_cases hsi : spillSearch b t (t.retired.cells r) ≠ 0
    · rw [if_pos hsi]
      exact Round.spilled hno hsi rfl rfl rfl rfl
    · rw [if_neg hsi]
      exact Round.keep hno (not_not.mp hsi) rfl rfl rfl rfl

/-- No cell of the spill list stands for the page. -/
def NotSpilled (t : Txn) (q : Nat) : Prop :=
  ∀ sp, t.spilled = some sp → ∀ i, 1 ≤ i → i ≤ sp.list.size → sp.list.cells i ≠ 2 * q

theorem NotSpilled.search {q : Nat} (h : NotSpilled t q) : spillSearch b t q = 0 := by
  unfold spillSearch
  cases hs : t.spilled with
  | none => rfl
  | some sp =>
    simp only
    rw [if_neg]
    intro hc
    exact h sp hs _ (by unfold Pnl.search; omega) hc.1 hc.2

theorem notSpilled_remove {sp : Spilled} {idx i q : Nat} (hi : i ≤ (spillRemove sp idx).list.size)
    (h : i ≤ sp.list.size → sp.list.cells i ≠ 2 * q) :
    (spillRemove sp idx).list.cells i ≠ 2 * q := by
  have his : i ≤ sp.list.size := Nat.le_trans hi (Nat.sub_le _ _)
  change set sp.list.cells idx (sp.list.cells idx ||| 1) i ≠ 2 * q
  by_cases he : i = idx
  · rw [he, set_self]
    intro hodd
    have hmod : (sp.list.cells idx ||| 1) % 2 = 1 := by
      rw [Nat.or_mod_two_eq_one]
      exact Or.inr rfl
    omega
  · rw [set_of_ne _ _ he]
    exact h his

theorem Round.notSpilled {next : Txn × Nat} (hr : Round b base t w r next) {q : Nat}
    (h : NotSpilled t q) : NotSpilled next.1 q := by
  intro sp hsp i hi his
  cases hr with
  | dirty x _ _ _ hspilled _ _ => exact h sp (hspilled ▸ hsp) i hi his
  | keep _ _ _ hspilled _ _ => exact h sp (hspilled ▸ hsp) i hi his
  | spilled _ _ _ hspilled _ _ =>
    rw [hspilled] at hsp
    cases ht : t.spilled with
    | none =>
      rw [ht] at hsp
      cases hsp
    | some old =>
      rw [ht] at hsp
      cases hsp
      exact notSpilled_remove his fun hold => h old ht i hi hold

end Round

/-! ## 3. The rounds -/

section Rounds

variable {b : Build} {base : Nat} {t : Txn}

/-- The state after `k` rounds. -/
def rounds (b : Build) (base : Nat) (t : Txn) (k : Nat) : Txn × Nat :=
  reclaimLoop b base k t base (base + 1)

theorem reclaimLoop_succ (b : Build) (base n : Nat) (t : Txn) (w r : Nat) :
    reclaimLoop b base (n + 1) t w r =
      reclaimRetired b base (reclaimLoop b base n t w r).1 (reclaimLoop b base n t w r).2
        (r + n) := by
  induction n generalizing t w r with
  | zero => rfl
  | succ n ih =>
    show reclaimLoop b base (n + 1) (reclaimRetired b base t w r).1
      (reclaimRetired b base t w r).2 (r + 1) = _
    rw [ih, show r + 1 + n = r + (n + 1) by omega]
    rfl

theorem rounds_succ (b : Build) (base : Nat) (t : Txn) (k : Nat) :
    rounds b base t (k + 1) =
      reclaimRetired b base (rounds b base t k).1 (rounds b base t k).2 (base + 1 + k) :=
  reclaimLoop_succ b base k t base (base + 1)

/-- The retired list after `k` rounds: the words to be read are untouched, as are those in front, and
the words kept are some of those read. -/
structure Compacting (base : Nat) (t : Txn) (k : Nat) (s : Txn × Nat) : Prop where
  size : s.1.retired.size = t.retired.size
  lo : base ≤ s.2
  hi : s.2 ≤ base + k
  front : ∀ i, i ≤ base → s.1.retired.cells i = t.retired.cells i
  ahead : ∀ i, base + k < i → s.1.retired.cells i = t.retired.cells i
  kept : ∀ i, base < i → i ≤ s.2 →
    ∃ j, base < j ∧ j ≤ base + k ∧ s.1.retired.cells i = t.retired.cells j

theorem Compacting.next {k : Nat} {s next : Txn × Nat} (hc : Compacting base t k s)
    (hspans : Spans s.1.dirtylist.list)
    (hr : Round b base s.1 s.2 (base + 1 + k) next) : Compacting base t (k + 1) next := by
  have hlo := hc.lo
  have hhi := hc.hi
  have hkept : ∀ i, base < i → i ≤ s.2 →
      ∃ j, base < j ∧ j ≤ base + (k + 1) ∧ s.1.retired.cells i = t.retired.cells j := by
    intro i hi his
    obtain ⟨j, hj, hjk, he⟩ := hc.kept i hi his
    exact ⟨j, hj, by omega, he⟩
  cases hr with
  | dirty x hx _ hretired _ _ hw =>
    have hb := taken_bounds s.1.retired.cells x.pgno (hspans.pos x hx) hlo
    rw [← hw] at hb
    refine ⟨hretired ▸ hc.size, hb.1, by omega, hretired ▸ hc.front, ?_, ?_⟩
    · intro i hi
      rw [hretired]
      exact hc.ahead i (by omega)
    · intro i hi his
      rw [hretired]
      exact hkept i hi (Nat.le_trans his hb.2.1)
  | spilled _ _ hretired _ _ hw =>
    refine ⟨hretired ▸ hc.size, by omega, by omega, hretired ▸ hc.front, ?_, ?_⟩
    · intro i hi
      rw [hretired]
      exact hc.ahead i (by omega)
    · intro i hi his
      rw [hretired]
      exact hkept i hi (by omega)
  | keep _ _ hretired _ _ hw =>
    refine ⟨?_, by omega, by omega, ?_, ?_, ?_⟩
    · rw [hretired]
      exact hc.size
    · intro i hi
      rw [hretired]
      show set _ _ _ i = _
      rw [set_of_ne _ _ (by omega)]
      exact hc.front i hi
    · intro i hi
      rw [hretired]
      show set _ _ _ i = _
      rw [set_of_ne _ _ (by omega)]
      exact hc.ahead i (by omega)
    · intro i hi his
      rw [hretired]
      show ∃ j, base < j ∧ j ≤ base + (k + 1) ∧ set _ _ _ i = _
      by_cases he : i = s.2 + 1
      · refine ⟨base + 1 + k, by omega, by omega, ?_⟩
        rw [he, set_self]
        exact hc.ahead _ (by omega)
      · rw [set_of_ne _ _ he]
        exact hkept i hi (by omega)

theorem sorted_rounds (b : Build) (base : Nat) (h : Sorted t.dirtylist) (k : Nat) :
    Sorted (rounds b base t k).1.dirtylist :=
  (reclaimLoop_filtered b base k h (Nat.lt_succ_self base)).sorted

theorem list_rounds (b : Build) (base : Nat) (h : Sorted t.dirtylist) (k : Nat) :
    (rounds b base t k).1.dirtylist.list =
      t.dirtylist.list.filter fun x => x.pgno ∉ (List.range' (base + 1) k).map t.retired.cells :=
  (reclaimLoop_filtered b base k h (Nat.lt_succ_self base)).list

theorem round_rounds (b : Build) (base : Nat) (h : Sorted t.dirtylist) (k : Nat) :
    Round b base (rounds b base t k).1 (rounds b base t k).2 (base + 1 + k)
      (rounds b base t (k + 1)) := by
  rw [rounds_succ]
  exact reclaimRetired_round (sorted_rounds b base h k)

theorem compacting_rounds (b : Build) (base : Nat) (h : Sorted t.dirtylist) (k : Nat) :
    Compacting base t k (rounds b base t k) := by
  induction k with
  | zero =>
    exact ⟨rfl, Nat.le_refl _, Nat.le_refl _, fun _ _ => rfl, fun _ _ => rfl,
      fun i hi his => absurd hi (Nat.not_lt.2 his)⟩
  | succ k ih => exact ih.next (sorted_rounds b base h k).spans (round_rounds b base h k)

theorem notSpilled_rounds (b : Build) (base : Nat) (h : Sorted t.dirtylist) {q : Nat}
    (hq : NotSpilled t q) (k : Nat) : NotSpilled (rounds b base t k).1 q := by
  induction k with
  | zero => exact hq
  | succ k ih => exact (round_rounds b base h k).notSpilled ih

-- pages only come into `repnl`
theorem repnl_rounds (b : Build) (base : Nat) (h : Sorted t.dirtylist) {q k : Nat}
    (hq : q ∈ (rounds b base t k).1.repnl.list) (n : Nat) :
    q ∈ (rounds b base t (k + n)).1.repnl.list := by
  induction n with
  | zero => exact hq
  | succ n ih =>
    have hr := round_rounds b base h (k + n)
    show q ∈ (rounds b base t (k + n + 1)).1.repnl.list
    cases hr with
    | dirty x _ _ _ _ hrepnl _ =>
      rw [hrepnl]
      exact (mem_insertSpan _ _ _ _).2 (Or.inl ih)
    | spilled _ _ _ _ hrepnl _ =>
      rw [hrepnl]
      exact (mem_insertSpan _ _ _ _).2 (Or.inl ih)
    | keep _ _ _ _ hrepnl _ =>
      rw [hrepnl]
      exact ih

end Rounds

end Mdbx.Nested
