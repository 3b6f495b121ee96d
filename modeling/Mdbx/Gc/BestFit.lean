import Mdbx.Gc.Sequence

/-!
# Gc.BestFit — `pnl_get_best_sequence`

Defragmentation takes the pages for a large page from the smallest run that has enough of them and
starts low enough.  The runs are looked at from the end of the list, which has the lowest pages.
-/

namespace Mdbx.Gc

/-! ## 1. Definitions -/

/-- `MAX_PAGENO` -/
def maxPageno : Nat := 0x7FFFffff

/-- `defrag_detent - seq` as a `size_t`. -/
def sub64 (a b : Nat) : Nat := (a + 2 ^ 64 - b) % 2 ^ 64

/-- The loop over `span`, with the cells still above the run; the word before the first cell is read
but ends the loop. -/
def spanFrom (cells : Nat → Nat) (i : Nat) : Nat → Nat
  | 0 => i
  | k + 1 => if sub32 (cells (k + 1)) (cells i) = i - (k + 1) then spanFrom cells i k else i - (k + 1)

/-- `best_pos` and `best_extra`. -/
structure Best where
  pos : Nat
  extra : Nat

/-- The loop over the runs, from the one that ends at the cell `i`. -/
def bestLoop (cells : Nat → Nat) (seq bound : Nat) : Nat → Nat → Best → Best
  | 0, _, best => best
  | fuel + 1, i, best =>
    if i < seq ∨ bound < cells i then best
    else
      let span := spanFrom cells i (i - 1)
      if seq ≤ span ∧ span - seq < best.extra then
        if span - seq = 0 then ⟨i, 0⟩
        else bestLoop cells seq bound fuel (i - span) ⟨i, span - seq⟩
      else bestLoop cells seq bound fuel (i - span) best

/-- `pnl_cut` -/
def pnlCut (pl : Pnl) (pos span : Nat) : Pnl :=
  if 0 < span then
    ⟨Buffer.moveDown pl.cells pos (pos + span) (pl.size - span + 1 - pos), pl.size - span⟩
  else pl

/-- `pnl_get_best_sequence`: the first page of the run, or zero, and the list afterwards -/
def pnlGetBestSequence (pl : Pnl) (seq defragDetent : Nat) : Nat × Pnl :=
  let best := bestLoop pl.cells seq (sub64 defragDetent seq) (pl.size + 1) pl.size ⟨0, maxPageno⟩
  if best.pos ≠ 0 then (pl.cells best.pos, pnlCut pl (best.pos - seq + 1) seq) else (0, pl)

/-! ## 2. Maximal runs -/

/-- A run that cannot be made longer. -/
structure MaxRun (l : List Nat) (p n : Nat) : Prop where
  run : Run l p n
  top : p + n ∉ l
  start : ∀ q ∈ l, q + 1 ≠ p

theorem Run.longer {l : List Nat} {p n : Nat} (h : Run l p n) (htop : p + n ∈ l) :
    Run l p (n + 1) := by
  intro k hk
  rcases Nat.lt_succ_iff_lt_or_eq.mp hk with hlt | heq
  · exact h k hlt
  · rw [heq]
    exact htop

theorem MaxRun.unique {l : List Nat} {p n m : Nat} (h : MaxRun l p n) (h' : MaxRun l p m) :
    n = m := by
  rcases Nat.lt_trichotomy n m with hlt | heq | hgt
  · exact absurd (h'.run n hlt) h.top
  · exact heq
  · exact absurd (h.run m hgt) h'.top

-- from the page `p` upwards
theorem exists_top {l : List Nat} (hp : ∀ p ∈ l, p < 2 ^ 32) {p n : Nat} (h : Run l p n)
    (hpos : 0 < n) : ∃ m, n ≤ m ∧ Run l p m ∧ p + m ∉ l := by
  induction hk : 2 ^ 32 - (p + n) generalizing n with
  | zero =>
    have hlast := hp _ (h (n - 1) (by omega))
    refine ⟨n, le_rfl, h, fun hmem => ?_⟩
    have := hp _ hmem
    omega
  | succ k ih =>
    by_cases htop : p + n ∈ l
    · have ⟨m, hm, hrun⟩ := ih (h.longer htop) (Nat.succ_pos n) (by omega)
      exact ⟨m, by omega, hrun⟩
    · exact ⟨n, le_rfl, h, htop⟩

/-- Every run is part of a maximal one. -/
theorem exists_maxRun {l : List Nat} (hp : ∀ p ∈ l, p < 2 ^ 32) {p n : Nat} (h : Run l p n)
    (hpos : 0 < n) : ∃ r m, MaxRun l r m ∧ r ≤ p ∧ p + n ≤ r + m := by
  induction p generalizing n with
  | zero =>
    have ⟨m, hm, hrun, htop⟩ := exists_top hp h hpos
    exact ⟨0, m, ⟨hrun, htop, fun q _ => Nat.succ_ne_zero q⟩, le_rfl, by omega⟩
  | succ p ih =>
    by_cases hmem : p ∈ l
    · have hlonger : Run l p (n + 1) := by
        intro k hk
        cases k with
        | zero => exact hmem
        | succ k =>
          have := h k (by omega)
          rwa [show p + (k + 1) = p + 1 + k by omega]
      have ⟨r, m, hmax, hr, hend⟩ := ih hlonger (Nat.succ_pos n)
      exact ⟨r, m, hmax, by omega, by omega⟩
    · have ⟨m, hm, hrun, htop⟩ := exists_top hp h hpos
      refine ⟨p + 1, m, ⟨hrun, htop, fun q hq heq => ?_⟩, le_rfl, by omega⟩
      rw [Nat.succ.inj heq] at hq
      exact hmem hq

/-! ## 3. The run at a cell -/

section Cells

variable {pl : Pnl} {seq i : Nat}

theorem spanFrom_spec (h : Repnl pl) (his : i ≤ pl.size) : ∀ k, k < i →
    (∀ j, j < i - k → pl.cells (i - j) = pl.cells i + j) →
    let n := spanFrom pl.cells i k
    0 < n ∧ n ≤ i ∧ (∀ j, j < n → pl.cells (i - j) = pl.cells i + j) ∧
      (n < i → pl.cells (i - n) ≠ pl.cells i + n)
  | 0, hk, hrun => ⟨hk, le_rfl, hrun, fun hlt => absurd hlt (Nat.lt_irrefl i)⟩
  | k + 1, hk, hrun => by
    have hbelow := (h.cell (i := i) (by omega) his).2
    have habove := h.gap his (i - (k + 1)) (by omega)
    rw [show i - (i - (k + 1)) = k + 1 by omega] at habove
    have hcell := (h.cell (i := k + 1) (by omega) (by omega)).2
    have hsub := sub32_of_le (a := pl.cells (k + 1)) (b := pl.cells i) (by omega) hcell
    dsimp only
    unfold spanFrom
    rw [hsub]
    by_cases heq : pl.cells (k + 1) - pl.cells i = i - (k + 1)
    · rw [if_pos heq]
      apply spanFrom_spec h his k (by omega)
      intro j hj
      by_cases hlast : j < i - (k + 1)
      · exact hrun j hlast
      · have hj' : j = i - (k + 1) := by omega
        rw [hj', show i - (i - (k + 1)) = k + 1 by omega]
        omega
    · rw [if_neg heq]
      refine ⟨by omega, by omega, hrun, fun _ => ?_⟩
      rw [show i - (i - (k + 1)) = k + 1 by omega]
      omega

-- the span at a cell with no page just below it
theorem maxRun_span (h : Repnl pl) (hi : 1 ≤ i) (his : i ≤ pl.size)
    (hstart : ∀ q ∈ pl.list, q + 1 ≠ pl.cells i) :
    MaxRun pl.list (pl.cells i) (spanFrom pl.cells i (i - 1)) := by
  have hspan := spanFrom_spec h his (i - 1) (by omega) (by
    intro j hj
    have hj' : j = 0 := by omega
    rw [hj']
    rfl)
  let n := spanFrom pl.cells i (i - 1)
  have hrun : Run pl.list (pl.cells i) n := by
    intro k hk
    rw [← hspan.2.2.1 k hk]
    exact cells_mem (by have := hspan.2.1; omega) (by omega)
  refine ⟨hrun, fun htop => ?_, hstart⟩
  have hcell := run_cells h hi his (hrun.longer htop) n (Nat.lt_succ_self n)
  exact hspan.2.2.2 hcell.1 hcell.2

-- a run starts at a cell, and has no more pages than there are cells up to it
theorem MaxRun.cell (h : Repnl pl) {r n : Nat} (hmax : MaxRun pl.list r n) (hn : 0 < n) :
    ∃ j, 1 ≤ j ∧ j ≤ pl.size ∧ pl.cells j = r ∧ n ≤ j := by
  have ⟨j, hj, hjs, hc⟩ := mem_list.1 (hmax.run 0 hn)
  rw [Nat.add_zero] at hc
  have hrun := hmax.run
  rw [← hc] at hrun
  have hlast := (run_cells h hj hjs hrun (n - 1) (by omega)).1
  exact ⟨j, hj, hjs, hc, by omega⟩

end Cells

/-! ## 4. The loop -/

section Loop

variable {pl : Pnl} {seq bound i : Nat} {best : Best}

/-- The runs behind the cell `i`. -/
def Behind (pl : Pnl) (i r : Nat) : Prop := i = 0 ∨ r < pl.cells i

/-- The best of the runs that `seen` holds of. -/
structure BestOf (pl : Pnl) (seq bound : Nat) (seen : Nat → Prop) (best : Best) : Prop where
  none : best.pos = 0 → best.extra = maxPageno ∧
    ∀ r n, MaxRun pl.list r n → seq ≤ n → seen r → False
  some : best.pos ≠ 0 → best.pos ≤ pl.size ∧ pl.cells best.pos ≤ bound ∧
    MaxRun pl.list (pl.cells best.pos) (seq + best.extra) ∧
    ∀ r n, MaxRun pl.list r n → seq ≤ n → seen r → seq + best.extra ≤ n

theorem BestOf.weaken {seen seen' : Nat → Prop} (h : BestOf pl seq bound seen best)
    (hseen : ∀ r n, MaxRun pl.list r n → seq ≤ n → seen' r → seen r) :
    BestOf pl seq bound seen' best := by
  constructor
  · intro hpos
    have ⟨hextra, hnone⟩ := h.none hpos
    exact ⟨hextra, fun r n hmax hn hr => hnone r n hmax hn (hseen r n hmax hn hr)⟩
  · intro hpos
    have ⟨hsize, hbound, hrun, hleast⟩ := h.some hpos
    exact ⟨hsize, hbound, hrun, fun r n hmax hn hr => hleast r n hmax hn (hseen r n hmax hn hr)⟩

-- what is not behind the cell starts at it or above it
theorem not_behind (h : Repnl pl) (hi : 1 ≤ i) {r n : Nat}
    (hmax : MaxRun pl.list r n) (hn : 0 < n) (hnot : ¬Behind pl i r) :
    ∃ j, 1 ≤ j ∧ j ≤ i ∧ pl.cells j = r ∧ n ≤ j := by
  have ⟨j, hj, hjs, hc, hnj⟩ := hmax.cell h hn
  refine ⟨j, hj, ?_, hc, hnj⟩
  by_contra hji
  have hlt := h.lt hi (show i < j by omega) hjs
  exact hnot (Or.inr (by omega))

-- the span ends before a page that nothing stands below
theorem start_next (h : Repnl pl) (hi : 1 ≤ i) (his : i ≤ pl.size) {n : Nat}
    (hmax : MaxRun pl.list (pl.cells i) n) (hn : 0 < n) (hlt : n < i) :
    ∀ q ∈ pl.list, q + 1 ≠ pl.cells (i - n) := by
  intro q hq heq
  have ⟨j, hj, hjs, hc⟩ := mem_list.1 hq
  have hlast := (run_cells h hi his hmax.run (n - 1) (by omega)).2
  have hgap := h.gap his n hlt
  have hne : pl.cells (i - n) ≠ pl.cells i + n := by
    intro hcell
    apply hmax.top
    rw [← hcell]
    exact cells_mem (by omega) (by omega)
  by_cases hji : j ≤ i - n
  · by_cases hje : j = i - n
    · rw [hje] at hc
      omega
    · have := h.lt hj (show j < i - n by omega) (by omega)
      omega
  · -- the last page of the run
    have hle : pl.cells j ≤ pl.cells (i - (n - 1)) := by
      by_cases hje : j = i - (n - 1)
      · rw [hje]
      · exact Nat.le_of_lt (h.lt (by omega) (show i - (n - 1) < j by omega) hjs)
    omega

-- between the cell and the next start there is one run
theorem behind_next (h : Repnl pl) (hi : 1 ≤ i) (his : i ≤ pl.size) {n : Nat}
    (hmax : MaxRun pl.list (pl.cells i) n) (hn : 0 < n) {r m : Nat} (hr : MaxRun pl.list r m)
    (hm : 0 < m) (hbehind : Behind pl (i - n) r) : Behind pl i r ∨ r = pl.cells i ∧ m = n := by
  by_cases hold : Behind pl i r
  · exact Or.inl hold
  · refine Or.inr ?_
    have ⟨j, hj, hji, hc, _⟩ := not_behind h hi hr hm hold
    have hje : j = i := by
      by_contra hne
      have hup : i - n < j := by
        by_contra hlow
        rcases hbehind with hzero | hlt
        · omega
        · by_cases heq : j = i - n
          · rw [heq] at hc
            omega
          · have := h.lt hj (show j < i - n by omega) (by omega)
            omega
      -- inside of the run
      have hin := (run_cells h hi his hmax.run (i - j) (by omega)).2
      rw [show i - (i - j) = j by omega] at hin
      have hprev := hmax.run (i - j - 1) (by omega)
      exact hr.start _ hprev (by omega)
    rw [hje] at hc
    rw [← hc] at hr
    exact ⟨hc.symm, hr.unique hmax⟩

/-- The loop finds the best of the runs that start low enough. -/
theorem bestLoop_spec (h : Repnl pl) (hlen : pl.size ≤ maxPageno) (hseq : 1 ≤ seq) :
    ∀ fuel i best, i < fuel → i ≤ pl.size →
    (1 ≤ i → ∀ q ∈ pl.list, q + 1 ≠ pl.cells i) → BestOf pl seq bound (Behind pl i) best →
    BestOf pl seq bound (· ≤ bound) (bestLoop pl.cells seq bound fuel i best)
  | 0, i, _, hfuel, _, _, _ => absurd hfuel (Nat.not_lt_zero i)
  | fuel + 1, i, best, hfuel, his, hstart, hbest => by
    unfold bestLoop
    by_cases hend : i < seq ∨ bound < pl.cells i
    · rw [if_pos hend]
      apply hbest.weaken
      intro r n hmax hn hr
      by_contra hnot
      have hi : 1 ≤ i := by
        by_contra hzero
        exact hnot (Or.inl (by omega))
      have ⟨j, hj, hji, hc, hnj⟩ := not_behind h hi hmax (by omega) hnot
      rcases hend with hshort | habove
      · omega
      · by_cases hje : j = i
        · rw [hje] at hc
          omega
        · have := h.lt hj (show j < i by omega) his
          omega
    · rw [if_neg hend]
      have hi : 1 ≤ i := by omega
      have hle : pl.cells i ≤ bound := by omega
      have hmax := maxRun_span h hi his (hstart hi)
      generalize spanFrom pl.cells i (i - 1) = span at hmax
      have hpos : 0 < span := by
        by_contra hzero
        apply hmax.top
        rw [show span = 0 by omega]
        exact cells_mem hi his
      have hlast := (run_cells h hi his hmax.run (span - 1) (by omega)).1
      have hspan : span ≤ i := by omega
      have hnext : 1 ≤ i - span → ∀ q ∈ pl.list, q + 1 ≠ pl.cells (i - span) :=
        fun hi' => start_next h hi his hmax hpos (by omega)
      have hbehind : ∀ r m, MaxRun pl.list r m → seq ≤ m → Behind pl (i - span) r →
          Behind pl i r ∨ r = pl.cells i ∧ m = span :=
        fun r m hr hm => behind_next h hi his hmax hpos hr (by omega)
      dsimp only
      by_cases hbetter : seq ≤ span ∧ span - seq < best.extra
      · have hrun : MaxRun pl.list (pl.cells i) (seq + (span - seq)) := by
          rw [Nat.add_sub_cancel' hbetter.1]
          exact hmax
        rw [if_pos hbetter]
        by_cases hexact : span - seq = 0
        · rw [if_pos hexact]
          rw [hexact] at hrun
          exact ⟨fun hpos => absurd hpos (by dsimp only; omega),
            fun _ => ⟨his, hle, hrun, fun r n _ hn _ => hn⟩⟩
        · rw [if_neg hexact]
          apply bestLoop_spec h hlen hseq fuel _ _ (by omega) (by omega) hnext
          refine ⟨fun hpos => absurd hpos (by dsimp only; omega),
            fun _ => ⟨his, hle, hrun, fun r m hr hm hb => ?_⟩⟩
          dsimp only
          rcases hbehind r m hr hm hb with hold | hnew
          · by_cases hpos : best.pos = 0
            · exact absurd ((hbest.none hpos).2 r m hr hm hold) id
            · have := (hbest.some hpos).2.2.2 r m hr hm hold
              omega
          · omega
      · rw [if_neg hbetter]
        apply bestLoop_spec h hlen hseq fuel _ _ (by omega) (by omega) hnext
        constructor
        · intro hpos
          have hnone := hbest.none hpos
          refine ⟨hnone.1, fun r m hr hm hb => ?_⟩
          rcases hbehind r m hr hm hb with hold | hnew
          · exact hnone.2 r m hr hm hold
          · omega
        · intro hpos
          have hsome := hbest.some hpos
          refine ⟨hsome.1, hsome.2.1, hsome.2.2.1, fun r m hr hm hb => ?_⟩
          rcases hbehind r m hr hm hb with hold | hnew
          · exact hsome.2.2.2 r m hr hm hold
          · omega

end Loop

/-! ## 5. The answer -/

/-- Page numbers. -/
structure Pages (pl : Pnl) : Prop where
  strict : pl.list.Pairwise (· > ·)
  page : ∀ p ∈ pl.list, 0 < p ∧ p ≤ maxPageno

/-- `seq` pages of the list, all below the detent. -/
def Fits (l : List Nat) (seq detent p : Nat) : Prop := Run l p seq ∧ p + seq ≤ detent

/-- The list has no run below the detent, and the result says so; or the result is the first of `seq`
pages from a run of the least length that has them, and these are gone from the list. -/
structure BestFit (pl : Pnl) (seq detent : Nat) (result : Nat × Pnl) : Prop where
  none : (¬∃ p, Fits pl.list seq detent p) ↔ result.1 = 0 ∧ result.2 = pl
  some : (∃ p, Fits pl.list seq detent p) → ∃ r n, MaxRun pl.list r n ∧
    r ≤ result.1 ∧ result.1 + seq ≤ r + n ∧ result.1 + seq ≤ detent ∧
    (∀ r' n', MaxRun pl.list r' n' → (∃ p, r' ≤ p ∧ p + seq ≤ r' + n' ∧ p + seq ≤ detent) → n ≤ n') ∧
    result.2.list = pl.list.filter fun q => q < result.1 ∨ result.1 + seq ≤ q

theorem Pages.repnl {pl : Pnl} (h : Pages pl) : Repnl pl :=
  ⟨h.strict, fun p hp => ⟨(h.page p hp).1, by
    have := (h.page p hp).2
    unfold maxPageno at this
    omega⟩⟩

-- the cells of a list are as many different pages
theorem Pages.size_le {pl : Pnl} (h : Pages pl) : pl.size ≤ maxPageno := by
  by_cases hzero : pl.size = 0
  · rw [hzero]
    exact Nat.zero_le _
  · have hgap := h.repnl.gap le_rfl (pl.size - 1) (by omega)
    have hlow := (h.page (pl.cells pl.size) (cells_mem (by omega) le_rfl)).1
    have hhigh := (h.page (pl.cells 1) (cells_mem le_rfl (by omega))).2
    rw [show pl.size - (pl.size - 1) = 1 by omega] at hgap
    omega

section Answer

variable {pl : Pnl} {seq detent : Nat}

theorem pnlCut_eq {t : Nat} (hseq : 1 ≤ seq) (ht : seq ≤ t) (hts : t ≤ pl.size) :
    pnlCut pl (t - seq + 1) seq = cut pl t seq := by
  unfold pnlCut cut
  rw [if_pos (show 0 < seq from hseq), show t - seq + 1 + seq = t + 1 by omega, show t - seq + 1 = t + 1 - seq by omega,
    show pl.size - seq + 1 - (t + 1 - seq) = pl.size - t by omega]

theorem Run.le_size (h : Repnl pl) {p : Nat} (hrun : Run pl.list p seq) (hseq : 1 ≤ seq) :
    seq ≤ pl.size := by
  have ⟨i, hi, his, hc⟩ := mem_list.1 (hrun 0 hseq)
  rw [Nat.add_zero] at hc
  rw [← hc] at hrun
  have := (run_cells h hi his hrun (seq - 1) (by omega)).1
  omega

variable (pl seq detent) in
/-- What the loop comes to. -/
def bestOf : Best :=
  bestLoop pl.cells seq (sub64 detent seq) (pl.size + 1) pl.size ⟨0, maxPageno⟩

theorem bestOf_spec (h : Pages pl) (hseq : 1 ≤ seq) :
    BestOf pl seq (sub64 detent seq) (· ≤ sub64 detent seq) (bestOf pl seq detent) := by
  apply bestLoop_spec h.repnl h.size_le hseq _ _ _ (Nat.lt_succ_self _) le_rfl
  · intro hsize q hq heq
    have ⟨j, hj, hjs, hc⟩ := mem_list.1 hq
    by_cases hje : j = pl.size
    · rw [hje] at hc
      omega
    · have := h.repnl.lt hj (show j < pl.size by omega) le_rfl
      omega
  · refine ⟨fun _ => ⟨rfl, fun r n hmax hn hr => ?_⟩, fun hpos => absurd rfl hpos⟩
    have ⟨j, hj, hjs, hc, _⟩ := hmax.cell h.repnl (by omega)
    rcases hr with hzero | hlt
    · omega
    · by_cases hje : j = pl.size
      · rw [hje] at hc
        omega
      · have := h.repnl.lt hj (show j < pl.size by omega) le_rfl
        omega

theorem result_none (hpos : (bestOf pl seq detent).pos = 0) :
    pnlGetBestSequence pl seq detent = (0, pl) := if_neg (not_not.mpr hpos)

theorem result_some (hpos : (bestOf pl seq detent).pos ≠ 0) : pnlGetBestSequence pl seq detent =
    (pl.cells (bestOf pl seq detent).pos, pnlCut pl ((bestOf pl seq detent).pos - seq + 1) seq) :=
  if_pos hpos

-- what is taken from a cell leaves the other pages
theorem taken_list (h : Repnl pl) {t n : Nat} (hseq : 1 ≤ seq) (ht : 1 ≤ t) (hts : t ≤ pl.size)
    (hrun : Run pl.list (pl.cells t) (seq + n)) :
    (pnlCut pl (t - seq + 1) seq).list =
      pl.list.filter fun q => q < pl.cells t ∨ pl.cells t + seq ≤ q := by
  have hlast := run_cells h ht hts hrun (seq - 1) (by omega)
  have hwindow : Window pl (seq - 1) t := ⟨hlast.1, hts, hlast.2⟩
  have hcut := cut_list_filter h hwindow
  rw [Nat.sub_add_cancel hseq] at hcut
  rw [pnlCut_eq hseq (by omega) hts]
  exact hcut

theorem bestFit_of_none (hnot : ¬∃ p, Fits pl.list seq detent p)
    (hpos : (bestOf pl seq detent).pos = 0) :
    BestFit pl seq detent (pnlGetBestSequence pl seq detent) := by
  rw [result_none hpos]
  exact ⟨iff_of_true hnot ⟨rfl, rfl⟩, fun h => absurd h hnot⟩

theorem bestFit_of_some (h : Pages pl) (hseq : 1 ≤ seq) (hdetent : seq ≤ detent)
    (hlt : detent < 2 ^ 32) (hpos : (bestOf pl seq detent).pos ≠ 0) :
    BestFit pl seq detent (pnlGetBestSequence pl seq detent) := by
  have hbound : sub64 detent seq = detent - seq := by
    unfold sub64
    omega
  have hspec : BestOf pl seq (sub64 detent seq) (· ≤ sub64 detent seq) (bestOf pl seq detent) :=
    bestOf_spec h hseq
  rw [hbound] at hspec
  have ⟨hsize, hle, hmax, hleast⟩ := hspec.some hpos
  rw [result_some hpos]
  generalize (bestOf pl seq detent).pos = t at *
  have ht : 1 ≤ t := by omega
  have hfits : Fits pl.list seq detent (pl.cells t) :=
    ⟨fun k hk => hmax.run k (by omega), by omega⟩
  have hpage := (h.repnl.cell ht hsize).1
  constructor
  · exact iff_of_false (fun hnot => hnot ⟨_, hfits⟩) fun hzero => by
      have := hzero.1
      dsimp only at this
      omega
  · intro _
    refine ⟨pl.cells t, _, hmax, le_rfl, by omega, by omega, fun r n hr hp => ?_,
      taken_list h.repnl hseq ht hsize hmax.run⟩
    have ⟨p, hrp, hpn, hpd⟩ := hp
    exact hleast r n hr (by omega) (by omega)

/-- The sequence is the best fit exactly if the detent is not below the number of pages, or no run
of the list has that many. -/
theorem pnlGetBestSequence_bestFit_iff (h : Pages pl) (hseq : 1 ≤ seq) (hdetent : detent < 2 ^ 32)
    (hsize : seq < 2 ^ 64) :
    BestFit pl seq detent (pnlGetBestSequence pl seq detent) ↔
      (seq ≤ detent ∨ ¬∃ p, Run pl.list p seq) := by
  have hspec : BestOf pl seq (sub64 detent seq) (· ≤ sub64 detent seq) (bestOf pl seq detent) :=
    bestOf_spec h hseq
  have hlimit : ∀ p ∈ pl.list, p < 2 ^ 32 := fun p hp => (h.repnl.page p hp).2
  constructor
  · intro hfit
    by_contra hnot
    rw [not_or, not_not] at hnot
    have hshort : detent < seq := by omega
    have ⟨p, hrun⟩ := hnot.2
    have hnone : ¬∃ p, Fits pl.list seq detent p := by
      intro hfits
      have ⟨p, hp⟩ := hfits
      have := hp.2
      omega
    -- the bound has wrapped around
    have hlen := hrun.le_size h.repnl hseq
    have hmax := h.size_le
    have hbound : maxPageno ≤ sub64 detent seq := by
      unfold sub64 maxPageno at *
      omega
    have hzero := (hfit.none.mp hnone).1
    have ⟨r, m, hr, _, hend⟩ := exists_maxRun hlimit hrun hseq
    have ⟨j, hj, hjs, hc, _⟩ := hr.cell h.repnl (by omega)
    have hpage := (h.page _ (hr.run 0 (by omega))).2
    by_cases hpos : (bestOf pl seq detent).pos = 0
    · exact (hspec.none hpos).2 r m hr (by omega) (by omega)
    · have hcell := (h.repnl.cell (i := (bestOf pl seq detent).pos) (by omega)
        (hspec.some hpos).1).1
      rw [result_some hpos] at hzero
      dsimp only at hzero
      omega
  · intro hcase
    by_cases hpos : (bestOf pl seq detent).pos = 0
    · apply bestFit_of_none _ hpos
      intro hfits
      have ⟨p, hrun, hp⟩ := hfits
      have hbound : sub64 detent seq = detent - seq := by
        unfold sub64
        omega
      have ⟨r, m, hr, hrp, hend⟩ := exists_maxRun hlimit hrun hseq
      exact (hspec.none hpos).2 r m hr (by omega) (by omega)
    · rcases hcase with hle | hno
      · exact bestFit_of_some h hseq hle hdetent hpos
      · have hmax := (hspec.some hpos).2.2.1
        exact absurd ⟨_, fun k hk => hmax.run k (by omega)⟩ hno

end Answer

theorem pnlGetBestSequence_bestFit_sample :
    BestFit (Pnl.ofList [20, 19, 18, 12, 11, 5]) 2 16
      (pnlGetBestSequence (Pnl.ofList [20, 19, 18, 12, 11, 5]) 2 16) :=
  (pnlGetBestSequence_bestFit_iff ⟨by decide, by decide⟩ (by decide) (by decide) (by decide)).mpr
    (Or.inl (by decide))

/-- With a detent below the number of pages the bound wraps around. -/
theorem pnlGetBestSequence_above_detent :
    (pnlGetBestSequence (Pnl.ofList [14, 13, 12, 11, 10]) 5 4).1 = 10 ∧
      ¬BestFit (Pnl.ofList [14, 13, 12, 11, 10]) 5 4
        (pnlGetBestSequence (Pnl.ofList [14, 13, 12, 11, 10]) 5 4) := by
  have hten : (pnlGetBestSequence (Pnl.ofList [14, 13, 12, 11, 10]) 5 4).1 = 10 := by decide +kernel
  refine ⟨hten, fun h => ?_⟩
  have hnone : ¬∃ p, Fits (Pnl.ofList [14, 13, 12, 11, 10]).list 5 4 p := by
    intro hfits
    have ⟨p, hp⟩ := hfits
    have := hp.2
    omega
  have hzero := (h.none.mp hnone).1
  rw [hten] at hzero
  cases hzero

end Mdbx.Gc
