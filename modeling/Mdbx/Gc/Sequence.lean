import Mdbx.Pnl

/-!
# Gc.Sequence — `gc_repnl_get_sequence`

A contiguous run is looked for from the end of the list, where the smallest pages are.  The pages of
a descending list are consecutive exactly where the ends of a window differ by its width, so both
scans come down to the first window from the end that does.
-/

namespace Mdbx.Gc

/-! ## 1. The scan -/

/-- The difference of two `pgno_t`. -/
def sub32 (a b : Nat) : Nat := (a + 2 ^ 32 - b) % 2 ^ 32

/-- `range[-k] - range[offset - k] == target` of `scan4seq_fallback` for the cell `i`. -/
def hit (cells : Nat → Nat) (seq i : Nat) : Bool :=
  sub32 (cells i) (cells (i - seq)) = sub32 0 seq

/-- The first loop of `scan4seq_fallback`: four cells a round, and the place where it stops. -/
def scanFours (cells : Nat → Nat) (seq detent : Nat) : Nat → Nat ⊕ Nat
  | range + 4 =>
      if hit cells seq (range + 4) then .inl (range + 4)
      else if hit cells seq (range + 3) then .inl (range + 3)
      else if hit cells seq (range + 2) then .inl (range + 2)
      else if hit cells seq (range + 1) then .inl (range + 1)
      else if range > detent + 3 then scanFours cells seq detent range
      else .inr range
  | range => .inr range

/-- The last loop of `scan4seq_fallback`. -/
def scanOnes (cells : Nat → Nat) (seq detent : Nat) : Nat → Option Nat
  | range + 1 =>
      if hit cells seq (range + 1) then some (range + 1)
      else if range > detent then scanOnes cells seq detent range
      else none
  | 0 => none

/-- `scan4seq_fallback` for a descending list, with indices in the place of pointers -/
def scan4seqFallback (cells : Nat → Nat) (range len seq : Nat) : Option Nat :=
  let detent := range + seq - len
  if len > seq + 3 then
    match scanFours cells seq detent range with
    | .inl found => some found
    | .inr rest => if rest = detent then none else scanOnes cells seq detent rest
  else scanOnes cells seq detent range

/-! ## 2. The run -/

structure AllocFlags where
  reserve : Bool
  exactly : Bool

/-- The inner loop that steps over a run; `none` once `left` has wrapped below zero. -/
def skipRun (cells : Nat → Nat) (num : Nat) : Nat → Nat → Option (Option (Nat × Nat))
  | 0, _ => none
  | left + 1, target =>
      if left < num then some none
      else if sub32 (cells (target + 2)) (cells (target + 1)) = 1 then
        skipRun cells num left (target + 1)
      else some (some (target + 1, left))

/-- `for (end = repnl + len; ++target <= end;) target[-num] = *target` -/
def cut (pl : Pnl) (target num : Nat) : Pnl :=
  ⟨Buffer.moveDown pl.cells (target + 1 - num) (target + 1) (pl.size - target), pl.size - num⟩

/-- The outer loop; `none` where it leaves the list. -/
def takeSequence (pl : Pnl) (num : Nat) (flags : AllocFlags) : Nat → Option Nat → Option (Nat × Pnl)
  | _, none => some (0, pl)
  | 0, some _ => none
  | fuel + 1, some target =>
      if flags.exactly ∧ pl.size > num ∧ sub32 (pl.cells (target + 1)) (pl.cells target) = 1 then
        match skipRun pl.cells num (pl.size - target) target with
        | none => none
        | some none => some (0, pl)
        | some (some (target, left)) =>
            takeSequence pl num flags fuel (scan4seqFallback pl.cells target left (num - 1))
      else some (pl.cells target, if flags.reserve then pl else cut pl target num)

/-- `gc_repnl_get_sequence`: the first page of the run and the list afterwards; `none` where it
reads past the list -/
def gcRepnlGetSequence (pl : Pnl) (num : Nat) (flags : AllocFlags) : Option (Nat × Pnl) :=
  let len := pl.size
  let seq := num - 1
  if sub32 (pl.cells (len - seq)) (pl.cells len) = seq ∧
      (¬ flags.exactly ∨ len = num ∨ sub32 (pl.cells (len - num)) (pl.cells len) ≠ num) then
    some (pl.cells len, if flags.reserve then pl else ⟨pl.cells, len - num⟩)
  else takeSequence pl num flags (len + 1) (scan4seqFallback pl.cells len len seq)

/-! ## 3. What the scan finds -/

/-- The last place of `(lo, hi]` at which `p` holds, if there is one. -/
def LastAt (p : Nat → Bool) (lo hi : Nat) : Option Nat → Prop
  | none => ∀ i, lo < i → i ≤ hi → p i = false
  | some t => lo < t ∧ t ≤ hi ∧ p t = true ∧ ∀ i, t < i → i ≤ hi → p i = false

section Scan

variable {cells : Nat → Nat} {seq detent : Nat}

theorem LastAt.extend {p : Nat → Bool} {lo mid hi : Nat} {r : Option Nat} (h : LastAt p lo mid r)
    (hle : mid ≤ hi) (hno : ∀ i, mid < i → i ≤ hi → p i = false) : LastAt p lo hi r := by
  have hall : ∀ i, i ≤ hi → (i ≤ mid → p i = false) → p i = false := by
    intro i hi hlow
    by_cases him : i ≤ mid
    · exact hlow him
    · exact hno i (by omega) hi
  cases r with
  | none => exact fun i hlo hi => hall i hi fun him => h i hlo him
  | some t =>
    exact ⟨h.1, by have := h.2.1; omega, h.2.2.1,
      fun i hlt hi => hall i hi fun him => h.2.2.2 i hlt him⟩

theorem lastAt_self {p : Nat → Bool} {lo t : Nat} (hlt : lo < t) (hp : p t = true) :
    LastAt p lo t (some t) :=
  ⟨hlt, Nat.le_refl _, hp, fun _ hlo hhi => absurd hhi (by omega)⟩

theorem add_false {p : Nat → Bool} {lo hi : Nat} (hp : p (lo + 1) = false)
    (hno : ∀ i, lo + 1 < i → i ≤ hi → p i = false) :
    ∀ i, lo < i → i ≤ hi → p i = false := by
  intro i hlo hhi
  by_cases hi : i = lo + 1
  · rw [hi]
    exact hp
  · exact hno i (by omega) hhi

theorem scanOnes_lastAt : ∀ {range : Nat}, detent < range →
    LastAt (hit cells seq) detent range (scanOnes cells seq detent range)
  | range + 1, hlt => by
    unfold scanOnes
    by_cases hh : hit cells seq (range + 1) = true
    · rw [if_pos hh]
      exact lastAt_self hlt hh
    · have hno : ∀ i, range < i → i ≤ range + 1 → hit cells seq i = false :=
        add_false (eq_false_of_ne_true hh) fun i hlo hhi => absurd hhi (by omega)
      rw [if_neg hh]
      by_cases hd : range > detent
      · rw [if_pos hd]
        exact (scanOnes_lastAt hd).extend (Nat.le_succ _) hno
      · rw [if_neg hd]
        exact fun i hlo hhi => hno i (by omega) hhi

/-- Where the first loop stops, nothing has been found above. -/
def FoursAt (p : Nat → Bool) (lo hi : Nat) : Nat ⊕ Nat → Prop
  | .inl t => LastAt p lo hi (some t)
  | .inr rest => lo ≤ rest ∧ rest ≤ hi ∧ ∀ i, rest < i → i ≤ hi → p i = false

theorem FoursAt.extend {p : Nat → Bool} {lo mid hi : Nat} {r : Nat ⊕ Nat} (h : FoursAt p lo mid r)
    (hle : mid ≤ hi) (hno : ∀ i, mid < i → i ≤ hi → p i = false) : FoursAt p lo hi r := by
  cases r with
  | inl t => exact LastAt.extend (r := some t) h hle hno
  | inr rest =>
    apply And.intro h.1
    apply And.intro (Nat.le_trans h.2.1 hle)
    intro i hlo hhi
    by_cases him : i ≤ mid
    · exact h.2.2 i hlo him
    · exact hno i (by omega) hhi

theorem scanFours_foursAt : ∀ {range : Nat}, detent + 3 < range →
    FoursAt (hit cells seq) detent range (scanFours cells seq detent range)
  | range + 4, hlt => by
    unfold scanFours
    by_cases h0 : hit cells seq (range + 4) = true
    · rw [if_pos h0]
      exact lastAt_self (by omega) h0
    rw [if_neg h0]
    have hno0 : ∀ i, range + 3 < i → i ≤ range + 4 → hit cells seq i = false :=
      add_false (eq_false_of_ne_true h0) fun i hlo hhi => absurd hhi (by omega)
    by_cases h1 : hit cells seq (range + 3) = true
    · rw [if_pos h1]
      exact ⟨by omega, by omega, h1, hno0⟩
    rw [if_neg h1]
    have hno1 := add_false (eq_false_of_ne_true h1) hno0
    by_cases h2 : hit cells seq (range + 2) = true
    · rw [if_pos h2]
      exact ⟨by omega, by omega, h2, hno1⟩
    rw [if_neg h2]
    have hno2 := add_false (eq_false_of_ne_true h2) hno1
    by_cases h3 : hit cells seq (range + 1) = true
    · rw [if_pos h3]
      exact ⟨by omega, by omega, h3, hno2⟩
    rw [if_neg h3]
    have hall := add_false (eq_false_of_ne_true h3) hno2
    by_cases hd : range > detent + 3
    · rw [if_pos hd]
      exact (scanFours_foursAt hd).extend (by omega) hall
    · rw [if_neg hd]
      exact ⟨by omega, by omega, hall⟩

theorem scan4seqFallback_lastAt {range len : Nat} (hlt : seq < len) (hle : len ≤ range + seq) :
    LastAt (hit cells seq) (range + seq - len) range
      (scan4seqFallback cells range len seq) := by
  unfold scan4seqFallback
  simp only
  by_cases hlen : len > seq + 3
  · rw [if_pos hlen]
    have hf : FoursAt (hit cells seq) (range + seq - len) range
        (scanFours cells seq (range + seq - len) range) := scanFours_foursAt (by omega)
    cases hr : scanFours cells seq (range + seq - len) range with
    | inl t =>
      rw [hr] at hf
      exact hf
    | inr rest =>
      rw [hr] at hf
      simp only
      by_cases hd : rest = range + seq - len
      · rw [if_pos hd]
        exact fun i hlo hhi => hf.2.2 i (by omega) hhi
      · rw [if_neg hd]
        exact (scanOnes_lastAt (by have := hf.1; omega)).extend hf.2.1 hf.2.2
  · rw [if_neg hlen]
    exact scanOnes_lastAt (by omega)

end Scan

/-! ## 4. Runs of a descending list -/

/-- What `repnl` holds: page numbers in strictly descending order, none of them zero. -/
structure Repnl (pl : Pnl) : Prop where
  strict : pl.list.Pairwise (· > ·)
  page : ∀ p ∈ pl.list, 0 < p ∧ p < 2 ^ 32

/-- The `num` pages from `p` on are all there. -/
def Run (l : List Nat) (p num : Nat) : Prop := ∀ k, k < num → p + k ∈ l

/-- And neither neighbour of theirs is. -/
def ExactRun (l : List Nat) (p num : Nat) : Prop := Run l p num ∧ p - 1 ∉ l ∧ p + num ∉ l

/-- No run of `num` pages starts lower. -/
def LowestRun (l : List Nat) (p num : Nat) : Prop := Run l p num ∧ ∀ q, Run l q num → p ≤ q

/-- The cell `i` is the lower end of `seq + 1` consecutive pages. -/
def Window (pl : Pnl) (seq i : Nat) : Prop :=
  seq < i ∧ i ≤ pl.size ∧ pl.cells (i - seq) = pl.cells i + seq

section Runs

variable {pl : Pnl} {seq num i j : Nat}

theorem mem_list {p : Nat} : p ∈ pl.list ↔ ∃ i, 1 ≤ i ∧ i ≤ pl.size ∧ pl.cells i = p := by
  unfold Pnl.list
  simp only [List.mem_map, List.mem_range'_1]
  apply exists_congr
  intro i
  constructor
  · exact fun h => ⟨h.1.1, by have := h.1.2; omega, h.2⟩
  · exact fun h => ⟨⟨h.1, by have := h.2.1; omega⟩, h.2.2⟩

theorem cells_mem (hi : 1 ≤ i) (his : i ≤ pl.size) : pl.cells i ∈ pl.list :=
  mem_list.2 ⟨i, hi, his, rfl⟩

theorem Repnl.lt (h : Repnl pl) (hi : 1 ≤ i) (hij : i < j) (hj : j ≤ pl.size) :
    pl.cells j < pl.cells i := by
  have hs := List.pairwise_map.1 h.strict
  have hp := List.pairwise_iff_getElem.1 hs (i - 1) (j - 1)
    (by rw [List.length_range']; omega) (by rw [List.length_range']; omega) (by omega)
  simp only [List.getElem_range', Nat.one_mul] at hp
  rw [show 1 + (i - 1) = i by omega, show 1 + (j - 1) = j by omega] at hp
  exact hp

-- pages are at least as far apart as their cells
theorem Repnl.gap (h : Repnl pl) (hi : i ≤ pl.size) :
    ∀ k, k < i → pl.cells i + k ≤ pl.cells (i - k)
  | 0, _ => Nat.le_refl _
  | k + 1, hk => by
    have ih := h.gap hi k (by omega)
    have hlt := h.lt (show 1 ≤ i - (k + 1) by omega) (show i - (k + 1) < i - k by omega) (by omega)
    omega

theorem Window.cells_eq (h : Repnl pl) (hw : Window pl seq i) {k : Nat} (hk : k ≤ seq) :
    pl.cells (i - k) = pl.cells i + k := by
  have hlo := h.gap hw.2.1 k (by have := hw.1; omega)
  have hhi := h.gap (show i - k ≤ pl.size by have := hw.2.1; omega) (seq - k)
    (by have := hw.1; omega)
  rw [show i - k - (seq - k) = i - seq by omega, hw.2.2] at hhi
  omega

theorem Window.run (h : Repnl pl) (hw : Window pl seq i) : Run pl.list (pl.cells i) (seq + 1) := by
  intro k hk
  rw [← hw.cells_eq h (Nat.le_of_lt_succ hk)]
  exact cells_mem (by have := hw.1; omega) (by have := hw.2.1; omega)

-- consecutive pages of the list stand in consecutive cells
theorem run_cells (h : Repnl pl) (hi : 1 ≤ i) (his : i ≤ pl.size) (hr : Run pl.list (pl.cells i) num) :
    ∀ k, k < num → k < i ∧ pl.cells (i - k) = pl.cells i + k
  | 0, _ => ⟨hi, rfl⟩
  | k + 1, hk => by
    have ih := run_cells h hi his hr k (by omega)
    obtain ⟨j, hj, hjs, hc⟩ := mem_list.1 (hr (k + 1) hk)
    have hji : j < i - k := by
      by_contra hnot
      by_cases he : j = i - k
      · rw [he] at hc
        omega
      · have := h.lt (show 1 ≤ i - k by omega) (show i - k < j by omega) hjs
        omega
    -- a cell between the two would hold a page between them
    have hlast : j = i - (k + 1) := by
      by_contra hne
      have h₁ := h.lt hj (show j < i - (k + 1) by omega) (by omega)
      have h₂ := h.lt (show 1 ≤ i - (k + 1) by omega) (show i - (k + 1) < i - k by omega) (by omega)
      omega
    rw [← hlast]
    exact ⟨by omega, hc⟩

theorem Run.window (h : Repnl pl) {p : Nat} (hr : Run pl.list p (seq + 1)) :
    ∃ i, Window pl seq i ∧ pl.cells i = p := by
  obtain ⟨i, hi, his, hc⟩ := mem_list.1 (hr 0 (by omega))
  rw [Nat.add_zero] at hc
  rw [← hc] at hr
  have hlast := run_cells h hi his hr seq (by omega)
  exact ⟨i, ⟨hlast.1, his, hlast.2⟩, hc⟩

-- the last window is the lowest run
theorem Window.lowest (h : Repnl pl) (hw : Window pl seq i)
    (hlast : ∀ j, i < j → ¬ Window pl seq j) : LowestRun pl.list (pl.cells i) (seq + 1) := by
  apply And.intro (hw.run h)
  intro q hq
  obtain ⟨j, hj, hc⟩ := hq.window h
  rw [← hc]
  by_cases hij : i < j
  · exact absurd hj (hlast j hij)
  · by_cases he : i = j
    · rw [he]
    · have hjs := hj.1
      exact Nat.le_of_lt (h.lt (by omega) (show j < i by omega) hw.2.1)

theorem LowestRun.eq {l : List Nat} {p q : Nat} (hp : LowestRun l p num) (hq : LowestRun l q num) :
    p = q :=
  Nat.le_antisymm (hp.2 q hq.1) (hq.2 p hp.1)

-- the page below the lowest run is not in the list
theorem LowestRun.pred {l : List Nat} {p : Nat} (hp : LowestRun l p num) (hpos : 0 < p) :
    p - 1 ∉ l := by
  intro hmem
  have hrun : Run l (p - 1) num := by
    intro k hk
    by_cases hz : k = 0
    · rw [hz]
      exact hmem
    · rw [show p - 1 + k = p + (k - 1) by omega]
      exact hp.1 (k - 1) (by omega)
  have := hp.2 (p - 1) hrun
  omega

/-! ## 5. The differences -/

theorem sub32_of_le {a b : Nat} (h : b ≤ a) (ha : a < 2 ^ 32) : sub32 a b = a - b := by
  unfold sub32
  omega

theorem sub32_of_lt {a b : Nat} (h : a < b) (hb : b < 2 ^ 32) : sub32 a b = a + 2 ^ 32 - b := by
  unfold sub32
  omega

theorem Repnl.cell (h : Repnl pl) (hi : 1 ≤ i) (his : i ≤ pl.size) :
    0 < pl.cells i ∧ pl.cells i < 2 ^ 32 := h.page _ (cells_mem hi his)

theorem hit_iff (h : Repnl pl) (hpos : 0 < seq) (hlo : seq < i) (hi : i ≤ pl.size) :
    hit pl.cells seq i = true ↔ Window pl seq i := by
  have hlt := h.lt (show 1 ≤ i - seq by omega) (show i - seq < i by omega) hi
  have hgap := h.gap hi seq hlo
  have hc := (h.cell (show 1 ≤ i - seq by omega) (by omega)).2
  unfold hit
  rw [decide_eq_true_eq, sub32_of_lt hlt hc, sub32_of_lt hpos (by omega)]
  constructor
  · exact fun he => ⟨hlo, hi, by omega⟩
  · intro hw
    have := hw.2.2
    omega

theorem lastAt_window (h : Repnl pl) (hpos : 0 < seq) (hlt : seq < pl.size) :
    match scan4seqFallback pl.cells pl.size pl.size seq with
    | none => ∀ i, ¬ Window pl seq i
    | some t => Window pl seq t ∧ ∀ i, t < i → ¬ Window pl seq i := by
  have hs : LastAt (hit pl.cells seq) (pl.size + seq - pl.size) pl.size
      (scan4seqFallback pl.cells pl.size pl.size seq) :=
    scan4seqFallback_lastAt hlt (Nat.le_add_right pl.size seq)
  rw [Nat.add_sub_cancel_left] at hs
  cases hr : scan4seqFallback pl.cells pl.size pl.size seq with
  | none =>
    rw [hr] at hs
    intro i hw
    have hf := hs i hw.1 hw.2.1
    rw [(hit_iff h hpos hw.1 hw.2.1).2 hw] at hf
    cases hf
  | some t =>
    rw [hr] at hs
    apply And.intro ((hit_iff h hpos hs.1 hs.2.1).1 hs.2.2.1)
    intro i hlt hw
    have hf := hs.2.2.2 i hlt hw.2.1
    rw [(hit_iff h hpos hw.1 hw.2.1).2 hw] at hf
    cases hf

end Runs

/-! ## 6. What is left of the list -/

section Cut

variable {pl : Pnl} {num t : Nat}

-- the cells of a list by the place of a window in it
theorem list_split (cells : Nat → Nat) {size : Nat} (hn : num ≤ t) (ht : t ≤ size) :
    (List.range' 1 size).map cells =
      (List.range' 1 (t - num)).map cells ++ (List.range' (t + 1 - num) num).map cells ++
        (List.range' (t + 1) (size - t)).map cells := by
  rw [← List.map_append, ← List.map_append]
  congr 1
  have h₁ : t + 1 - num = 1 + (t - num) := by omega
  have h₂ : t + 1 = 1 + (t - num + num) := by omega
  have h₃ : size = t - num + num + (size - t) := by omega
  rw [h₁, List.range'_append_1]
  conv_rhs => rw [h₂, List.range'_append_1]
  rw [← h₃]

theorem cut_list (hn : num ≤ t) (ht : t ≤ pl.size) :
    (cut pl t num).list = (List.range' 1 (t - num)).map pl.cells ++
      (List.range' (t + 1) (pl.size - t)).map pl.cells := by
  unfold cut Pnl.list
  simp only
  have hsize : pl.size - num = t - num + (pl.size - t) := by omega
  rw [hsize, ← List.range'_append_1, List.map_append]
  congr 1
  · apply List.map_congr_left
    intro i hi
    have := (List.mem_range'_1.1 hi).2
    rw [Buffer.moveDown_apply _ _ _ _ _ (by omega), if_neg (by omega)]
  · apply List.ext_getElem
    · simp
    · intro k h₁ h₂
      rw [List.length_map, List.length_range'] at h₁
      simp only [List.getElem_map, List.getElem_range', Nat.one_mul]
      rw [Buffer.moveDown_apply _ _ _ _ _ (by omega), if_pos (by omega)]
      congr 1
      omega

/-- Cutting a window out leaves exactly the other pages, in order. -/
theorem cut_list_filter {seq : Nat} (h : Repnl pl) (hw : Window pl seq t) :
    (cut pl t (seq + 1)).list =
      pl.list.filter fun q => q < pl.cells t ∨ pl.cells t + (seq + 1) ≤ q := by
  have hlt := hw.1
  have hts := hw.2.1
  rw [cut_list hlt hts]
  unfold Pnl.list
  rw [list_split pl.cells hlt hts, List.filter_append, List.filter_append]
  have hhigh : ((List.range' 1 (t - (seq + 1))).map pl.cells).filter
      (fun q => q < pl.cells t ∨ pl.cells t + (seq + 1) ≤ q) =
        (List.range' 1 (t - (seq + 1))).map pl.cells := by
    apply List.filter_eq_self.2
    intro q hq
    obtain ⟨i, hi, hc⟩ := List.mem_map.1 hq
    have hi' := List.mem_range'_1.1 hi
    have hend := h.lt hi'.1 (show i < t - seq by omega) (by omega)
    have := hw.2.2
    exact decide_eq_true (Or.inr (by omega))
  have hmid : ((List.range' (t + 1 - (seq + 1)) (seq + 1)).map pl.cells).filter
      (fun q => q < pl.cells t ∨ pl.cells t + (seq + 1) ≤ q) = [] := by
    apply List.filter_eq_nil_iff.2
    intro q hq
    obtain ⟨i, hi, hc⟩ := List.mem_map.1 hq
    have hi' := List.mem_range'_1.1 hi
    have hcell := hw.cells_eq h (show t - i ≤ seq by omega)
    rw [show t - (t - i) = i by omega] at hcell
    have : ¬ (q < pl.cells t ∨ pl.cells t + (seq + 1) ≤ q) := by omega
    simpa using this
  have hlow : ((List.range' (t + 1) (pl.size - t)).map pl.cells).filter
      (fun q => q < pl.cells t ∨ pl.cells t + (seq + 1) ≤ q) =
        (List.range' (t + 1) (pl.size - t)).map pl.cells := by
    apply List.filter_eq_self.2
    intro q hq
    obtain ⟨i, hi, hc⟩ := List.mem_map.1 hq
    have hi' := List.mem_range'_1.1 hi
    have hbelow := h.lt (show 1 ≤ t by omega) (show t < i by omega) (by omega)
    exact decide_eq_true (Or.inl (by omega))
  rw [hhigh, hmid, hlow, List.append_nil]

end Cut

/-! ## 7. The answer -/

section Answer

variable {pl : Pnl} {num t : Nat} {flags : AllocFlags}

-- the tail fast path is the same cut, at the end of the list
theorem cut_size (pl : Pnl) (num : Nat) : cut pl pl.size num = ⟨pl.cells, pl.size - num⟩ := by
  unfold cut
  rw [Nat.sub_self]
  rfl

theorem edge_iff (h : Repnl pl) {k : Nat} (hk : k < pl.size) :
    sub32 (pl.cells (pl.size - k)) (pl.cells pl.size) = k ↔
      pl.cells (pl.size - k) = pl.cells pl.size + k := by
  have hgap := h.gap (Nat.le_refl pl.size) k hk
  have hc := (h.cell (show 1 ≤ pl.size - k by omega) (Nat.sub_le _ _)).2
  rw [sub32_of_le (by omega) hc]
  omega

/-- The list is short of one more page at the edge. -/
def EdgeOk (pl : Pnl) (num : Nat) (flags : AllocFlags) : Prop :=
  ¬ flags.exactly ∨ pl.size = num ∨ pl.cells (pl.size - num) ≠ pl.cells pl.size + num

theorem sequence_edge (h : Repnl pl) (hnum : 2 ≤ num) (hlen : num ≤ pl.size)
    (hw : Window pl (num - 1) pl.size) (hok : EdgeOk pl num flags) :
    gcRepnlGetSequence pl num flags =
      some (pl.cells pl.size, if flags.reserve then pl else cut pl pl.size num) := by
  unfold gcRepnlGetSequence
  simp only
  rw [if_pos]
  · rw [cut_size]
  · apply And.intro ((edge_iff h (by omega)).2 hw.2.2)
    cases hok with
    | inl hfree => exact Or.inl hfree
    | inr hok =>
      by_cases he : pl.size = num
      · exact Or.inr (Or.inl he)
      · have hne := hok.resolve_left he
        exact Or.inr (Or.inr fun hs => hne ((edge_iff h (by omega)).1 hs))

-- past the fast path everything is up to the scan
theorem sequence_scan (h : Repnl pl) (hlen : num ≤ pl.size) (hnum : 2 ≤ num)
    (hno : ¬ (Window pl (num - 1) pl.size ∧ EdgeOk pl num flags)) :
    gcRepnlGetSequence pl num flags = takeSequence pl num flags (pl.size + 1)
      (scan4seqFallback pl.cells pl.size pl.size (num - 1)) := by
  unfold gcRepnlGetSequence
  simp only
  rw [if_neg]
  intro hfast
  apply hno
  apply And.intro ⟨by omega, Nat.le_refl _, (edge_iff h (by omega)).1 hfast.1⟩
  by_cases he : pl.size = num
  · exact Or.inr (Or.inl he)
  · have hf := hfast.2
    rw [Ne, edge_iff h (show num < pl.size by omega)] at hf
    exact hf

theorem sequence_none (h : Repnl pl) (hnum : 2 ≤ num) (hlen : num ≤ pl.size)
    (hno : ∀ i, ¬ Window pl (num - 1) i) :
    gcRepnlGetSequence pl num flags = some (0, pl) := by
  rw [sequence_scan h hlen hnum fun hc => hno _ hc.1]
  have hs := lastAt_window h (show 0 < num - 1 by omega) (by omega)
  cases hr : scan4seqFallback pl.cells pl.size pl.size (num - 1) with
  | none => rfl
  | some t =>
    rw [hr] at hs
    exact absurd hs.1 (hno t)

theorem scan_some (h : Repnl pl) (hnum : 2 ≤ num) (hlen : num ≤ pl.size)
    (hw : Window pl (num - 1) t) (hlast : ∀ i, t < i → ¬ Window pl (num - 1) i) :
    scan4seqFallback pl.cells pl.size pl.size (num - 1) = some t := by
  have hs := lastAt_window h (show 0 < num - 1 by omega) (by omega)
  cases hr : scan4seqFallback pl.cells pl.size pl.size (num - 1) with
  | none =>
    rw [hr] at hs
    exact absurd hw (hs t)
  | some t' =>
    rw [hr] at hs
    have hle : ¬ t < t' := fun hlt => hlast t' hlt hs.1
    have hge : ¬ t' < t := fun hlt => hs.2 t hlt hw
    rw [show t' = t by omega]

-- the page in the next cell is lower, so its difference is never one
theorem not_continued (h : Repnl pl) (ht : 1 ≤ t) (hts : t < pl.size) :
    sub32 (pl.cells (t + 1)) (pl.cells t) ≠ 1 := by
  have hlt := h.lt ht (show t < t + 1 by omega) hts
  have hc := h.cell ht (by omega)
  have hn := h.cell (show 1 ≤ t + 1 by omega) hts
  rw [sub32_of_lt hlt hc.2]
  omega

theorem sequence_inner (h : Repnl pl) (hnum : 2 ≤ num) (hlen : num ≤ pl.size)
    (hw : Window pl (num - 1) t) (hlast : ∀ i, t < i → ¬ Window pl (num - 1) i)
    (ht : t < pl.size) :
    gcRepnlGetSequence pl num flags =
      some (pl.cells t, if flags.reserve then pl else cut pl t num) := by
  rw [sequence_scan h hlen hnum fun hc => hlast _ ht hc.1, scan_some h hnum hlen hw hlast]
  unfold takeSequence
  rw [if_neg]
  exact fun hc => not_continued h (by have := hw.1; omega) ht hc.2.2

/-- A run that goes on above the edge is cut all the same, or the list is left. -/
theorem sequence_fragment (h : Repnl pl) (hnum : 2 ≤ num) (hlen : num ≤ pl.size)
    (hw : Window pl (num - 1) pl.size) (hbad : ¬ EdgeOk pl num flags) :
    gcRepnlGetSequence pl num flags = none ∨
      ∃ r, gcRepnlGetSequence pl num flags = some (pl.cells pl.size, r) := by
  have hlast : ∀ i, pl.size < i → ¬ Window pl (num - 1) i :=
    fun i hi hwi => absurd hwi.2.1 (by omega)
  rw [sequence_scan h hlen hnum fun hc => hbad hc.2, scan_some h hnum hlen hw hlast]
  unfold takeSequence
  by_cases hc : flags.exactly ∧ pl.size > num ∧
      sub32 (pl.cells (pl.size + 1)) (pl.cells pl.size) = 1
  · -- the cell behind the list happens to continue the run, and `left` is zero
    rw [if_pos hc, Nat.sub_self]
    exact Or.inl rfl
  · rw [if_neg hc]
    exact Or.inr ⟨_, rfl⟩

/-- Where the edge does not cut a longer run, the lowest run is taken. -/
theorem sequence_some (h : Repnl pl) (hnum : 2 ≤ num) (hlen : num ≤ pl.size)
    (hw : Window pl (num - 1) t) (hlast : ∀ i, t < i → ¬ Window pl (num - 1) i)
    (hok : t < pl.size ∨ EdgeOk pl num flags) :
    gcRepnlGetSequence pl num flags =
      some (pl.cells t, if flags.reserve then pl else cut pl t num) := by
  by_cases ht : t < pl.size
  · exact sequence_inner h hnum hlen hw hlast ht
  · have he : t = pl.size := by
      have := hw.2.1
      omega
    subst he
    exact sequence_edge h hnum hlen hw (hok.resolve_left ht)

end Answer

/-! ## 8. Right sequences -/

/-- The run that is asked for. -/
def Wanted (flags : AllocFlags) (l : List Nat) (p num : Nat) : Prop :=
  if flags.exactly then ExactRun l p num else LowestRun l p num

/-- The answer is a wanted run or zero where there is none, and exactly that run leaves the list. -/
def SequenceRight (pl : Pnl) (num : Nat) (flags : AllocFlags) : Prop :=
  ∃ p r, gcRepnlGetSequence pl num flags = some (p, r) ∧
    (p = 0 → (∀ q, ¬ Wanted flags pl.list q num) ∧ r = pl) ∧
    (p ≠ 0 → Wanted flags pl.list p num ∧
      (flags.reserve → r = pl) ∧
      (¬ flags.reserve → r.list = pl.list.filter fun q => q < p ∨ p + num ≤ q))

-- what the answer is where a longer run is not cut short
theorem sequenceRight_of_some {pl : Pnl} {num t : Nat} {flags : AllocFlags} (h : Repnl pl)
    (hnum : 2 ≤ num) (hw : Window pl (num - 1) t)
    (hans : gcRepnlGetSequence pl num flags =
      some (pl.cells t, if flags.reserve then pl else cut pl t num)) :
    SequenceRight pl num flags ↔ Wanted flags pl.list (pl.cells t) num := by
  have hpos := (h.cell (show 1 ≤ t by have := hw.1; omega) hw.2.1).1
  constructor
  · intro hr
    obtain ⟨p, r, hpr, -, hsome⟩ := hr
    rw [hans] at hpr
    cases hpr
    exact (hsome (by omega)).1
  · intro hwant
    refine ⟨_, _, hans, fun hz => absurd hz (by omega), fun _ => ⟨hwant, ?_, ?_⟩⟩
    · exact fun hres => if_pos hres
    · intro hres
      rw [if_neg hres]
      have hcut := cut_list_filter h hw
      rw [show num - 1 + 1 = num by omega] at hcut
      exact hcut

section Right

variable {pl : Pnl} {num : Nat} {flags : AllocFlags}

theorem exists_lastWindow (h : Repnl pl) {seq : Nat} (hpos : 0 < seq) (hlt : seq < pl.size)
    (hex : ∃ i, Window pl seq i) :
    ∃ t, Window pl seq t ∧ ∀ i, t < i → ¬ Window pl seq i := by
  have hs := lastAt_window h hpos hlt
  cases hr : scan4seqFallback pl.cells pl.size pl.size seq with
  | none =>
    rw [hr] at hs
    exact absurd hex.choose_spec (hs _)
  | some t =>
    rw [hr] at hs
    exact ⟨t, hs⟩

-- the lowest run is the wanted one where it ends in time
theorem LowestRun.wanted_iff {l : List Nat} {p : Nat} (hlow : LowestRun l p num) (hpos : 0 < p) :
    Wanted flags l p num ↔ (flags.exactly → ∀ q, LowestRun l q num → q + num ∉ l) := by
  unfold Wanted
  by_cases hx : flags.exactly = true
  · rw [if_pos hx]
    constructor
    · intro he _ q hq
      rw [hq.eq hlow]
      exact he.2.2
    · exact fun hall => ⟨hlow.1, hlow.pred hpos, hall hx p hlow⟩
  · rw [if_neg hx]
    exact ⟨fun _ hx' => absurd hx' hx, fun _ => hlow⟩

-- a run cut short at the edge is not a wanted one
theorem not_wanted_edge (hlen : num ≤ pl.size) (hbad : ¬ EdgeOk pl num flags) :
    ¬ Wanted flags pl.list (pl.cells pl.size) num := by
  intro hwant
  apply hbad
  by_cases hx : flags.exactly = true
  · by_cases hsz : pl.size = num
    · exact Or.inr (Or.inl hsz)
    · unfold Wanted at hwant
      rw [if_pos hx] at hwant
      refine Or.inr (Or.inr fun he => hwant.2.2 ?_)
      rw [← he]
      exact cells_mem (by omega) (Nat.sub_le _ _)
  · exact Or.inl hx

theorem not_sequenceRight_edge (h : Repnl pl) (hnum : 2 ≤ num) (hlen : num ≤ pl.size)
    (hw : Window pl (num - 1) pl.size) (hbad : ¬ EdgeOk pl num flags) :
    ¬ SequenceRight pl num flags := by
  intro hr
  obtain ⟨p, r, hpr, -, hsome⟩ := hr
  have hpos := (h.cell (show 1 ≤ pl.size by omega) (Nat.le_refl _)).1
  cases sequence_fragment h hnum hlen hw hbad with
  | inl hnone =>
    rw [hnone] at hpr
    cases hpr
  | inr hans =>
    obtain ⟨r', hans⟩ := hans
    rw [hans] at hpr
    cases hpr
    exact not_wanted_edge hlen hbad (hsome (by omega)).1

theorem Wanted.run {l : List Nat} {p : Nat} (hw : Wanted flags l p num) : Run l p num := by
  unfold Wanted at hw
  by_cases hx : flags.exactly = true
  · rw [if_pos hx] at hw
    exact hw.1
  · rw [if_neg hx] at hw
    exact hw.1

/-- The run taken is the lowest one of at least `num` pages, so with `ALLOC_EXACTLY` the answer is
right exactly where that run has no more than `num` pages. -/
theorem gcRepnlGetSequence_right_iff (pl : Pnl) (num : Nat) (flags : AllocFlags) (h : Repnl pl)
    (hnum : 2 ≤ num) (hlen : num ≤ pl.size) :
    SequenceRight pl num flags ↔
      (flags.exactly → ∀ p, LowestRun pl.list p num → p + num ∉ pl.list) := by
  by_cases hex : ∃ i, Window pl (num - 1) i
  · obtain ⟨t, hw, hlast⟩ := exists_lastWindow h (by omega) (by omega) hex
    have hlow := hw.lowest h hlast
    rw [show num - 1 + 1 = num by omega] at hlow
    have hpos := (h.cell (show 1 ≤ t by have := hw.1; omega) hw.2.1).1
    rw [← hlow.wanted_iff hpos]
    by_cases hok : t < pl.size ∨ EdgeOk pl num flags
    · exact sequenceRight_of_some h hnum hw (sequence_some h hnum hlen hw hlast hok)
    · have hts : t = pl.size := by
        have := hw.2.1
        omega
      subst hts
      have hbad : ¬ EdgeOk pl num flags := fun hc => hok (Or.inr hc)
      exact iff_of_false (not_sequenceRight_edge h hnum hlen hw hbad)
        (not_wanted_edge hlen hbad)
  · have hno : ∀ i, ¬ Window pl (num - 1) i := fun i hw => hex ⟨i, hw⟩
    have hrun : ∀ q, ¬ Run pl.list q num := by
      intro q hq
      rw [show num = num - 1 + 1 by omega] at hq
      exact hex ((hq.window h).imp fun _ hw => hw.1)
    apply iff_of_true
    · exact ⟨0, pl, sequence_none h hnum hlen hno, fun _ => ⟨fun q hq => hrun q hq.run, rfl⟩,
        fun hz => absurd rfl hz⟩
    · exact fun _ p hp => absurd hp.1 (hrun p)

end Right

theorem repnl_ofList {l : List Nat} (hs : l.Pairwise (· > ·)) (hp : ∀ p ∈ l, 0 < p ∧ p < 2 ^ 32)
    (hl : (Pnl.ofList l).list = l) : Repnl (Pnl.ofList l) := by
  constructor
  · rw [hl]
    exact hs
  · rw [hl]
    exact hp

/-- A run of two in front of a single page, asked for exactly -/
theorem gcRepnlGetSequence_right_two :
    SequenceRight (Pnl.ofList [9, 6, 5, 1]) 2 ⟨false, true⟩ :=
  (gcRepnlGetSequence_right_iff (Pnl.ofList [9, 6, 5, 1]) 2 ⟨false, true⟩
    (repnl_ofList (by decide) (by decide) rfl) (by decide) (by decide)).2 (by
      intro _ p hp hmem
      have h0 := hp.1 0 (by decide)
      have h1 := hp.1 1 (by decide)
      have hl : (Pnl.ofList [9, 6, 5, 1]).list = [9, 6, 5, 1] := rfl
      rw [hl] at h0 h1 hmem
      simp only [List.mem_cons, List.not_mem_nil, or_false] at h0 h1 hmem
      omega)

/-- Asked for exactly two pages, the lower two of a run of three are cut off. -/
theorem gcRepnlGetSequence_fragments :
    (gcRepnlGetSequence (Pnl.ofList [7, 6, 5, 1]) 2 ⟨false, true⟩).map Prod.fst = some 5 ∧
      ¬ ExactRun (Pnl.ofList [7, 6, 5, 1]).list 5 2 ∧
      (∀ p, ¬ ExactRun (Pnl.ofList [7, 6, 5, 1]).list p 2) ∧
      ¬ SequenceRight (Pnl.ofList [7, 6, 5, 1]) 2 ⟨false, true⟩ := by
  have hl : (Pnl.ofList [7, 6, 5, 1]).list = [7, 6, 5, 1] := rfl
  have hno : ∀ p, ¬ ExactRun (Pnl.ofList [7, 6, 5, 1]).list p 2 := by
    intro p hp
    have h0 := hp.1 0 (by decide)
    have h1 := hp.1 1 (by decide)
    have hlo := hp.2.1
    have hhi := hp.2.2
    rw [hl] at h0 h1 hlo hhi
    simp only [List.mem_cons, List.not_mem_nil, or_false] at h0 h1 hlo hhi
    omega
  have hans : (gcRepnlGetSequence (Pnl.ofList [7, 6, 5, 1]) 2 ⟨false, true⟩).map Prod.fst =
      some 5 := by decide
  refine ⟨hans, hno 5, hno, ?_⟩
  intro hr
  obtain ⟨p, r, hpr, -, hsome⟩ := hr
  rw [hpr] at hans
  cases hans
  exact hno 5 (hsome (by decide)).1

end Mdbx.Gc
