import Mdbx.Rkl.Turn

/-!
# Rkl.Walk — the gaps of a set, one by one

Between neighbouring ids lie gaps, numbered by the position of the id that ends them; the last one
ends at `MAX_TXNID`.  A call of `rkl_hole` returns one of them and skips only empty ones, so that
the calls together return every gap that lies ahead.
-/

namespace Mdbx

/-- A range that is not empty. -/
def RklHole.Proper (hole : RklHole) : Prop := hole.holeBegin < hole.holeEnd

instance : DecidablePred RklHole.Proper := fun hole =>
  inferInstanceAs (Decidable (hole.holeBegin < hole.holeEnd))

/-- The results of `n` calls of `rkl_hole`. -/
def holes (reverse : Bool) : RklIter → Nat → List RklHole
  | _, 0 => []
  | iter, n + 1 => (rklHole iter reverse).1 :: holes reverse (rklHole iter reverse).2 n

/-- The gap below the position `i`. -/
def gapAt (b : Build) (r : Rkl) (i : Nat) : RklHole :=
  ⟨gapBegin (idAt b r) minTxnid i, gapEnd (idAt b r) (rklLen r) rklMaxTxnid i⟩

/-- Nothing is free between the gaps `lo` and `hi`. -/
def Hollow (b : Build) (r : Rkl) (lo hi : Nat) : Prop :=
  ∀ j, lo < j → j < hi → ¬ (gapAt b r j).Proper

/-- An empty range stands at a limit, or below an interval that touches the list. -/
def Edge (r : Rkl) (hole : RklHole) : Prop :=
  hole.Proper ∨ hole.holeEnd = minTxnid ∨ hole.holeEnd = rklMaxTxnid ∨
    hole.holeEnd = r.solidBegin ∧ ∃ i, i < r.listLength ∧ r.list i + 1 = r.solidBegin

/-- Forwards from `pos`: the gap `i` is the first one, and the walk goes on behind it. -/
structure Ahead (b : Build) (r : Rkl) (pos i : Nat) (out : RklHole × Nat) : Prop where
  later : pos < i
  hole : out.1 = gapAt b r i
  skipped : Hollow b r pos i
  reached : i ≤ out.2
  bounded : out.2 ≤ rklLen r
  passed : Hollow b r i (out.2 + 1)
  edge : Edge r out.1

/-- Backwards from `pos`. -/
structure Behind (b : Build) (r : Rkl) (pos i : Nat) (out : RklHole × Nat) : Prop where
  earlier : i ≤ pos
  hole : out.1 = gapAt b r i
  skipped : Hollow b r i (pos + 1)
  reached : out.2 < i ∨ i = 0 ∧ out.2 = 0
  passed : Hollow b r out.2 i
  edge : Edge r out.1

/-! ## 1. Gaps between positions -/

section Between

variable {b : Build} {r : Rkl}

theorem gapAt_succ {pos here there : Nat} (hhere : idAt b r pos = here)
    (hthere : (if pos + 1 < rklLen r then idAt b r (pos + 1) else rklMaxTxnid) = there) :
    gapAt b r (pos + 1) = ⟨here + 1, there⟩ := by
  rw [← hhere, ← hthere]
  rfl

theorem gapAt_inner {pos here there : Nat} (hhere : idAt b r pos = here)
    (hthere : idAt b r (pos + 1) = there) (hin : pos + 1 < rklLen r) :
    gapAt b r (pos + 1) = ⟨here + 1, there⟩ :=
  gapAt_succ hhere (by rw [if_pos hin, hthere])

theorem gapAt_zero {there : Nat} (hthere : idAt b r 0 = there) (hin : 0 < rklLen r) :
    gapAt b r 0 = ⟨minTxnid, there⟩ := by
  unfold gapAt gapEnd
  rw [if_pos hin, hthere]
  rfl

theorem hollow_self (i : Nat) : Hollow b r i (i + 1) := fun j hlo hhi => by omega

theorem Hollow.mono {lo hi lo' hi' : Nat} (h : Hollow b r lo hi) (hlo : lo ≤ lo') (hhi : hi' ≤ hi) :
    Hollow b r lo' hi' := fun j hj hj' => h j (by omega) (by omega)

-- two stretches with an empty gap between them
theorem Hollow.join {lo mid hi : Nat} (h : Hollow b r lo mid) (hmid : ¬ (gapAt b r mid).Proper)
    (h' : Hollow b r mid hi) : Hollow b r lo hi := by
  intro j hlo hhi
  rcases Nat.lt_trichotomy j mid with hlt | heq | hgt
  · exact h j hlo hlt
  · rw [heq]
    exact hmid
  · exact h' j hgt hhi

/-- The interval has no gaps. -/
theorem hollow_solid (h : r.Checked b) :
    Hollow b r (solidOffset b r) (solidOffset b r + (r.solidEnd - r.solidBegin)) := by
  intro j hlo hhi
  have hlen := h.len_eq
  have hoff := solidOffset_le h
  obtain ⟨p, rfl⟩ : ∃ p, j = p + 1 := ⟨j - 1, by omega⟩
  have hhere : idAt b r p = r.solidBegin + (p - solidOffset b r) :=
    idAt_inside (by omega) (by omega)
  rw [gapAt_inner hhere (idAt_inside (by omega) hhi) (by omega)]
  show ¬ r.solidBegin + (p - solidOffset b r) + 1 < r.solidBegin + (p + 1 - solidOffset b r)
  omega

theorem idAt_bounds (h : r.Checked b) {i : Nat} (hi : i < rklLen r) :
    1 ≤ idAt b r i ∧ idAt b r i ≤ rklMaxTxnid :=
  h.valid _ ((idAt_enumerates h).mem hi)

end Between

/-! ## 2. Forwards -/

section Ahead

variable {b : Build} {r : Rkl}

/-- The walk of `rkl_hole` over a list. -/
def walkAhead (b : Build) (r : Rkl) (fuel pos : Nat) : RklHole × Nat :=
  holeLoop r (solidOffset b r) (r.solidEnd - r.solidBegin) (rklLen r) false fuel pos

/-- One step to a neighbour: its gap, or the walk goes on from there. -/
theorem holeStep_ahead {fuel pos next here there : Nat} (hpos : pos < next) (hin : next < rklLen r)
    (hgap : gapAt b r next = ⟨here + 1, there⟩) (hskip : Hollow b r pos next)
    (ih : ∃ i, i ≤ rklLen r ∧ Ahead b r next i (walkAhead b r fuel next)) :
    ∃ i, i ≤ rklLen r ∧ Ahead b r pos i
      (if (holeBetween false here there).holeBegin < (holeBetween false here there).holeEnd then
        (holeBetween false here there, next)
      else walkAhead b r fuel next) := by
  by_cases hproper :
      (holeBetween false here there).holeBegin < (holeBetween false here there).holeEnd
  · rw [if_pos hproper]
    exact ⟨next, Nat.le_of_lt hin, hpos, hgap.symm, hskip, Nat.le_refl _, Nat.le_of_lt hin,
      hollow_self next, Or.inl hproper⟩
  · rw [if_neg hproper]
    obtain ⟨i, hi, hahead⟩ := ih
    have hempty : ¬ (gapAt b r next).Proper := by
      rw [hgap]
      exact hproper
    exact ⟨i, hi, Nat.lt_trans hpos hahead.later, hahead.hole, hskip.join hempty hahead.skipped,
      hahead.reached, hahead.bounded, hahead.passed, hahead.edge⟩

-- the walk ends above the last id
theorem holeStop_ahead {pos here last : Nat} (hpos : pos < rklLen r) (hlast : last + 1 = rklLen r)
    (hhere : idAt b r last = here) (hskip : Hollow b r pos (rklLen r)) :
    ∃ i, i ≤ rklLen r ∧ Ahead b r pos i (holeStop (rklLen r) false here) := by
  have hgap : gapAt b r (rklLen r) = ⟨here + 1, rklMaxTxnid⟩ := by
    rw [← hlast]
    exact gapAt_succ hhere (if_neg (by omega))
  exact ⟨rklLen r, Nat.le_refl _, hpos, hgap.symm, hskip, Nat.le_refl _, Nat.le_refl _,
    hollow_self _, Or.inr (Or.inr (Or.inl rfl))⟩

theorem walkAhead_low (h : r.Checked b) {fuel pos : Nat} (hlow : pos < solidOffset b r)
    (ih : ∀ q, pos < q → q < rklLen r →
      ∃ i, i ≤ rklLen r ∧ Ahead b r q i (walkAhead b r fuel q)) :
    ∃ i, i ≤ rklLen r ∧ Ahead b r pos i (walkAhead b r (fuel + 1) pos) := by
  have hlen := h.len_eq
  have hoff := solidOffset_le h
  obtain ⟨hs, hl⟩ := solidOffset_pos (b := b) (r := r) (by omega)
  unfold walkAhead holeLoop
  simp only [Bool.false_eq_true, if_false]
  rw [if_pos hlow]
  by_cases hedge : pos + 1 = solidOffset b r
  · -- the interval is next
    have hbelow := (h.sides hs hl).1 pos hlow
    have hgap : gapAt b r (pos + 1) = ⟨r.list pos + 1, r.solidBegin⟩ := by
      refine gapAt_inner (idAt_low hlow) ?_ (by omega)
      rw [idAt_inside (by omega) (by omega), hedge, Nat.sub_self, Nat.add_zero]
    rw [if_pos hedge]
    refine ⟨pos + 1, by omega, by omega, hgap.symm, hollow_self pos, ?_, ?_, ?_, ?_⟩
    · show pos + 1 ≤ pos + 1 + (r.solidEnd - r.solidBegin) - 1
      omega
    · show pos + 1 + (r.solidEnd - r.solidBegin) - 1 ≤ rklLen r
      omega
    · refine (hollow_solid h).mono (by omega) ?_
      show pos + 1 + (r.solidEnd - r.solidBegin) - 1 + 1 ≤ _
      omega
    · by_cases htouch : r.list pos + 1 = r.solidBegin
      · exact Or.inr (Or.inr (Or.inr ⟨rfl, pos, by omega, htouch⟩))
      · left
        show r.list pos + 1 < r.solidBegin
        omega
  · rw [if_neg hedge, if_neg (by omega)]
    exact holeStep_ahead (Nat.lt_succ_self pos) (by omega)
      (gapAt_inner (idAt_low hlow) (idAt_low (by omega)) (by omega)) (hollow_self pos)
      (ih (pos + 1) (by omega) (by omega))

theorem walkAhead_inside (h : r.Checked b) {fuel pos : Nat} (hlo : solidOffset b r ≤ pos)
    (hhi : pos < solidOffset b r + (r.solidEnd - r.solidBegin))
    (ih : ∀ q, pos < q → q < rklLen r →
      ∃ i, i ≤ rklLen r ∧ Ahead b r q i (walkAhead b r fuel q)) :
    ∃ i, i ≤ rklLen r ∧ Ahead b r pos i (walkAhead b r (fuel + 1) pos) := by
  have hlen := h.len_eq
  have hoff := solidOffset_le h
  have hskip : Hollow b r pos (solidOffset b r + (r.solidEnd - r.solidBegin)) :=
    (hollow_solid h).mono hlo (Nat.le_refl _)
  -- the walk jumps to the last id of the interval
  obtain ⟨last, hlast⟩ : ∃ last, solidOffset b r + (r.solidEnd - r.solidBegin) = last + 1 :=
    ⟨solidOffset b r + (r.solidEnd - r.solidBegin) - 1, by omega⟩
  have hhere : idAt b r last = r.solidEnd - 1 := by
    rw [idAt_inside (by omega) (by omega)]
    omega
  unfold walkAhead holeLoop
  simp only [Bool.false_eq_true, if_false]
  rw [if_neg (by omega), if_neg (by omega)]
  by_cases hend : rklLen r ≤ solidOffset b r + (r.solidEnd - r.solidBegin)
  · rw [if_pos hend]
    have htop : last + 1 = rklLen r := by omega
    exact holeStop_ahead (by omega) htop hhere (hskip.mono (Nat.le_refl _) (by omega))
  · rw [if_neg hend]
    refine holeStep_ahead hhi (by omega) ?_ hskip (ih _ hhi (by omega))
    have hthere := idAt_high (b := b) (r := r) (Nat.le_refl
      (solidOffset b r + (r.solidEnd - r.solidBegin)))
    rw [hlast] at hthere ⊢
    exact gapAt_inner hhere hthere (by omega)

theorem walkAhead_high (hshort : rklLen r < 2 ^ 32) {fuel pos : Nat}
    (hhigh : solidOffset b r + (r.solidEnd - r.solidBegin) ≤ pos) (hpos : pos < rklLen r)
    (ih : ∀ q, pos < q → q < rklLen r →
      ∃ i, i ≤ rklLen r ∧ Ahead b r q i (walkAhead b r fuel q)) :
    ∃ i, i ≤ rklLen r ∧ Ahead b r pos i (walkAhead b r (fuel + 1) pos) := by
  have hne : ¬ pos + 1 = sizePred (solidOffset b r + (r.solidEnd - r.solidBegin)) := by
    unfold sizePred
    split_ifs
    · omega
    · omega
  unfold walkAhead holeLoop
  simp only [Bool.false_eq_true, if_false]
  rw [if_neg (by omega), if_pos hhigh, if_pos hpos]
  by_cases hend : rklLen r ≤ pos + 1
  · rw [if_pos hend]
    have htop : pos + 1 = rklLen r := by omega
    refine holeStop_ahead hpos htop (idAt_high hhigh) ?_
    rw [← htop]
    exact hollow_self pos
  · rw [if_neg hend, if_neg hne]
    exact holeStep_ahead (Nat.lt_succ_self pos) (by omega)
      (gapAt_inner (idAt_high hhigh) (idAt_high (by omega)) (by omega)) (hollow_self pos)
      (ih (pos + 1) (by omega) (by omega))

theorem walkAhead_spec (h : r.Checked b) (hshort : rklLen r < 2 ^ 32) :
    ∀ {fuel pos : Nat}, pos < rklLen r → rklLen r < pos + fuel →
      ∃ i, i ≤ rklLen r ∧ Ahead b r pos i (walkAhead b r fuel pos)
  | 0, pos, hpos, hfuel => by omega
  | fuel + 1, pos, hpos, hfuel => by
    have ih : ∀ q, pos < q → q < rklLen r →
        ∃ i, i ≤ rklLen r ∧ Ahead b r q i (walkAhead b r fuel q) :=
      fun q hq hin => walkAhead_spec h hshort hin (by omega)
    by_cases hlow : pos < solidOffset b r
    · exact walkAhead_low h hlow ih
    · by_cases hhigh : solidOffset b r + (r.solidEnd - r.solidBegin) ≤ pos
      · exact walkAhead_high hshort hhigh hpos ih
      · exact walkAhead_inside h (by omega) (by omega) ih

end Ahead

/-! ## 3. Backwards -/

section Behind

variable {b : Build} {r : Rkl}

/-- What stands at a position, `MAX_TXNID` behind the last one. -/
def endAt (b : Build) (r : Rkl) (pos : Nat) : Nat :=
  gapEnd (idAt b r) (rklLen r) rklMaxTxnid pos

-- below the first position
theorem len_le_sizePred (hshort : rklLen r < 2 ^ 32) : rklLen r ≤ sizePred 0 := by
  show rklLen r ≤ 2 ^ 64 - 1
  omega

theorem len_le_unsignedPred (hshort : rklLen r < 2 ^ 32) : rklLen r ≤ unsignedPred 0 := by
  show rklLen r ≤ 2 ^ 32 - 1
  omega

theorem endAt_of_lt {pos : Nat} (hpos : pos < rklLen r) : endAt b r pos = idAt b r pos :=
  if_pos hpos

/-- One step to a neighbour: the gap above it, or the walk goes on from there. -/
theorem holeStep_behind {fuel pos i next here there : Nat} (hi : i ≤ pos) (hnext : i = next + 1)
    (hhere : endAt b r i = here) (hthere : idAt b r next = there)
    (hskip : Hollow b r i (pos + 1))
    (ih : ∃ i', Behind b r next i' (walkBack b r fuel next)) :
    ∃ i', Behind b r pos i'
      (if (holeBetween true here there).holeBegin < (holeBetween true here there).holeEnd then
        (holeBetween true here there, next)
      else walkBack b r fuel next) := by
  have hgap : gapAt b r i = ⟨there + 1, here⟩ := by
    rw [hnext] at hhere ⊢
    rw [← hhere, ← hthere]
    rfl
  by_cases hproper :
      (holeBetween true here there).holeBegin < (holeBetween true here there).holeEnd
  · rw [if_pos hproper]
    refine ⟨i, hi, hgap.symm, hskip, Or.inl ?_, fun j hlo hhi => ?_, Or.inl hproper⟩
    · show next < i
      omega
    · have : next < j := hlo
      omega
  · rw [if_neg hproper]
    obtain ⟨i', hbehind⟩ := ih
    have hempty : ¬ (gapAt b r i).Proper := by
      rw [hgap]
      exact hproper
    have hrest : Hollow b r i' i := hnext ▸ hbehind.skipped
    exact ⟨i', by have := hbehind.earlier; omega, hbehind.hole, hrest.join hempty hskip,
      hbehind.reached, hbehind.passed, hbehind.edge⟩

-- the walk ends below the first id
theorem holeStop_behind (h : r.Checked b) {pos here : Nat} (hin : 0 < rklLen r)
    (hhere : idAt b r 0 = here) (hskip : Hollow b r 0 (pos + 1)) :
    ∃ i, Behind b r pos i (holeStop (rklLen r) true here) := by
  refine ⟨0, Nat.zero_le pos, (gapAt_zero hhere hin).symm, hskip, Or.inr ⟨rfl, rfl⟩,
    fun j _ hhi => by omega, ?_⟩
  have hlow := (idAt_bounds h hin).1
  rw [hhere] at hlow
  by_cases hone : here = minTxnid
  · exact Or.inr (Or.inl hone)
  · left
    show 1 < here
    have : here ≠ 1 := hone
    omega

theorem walkBehind_low (h : r.Checked b) (hshort : rklLen r < 2 ^ 32) {fuel pos : Nat}
    (hlow : pos < solidOffset b r)
    (ih : ∀ q, q < pos → ∃ i, Behind b r q i (walkBack b r fuel q)) :
    ∃ i, Behind b r pos i (walkBack b r (fuel + 1) pos) := by
  have hlen := h.len_eq
  have hoff := solidOffset_le h
  have hne : ¬ sizePred pos = solidOffset b r := by
    unfold sizePred
    split_ifs
    · omega
    · omega
  unfold walkBack holeLoop
  simp only [if_true]
  rw [if_pos hlow, if_neg hne]
  cases pos with
  | zero =>
    rw [if_pos (len_le_sizePred hshort)]
    exact holeStop_behind h (by omega) (idAt_low hlow) (hollow_self 0)
  | succ pos =>
    have hpred : sizePred (pos + 1) = pos := rfl
    rw [hpred, if_neg (by omega)]
    refine holeStep_behind (Nat.le_refl _) rfl ?_ (idAt_low (by omega)) (hollow_self _)
      (ih pos (by omega))
    rw [endAt_of_lt (by omega), idAt_low hlow]

theorem walkBehind_inside (h : r.Checked b) (hshort : rklLen r < 2 ^ 32) {fuel pos : Nat}
    (hlo : solidOffset b r ≤ pos) (hhi : pos < solidOffset b r + (r.solidEnd - r.solidBegin))
    (ih : ∀ q, q < pos → ∃ i, Behind b r q i (walkBack b r fuel q)) :
    ∃ i, Behind b r pos i (walkBack b r (fuel + 1) pos) := by
  have hlen := h.len_eq
  have hoff := solidOffset_le h
  have hskip : Hollow b r (solidOffset b r) (pos + 1) :=
    (hollow_solid h).mono (Nat.le_refl _) hhi
  have hfirst : idAt b r (solidOffset b r) = r.solidBegin := by
    rw [idAt_inside (Nat.le_refl _) (by omega), Nat.sub_self, Nat.add_zero]
  unfold walkBack holeLoop
  simp only [if_true]
  rw [if_neg (by omega), if_neg (by omega)]
  by_cases hz : solidOffset b r = 0
  · rw [hz] at hfirst hskip ⊢
    rw [if_pos (len_le_unsignedPred hshort)]
    exact holeStop_behind h (by omega) hfirst hskip
  · have hpred : unsignedPred (solidOffset b r) = solidOffset b r - 1 :=
      unsignedPred_of_pos (by omega)
    rw [hpred, if_neg (by omega)]
    refine holeStep_behind hlo (by omega) ?_ (idAt_low (by omega)) hskip (ih _ (by omega))
    rw [endAt_of_lt (by omega), hfirst]

theorem walkBehind_high (h : r.Checked b) (hshort : rklLen r < 2 ^ 32) (hl : r.listLength ≠ 0)
    {fuel pos : Nat} (hhigh : solidOffset b r + (r.solidEnd - r.solidBegin) ≤ pos)
    (hpos : pos ≤ rklLen r)
    (ih : ∀ q, q < pos → ∃ i, Behind b r q i (walkBack b r fuel q)) :
    ∃ i, Behind b r pos i (walkBack b r (fuel + 1) pos) := by
  have hlen := h.len_eq
  have hoff := solidOffset_le h
  have hhere : endAt b r pos =
      if pos < rklLen r then r.list (pos - (r.solidEnd - r.solidBegin)) else rklMaxTxnid := by
    unfold endAt gapEnd
    rw [idAt_high hhigh]
  unfold walkBack holeLoop
  simp only [if_true]
  rw [if_neg (by omega), if_pos hhigh, ← hhere]
  cases pos with
  | zero =>
    rw [if_pos (len_le_sizePred hshort), endAt_of_lt (by omega)]
    exact holeStop_behind h (by omega) rfl (hollow_self 0)
  | succ pos =>
    have hpred : sizePred (pos + 1) = pos := rfl
    rw [hpred, if_neg (by omega)]
    by_cases hedge : pos = sizePred (solidOffset b r + (r.solidEnd - r.solidBegin))
    · -- the end of the interval is next
      rw [if_pos hedge]
      have htop : pos + 1 = solidOffset b r + (r.solidEnd - r.solidBegin) := by
        unfold sizePred at hedge
        split_ifs at hedge
        · omega
        · omega
      have hs : r.solidBegin < r.solidEnd := by
        by_contra hs
        have hz : solidOffset b r = 0 := if_neg fun hc => hs hc.1
        omega
      have hlast : idAt b r pos + 1 = r.solidEnd := by
        rw [idAt_inside (by omega) (by omega)]
        omega
      have hgap : gapAt b r (pos + 1) = ⟨r.solidEnd, endAt b r (pos + 1)⟩ := by
        rw [← hlast]
        rfl
      refine ⟨pos + 1, Nat.le_refl _, hgap.symm, hollow_self _, Or.inl ?_, ?_, ?_⟩
      · show solidOffset b r < pos + 1
        omega
      · exact (hollow_solid h).mono (Nat.le_refl _) (by omega)
      · by_cases hin : pos + 1 < rklLen r
        · left
          show r.solidEnd < endAt b r (pos + 1)
          rw [hhere, if_pos hin]
          exact (h.sides hs hl).2 _ (by omega) (by omega)
        · right; right; left
          show endAt b r (pos + 1) = rklMaxTxnid
          rw [hhere, if_neg hin]
    · rw [if_neg hedge]
      have hgt : solidOffset b r + (r.solidEnd - r.solidBegin) ≤ pos := by
        unfold sizePred at hedge
        split_ifs at hedge
        · omega
        · omega
      exact holeStep_behind (Nat.le_refl _) rfl rfl (idAt_high hgt) (hollow_self _)
        (ih pos (by omega))

theorem walkBehind_spec (h : r.Checked b) (hshort : rklLen r < 2 ^ 32) (hl : r.listLength ≠ 0) :
    ∀ {fuel pos : Nat}, pos ≤ rklLen r → pos < fuel →
      ∃ i, Behind b r pos i (walkBack b r fuel pos)
  | fuel + 1, pos, hpos, hfuel => by
    have ih : ∀ q, q < pos → ∃ i, Behind b r q i (walkBack b r fuel q) :=
      fun q hq => walkBehind_spec h hshort hl (by omega) (by omega)
    by_cases hlow : pos < solidOffset b r
    · exact walkBehind_low h hshort hlow ih
    · by_cases hhigh : solidOffset b r + (r.solidEnd - r.solidBegin) ≤ pos
      · exact walkBehind_high h hshort hl hhigh hpos ih
      · exact walkBehind_inside h hshort (by omega) (by omega) ih

end Behind

end Mdbx
