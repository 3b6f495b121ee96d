import Mathlib.Data.List.GetD
import Mdbx.Lib.Gaps
import Mdbx.Rkl.Hole

/-!
# Rkl.Turn — the ids of a set, one by one

`rkl_check` is the consistency check of `rkl_t`.  A set that passes it has an id at every position
of an iterator, in ascending order, and `rkl_turn` walks over the positions.
-/

namespace Mdbx

/-- `rkl_check` on a set that is there -/
def rklCheck (b : Build) (r : Rkl) : Bool :=
  if r.inplace ∧ r.listLimit ≠ rklInplaceLength then false
  else if r.listLimit < rklInplaceLength then false
  else if rklEmpty r then r.listLength = 0 ∧ solidEmpty r
  else if r.listLength ≠ 0 then
    if ¬ ∀ i < r.listLength, 1 ≤ i → r.list (i - 1) < r.list i then false
    else if ¬ solidEmpty r ∧ sizePred r.solidBegin ≤ r.list (r.listLength - 1) ∧
        r.solidEnd ≥ r.list 0 then
      let it := rklBsearch b r r.solidBegin
      if it > r.listLength then false
      else if it > 0 ∧ r.list (it - 1) ≥ r.solidBegin then false
      else if it < r.listLength ∧ r.list it ≤ r.solidEnd then false
      else true
    else true
  else true

/-- `rkl_turn`: the id and the iterator behind it, 0 when none is left -/
def rklTurn (iter : RklIter) (reverse : Bool) : Nat × RklIter :=
  let r := iter.rkl
  let pos := if reverse then unsignedPred iter.pos else iter.pos
  if pos ≥ rklLen r then (0, iter)
  else
    let iter' := { iter with pos := toUnsigned (if reverse then pos else pos + 1) }
    let solidLen := r.solidEnd - r.solidBegin
    if r.listLength ≠ 0 then
      if pos < iter.solidOffset then (r.list pos, iter')
      else if pos < iter.solidOffset + solidLen then (r.solidBegin + pos - iter.solidOffset, iter')
      else (r.list (pos - solidLen), iter')
    else (r.solidBegin + pos, iter')

/-- The result of the call number `k` of `rkl_turn`, from 0. -/
def turnAt (reverse : Bool) : RklIter → Nat → Nat
  | iter, 0 => (rklTurn iter reverse).1
  | iter, k + 1 => turnAt reverse (rklTurn iter reverse).2 k

/-- A set as `rkl_check` accepts it, of valid txnids. -/
structure Rkl.Checked (b : Build) (r : Rkl) : Prop where
  check : rklCheck b r = true
  valid : ∀ x ∈ r.ids, minTxnid ≤ x ∧ x ≤ rklMaxTxnid

/-- The id at a position. -/
def idAt (b : Build) (r : Rkl) (pos : Nat) : Nat :=
  if pos < solidOffset b r then r.list pos
  else if pos < solidOffset b r + (r.solidEnd - r.solidBegin) then
    r.solidBegin + (pos - solidOffset b r)
  else r.list (pos - (r.solidEnd - r.solidBegin))

/-! ## 1. What the check says -/

section Check

variable {b : Build} {r : Rkl}

theorem Rkl.Checked.solid (h : r.Checked b) (hs : r.solidBegin < r.solidEnd) :
    1 ≤ r.solidBegin ∧ r.solidEnd ≤ rklMaxTxnid + 1 := by
  have hlow := h.valid r.solidBegin (Rkl.mem_ids.2 (Or.inr ⟨Nat.le_refl _, hs⟩))
  have hhigh := h.valid (r.solidEnd - 1) (Rkl.mem_ids.2 (Or.inr ⟨by omega, by omega⟩))
  exact ⟨hlow.1, by omega⟩

-- a list in a checked set is not behind the exit for an empty one
theorem Rkl.Checked.not_empty (h : r.Checked b) (hl : r.listLength ≠ 0) : ¬ rklEmpty r = true := by
  intro hempty
  have hcheck := h.check
  unfold rklCheck at hcheck
  rw [if_pos hempty] at hcheck
  split_ifs at hcheck
  exact hl (of_decide_eq_true hcheck).1

theorem Rkl.Checked.ascending (h : r.Checked b) : Ascending r.list r.listLength := by
  apply Ascending.of_adjacent
  intro j hj
  have hcheck := h.check
  unfold rklCheck at hcheck
  by_contra hnot
  have hfail : ¬ ∀ i, i < r.listLength → 1 ≤ i → r.list (i - 1) < r.list i :=
    fun hall => hnot (hall (j + 1) hj (by omega))
  rw [if_neg (h.not_empty (by omega)), if_pos (show r.listLength ≠ 0 by omega), if_pos hfail]
    at hcheck
  split_ifs at hcheck

/-- The list keeps clear of the interval and of its upper end. -/
theorem Rkl.Checked.sides (h : r.Checked b) (hs : r.solidBegin < r.solidEnd)
    (hl : r.listLength ≠ 0) :
    (∀ i, i < solidOffset b r → r.list i < r.solidBegin) ∧
      ∀ i, solidOffset b r ≤ i → i < r.listLength → r.solidEnd < r.list i := by
  have hasc := h.ascending
  obtain ⟨hle, hlow, hhigh⟩ := rklBsearch_spec b hasc r.solidBegin
  have hbegin := (h.solid hs).1
  have hoff : solidOffset b r = rklBsearch b r r.solidBegin := if_pos ⟨hs, hl⟩
  have hcheck := h.check
  unfold rklCheck at hcheck
  rw [if_neg (h.not_empty hl), if_pos hl] at hcheck
  have hsolid : ¬ solidEmpty r = true := by
    unfold solidEmpty
    simp [hs]
  rw [hoff]
  refine ⟨hlow, fun i hi hil => ?_⟩
  by_cases hguard : ¬ solidEmpty r = true ∧ sizePred r.solidBegin ≤ r.list (r.listLength - 1) ∧
      r.solidEnd ≥ r.list 0
  · -- the interval is among the elements
    rw [if_pos hguard] at hcheck
    have hit : ¬ (rklBsearch b r r.solidBegin < r.listLength ∧
        r.list (rklBsearch b r r.solidBegin) ≤ r.solidEnd) := by
      intro hbad
      simp only [if_pos hbad] at hcheck
      split_ifs at hcheck
    have := hasc.le hi hil
    omega
  · have hpred : sizePred r.solidBegin = r.solidBegin - 1 := sizePred_of_pos (by omega)
    have hfirst := hasc.le (Nat.zero_le i) hil
    have hlast := hasc.le (show i ≤ r.listLength - 1 by omega) (by omega)
    have := hhigh i hi hil
    by_cases hbefore : sizePred r.solidBegin ≤ r.list (r.listLength - 1)
    · have hbelow : ¬ r.solidEnd ≥ r.list 0 := fun hge => hguard ⟨hsolid, hbefore, hge⟩
      omega
    · omega

theorem Rkl.Checked.len_eq (h : r.Checked b) :
    rklLen r = r.solidEnd - r.solidBegin + r.listLength := by
  unfold rklLen
  by_cases he : rklEmpty r = true
  · have hz : r.listLength = 0 := by
      by_contra hl
      exact h.not_empty hl he
    unfold rklEmpty at he
    rw [decide_eq_true_eq] at he
    rw [if_pos (by unfold rklEmpty; exact decide_eq_true he)]
    omega
  · rw [if_neg he]

theorem solidOffset_le (h : r.Checked b) : solidOffset b r ≤ r.listLength := by
  unfold solidOffset
  by_cases hc : r.solidBegin < r.solidEnd ∧ r.listLength ≠ 0
  · rw [if_pos hc]
    exact (rklBsearch_spec b h.ascending r.solidBegin).1
  · rw [if_neg hc]
    exact Nat.zero_le _

/-- The sets that the operations build pass the check. -/
theorem Rkl.Wf.checked (h : r.Wf) (hvalid : ∀ x ∈ r.ids, x ≤ rklMaxTxnid) : r.Checked b := by
  refine ⟨?_, fun x hx => ⟨(h.ids_bounds hx).1, hvalid x hx⟩⟩
  obtain ⟨hle, hlow, hhigh⟩ := rklBsearch_spec b h.ascending r.solidBegin
  have hlimit : ¬ (r.inplace = true ∧ r.listLimit ≠ rklInplaceLength) :=
    fun hc => hc.2 (h.inplaceLimit hc.1)
  unfold rklCheck
  rw [if_neg hlimit, if_neg (Nat.not_lt.2 h.limit)]
  by_cases he : rklEmpty r = true
  · obtain ⟨hz, hs⟩ := Rkl.ids_eq_empty.1 (h.empty_iff.1 he)
    rw [if_pos he, decide_eq_true_eq]
    refine ⟨hz, ?_⟩
    unfold solidEmpty
    rw [decide_eq_false hs]
    rfl
  rw [if_neg he]
  by_cases hl : r.listLength ≠ 0
  · have hsorted : ∀ i < r.listLength, 1 ≤ i → r.list (i - 1) < r.list i :=
      fun i hi hone => h.ascending (i - 1) i (by omega) hi
    rw [if_pos hl, if_neg (not_not.2 hsorted)]
    by_cases hguard : ¬ solidEmpty r = true ∧
        sizePred r.solidBegin ≤ r.list (r.listLength - 1) ∧ r.solidEnd ≥ r.list 0
    · have hs : r.solidBegin < r.solidEnd := by
        have hsolid := hguard.1
        unfold solidEmpty at hsolid
        simpa using hsolid
      rw [if_pos hguard]
      dsimp only
      rw [if_neg (Nat.not_lt.2 hle), if_neg, if_neg]
      · rintro ⟨hit, hbad⟩
        have := hhigh _ (Nat.le_refl _) hit
        have := h.apart hs _ hit
        omega
      · rintro ⟨hit, hbad⟩
        have := hlow (rklBsearch b r r.solidBegin - 1) (by omega)
        omega
    · rw [if_neg hguard]
  · rw [if_neg hl]

end Check

/-! ## 2. Positions and ids -/

section Positions

variable {b : Build} {r : Rkl}

theorem idAt_low {pos : Nat} (h : pos < solidOffset b r) : idAt b r pos = r.list pos := if_pos h

theorem idAt_inside {pos : Nat} (hlo : solidOffset b r ≤ pos)
    (hhi : pos < solidOffset b r + (r.solidEnd - r.solidBegin)) :
    idAt b r pos = r.solidBegin + (pos - solidOffset b r) := by
  unfold idAt
  rw [if_neg (by omega), if_pos hhi]

theorem idAt_high {pos : Nat} (h : solidOffset b r + (r.solidEnd - r.solidBegin) ≤ pos) :
    idAt b r pos = r.list (pos - (r.solidEnd - r.solidBegin)) := by
  unfold idAt
  rw [if_neg (by omega), if_neg (by omega)]

-- an offset stands for an interval and a list
theorem solidOffset_pos (h : 0 < solidOffset b r) :
    r.solidBegin < r.solidEnd ∧ r.listLength ≠ 0 := by
  by_contra hc
  have : solidOffset b r = 0 := if_neg hc
  omega

theorem idAt_step (h : r.Checked b) {pos : Nat} (hpos : pos + 1 < rklLen r) :
    idAt b r pos < idAt b r (pos + 1) := by
  have hlen := h.len_eq
  have hoff := solidOffset_le h
  have hasc := h.ascending
  by_cases hlow : pos < solidOffset b r
  · obtain ⟨hs, hl⟩ := solidOffset_pos (show 0 < solidOffset b r by omega)
    rw [idAt_low hlow]
    by_cases hnext : pos + 1 < solidOffset b r
    · rw [idAt_low hnext]
      exact hasc pos (pos + 1) (by omega) (by omega)
    · rw [idAt_inside (by omega) (by omega)]
      have := (h.sides hs hl).1 pos hlow
      omega
  · by_cases hin : pos < solidOffset b r + (r.solidEnd - r.solidBegin)
    · rw [idAt_inside (by omega) hin]
      by_cases hnext : pos + 1 < solidOffset b r + (r.solidEnd - r.solidBegin)
      · rw [idAt_inside (by omega) hnext]
        omega
      · rw [idAt_high (by omega)]
        have hl : r.listLength ≠ 0 := by omega
        have := (h.sides (by omega) hl).2 (pos + 1 - (r.solidEnd - r.solidBegin)) (by omega)
          (by omega)
        omega
    · rw [idAt_high (by omega), idAt_high (by omega)]
      exact hasc _ _ (by omega) (by omega)

theorem idAt_lt (h : r.Checked b) {i : Nat} : ∀ {j : Nat}, i < j → j < rklLen r →
    idAt b r i < idAt b r j
  | j + 1, hij, hj => by
    have hstep := idAt_step h hj
    by_cases he : i = j
    · rw [he]
      exact hstep
    · have := idAt_lt h (show i < j by omega) (by omega)
      omega

/-- The positions of an iterator enumerate the set. -/
theorem idAt_enumerates (h : r.Checked b) : Enumerates (idAt b r) (rklLen r) r.ids := by
  have hlen := h.len_eq
  have hoff := solidOffset_le h
  refine ⟨fun i j hij hj => idAt_lt h hij hj, fun x => ?_⟩
  rw [Rkl.mem_ids]
  constructor
  · rintro (⟨i, hi, rfl⟩ | ⟨hlo, hhi⟩)
    · by_cases hlow : i < solidOffset b r
      · exact ⟨i, by omega, idAt_low hlow⟩
      · refine ⟨i + (r.solidEnd - r.solidBegin), by omega, ?_⟩
        rw [idAt_high (by omega), Nat.add_sub_cancel]
    · refine ⟨solidOffset b r + (x - r.solidBegin), by omega, ?_⟩
      rw [idAt_inside (by omega) (by omega)]
      omega
  · rintro ⟨i, hi, rfl⟩
    by_cases hlow : i < solidOffset b r
    · rw [idAt_low hlow]
      exact Or.inl ⟨i, by omega, rfl⟩
    · by_cases hin : i < solidOffset b r + (r.solidEnd - r.solidBegin)
      · rw [idAt_inside (by omega) hin]
        exact Or.inr ⟨by omega, by omega⟩
      · rw [idAt_high (by omega)]
        exact Or.inl ⟨_, by omega, rfl⟩

end Positions

/-! ## 3. Turning -/

section Turn

variable {b : Build} {r : Rkl}

/-- The iterator of a set at a position. -/
def iterAt (b : Build) (r : Rkl) (pos : Nat) : RklIter := ⟨r, pos, solidOffset b r⟩

theorem rklIterator_eq (hshort : rklLen r < 2 ^ 32) (reverse : Bool) :
    rklIterator b r reverse = iterAt b r (if reverse then rklLen r else 0) := by
  unfold rklIterator iterAt toUnsigned
  rw [Nat.mod_eq_of_lt hshort]

/-- One call inside the set: the id that the walk passes, and the position behind it. -/
theorem rklTurn_eq (h : r.Checked b) (hshort : rklLen r < 2 ^ 32) {pos pos' next : Nat}
    {reverse : Bool} (hpos : (if reverse then unsignedPred pos else pos) = pos')
    (hnext : (if reverse then pos' else pos' + 1) = next) (hin : pos' < rklLen r) :
    rklTurn (iterAt b r pos) reverse = (idAt b r pos', iterAt b r next) := by
  have hlen := h.len_eq
  have hle : next ≤ rklLen r := by
    rw [← hnext]
    split_ifs
    · exact Nat.le_of_lt hin
    · exact hin
  have hkept : toUnsigned next = next := Nat.mod_eq_of_lt (Nat.lt_of_le_of_lt hle hshort)
  unfold rklTurn iterAt
  dsimp only
  rw [hpos, hnext, hkept, if_neg (by omega)]
  by_cases hl : r.listLength ≠ 0
  · rw [if_pos hl]
    by_cases hlow : pos' < solidOffset b r
    · rw [if_pos hlow, idAt_low hlow]
    · rw [if_neg hlow]
      by_cases hmid : pos' < solidOffset b r + (r.solidEnd - r.solidBegin)
      · have hplace : r.solidBegin + pos' - solidOffset b r =
            r.solidBegin + (pos' - solidOffset b r) := by omega
        rw [if_pos hmid, idAt_inside (by omega) hmid, hplace]
      · rw [if_neg hmid, idAt_high (by omega)]
  · have hoff : solidOffset b r = 0 := if_neg fun hc => hl hc.2
    rw [if_neg hl, idAt_inside (by omega) (by omega), hoff, Nat.sub_zero]

theorem rklTurn_done {pos : Nat} {reverse : Bool}
    (hout : rklLen r ≤ if reverse then unsignedPred pos else pos) :
    rklTurn (iterAt b r pos) reverse = (0, iterAt b r pos) := if_pos hout

theorem turnAt_forward (h : r.Checked b) (hshort : rklLen r < 2 ^ 32) :
    ∀ (k pos : Nat), turnAt false (iterAt b r pos) k =
      if pos + k < rklLen r then idAt b r (pos + k) else 0
  | k, pos => by
    by_cases hin : pos < rklLen r
    · have hturn : rklTurn (iterAt b r pos) false = (idAt b r pos, iterAt b r (pos + 1)) :=
        rklTurn_eq h hshort rfl rfl hin
      cases k with
      | zero =>
        show (rklTurn _ _).1 = _
        rw [hturn]
        exact (if_pos hin).symm
      | succ k =>
        show turnAt false (rklTurn _ _).2 k = _
        rw [hturn, turnAt_forward h hshort k (pos + 1), Nat.add_right_comm pos 1 k, Nat.add_assoc]
    · have hturn : rklTurn (iterAt b r pos) false = (0, iterAt b r pos) :=
        rklTurn_done (Nat.le_of_not_lt hin)
      rw [if_neg (by omega)]
      cases k with
      | zero =>
        show (rklTurn _ _).1 = _
        rw [hturn]
      | succ k =>
        show turnAt false (rklTurn _ _).2 k = _
        rw [hturn, turnAt_forward h hshort k pos, if_neg (by omega)]

theorem turnAt_backward (h : r.Checked b) (hshort : rklLen r < 2 ^ 32) :
    ∀ (k pos : Nat), pos ≤ rklLen r → turnAt true (iterAt b r pos) k =
      if k < pos then idAt b r (pos - 1 - k) else 0
  | k, 0, _ => by
    have hturn : rklTurn (iterAt b r 0) true = (0, iterAt b r 0) :=
      rklTurn_done (show rklLen r ≤ 2 ^ 32 - 1 by omega)
    rw [if_neg (by omega)]
    cases k with
    | zero =>
      show (rklTurn _ _).1 = _
      rw [hturn]
    | succ k =>
      show turnAt true (rklTurn _ _).2 k = _
      rw [hturn, turnAt_backward h hshort k 0 (Nat.zero_le _), if_neg (by omega)]
  | k, pos + 1, hpos => by
    have hturn : rklTurn (iterAt b r (pos + 1)) true = (idAt b r pos, iterAt b r pos) :=
      rklTurn_eq h hshort rfl rfl hpos
    cases k with
    | zero =>
      show (rklTurn _ _).1 = _
      rw [hturn, if_pos (by omega)]
      rfl
    | succ k =>
      have hplace : pos - 1 - k = pos + 1 - 1 - (k + 1) := by omega
      show turnAt true (rklTurn _ _).2 k = _
      rw [hturn, turnAt_backward h hshort k pos (by omega), hplace]
      simp only [Nat.add_lt_add_iff_right]

/-- Forwards: the ids in ascending order, then 0. -/
theorem turnAt_ascending (h : r.Checked b) (hshort : rklLen r < 2 ^ 32) (k : Nat) :
    turnAt false (rklIterator b r false) k = (r.ids.sort (· ≤ ·)).getD k 0 := by
  rw [rklIterator_eq hshort, (idAt_enumerates h).sort_eq]
  show turnAt false (iterAt b r 0) k = _
  rw [turnAt_forward h hshort, Nat.zero_add]
  by_cases hk : k < rklLen r
  · rw [if_pos hk, List.getD_eq_getElem _ _ (by rw [List.length_map, List.length_range]; exact hk),
      List.getElem_map, List.getElem_range]
  · rw [if_neg hk, List.getD_eq_default _ _ (by rw [List.length_map, List.length_range]; omega)]

/-- Backwards: the ids in descending order, then 0. -/
theorem turnAt_descending (h : r.Checked b) (hshort : rklLen r < 2 ^ 32) (k : Nat) :
    turnAt true (rklIterator b r true) k = (r.ids.sort (· ≤ ·)).reverse.getD k 0 := by
  rw [rklIterator_eq hshort, (idAt_enumerates h).sort_eq]
  show turnAt true (iterAt b r (rklLen r)) k = _
  rw [turnAt_backward h hshort k _ (Nat.le_refl _)]
  have hlength : ((List.range (rklLen r)).map (idAt b r)).reverse.length = rklLen r := by
    rw [List.length_reverse, List.length_map, List.length_range]
  by_cases hk : k < rklLen r
  · rw [if_pos hk, List.getD_eq_getElem _ _ (by rw [hlength]; exact hk), List.getElem_reverse,
      List.getElem_map, List.getElem_range, List.length_map, List.length_range]
  · rw [if_neg hk, List.getD_eq_default _ _ (by rw [hlength]; omega)]

end Turn

end Mdbx
