import Mdbx.Rkl.Model

/-!
# Rkl.Set — the set an `rkl_t` stands for, its invariant and the queries

`Rkl.ids` is the abstract value; `Rkl.Wf` is what the operations maintain.  It is stronger than
`rkl_check`: the list also keeps clear of the cell just below the interval.
-/

namespace Mdbx

open Buffer

/-- The finite set of txnids that `r` represents. -/
def Rkl.ids (r : Rkl) : Finset Nat :=
  (Finset.range r.listLength).image r.list ∪ Finset.Ico r.solidBegin r.solidEnd

theorem Rkl.mem_ids {r : Rkl} {x : Nat} :
    x ∈ r.ids ↔ (∃ i < r.listLength, r.list i = x) ∨ (r.solidBegin ≤ x ∧ x < r.solidEnd) := by
  simp [Rkl.ids]

theorem Rkl.ids_eq_empty {r : Rkl} :
    r.ids = ∅ ↔ r.listLength = 0 ∧ ¬ r.solidBegin < r.solidEnd := by
  simp [Rkl.ids, Finset.union_eq_empty]

/-- Strictly ascending on the first `n` cells. -/
def Ascending (list : Nat → Nat) (n : Nat) : Prop :=
  ∀ i j, i < j → j < n → list i < list j

theorem Ascending.of_adjacent {list : Nat → Nat} {n : Nat}
    (h : ∀ j, j + 1 < n → list j < list (j + 1)) : Ascending list n := by
  intro i j hij
  induction j with
  | zero => omega
  | succ j ih =>
    intro hj
    have hstep := h j hj
    by_cases he : i = j
    · rw [he]; exact hstep
    · have hprev := ih (by omega) (by omega)
      omega

theorem Ascending.le {list : Nat → Nat} {n i j : Nat} (h : Ascending list n)
    (hij : i ≤ j) (hj : j < n) : list i ≤ list j := by
  by_cases he : i = j
  · rw [he]
  · exact (h i j (by omega) hj).le

theorem Ascending.inj {list : Nat → Nat} {n i j : Nat} (h : Ascending list n)
    (hi : i < n) (hj : j < n) (he : list i = list j) : i = j := by
  by_contra hne
  rcases Nat.lt_or_gt_of_ne hne with hlt | hlt
  · have := h i j hlt hj; omega
  · have := h j i hlt hi; omega

/-- The representation invariant of `rkl_t`. -/
structure Rkl.Wf (r : Rkl) : Prop where
  ascending : Ascending r.list r.listLength
  listIds : ∀ i < r.listLength, minTxnid ≤ r.list i ∧ r.list i < invalidTxnid
  solidIds : r.solidBegin < r.solidEnd → minTxnid ≤ r.solidBegin ∧ r.solidEnd ≤ invalidTxnid
  -- no list element lies in the interval or adjoins it
  apart : r.solidBegin < r.solidEnd →
    ∀ i < r.listLength, r.list i + 1 < r.solidBegin ∨ r.solidEnd < r.list i
  -- an interval emptied by pops keeps equal ends as long as the list is not empty
  hollow : ¬ r.solidBegin < r.solidEnd →
    (r.listLength = 0 ∧ r.solidBegin = uint64Max ∧ r.solidEnd = 0) ∨
      (0 < r.listLength ∧ r.solidBegin = r.solidEnd)
  room : r.listLength ≤ r.listLimit
  limit : rklInplaceLength ≤ r.listLimit
  inplaceLimit : r.inplace = true → r.listLimit = rklInplaceLength

variable {r : Rkl} {b : Build} {id : Nat}

/-- `rkl_bsearch` on the list of a well-formed set: the first element not below `id`. -/
theorem rklBsearch_spec (b : Build) (ha : Ascending r.list r.listLength) (id : Nat) :
    rklBsearch b r id ≤ r.listLength ∧
      (∀ i < rklBsearch b r id, r.list i < id) ∧
      (∀ i, rklBsearch b r id ≤ i → i < r.listLength → id ≤ r.list i) := by
  have ho : SearchOrdered (fun i => decide (r.list i < id)) r.listLength := by
    intro i j hij hj hb
    simp only [decide_eq_true_eq] at hb ⊢
    exact lt_trans (ha i j hij hj) hb
  obtain ⟨hin, hleft, hright⟩ := search_lowerBound b.haveCmov _ _ ho
  refine ⟨hin, fun i hi => ?_, fun i hi hlt => ?_⟩
  · simpa using hleft i hi
  · simpa using hright i hi hlt

theorem rklBsearch_eq {n : Nat} (b : Build) (ha : Ascending r.list r.listLength)
    (hn : n < r.listLength) (he : r.list n = id) : rklBsearch b r id = n := by
  obtain ⟨hin, hleft, hright⟩ := rklBsearch_spec b ha id
  rcases Nat.lt_trichotomy (rklBsearch b r id) n with hlt | heq | hgt
  · have h1 := hright (rklBsearch b r id) le_rfl (by omega)
    have h2 := ha _ n hlt hn
    omega
  · exact heq
  · have := hleft n hgt
    omega

/-! ## Queries -/

theorem Rkl.Wf.not_mem_solid (h : r.Wf) (hs : r.solidBegin < r.solidEnd) {i : Nat}
    (hi : i < r.listLength) : ¬ (r.solidBegin ≤ r.list i ∧ r.list i < r.solidEnd) := by
  have := h.apart hs i hi
  omega

theorem Rkl.Wf.ids_bounds (h : r.Wf) {x : Nat} (hx : x ∈ r.ids) :
    minTxnid ≤ x ∧ x < invalidTxnid := by
  rcases Rkl.mem_ids.mp hx with ⟨i, hi, rfl⟩ | ⟨hlo, hhi⟩
  · exact h.listIds i hi
  · have := h.solidIds (by omega)
    omega

/-- `rkl_contain` decides membership. -/
theorem rklContain_iff (h : r.Wf) (b : Build) (id : Nat) :
    rklContain b r id = true ↔ id ∈ r.ids := by
  rw [Rkl.mem_ids]
  unfold rklContain
  by_cases hin : id ≥ r.solidBegin ∧ id < r.solidEnd
  · rw [if_pos hin]
    exact iff_of_true rfl (Or.inr hin)
  · rw [if_neg hin]
    by_cases hz : r.listLength = 0
    · rw [if_neg (by simp [hz])]
      simp only [Bool.false_eq_true, false_iff, not_or, not_exists, not_and]
      exact ⟨fun i hi => by omega, fun h1 h2 => hin ⟨h1, h2⟩⟩
    · rw [if_pos hz]
      obtain ⟨hle, hleft, hright⟩ := rklBsearch_spec b h.ascending id
      by_cases he : rklBsearch b r id = r.listLength
      · simp only [he, ne_eq, not_true, if_false, Bool.false_eq_true, false_iff, not_or]
        refine ⟨?_, hin⟩
        rintro ⟨i, hi, hx⟩
        have := hleft i (by omega)
        omega
      · simp only [ne_eq, he, not_false_eq_true, if_true, decide_eq_true_eq]
        constructor
        · intro hx
          exact Or.inl ⟨_, by omega, hx⟩
        · rintro (⟨i, hi, hx⟩ | hx)
          · rw [rklBsearch_eq b h.ascending hi hx]
            exact hx
          · exact absurd hx hin

theorem Rkl.Wf.empty_iff (h : r.Wf) : rklEmpty r = true ↔ r.ids = ∅ := by
  simp only [rklEmpty, decide_eq_true_eq, Rkl.ids_eq_empty]
  constructor
  · intro hgt
    rcases h.hollow (by omega) with ⟨hz, -, -⟩ | ⟨-, he⟩ <;> omega
  · rintro ⟨hz, hs⟩
    rcases h.hollow hs with ⟨-, hb, he⟩ | ⟨hpos, -⟩
    · rw [hb, he]
      decide
    · omega

/-- `rkl_len` is the cardinality. -/
theorem rklLen_eq_card (h : r.Wf) : rklLen r = r.ids.card := by
  have hinj : Set.InjOn r.list (Finset.range r.listLength) := by
    intro i hi j hj he
    simp only [Finset.coe_range, Set.mem_Iio] at hi hj
    exact h.ascending.inj hi hj he
  have hdisj : Disjoint ((Finset.range r.listLength).image r.list)
      (Finset.Ico r.solidBegin r.solidEnd) := by
    rw [Finset.disjoint_left]
    intro x hx hx'
    simp only [Finset.mem_image, Finset.mem_range, Finset.mem_Ico] at hx hx'
    obtain ⟨i, hi, rfl⟩ := hx
    exact h.not_mem_solid (by omega) hi hx'
  have hcard : r.ids.card = r.listLength + (r.solidEnd - r.solidBegin) := by
    rw [Rkl.ids, Finset.card_union_of_disjoint hdisj, Finset.card_image_of_injOn hinj,
      Finset.card_range, Nat.card_Ico]
  unfold rklLen
  split
  · rename_i he
    rw [h.empty_iff.mp he, Finset.card_empty]
  · rw [hcard, Nat.add_comm]

/-- `rkl_lowest` is the minimum, `INVALID_TXNID` for the empty set. -/
theorem rklLowest_spec (h : r.Wf) :
    (r.ids = ∅ → rklLowest r = invalidTxnid) ∧
      (r.ids.Nonempty → rklLowest r ∈ r.ids ∧ ∀ x ∈ r.ids, rklLowest r ≤ x) := by
  have hfirst : ∀ i < r.listLength, r.list 0 ≤ r.list i :=
    fun i hi => h.ascending.le (Nat.zero_le i) hi
  have hval : r.ids.Nonempty → rklLowest r ∈ r.ids ∧ ∀ x ∈ r.ids, rklLowest r ≤ x := by
    intro hne
    unfold rklLowest solidEmpty
    by_cases hz : r.listLength = 0
    · have hs : r.solidBegin < r.solidEnd := by
        by_contra hs
        exact hne.ne_empty (Rkl.ids_eq_empty.mpr ⟨hz, hs⟩)
      rw [if_neg (by simp [hz]), if_pos (by simp [hs])]
      refine ⟨Rkl.mem_ids.mpr (Or.inr ⟨le_rfl, hs⟩), fun x hx => ?_⟩
      rcases Rkl.mem_ids.mp hx with ⟨i, hi, -⟩ | hx <;> omega
    · rw [if_pos hz]
      split
      · rename_i hc
        refine ⟨Rkl.mem_ids.mpr (Or.inl ⟨0, by omega, rfl⟩), fun x hx => ?_⟩
        rcases Rkl.mem_ids.mp hx with ⟨i, hi, rfl⟩ | hx
        · exact hfirst i hi
        · simp only [Bool.not_eq_true', decide_eq_false_iff_not] at hc
          omega
      · rename_i hc
        simp only [Bool.not_eq_true', decide_eq_false_iff_not, not_or, not_lt] at hc
        refine ⟨Rkl.mem_ids.mpr (Or.inr ⟨le_rfl, by omega⟩), fun x hx => ?_⟩
        rcases Rkl.mem_ids.mp hx with ⟨i, hi, rfl⟩ | hx
        · have := hfirst i hi
          omega
        · exact hx.1
  refine ⟨fun he => ?_, hval⟩
  obtain ⟨hz, hs⟩ := Rkl.ids_eq_empty.mp he
  unfold rklLowest solidEmpty
  rw [if_neg (by simp [hz]), if_neg (by simp [hs])]

/-- `rkl_highest` is the maximum, 0 for the empty set. -/
theorem rklHighest_spec (h : r.Wf) :
    (r.ids = ∅ → rklHighest r = 0) ∧
      (r.ids.Nonempty → rklHighest r ∈ r.ids ∧ ∀ x ∈ r.ids, x ≤ rklHighest r) := by
  have hlast : ∀ i < r.listLength, r.list i ≤ r.list (r.listLength - 1) :=
    fun i hi => h.ascending.le (by omega) (by omega)
  have hval : r.ids.Nonempty → rklHighest r ∈ r.ids ∧ ∀ x ∈ r.ids, x ≤ rklHighest r := by
    intro hne
    unfold rklHighest solidEmpty
    by_cases hz : r.listLength = 0
    · have hs : r.solidBegin < r.solidEnd := by
        by_contra hs
        exact hne.ne_empty (Rkl.ids_eq_empty.mpr ⟨hz, hs⟩)
      rw [if_neg (by simp [hz]), if_pos (by simp [hs])]
      refine ⟨Rkl.mem_ids.mpr (Or.inr (by omega)), fun x hx => ?_⟩
      rcases Rkl.mem_ids.mp hx with ⟨i, hi, -⟩ | hx <;> omega
    · rw [if_pos hz]
      split
      · rename_i hc
        refine ⟨Rkl.mem_ids.mpr (Or.inl ⟨r.listLength - 1, by omega, rfl⟩), fun x hx => ?_⟩
        rcases Rkl.mem_ids.mp hx with ⟨i, hi, rfl⟩ | hx
        · exact hlast i hi
        · simp only [Bool.not_eq_true', decide_eq_false_iff_not] at hc
          omega
      · rename_i hc
        simp only [Bool.not_eq_true', decide_eq_false_iff_not, not_or, not_not] at hc
        refine ⟨Rkl.mem_ids.mpr (Or.inr (by omega)), fun x hx => ?_⟩
        rcases Rkl.mem_ids.mp hx with ⟨i, hi, rfl⟩ | hx
        · have := hlast i hi
          omega
        · omega
  refine ⟨fun he => ?_, hval⟩
  obtain ⟨hz, hs⟩ := Rkl.ids_eq_empty.mp he
  unfold rklHighest solidEmpty
  rw [if_neg (by simp [hz]), if_neg (by simp [hs])]

end Mdbx
