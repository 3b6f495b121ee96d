import Mdbx.Rkl.Set

/-!
# Rkl.Push — what one insertion does to the set

The loops of `rkl_push` first, then its four ways: into the interval, the couple exchange, into the
list, and the exchange of a long run of the list with the interval.
-/

namespace Mdbx

open Buffer

variable {r : Rkl} {b : Build} {id : Nat} {list : Nat → Nat}

/-! ## 1. Runs of consecutive ids around a list position -/

/-- Cells `[f, i)` hold the ids `[newBegin, oldBegin)` and nothing below joins them. -/
structure RunBelow (list : Nat → Nat) (i oldBegin f newBegin : Nat) : Prop where
  le : f ≤ i
  begin_eq : newBegin + (i - f) = oldBegin
  run : ∀ k, f ≤ k → k < i → list k = newBegin + (k - f)
  edge : 0 < f → list (f - 1) + 1 < newBegin

/-- Cells `[i, t)` hold the ids `[oldEnd, newEnd)` and nothing of the first `n` cells above joins
them. -/
structure RunAbove (list : Nat → Nat) (i oldEnd n t newEnd : Nat) : Prop where
  ge : i ≤ t
  le : t ≤ n
  end_eq : newEnd = oldEnd + (t - i)
  run : ∀ k, i ≤ k → k < t → list k = oldEnd + (k - i)
  edge : t < n → newEnd < list t

theorem runDown_spec {n i oldBegin : Nat} (ha : Ascending list n) (hin : i ≤ n)
    (hpos : ∀ k < i, 1 ≤ list k) (hlt : ∀ k < i, list k < oldBegin) :
    RunBelow list i oldBegin (runDown list i oldBegin).1 (runDown list i oldBegin).2 := by
  induction i generalizing oldBegin with
  | zero => exact ⟨le_rfl, by simp [runDown], by omega, by simp [runDown]⟩
  | succ i ih =>
    have hi := hlt i (by omega)
    have hi1 := hpos i (by omega)
    rw [runDown]
    split
    · rename_i he
      have hrec := @ih (oldBegin - 1) (by omega) (fun k hk => hpos k (by omega)) (fun k hk => by
        have := ha k i hk (by omega)
        omega)
      have hle := hrec.le
      have hbegin := hrec.begin_eq
      refine ⟨by omega, by omega, fun k hk hki => ?_, hrec.edge⟩
      by_cases hlast : k = i
      · rw [hlast, he]; omega
      · exact hrec.run k hk (by omega)
    · rename_i he
      exact ⟨le_rfl, by simp, by omega, fun _ => by simp only [Nat.add_sub_cancel]; omega⟩

/-- Below the search position the bounds check of `extend_solid` never fails. -/
theorem absorbDown_eq_runDown {n i oldBegin : Nat} (ha : Ascending list n) (hin : i ≤ n)
    (hlt : ∀ k < i, list k < oldBegin) :
    absorbDown list i oldBegin = some (runDown list i oldBegin) := by
  induction i generalizing oldBegin with
  | zero => rfl
  | succ i ih =>
    have hi := hlt i (by omega)
    rw [absorbDown, runDown]
    by_cases he : list i = oldBegin - 1
    · rw [if_pos (by omega), if_neg (by simpa using he), if_pos he]
      apply ih (by omega)
      intro k hk
      have := ha k i hk (by omega)
      omega
    · rw [if_neg (by omega), if_neg he]

theorem runUp_spec {i m n oldEnd : Nat} (ha : Ascending list n) (hin : i + m = n)
    (hge : ∀ k, i ≤ k → k < n → oldEnd ≤ list k) :
    RunAbove list i oldEnd n (runUp list i oldEnd m).1 (runUp list i oldEnd m).2 := by
  induction m generalizing i oldEnd with
  | zero => exact ⟨le_rfl, by simp only [runUp]; omega, by simp [runUp], by simp only [runUp]; omega,
      by simp only [runUp]; omega⟩
  | succ m ih =>
    have hi := hge i le_rfl (by omega)
    rw [runUp]
    split
    · rename_i he
      have hrec := @ih (i + 1) (oldEnd + 1) (by omega) (fun k hk hkn => by
        have := ha i k (by omega) hkn
        omega)
      have h1 := hrec.ge
      have h2 := hrec.end_eq
      refine ⟨by omega, hrec.le, by omega, fun k hk hkt => ?_, hrec.edge⟩
      by_cases hfirst : k = i
      · rw [hfirst, he]; omega
      · rw [hrec.run k (by omega) hkt]; omega
    · rename_i he
      exact ⟨le_rfl, by simp only; omega, by simp, by simp only; omega, fun _ => by simp only; omega⟩

theorem absorbUp_eq_runUp {i m n oldEnd : Nat} (ha : Ascending list n) (hin : i + m = n)
    (hge : ∀ k, i ≤ k → k < n → oldEnd ≤ list k) :
    absorbUp list i oldEnd m = some (runUp list i oldEnd m) := by
  induction m generalizing i oldEnd with
  | zero => rfl
  | succ m ih =>
    have hi := hge i le_rfl (by omega)
    rw [absorbUp, runUp]
    by_cases he : list i = oldEnd
    · rw [if_pos (by omega), if_neg (by simpa using he), if_pos he]
      apply ih (by omega)
      intro k hk hkn
      have := ha i k (by omega) hkn
      omega
    · rw [if_neg (by omega), if_neg he]

/-! ## 2. `extend_solid` -/

/-- A duplicate in the list is noticed before anything is stored. -/
theorem extendSolid_of_mem_list {n solidBegin solidEnd : Nat}
    (ha : Ascending r.list r.listLength) (hn : n < r.listLength) (hid : r.list n = id)
    (hlo : ∀ k < n, r.list k < solidBegin) (hhi : id < solidEnd) :
    extendSolid b r solidBegin solidEnd id = (.resultTrue, r) := by
  have hi : rklBsearch b r id = n := rklBsearch_eq b ha hn hid
  unfold extendSolid
  rw [if_pos (by omega)]
  simp only [hi]
  rw [absorbDown_eq_runDown ha (by omega) hlo,
    show r.listLength - n = (r.listLength - n - 1) + 1 by omega]
  simp only [absorbUp]
  rw [if_pos (by omega), if_pos (by omega)]

/-- The outcome of a successful `extend_solid`: the cells `[f, t)` went into the interval. -/
structure Extended (r : Rkl) (solidBegin solidEnd id : Nat) (r' : Rkl) (i f t : Nat) : Prop where
  below : RunBelow r.list i solidBegin f r'.solidBegin
  above : RunAbove r.list i solidEnd r.listLength t r'.solidEnd
  split : (∀ k < i, r.list k < id) ∧ ∀ k, i ≤ k → k < r.listLength → id < r.list k
  length : r'.listLength = r.listLength - (t - f)
  cells : ∀ j < r'.listLength, r'.list j = if j < f then r.list j else r.list (t + (j - f))
  sameBuffer : r'.listLimit = r.listLimit ∧ r'.inplace = r.inplace

theorem extendSolid_of_not_mem {solidBegin solidEnd : Nat}
    (ha : Ascending r.list r.listLength) (hpos : ∀ k < r.listLength, 1 ≤ r.list k)
    (hid : solidBegin ≤ id ∧ id < solidEnd)
    (hout : ∀ k < r.listLength, r.list k < solidBegin ∨ solidEnd ≤ r.list k) :
    ∃ r' i f t, extendSolid b r solidBegin solidEnd id = (.success, r') ∧
      Extended r solidBegin solidEnd id r' i f t := by
  unfold extendSolid
  by_cases hz : r.listLength = 0
  · rw [if_neg (by simp [hz])]
    refine ⟨_, 0, 0, 0, rfl, ⟨le_rfl, by simp, by omega, by omega⟩,
      ⟨le_rfl, by omega, by simp, by omega, by omega⟩, ⟨by omega, by omega⟩, by simp, ?_,
      ⟨rfl, rfl⟩⟩
    intro j hj
    simp only [hz] at hj
    omega
  · rw [if_pos hz]
    obtain ⟨hle, hleft, hright⟩ := rklBsearch_spec b ha id
    set i := rklBsearch b r id
    have hlo : ∀ k < i, r.list k < solidBegin := fun k hk => by
      have h1 := hleft k hk
      have h2 := hout k (by omega)
      omega
    have hhi : ∀ k, i ≤ k → k < r.listLength → solidEnd ≤ r.list k := fun k hk hkn => by
      have h1 := hright k hk hkn
      have h2 := hout k hkn
      omega
    have hbelow := runDown_spec ha hle (fun k hk => hpos k (by omega)) hlo
    have habove := @runUp_spec r.list i (r.listLength - i) _ _ ha (by omega) hhi
    simp only
    rw [absorbDown_eq_runDown ha hle hlo, @absorbUp_eq_runUp r.list i _ _ _ ha (by omega) hhi]
    have hf := hbelow.le
    have ht := habove.ge
    have htn := habove.le
    set f := (runDown r.list i solidBegin).1
    set t := (runUp r.list i solidEnd (r.listLength - i)).1
    refine ⟨_, i, f, t, rfl, ?_⟩
    have hsplit : (∀ k < i, r.list k < id) ∧ ∀ k, i ≤ k → k < r.listLength → id < r.list k :=
      ⟨hleft, fun k hk hkn => by have := hhi k hk hkn; omega⟩
    by_cases hft : f < t
    · rw [if_pos hft]
      refine ⟨hbelow, habove, hsplit, rfl, fun j hj => ?_, ⟨rfl, rfl⟩⟩
      change j < r.listLength - (t - f) at hj
      change moveDown r.list f t (r.listLength - t) j = _
      rw [moveDown_apply _ _ _ _ _ (by omega)]
      by_cases hjf : j < f
      · rw [if_neg (by omega), if_pos hjf]
      · rw [if_pos (by omega), if_neg hjf]
    · rw [if_neg hft]
      refine ⟨hbelow, habove, hsplit, by simp only; omega, fun j hj => ?_, ⟨rfl, rfl⟩⟩
      change r.list j = _
      split
      · rfl
      · congr 1; omega

variable {r' : Rkl} {solidBegin solidEnd i f t : Nat}

theorem Extended.ascending (h : Extended r solidBegin solidEnd id r' i f t)
    (ha : Ascending r.list r.listLength) : Ascending r'.list r'.listLength := by
  have hlen := h.length
  have h1 := h.below.le
  have h2 := h.above.ge
  have h3 := h.above.le
  intro j k hjk hk
  rw [h.cells j (by omega), h.cells k hk]
  split <;> split <;> apply ha <;> omega

theorem Extended.apart (h : Extended r solidBegin solidEnd id r' i f t)
    (ha : Ascending r.list r.listLength) :
    ∀ j < r'.listLength, r'.list j + 1 < r'.solidBegin ∨ r'.solidEnd < r'.list j := by
  have hlen := h.length
  have h1 := h.below.le
  have h2 := h.above.ge
  have h3 := h.above.le
  intro j hj
  rw [h.cells j hj]
  split
  · left
    have hedge := h.below.edge (by omega)
    have := ha.le (show j ≤ f - 1 by omega) (by omega)
    omega
  · right
    have hedge := h.above.edge (by omega)
    have := ha.le (show t ≤ t + (j - f) by omega) (by omega)
    omega

theorem Extended.ids_eq (h : Extended r solidBegin solidEnd id r' i f t)
    (hid : solidBegin ≤ id ∧ id < solidEnd)
    (hgrow : Finset.Ico solidBegin solidEnd =
      insert id (Finset.Ico r.solidBegin r.solidEnd)) :
    r'.ids = insert id r.ids := by
  have hlen := h.length
  have h1 := h.below.le
  have h2 := h.above.ge
  have h3 := h.above.le
  have h4 := h.below.begin_eq
  have h5 := h.above.end_eq
  have hsolid : ∀ x, (solidBegin ≤ x ∧ x < solidEnd) ↔
      x = id ∨ (r.solidBegin ≤ x ∧ x < r.solidEnd) := by
    intro x
    rw [← Finset.mem_Ico, hgrow, Finset.mem_insert, Finset.mem_Ico]
  ext x
  rw [Finset.mem_insert, Rkl.mem_ids, Rkl.mem_ids, or_left_comm, ← hsolid]
  constructor
  · rintro (⟨j, hj, rfl⟩ | hx)
    · rw [h.cells j hj]
      split
      · exact Or.inl ⟨j, by omega, rfl⟩
      · exact Or.inl ⟨t + (j - f), by omega, rfl⟩
    · -- an id of the new interval was in the list below, in the list above, or in between
      by_cases hlow : x < solidBegin
      · refine Or.inl ⟨f + (x - r'.solidBegin), by omega, ?_⟩
        rw [h.below.run _ (by omega) (by omega)]
        omega
      · by_cases hhigh : solidEnd ≤ x
        · refine Or.inl ⟨i + (x - solidEnd), by omega, ?_⟩
          rw [h.above.run _ (by omega) (by omega)]
          omega
        · exact Or.inr ⟨by omega, by omega⟩
  · rintro (⟨k, hk, rfl⟩ | hx)
    · by_cases hkf : k < f
      · refine Or.inl ⟨k, by omega, ?_⟩
        rw [h.cells k (by omega), if_pos hkf]
      · by_cases hkt : k < t
        · right
          by_cases hki : k < i
          · rw [h.below.run k (by omega) hki]; omega
          · rw [h.above.run k (by omega) hkt]; omega
        · refine Or.inl ⟨f + (k - t), by omega, ?_⟩
          rw [h.cells _ (by omega), if_neg (by omega)]
          congr 1; omega
    · exact Or.inr ⟨by omega, by omega⟩

theorem Extended.wf (h : Extended r solidBegin solidEnd id r' i f t) (hr : r.Wf)
    (hid : solidBegin ≤ id ∧ id < solidEnd) (hlo : minTxnid ≤ solidBegin)
    (hhi : solidEnd ≤ invalidTxnid) : r'.Wf := by
  have hlen := h.length
  have h1 := h.below.le
  have h2 := h.above.ge
  have h3 := h.above.le
  have h4 := h.below.begin_eq
  have h5 := h.above.end_eq
  have hcell : ∀ j < r'.listLength, minTxnid ≤ r'.list j ∧ r'.list j < invalidTxnid := by
    intro j hj
    rw [h.cells j hj]
    split <;> apply hr.listIds <;> omega
  have hroom := hr.room
  refine ⟨h.ascending hr.ascending, hcell, fun _ => ⟨?_, ?_⟩, fun _ => h.apart hr.ascending,
    fun hempty => absurd (show r'.solidBegin < r'.solidEnd by omega) hempty, ?_, ?_, ?_⟩
  · by_cases hf : f = i
    · omega
    · have hrun := h.below.run f le_rfl (by omega)
      have := hr.listIds f (by omega)
      omega
  · by_cases ht : t = i
    · omega
    · have hrun := h.above.run (t - 1) (by omega) (by omega)
      have := hr.listIds (t - 1) (by omega)
      omega
  · rw [h.sameBuffer.1]; omega
  · rw [h.sameBuffer.1]; exact hr.limit
  · rw [h.sameBuffer.1, h.sameBuffer.2]; exact hr.inplaceLimit

end Mdbx
