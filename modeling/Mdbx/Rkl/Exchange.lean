import Mdbx.Rkl.Push

/-!
# Rkl.Exchange — swapping a run of the list with the solid interval

Three loops of `rkl_push` move list cells in place around the run `[from, to)` that leaves the list
and the place of the interval that enters it.  Whatever the order of the two, the outcome is the
list without the run, with the ids of the old interval spliced in at one position.
-/

namespace Mdbx

open Buffer

/-- When the exchange is made: a maximal run of the list, longer than the interval. -/
structure Exchangeable (r : Rkl) (fromIdx toIdx pos newBegin newEnd : Nat) : Prop where
  wf : r.Wf
  solid : r.solidBegin < r.solidEnd
  nonempty : fromIdx < toIdx
  inside : toIdx ≤ r.listLength
  run : ∀ k, fromIdx ≤ k → k < toIdx → r.list k = newBegin + (k - fromIdx)
  end_eq : newEnd = newBegin + (toIdx - fromIdx)
  below : 0 < fromIdx → r.list (fromIdx - 1) + 1 < newBegin
  above : toIdx < r.listLength → newEnd < r.list toIdx
  longer : r.solidEnd - r.solidBegin < toIdx - fromIdx
  pos_le : pos ≤ r.listLength
  pos_left : ∀ k < pos, r.list k < r.solidBegin
  pos_right : ∀ k, pos ≤ k → k < r.listLength → r.solidBegin ≤ r.list k

variable {r : Rkl} {fromIdx toIdx pos newBegin newEnd : Nat}

/-- The interval never falls inside the run: ids on both sides of it would be consecutive. -/
theorem Exchangeable.pos_outside (h : Exchangeable r fromIdx toIdx pos newBegin newEnd) :
    pos ≤ fromIdx ∨ toIdx ≤ pos := by
  by_contra hin
  have hto := h.inside
  have hs := h.solid
  have h1 := h.run (pos - 1) (by omega) (by omega)
  have h2 := h.run pos (by omega) (by omega)
  have h3 := h.pos_left (pos - 1) (by omega)
  have h4 := h.pos_right pos le_rfl (by omega)
  have h5 := h.wf.apart h.solid (pos - 1) (by omega)
  have h6 := h.wf.apart h.solid pos (by omega)
  omega

/-- The cell of the old list that is the `k`-th one once the run is taken out. -/
def skipRun (fromIdx toIdx k : Nat) : Nat := if k < fromIdx then k else k + (toIdx - fromIdx)

/-- The place of the interval in the list without the run. -/
def splicePos (fromIdx toIdx pos : Nat) : Nat :=
  if pos ≤ fromIdx then pos else pos - (toIdx - fromIdx)

theorem exchangeSolid_cells (h : Exchangeable r fromIdx toIdx pos newBegin newEnd) (j : Nat)
    (hj : j < r.listLength - (toIdx - fromIdx) + (r.solidEnd - r.solidBegin)) :
    (exchangeSolid r fromIdx toIdx pos newBegin newEnd).list j =
      if j < splicePos fromIdx toIdx pos then r.list (skipRun fromIdx toIdx j)
      else if j < splicePos fromIdx toIdx pos + (r.solidEnd - r.solidBegin) then
        r.solidBegin + (j - splicePos fromIdx toIdx pos)
      else r.list (skipRun fromIdx toIdx (j - (r.solidEnd - r.solidBegin))) := by
  have hpos := h.pos_outside
  have hlen := h.longer
  have hto := h.inside
  have hne := h.nonempty
  have hple := h.pos_le
  unfold exchangeSolid splicePos skipRun
  by_cases hA : fromIdx > pos
  · -- the interval enters before the run
    simp only [if_pos hA]
    rw [if_pos (show pos ≤ fromIdx by omega), moveDown_apply _ _ _ _ _ (by omega), fill_apply,
      fill_apply, moveUp_apply, moveUp_apply]
    split_ifs <;> first | omega | rfl | (congr 1; omega)
  · by_cases hB : fromIdx + (toIdx - fromIdx) < pos
    · -- the interval enters after the run, behind some cells that follow it
      simp only [if_neg hA, if_pos hB]
      rw [if_neg (show ¬ pos ≤ fromIdx by omega), moveDown_apply _ _ _ _ _ (by omega), fill_apply,
        fill_apply, moveDown_apply _ _ _ _ _ (by omega), moveDown_apply _ _ _ _ _ (by omega)]
      split_ifs <;> first | omega | rfl | (congr 1; omega)
    · -- the interval takes the place of the run
      simp only [if_neg hA, if_neg hB]
      rw [moveDown_apply _ _ _ _ _ (by omega), fill_apply, fill_apply]
      split_ifs <;> first | omega | rfl | (congr 1; omega)

theorem skipRun_lt_pos {k : Nat} (h : Exchangeable r fromIdx toIdx pos newBegin newEnd)
    (hk : k < splicePos fromIdx toIdx pos) : skipRun fromIdx toIdx k < pos := by
  have h1 := h.pos_outside
  have h2 := h.nonempty
  unfold splicePos at hk
  unfold skipRun
  split_ifs at hk ⊢ <;> omega

theorem pos_le_skipRun {k : Nat} (h : Exchangeable r fromIdx toIdx pos newBegin newEnd)
    (hk : splicePos fromIdx toIdx pos ≤ k) : pos ≤ skipRun fromIdx toIdx k := by
  have h1 := h.pos_outside
  have h2 := h.nonempty
  unfold splicePos at hk
  unfold skipRun
  split_ifs at hk ⊢ <;> omega

theorem skipRun_lt_length {k : Nat} (h : Exchangeable r fromIdx toIdx pos newBegin newEnd)
    (hk : k < r.listLength - (toIdx - fromIdx)) : skipRun fromIdx toIdx k < r.listLength := by
  have h1 := h.inside
  unfold skipRun
  split_ifs <;> omega

theorem skipRun_lt_skipRun {j k : Nat} (hjk : j < k) :
    skipRun fromIdx toIdx j < skipRun fromIdx toIdx k := by
  unfold skipRun
  split_ifs <;> omega

/-- Cells left of the splice position stay clear of the interval from below, the others from
above. -/
theorem Exchangeable.sides {k : Nat} (h : Exchangeable r fromIdx toIdx pos newBegin newEnd)
    (hk : k < r.listLength - (toIdx - fromIdx)) :
    (k < splicePos fromIdx toIdx pos → r.list (skipRun fromIdx toIdx k) < r.solidBegin) ∧
      (splicePos fromIdx toIdx pos ≤ k → r.solidEnd < r.list (skipRun fromIdx toIdx k)) := by
  refine ⟨fun hlt => h.pos_left _ (skipRun_lt_pos h hlt), fun hge => ?_⟩
  have hlen := skipRun_lt_length h hk
  have h1 := h.pos_right _ (pos_le_skipRun h hge) hlen
  have h2 := h.wf.apart h.solid _ hlen
  omega

theorem exchangeSolid_ascending (h : Exchangeable r fromIdx toIdx pos newBegin newEnd) :
    Ascending (exchangeSolid r fromIdx toIdx pos newBegin newEnd).list
      (r.listLength - (toIdx - fromIdx) + (r.solidEnd - r.solidBegin)) := by
  have hs := h.solid
  have hin := h.inside
  intro i j hij hj
  have hlt : ∀ k, k < j → j < r.listLength - (toIdx - fromIdx) →
      r.list (skipRun fromIdx toIdx k) < r.list (skipRun fromIdx toIdx j) := fun k hk hjn =>
    h.wf.ascending _ _ (skipRun_lt_skipRun hk) (skipRun_lt_length h hjn)
  have hq : splicePos fromIdx toIdx pos ≤ r.listLength - (toIdx - fromIdx) := by
    have h1 := h.pos_outside
    have h2 := h.pos_le
    unfold splicePos
    split_ifs <;> omega
  rw [exchangeSolid_cells h i (by omega), exchangeSolid_cells h j hj]
  by_cases hj1 : j < splicePos fromIdx toIdx pos
  · rw [if_pos (by omega), if_pos hj1]
    exact hlt i hij (by omega)
  · by_cases hj2 : j < splicePos fromIdx toIdx pos + (r.solidEnd - r.solidBegin)
    · rw [if_neg hj1, if_pos hj2]
      by_cases hi1 : i < splicePos fromIdx toIdx pos
      · rw [if_pos hi1]
        have := (h.sides (show i < _ by omega)).1 hi1
        omega
      · rw [if_neg hi1, if_pos (by omega)]
        omega
    · rw [if_neg hj1, if_neg hj2]
      have hjside := (h.sides (show j - (r.solidEnd - r.solidBegin) < _ by omega)).2 (by omega)
      by_cases hi1 : i < splicePos fromIdx toIdx pos
      · rw [if_pos hi1]
        have := (h.sides (show i < _ by omega)).1 hi1
        omega
      · by_cases hi2 : i < splicePos fromIdx toIdx pos + (r.solidEnd - r.solidBegin)
        · rw [if_neg hi1, if_pos hi2]
          omega
        · rw [if_neg hi1, if_neg hi2]
          exact h.wf.ascending _ _ (skipRun_lt_skipRun (by omega))
            (skipRun_lt_length h (by omega))

/-- The list after the exchange: the cells outside the run, and the ids of the old interval. -/
theorem exchangeSolid_list_mem (h : Exchangeable r fromIdx toIdx pos newBegin newEnd) (x : Nat) :
    (∃ j < r.listLength - (toIdx - fromIdx) + (r.solidEnd - r.solidBegin),
        (exchangeSolid r fromIdx toIdx pos newBegin newEnd).list j = x) ↔
      (∃ k < r.listLength, (k < fromIdx ∨ toIdx ≤ k) ∧ r.list k = x) ∨
        (r.solidBegin ≤ x ∧ x < r.solidEnd) := by
  have hs := h.solid
  have hin := h.inside
  have hne := h.nonempty
  have hout : ∀ k, skipRun fromIdx toIdx k < fromIdx ∨ toIdx ≤ skipRun fromIdx toIdx k := by
    intro k
    unfold skipRun
    split_ifs <;> omega
  have hq : splicePos fromIdx toIdx pos ≤ r.listLength - (toIdx - fromIdx) := by
    have h1 := h.pos_outside
    have h2 := h.pos_le
    unfold splicePos
    split_ifs <;> omega
  constructor
  · rintro ⟨j, hj, rfl⟩
    rw [exchangeSolid_cells h j hj]
    split_ifs
    · exact Or.inl ⟨_, skipRun_lt_length h (by omega), hout _, rfl⟩
    · exact Or.inr ⟨by omega, by omega⟩
    · exact Or.inl ⟨_, skipRun_lt_length h (by omega), hout _, rfl⟩
  · rintro (⟨k, hk, hside, rfl⟩ | ⟨hlo, hhi⟩)
    · -- the index of cell `k` in the list without the run
      obtain ⟨m, hm, hkm⟩ : ∃ m < r.listLength - (toIdx - fromIdx),
          skipRun fromIdx toIdx m = k := by
        unfold skipRun
        rcases hside with hlt | hge
        · exact ⟨k, by omega, if_pos hlt⟩
        · exact ⟨k - (toIdx - fromIdx), by omega, by rw [if_neg (by omega)]; omega⟩
      by_cases hmq : m < splicePos fromIdx toIdx pos
      · refine ⟨m, by omega, ?_⟩
        rw [exchangeSolid_cells h m (by omega), if_pos hmq, hkm]
      · refine ⟨m + (r.solidEnd - r.solidBegin), by omega, ?_⟩
        rw [exchangeSolid_cells h _ (by omega), if_neg (by omega), if_neg (by omega),
          Nat.add_sub_cancel, hkm]
    · refine ⟨splicePos fromIdx toIdx pos + (x - r.solidBegin), by omega, ?_⟩
      rw [exchangeSolid_cells h _ (by omega), if_neg (by omega), if_pos (by omega)]
      omega

theorem exchangeSolid_ids (h : Exchangeable r fromIdx toIdx pos newBegin newEnd) :
    (exchangeSolid r fromIdx toIdx pos newBegin newEnd).ids = r.ids := by
  have hin := h.inside
  have hend := h.end_eq
  ext x
  rw [Rkl.mem_ids, Rkl.mem_ids]
  change ((∃ j < r.listLength - (toIdx - fromIdx) + (r.solidEnd - r.solidBegin), _) ∨
    (newBegin ≤ x ∧ x < newEnd)) ↔ _
  rw [exchangeSolid_list_mem h x]
  constructor
  · rintro ((⟨k, hk, -, rfl⟩ | hx) | hx)
    · exact Or.inl ⟨k, hk, rfl⟩
    · exact Or.inr hx
    · refine Or.inl ⟨fromIdx + (x - newBegin), by omega, ?_⟩
      rw [h.run _ (by omega) (by omega)]
      omega
  · rintro (⟨k, hk, rfl⟩ | hx)
    · by_cases hk' : k < fromIdx ∨ toIdx ≤ k
      · exact Or.inl (Or.inl ⟨k, hk, hk', rfl⟩)
      · right
        rw [h.run k (by omega) (by omega)]
        omega
    · exact Or.inl (Or.inr hx)

theorem exchangeSolid_wf (h : Exchangeable r fromIdx toIdx pos newBegin newEnd) :
    (exchangeSolid r fromIdx toIdx pos newBegin newEnd).Wf := by
  have hs := h.solid
  have hin := h.inside
  have hend := h.end_eq
  have hne := h.nonempty
  have hlen := h.longer
  have hroom := h.wf.room
  have hsolid := h.wf.solidIds hs
  have hlist : ∀ j < r.listLength - (toIdx - fromIdx) + (r.solidEnd - r.solidBegin),
      (∃ k < r.listLength, (k < fromIdx ∨ toIdx ≤ k) ∧
        r.list k = (exchangeSolid r fromIdx toIdx pos newBegin newEnd).list j) ∨
      (r.solidBegin ≤ (exchangeSolid r fromIdx toIdx pos newBegin newEnd).list j ∧
        (exchangeSolid r fromIdx toIdx pos newBegin newEnd).list j < r.solidEnd) :=
    fun j hj => (exchangeSolid_list_mem h _).mp ⟨j, hj, rfl⟩
  refine ⟨exchangeSolid_ascending h, fun j hj => ?_, fun _ => ⟨?_, ?_⟩, fun _ j hj => ?_,
    fun hempty => absurd (show newBegin < newEnd by omega) hempty, ?_, h.wf.limit,
    h.wf.inplaceLimit⟩
  · rcases hlist j hj with ⟨k, hk, -, he⟩ | hx
    · rw [← he]; exact h.wf.listIds k hk
    · omega
  · have h1 := h.run fromIdx le_rfl hne
    have h2 := h.wf.listIds fromIdx (by omega)
    change minTxnid ≤ newBegin
    omega
  · have h1 := h.run (toIdx - 1) (by omega) (by omega)
    have h2 := h.wf.listIds (toIdx - 1) (by omega)
    change newEnd ≤ invalidTxnid
    omega
  · change _ < newBegin ∨ newEnd < _
    rcases hlist j hj with ⟨k, hk, hside, he⟩ | hx
    · rw [← he]
      rcases hside with hlt | hge
      · have h1 := h.below (by omega)
        have h2 := h.wf.ascending.le (show k ≤ fromIdx - 1 by omega) (by omega)
        omega
      · have h1 := h.above (by omega)
        have h2 := h.wf.ascending.le hge hk
        omega
    · -- the old interval was apart from both ends of the run
      have h1 := h.run fromIdx le_rfl hne
      have h2 := h.run (toIdx - 1) (by omega) (by omega)
      have h3 := h.wf.apart hs fromIdx (by omega)
      have h4 := h.wf.apart hs (toIdx - 1) (by omega)
      rcases h.pos_outside with hp | hp
      · have h5 := h.pos_right fromIdx hp (by omega)
        omega
      · have h5 := h.pos_left (toIdx - 1) (by omega)
        omega
  · change r.listLength - (toIdx - fromIdx) + (r.solidEnd - r.solidBegin) ≤ r.listLimit
    omega

/-- The runs that `considerExchange` finds around `list[i]`. -/
private def downOf (r : Rkl) (i id : Nat) : Nat × Nat := runDown r.list i id
private def upOf (r : Rkl) (i id : Nat) : Nat × Nat :=
  runUp r.list (i + 1) (id + 1) (r.listLength - (i + 1))

private theorem considerExchange_cases (b : Build) (r : Rkl) (i id : Nat) :
    considerExchange b r i id = r ∨
      (r.solidEnd - r.solidBegin < (upOf r i id).1 - (downOf r i id).1 ∧
        considerExchange b r i id = exchangeSolid r (downOf r i id).1 (upOf r i id).1
          (rklBsearch b r r.solidBegin) (downOf r i id).2 (upOf r i id).2) := by
  unfold considerExchange downOf upOf
  simp only
  by_cases hlonger : r.solidEnd - r.solidBegin <
      (runUp r.list (i + 1) (id + 1) (r.listLength - (i + 1))).1 - (runDown r.list i id).1
  · simp only [gt_iff_lt, if_pos hlonger]
    split_ifs <;> first | exact Or.inl rfl | exact Or.inr ⟨hlonger, rfl⟩
  · simp only [gt_iff_lt, if_neg hlonger]
    split_ifs <;> exact Or.inl rfl

/-- The exchange heuristic never changes the set. -/
theorem considerExchange_spec {b : Build} {i id : Nat} (h : r.Wf)
    (hs : r.solidBegin < r.solidEnd) (hi : i < r.listLength) (hid : r.list i = id) :
    (considerExchange b r i id).Wf ∧ (considerExchange b r i id).ids = r.ids := by
  have ha := h.ascending
  have hdown : RunBelow r.list i id (downOf r i id).1 (downOf r i id).2 :=
    runDown_spec ha (by omega) (fun k hk => (h.listIds k (by omega)).1) (fun k hk => by
      have := ha k i hk hi
      omega)
  have hup : RunAbove r.list (i + 1) (id + 1) r.listLength (upOf r i id).1 (upOf r i id).2 :=
    runUp_spec ha (by omega) (fun k hk hkn => by
      have := ha i k (by omega) hkn
      omega)
  obtain ⟨hple, hleft, hright⟩ := rklBsearch_spec b ha r.solidBegin
  rcases considerExchange_cases b r i id with he | ⟨hlonger, he⟩
  · rw [he]
    exact ⟨h, rfl⟩
  · have h1 := hdown.le
    have h2 := hup.ge
    have h3 := hdown.begin_eq
    have h4 := hup.end_eq
    have hex : Exchangeable r (downOf r i id).1 (upOf r i id).1 (rklBsearch b r r.solidBegin)
        (downOf r i id).2 (upOf r i id).2 := by
      refine ⟨h, hs, by omega, hup.le, fun k hk hkt => ?_, by omega, hdown.edge, hup.edge,
        hlonger, hple, hleft, hright⟩
      rcases Nat.lt_trichotomy k i with hlt | heq | hgt
      · exact hdown.run k hk hlt
      · rw [heq, hid]; omega
      · rw [hup.run k (by omega) hkt]; omega
    rw [he]
    exact ⟨exchangeSolid_wf hex, exchangeSolid_ids hex⟩

end Mdbx
