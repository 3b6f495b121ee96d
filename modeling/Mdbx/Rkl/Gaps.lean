import Mdbx.Rkl.Walk

/-!
# Rkl.Gaps — what the iterators of a set return

`rkl_turn` returns the ids in order.  `rkl_hole` returns the gaps: backwards all of them, forwards
those above the lowest id, where a fresh iterator stands.
-/

namespace Mdbx

/-- `hole'` lies above `hole`. -/
def RklHole.Below (hole hole' : RklHole) : Prop := hole.holeEnd < hole'.holeBegin

/-- The first `m` results are the ranges that satisfy `gaps`, in `order`, and a few empty ones;
every further one is `rest`. -/
structure Yields (reverse : Bool) (iter : RklIter) (m : Nat) (order : RklHole → RklHole → Prop)
    (gaps : RklHole → Prop) (rest : RklHole) : Prop where
  ordered : ((holes reverse iter m).filter (·.Proper)).Pairwise order
  exact : ∀ hole, hole ∈ holes reverse iter m ∧ hole.Proper ↔ gaps hole
  edge : ∀ hole ∈ holes reverse iter m, Edge iter.rkl hole
  further : ∀ k, holes reverse iter (m + k) = holes reverse iter m ++ List.replicate k rest

/-! ## 1. One call -/

section Call

variable {b : Build} {r : Rkl}

theorem at_iterAt (hshort : rklLen r < 2 ^ 32) {pos : Nat} {out : RklHole × Nat}
    (hout : out.2 ≤ rklLen r) :
    (iterAt b r pos).at out = (out.1, iterAt b r out.2) := by
  have hkept : toUnsigned out.2 = out.2 := Nat.mod_eq_of_lt (by omega)
  unfold RklIter.at iterAt
  rw [hkept]

theorem rklHole_none (hz : rklLen r = 0) (pos : Nat) (reverse : Bool) :
    rklHole (iterAt b r pos) reverse = (⟨minTxnid, rklMaxTxnid⟩, iterAt b r 0) := if_pos hz

-- the branches of `rkl_hole` in one direction
theorem rklHole_forward (hz : rklLen r ≠ 0) (pos : Nat) :
    rklHole (iterAt b r pos) false =
      if rklLen r ≤ pos then (iterAt b r pos).at (⟨rklMaxTxnid, rklMaxTxnid⟩, rklLen r)
      else if r.listLength ≠ 0 then (iterAt b r pos).at (walkAhead b r (rklLen r + 2) pos)
      else (iterAt b r pos).at (⟨r.solidEnd, rklMaxTxnid⟩, rklLen r) := by
  unfold rklHole
  simp only [Bool.false_eq_true, and_false, if_false, not_false_eq_true, and_true, false_and]
  exact if_neg hz

theorem rklHole_backward (hz : rklLen r ≠ 0) {pos : Nat} (hpos : pos ≤ rklLen r) :
    rklHole (iterAt b r pos) true =
      if r.listLength ≠ 0 then (iterAt b r pos).at (walkBack b r (rklLen r + 2) pos)
      else if pos < rklLen r then (iterAt b r pos).at (⟨1, r.solidBegin⟩, 0)
      else (iterAt b r pos).at (⟨r.solidEnd, rklMaxTxnid⟩, 0) := by
  have hnot : ¬ pos > rklLen r := Nat.not_lt.2 hpos
  unfold rklHole
  simp only [and_true, not_true, and_false, if_false, true_and, if_true]
  exact (if_neg hz).trans (if_neg hnot)

theorem rklHole_ahead (h : r.Checked b) (hshort : rklLen r < 2 ^ 32) {pos : Nat}
    (hpos : pos < rklLen r) :
    ∃ i out, i ≤ rklLen r ∧ Ahead b r pos i out ∧
      rklHole (iterAt b r pos) false = (out.1, iterAt b r out.2) := by
  have hlen := h.len_eq
  rw [rklHole_forward (by omega), if_neg (by omega)]
  by_cases hl : r.listLength ≠ 0
  · rw [if_pos hl]
    have hfuel : rklLen r < pos + (rklLen r + 2) := by omega
    obtain ⟨i, hi, hahead⟩ := walkAhead_spec h hshort hpos hfuel
    exact ⟨i, _, hi, hahead, at_iterAt hshort hahead.bounded⟩
  · rw [if_neg hl]
    -- only the interval, and the gap above it
    have hoff : solidOffset b r = 0 := if_neg fun hc => hl hc.2
    obtain ⟨last, hlast⟩ : ∃ last, rklLen r = last + 1 := ⟨rklLen r - 1, by omega⟩
    have hhere : idAt b r last = r.solidEnd - 1 := by
      rw [idAt_inside (by omega) (by omega)]
      omega
    have hgap : gapAt b r (rklLen r) = ⟨r.solidEnd, rklMaxTxnid⟩ := by
      have hend : r.solidEnd = r.solidEnd - 1 + 1 := by omega
      rw [hlast, hend]
      exact gapAt_succ hhere (if_neg (by omega))
    refine ⟨rklLen r, (⟨r.solidEnd, rklMaxTxnid⟩, rklLen r), Nat.le_refl _, ⟨hpos, hgap.symm, ?_,
      Nat.le_refl _, Nat.le_refl _, hollow_self _, Or.inr (Or.inr (Or.inl rfl))⟩,
      at_iterAt hshort (Nat.le_refl _)⟩
    exact (hollow_solid h).mono (by omega) (by omega)

-- behind the last id
theorem rklHole_end (hshort : rklLen r < 2 ^ 32) (hz : rklLen r ≠ 0) :
    rklHole (iterAt b r (rklLen r)) false =
      (⟨rklMaxTxnid, rklMaxTxnid⟩, iterAt b r (rklLen r)) := by
  rw [rklHole_forward hz, if_pos (Nat.le_refl _)]
  exact at_iterAt hshort (Nat.le_refl _)

theorem rklHole_behind (h : r.Checked b) (hshort : rklLen r < 2 ^ 32) {pos : Nat}
    (hpos : pos ≤ rklLen r) :
    ∃ i out, Behind b r pos i out ∧
      rklHole (iterAt b r pos) true = (out.1, iterAt b r out.2) := by
  have hlen := h.len_eq
  by_cases hz : rklLen r = 0
  · have hgap : gapAt b r 0 = ⟨minTxnid, rklMaxTxnid⟩ := by
      unfold gapAt gapEnd
      rw [if_neg (by omega)]
      rfl
    exact ⟨0, (⟨minTxnid, rklMaxTxnid⟩, 0), ⟨Nat.zero_le _, hgap.symm, fun j _ _ => by omega,
      Or.inr ⟨rfl, rfl⟩, fun j _ _ => by omega, Or.inr (Or.inr (Or.inl rfl))⟩,
      rklHole_none hz pos true⟩
  rw [rklHole_backward hz hpos]
  by_cases hl : r.listLength ≠ 0
  · rw [if_pos hl]
    have hfuel : pos < rklLen r + 2 := by omega
    obtain ⟨i, hbehind⟩ := walkBehind_spec h hshort hl hpos hfuel
    have hin : (walkBack b r (rklLen r + 2) pos).2 ≤ rklLen r := by
      have := hbehind.earlier
      have := hbehind.reached
      omega
    exact ⟨i, _, hbehind, at_iterAt hshort hin⟩
  · rw [if_neg hl]
    -- only the interval, and the gaps on both sides of it
    have hoff : solidOffset b r = 0 := if_neg fun hc => hl hc.2
    have hsolid := h.solid (show r.solidBegin < r.solidEnd by omega)
    have hhollow := hollow_solid h
    by_cases hin : pos < rklLen r
    · rw [if_pos hin]
      have hfirst : idAt b r 0 = r.solidBegin := by
        rw [idAt_inside (by omega) (by omega), hoff, Nat.sub_self, Nat.add_zero]
      obtain ⟨i, hbehind⟩ := holeStop_behind h (by omega) hfirst
        (hhollow.mono (by omega) (show pos + 1 ≤ _ by omega))
      exact ⟨i, _, hbehind, at_iterAt hshort (Nat.zero_le _)⟩
    · rw [if_neg hin]
      obtain ⟨last, hlast⟩ : ∃ last, pos = last + 1 := ⟨pos - 1, by omega⟩
      have hhere : idAt b r last = r.solidEnd - 1 := by
        rw [idAt_inside (by omega) (by omega)]
        omega
      have hgap : gapAt b r pos = ⟨r.solidEnd, rklMaxTxnid⟩ := by
        have hend : r.solidEnd = r.solidEnd - 1 + 1 := by omega
        rw [hlast, hend]
        exact gapAt_succ hhere (if_neg (by omega))
      refine ⟨pos, (⟨r.solidEnd, rklMaxTxnid⟩, 0), ⟨Nat.le_refl _, hgap.symm, hollow_self _,
        Or.inl ?_, hhollow.mono (by omega) (by omega), Or.inr (Or.inr (Or.inl rfl))⟩,
        at_iterAt hshort (Nat.zero_le _)⟩
      show 0 < pos
      omega

end Call

/-! ## 2. All calls -/

section Run

variable {b : Build} {r : Rkl} {iter iter' : RklIter} {reverse : Bool} {m : Nat}
  {order : RklHole → RklHole → Prop} {gaps gaps' : RklHole → Prop} {hole rest : RklHole}

-- an iterator that stays where it is
theorem Yields.still (hcall : rklHole iter reverse = (rest, iter)) :
    Yields reverse iter 0 order (fun _ => False) rest := by
  refine ⟨List.Pairwise.nil, fun hole => ?_, fun hole hmem => ?_, fun k => ?_⟩
  · exact iff_of_false (fun hc => List.not_mem_nil hc.1) id
  · exact absurd hmem List.not_mem_nil
  · rw [Nat.zero_add]
    show holes reverse iter k = List.replicate k rest
    induction k with
    | zero => rfl
    | succ k ih =>
      show (rklHole iter reverse).1 :: holes reverse (rklHole iter reverse).2 k = _
      rw [hcall, ih, List.replicate_succ]

/-- One more call before the others. -/
theorem Yields.cons (hcall : rklHole iter reverse = (hole, iter')) (hsame : iter'.rkl = iter.rkl)
    (h : Yields reverse iter' m order gaps' rest) (hedge : Edge iter.rkl hole)
    (horder : hole.Proper → ∀ hole', gaps' hole' → order hole hole')
    (hgaps : ∀ hole', gaps hole' ↔ hole' = hole ∧ hole.Proper ∨ gaps' hole') :
    Yields reverse iter (m + 1) order gaps rest := by
  have hholes : ∀ n, holes reverse iter (n + 1) = hole :: holes reverse iter' n := by
    intro n
    show (rklHole iter reverse).1 :: holes reverse (rklHole iter reverse).2 n = _
    rw [hcall]
  refine ⟨?_, fun hole' => ?_, fun hole' hmem => ?_, fun k => ?_⟩
  · rw [hholes]
    by_cases hproper : hole.Proper
    · rw [List.filter_cons, if_pos (decide_eq_true hproper), List.pairwise_cons]
      refine ⟨fun hole' hmem => ?_, h.ordered⟩
      rw [List.mem_filter, decide_eq_true_eq] at hmem
      exact horder hproper hole' ((h.exact hole').1 hmem)
    · rw [List.filter_cons, if_neg (mt of_decide_eq_true hproper)]
      exact h.ordered
  · rw [hholes, List.mem_cons, hgaps, ← h.exact hole']
    constructor
    · rintro ⟨rfl | hmem, hproper⟩
      · exact Or.inl ⟨rfl, hproper⟩
      · exact Or.inr ⟨hmem, hproper⟩
    · rintro (⟨rfl, hproper⟩ | ⟨hmem, hproper⟩)
      · exact ⟨Or.inl rfl, hproper⟩
      · exact ⟨Or.inr hmem, hproper⟩
  · rw [hholes, List.mem_cons] at hmem
    cases hmem with
    | inl heq =>
      rw [heq]
      exact hedge
    | inr hmem =>
      rw [← hsame]
      exact h.edge hole' hmem
  · rw [hholes, Nat.add_right_comm, hholes, h.further, List.cons_append]

-- the same ranges under another description
theorem Yields.congr (h : Yields reverse iter m order gaps rest)
    (hgaps : ∀ hole', gaps' hole' ↔ gaps hole') : Yields reverse iter m order gaps' rest :=
  ⟨h.ordered, fun hole' => (h.exact hole').trans (hgaps hole').symm, h.edge, h.further⟩

theorem gapAt_below (h : r.Checked b) {i j : Nat} (hij : i < j) (hj : j ≤ rklLen r) :
    (gapAt b r i).Below (gapAt b r j) := (idAt_enumerates h).gap_lt hij hj

/-- Forwards from a position: the gaps above it, in ascending order. -/
theorem yields_ahead (h : r.Checked b) (hshort : rklLen r < 2 ^ 32) (hz : rklLen r ≠ 0) :
    ∀ (left pos : Nat), pos + left = rklLen r →
      ∃ m, Yields false (iterAt b r pos) m RklHole.Below
        (fun hole => ∃ i, pos < i ∧ i ≤ rklLen r ∧ gapAt b r i = hole ∧ hole.Proper)
        ⟨rklMaxTxnid, rklMaxTxnid⟩ := by
  intro left
  induction left using Nat.strong_induction_on with
  | _ left ih =>
    intro pos hpos
    cases left with
    | zero =>
      have hend : pos = rklLen r := hpos
      subst hend
      refine ⟨0, (Yields.still (rklHole_end hshort hz)).congr fun hole => ?_⟩
      exact iff_of_false (by rintro ⟨i, hlo, hhi, -⟩; omega) id
    | succ left =>
      obtain ⟨i, out, hi, hahead, hcall⟩ :=
        rklHole_ahead h hshort (show pos < rklLen r by omega)
      have hreach := hahead.reached
      have hbound := hahead.bounded
      have hlater := hahead.later
      obtain ⟨m, hrest⟩ := ih (rklLen r - out.2) (by omega) out.2 (by omega)
      refine ⟨m + 1, hrest.cons hcall rfl hahead.edge ?_ fun hole => ?_⟩
      · rintro - hole ⟨j, hj, hjl, rfl, -⟩
        rw [hahead.hole]
        exact gapAt_below h (by omega) hjl
      · rw [hahead.hole]
        constructor
        · rintro ⟨j, hj, hjl, rfl, hproper⟩
          rcases Nat.lt_trichotomy j i with hlt | heq | hgt
          · exact absurd hproper (hahead.skipped j hj hlt)
          · rw [heq] at hproper ⊢
            exact Or.inl ⟨rfl, hproper⟩
          · by_cases hjo : j < out.2 + 1
            · exact absurd hproper (hahead.passed j hgt hjo)
            · exact Or.inr ⟨j, by omega, hjl, rfl, hproper⟩
        · rintro (⟨rfl, hproper⟩ | ⟨j, hj, hjl, rfl, hproper⟩)
          · exact ⟨i, hlater, hi, rfl, hproper⟩
          · exact ⟨j, by omega, hjl, rfl, hproper⟩

-- at the first position the walk back stays
theorem rklHole_first (h : r.Checked b) (hshort : rklLen r < 2 ^ 32) :
    rklHole (iterAt b r 0) true = (gapAt b r 0, iterAt b r 0) := by
  obtain ⟨i, out, hbehind, hcall⟩ := rklHole_behind h hshort (Nat.zero_le _)
  have hi : i = 0 := Nat.le_zero.1 hbehind.earlier
  have hout : out.2 = 0 := by
    have := hbehind.reached
    omega
  rw [hcall, hbehind.hole, hi, hout]

/-- Backwards from a position: the gaps below it, in descending order. -/
theorem yields_behind (h : r.Checked b) (hshort : rklLen r < 2 ^ 32) (pos : Nat) :
    pos ≤ rklLen r →
      ∃ m, Yields true (iterAt b r pos) m (fun hole hole' => hole'.Below hole)
        (fun hole => ∃ i, i ≤ pos ∧ gapAt b r i = hole ∧ hole.Proper) (gapAt b r 0) := by
  induction pos using Nat.strong_induction_on with
  | _ pos ih =>
    intro hpos
    obtain ⟨i, out, hbehind, hcall⟩ := rklHole_behind h hshort hpos
    have hreach := hbehind.reached
    have hearlier := hbehind.earlier
    by_cases hlow : out.2 < i
    · obtain ⟨m, hrest⟩ := ih out.2 (by omega) (by omega)
      refine ⟨m + 1, hrest.cons hcall rfl hbehind.edge ?_ fun hole => ?_⟩
      · rintro - hole ⟨j, hj, rfl, -⟩
        rw [hbehind.hole]
        exact gapAt_below h (by omega) (by omega)
      · rw [hbehind.hole]
        constructor
        · rintro ⟨j, hj, rfl, hproper⟩
          rcases Nat.lt_trichotomy j i with hlt | heq | hgt
          · by_cases hjo : out.2 < j
            · exact absurd hproper (hbehind.passed j hjo hlt)
            · exact Or.inr ⟨j, by omega, rfl, hproper⟩
          · rw [heq] at hproper ⊢
            exact Or.inl ⟨rfl, hproper⟩
          · exact absurd hproper (hbehind.skipped j hgt (by omega))
        · rintro (⟨rfl, hproper⟩ | ⟨j, hj, rfl, hproper⟩)
          · exact ⟨i, hearlier, rfl, hproper⟩
          · exact ⟨j, by omega, rfl, hproper⟩
    · -- the last gap, which is returned again and again
      have hi : i = 0 := by omega
      have hout : out.2 = 0 := by omega
      rw [hi] at hbehind
      rw [hout, hbehind.hole] at hcall
      refine ⟨1, (Yields.still (rklHole_first h hshort)).cons hcall rfl ?_ ?_ fun hole => ?_⟩
      · rw [← hbehind.hole]
        exact hbehind.edge
      · exact fun _ hole hf => hf.elim
      · constructor
        · rintro ⟨j, hj, rfl, hproper⟩
          by_cases hjz : j = 0
          · rw [hjz] at hproper ⊢
            exact Or.inl ⟨rfl, hproper⟩
          · exact absurd hproper (hbehind.skipped j (by omega) (by omega))
        · rintro (⟨rfl, hproper⟩ | hf)
          · exact ⟨0, Nat.zero_le _, rfl, hproper⟩
          · exact hf.elim

end Run

/-! ## 3. The set and its gaps -/

section Enumerate

variable {b : Build} {r : Rkl}

theorem maximal_iff (h : r.Checked b) {hole : RklHole} :
    MaximalGap r.ids minTxnid rklMaxTxnid hole.holeBegin hole.holeEnd ↔
      ∃ i, i ≤ rklLen r ∧ gapAt b r i = hole ∧ hole.Proper := by
  rw [(idAt_enumerates h).maximalGap_iff h.valid]
  constructor
  · rintro ⟨hproper, i, hi, hbegin, hend⟩
    refine ⟨i, hi, ?_, hproper⟩
    show RklHole.mk _ _ = hole
    rw [hbegin, hend]
  · rintro ⟨i, hi, rfl, hproper⟩
    exact ⟨hproper, i, hi, rfl, rfl⟩

theorem ids_empty_iff (h : r.Checked b) : r.ids = ∅ ↔ rklLen r = 0 := by
  rw [Rkl.ids_eq_empty, h.len_eq]
  omega

/-- The range that a walk forwards ends with: the whole one for an empty set, else none. -/
def forwardRest (r : Rkl) : RklHole :=
  if r.ids = ∅ then ⟨minTxnid, rklMaxTxnid⟩ else ⟨rklMaxTxnid, rklMaxTxnid⟩

/-- The range that a walk backwards ends with: the one below the lowest id. -/
def backwardRest (r : Rkl) : RklHole :=
  ⟨minTxnid, (r.ids.sort (· ≤ ·)).headD rklMaxTxnid⟩

theorem holes_forward (h : r.Checked b) (hshort : rklLen r < 2 ^ 32) :
    ∃ m, Yields false (rklIterator b r false) m RklHole.Below
      (fun hole => MaximalGap r.ids minTxnid rklMaxTxnid hole.holeBegin hole.holeEnd ∧
        (r.ids.Nonempty → ∃ x ∈ r.ids, x < hole.holeBegin)) (forwardRest r) := by
  rw [rklIterator_eq hshort]
  unfold forwardRest
  show ∃ m, Yields false (iterAt b r 0) m _ _ _
  by_cases hz : rklLen r = 0
  · have hempty := (ids_empty_iff h).2 hz
    rw [if_pos hempty]
    have hcall := rklHole_none (b := b) hz 0 false
    refine ⟨1, (Yields.still hcall).cons hcall rfl (Or.inr (Or.inr (Or.inl rfl)))
      (fun _ hole hf => hf.elim) fun hole => ?_⟩
    have hgap : gapAt b r 0 = ⟨minTxnid, rklMaxTxnid⟩ := by
      unfold gapAt gapEnd
      rw [if_neg (by omega)]
      rfl
    rw [maximal_iff h, hempty, hz, or_false]
    constructor
    · rintro ⟨⟨i, hi, hgapi, hproper⟩, -⟩
      rw [Nat.le_zero.1 hi, hgap] at hgapi
      rw [← hgapi] at hproper ⊢
      exact ⟨rfl, hproper⟩
    · rintro ⟨rfl, hproper⟩
      exact ⟨⟨0, Nat.le_refl 0, hgap, hproper⟩, fun hne => absurd hne Finset.not_nonempty_empty⟩
  · have hne := mt (ids_empty_iff h).1 hz
    rw [if_neg hne]
    obtain ⟨m, hyields⟩ := yields_ahead h hshort hz (rklLen r) 0 (Nat.zero_add _)
    refine ⟨m, hyields.congr fun hole => ?_⟩
    rw [maximal_iff h]
    have henum := idAt_enumerates h
    constructor
    · rintro ⟨⟨i, hi, rfl, hproper⟩, habove⟩
      obtain ⟨x, hx, hlt⟩ := habove (Finset.nonempty_iff_ne_empty.2 hne)
      refine ⟨i, ?_, hi, rfl, hproper⟩
      by_contra hzero
      have hi0 : i = 0 := by omega
      rw [hi0] at hlt
      exact absurd (h.valid x hx).1 (Nat.not_le.2 hlt)
    · rintro ⟨i, hpos, hi, rfl, hproper⟩
      exact ⟨⟨i, hi, rfl, hproper⟩, fun _ =>
        ⟨idAt b r 0, henum.mem (by omega), henum.lt_gapBegin hpos hi⟩⟩

theorem holes_backward (h : r.Checked b) (hshort : rklLen r < 2 ^ 32) :
    ∃ m, Yields true (rklIterator b r true) m (fun hole hole' => hole'.Below hole)
      (fun hole => MaximalGap r.ids minTxnid rklMaxTxnid hole.holeBegin hole.holeEnd)
      (backwardRest r) := by
  have hrest : backwardRest r = gapAt b r 0 := by
    unfold backwardRest gapAt gapEnd
    rw [(idAt_enumerates h).sort_eq]
    cases hlen : rklLen r with
    | zero => rfl
    | succ n =>
      rw [List.range_succ_eq_map, List.map_cons, if_pos (Nat.succ_pos n)]
      rfl
  rw [rklIterator_eq hshort, hrest]
  obtain ⟨m, hyields⟩ := yields_behind h hshort (rklLen r) (Nat.le_refl _)
  exact ⟨m, hyields.congr fun hole => maximal_iff h⟩

/-- Iterators enumerate the set and its gaps.  A fresh forward iterator stands on the lowest id, so
that the range below it is not among the gaps. -/
theorem iterators_enumerate (h : r.Checked b) (hshort : rklLen r < 2 ^ 32) :
    (∀ k, turnAt false (rklIterator b r false) k = (r.ids.sort (· ≤ ·)).getD k 0) ∧
      (∀ k, turnAt true (rklIterator b r true) k = (r.ids.sort (· ≤ ·)).reverse.getD k 0) ∧
      (∃ m, Yields false (rklIterator b r false) m RklHole.Below
        (fun hole => MaximalGap r.ids minTxnid rklMaxTxnid hole.holeBegin hole.holeEnd ∧
          (r.ids.Nonempty → ∃ x ∈ r.ids, x < hole.holeBegin)) (forwardRest r)) ∧
      ∃ m, Yields true (rklIterator b r true) m (fun hole hole' => hole'.Below hole)
        (fun hole => MaximalGap r.ids minTxnid rklMaxTxnid hole.holeBegin hole.holeEnd)
        (backwardRest r) :=
  ⟨turnAt_ascending h hshort, turnAt_descending h hshort, holes_forward h hshort,
    holes_backward h hshort⟩

end Enumerate

/-! ## 4. Sets at the edges -/

def plainBuild : Build := ⟨false, false⟩

/-- 3, then the interval from 5 to 7, then 9. -/
def strewn : Rkl where
  solidBegin := 5
  solidEnd := 8
  listLength := 2
  listLimit := rklInplaceLength
  list i := if i = 0 then 3 else 9
  inplace := true

theorem strewn_checked : strewn.Checked plainBuild := by
  refine ⟨by decide, fun x hx => ?_⟩
  rcases Rkl.mem_ids.1 hx with ⟨i, hi, rfl⟩ | hx
  · show 1 ≤ (if i = 0 then 3 else 9) ∧ (if i = 0 then 3 else 9) ≤ rklMaxTxnid
    split_ifs <;> decide
  · have : 5 ≤ x ∧ x < 8 := hx
    unfold minTxnid rklMaxTxnid
    omega

/-- The first step back, on this set. -/
theorem iterators_enumerate_strewn :
    strewn.Checked plainBuild ∧ rklLen strewn < 2 ^ 32 ∧
      turnAt true (rklIterator plainBuild strewn true) 0 =
        (strewn.ids.sort (· ≤ ·)).reverse.getD 0 0 :=
  ⟨strewn_checked, by decide,
    (iterators_enumerate strewn_checked (by decide)).2.1 0⟩

/-- More ids than a position can count. -/
def wide : Rkl where
  solidBegin := 1
  solidEnd := 2 ^ 32 + 6
  listLength := 0
  listLimit := rklInplaceLength
  list _ := 0
  inplace := true

/-- 4 in the list, and the interval from 5 to 6. -/
def touching : Rkl where
  solidBegin := 5
  solidEnd := 7
  listLength := 1
  listLimit := rklInplaceLength
  list _ := 4
  inplace := true

def single : Rkl where
  solidBegin := 5
  solidEnd := 6
  listLength := 0
  listLimit := rklInplaceLength
  list _ := 0
  inplace := true

-- all calls forwards on `single`
theorem single_holes (n : Nat) :
    RklHole.mk 1 5 ∉ holes false (rklIterator plainBuild single false) n := by
  have hstay : ∀ n, RklHole.mk 1 5 ∉ holes false (iterAt plainBuild single 1) n := by
    intro n
    induction n with
    | zero => exact List.not_mem_nil
    | succ n ih =>
      show RklHole.mk 1 5 ∉
        ⟨rklMaxTxnid, rklMaxTxnid⟩ :: holes false (iterAt plainBuild single 1) n
      rw [List.mem_cons, not_or]
      exact ⟨fun heq => absurd (congrArg RklHole.holeBegin heq) (by decide), ih⟩
  cases n with
  | zero => exact List.not_mem_nil
  | succ n =>
    show RklHole.mk 1 5 ∉ ⟨6, rklMaxTxnid⟩ :: holes false (iterAt plainBuild single 1) n
    rw [List.mem_cons, not_or]
    exact ⟨fun heq => absurd (congrArg RklHole.holeBegin heq) (by decide), hstay n⟩

/-- With 2^32 + 5 ids the first step back returns 5; where a list element touches the interval
from below, a hole is empty; and the range below the lowest id is not returned forwards. -/
theorem iterators_miss :
    (rklCheck plainBuild wide = true ∧ 2 ^ 32 + 5 ∈ wide.ids ∧
        turnAt true (rklIterator plainBuild wide true) 0 = 5) ∧
      (rklCheck plainBuild touching = true ∧
        (rklHole (rklIterator plainBuild touching false) false).1 = ⟨5, 5⟩) ∧
      rklCheck plainBuild single = true ∧
        MaximalGap single.ids minTxnid rklMaxTxnid 1 5 ∧
        ∀ n, RklHole.mk 1 5 ∉ holes false (rklIterator plainBuild single false) n := by
  refine ⟨⟨by decide, ?_, by decide⟩, ⟨by decide, rfl⟩, by decide, ?_, single_holes⟩
  · exact Rkl.mem_ids.2 (Or.inr ⟨by decide, by decide⟩)
  · have hmem : ∀ z, z ∈ single.ids ↔ z = 5 := by
      intro z
      rw [Rkl.mem_ids]
      constructor
      · rintro (⟨i, hi, -⟩ | hsolid)
        · exact absurd hi (Nat.not_lt_zero i)
        · exact Nat.le_antisymm (Nat.lt_succ_iff.1 hsolid.2) hsolid.1
      · rintro rfl
        exact Or.inr ⟨by decide, by decide⟩
    refine ⟨by decide, by decide, by decide, fun z hz => ?_, Or.inl rfl,
      Or.inr ((hmem 5).2 rfl)⟩
    have := (hmem z).1 hz
    omega

end Mdbx
