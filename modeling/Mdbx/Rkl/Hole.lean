import Mdbx.Rkl.Set

/-!
# Rkl.Hole — iterators and the gaps between ids

`rkl_hole` walks from the position of an iterator to the next gap between neighbouring ids.
Backwards, the gaps come in descending order and no id of the set lies in any of them.
-/

namespace Mdbx

/-- `rkl_iter_t` -/
structure RklIter where
  rkl : Rkl
  pos : Nat
  solidOffset : Nat

/-- `rkl_hole_t`: the ids from `holeBegin` up to `holeEnd`, which is not one of them. -/
structure RklHole where
  holeBegin : Nat
  holeEnd : Nat

/-- `MAX_TXNID` -/
def rklMaxTxnid : Nat := 0xffffffff00000000 - 1

/-- `size_t` decrement. -/
def sizePred (n : Nat) : Nat := if n = 0 then 2 ^ 64 - 1 else n - 1

/-- `unsigned` decrement -/
def unsignedPred (n : Nat) : Nat := if n = 0 then 2 ^ 32 - 1 else n - 1

/-- A cast to `unsigned`. -/
def toUnsigned (n : Nat) : Nat := n % 2 ^ 32

/-- `iter.solid_offset`: how many elements of the list are below the interval. -/
def solidOffset (b : Build) (r : Rkl) : Nat :=
  if r.solidBegin < r.solidEnd ∧ r.listLength ≠ 0 then rklBsearch b r r.solidBegin else 0

def rklIterator (b : Build) (r : Rkl) (reverse : Bool) : RklIter :=
  ⟨r, if reverse then toUnsigned (rklLen r) else 0, solidOffset b r⟩

def rklFind (b : Build) (r : Rkl) (id : Nat) : Bool × RklIter :=
  let iter := rklIterator b r false
  if r.solidBegin ≤ id ∧ id < r.solidEnd then
    (true, { iter with pos := toUnsigned (iter.solidOffset + toUnsigned (id - r.solidBegin)) })
  else
    let base := if r.solidBegin ≤ id then toUnsigned (r.solidEnd - r.solidBegin) else 0
    if r.listLength ≠ 0 then
      let it := rklBsearch b r id
      (it ≠ r.listLength ∧ r.list it = id, { iter with pos := toUnsigned (base + it) })
    else (false, { iter with pos := base })

/-- At the end of the set in the direction of the walk. -/
def holeStop (len : Nat) (reverse : Bool) (here : Nat) : RklHole × Nat :=
  if reverse then (⟨1, here⟩, 0) else (⟨here + 1, rklMaxTxnid⟩, len)

/-- Between two neighbours. -/
def holeBetween (reverse : Bool) (here there : Nat) : RklHole :=
  if reverse then ⟨there + 1, here⟩ else ⟨here + 1, there⟩

/-- The loop of `rkl_hole`, where the list is not empty; the fuel is the number of positions. -/
def holeLoop (r : Rkl) (offset solidLen len : Nat) (reverse : Bool) : Nat → Nat → RklHole × Nat
  | 0, pos => (⟨1, 1⟩, pos)
  | fuel + 1, pos =>
      let next := if reverse then sizePred pos else pos + 1
      let step (here there next : Nat) : RklHole × Nat :=
        let hole := holeBetween reverse here there
        if hole.holeBegin < hole.holeEnd then (hole, next)
        else holeLoop r offset solidLen len reverse fuel next
      if pos < offset then
        let here := r.list pos
        if next = offset then (⟨here + 1, r.solidBegin⟩, next + solidLen - 1)
        else if len ≤ next then holeStop len reverse here
        else step here (r.list next) next
      else if offset + solidLen ≤ pos then
        let here := if pos < len then r.list (pos - solidLen) else rklMaxTxnid
        if len ≤ next then holeStop len reverse here
        else if next = sizePred (offset + solidLen) then (⟨r.solidEnd, here⟩, offset)
        else step here (r.list (next - solidLen)) next
      else if reverse then
        -- `iter->solid_offset - 1` is taken before it becomes a `size_t`
        let next := unsignedPred offset
        if len ≤ next then holeStop len reverse r.solidBegin
        else step r.solidBegin (r.list next) next
      else
        let next := offset + solidLen
        if len ≤ next then holeStop len reverse (r.solidEnd - 1)
        else step (r.solidEnd - 1) (r.list (next - solidLen)) next

/-- An iterator after a hole. -/
def RklIter.at (iter : RklIter) (out : RklHole × Nat) : RklHole × RklIter :=
  (out.1, { iter with pos := toUnsigned out.2 })

/-- `rkl_hole`: the next gap and the iterator behind it -/
def rklHole (iter : RklIter) (reverse : Bool) : RklHole × RklIter :=
  let r := iter.rkl
  let len := rklLen r
  if len = 0 then iter.at (⟨1, rklMaxTxnid⟩, 0)
  else if iter.pos > len ∧ reverse then iter.at (⟨1, 1⟩, 0)
  else if iter.pos ≥ len ∧ ¬ reverse then iter.at (⟨rklMaxTxnid, rklMaxTxnid⟩, len)
  else if r.listLength ≠ 0 then
    iter.at (holeLoop r iter.solidOffset (r.solidEnd - r.solidBegin) len reverse (len + 2) iter.pos)
  else if reverse ∧ iter.pos < len then iter.at (⟨1, r.solidBegin⟩, 0)
  else iter.at (⟨r.solidEnd, rklMaxTxnid⟩, if reverse then 0 else len)

/-! ## 1. Positions -/

section Hole

variable {r : Rkl} {b : Build}

/-- The id at a position; all of the interval counts as its beginning. -/
def idBound (b : Build) (r : Rkl) (pos : Nat) : Nat :=
  if r.listLength ≠ 0 ∧ pos < solidOffset b r then r.list pos
  else if pos < solidOffset b r + (r.solidEnd - r.solidBegin) then r.solidBegin
  else if pos < rklLen r then r.list (pos - (r.solidEnd - r.solidBegin))
  else uint64Max

theorem rklLen_lt (h : r.Wf) : rklLen r < 2 ^ 64 - 1 := by
  rw [rklLen_eq_card h]
  have hsub : r.ids ⊆ Finset.Ico 1 (2 ^ 64 - 1) := by
    intro x hx
    have := h.ids_bounds hx
    exact Finset.mem_Ico.2 this
  have hcard := Finset.card_le_card hsub
  rw [Nat.card_Ico] at hcard
  omega

theorem rklLen_eq (hlen : rklLen r ≠ 0) :
    rklLen r = r.solidEnd - r.solidBegin + r.listLength := by
  unfold rklLen at hlen ⊢
  by_cases he : rklEmpty r = true
  · rw [if_pos he] at hlen
    exact absurd rfl hlen
  · rw [if_neg he]

/-- The list below the interval and above it. -/
theorem solidOffset_spec (h : r.Wf) (b : Build) :
    solidOffset b r ≤ r.listLength ∧ (r.solidBegin < r.solidEnd → r.listLength ≠ 0 →
      (∀ i, i < solidOffset b r → r.list i + 1 < r.solidBegin) ∧
      ∀ i, solidOffset b r ≤ i → i < r.listLength → r.solidEnd < r.list i) := by
  unfold solidOffset
  by_cases hc : r.solidBegin < r.solidEnd ∧ r.listLength ≠ 0
  · rw [if_pos hc]
    obtain ⟨hle, hlow, hhigh⟩ := rklBsearch_spec b h.ascending r.solidBegin
    refine ⟨hle, fun hs _ => ⟨fun i hi => ?_, fun i hi hil => ?_⟩⟩
    · have hap := h.apart hs i (by omega)
      have := hlow i hi
      omega
    · have hap := h.apart hs i hil
      have := hhigh i hi hil
      omega
  · rw [if_neg hc]
    exact ⟨Nat.zero_le _, fun hs hl => absurd ⟨hs, hl⟩ hc⟩

/-- No id of the set in a gap. -/
def Free (r : Rkl) (hole : RklHole) : Prop :=
  ∀ x ∈ r.ids, x < hole.holeBegin ∨ hole.holeEnd ≤ x

/-- A gap reached backwards from `pos`: it lies below the id there, and above the id at the new
position unless nothing is left. -/
structure GapBelow (b : Build) (r : Rkl) (pos : Nat) (out : RklHole × Nat) : Prop where
  begin_pos : 1 ≤ out.1.holeBegin
  free : Free r out.1
  below : out.1.holeEnd ≤ idBound b r pos
  above : out.1.holeBegin = 1 ∨ out.2 < rklLen r ∧ idBound b r out.2 < out.1.holeBegin
  edge : out.1.holeBegin = 1 ∨ out.1.holeBegin - 1 ∈ r.ids
  ordered : out.1.holeBegin ≤ out.1.holeEnd ∨ rklLen r ≤ pos ∧ out.1.holeEnd = rklMaxTxnid

theorem GapBelow.mono {pos pos' : Nat} {out : RklHole × Nat} (h : GapBelow b r pos out)
    (hle : idBound b r pos ≤ idBound b r pos') (hpos : pos < rklLen r) : GapBelow b r pos' out :=
  ⟨h.begin_pos, h.free, Nat.le_trans h.below hle, h.above, h.edge,
    Or.inl (h.ordered.resolve_right fun hc => by omega)⟩

end Hole

/-! ## 2. Walking backwards -/

section Walk

variable {r : Rkl} {b : Build}

theorem sizePred_of_pos {n : Nat} (h : 0 < n) : sizePred n = n - 1 := if_neg (by omega)

theorem unsignedPred_of_pos {n : Nat} (h : 0 < n) : unsignedPred n = n - 1 := if_neg (by omega)

/-- A set whose positions fit an `unsigned`. -/
structure Rkl.Walkable (r : Rkl) : Prop extends r.Wf where
  short : rklLen r < 2 ^ 32

theorem Rkl.Walkable.le_unsignedPred_zero (h : r.Walkable) : rklLen r ≤ unsignedPred 0 := by
  have hshort := h.short
  show rklLen r ≤ 2 ^ 32 - 1
  omega

theorem le_sizePred_zero (h : r.Wf) : rklLen r ≤ sizePred 0 := by
  have := rklLen_lt h
  show rklLen r ≤ 2 ^ 64 - 1
  omega

theorem rklLen_ne_zero (h : r.Wf) (hl : r.listLength ≠ 0) : rklLen r ≠ 0 := by
  intro hz
  rw [rklLen_eq_card h, Finset.card_eq_zero, Rkl.ids_eq_empty] at hz
  exact hl hz.1

-- an empty interval has no offset
theorem solidOffset_hollow (hs : r.solidEnd - r.solidBegin = 0) : solidOffset b r = 0 := by
  unfold solidOffset
  exact if_neg fun hc => by omega

theorem free_iff {r : Rkl} {lo hi : Nat} : Free r ⟨lo, hi⟩ ↔
    (∀ i, i < r.listLength → r.list i < lo ∨ hi ≤ r.list i) ∧
      ∀ x, r.solidBegin ≤ x → x < r.solidEnd → x < lo ∨ hi ≤ x := by
  unfold Free
  constructor
  · intro h
    exact ⟨fun i hi => h _ (Rkl.mem_ids.2 (Or.inl ⟨i, hi, rfl⟩)),
      fun x hlo hhi => h x (Rkl.mem_ids.2 (Or.inr ⟨hlo, hhi⟩))⟩
  · intro h x hx
    cases Rkl.mem_ids.1 hx with
    | inl hlist =>
      obtain ⟨i, hi, rfl⟩ := hlist
      exact h.1 i hi
    | inr hsolid => exact h.2 x hsolid.1 hsolid.2

theorem idBound_list {pos : Nat} (hpos : pos < solidOffset b r) (hl : r.listLength ≠ 0) :
    idBound b r pos = r.list pos := if_pos ⟨hl, hpos⟩

theorem idBound_solid {pos : Nat} (hlo : solidOffset b r ≤ pos)
    (hhi : pos < solidOffset b r + (r.solidEnd - r.solidBegin)) :
    idBound b r pos = r.solidBegin := by
  unfold idBound
  rw [if_neg fun hc => by omega, if_pos hhi]

theorem idBound_above {pos : Nat} (hlo : solidOffset b r + (r.solidEnd - r.solidBegin) ≤ pos)
    (hhi : pos < rklLen r) :
    idBound b r pos = r.list (pos - (r.solidEnd - r.solidBegin)) := by
  unfold idBound
  rw [if_neg fun hc => by omega, if_neg (by omega), if_pos hhi]

theorem idBound_end {pos : Nat} (h : r.Wf) (hl : r.listLength ≠ 0) (hlo : rklLen r ≤ pos) :
    idBound b r pos = uint64Max := by
  have hlen := rklLen_eq (rklLen_ne_zero h hl)
  have hoff := (solidOffset_spec h b).1
  unfold idBound
  rw [if_neg fun hc => by omega, if_neg (by omega), if_neg (by omega)]

variable {offset solidLen len : Nat}

/-- One step between neighbours in the list: a gap, or the walk goes on from the lower one. -/
theorem holeStep_below {fuel pos next here there : Nat}
    (hhere : here ≤ idBound b r pos) (hthere : idBound b r next = there) (hle : there ≤ here ∨
      there ≤ idBound b r pos) (hnext : next < rklLen r) (hmem : there ∈ r.ids)
    (hfree : Free r ⟨there + 1, here⟩)
    (ih : GapBelow b r next (holeLoop r offset solidLen len true fuel next)) :
    GapBelow b r pos
      (if (holeBetween true here there).holeBegin < (holeBetween true here there).holeEnd then
        (holeBetween true here there, next)
      else holeLoop r offset solidLen len true fuel next) := by
  by_cases hgap : (holeBetween true here there).holeBegin < (holeBetween true here there).holeEnd
  · rw [if_pos hgap]
    refine ⟨Nat.le_add_left 1 there, hfree, hhere, Or.inr ⟨hnext, ?_⟩, Or.inr hmem,
      Or.inl (Nat.le_of_lt hgap)⟩
    rw [hthere]
    exact Nat.lt_succ_self there
  · rw [if_neg hgap]
    refine ih.mono ?_ hnext
    rw [hthere]
    cases hle with
    | inl hle => exact Nat.le_trans hle hhere
    | inr hle => exact hle

/-- The walk on the list of `r`. -/
def walkBack (b : Build) (r : Rkl) (fuel pos : Nat) : RklHole × Nat :=
  holeLoop r (solidOffset b r) (r.solidEnd - r.solidBegin) (rklLen r) true fuel pos

theorem walkBack_low (h : r.Wf) (hl : r.listLength ≠ 0) {fuel pos : Nat}
    (hlow : pos < solidOffset b r)
    (ih : ∀ q, q < pos → GapBelow b r q (walkBack b r fuel q)) :
    GapBelow b r pos (walkBack b r (fuel + 1) pos) := by
  have hlen := rklLen_eq (rklLen_ne_zero h hl)
  obtain ⟨hoff, hsides⟩ := solidOffset_spec h b
  -- the interval cannot be empty
  have hsolid : r.solidBegin < r.solidEnd := by
    by_contra hs
    have := solidOffset_hollow (b := b) (r := r) (by omega)
    omega
  have hbelow := (hsides hsolid hl).1
  have hne : sizePred pos ≠ solidOffset b r := by
    have := rklLen_lt h
    unfold sizePred
    split_ifs
    · omega
    · omega
  unfold walkBack holeLoop
  simp only [if_true]
  rw [if_pos hlow, if_neg hne]
  by_cases hz : pos = 0
  · subst hz
    rw [if_pos (le_sizePred_zero h)]
    refine ⟨Nat.le_refl 1, free_iff.2 ⟨fun i hi => Or.inr ?_, fun x hlo _ => ?_⟩, ?_, Or.inl rfl,
      Or.inl rfl, Or.inl (h.listIds 0 (by omega)).1⟩
    · exact h.ascending.le (Nat.zero_le i) hi
    · have := hbelow 0 hlow
      omega
    · rw [idBound_list hlow hl]
      exact Nat.le_refl _
  · rw [sizePred_of_pos (by omega), if_neg (by omega)]
    apply holeStep_below
    · rw [idBound_list hlow hl]
    · exact idBound_list (by omega) hl
    · exact Or.inl (h.ascending.le (by omega) (by omega))
    · omega
    · exact Rkl.mem_ids.2 (Or.inl ⟨_, by omega, rfl⟩)
    · refine free_iff.2 ⟨fun i hi => ?_, fun x hlo _ => ?_⟩
      · by_cases hip : i < pos
        · exact Or.inl (Nat.lt_succ_of_le (h.ascending.le (by omega) (by omega)))
        · exact Or.inr (h.ascending.le (by omega) hi)
      · have := hbelow pos hlow
        omega
    · exact ih (pos - 1) (by omega)

theorem walkBack_inside (h : r.Walkable) (hl : r.listLength ≠ 0) {fuel pos : Nat}
    (hlo : solidOffset b r ≤ pos) (hhi : pos < solidOffset b r + (r.solidEnd - r.solidBegin))
    (ih : ∀ q, q < pos → GapBelow b r q (walkBack b r fuel q)) :
    GapBelow b r pos (walkBack b r (fuel + 1) pos) := by
  have hlen := rklLen_eq (rklLen_ne_zero h.toWf hl)
  obtain ⟨hoff, hsides⟩ := solidOffset_spec h.toWf b
  obtain ⟨hbelow, habove⟩ := hsides (by omega) hl
  have hbound := idBound_solid hlo hhi
  unfold walkBack holeLoop
  simp only [if_true]
  rw [if_neg (by omega), if_neg (by omega)]
  by_cases hz : solidOffset b r = 0
  · rw [hz, if_pos (h.le_unsignedPred_zero)]
    refine ⟨Nat.le_refl 1, free_iff.2 ⟨fun i hi => Or.inr ?_, fun x hx _ => Or.inr hx⟩, ?_,
      Or.inl rfl, Or.inl rfl, Or.inl (h.solidIds (by omega)).1⟩
    · have := habove i (by omega) hi
      omega
    · rw [hbound]
      exact Nat.le_refl _
  · rw [unsignedPred_of_pos (by omega), if_neg (by omega)]
    have hlast := hbelow (solidOffset b r - 1) (by omega)
    apply holeStep_below
    · rw [hbound]
    · exact idBound_list (by omega) hl
    · exact Or.inl (by omega)
    · omega
    · exact Rkl.mem_ids.2 (Or.inl ⟨_, by omega, rfl⟩)
    · refine free_iff.2 ⟨fun i hi => ?_, fun x hx _ => Or.inr hx⟩
      by_cases hip : i < solidOffset b r
      · exact Or.inl (Nat.lt_succ_of_le (h.ascending.le (by omega) (by omega)))
      · have := habove i (by omega) hi
        omega
    · exact ih (solidOffset b r - 1) (by omega)

-- what stands at a position above the interval
theorem idBound_here (h : r.Wf) (hl : r.listLength ≠ 0) {pos : Nat}
    (hhigh : solidOffset b r + (r.solidEnd - r.solidBegin) ≤ pos) :
    (if pos < rklLen r then r.list (pos - (r.solidEnd - r.solidBegin)) else rklMaxTxnid) ≤
      idBound b r pos := by
  by_cases hin : pos < rklLen r
  · rw [if_pos hin, idBound_above hhigh hin]
  · rw [if_neg hin, idBound_end h hl (by omega)]
    decide

theorem walkBack_high (h : r.Wf) (hl : r.listLength ≠ 0) {fuel pos : Nat}
    (hhigh : solidOffset b r + (r.solidEnd - r.solidBegin) ≤ pos) (hpos : pos ≤ rklLen r)
    (ih : ∀ q, q < pos → GapBelow b r q (walkBack b r fuel q)) :
    GapBelow b r pos (walkBack b r (fuel + 1) pos) := by
  have hlen := rklLen_eq (rklLen_ne_zero h hl)
  have hshort := rklLen_lt h
  obtain ⟨hoff, hsides⟩ := solidOffset_spec h b
  have hhere := idBound_here h hl hhigh
  -- nothing of the list lies between its places and what stands here
  have habove : ∀ i, i < r.listLength → pos - (r.solidEnd - r.solidBegin) ≤ i →
      (if pos < rklLen r then r.list (pos - (r.solidEnd - r.solidBegin)) else rklMaxTxnid) ≤
        r.list i := by
    intro i hi hip
    rw [if_pos (by omega)]
    exact h.ascending.le hip hi
  generalize hh : (if pos < rklLen r then r.list (pos - (r.solidEnd - r.solidBegin))
    else rklMaxTxnid) = here at hhere habove
  unfold walkBack holeLoop
  simp only [if_true]
  rw [if_neg (by omega), if_pos hhigh, hh]
  by_cases hz : pos = 0
  · subst hz
    rw [if_pos (le_sizePred_zero h)]
    refine ⟨Nat.le_refl 1, free_iff.2 ⟨fun i hi => Or.inr (habove i hi (by omega)),
      fun x hlo hhi => absurd hhi (by omega)⟩, hhere, Or.inl rfl, Or.inl rfl, Or.inl ?_⟩
    rw [if_pos (by omega)] at hh
    show 1 ≤ here
    rw [← hh]
    exact (h.listIds _ (by omega)).1
  · rw [sizePred_of_pos (by omega), if_neg (by omega)]
    by_cases hend : pos - 1 = sizePred (solidOffset b r + (r.solidEnd - r.solidBegin))
    · -- the end of the interval is next
      have hedge : pos = solidOffset b r + (r.solidEnd - r.solidBegin) ∧
          r.solidBegin < r.solidEnd := by
        unfold sizePred at hend
        split_ifs at hend
        · omega
        · have := solidOffset_hollow (b := b) (r := r)
          omega
      have hlow := (hsides hedge.2 hl).1
      rw [if_pos hend]
      refine ⟨by show 1 ≤ r.solidEnd; omega, free_iff.2 ⟨fun i hi => ?_, fun x _ hx => Or.inl hx⟩,
        hhere, Or.inr ⟨by show solidOffset b r < _; omega, ?_⟩, Or.inr ?_, ?_⟩
      · by_cases hip : i < solidOffset b r
        · have := hlow i hip
          omega
        · exact Or.inr (habove i hi (by omega))
      · show idBound b r (solidOffset b r) < r.solidEnd
        rw [idBound_solid (Nat.le_refl _) (by omega)]
        exact hedge.2
      · exact Rkl.mem_ids.2 (Or.inr ⟨by show _ ≤ r.solidEnd - 1; omega, by
          show r.solidEnd - 1 < _; omega⟩)
      · by_cases hin : pos < rklLen r
        · left
          rw [if_pos hin] at hh
          show r.solidEnd ≤ here
          rw [← hh]
          exact Nat.le_of_lt ((hsides hedge.2 hl).2 _ (by omega) (by omega))
        · right
          rw [if_neg hin] at hh
          exact ⟨by omega, hh.symm⟩
    · rw [if_neg hend]
      have hgt : solidOffset b r + (r.solidEnd - r.solidBegin) < pos := by
        unfold sizePred at hend
        split_ifs at hend
        · omega
        · omega
      have hthere : idBound b r (pos - 1) =
          r.list (pos - 1 - (r.solidEnd - r.solidBegin)) :=
        idBound_above (by omega) (by omega)
      apply holeStep_below hhere hthere
      · right
        by_cases hin : pos < rklLen r
        · rw [idBound_above hhigh hin]
          exact h.ascending.le (by omega) (by omega)
        · rw [idBound_end h hl (by omega)]
          exact Nat.le_of_lt (h.listIds _ (by omega)).2
      · omega
      · exact Rkl.mem_ids.2 (Or.inl ⟨_, by omega, rfl⟩)
      · refine free_iff.2 ⟨fun i hi => ?_, fun x _ hx => ?_⟩
        · by_cases hip : i ≤ pos - 1 - (r.solidEnd - r.solidBegin)
          · exact Or.inl (Nat.lt_succ_of_le (h.ascending.le hip (by omega)))
          · exact Or.inr (habove i hi (by omega))
        · by_cases hs : r.solidBegin < r.solidEnd
          · have := (hsides hs hl).2 (pos - 1 - (r.solidEnd - r.solidBegin)) (by omega) (by omega)
            omega
          · omega
      · exact ih (pos - 1) (by omega)

theorem walkBack_below (h : r.Walkable) (hl : r.listLength ≠ 0) :
    ∀ {fuel pos : Nat}, pos ≤ rklLen r → pos < fuel →
      GapBelow b r pos (walkBack b r fuel pos)
  | fuel + 1, pos, hpos, hfuel => by
    have ih : ∀ q, q < pos → GapBelow b r q (walkBack b r fuel q) :=
      fun q hq => walkBack_below h hl (by omega) (by omega)
    by_cases hlow : pos < solidOffset b r
    · exact walkBack_low h.toWf hl hlow ih
    · by_cases hhigh : solidOffset b r + (r.solidEnd - r.solidBegin) ≤ pos
      · exact walkBack_high h.toWf hl hhigh hpos ih
      · exact walkBack_inside h hl (by omega) (by omega) ih

end Walk

/-! ## 3. Gaps of a set -/

section Gaps

variable {r : Rkl} {b : Build}

-- positions are in the order of the ids
theorem idBound_mono (h : r.Wf) {p q : Nat} (hpq : p ≤ q) (hq : q < rklLen r) :
    idBound b r p ≤ idBound b r q := by
  have hlen := rklLen_eq (show rklLen r ≠ 0 by omega)
  obtain ⟨hoff, hsides⟩ := solidOffset_spec h b
  by_cases hq₁ : q < solidOffset b r
  · rw [idBound_list (show p < solidOffset b r by omega) (by omega), idBound_list hq₁ (by omega)]
    exact h.ascending.le hpq (by omega)
  · by_cases hq₂ : q < solidOffset b r + (r.solidEnd - r.solidBegin)
    · rw [idBound_solid (by omega) hq₂]
      by_cases hp : p < solidOffset b r
      · have := (hsides (by omega) (by omega)).1 p hp
        rw [idBound_list hp (by omega)]
        omega
      · rw [idBound_solid (by omega) (by omega)]
    · rw [idBound_above (b := b) (show _ ≤ q by omega) hq]
      have hlist : r.listLength ≠ 0 := by omega
      by_cases hp₁ : p < solidOffset b r
      · rw [idBound_list hp₁ hlist]
        exact h.ascending.le (by omega) (by omega)
      · by_cases hp₂ : p < solidOffset b r + (r.solidEnd - r.solidBegin)
        · have := (hsides (by omega) hlist).2 (q - (r.solidEnd - r.solidBegin)) (by omega) (by omega)
          rw [idBound_solid (by omega) hp₂]
          omega
        · rw [idBound_above (by omega) (by omega)]
          exact h.ascending.le (by omega) (by omega)

theorem toUnsigned_le (n : Nat) : toUnsigned n ≤ n := Nat.mod_le _ _

-- a position that does not fit its type is a lower one
theorem GapBelow.truncated (h : r.Wf) {pos : Nat} {out : RklHole × Nat}
    (hg : GapBelow b r pos out) : GapBelow b r pos (out.1, toUnsigned out.2) := by
  refine ⟨hg.begin_pos, hg.free, hg.below, ?_, hg.edge, hg.ordered⟩
  cases hg.above with
  | inl hone => exact Or.inl hone
  | inr hab =>
    have hle := toUnsigned_le out.2
    exact Or.inr ⟨Nat.lt_of_le_of_lt hle hab.1,
      Nat.lt_of_le_of_lt (idBound_mono h hle hab.1) hab.2⟩

/-- `rkl_hole` backwards: a gap below the position, with the iterator left below the gap. -/
theorem rklHole_below (h : r.Walkable) (pos : Nat) :
    GapBelow b r pos
        ((rklHole ⟨r, pos, solidOffset b r⟩ true).1, (rklHole ⟨r, pos, solidOffset b r⟩ true).2.pos) ∧
      (rklHole ⟨r, pos, solidOffset b r⟩ true).2 =
        ⟨r, (rklHole ⟨r, pos, solidOffset b r⟩ true).2.pos, solidOffset b r⟩ := by
  have hat : ∀ out : RklHole × Nat, GapBelow b r pos out →
      GapBelow b r pos ((RklIter.at ⟨r, pos, solidOffset b r⟩ out).1,
          (RklIter.at ⟨r, pos, solidOffset b r⟩ out).2.pos) ∧
        (RklIter.at ⟨r, pos, solidOffset b r⟩ out).2 =
          ⟨r, (RklIter.at ⟨r, pos, solidOffset b r⟩ out).2.pos, solidOffset b r⟩ :=
    fun out hg => ⟨hg.truncated h.toWf, rfl⟩
  unfold rklHole
  simp only [not_true, and_false, if_false, and_true, true_and, if_true]
  by_cases hz : rklLen r = 0
  · rw [if_pos hz]
    have hids : r.ids = ∅ := by
      rw [rklLen_eq_card h.toWf, Finset.card_eq_zero] at hz
      exact hz
    obtain ⟨hl, hs⟩ := Rkl.ids_eq_empty.1 hids
    apply hat
    refine ⟨Nat.le_refl 1, fun x hx => ?_, ?_, Or.inl rfl, Or.inl rfl, Or.inl (by decide)⟩
    · rw [hids] at hx
      exact absurd hx (Finset.notMem_empty x)
    · unfold idBound
      rw [if_neg fun hc => hc.1 hl, if_neg, if_neg (by omega)]
      · decide
      · rw [solidOffset_hollow (show r.solidEnd - r.solidBegin = 0 by omega)]
        omega
  rw [if_neg hz]
  have hlen := rklLen_eq hz
  by_cases hpast : pos > rklLen r
  · rw [if_pos hpast]
    apply hat
    refine ⟨Nat.le_refl 1, fun x hx => Or.inr (h.ids_bounds hx).1, ?_, Or.inl rfl,
      Or.inl rfl, Or.inl (Nat.le_refl 1)⟩
    have hoff := (solidOffset_spec h.toWf b).1
    unfold idBound
    rw [if_neg fun hc => by omega, if_neg (by omega), if_neg (by omega)]
    decide
  rw [if_neg hpast]
  by_cases hl : r.listLength ≠ 0
  · rw [if_pos hl]
    exact hat _ (walkBack_below h hl (by omega) (by omega))
  · rw [if_neg hl]
    have hl' : r.listLength = 0 := not_not.1 hl
    have hoff : solidOffset b r = 0 := by
      have := (solidOffset_spec h.toWf b).1
      omega
    have hpos := (h.solidIds (by omega)).1
    have hfree : ∀ lo hi, (∀ x, r.solidBegin ≤ x → x < r.solidEnd → x < lo ∨ hi ≤ x) →
        Free r ⟨lo, hi⟩ := fun lo hi hx => free_iff.2 ⟨fun i hi' => by omega, hx⟩
    by_cases hin : pos < rklLen r
    · rw [if_pos hin]
      apply hat
      refine ⟨Nat.le_refl 1, hfree _ _ fun x hlo _ => Or.inr hlo, ?_, Or.inl rfl, Or.inl rfl,
        Or.inl hpos⟩
      rw [idBound_solid (by omega) (by omega)]
    · rw [if_neg hin]
      apply hat
      refine ⟨?_, hfree _ _ fun x _ hhi => Or.inl hhi, ?_, Or.inr ⟨by omega, ?_⟩,
        Or.inr ?_, Or.inr ⟨by omega, rfl⟩⟩
      · show 1 ≤ r.solidEnd
        omega
      · unfold idBound
        rw [if_neg fun hc => hl hc.1, if_neg (by omega), if_neg hin]
        show rklMaxTxnid ≤ uint64Max
        decide
      · show idBound b r 0 < r.solidEnd
        rw [idBound_solid (by omega) (by omega)]
        omega
      · exact Rkl.mem_ids.2 (Or.inr ⟨by show _ ≤ r.solidEnd - 1; omega, by
          show r.solidEnd - 1 < _; omega⟩)

theorem rklFind_iter (b : Build) (r : Rkl) (id : Nat) :
    (rklFind b r id).2 = ⟨r, (rklFind b r id).2.pos, solidOffset b r⟩ := by
  unfold rklFind
  simp only
  split_ifs <;> rfl

end Gaps

end Mdbx
