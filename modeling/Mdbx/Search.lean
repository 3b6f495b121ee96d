import Mdbx.Basic

/-!
# Search — the binary search of `SEARCH_IMPL`

Both variants of the macro are kept: the branch-free one, which always makes at least one step and
never moves past the middle, and the plain one, which skips the middle on a hit.  Either way the
loop leaves at most two candidates, which the two guarded increments after it settle.
-/

namespace Mdbx

/-- One step of the loop on the window of `length` cells from `it`; `before i` is `CMP(begin[i],
item)`. -/
def searchStep (haveCmov : Bool) (before : Nat → Bool) (it length : Nat) : Nat × Nat :=
  let middle := it + length / 2
  let half := (length + 1) / 2
  if haveCmov then
    (if before middle then middle else it, half)
  else
    if before middle then (middle + 1, half - 1) else (it, half)

/-- `while (length > 2)`; the window shrinks at each round, so `fuel` rounds are enough as soon as
`length ≤ fuel`. -/
def searchLoop (haveCmov : Bool) (before : Nat → Bool) : Nat → Nat → Nat → Nat × Nat
  | 0, it, length => (it, length)
  | fuel + 1, it, length =>
      if length > 2 then
        let next := searchStep haveCmov before it length
        searchLoop haveCmov before fuel next.1 next.2
      else
        (it, length)

/-- The two guarded increments after the loop. -/
def searchFinish (before : Nat → Bool) (it length : Nat) : Nat :=
  let it := it + if length > 1 ∧ before it = true then 1 else 0
  it + if length > 0 ∧ before it = true then 1 else 0

/-- `SEARCH_IMPL`: the offset from `begin` of the returned pointer. -/
def search (haveCmov : Bool) (before : Nat → Bool) (length : Nat) : Nat :=
  let start := if haveCmov then searchStep true before 0 length else (0, length)
  let window := searchLoop haveCmov before length start.1 start.2
  searchFinish before window.1 window.2

/-- What is known of a window: everything to its left is before the item, nothing to its right is. -/
structure SearchWindow (before : Nat → Bool) (total it length : Nat) : Prop where
  inside : it + length ≤ total
  left : ∀ i < it, before i = true
  right : ∀ i, it + length ≤ i → i < total → before i = false

variable (haveCmov : Bool) {before : Nat → Bool} {total it length : Nat}

/-- `before` holds on a beginning of the array. -/
def SearchOrdered (before : Nat → Bool) (total : Nat) : Prop :=
  ∀ i j, i < j → j < total → before j = true → before i = true

theorem SearchWindow.step (ho : SearchOrdered before total)
    (hw : SearchWindow before total it length) (hpos : 0 < length) :
    SearchWindow before total (searchStep haveCmov before it length).1
      (searchStep haveCmov before it length).2 := by
  have hin := hw.inside
  have hmid : it + length / 2 < total := by omega
  by_cases hb : before (it + length / 2) = true
  · have hleft : ∀ i < it + length / 2, before i = true := fun i hi => ho i _ hi hmid hb
    cases haveCmov
    · simp only [searchStep, hb, Bool.false_eq_true, if_false, if_true]
      refine ⟨by omega, fun i hi => ?_, fun i hi => hw.right i (by omega)⟩
      by_cases he : i = it + length / 2
      · rw [he, hb]
      · exact hleft i (by omega)
    · simp only [searchStep, hb, if_true]
      exact ⟨by omega, hleft, fun i hi => hw.right i (by omega)⟩
  · have hright : ∀ i, it + (length + 1) / 2 ≤ i → i < total → before i = false := by
      intro i hi hlt
      by_cases he : i = it + length / 2
      · rw [he]; simpa using hb
      · by_contra hne
        exact hb (ho _ i (by omega) hlt (by simpa using hne))
    have hstep : searchStep haveCmov before it length = (it, (length + 1) / 2) := by
      cases haveCmov <;> simp [searchStep, hb]
    rw [hstep]
    exact ⟨by simp only; omega, hw.left, hright⟩

theorem searchStep_length_lt (hlen : 2 < length) :
    (searchStep haveCmov before it length).2 < length := by
  unfold searchStep
  cases haveCmov
  · simp only [Bool.false_eq_true, if_false]
    split <;> simp only <;> omega
  · simp only [if_true]
    omega

theorem SearchWindow.loop (ho : SearchOrdered before total) (fuel : Nat)
    (hw : SearchWindow before total it length) (hfuel : length ≤ fuel) :
    SearchWindow before total (searchLoop haveCmov before fuel it length).1
      (searchLoop haveCmov before fuel it length).2 ∧
    (searchLoop haveCmov before fuel it length).2 ≤ 2 := by
  induction fuel generalizing it length with
  | zero => exact ⟨hw, by simp only [searchLoop]; omega⟩
  | succ fuel ih =>
    rw [searchLoop]
    split
    · rename_i hlen
      have hlt := @searchStep_length_lt haveCmov before it length hlen
      exact ih (hw.step haveCmov ho (by omega)) (by omega)
    · exact ⟨hw, by simp only; omega⟩

/-- The position splits the array into the elements before the item and the others. -/
structure LowerBound (before : Nat → Bool) (total pos : Nat) : Prop where
  inside : pos ≤ total
  left : ∀ i < pos, before i = true
  right : ∀ i, pos ≤ i → i < total → before i = false

theorem LowerBound.of_edge {pos : Nat} (ho : SearchOrdered before total) (hin : pos ≤ total)
    (hleft : 0 < pos → before (pos - 1) = true) (hright : pos < total → before pos = false) :
    LowerBound before total pos := by
  refine ⟨hin, fun i hi => ?_, fun i hi hlt => ?_⟩
  · by_cases he : i = pos - 1
    · rw [he, hleft (by omega)]
    · exact ho i (pos - 1) (by omega) (by omega) (hleft (by omega))
  · by_cases he : i = pos
    · rw [he, hright (by omega)]
    · by_contra hne
      have hpos := ho pos i (by omega) hlt (by simpa using hne)
      rw [hright (by omega)] at hpos
      exact Bool.false_ne_true hpos

theorem SearchWindow.finish (ho : SearchOrdered before total)
    (hw : SearchWindow before total it length) (hle : length ≤ 2) :
    LowerBound before total (searchFinish before it length) := by
  have hin := hw.inside
  have hleft : 0 < it → before (it - 1) = true := fun h => hw.left _ (by omega)
  have hright : it + length < total → before (it + length) = false :=
    fun h => hw.right _ le_rfl h
  simp only [searchFinish]
  by_cases hzero : length = 0
  · rw [if_neg (by omega), if_neg (by omega)]
    exact LowerBound.of_edge ho (by omega) hleft (by simpa [hzero] using hright)
  · by_cases hb : before it = true
    · by_cases hone : length = 1
      · rw [if_neg (by omega), Nat.add_zero, if_pos ⟨by omega, hb⟩]
        exact LowerBound.of_edge ho (by omega) (fun _ => hb) (by simpa [hone] using hright)
      · have htwo : length = 2 := by omega
        rw [if_pos ⟨by omega, hb⟩]
        by_cases hb' : before (it + 1) = true
        · rw [if_pos ⟨by omega, hb'⟩]
          exact LowerBound.of_edge ho (by omega) (fun _ => hb') (by simpa [htwo] using hright)
        · rw [if_neg (fun h => hb' h.2)]
          exact LowerBound.of_edge ho (by omega) (fun _ => hb) (fun _ => by simpa using hb')
    · rw [if_neg (fun h => hb h.2), Nat.add_zero, if_neg (fun h => hb h.2)]
      exact LowerBound.of_edge ho (by omega) hleft (fun _ => by simpa using hb)

/-- `SEARCH_IMPL` returns the first position whose element is not before the item. -/
theorem search_lowerBound (haveCmov : Bool) (before : Nat → Bool) (total : Nat)
    (ho : SearchOrdered before total) :
    LowerBound before total (search haveCmov before total) := by
  have h0 : SearchWindow before total 0 total := ⟨by omega, by omega, by omega⟩
  simp only [search]
  set start := if haveCmov then searchStep true before 0 total else (0, total) with hs
  have hstart : SearchWindow before total start.1 start.2 ∧ start.2 ≤ total := by
    cases haveCmov with
    | false => simp only [hs]; exact ⟨h0, le_rfl⟩
    | true =>
      simp only [hs, if_true]
      by_cases hz : total = 0
      · -- the branch-free variant peeks at the first cell even of an empty array
        have hstep : searchStep true before 0 0 = (0, 0) := by simp [searchStep]
        rw [hz, hstep]
        exact ⟨hz ▸ h0, le_rfl⟩
      · refine ⟨h0.step true ho (by omega), ?_⟩
        simp only [searchStep, if_true]
        omega
  obtain ⟨hw, hle⟩ := SearchWindow.loop haveCmov ho total hstart.1 hstart.2
  exact hw.finish ho hle

end Mdbx
