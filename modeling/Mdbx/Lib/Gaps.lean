import Mathlib.Data.Finset.Sort

/-!
# Lib.Gaps — the gaps of a set of numbers, by an ascending enumeration

Between the limits `lo` and `hi`, the maximal ranges outside of a finite set lie between elements
that follow one another.  They are numbered by the element that ends them; some are empty.
-/

namespace Mdbx

/-- `[x, y)` is a maximal range of `[lo, hi)` outside of `s`. -/
structure MaximalGap (s : Finset Nat) (lo hi x y : Nat) : Prop where
  proper : x < y
  lower : lo ≤ x
  upper : y ≤ hi
  absent : ∀ z ∈ s, z < x ∨ y ≤ z
  left : x = lo ∨ ∃ z ∈ s, x = z + 1
  right : y = hi ∨ y ∈ s

/-- `a 0 < a 1 < … < a (n - 1)` are the elements of `s`. -/
structure Enumerates (a : Nat → Nat) (n : Nat) (s : Finset Nat) : Prop where
  strict : ∀ i j, i < j → j < n → a i < a j
  mem_iff : ∀ z, z ∈ s ↔ ∃ i, i < n ∧ a i = z

/-- Where the gap with the number `i` begins: after the element before it. -/
def gapBegin (a : Nat → Nat) (lo : Nat) : Nat → Nat
  | 0 => lo
  | i + 1 => a i + 1

/-- Where it ends: at the element `i`. -/
def gapEnd (a : Nat → Nat) (n hi i : Nat) : Nat :=
  if i < n then a i else hi

section Enumeration

variable {a : Nat → Nat} {n lo hi : Nat} {s : Finset Nat}

theorem Enumerates.mem (he : Enumerates a n s) {i : Nat} (hi : i < n) : a i ∈ s :=
  (he.mem_iff _).2 ⟨i, hi, rfl⟩

theorem Enumerates.le (he : Enumerates a n s) {i j : Nat} (hij : i ≤ j) (hj : j < n) :
    a i ≤ a j := by
  cases Nat.lt_or_eq_of_le hij with
  | inl hlt => exact Nat.le_of_lt (he.strict i j hlt hj)
  | inr heq => rw [heq]

theorem Enumerates.lt_gapBegin (he : Enumerates a n s) {i j : Nat} (hij : i < j) (hj : j ≤ n) :
    a i < gapBegin a lo j := by
  cases j with
  | zero => omega
  | succ j => exact Nat.lt_succ_of_le (he.le (by omega) (by omega))

theorem Enumerates.gapBegin_le (he : Enumerates a n s) (hb : ∀ z ∈ s, lo ≤ z ∧ z ≤ hi) {i : Nat}
    (hi : i < n) : gapBegin a lo i ≤ a i := by
  cases i with
  | zero => exact (hb _ (he.mem hi)).1
  | succ i => exact he.strict i (i + 1) (by omega) hi

-- gaps with higher numbers lie higher
theorem Enumerates.gap_lt (he : Enumerates a n s) {i j : Nat} (hij : i < j) (hj : j ≤ n) :
    gapEnd a n hi i < gapBegin a lo j := by
  unfold gapEnd
  rw [if_pos (by omega)]
  exact he.lt_gapBegin hij hj

/-- A maximal range ends where the gap that begins with it ends. -/
theorem Enumerates.gapEnd_eq (he : Enumerates a n s) (hb : ∀ z ∈ s, lo ≤ z ∧ z ≤ hi) {i y : Nat}
    (hle : i ≤ n) (hgap : MaximalGap s lo hi (gapBegin a lo i) y) : gapEnd a n hi i = y := by
  have hbelow : ∀ j, j < n → y = a j → i ≤ j := by
    intro j hj hy
    by_contra hji
    have : a j < gapBegin a lo i := he.lt_gapBegin (by omega) hle
    have := hgap.proper
    omega
  unfold gapEnd
  by_cases hin : i < n
  · rw [if_pos hin]
    have hya : y ≤ a i := by
      cases hgap.absent _ (he.mem hin) with
      | inl hlt =>
        have := he.gapBegin_le hb hin
        omega
      | inr hle => exact hle
    cases hgap.right with
    | inl hy =>
      have := (hb _ (he.mem hin)).2
      omega
    | inr hmem =>
      obtain ⟨j, hj, hy⟩ := (he.mem_iff _).1 hmem
      have := he.le (hbelow j hj hy.symm) hj
      omega
  · rw [if_neg hin]
    cases hgap.right with
    | inl hy => exact hy.symm
    | inr hmem =>
      obtain ⟨j, hj, hy⟩ := (he.mem_iff _).1 hmem
      have := hbelow j hj hy.symm
      omega

theorem Enumerates.gap_maximal (he : Enumerates a n s) (hb : ∀ z ∈ s, lo ≤ z ∧ z ≤ hi)
    {i : Nat} (hle : i ≤ n) (hproper : gapBegin a lo i < gapEnd a n hi i) :
    MaximalGap s lo hi (gapBegin a lo i) (gapEnd a n hi i) := by
  refine ⟨hproper, ?_, ?_, fun z hz => ?_, ?_, ?_⟩
  · cases i with
    | zero => exact Nat.le_refl lo
    | succ i => exact Nat.le_succ_of_le (hb _ (he.mem (by omega))).1
  · unfold gapEnd
    by_cases hin : i < n
    · rw [if_pos hin]
      exact (hb _ (he.mem hin)).2
    · rw [if_neg hin]
  · obtain ⟨j, hj, rfl⟩ := (he.mem_iff _).1 hz
    by_cases hji : j < i
    · exact Or.inl (he.lt_gapBegin hji hle)
    · right
      unfold gapEnd
      rw [if_pos (by omega)]
      exact he.le (by omega) hj
  · cases i with
    | zero => exact Or.inl rfl
    | succ i => exact Or.inr ⟨a i, he.mem (by omega), rfl⟩
  · unfold gapEnd
    by_cases hin : i < n
    · rw [if_pos hin]
      exact Or.inr (he.mem hin)
    · rw [if_neg hin]
      exact Or.inl rfl

/-- The maximal ranges are the gaps that are not empty. -/
theorem Enumerates.maximalGap_iff (he : Enumerates a n s) (hb : ∀ z ∈ s, lo ≤ z ∧ z ≤ hi)
    {x y : Nat} :
    MaximalGap s lo hi x y ↔
      x < y ∧ ∃ i, i ≤ n ∧ gapBegin a lo i = x ∧ gapEnd a n hi i = y := by
  constructor
  · intro hgap
    refine ⟨hgap.proper, ?_⟩
    cases hgap.left with
    | inl hx =>
      subst hx
      exact ⟨0, Nat.zero_le n, rfl, he.gapEnd_eq hb (Nat.zero_le n) hgap⟩
    | inr hx =>
      obtain ⟨z, hz, rfl⟩ := hx
      obtain ⟨i, hi, rfl⟩ := (he.mem_iff _).1 hz
      exact ⟨i + 1, hi, rfl, he.gapEnd_eq hb hi hgap⟩
  · rintro ⟨hproper, i, hi, rfl, rfl⟩
    exact he.gap_maximal hb hi hproper

/-- The enumeration as a list. -/
theorem Enumerates.sort_eq (he : Enumerates a n s) :
    s.sort (· ≤ ·) = (List.range n).map a := by
  have hnodup : ((List.range n).map a).Nodup := by
    refine List.Nodup.map_on ?_ List.nodup_range
    intro i hi j hj heq
    rw [List.mem_range] at hi hj
    rcases Nat.lt_trichotomy i j with hlt | heq' | hgt
    · have := he.strict i j hlt hj
      omega
    · exact heq'
    · have := he.strict j i hgt hi
      omega
  have hset : ((List.range n).map a).toFinset = s := by
    ext z
    rw [List.mem_toFinset, List.mem_map, he.mem_iff]
    simp only [List.mem_range]
  rw [← hset]
  refine (List.toFinset_sort (· ≤ ·) hnodup).2 ?_
  rw [List.pairwise_map]
  refine List.Pairwise.imp_of_mem ?_ List.pairwise_lt_range
  intro i j _ hj hij
  exact he.le (Nat.le_of_lt hij) (List.mem_range.1 hj)

end Enumeration

end Mdbx
