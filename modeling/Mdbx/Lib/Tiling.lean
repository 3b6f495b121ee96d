import Mathlib.Data.List.Basic
import Mathlib.Data.List.Count
import Mathlib.Data.List.Range

/-!
# Lib.Tiling — lists that hold every number of an interval once

Where a set of numbers is spread over several lists, that none is lost or held twice is a statement
about the list of all of them: each number below a boundary occurs once in it.
-/

namespace Mdbx

/-- The list has every number of `[lo, hi)` once, and no other. -/
def Tiles (lo hi : Nat) (l : List Nat) : Prop :=
  ∀ p, l.count p = if lo ≤ p ∧ p < hi then 1 else 0

theorem count_interval (a n p : Nat) :
    (List.range' a n).count p = if a ≤ p ∧ p < a + n then 1 else 0 := by
  have hnodup : (List.range' a n).Nodup := List.nodup_range'
  rw [hnodup.count]
  simp only [List.mem_range'_1]

theorem count_filter_lt (l : List Nat) (m p : Nat) :
    (l.filter fun q => q < m).count p = if p < m then l.count p else 0 := by
  by_cases h : p < m
  · rw [if_pos h]
    exact List.count_filter (by simpa using h)
  · rw [if_neg h, List.count_eq_zero]
    intro hmem
    have hp := (List.mem_filter.mp hmem).2
    exact h (by simpa using hp)

variable {lo hi m : Nat} {l l' : List Nat}

theorem Tiles.congr (h : Tiles lo hi l) (hc : ∀ p, l'.count p = l.count p) : Tiles lo hi l' :=
  fun p => (hc p).trans (h p)

/-- What is left of a tiling when the numbers from `m` on are taken out. -/
theorem Tiles.lower (h : Tiles lo hi l)
    (hc : ∀ p, l.count p = l'.count p + if m ≤ p ∧ p < hi then 1 else 0) (hm : m ≤ hi) :
    Tiles lo m l' := by
  intro p
  have hp := h p
  have hcp := hc p
  split at hp <;> split at hcp <;> split <;> omega

theorem Tiles.le_of_lower (h : Tiles lo hi l)
    (hc : ∀ p, l.count p = l'.count p + if m ≤ p ∧ p < hi then 1 else 0) (hlo : lo ≤ hi)
    (hm : m ≤ hi) : lo ≤ m := by
  have hp := h m
  have hcp := hc m
  split at hp <;> split at hcp <;> omega

/-- A tiling with the numbers up to `m` added. -/
theorem Tiles.extend (h : Tiles lo hi l)
    (hc : ∀ p, l'.count p = l.count p + if hi ≤ p ∧ p < m then 1 else 0) (hlo : lo ≤ hi)
    (hm : hi ≤ m) : Tiles lo m l' := by
  intro p
  have hp := h p
  have hcp := hc p
  split at hp <;> split at hcp <;> split <;> omega

end Mdbx
