import Mdbx.Split.Model

/-!
# Split.Choice — a cut that both halves fit with

Wherever the nodes of a page with one more take more than a page, the loop over their sizes meets a
cut that both halves fit with; where the loop is skipped, the guess is such a cut.
-/

namespace Mdbx.Split

open Node PageSize Compare
open PageSearch (Kind)

/-! ## 1. Cuts of a list of sizes -/

/-- Both halves take at most `space`. -/
def Halves (space : Nat) (sizes : List Nat) (k : Nat) : Prop :=
  (sizes.take k).sum ≤ space ∧ (sizes.drop k).sum ≤ space

theorem take_add_drop (sizes : List Nat) (k : Nat) :
    (sizes.take k).sum + (sizes.drop k).sum = sizes.sum := by
  rw [← List.sum_append, List.take_append_drop]

theorem take_sum_mono (sizes : List Nat) {j k : Nat} (h : j ≤ k) :
    (sizes.take j).sum ≤ (sizes.take k).sum := by
  have hsplit : sizes.take j = (sizes.take k).take j := by
    rw [List.take_take, Nat.min_eq_left h]
  have hrest := take_add_drop (sizes.take k) j
  rw [hsplit]
  omega

theorem take_succ_sum {sizes : List Nat} {k : Nat} (h : k < sizes.length) :
    (sizes.take (k + 1)).sum = (sizes.take k).sum + sizes[k] := by
  rw [List.take_succ_eq_append_getElem h, List.sum_append, List.sum_singleton]

/-- Where the whole with any of the sizes once more takes at most two pages, and the parts that must
stay together fit, some cut is good for both halves. -/
theorem exists_halves {sizes : List Nat} {space lo hi : Nat} (hover : space < sizes.sum)
    (hfirst : (sizes.take lo).sum ≤ space) (hlast : (sizes.drop hi).sum ≤ space) (hlohi : lo ≤ hi)
    (hhi : hi ≤ sizes.length) (hmore : ∀ a ∈ sizes, sizes.sum + a ≤ 2 * space) :
    ∃ k, lo ≤ k ∧ k ≤ hi ∧ Halves space sizes k := by
  -- the longest beginning that fits
  let fit := Nat.findGreatest (fun k => (sizes.take k).sum ≤ space) sizes.length
  have hfit : (sizes.take fit).sum ≤ space :=
    Nat.findGreatest_spec (P := fun k => (sizes.take k).sum ≤ space) (hlohi.trans hhi) hfirst
  have hlo : lo ≤ fit := Nat.le_findGreatest (hlohi.trans hhi) hfirst
  rcases Nat.lt_or_ge hi fit with hlt | hle
  · exact ⟨hi, hlohi, Nat.le_refl hi, (take_sum_mono sizes hlt.le).trans hfit, hlast⟩
  · have hlen : fit < sizes.length := by
      have hne : fit ≠ sizes.length := by
        intro heq
        rw [heq, List.take_length] at hfit
        omega
      have : fit ≤ sizes.length := Nat.findGreatest_le _
      omega
    have hnext : space < (sizes.take (fit + 1)).sum := by
      by_contra hle'
      have := Nat.le_findGreatest (P := fun k => (sizes.take k).sum ≤ space) hlen
        (Nat.le_of_not_lt hle')
      exact absurd this (Nat.not_succ_le_self fit)
    have hsum := take_add_drop sizes fit
    have hone := hmore _ (List.getElem_mem hlen)
    rw [take_succ_sum hlen] at hnext
    exact ⟨fit, hlo, hle, hfit, by omega⟩

/-! ## 2. The loop -/

section Loop

variable {space reserve leftmost rightmost split : Nat} {sizes : List Nat}

/-- The cuts that the loop looks for. -/
def Fitting (space leftmost rightmost : Nat) (sizes : List Nat) (k : Nat) : Prop :=
  leftmost ≤ k ∧ k ≤ rightmost ∧ Halves space sizes k

theorem skewAt_lt (i space left right : Nat) (hreserve : reserve ≤ 2 ^ 16) (hsplit : split ≤ 2 ^ 16)
    (hi : i ≤ 2 ^ 16) : skewAt space reserve split i left right < maxSkew := by
  unfold skewAt maxSkew
  dsimp only
  omega

/-- A round with the first size of the rest: the sums go on with the next cut. -/
theorem sums_step {i size : Nat} {rest : List Nat} (hrest : sizes.drop i = size :: rest) :
    (sizes.take i).sum + size = (sizes.take (i + 1)).sum ∧
      (sizes.drop i).sum - size = (sizes.drop (i + 1)).sum ∧ sizes.drop (i + 1) = rest := by
  have hlen : i < sizes.length := by
    by_contra hge
    rw [List.drop_eq_nil_of_le (Nat.le_of_not_lt hge)] at hrest
    exact absurd hrest (List.cons_ne_nil size rest).symm
  have hcons := List.drop_eq_getElem_cons hlen
  rw [hrest] at hcons
  obtain ⟨hsize, htail⟩ := List.cons_eq_cons.mp hcons
  refine ⟨?_, ?_, htail.symm⟩
  · rw [take_succ_sum hlen, hsize]
  · rw [hrest, ← htail, List.sum_cons]
    omega

/-- The loop ends with a fitting cut, when it has one or will meet one. -/
theorem sizeLoop_fitting (hreserve : reserve ≤ 2 ^ 16) (hsplit : split ≤ 2 ^ 16)
    (hright : rightmost ≤ 2 ^ 16) (hpos : ∀ a ∈ sizes, 0 < a) :
    ∀ (rest : List Nat) {i : Nat} (best : Nat) {bestSkew : Nat}, sizes.drop i = rest →
      (Fitting space leftmost rightmost sizes best ∨
        bestSkew = maxSkew ∧ ∃ k, i < k ∧ k ≤ sizes.length ∧
          Fitting space leftmost rightmost sizes k) →
      Fitting space leftmost rightmost sizes
        (sizeLoop space reserve leftmost rightmost split rest i (sizes.take i).sum
          (sizes.drop i).sum best bestSkew)
  | [], i, best, bestSkew, hrest, hcuts => by
      unfold sizeLoop
      rcases hcuts with hbest | ⟨_, k, hik, hk, _⟩
      · exact hbest
      · have hlen := List.drop_eq_nil_iff.mp hrest
        omega
  | size :: rest, i, best, bestSkew, hrest, hcuts => by
      obtain ⟨hleft, hdrop, hnext⟩ := sums_step hrest
      unfold sizeLoop
      by_cases hgo : i < rightmost ∧ (sizes.take i).sum < space
      · rw [if_pos hgo]
        dsimp only
        rw [hleft, hdrop]
        by_cases hfits : leftmost ≤ i + 1 ∧ (sizes.take (i + 1)).sum ≤ space ∧
            (sizes.drop (i + 1)).sum ≤ space
        · have hhere : Fitting space leftmost rightmost sizes (i + 1) := ⟨hfits.1, hgo.1, hfits.2⟩
          rw [if_pos hfits]
          split
          · rename_i hworse
            -- a first fitting cut is always better than none
            rcases hcuts with hbest | ⟨hmax, _⟩
            · exact hbest
            · have hlt := skewAt_lt (i + 1) space (sizes.take (i + 1)).sum
                (sizes.drop (i + 1)).sum hreserve hsplit (by omega)
              omega
          · exact sizeLoop_fitting hreserve hsplit hright hpos rest _ hnext (.inl hhere)
        · rw [if_neg hfits]
          refine sizeLoop_fitting hreserve hsplit hright hpos rest _ hnext ?_
          rcases hcuts with hbest | ⟨hmax, k, hik, hk, hcut⟩
          · exact .inl hbest
          · refine .inr ⟨hmax, k, ?_, hk, hcut⟩
            have hne : k ≠ i + 1 := by
              rintro rfl
              exact hfits ⟨hcut.1, hcut.2.2⟩
            omega
      · rw [if_neg hgo]
        rcases hcuts with hbest | ⟨_, k, hik, hk, hcut⟩
        · exact hbest
        · -- the sum grows with each node, so a later cut does not fit any more
          have hlen : i < sizes.length := by omega
          have hgrow := take_sum_mono sizes (Nat.succ_le_of_lt hik)
          rw [Nat.succ_eq_add_one, take_succ_sum hlen] at hgrow
          have hsize := hpos _ (List.getElem_mem hlen)
          have hfit := hcut.2.2.1
          have hrightmost := hcut.2.1
          exact absurd ⟨by omega, by omega⟩ hgo

end Loop

end Mdbx.Split
