import Mathlib.Data.List.Basic
import Mathlib.Tactic.Common

/-!
# Extents — pieces that lie apart in a range

A family of `n` pieces, each with its place and its size, in a range.  A piece can be put below all
others, and a part can be cut from the front of one of them, whereupon it and those below it slide
up and leave the room at the bottom.
-/

namespace Extents

variable {n lo hi : Nat} {off size : Nat → Nat}

structure Placed (n lo hi : Nat) (off size : Nat → Nat) : Prop where
  le : lo ≤ hi
  inside : ∀ i < n, lo ≤ off i ∧ off i + size i ≤ hi
  apart : ∀ i < n, ∀ j < n, i ≠ j → off i + size i ≤ off j ∨ off j + size j ≤ off i

theorem Placed.empty (h : lo ≤ hi) : Placed 0 lo hi off size where
  le := h
  inside := fun _ hi => absurd hi (Nat.not_lt_zero _)
  apart := fun _ hi => absurd hi (Nat.not_lt_zero _)

/-- Some of the pieces, in another order. -/
theorem Placed.reindex (h : Placed n lo hi off size) {k : Nat} (f : Nat → Nat)
    (hf : ∀ i < k, f i < n) (hinj : ∀ i < k, ∀ j < k, i ≠ j → f i ≠ f j) :
    Placed k lo hi (off ∘ f) (size ∘ f) where
  le := h.le
  inside := fun i hi => h.inside (f i) (hf i hi)
  apart := fun i hi j hj hne => h.apart (f i) (hf i hi) (f j) (hf j hj) (hinj i hi j hj hne)

theorem Placed.congr (h : Placed n lo hi off size) {off' size' : Nat → Nat}
    (heq : ∀ i < n, off' i = off i ∧ size' i = size i) : Placed n lo hi off' size' where
  le := h.le
  inside := fun i hi => by
    rw [(heq i hi).1, (heq i hi).2]
    exact h.inside i hi
  apart := fun i hi j hj hne => by
    rw [(heq i hi).1, (heq i hi).2, (heq j hj).1, (heq j hj).2]
    exact h.apart i hi j hj hne

/-- A piece is put below all others, as the `k`-th. -/
theorem Placed.insert (h : Placed n lo hi off size) {k bytes : Nat} (hbytes : bytes ≤ lo)
    {off' size' : Nat → Nat} (hnew : off' k = lo - bytes ∧ size' k = bytes)
    (hlow : ∀ i < k, off' i = off i ∧ size' i = size i)
    (hhigh : ∀ i, k < i → i ≤ n → off' i = off (i - 1) ∧ size' i = size (i - 1)) (hk : k ≤ n) :
    Placed (n + 1) (lo - bytes) hi off' size' := by
  -- where an old piece comes from
  have hold : ∀ i < n + 1, i ≠ k → ∃ j < n, off' i = off j ∧ size' i = size j ∧
      (j = if i < k then i else i - 1) := by
    intro i hi hne
    by_cases hlt : i < k
    · exact ⟨i, by omega, (hlow i hlt).1, (hlow i hlt).2, (if_pos hlt).symm⟩
    · have hup := hhigh i (by omega) (by omega)
      exact ⟨i - 1, by omega, hup.1, hup.2, (if_neg hlt).symm⟩
  have hle := h.le
  refine ⟨by omega, fun i hi => ?_, fun i hi j hj hne => ?_⟩
  · by_cases hik : i = k
    · rw [hik, hnew.1, hnew.2]
      omega
    · obtain ⟨j, hj, ho, hs, -⟩ := hold i hi hik
      have hin := h.inside j hj
      rw [ho, hs]
      omega
  · by_cases hik : i = k
    · obtain ⟨j', hj', ho, hs, -⟩ := hold j hj (by omega)
      have hin := h.inside j' hj'
      rw [hik, hnew.1, hnew.2, ho]
      omega
    · obtain ⟨i', hi', ho, hs, hi''⟩ := hold i hi hik
      by_cases hjk : j = k
      · have hin := h.inside i' hi'
        rw [hjk, hnew.1, hnew.2, ho]
        omega
      · obtain ⟨j', hj', ho', hs', hj''⟩ := hold j hj hjk
        rw [ho, hs, ho', hs']
        refine h.apart i' hi' j' hj' ?_
        split_ifs at hi'' hj'' <;> omega

/-- The first `cut` bytes of the `k`-th piece go, and what lies below slides up. -/
theorem Placed.cut (h : Placed n lo hi off size) {k cut : Nat} (hk : k < n) (hcut : cut ≤ size k)
    (hpos : ∀ i < n, 0 < size i) {off' size' : Nat → Nat}
    (hoff : ∀ i < n, off' i = if off i ≤ off k then off i + cut else off i)
    (hsize : ∀ i < n, size' i = if i = k then size i - cut else size i) :
    Placed n (lo + cut) hi off' size' := by
  have hin := h.inside k hk
  have hbelow : ∀ i < n, i ≠ k → off i ≤ off k → off i + size i ≤ off k := by
    intro i hi hne hle
    rcases h.apart i hi k hk hne with hap | hap
    · exact hap
    · have := hpos k hk
      omega
  refine ⟨by omega, fun i hi => ?_, fun i hi j hj hne => ?_⟩
  · have hini := h.inside i hi
    have hb := hbelow i hi
    have ha := h.apart i hi k hk
    have hpi := hpos i hi
    rw [hoff i hi, hsize i hi]
    by_cases hik : i = k
    · subst hik
      rw [if_pos (Nat.le_refl _), if_pos rfl]
      omega
    · have hb := hb hik
      have ha := ha hik
      rw [if_neg hik]
      split_ifs <;> omega
  · have hap := h.apart i hi j hj hne
    have hai := h.apart i hi k hk
    have haj := h.apart j hj k hk
    have hpi := hpos i hi
    have hpj := hpos j hj
    have hpk := hpos k hk
    rw [hoff i hi, hsize i hi, hoff j hj, hsize j hj]
    by_cases hik : i = k
    · subst hik
      have haj := haj (Ne.symm hne)
      rw [if_pos (Nat.le_refl _), if_pos rfl, if_neg (Ne.symm hne)]
      split_ifs <;> omega
    · have hai := hai hik
      rw [if_neg hik]
      by_cases hjk : j = k
      · subst hjk
        rw [if_pos (Nat.le_refl (off j)), if_pos rfl]
        split_ifs <;> omega
      · have haj := haj hjk
        rw [if_neg hjk]
        split_ifs <;> omega

/-- All pieces are put elsewhere as they lie, with `up` to be added there and `down` here. -/
theorem Placed.transplant (h : Placed n lo hi off size) {up down lo' hi' : Nat} {off' : Nat → Nat}
    (hlo : lo' + down = lo + up) (hhi : hi' + down = hi + up)
    (hoff : ∀ i < n, off' i + down = off i + up) : Placed n lo' hi' off' size := by
  have hle := h.le
  refine ⟨by omega, fun i hi => ?_, fun i hi j hj hne => ?_⟩
  · have hin := h.inside i hi
    have hi' := hoff i hi
    omega
  · have hap := h.apart i hi j hj hne
    have hi' := hoff i hi
    have hj' := hoff j hj
    omega

end Extents
