import Mathlib.Data.Multiset.Bind
import Mathlib.Data.Multiset.Replicate
import Mathlib.Algebra.BigOperators.Group.Multiset.Basic
import Mdbx.Lib.Buffer

/-!
# Lib.Counted — lengths counted in an array, and cutting them

Cell `i` of an array counts the runs of length `i + 1`.  Runs are cut in two or thrown away; what can
be made of them so is what can be cut from them simultaneously.
-/

namespace Mdbx.Counted

open Buffer

/-! ## 1. Counting arrays -/

/-- The lengths that the first `n` cells of an array count. -/
def lengths : Nat → (Nat → Nat) → Multiset Nat
  | 0, _ => 0
  | n + 1, a => lengths n a + Multiset.replicate (a n) (n + 1)

theorem lengths_congr {n : Nat} {a b : Nat → Nat} (h : ∀ i, i < n → a i = b i) :
    lengths n a = lengths n b := by
  induction n with
  | zero => rfl
  | succ n ih =>
    unfold lengths
    rw [ih fun i hi => h i (Nat.lt_succ_of_lt hi), h n (Nat.lt_succ_self n)]

theorem mem_lengths {n x : Nat} {a : Nat → Nat} (h : x ∈ lengths n a) :
    ∃ i, i < n ∧ x = i + 1 ∧ 0 < a i := by
  induction n with
  | zero => exact absurd h (Multiset.notMem_zero x)
  | succ n ih =>
    cases Multiset.mem_add.1 h with
    | inl hlow =>
      obtain ⟨i, hi, hx, ha⟩ := ih hlow
      exact ⟨i, Nat.lt_succ_of_lt hi, hx, ha⟩
    | inr hlast =>
      have hrep := Multiset.mem_replicate.1 hlast
      exact ⟨n, Nat.lt_succ_self n, hrep.2, Nat.pos_of_ne_zero hrep.1⟩

-- one more run of a length
theorem lengths_inc {n i : Nat} (a : Nat → Nat) (hi : i < n) :
    lengths n (set a i (a i + 1)) = (i + 1) ::ₘ lengths n a := by
  induction n with
  | zero => exact absurd hi (Nat.not_lt_zero i)
  | succ n ih =>
    unfold lengths
    by_cases heq : i = n
    · subst heq
      rw [set_self, Multiset.replicate_succ, Multiset.add_cons]
      congr 1
      congr 1
      exact lengths_congr fun j hj => set_of_ne a _ (Nat.ne_of_lt hj)
    · rw [ih (by omega), set_of_ne a _ (Ne.symm heq), Multiset.cons_add]

-- one run of a length less
theorem lengths_dec {n i : Nat} (a : Nat → Nat) (hi : i < n) (hpos : 0 < a i) :
    lengths n a = (i + 1) ::ₘ lengths n (set a i (a i - 1)) := by
  have hback : set (set a i (a i - 1)) i (set a i (a i - 1) i + 1) = a := by
    funext j
    by_cases hj : j = i
    · subst hj
      rw [set_self, set_self, Nat.sub_add_cancel hpos]
    · rw [set_of_ne _ _ hj, set_of_ne _ _ hj]
  nth_rewrite 1 [← hback]
  exact lengths_inc _ hi

theorem lengths_zero {n : Nat} {a : Nat → Nat} (h : ∀ i, i < n → a i = 0) : lengths n a = 0 := by
  induction n with
  | zero => rfl
  | succ n ih =>
    unfold lengths
    rw [ih fun i hi => h i (Nat.lt_succ_of_lt hi), h n (Nat.lt_succ_self n)]
    rfl

-- cells that count nothing do not matter
theorem lengths_above {m n : Nat} {a : Nat → Nat} (hle : m ≤ n)
    (h : ∀ i, m ≤ i → i < n → a i = 0) : lengths n a = lengths m a := by
  induction n with
  | zero => rw [Nat.le_zero.1 hle]
  | succ n ih =>
    by_cases heq : m = n + 1
    · rw [heq]
    · show lengths n a + Multiset.replicate (a n) (n + 1) = lengths m a
      rw [ih (by omega) fun i hm hi => h i hm (Nat.lt_succ_of_lt hi),
        h n (by omega) (Nat.lt_succ_self n), Multiset.replicate_zero, add_zero]

/-! ## 2. Cutting -/

/-- What can be made of runs: a piece is cut in two, or it is thrown away. -/
inductive Cuts (runs : Multiset Nat) : Multiset Nat → Prop where
  | whole : Cuts runs runs
  | cut {piece part : Nat} {rest : Multiset Nat} (h : Cuts runs (piece ::ₘ rest))
      (hle : part ≤ piece) : Cuts runs (part ::ₘ (piece - part) ::ₘ rest)
  | drop {piece : Nat} {rest : Multiset Nat} (h : Cuts runs (piece ::ₘ rest)) : Cuts runs rest

theorem Cuts.trans {runs pieces : Multiset Nat} {m : Multiset Nat} (h : Cuts runs pieces)
    (h' : Cuts pieces m) : Cuts runs m := by
  induction h' with
  | whole => exact h
  | cut _ hle ih => exact ih.cut hle
  | drop _ ih => exact ih.drop

-- other pieces stay as they are
theorem Cuts.add {runs m : Multiset Nat} (h : Cuts runs m) (rest : Multiset Nat) :
    Cuts (runs + rest) (m + rest) := by
  induction h with
  | whole => exact .whole
  | cut _ hle ih =>
    rw [Multiset.cons_add] at ih
    rw [Multiset.cons_add, Multiset.cons_add]
    exact ih.cut hle
  | drop _ ih =>
    rw [Multiset.cons_add] at ih
    exact ih.drop

theorem Cuts.dropAll {runs kept rest : Multiset Nat} (h : Cuts runs (rest + kept)) :
    Cuts runs kept := by
  induction rest using Multiset.induction_on with
  | empty =>
    rw [zero_add] at h
    exact h
  | cons piece rest ih =>
    rw [Multiset.cons_add] at h
    exact ih h.drop

/-! ## 3. Pieces of one length -/

/-- Runs that are cut into pieces of length `m`, each with what is left of it. -/
def slices (m : Nat) (runs : Multiset Nat) : Multiset Nat :=
  runs.bind fun r => Multiset.replicate (r / m) m + if r % m = 0 then 0 else {r % m}

section Slices

variable {m : Nat} {runs : Multiset Nat}

-- one piece is cut from the run `r`
theorem slices_cut {r : Nat} (hm : 1 ≤ m) (hle : m ≤ r) :
    slices m (r ::ₘ runs) = m ::ₘ slices m (if r > m then (r - m) ::ₘ runs else runs) := by
  have hdiv : r / m = (r - m) / m + 1 := by
    rw [← Nat.add_div_right _ (by omega), Nat.sub_add_cancel hle]
  unfold slices
  by_cases hlong : r > m
  · rw [if_pos hlong, Multiset.cons_bind, Multiset.cons_bind, hdiv, Nat.mod_eq_sub_mod hle,
      Multiset.replicate_succ, Multiset.cons_add, Multiset.cons_add]
  · have heq : r = m := by omega
    rw [if_neg hlong, Multiset.cons_bind, heq, Nat.mod_self, if_pos rfl, Nat.div_self (by omega),
      Multiset.replicate_one, add_zero, Multiset.singleton_add]

-- short runs stay whole
theorem slices_of_le (h : ∀ r ∈ runs, 1 ≤ r ∧ r ≤ m) : slices m runs = runs := by
  induction runs using Multiset.induction_on with
  | empty => rfl
  | cons r runs ih =>
    have hr := h r (Multiset.mem_cons_self r runs)
    have hrest : slices m runs = runs := ih fun x hx => h x (Multiset.mem_cons_of_mem hx)
    unfold slices at hrest ⊢
    rw [Multiset.cons_bind, hrest]
    by_cases heq : r = m
    · rw [heq, Nat.div_self (by omega), Nat.mod_self, if_pos rfl, Multiset.replicate_one, add_zero,
        Multiset.singleton_add]
    · rw [Nat.div_eq_of_lt (by omega), Nat.mod_eq_of_lt (by omega), if_neg (by omega),
        Multiset.replicate_zero, zero_add, Multiset.singleton_add]

theorem pos_of_mem_slices (hm : 1 ≤ m) {x : Nat} (hx : x ∈ slices m runs) : 1 ≤ x := by
  obtain ⟨r, -, hxr⟩ := Multiset.mem_bind.1 hx
  cases Multiset.mem_add.1 hxr with
  | inl hpiece =>
    rw [(Multiset.mem_replicate.1 hpiece).2]
    exact hm
  | inr hrest =>
    split_ifs at hrest with hzero
    · exact absurd hrest (Multiset.notMem_zero x)
    · rw [Multiset.mem_singleton.1 hrest]
      exact Nat.pos_of_ne_zero hzero

-- nothing is lost
theorem sum_slices (m : Nat) (runs : Multiset Nat) : (slices m runs).sum = runs.sum := by
  induction runs using Multiset.induction_on with
  | empty => rfl
  | cons r runs ih =>
    unfold slices at ih ⊢
    rw [Multiset.cons_bind, Multiset.sum_add, ih, Multiset.sum_cons, Multiset.sum_add,
      Multiset.sum_replicate, smul_eq_mul]
    have hdiv := Nat.div_add_mod' r m
    split_ifs with hzero
    · rw [Multiset.sum_zero]
      omega
    · rw [Multiset.sum_singleton, hdiv]

theorem card_slices_cons (hm : 1 ≤ m) (r : Nat) :
    Multiset.card (slices m (r ::ₘ runs)) = (r + (m - 1)) / m + Multiset.card (slices m runs) := by
  have hdiv := Nat.div_add_mod r m
  have hlt := Nat.mod_lt r hm
  have hceil : (r + (m - 1)) / m = r / m + if r % m = 0 then 0 else 1 := by
    nth_rewrite 1 [← hdiv]
    rw [Nat.add_assoc, Nat.mul_add_div hm]
    congr 1
    split_ifs with hzero
    · exact Nat.div_eq_of_lt (by omega)
    · rw [show r % m + (m - 1) = (r % m - 1) + m by omega, Nat.add_div_right _ hm,
        Nat.div_eq_of_lt (by omega)]
  unfold slices
  rw [Multiset.cons_bind, Multiset.card_add, Multiset.card_add, Multiset.card_replicate, hceil]
  split_ifs <;> rfl

-- a longer piece leaves at least one slice less
theorem card_slices_take {r part : Nat} (hm : 1 ≤ m) (hpart : m ≤ part) (hle : part ≤ r) :
    Multiset.card (slices m (if r > part then (r - part) ::ₘ runs else runs)) + 1 ≤
      Multiset.card (slices m (r ::ₘ runs)) := by
  have hstep : (r - part + (m - 1)) / m + 1 ≤ (r + (m - 1)) / m := by
    rw [← Nat.add_div_right _ hm]
    exact Nat.div_le_div_right (by omega)
  rw [card_slices_cons hm]
  by_cases hlong : r > part
  · rw [if_pos hlong, card_slices_cons hm]
    omega
  · have hone := Nat.le_trans (Nat.le_add_left 1 _) hstep
    rw [if_neg hlong, add_comm]
    exact Nat.add_le_add_right hone _

end Slices

end Mdbx.Counted
