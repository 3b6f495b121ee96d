import Mathlib

/-!
# Lib.Ieee754 — bit patterns of binary floating-point formats and their order

A pattern is a number: the sign bit, the exponent and the mantissa below it.  Finite values are
counted in units of the least positive number of the format, so that they are integers.
-/

namespace Mdbx.Ieee754

/-- How many bits the exponent and the mantissa have. -/
structure Format where
  exponent : Nat
  mantissa : Nat
  exponent_pos : 0 < exponent

namespace Format

variable (f : Format)

/-- The value of a non-negative number by its bits. -/
def scaled (bits : Nat) : Nat :=
  if bits < 2 ^ f.mantissa then bits
  else (2 ^ f.mantissa + bits % 2 ^ f.mantissa) * 2 ^ (bits / 2 ^ f.mantissa - 1)

def signBit : Nat := 2 ^ (f.exponent + f.mantissa)

/-- The exponent is all ones, and the mantissa is zero. -/
def infinity : Nat := (2 ^ f.exponent - 1) * 2 ^ f.mantissa

/-- The pattern without its sign. -/
def magnitude (bits : Nat) : Nat := bits % f.signBit

def IsNaN (bits : Nat) : Prop := f.infinity < f.magnitude bits

instance : DecidablePred f.IsNaN := fun bits =>
  inferInstanceAs (Decidable (f.infinity < f.magnitude bits))

/-- The value of a pattern that is a number. -/
def value (bits : Nat) : WithBot (WithTop Int) :=
  if f.magnitude bits = f.infinity then
    if f.signBit ≤ bits then ⊥ else ((⊤ : WithTop Int) : WithBot (WithTop Int))
  else
    (((if f.signBit ≤ bits then -(f.scaled (f.magnitude bits) : Int)
      else f.scaled (f.magnitude bits) : Int) : WithTop Int) : WithBot (WithTop Int))

/-- The order of the values, with -0 before +0. -/
def Less (x y : Nat) : Prop := f.value x < f.value y ∨ x = f.signBit ∧ y = 0

/-- Patterns as unsigned numbers in the order of their values: negative ones are counted downwards
from the middle. -/
def toOrdered (bits : Nat) : Nat :=
  if f.signBit ≤ bits then 2 * f.signBit - 1 - bits else bits + f.signBit

def ofOrdered (key : Nat) : Nat :=
  if f.signBit ≤ key then key - f.signBit else 2 * f.signBit - 1 - key

end Format

variable {f : Format}

/-! ## 1. Magnitudes -/

theorem scaled_lt_succ (b : Nat) : f.scaled b < f.scaled (b + 1) := by
  have hpos : 0 < 2 ^ f.mantissa := Nat.two_pow_pos _
  unfold Format.scaled
  generalize 2 ^ f.mantissa = lead at hpos
  by_cases hlow : b < lead
  · rw [if_pos hlow]
    by_cases hnext : b + 1 < lead
    · rw [if_pos hnext]
      exact Nat.lt_succ_self b
    · have htop : b + 1 = lead := by omega
      rw [if_neg hnext, htop, Nat.mod_self, Nat.div_self hpos, Nat.sub_self, pow_zero]
      omega
  · rw [if_neg hlow, if_neg (by omega)]
    have hdiv : 1 ≤ b / lead := (Nat.one_le_div_iff hpos).2 (by omega)
    by_cases hcarry : b % lead + 1 = lead
    · -- the exponent grows
      have hmul := Nat.div_add_mod b lead
      have hsum : b + 1 = lead * (b / lead + 1) := by
        rw [Nat.mul_succ]
        omega
      have hpow : 2 ^ (b / lead + 1 - 1) = 2 * 2 ^ (b / lead - 1) := by
        rw [← pow_succ', Nat.sub_add_cancel hdiv, Nat.add_sub_cancel]
      rw [hsum, Nat.mul_mod_right, Nat.mul_div_cancel_left _ hpos, hpow, Nat.add_zero,
        ← Nat.mul_assoc]
      exact Nat.mul_lt_mul_of_pos_right (by omega) (Nat.two_pow_pos _)
    · have hlt : b % lead + 1 < lead := by
        have := Nat.mod_lt b hpos
        omega
      have hmod : (b + 1) % lead = b % lead + 1 := by
        rw [Nat.add_mod, Nat.mod_eq_of_lt (show 1 < lead by omega), Nat.mod_eq_of_lt hlt]
      have hquot : (b + 1) / lead = b / lead := by
        rw [Nat.succ_div, if_neg, Nat.add_zero]
        intro hdvd
        rw [Nat.dvd_iff_mod_eq_zero, hmod] at hdvd
        omega
      rw [hmod, hquot]
      exact Nat.mul_lt_mul_of_pos_right (by omega) (Nat.two_pow_pos _)

theorem scaled_strictMono : StrictMono f.scaled := strictMono_nat_of_lt_succ scaled_lt_succ

theorem scaled_zero : f.scaled 0 = 0 := if_pos (Nat.two_pow_pos _)

theorem signBit_pos : 0 < f.signBit := Nat.two_pow_pos _

theorem magnitude_neg {x : Nat} (hx : x < 2 * f.signBit) (hneg : f.signBit ≤ x) :
    f.magnitude x = x - f.signBit := by
  unfold Format.magnitude
  rw [Nat.mod_eq_sub_mod hneg, Nat.mod_eq_of_lt (by omega)]

theorem magnitude_pos {x : Nat} (hpos : ¬ f.signBit ≤ x) : f.magnitude x = x :=
  Nat.mod_eq_of_lt (by omega)

/-! ## 2. Order -/

/-- Infinities are in their places as numbers behind the last finite one. -/
def rank (f : Format) (x : Nat) : Int :=
  if f.signBit ≤ x then -(f.scaled (f.magnitude x) : Int) else f.scaled (f.magnitude x)

theorem infinity_pos : 0 < f.infinity := by
  have hexp : 2 ≤ 2 ^ f.exponent := Nat.le_self_pow (Nat.ne_of_gt f.exponent_pos) 2
  exact Nat.mul_pos (by omega) (Nat.two_pow_pos _)

theorem value_lt_iff {x y : Nat} (hx : ¬ f.IsNaN x) (hy : ¬ f.IsNaN y) :
    f.value x < f.value y ↔ rank f x < rank f y := by
  have hmono := scaled_strictMono (f := f)
  have hx' : f.magnitude x ≤ f.infinity := Nat.not_lt.1 hx
  have hy' : f.magnitude y ≤ f.infinity := Nat.not_lt.1 hy
  have hlimit : ∀ m, m ≤ f.infinity → m ≠ f.infinity → f.scaled m < f.scaled f.infinity :=
    fun m hle hne => hmono (by omega)
  have hpos : 0 < f.scaled f.infinity := by
    rw [← scaled_zero (f := f)]
    exact hmono infinity_pos
  unfold Format.value rank
  by_cases hix : f.magnitude x = f.infinity
  · by_cases hiy : f.magnitude y = f.infinity
    · rw [if_pos hix, if_pos hiy, hix, hiy]
      split_ifs
      · exact iff_of_false (lt_irrefl _) (by omega)
      · exact iff_of_true (WithBot.bot_lt_coe _) (by omega)
      · exact iff_of_false not_lt_bot (by omega)
      · exact iff_of_false (lt_irrefl _) (by omega)
    · have hlt := hlimit _ hy' hiy
      rw [if_pos hix, if_neg hiy, hix]
      split_ifs
      · exact iff_of_true (WithBot.bot_lt_coe _) (by omega)
      · exact iff_of_true (WithBot.bot_lt_coe _) (by omega)
      · exact iff_of_false (fun h => not_top_lt (WithBot.coe_lt_coe.1 h)) (by omega)
      · exact iff_of_false (fun h => not_top_lt (WithBot.coe_lt_coe.1 h)) (by omega)
  · have hlt := hlimit _ hx' hix
    by_cases hiy : f.magnitude y = f.infinity
    · rw [if_neg hix, if_pos hiy, hiy]
      split_ifs
      · exact iff_of_false not_lt_bot (by omega)
      · exact iff_of_true (WithBot.coe_lt_coe.2 (WithTop.coe_lt_top _)) (by omega)
      · exact iff_of_false not_lt_bot (by omega)
      · exact iff_of_true (WithBot.coe_lt_coe.2 (WithTop.coe_lt_top _)) (by omega)
    · rw [if_neg hix, if_neg hiy, WithBot.coe_lt_coe, WithTop.coe_lt_coe]

/-- The numbers are in the order of the values. -/
theorem toOrdered_lt_iff {x y : Nat} (hx : x < 2 * f.signBit) (hy : y < 2 * f.signBit)
    (hnx : ¬ f.IsNaN x) (hny : ¬ f.IsNaN y) :
    f.toOrdered x < f.toOrdered y ↔ f.Less x y := by
  have hmono := scaled_strictMono (f := f)
  have hsign := signBit_pos (f := f)
  unfold Format.Less
  rw [value_lt_iff hnx hny]
  unfold Format.toOrdered rank
  by_cases hx' : f.signBit ≤ x
  · rw [if_pos hx', if_pos hx', magnitude_neg hx hx']
    by_cases hy' : f.signBit ≤ y
    · have hlt := hmono.lt_iff_lt (a := y - f.signBit) (b := x - f.signBit)
      rw [if_pos hy', if_pos hy', magnitude_neg hy hy']
      omega
    · -- only the two zeros have one value
      have hx0 := hmono.monotone (Nat.zero_le (x - f.signBit))
      have hy0 := hmono.monotone (Nat.zero_le y)
      have hx0' := hmono.lt_iff_lt (a := 0) (b := x - f.signBit)
      have hy0' := hmono.lt_iff_lt (a := 0) (b := y)
      rw [if_neg hy', if_neg hy', magnitude_pos hy']
      rw [scaled_zero] at hx0 hy0 hx0' hy0'
      omega
  · rw [if_neg hx', if_neg hx', magnitude_pos hx']
    by_cases hy' : f.signBit ≤ y
    · rw [if_pos hy', if_pos hy', magnitude_neg hy hy']
      omega
    · have hlt := hmono.lt_iff_lt (a := x) (b := y)
      rw [if_neg hy', if_neg hy', magnitude_pos hy']
      omega

theorem ofOrdered_toOrdered {x : Nat} (hx : x < 2 * f.signBit) :
    f.ofOrdered (f.toOrdered x) = x := by
  unfold Format.ofOrdered Format.toOrdered
  split_ifs <;> omega

end Mdbx.Ieee754
