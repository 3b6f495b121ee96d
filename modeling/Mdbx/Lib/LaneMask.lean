import Mathlib.Data.Nat.Bitwise

/-!
# Lib.LaneMask — masks with some bits for each lane

A comparison lane by lane leaves a mask with the same number of bits for each lane, all set or all
clear.  The highest set bit of a mask is in the last lane that compares equal.
-/

namespace Mdbx.LaneMask

/-- The mask of the lanes, the first lane in the lowest bits. -/
def maskOf (bits : Nat) : List Bool → Nat
  | [] => 0
  | h :: hs => 2 ^ bits * maskOf bits hs + if h then 2 ^ bits - 1 else 0

/-- The bits of a mask are those of its lanes. -/
def Marks (bits mask : Nat) (p : Nat → Bool) : Prop := ∀ i, mask.testBit i = p (i / bits)

section Marks

variable {bits mask : Nat} {p q : Nat → Bool}

theorem marks_maskOf (hbits : 0 < bits) (hs : List Bool) :
    Marks bits (maskOf bits hs) fun j => hs.getD j false := by
  induction hs with
  | nil =>
    intro i
    exact Nat.zero_testBit i
  | cons h hs ih =>
    intro i
    have hlow : (if h then 2 ^ bits - 1 else 0) < 2 ^ bits := by
      have hpos := Nat.two_pow_pos bits
      split_ifs <;> omega
    unfold maskOf
    rw [Nat.testBit_two_pow_mul_add _ hlow]
    by_cases hi : i < bits
    · rw [if_pos hi, Nat.div_eq_of_lt hi]
      show _ = h
      cases h with
      | false => exact Nat.zero_testBit i
      | true =>
        rw [if_pos rfl, Nat.testBit_two_pow_sub_one]
        exact decide_eq_true hi
    · have hdiv : i / bits = (i - bits) / bits + 1 := by
        rw [← Nat.add_div_right _ hbits, Nat.sub_add_cancel (Nat.not_lt.mp hi)]
      rw [if_neg hi, ih, hdiv]
      exact List.getD_cons_succ.symm

theorem Marks.congr (h : Marks bits mask p) (hpq : ∀ j, p j = q j) : Marks bits mask q := by
  intro i
  rw [h i, hpq]

/-- Lanes that a second mask clears do not count. -/
theorem Marks.and {other : Nat} (h : Marks bits mask p)
    (hother : ∀ i, p (i / bits) = true → other.testBit i = q (i / bits)) :
    Marks bits (other &&& mask) fun j => q j && p j := by
  intro i
  show _ = (q (i / bits) && p (i / bits))
  rw [Nat.testBit_and, h i]
  cases hp : p (i / bits) with
  | false => rw [Bool.and_false, Bool.and_false]
  | true => rw [hother i hp]

theorem Marks.none (h : Marks bits mask p) (hbits : 0 < bits) (hzero : mask = 0) (j : Nat) :
    p j = false := by
  have hbit := h (bits * j)
  rw [hzero, Nat.zero_testBit, Nat.mul_div_cancel_left _ hbits] at hbit
  exact hbit.symm

/-- The last lane of a mask that is not zero. -/
theorem Marks.last (h : Marks bits mask p) (hbits : 0 < bits) (hne : mask ≠ 0) :
    p (Nat.log2 mask / bits) = true ∧ ∀ j, Nat.log2 mask / bits < j → p j = false := by
  constructor
  · rw [← h]
    exact Nat.testBit_log2 hne
  · intro j hj
    have hbit := h (bits * j)
    rw [Nat.mul_div_cancel_left _ hbits] at hbit
    rw [← hbit]
    apply Nat.testBit_lt_two_pow
    refine Nat.lt_of_lt_of_le (Nat.lt_log2_self (n := mask)) (Nat.pow_le_pow_right (by decide) ?_)
    have hlt := (Nat.div_lt_iff_lt_mul hbits).mp hj
    rw [Nat.mul_comm] at hlt
    exact hlt

-- a lane is set as a whole
theorem Marks.log2_eq (h : Marks bits mask p) (hbits : 0 < bits) (hne : mask ≠ 0) :
    Nat.log2 mask = bits * (Nat.log2 mask / bits) + (bits - 1) := by
  have hlast := (h.last hbits hne).1
  have hdiv : (bits * (Nat.log2 mask / bits) + (bits - 1)) / bits = Nat.log2 mask / bits := by
    rw [Nat.mul_add_div hbits, Nat.div_eq_of_lt (show bits - 1 < bits by omega), Nat.add_zero]
  have hbit := h (bits * (Nat.log2 mask / bits) + (bits - 1))
  rw [hdiv, hlast] at hbit
  have hle : bits * (Nat.log2 mask / bits) + (bits - 1) ≤ Nat.log2 mask :=
    (Nat.le_log2 hne).mpr (Nat.ge_two_pow_of_testBit hbit)
  have hmod := Nat.mod_lt (Nat.log2 mask) hbits
  have hsplit := Nat.div_add_mod (Nat.log2 mask) bits
  omega

end Marks

end Mdbx.LaneMask
