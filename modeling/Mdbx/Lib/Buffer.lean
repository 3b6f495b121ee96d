import Mathlib.Tactic

/-!
# Buffers — in-place loops over an array

A buffer is a total function from cell numbers to values; a program that owns only a prefix of it
never looks past that prefix.  The three loops that in-place algorithms are made of (an ascending
copy, a descending copy and a fill) get one pointwise description each.
-/

namespace Buffer

variable {α : Type}

/-- One store `b[i] = v`. -/
def set (b : Nat → α) (i : Nat) (v : α) : Nat → α := fun j => if j = i then v else b j

@[simp] theorem set_self (b : Nat → α) (i : Nat) (v : α) : set b i v i = v := if_pos rfl

theorem set_of_ne (b : Nat → α) {i j : Nat} (v : α) (h : j ≠ i) : set b i v j = b j := if_neg h

/-- The ascending copy: `n` rounds of `b[dst++] = b[src++]`. -/
def moveDown (b : Nat → α) (dst src : Nat) : Nat → (Nat → α)
  | 0 => b
  | n + 1 => moveDown (set b dst (b src)) (dst + 1) (src + 1) n

/-- The descending copy: `n` rounds of `b[k + gap] = b[k]` with `k` going down to `base`. -/
def moveUp (b : Nat → α) (base gap : Nat) : Nat → (Nat → α)
  | 0 => b
  | n + 1 => moveUp (set b (base + n + gap) (b (base + n))) base gap n

/-- `n` rounds of `b[start++] = f(k++)`. -/
def fill (b : Nat → α) (start : Nat) (f : Nat → α) : Nat → (Nat → α)
  | 0 => b
  | n + 1 => set (fill b start f n) (start + n) (f n)

/-- An ascending copy towards the front never reads a cell it has already overwritten. -/
theorem moveDown_apply (b : Nat → α) (dst src n j : Nat) (hle : dst ≤ src) :
    moveDown b dst src n j =
      if dst ≤ j ∧ j < dst + n then b (src + (j - dst)) else b j := by
  induction n generalizing b dst src with
  | zero => rw [moveDown, if_neg (by omega)]
  | succ n ih =>
    rw [moveDown, ih _ _ _ (by omega)]
    by_cases hlo : j = dst
    · subst hlo
      rw [if_neg (by omega), if_pos (by omega), set_self, Nat.sub_self, Nat.add_zero]
    · by_cases hin : dst ≤ j ∧ j < dst + (n + 1)
      · rw [if_pos (by omega), if_pos hin, set_of_ne _ _ (by omega)]
        congr 1
        omega
      · rw [if_neg (by omega), if_neg hin, set_of_ne _ _ hlo]

/-- A descending copy towards the end never reads a cell it has already overwritten. -/
theorem moveUp_apply (b : Nat → α) (base gap n j : Nat) :
    moveUp b base gap n j =
      if base + gap ≤ j ∧ j < base + gap + n then b (j - gap) else b j := by
  induction n generalizing b with
  | zero => rw [moveUp, if_neg (by omega)]
  | succ n ih =>
    rw [moveUp, ih]
    by_cases hin : base + gap ≤ j ∧ j < base + gap + n
    · rw [if_pos hin, if_pos (by omega), set_of_ne _ _ (by omega)]
    · rw [if_neg hin]
      by_cases hlast : j = base + n + gap
      · rw [hlast, set_self, if_pos (by omega)]
        congr 1
        omega
      · rw [set_of_ne _ _ hlast, if_neg (by omega)]

theorem fill_apply (b : Nat → α) (start : Nat) (f : Nat → α) (n j : Nat) :
    fill b start f n j = if start ≤ j ∧ j < start + n then f (j - start) else b j := by
  induction n with
  | zero => rw [fill, if_neg (by omega)]
  | succ n ih =>
    rw [fill]
    by_cases hlast : j = start + n
    · rw [hlast, set_self, if_pos (by omega), Nat.add_sub_cancel_left]
    · rw [set_of_ne _ _ hlast, ih]
      by_cases hin : start ≤ j ∧ j < start + n
      · rw [if_pos hin, if_pos (by omega)]
      · rw [if_neg hin, if_neg (by omega)]

end Buffer
