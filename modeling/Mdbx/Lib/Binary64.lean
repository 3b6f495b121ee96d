import Mdbx.Lib.Ieee754

/-!
# Lib.Binary64 — the finite numbers of the IEEE 754 binary64 format

A finite number is a sign and the bits of its exponent and mantissa.  Its value is counted in units
of `2 ^ -1074`, the least positive number of the format, so that values are integers.
-/

namespace Mdbx.Binary64

/-! ## 1. Values -/

/-- The value of a non-negative number by its bits. -/
def scaled (bits : Nat) : Nat :=
  if bits < 2 ^ 52 then bits else (2 ^ 52 + bits % 2 ^ 52) * 2 ^ (bits / 2 ^ 52 - 1)

def leastExponent : Nat := 1074

/-- The units of the integer 1. -/
def unit : Nat := 2 ^ leastExponent

structure Double where
  neg : Bool
  bits : Nat
  finite : bits < 2047 * 2 ^ 52

def Double.value (d : Double) : Int := if d.neg then -(scaled d.bits : Int) else scaled d.bits

def Double.negated (d : Double) : Double := { d with neg := !d.neg }

/-- Of all finite numbers `d` is nearest to `x`, and even when another one is as near. -/
structure Nearest (x : Int) (d : Double) : Prop where
  le : ∀ d' : Double, (x - d.value).natAbs ≤ (x - d'.value).natAbs
  even : ∀ d' : Double, d'.value ≠ d.value →
    (x - d'.value).natAbs = (x - d.value).natAbs → d.bits % 2 = 0

theorem unit_pos : 0 < unit := Nat.two_pow_pos leastExponent

theorem pow_least (k : Nat) : 2 ^ (k + leastExponent) = 2 ^ k * unit := by rw [pow_add, unit]

/-! ## 2. Values by exponent and mantissa -/

-- the mantissa with its leading bit; with its next power of two the exponent grows
theorem scaled_mantissa {e m : Nat} (he : 1 ≤ e) (hlo : 2 ^ 52 ≤ m) (hhi : m ≤ 2 ^ 53) :
    scaled (e * 2 ^ 52 + (m - 2 ^ 52)) = m * 2 ^ (e - 1) := by
  have hge : ¬e * 2 ^ 52 + (m - 2 ^ 52) < 2 ^ 52 := by omega
  unfold scaled
  rw [if_neg hge]
  by_cases htop : m = 2 ^ 53
  · have hbits : e * 2 ^ 52 + (m - 2 ^ 52) = (e + 1) * 2 ^ 52 := by omega
    have hexp : 2 ^ (e + 1 - 1) = 2 * 2 ^ (e - 1) := by
      rw [← pow_succ', Nat.sub_add_cancel he, Nat.add_sub_cancel]
    rw [hbits, Nat.mul_mod_left, Nat.mul_div_cancel _ (Nat.two_pow_pos 52), hexp, htop]
    ring
  · have hlt : m - 2 ^ 52 < 2 ^ 52 := by omega
    have hmod : (e * 2 ^ 52 + (m - 2 ^ 52)) % 2 ^ 52 = m - 2 ^ 52 := by
      rw [Nat.mul_add_mod_self_right, Nat.mod_eq_of_lt hlt]
    have hdiv : (e * 2 ^ 52 + (m - 2 ^ 52)) / 2 ^ 52 = e := by omega
    rw [hmod, hdiv, Nat.add_sub_cancel' hlo]

def binary64 : Ieee754.Format := ⟨11, 52, by decide⟩

theorem scaled_lt_succ (b : Nat) : scaled b < scaled (b + 1) :=
  Ieee754.scaled_lt_succ (f := binary64) b

theorem scaled_strictMono : StrictMono scaled := strictMono_nat_of_lt_succ scaled_lt_succ

theorem scaled_zero : scaled 0 = 0 := rfl

/-! ## 3. The nearest number -/

theorem negated_value (d : Double) : d.negated.value = -d.value := by
  unfold Double.value Double.negated
  cases d.neg with
  | true => exact (Int.neg_neg _).symm
  | false => rfl

theorem negated_negated (d : Double) : d.negated.negated = d := by
  unfold Double.negated
  rw [Bool.not_not]

theorem Nearest.negated {x : Int} {d : Double} (h : Nearest x d) : Nearest (-x) d.negated := by
  have habs : ∀ d' : Double, ((-x) - d'.value).natAbs = (x - d'.negated.value).natAbs := by
    intro d'
    rw [negated_value]
    omega
  constructor
  · intro d'
    rw [habs, habs, negated_negated]
    exact h.le d'.negated
  · intro d' hne heq
    rw [habs, habs, negated_negated] at heq
    refine h.even d'.negated (fun hval => hne ?_) heq
    rw [negated_value] at hval ⊢
    omega

/-- A non-negative number whose neighbours are not nearer. -/
theorem nearest_of_neighbours {n b : Nat} (hb : b < 2047 * 2 ^ 52)
    (hlo : b = 0 ∨ scaled (b - 1) + scaled b ≤ 2 * n) (hhi : 2 * n ≤ scaled b + scaled (b + 1))
    (heven : (b ≠ 0 ∧ scaled (b - 1) + scaled b = 2 * n) ∨ 2 * n = scaled b + scaled (b + 1) →
      b % 2 = 0) :
    Nearest n ⟨false, b, hb⟩ := by
  -- where another number lies
  have hside : ∀ b', b' = b ∨ (b ≠ 0 ∧ scaled b' ≤ scaled (b - 1)) ∨ scaled (b + 1) ≤ scaled b' := by
    intro b'
    rcases Nat.lt_trichotomy b' b with hlt | heq | hgt
    · exact Or.inr (Or.inl ⟨by omega, scaled_strictMono.monotone (by omega)⟩)
    · exact Or.inl heq
    · exact Or.inr (Or.inr (scaled_strictMono.monotone hgt))
  have hpred : b ≠ 0 → scaled (b - 1) < scaled b := fun hne => scaled_strictMono (by omega)
  have hsucc := scaled_lt_succ b
  have hzero : b = 0 → scaled b = 0 := fun heq => by rw [heq, scaled_zero]
  have hvalue : Double.value ⟨false, b, hb⟩ = scaled b := rfl
  have hother : ∀ d' : Double, d'.value = scaled d'.bits ∨ d'.value = -(scaled d'.bits : Int) := by
    intro d'
    unfold Double.value
    cases d'.neg with
    | true => exact Or.inr rfl
    | false => exact Or.inl rfl
  constructor
  · intro d'
    rw [hvalue]
    rcases hother d' with heq | heq <;> rw [heq] <;> rcases hside d'.bits with h | ⟨hne, h⟩ | h
    · rw [h]
    · omega
    · omega
    · omega
    · omega
    · omega
  · intro d' hne heq
    rw [hvalue] at hne heq
    apply heven
    rcases hother d' with hd | hd <;> rw [hd] at hne heq <;> rcases hside d'.bits with h | ⟨hne', h⟩ | h
    · exact absurd (by rw [h]) hne
    · omega
    · omega
    · omega
    · omega
    · omega

theorem nearest_exact {n b : Nat} (hb : b < 2047 * 2 ^ 52) (heq : scaled b = n) :
    Nearest n ⟨false, b, hb⟩ := by
  have hsucc := scaled_lt_succ b
  have hpred : b ≠ 0 → scaled (b - 1) < scaled b := fun hne => scaled_strictMono (by omega)
  exact nearest_of_neighbours hb (by omega) (by omega) (by omega)

/-! ## 4. The nearest number is one -/

theorem value_natAbs (d : Double) : d.value.natAbs = scaled d.bits := by
  unfold Double.value
  cases d.neg with
  | true => exact Int.natAbs_neg _
  | false => rfl

theorem bits_of_value {d d' : Double} (h : d.value = d'.value) : d.bits = d'.bits := by
  apply scaled_strictMono.injective
  rw [← value_natAbs, ← value_natAbs, h]

/-- Below a greater value there is a next one, whose last bit differs. -/
theorem exists_next {d d' : Double} (h : d.value < d'.value) :
    ∃ next : Double, d.value < next.value ∧ next.value ≤ d'.value ∧
      next.bits % 2 ≠ d.bits % 2 := by
  have hmono := scaled_strictMono
  have hfinite := d.finite
  by_cases hdown : d.neg = true ∧ d.bits ≠ 0
  · have hlow : d.value = -(scaled d.bits : Int) := if_pos hdown.1
    have hstep : scaled (d.bits - 1) < scaled d.bits := hmono (by omega)
    refine ⟨⟨true, d.bits - 1, by omega⟩, ?_, ?_, by show (d.bits - 1) % 2 ≠ _; omega⟩
    · show d.value < -(scaled (d.bits - 1) : Int)
      omega
    · show -(scaled (d.bits - 1) : Int) ≤ d'.value
      by_cases hneg : d'.neg = true
      · have hhigh : d'.value = -(scaled d'.bits : Int) := if_pos hneg
        have hlt : d'.bits < d.bits := hmono.lt_iff_lt.1 (by omega)
        have hle := hmono.monotone (show d'.bits ≤ d.bits - 1 by omega)
        omega
      · have hhigh : d'.value = scaled d'.bits := if_neg hneg
        omega
  · have hlow : d.value = scaled d.bits := by
      by_cases hneg : d.neg = true
      · have hz : d.bits = 0 := not_not.1 fun hne => hdown ⟨hneg, hne⟩
        unfold Double.value
        rw [if_pos hneg, hz]
        rfl
      · exact if_neg hneg
    have hhigh : d'.value = scaled d'.bits := by
      by_cases hneg : d'.neg = true
      · have hneg' : d'.value = -(scaled d'.bits : Int) := if_pos hneg
        omega
      · exact if_neg hneg
    have hlt : d.bits < d'.bits := hmono.lt_iff_lt.1 (by omega)
    have hfinite' := d'.finite
    have hstep := scaled_lt_succ d.bits
    have hle := hmono.monotone (show d.bits + 1 ≤ d'.bits by omega)
    refine ⟨⟨false, d.bits + 1, by omega⟩, ?_, ?_, by show (d.bits + 1) % 2 ≠ _; omega⟩
    · show d.value < (scaled (d.bits + 1) : Int)
      omega
    · show (scaled (d.bits + 1) : Int) ≤ d'.value
      omega

-- one of two values at the same distance has an odd last bit
theorem Nearest.not_lt {x : Int} {d d' : Double} (h : Nearest x d) (h' : Nearest x d') :
    ¬ d.value < d'.value := by
  intro hlt
  have hle := h.le d'
  have hle' := h'.le d
  have heven := h.even d' (by omega) (by omega)
  have heven' := h'.even d (by omega) (by omega)
  obtain ⟨next, hlow, hhigh, hbits⟩ := exists_next hlt
  have hnext := h.le next
  have hsame : next.value = d'.value := by omega
  rw [bits_of_value hsame] at hbits
  omega

theorem Nearest.value_unique {x : Int} {d d' : Double} (h : Nearest x d) (h' : Nearest x d') :
    d.value = d'.value :=
  Int.le_antisymm (Int.not_lt.1 (h'.not_lt h)) (Int.not_lt.1 (h.not_lt h'))

/-- Rounding keeps the order. -/
theorem Nearest.mono {x y : Int} {d d' : Double} (h : Nearest x d) (h' : Nearest y d')
    (hxy : x < y) : d.value ≤ d'.value := by
  have hle := h.le d'
  have hle' := h'.le d
  omega

end Mdbx.Binary64
