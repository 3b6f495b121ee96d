import Mdbx.Keys.RoundTrip

/-!
# Keys.Order — numbers and their keys in one order

The key of a floating-point number is its bit pattern, turned so that unsigned keys are in the order
of the numbers; the key of an integer is that of the double it is rounded to.
-/

namespace Mdbx.Keys

open Binary64 Ieee754

/-! ## 1. Definitions -/

/-- `key2double`; the sign of the key is its first bit. -/
def key2double (key : UInt64) : UInt64 :=
  if 0x8000000000000000 ≤ key then key + 0x8000000000000000 else 0xffffFFFFffffFFFF - key

/-- `key2float` -/
def key2float (key : UInt32) : UInt32 :=
  if 0x80000000 ≤ key then key + 0x80000000 else 0xffffFFFF - key

/-- `float2key` -/
def float2key (bits : UInt32) : UInt32 :=
  -- `i < 0`
  if 0x80000000 ≤ bits then 0xffffFFFF - bits else bits + 0x80000000

def binary32 : Format := ⟨8, 23, by decide⟩

/-- The conversion of an integer to `double`: the nearest one, and 0 without a sign. -/
def RoundsTo (n : Int64) (d : Double) : Prop :=
  Nearest (n.toInt * unit) d ∧ (d.bits = 0 → d.neg = false)

/-! ## 2. Patterns and keys -/

theorem double2key_toNat (bits : UInt64) :
    (double2key bits).toNat = binary64.toOrdered bits.toNat := by
  have hlt := bits.toNat_lt
  have hlead : (0x8000000000000000 : UInt64).toNat = 2 ^ 63 := rfl
  have hall : (0xffffFFFFffffFFFF : UInt64).toNat = 2 ^ 64 - 1 := rfl
  have hsign : binary64.signBit = 2 ^ 63 := rfl
  unfold double2key Format.toOrdered
  rw [hsign]
  have hhalf : 0x8000000000000000 ≤ bits ↔ 2 ^ 63 ≤ bits.toNat := UInt64.le_iff_toNat_le
  by_cases hneg : 2 ^ 63 ≤ bits.toNat
  · have hle : bits ≤ 0xffffFFFFffffFFFF := by
      rw [UInt64.le_iff_toNat_le, hall]
      omega
    rw [if_pos (hhalf.2 hneg), if_pos hneg, UInt64.toNat_sub_of_le _ _ hle, hall]
    omega
  · rw [if_neg (mt hhalf.1 hneg), if_neg hneg, UInt64.toNat_add, hlead]
    exact Nat.mod_eq_of_lt (by omega)

theorem key2double_toNat (key : UInt64) :
    (key2double key).toNat = binary64.ofOrdered key.toNat := by
  have hlt := key.toNat_lt
  have hlead : (0x8000000000000000 : UInt64).toNat = 2 ^ 63 := rfl
  have hall : (0xffffFFFFffffFFFF : UInt64).toNat = 2 ^ 64 - 1 := rfl
  have hsign : binary64.signBit = 2 ^ 63 := rfl
  unfold key2double Format.ofOrdered
  rw [hsign]
  have hhalf : 0x8000000000000000 ≤ key ↔ 2 ^ 63 ≤ key.toNat := UInt64.le_iff_toNat_le
  by_cases hneg : 2 ^ 63 ≤ key.toNat
  · rw [if_pos (hhalf.2 hneg), if_pos hneg, UInt64.toNat_add, hlead]
    omega
  · have hle : key ≤ 0xffffFFFFffffFFFF := by
      rw [UInt64.le_iff_toNat_le, hall]
      omega
    rw [if_neg (mt hhalf.1 hneg), if_neg hneg, UInt64.toNat_sub_of_le _ _ hle, hall]
    omega

theorem float2key_toNat (bits : UInt32) :
    (float2key bits).toNat = binary32.toOrdered bits.toNat := by
  have hlt := bits.toNat_lt
  have hlead : (0x80000000 : UInt32).toNat = 2 ^ 31 := rfl
  have hall : (0xffffFFFF : UInt32).toNat = 2 ^ 32 - 1 := rfl
  have hsign : binary32.signBit = 2 ^ 31 := rfl
  unfold float2key Format.toOrdered
  rw [hsign]
  have hhalf : 0x80000000 ≤ bits ↔ 2 ^ 31 ≤ bits.toNat := UInt32.le_iff_toNat_le
  by_cases hneg : 2 ^ 31 ≤ bits.toNat
  · have hle : bits ≤ 0xffffFFFF := by
      rw [UInt32.le_iff_toNat_le, hall]
      omega
    rw [if_pos (hhalf.2 hneg), if_pos hneg, UInt32.toNat_sub_of_le _ _ hle, hall]
    omega
  · rw [if_neg (mt hhalf.1 hneg), if_neg hneg, UInt32.toNat_add, hlead]
    exact Nat.mod_eq_of_lt (by omega)

theorem key2float_toNat (key : UInt32) :
    (key2float key).toNat = binary32.ofOrdered key.toNat := by
  have hlt := key.toNat_lt
  have hlead : (0x80000000 : UInt32).toNat = 2 ^ 31 := rfl
  have hall : (0xffffFFFF : UInt32).toNat = 2 ^ 32 - 1 := rfl
  have hsign : binary32.signBit = 2 ^ 31 := rfl
  unfold key2float Format.ofOrdered
  rw [hsign]
  have hhalf : 0x80000000 ≤ key ↔ 2 ^ 31 ≤ key.toNat := UInt32.le_iff_toNat_le
  by_cases hneg : 2 ^ 31 ≤ key.toNat
  · rw [if_pos (hhalf.2 hneg), if_pos hneg, UInt32.toNat_add, hlead]
    omega
  · have hle : key ≤ 0xffffFFFF := by
      rw [UInt32.le_iff_toNat_le, hall]
      omega
    rw [if_neg (mt hhalf.1 hneg), if_neg hneg, UInt32.toNat_sub_of_le _ _ hle, hall]
    omega

theorem key2double_double2key (bits : UInt64) : key2double (double2key bits) = bits := by
  apply UInt64.toNat_inj.1
  rw [key2double_toNat, double2key_toNat]
  exact ofOrdered_toOrdered bits.toNat_lt

theorem key2float_float2key (bits : UInt32) : key2float (float2key bits) = bits := by
  apply UInt32.toNat_inj.1
  rw [key2float_toNat, float2key_toNat]
  exact ofOrdered_toOrdered bits.toNat_lt

theorem double2key_lt_iff {x y : UInt64} (hx : ¬ binary64.IsNaN x.toNat)
    (hy : ¬ binary64.IsNaN y.toNat) :
    double2key x < double2key y ↔ binary64.Less x.toNat y.toNat := by
  rw [UInt64.lt_iff_toNat_lt, double2key_toNat, double2key_toNat]
  exact toOrdered_lt_iff x.toNat_lt y.toNat_lt hx hy

theorem float2key_lt_iff {x y : UInt32} (hx : ¬ binary32.IsNaN x.toNat)
    (hy : ¬ binary32.IsNaN y.toNat) :
    float2key x < float2key y ↔ binary32.Less x.toNat y.toNat := by
  rw [UInt32.lt_iff_toNat_lt, float2key_toNat, float2key_toNat]
  exact toOrdered_lt_iff x.toNat_lt y.toNat_lt hx hy

/-! ## 3. Doubles by their patterns -/

theorem ofDouble_toNat (d : Double) :
    (ofDouble d).toNat = (if d.neg then 2 ^ 63 else 0) + d.bits := by
  have hfinite := d.finite
  unfold ofDouble
  rw [UInt64.toNat_ofNat']
  apply Nat.mod_eq_of_lt
  split_ifs
  · omega
  · omega

theorem magnitude_ofDouble (d : Double) : binary64.magnitude (ofDouble d).toNat = d.bits := by
  have hfinite := d.finite
  have hsign : binary64.signBit = 2 ^ 63 := rfl
  unfold Format.magnitude
  rw [ofDouble_toNat, hsign]
  split_ifs
  · omega
  · omega

theorem ofDouble_number (d : Double) : ¬ binary64.IsNaN (ofDouble d).toNat := by
  have hinfinity : binary64.infinity = 2047 * 2 ^ 52 := rfl
  unfold Format.IsNaN
  rw [magnitude_ofDouble, hinfinity]
  exact Nat.not_lt.2 (Nat.le_of_lt d.finite)

/-- The pattern of a finite number has its value. -/
theorem value_ofDouble (d : Double) :
    binary64.value (ofDouble d).toNat = ((d.value : WithTop Int) : WithBot (WithTop Int)) := by
  have hfinite := d.finite
  have hinfinity : binary64.infinity = 2047 * 2 ^ 52 := rfl
  have hsign : binary64.signBit = 2 ^ 63 := rfl
  unfold Format.value Double.value
  rw [magnitude_ofDouble, hinfinity, if_neg (Nat.ne_of_lt hfinite), ofDouble_toNat, hsign]
  cases d.neg with
  | true =>
    rw [if_pos rfl, if_pos (Nat.le_add_right _ _), if_pos rfl]
    rfl
  | false =>
    rw [if_neg Bool.false_ne_true, if_neg (by omega), if_neg Bool.false_ne_true]
    rfl

theorem keyOf_lt {d d' : Double} (h : keyOf d < keyOf d') :
    d.value < d'.value ∨ d.bits = 0 ∧ d.neg = true := by
  have hless := (double2key_lt_iff (ofDouble_number d) (ofDouble_number d')).1 h
  cases hless with
  | inl hvalue =>
    rw [value_ofDouble, value_ofDouble, WithBot.coe_lt_coe, WithTop.coe_lt_coe] at hvalue
    exact Or.inl hvalue
  | inr hzero =>
    have hfinite := d.finite
    have hsign : binary64.signBit = 2 ^ 63 := rfl
    have hpattern := hzero.1
    rw [ofDouble_toNat, hsign] at hpattern
    right
    cases hneg : d.neg with
    | true =>
      rw [hneg, if_pos rfl] at hpattern
      exact ⟨by omega, rfl⟩
    | false =>
      rw [hneg, if_neg Bool.false_ne_true] at hpattern
      omega

/-! ## 4. Integers -/

theorem roundsTo_key (n : Int64) : ∃ d, RoundsTo n d ∧ keyFromJsonInteger n = keyOf d := by
  by_cases h0 : n = 0
  · have hzero : Nearest ((0 : Int64).toInt * unit) ⟨false, 0, by decide⟩ := by
      rw [Int64.toInt_zero, Int.zero_mul]
      exact nearest_exact (by decide) scaled_zero
    rw [h0]
    exact ⟨_, ⟨hzero, fun _ => rfl⟩, by decide⟩
  · obtain ⟨d, hkey, hneg, henc⟩ := keyFromJsonInteger_eq h0
    have hpos := henc.pos
    exact ⟨d, ⟨henc.nearest_signed hneg, fun hz => by omega⟩, hkey⟩

-- a value and the sign of zero determine a number
theorem double_ext {d d' : Double} (hvalue : d.value = d'.value)
    (hz : d.bits = 0 → d.neg = false) (hz' : d'.bits = 0 → d'.neg = false) : d = d' := by
  have hbits := bits_of_value hvalue
  have hneg : d.neg = d'.neg := by
    by_cases h0 : d.bits = 0
    · rw [hz h0, hz' (by omega)]
    · have hpos : 0 < scaled d.bits := scaled_strictMono (Nat.pos_of_ne_zero h0)
      unfold Double.value at hvalue
      rw [← hbits] at hvalue
      cases hd : d.neg <;> cases hd' : d'.neg
      · rfl
      · rw [hd, hd', if_neg Bool.false_ne_true, if_pos rfl] at hvalue
        omega
      · rw [hd, hd', if_neg Bool.false_ne_true, if_pos rfl] at hvalue
        omega
      · rfl
  cases d
  cases d'
  subst hbits hneg
  rfl

theorem keyOf_injective {d d' : Double} (h : keyOf d = keyOf d') : d = d' := by
  have hpattern := congrArg key2double h
  unfold keyOf at hpattern
  rw [key2double_double2key, key2double_double2key, ← UInt64.toNat_inj, ofDouble_toNat,
    ofDouble_toNat] at hpattern
  have hfinite := d.finite
  have hfinite' := d'.finite
  have hboth : d.bits = d'.bits ∧ d.neg = d'.neg := by
    cases hd : d.neg <;> cases hd' : d'.neg <;> rw [hd, hd'] at hpattern
    · exact ⟨by simpa using hpattern, rfl⟩
    · rw [if_neg Bool.false_ne_true, if_pos rfl] at hpattern
      omega
    · rw [if_neg Bool.false_ne_true, if_pos rfl] at hpattern
      omega
    · exact ⟨by simpa using hpattern, rfl⟩
  obtain ⟨hbits, hneg⟩ := hboth
  cases d
  cases d'
  subst hbits hneg
  rfl

/-- The key of an integer is that of the one double it is rounded to. -/
theorem roundsTo_iff (n : Int64) (d : Double) :
    RoundsTo n d ↔ keyFromJsonInteger n = double2key (ofDouble d) := by
  obtain ⟨d₀, hrounds, hkey⟩ := roundsTo_key n
  rw [hkey]
  constructor
  · intro h
    have hsame := double_ext (hrounds.1.value_unique h.1) hrounds.2 h.2
    rw [hsame]
    rfl
  · intro h
    rw [← keyOf_injective (show keyOf d₀ = keyOf d from h)]
    exact hrounds

theorem keyFromJsonInteger_mono {m n : Int64} (h : m ≤ n) :
    keyFromJsonInteger m ≤ keyFromJsonInteger n := by
  obtain ⟨d, hrounds, hkey⟩ := roundsTo_key m
  obtain ⟨d', hrounds', hkey'⟩ := roundsTo_key n
  by_cases heq : m = n
  · rw [heq]
    exact UInt64.le_refl _
  · rw [hkey, hkey']
    by_contra hgt
    have hlt : m.toInt < n.toInt := by
      have hle := Int64.le_iff_toInt_le.1 h
      have hne : m.toInt ≠ n.toInt := mt Int64.toInt_inj.1 heq
      omega
    have hunits : m.toInt * unit < n.toInt * unit :=
      Int.mul_lt_mul_of_pos_right hlt (Int.natCast_pos.2 unit_pos)
    have hvalues := hrounds.1.mono hrounds'.1 hunits
    cases keyOf_lt (UInt64.not_le.1 hgt) with
    | inl hlow => omega
    | inr hzero =>
      have := hrounds'.2 hzero.1
      rw [hzero.2] at this
      exact absurd this (by decide)

/-- Keys of numbers are in the order of the numbers, and numbers come back from their keys. -/
theorem number_keys_ordered (bits x y : UInt64) (bits' x' y' : UInt32) (m n : Int64) (d : Double)
    (hx : ¬ binary64.IsNaN x.toNat) (hy : ¬ binary64.IsNaN y.toNat)
    (hx' : ¬ binary32.IsNaN x'.toNat) (hy' : ¬ binary32.IsNaN y'.toNat) :
    key2double (double2key bits) = bits ∧ key2float (float2key bits') = bits' ∧
      (double2key x < double2key y ↔ binary64.Less x.toNat y.toNat) ∧
      (float2key x' < float2key y' ↔ binary32.Less x'.toNat y'.toNat) ∧
      (∃ d₀, RoundsTo n d₀) ∧
      (RoundsTo n d ↔ keyFromJsonInteger n = double2key (ofDouble d)) ∧
      (m ≤ n → keyFromJsonInteger m ≤ keyFromJsonInteger n) := by
  obtain ⟨d₀, hrounds, -⟩ := roundsTo_key n
  exact ⟨key2double_double2key bits, key2float_float2key bits', double2key_lt_iff hx hy,
    float2key_lt_iff hx' hy', ⟨d₀, hrounds⟩, roundsTo_iff n d, keyFromJsonInteger_mono⟩

-- -0 before +0
theorem number_keys_ordered_zeros :
    double2key 0x8000000000000000 < double2key 0 ↔ binary64.Less 0x8000000000000000 0 :=
  (number_keys_ordered 0 0x8000000000000000 0 0 0x3f800000 0x7f800000 0 0 ⟨false, 0, by decide⟩
    (by decide) (by decide) (by decide) (by decide)).2.2.1

end Mdbx.Keys
