import Mdbx.Keys.JsonInteger

/-!
# Keys.RoundTrip — what comes back of an integer key

The key of an integer is that of the nearest double, and the integer that comes back is its value,
cut off and saturated; only the key of zero is taken for a number too large.
-/

namespace Mdbx.Keys

open Binary64

/-! ## 1. Rounding -/

theorem roundMantissa_eq {u s : Nat} (hu : u + 2 ^ (s - 1) < 2 ^ 64) :
    roundMantissa u (-s) = (u + 2 ^ (s - 1) - (1 - u / 2 ^ s % 2)) / 2 ^ s := by
  have hlsb : 1 ^^^ (1 &&& (u >>> s)) = 1 - u / 2 ^ s % 2 := by
    rw [Nat.one_and_eq_mod_two, Nat.shiftRight_eq_div_pow]
    rcases Nat.mod_two_eq_zero_or_one (u / 2 ^ s) with h | h <;> rw [h] <;> rfl
  unfold roundMantissa
  dsimp only
  rw [Int.neg_neg, Int.toNat_natCast, hlsb, Nat.one_shiftLeft, Nat.mod_eq_of_lt (by omega),
    Nat.shiftRight_eq_div_pow]

-- half of the last place at most, and an even number in the middle
theorem roundMantissa_spec {u s : Nat} (hs : 1 ≤ s) (hu : u + 2 ^ (s - 1) < 2 ^ 64) :
    u / 2 ^ s ≤ roundMantissa u (-s) ∧ roundMantissa u (-s) ≤ u / 2 ^ s + 1 ∧
    2 * (roundMantissa u (-s) * 2 ^ s) ≤ 2 * u + 2 ^ s ∧
    2 * u ≤ 2 * (roundMantissa u (-s) * 2 ^ s) + 2 ^ s ∧
    (2 * (roundMantissa u (-s) * 2 ^ s) = 2 * u + 2 ^ s ∨
      2 * u = 2 * (roundMantissa u (-s) * 2 ^ s) + 2 ^ s → roundMantissa u (-s) % 2 = 0) := by
  rw [roundMantissa_eq hu]
  have hpow : 2 ^ s = 2 * 2 ^ (s - 1) := by rw [← pow_succ', Nat.sub_add_cancel hs]
  have hpos : 0 < 2 ^ (s - 1) := Nat.two_pow_pos _
  generalize 2 ^ (s - 1) = half at hpow hpos
  rw [hpow]
  have hdiv := Nat.div_add_mod u (2 * half)
  have hmod := Nat.mod_lt u (by omega : 0 < 2 * half)
  generalize u / (2 * half) = q at hdiv
  generalize u % (2 * half) = r at hdiv hmod
  have hsum : u + half - (1 - q % 2) = 2 * half * q + (r + half - (1 - q % 2)) := by omega
  rw [hsum, Nat.mul_add_div (by omega)]
  by_cases hdown : r + half - (1 - q % 2) < 2 * half
  · have hval : q * (2 * half) = 2 * half * q := Nat.mul_comm _ _
    rw [Nat.div_eq_of_lt hdown, Nat.add_zero, hval]
    omega
  · have hone : (r + half - (1 - q % 2)) / (2 * half) = 1 := by
      rw [Nat.div_eq_iff (by omega)]
      omega
    have hval : (q + 1) * (2 * half) = 2 * half * q + 2 * half := by ring
    rw [hone, hval]
    omega

/-! ## 2. The magnitude of a key -/

theorem clz64_eq {u : Nat} (hu : u < 2 ^ 64) (h0 : u ≠ 0) : (clz64 u : Int) = 63 - u.log2 := by
  have hlog : u.log2 < 64 := (Nat.log2_lt h0).mpr hu
  unfold clz64
  omega

-- the leading bit comes to its place
theorem lead_bounds {u k : Nat} (h0 : u ≠ 0) (hk : u.log2 ≤ k) :
    2 ^ k ≤ u * 2 ^ (k - u.log2) ∧ u * 2 ^ (k - u.log2) < 2 ^ (k + 1) := by
  have hlo := Nat.mul_le_mul_right (2 ^ (k - u.log2)) (Nat.log2_self_le h0)
  have hhi := Nat.mul_lt_mul_of_pos_right (@Nat.lt_log2_self u) (Nat.two_pow_pos (k - u.log2))
  rw [← pow_add, Nat.add_sub_cancel' hk] at hlo
  rw [← pow_add, show u.log2 + 1 + (k - u.log2) = k + 1 by omega] at hhi
  exact ⟨hlo, hhi⟩

theorem magnitude_small {u : Nat} (h0 : u ≠ 0) (hu : u < 2 ^ 53) :
    magnitude u = (1023 + u.log2) * 2 ^ 52 + (u * 2 ^ (52 - u.log2) - 2 ^ 52) := by
  have hlog : u.log2 < 53 := (Nat.log2_lt h0).mpr hu
  have ⟨_, hhi⟩ := lead_bounds h0 (Nat.le_of_lt_succ hlog)
  have hshift : (clz64 u : Int) - (64 - mantissaSize - 1 : Int) = ((52 - u.log2 : Nat) : Int) := by
    rw [clz64_eq (by omega) h0]
    unfold mantissaSize
    omega
  have hscale : scale u = (u * 2 ^ (52 - u.log2), ((52 - u.log2 : Nat) : Int)) := by
    unfold scale
    rw [hshift]
    dsimp only
    rw [if_neg (by omega), Int.toNat_natCast, Nat.shiftLeft_eq, Nat.mod_eq_of_lt (by omega)]
  have hexp : (exponentaBias + mantissaSize - ((52 - u.log2 : Nat) : Int) : Int).toNat =
      1023 + u.log2 := by
    unfold exponentaBias mantissaSize
    omega
  unfold magnitude
  rw [hscale]
  dsimp only
  rw [hexp, Nat.shiftLeft_eq]
  rfl

-- the mantissa that overflows is rounded anew, one bit shorter
theorem roundMantissa_overflow {u s : Nat} (hq : u / 2 ^ s = 2 ^ 53 - 1) (hu : u + 2 ^ s < 2 ^ 64) :
    roundMantissa u (-(s + 1 : Nat)) = 2 ^ 52 := by
  have hpow : 2 ^ (s + 1) = 2 ^ s * 2 := pow_succ 2 s
  have hpos : 0 < 2 ^ s := Nat.two_pow_pos s
  have hlsb : u / (2 ^ s * 2) % 2 = 1 := by
    rw [← Nat.div_div_eq_div_mul, hq]
    rfl
  rw [roundMantissa_eq (by rwa [Nat.add_sub_cancel]), Nat.add_sub_cancel, hpow, hlsb]
  have hdiv := Nat.div_add_mod u (2 ^ s)
  have hmod := Nat.mod_lt u hpos
  rw [hq] at hdiv
  rw [Nat.div_eq_iff (by omega)]
  omega

-- `s` bits are cut off
theorem magnitude_large {u s : Nat} (hs : u.log2 = 52 + s) (hpos : 1 ≤ s) (hu : u ≤ 2 ^ 63) :
    magnitude u = (1075 + s) * 2 ^ 52 + (roundMantissa u (-s) - 2 ^ 52) ∧
      2 ^ 52 ≤ roundMantissa u (-s) ∧ roundMantissa u (-s) ≤ 2 ^ 53 := by
  have h0 : u ≠ 0 := by
    intro h
    rw [h, Nat.log2_zero] at hs
    omega
  have hlog : u.log2 < 64 := (Nat.log2_lt h0).mpr (by omega)
  have hsmall : 2 ^ s ≤ 2 ^ 11 := Nat.pow_le_pow_right Nat.two_pos (by omega)
  have hhalf : 2 ^ (s - 1) ≤ 2 ^ s := Nat.pow_le_pow_right Nat.two_pos (by omega)
  have ⟨hq, hq', _⟩ := roundMantissa_spec hpos (by omega : u + 2 ^ (s - 1) < 2 ^ 64)
  have hlo : 2 ^ 52 ≤ u / 2 ^ s := by
    rw [Nat.le_div_iff_mul_le (Nat.two_pow_pos s), ← pow_add, ← hs]
    exact Nat.log2_self_le h0
  have hhi : u / 2 ^ s < 2 ^ 53 := by
    rw [Nat.div_lt_iff_lt_mul (Nat.two_pow_pos s), ← pow_add,
      show 53 + s = u.log2 + 1 by omega]
    exact Nat.lt_log2_self
  refine ⟨?_, hlo.trans hq, hq'.trans hhi⟩
  have hshift : (clz64 u : Int) - (64 - mantissaSize - 1 : Int) = -(s : Int) := by
    rw [clz64_eq (by omega) h0]
    unfold mantissaSize
    omega
  have hneg : -(s : Int) < 0 := by omega
  unfold magnitude scale
  rw [hshift, if_pos hneg]
  dsimp only
  by_cases hover : mantissaAmax < roundMantissa u (-s)
  · have htop : roundMantissa u (-s) = 2 ^ 53 := by
      unfold mantissaAmax at hover
      omega
    have hnext : -(s : Int) - 1 = -((s + 1 : Nat) : Int) := by omega
    have hexp : (exponentaBias + mantissaSize - -((s + 1 : Nat) : Int) : Int).toNat = 1076 + s := by
      unfold exponentaBias mantissaSize
      omega
    rw [if_pos hover, hnext]
    dsimp only
    rw [roundMantissa_overflow (by omega) (by omega), hexp, Nat.shiftLeft_eq, htop]
    unfold mantissaSize implicitLead
    omega
  · have hexp : (exponentaBias + mantissaSize - -(s : Int) : Int).toNat = 1075 + s := by
      unfold exponentaBias mantissaSize
      omega
    rw [if_neg hover]
    dsimp only
    rw [hexp, Nat.shiftLeft_eq]
    rfl

/-! ## 3. The nearest double -/

/-- The bits are those of the double nearest to `u`, and its value is an integer. -/
structure Encodes (u bits : Nat) : Prop where
  pos : 0 < bits
  finite : bits < 2047 * 2 ^ 52
  nearest : Nearest (u * unit : Nat) ⟨false, bits, finite⟩
  whole : scaled bits = scaled bits / unit * unit
  exact : u ≤ 2 ^ 53 → scaled bits = u * unit

theorem whole_of_eq {n k : Nat} (h : n = k * unit) : n = n / unit * unit := by
  rw [h, Nat.mul_div_cancel k unit_pos]

theorem small_encodes {u : Nat} (h0 : u ≠ 0) (hu : u < 2 ^ 53) : Encodes u (magnitude u) := by
  have hlog : u.log2 ≤ 52 := Nat.le_of_lt_succ ((Nat.log2_lt h0).mpr hu)
  have ⟨hlo, hhi⟩ := lead_bounds h0 hlog
  have hbits := magnitude_small h0 hu
  have hscaled : scaled (magnitude u) = u * unit := by
    have hexp : 52 - u.log2 + (1023 + u.log2 - 1) = leastExponent := by
      unfold leastExponent
      omega
    rw [hbits, scaled_mantissa (by omega) hlo hhi.le, Nat.mul_assoc, ← pow_add, hexp]
    rfl
  have hfinite : magnitude u < 2047 * 2 ^ 52 := by omega
  exact ⟨by omega, hfinite, nearest_exact hfinite hscaled, whole_of_eq hscaled, fun _ => hscaled⟩

theorem large_encodes {u s : Nat} (hs : u.log2 = 52 + s) (hpos : 1 ≤ s) (hu : u ≤ 2 ^ 63) :
    Encodes u (magnitude u) := by
  have h0 : u ≠ 0 := by
    intro h
    rw [h, Nat.log2_zero] at hs
    omega
  have hlog : u.log2 < 64 := (Nat.log2_lt h0).mpr (by omega)
  have hfloor : 2 ^ 52 * 2 ^ s ≤ u := by
    rw [← pow_add, ← hs]
    exact Nat.log2_self_le h0
  have hhalf : 2 ^ (s - 1) ≤ 2 ^ 11 := Nat.pow_le_pow_right Nat.two_pos (by omega)
  have ⟨_, _, hbelow, habove, htie⟩ := roundMantissa_spec hpos (by omega : u + 2 ^ (s - 1) < 2 ^ 64)
  have ⟨hbits, hlo, hhi⟩ := magnitude_large hs hpos hu
  have hunits : 2 ^ (1075 + s - 1) = 2 ^ s * unit := by
    have hexp : 1075 + s - 1 = s + leastExponent := by
      unfold leastExponent
      omega
    rw [hexp, pow_least]
  generalize roundMantissa u (-s) = m at hbelow habove htie hbits hlo hhi
  have hpow : 2 ≤ 2 ^ s := Nat.le_self_pow (by omega) 2
  generalize 2 ^ s = h at hfloor hbelow habove htie hunits hpow
  have hscaled : scaled (magnitude u) = m * h * unit := by
    rw [hbits, scaled_mantissa (by omega) hlo hhi, hunits, Nat.mul_assoc]
  have hfinite : magnitude u < 2047 * 2 ^ 52 := by omega
  -- the next number is a last place away at least, the one before only behind a power of two less
  have hnext : (m * h + h) * unit ≤ scaled (magnitude u + 1) := by
    by_cases htop : m = 2 ^ 53
    · have hbits' : magnitude u + 1 = (1075 + s + 1) * 2 ^ 52 + (2 ^ 52 + 1 - 2 ^ 52) := by omega
      have hexp : 2 ^ (1075 + s + 1 - 1) = 2 * (h * unit) := by
        rw [← hunits, ← pow_succ', show 1075 + s - 1 + 1 = 1075 + s + 1 - 1 by omega]
      rw [hbits', scaled_mantissa (by omega) (by omega) (by omega), hexp, htop]
      have hle : (2 ^ 53 * h + h) * unit ≤ (2 ^ 53 + 2) * (h * unit) := by
        rw [← Nat.succ_mul, Nat.mul_assoc]
        exact Nat.mul_le_mul_right _ (by omega)
      exact hle.trans (le_of_eq (by ring))
    · have hbits' : magnitude u + 1 = (1075 + s) * 2 ^ 52 + (m + 1 - 2 ^ 52) := by omega
      rw [hbits', scaled_mantissa (by omega) (by omega) (by omega), hunits, ← Nat.mul_assoc,
        Nat.succ_mul]
  have hprev : m = 2 ^ 52 ∨ scaled (magnitude u - 1) + h * unit = m * h * unit := by
    by_cases hbot : m = 2 ^ 52
    · exact Or.inl hbot
    · have hbits' : magnitude u - 1 = (1075 + s) * 2 ^ 52 + (m - 1 - 2 ^ 52) := by omega
      refine Or.inr ?_
      rw [hbits', scaled_mantissa (by omega) (by omega) (by omega), hunits, Nat.mul_assoc m,
        ← Nat.succ_mul, Nat.succ_eq_add_one, Nat.sub_add_cancel (by omega)]
  have hpred : scaled (magnitude u - 1) < scaled (magnitude u) := scaled_strictMono (by omega)
  have hnearest : Nearest (u * unit : Nat) ⟨false, magnitude u, hfinite⟩ := by
    have hbelow' : 2 * (m * h * unit) ≤ 2 * (u * unit) + h * unit := by
      have := Nat.mul_le_mul_right unit hbelow
      rwa [Nat.add_mul, Nat.mul_assoc, Nat.mul_assoc 2 u] at this
    have habove' : 2 * (u * unit) ≤ 2 * (m * h * unit) + h * unit := by
      have := Nat.mul_le_mul_right unit habove
      rwa [Nat.add_mul, Nat.mul_assoc, Nat.mul_assoc 2 (m * h)] at this
    have hfloor' : m = 2 ^ 52 → m * h * unit ≤ u * unit := fun hm =>
      Nat.mul_le_mul_right unit (hm ▸ hfloor)
    rw [Nat.add_mul] at hnext
    rw [hscaled] at hpred
    refine nearest_of_neighbours hfinite (Or.inr ?_) ?_ ?_
    · rw [hscaled]
      rcases hprev with hbot | hprev
      · have := hfloor' hbot
        omega
      · omega
    · rw [hscaled]
      omega
    · rw [hscaled]
      -- in the middle between two numbers the mantissa is even
      have heven : m % 2 = 0 → magnitude u % 2 = 0 := fun hm => by omega
      rintro (⟨_, heq⟩ | heq)
      · rcases hprev with hbot | hprev
        · omega
        · refine heven (htie (Or.inl ?_))
          apply Nat.eq_of_mul_eq_mul_right unit_pos
          rw [Nat.add_mul, Nat.mul_assoc, Nat.mul_assoc 2 u]
          omega
      · refine heven (htie (Or.inr ?_))
        apply Nat.eq_of_mul_eq_mul_right unit_pos
        rw [Nat.add_mul, Nat.mul_assoc, Nat.mul_assoc 2 (m * h)]
        omega
  refine ⟨by omega, hfinite, hnearest, whole_of_eq hscaled, fun hsmall => ?_⟩
  have hm : m = 2 ^ 52 := by
    have hh : h = 2 := by omega
    rw [hh] at hbelow
    omega
  have hh : h = 2 := by omega
  rw [hscaled, hm, hh]
  rw [show u = 2 ^ 52 * 2 by omega]

theorem magnitude_encodes {u : Nat} (h0 : u ≠ 0) (hu : u ≤ 2 ^ 63) : Encodes u (magnitude u) := by
  by_cases hsmall : u < 2 ^ 53
  · exact small_encodes h0 hsmall
  · have hlog : ¬u.log2 < 53 := fun h => hsmall ((Nat.log2_lt h0).mp h)
    exact large_encodes (s := u.log2 - 52) (by omega) (by omega) hu

/-! ## 4. What comes back -/

theorem keyOf_toNat (d : Double) :
    (keyOf d).toNat = if d.neg then 2 ^ 63 - 1 - d.bits else 2 ^ 63 + d.bits := by
  have hfinite := d.finite
  have hsize : ((if d.neg then 2 ^ 63 else 0) + d.bits) < 2 ^ 64 := by
    split_ifs <;> omega
  have hbits : (ofDouble d).toNat = (if d.neg then 2 ^ 63 else 0) + d.bits := by
    unfold ofDouble
    rw [UInt64.toNat_ofNat', Nat.mod_eq_of_lt hsize]
  have hsign : 0x8000000000000000 ≤ ofDouble d ↔ d.neg = true := by
    rw [UInt64.le_iff_toNat_le, hbits]
    change 2 ^ 63 ≤ _ ↔ _
    split_ifs with hneg
    · exact iff_of_true (Nat.le_add_right _ _) hneg
    · exact iff_of_false (by omega) hneg
  unfold keyOf double2key
  by_cases hneg : d.neg = true
  · rw [if_pos hneg] at hbits
    have hle : ofDouble d ≤ 0xffffFFFFffffFFFF := by
      rw [UInt64.le_iff_toNat_le, hbits]
      change _ ≤ 2 ^ 64 - 1
      omega
    rw [if_pos (hsign.mpr hneg), if_pos hneg, UInt64.toNat_sub_of_le _ _ hle, hbits]
    change 2 ^ 64 - 1 - _ = _
    omega
  · rw [if_neg hneg] at hbits
    have hlead : (0x8000000000000000 : UInt64).toNat = 2 ^ 63 := rfl
    rw [if_neg fun h => hneg (hsign.mp h), if_neg hneg, UInt64.toNat_add, hbits, hlead]
    omega

/-- The value without its fraction. -/
def integerPart (bits : Nat) : Nat := scaled bits / unit

theorem scaled_one : scaled (1023 * 2 ^ 52) = unit := by
  have h := @scaled_mantissa 1023 (2 ^ 52) (by decide) le_rfl (by decide)
  have hexp : 52 + (1023 - 1) = leastExponent := rfl
  rw [Nat.sub_self, Nat.add_zero] at h
  rw [h, ← pow_add, hexp]
  rfl

theorem scaled_limit : scaled (1086 * 2 ^ 52) = 2 ^ 63 * unit := by
  have h := @scaled_mantissa 1086 (2 ^ 52) (by decide) le_rfl (by decide)
  have hexp : 52 + (1086 - 1) = 63 + leastExponent := rfl
  rw [Nat.sub_self, Nat.add_zero] at h
  rw [h, ← pow_add, hexp, pow_least]

theorem integerPart_mono {a b : Nat} (h : a ≤ b) : integerPart a ≤ integerPart b :=
  Nat.div_le_div_right (scaled_strictMono.monotone h)

theorem integerPart_small {b : Nat} (h : b < 1023 * 2 ^ 52) : integerPart b = 0 := by
  apply Nat.div_eq_of_lt
  rw [← scaled_one]
  exact scaled_strictMono h

theorem integerPart_limit {b : Nat} : 2 ^ 63 ≤ integerPart b ↔ 1086 * 2 ^ 52 ≤ b := by
  unfold integerPart
  rw [Nat.le_div_iff_mul_le unit_pos, ← scaled_limit]
  exact scaled_strictMono.le_iff_le

-- the shifts of the decoder cut the fraction off
theorem integerPart_shift {b : Nat} (hlo : 1023 * 2 ^ 52 ≤ b) (hhi : b < 1086 * 2 ^ 52) :
    ((2 ^ 52 + b % 2 ^ 52) * 2 ^ 11) / 2 ^ (1086 - b / 2 ^ 52) = integerPart b := by
  have hscaled : scaled b = (2 ^ 52 + b % 2 ^ 52) * 2 ^ (b / 2 ^ 52 - 1) := if_neg (by omega)
  unfold integerPart unit leastExponent
  rw [hscaled]
  have he : 1023 ≤ b / 2 ^ 52 := by omega
  have he' : b / 2 ^ 52 < 1086 := by omega
  generalize b / 2 ^ 52 = e at he he'
  generalize 2 ^ 52 + b % 2 ^ 52 = m
  by_cases hfrac : e ≤ 1075
  · have hleft : 2 ^ (1086 - e) = 2 ^ (1075 - e) * 2 ^ 11 := by
      rw [← pow_add]
      congr 1
      omega
    have hright : 2 ^ 1074 = 2 ^ (1075 - e) * 2 ^ (e - 1) := by
      rw [← pow_add]
      congr 1
      omega
    rw [hleft, hright, Nat.mul_div_mul_right _ _ (Nat.two_pow_pos _),
      Nat.mul_div_mul_right _ _ (Nat.two_pow_pos _)]
  · have hleft : 2 ^ 11 = 2 ^ (e - 1075) * 2 ^ (1086 - e) := by
      rw [← pow_add]
      congr 1
      omega
    have hright : 2 ^ (e - 1) = 2 ^ (e - 1075) * 2 ^ 1074 := by
      rw [← pow_add]
      congr 1
      omega
    rw [hleft, hright, ← Nat.mul_assoc, ← Nat.mul_assoc, Nat.mul_div_cancel _ (Nat.two_pow_pos _),
      Nat.mul_div_cancel _ (Nat.two_pow_pos _)]

theorem toInt_of_small {n : Int} (hlo : -2 ^ 63 ≤ n) (hhi : n < 2 ^ 63) :
    (Int64.ofInt n).toInt = n := Int64.toInt_ofInt_of_le hlo hhi

/-- The integer part comes back with its sign, saturated; except where the key is that of zero. -/
theorem fromKey_keyOf (d : Double) (h0 : d.neg = false → d.bits ≠ 0) :
    (jsonIntegerFromKey (keyOf d)).toInt =
      if d.neg then -((min (integerPart d.bits) (2 ^ 63) : Nat) : Int)
      else ((min (integerPart d.bits) (2 ^ 63 - 1) : Nat) : Int) := by
  have hfinite := d.finite
  have hkey := keyOf_toNat d
  have hcov : (if bias < (keyOf d).toNat then (keyOf d).toNat - bias
      else ((bias - (keyOf d).toNat - 1 : Int) % 2 ^ 64).toNat) = d.bits := by
    unfold bias
    cases hneg : d.neg with
    | true =>
      rw [hneg, if_pos rfl] at hkey
      rw [hkey]
      split_ifs <;> omega
    | false =>
      have := h0 hneg
      rw [hneg, if_neg Bool.false_ne_true] at hkey
      rw [hkey]
      split_ifs <;> omega
  have hsign : (keyOf d).toNat < bias ↔ d.neg = true := by
    unfold bias
    rw [hkey]
    split_ifs with hneg
    · exact iff_of_true (by omega) hneg
    · exact iff_of_false (by omega) hneg
  have hexp : exponentaMax &&& (d.bits >>> mantissaSize) = d.bits / 2 ^ 52 := by
    have hmask : exponentaMax = 2 ^ 11 - 1 := rfl
    rw [hmask, Nat.and_comm, Nat.and_two_pow_sub_one_eq_mod, Nat.shiftRight_eq_div_pow]
    exact Nat.mod_eq_of_lt (by unfold mantissaSize; omega)
  unfold jsonIntegerFromKey
  dsimp only
  rw [hcov, hexp]
  unfold exponentaBias
  by_cases hlimit : 1086 * 2 ^ 52 ≤ d.bits
  · have hpart := integerPart_limit.mpr hlimit
    rw [if_pos (by omega), Nat.min_eq_right hpart, Nat.min_eq_right (by omega)]
    by_cases hneg : d.neg = true
    · rw [if_pos (hsign.mpr hneg), if_pos hneg]
      rfl
    · rw [if_neg fun h => hneg (hsign.mp h), if_neg hneg]
      rfl
  · have hpart : ¬2 ^ 63 ≤ integerPart d.bits := fun h => hlimit (integerPart_limit.mp h)
    rw [if_neg (by omega), Nat.min_eq_left (by omega), Nat.min_eq_left (by omega)]
    by_cases hsmall : d.bits < 1023 * 2 ^ 52
    · rw [if_pos (by omega), integerPart_small hsmall]
      split_ifs <;> rfl
    · have hmask : mantissaMask = 2 ^ 52 - 1 := rfl
      have hunscaled : ((d.bits &&& mantissaMask) <<< (63 - mantissaSize)) + bias =
          (2 ^ 52 + d.bits % 2 ^ 52) * 2 ^ 11 := by
        rw [hmask, Nat.and_two_pow_sub_one_eq_mod, Nat.shiftLeft_eq]
        unfold mantissaSize bias
        omega
      rw [if_neg (by omega), hunscaled, Nat.shiftRight_eq_div_pow]
      have habsolute := integerPart_shift (Nat.not_lt.mp hsmall) (Nat.not_le.mp hlimit)
      have hnat : ((1023 : Nat) + 63 - (d.bits / 2 ^ 52 : Nat) : Int).toNat = 1086 - d.bits / 2 ^ 52 := by
        omega
      rw [hnat, habsolute]
      by_cases hneg : d.neg = true
      · rw [if_pos (hsign.mpr hneg), if_pos hneg]
        exact toInt_of_small (by omega) (by omega)
      · rw [if_neg fun h => hneg (hsign.mp h), if_neg hneg]
        exact toInt_of_small (by omega) (by omega)

/-! ## 5. There and back -/

-- the double of an integer
theorem keyFromJsonInteger_eq {n : Int64} (h0 : n ≠ 0) : ∃ d : Double,
    keyFromJsonInteger n = keyOf d ∧ (d.neg = true ↔ n.toInt < 0) ∧
      Encodes n.toInt.natAbs d.bits := by
  have hlo := n.le_toInt
  have hhi := n.toInt_lt
  have hne : n.toInt ≠ 0 := fun h => h0 (Int64.toInt_inj.mp h)
  have henc := @magnitude_encodes n.toInt.natAbs (by omega) (by omega)
  have hpos := henc.pos
  have hfinite := henc.finite
  refine ⟨⟨decide (n.toInt < 0), magnitude n.toInt.natAbs, henc.finite⟩, ?_, decide_eq_true_iff, henc⟩
  apply UInt64.toNat_inj.mp
  rw [keyOf_toNat]
  unfold keyFromJsonInteger bias
  dsimp only
  by_cases hsign : 0 < n.toInt
  · have habs : n.toInt.toNat = n.toInt.natAbs := by omega
    rw [if_pos hsign, UInt64.toNat_ofNat', habs, Nat.mod_eq_of_lt (by omega),
      if_neg (by rw [decide_eq_true_iff]; omega)]
  · have habs : (-n.toInt).toNat = n.toInt.natAbs := by omega
    have hneg : n.toInt < 0 := by omega
    rw [if_neg hsign, if_pos hneg, UInt64.toNat_ofNat', habs, Nat.mod_eq_of_lt (by omega),
      if_pos (decide_eq_true hneg)]

/-- The range of `int64_t`, in the units of doubles. -/
def saturated (v : Int) : Int := max (-2 ^ 63 * unit) (min ((2 ^ 63 - 1) * unit) v)

theorem saturated_nonneg (k : Nat) :
    saturated (k * unit : Nat) = (min k (2 ^ 63 - 1) * unit : Nat) := by
  have hunit := unit_pos
  unfold saturated
  rcases Nat.le_total k (2 ^ 63 - 1) with h | h
  · have hle := Nat.mul_le_mul_right unit h
    rw [Nat.min_eq_left h]
    omega
  · have hle := Nat.mul_le_mul_right unit h
    rw [Nat.min_eq_right h]
    omega

theorem saturated_neg (k : Nat) :
    saturated (-(k * unit : Nat)) = -(min k (2 ^ 63) * unit : Nat) := by
  have hunit := unit_pos
  unfold saturated
  rcases Nat.le_total k (2 ^ 63) with h | h
  · have hle := Nat.mul_le_mul_right unit h
    rw [Nat.min_eq_left h]
    omega
  · have hle := Nat.mul_le_mul_right unit h
    rw [Nat.min_eq_right h]
    omega

-- an integer comes back as its double has it
theorem fromKey_whole (d : Double) (h0 : d.neg = false → d.bits ≠ 0)
    (hwhole : scaled d.bits = integerPart d.bits * unit) :
    (jsonIntegerFromKey (keyOf d)).toInt * unit = saturated d.value := by
  rw [fromKey_keyOf d h0]
  unfold Double.value
  by_cases hneg : d.neg = true
  · rw [if_pos hneg, if_pos hneg, hwhole, saturated_neg, Int.neg_mul, Int.natCast_mul]
  · rw [if_neg hneg, if_neg hneg, hwhole, saturated_nonneg, Int.natCast_mul]

/-- The bits with the sign of the integer are those of its nearest double. -/
theorem Encodes.nearest_signed {n : Int64} {d : Double} (henc : Encodes n.toInt.natAbs d.bits)
    (hneg : d.neg = true ↔ n.toInt < 0) : Nearest (n.toInt * unit) d := by
  have hnearest := henc.nearest
  by_cases hsign : n.toInt < 0
  · have hx : n.toInt * unit = -((n.toInt.natAbs * unit : Nat) : Int) := by
      rw [Int.natCast_mul, ← Int.neg_mul]
      congr 1
      omega
    have hd : d = Double.negated ⟨false, d.bits, henc.finite⟩ := by
      have htrue := hneg.mpr hsign
      cases d
      exact congrArg (Double.mk · _ _) htrue
    rw [hx, hd]
    exact hnearest.negated
  · have hx : n.toInt * unit = ((n.toInt.natAbs * unit : Nat) : Int) := by
      rw [Int.natCast_mul]
      congr 1
      omega
    have hd : d = ⟨false, d.bits, henc.finite⟩ := by
      have hfalse : d.neg = false := Bool.eq_false_iff.mpr fun h => hsign (hneg.mp h)
      cases d
      exact congrArg (Double.mk · _ _) hfalse
    rw [hx, hd]
    exact hnearest

theorem fromKey_fromJson {n : Int64} (h0 : n ≠ 0) : ∃ d, Nearest (n.toInt * unit) d ∧
    (jsonIntegerFromKey (keyFromJsonInteger n)).toInt * unit = saturated d.value ∧
    (n.toInt.natAbs ≤ 2 ^ 53 → d.value = n.toInt * unit) := by
  have ⟨d, hkey, hneg, henc⟩ := keyFromJsonInteger_eq h0
  have hvalue := fromKey_whole d (fun _ => Nat.ne_of_gt henc.pos) henc.whole
  rw [hkey]
  refine ⟨d, henc.nearest_signed hneg, hvalue, fun hsmall => ?_⟩
  unfold Double.value
  rw [henc.exact hsmall, Int.natCast_mul]
  split_ifs with h
  · rw [← Int.neg_mul]
    congr 1
    have := hneg.mp h
    omega
  · congr 1
    have : ¬n.toInt < 0 := fun hs => h (hneg.mpr hs)
    omega

/-! ## 6. The key of zero -/

theorem zero_toNat : (keyFromJsonInteger 0).toNat = 2 ^ 63 := rfl

theorem fromKey_zero : jsonIntegerFromKey (keyFromJsonInteger 0) = Int64.maxValue := by decide

-- between the numbers of the format and the limit is a gap
theorem integerPart_gap {b : Nat} (h : 2 ^ 63 - 1 ≤ integerPart b) : 2 ^ 63 ≤ integerPart b := by
  by_contra hno
  have hb : b ≤ 1085 * 2 ^ 52 + (2 ^ 53 - 1 - 2 ^ 52) := by
    have := mt integerPart_limit.mpr hno
    omega
  have hscaled := @scaled_mantissa 1085 (2 ^ 53 - 1) (by decide) (by decide) (by decide)
  have hexp : 1085 - 1 = 10 + leastExponent := rfl
  have hpart : integerPart (1085 * 2 ^ 52 + (2 ^ 53 - 1 - 2 ^ 52)) = (2 ^ 53 - 1) * 2 ^ 10 := by
    unfold integerPart
    rw [hscaled, hexp, pow_least, ← Nat.mul_assoc, Nat.mul_div_cancel _ unit_pos]
  have := integerPart_mono hb
  omega

theorem keyOf_zero_iff (d : Double) :
    keyOf d = keyFromJsonInteger 0 ↔ d.neg = false ∧ d.bits = 0 := by
  have hfinite := d.finite
  rw [← UInt64.toNat_inj, zero_toNat, keyOf_toNat]
  cases d.neg with
  | true =>
    rw [if_pos rfl]
    exact iff_of_false (by omega) fun h => nomatch h.1
  | false =>
    rw [if_neg Bool.false_ne_true]
    exact ⟨fun h => ⟨rfl, by omega⟩, fun h => by omega⟩

-- keys are in the order of the values, and so is what comes back
theorem fromKey_mono {d d' : Double} (hle : keyOf d ≤ keyOf d')
    (h0 : keyOf d ≠ keyFromJsonInteger 0) :
    jsonIntegerFromKey (keyOf d) ≤ jsonIntegerFromKey (keyOf d') := by
  rw [Int64.le_iff_toInt_le]
  have hd := d.finite
  have hd' := d'.finite
  by_cases h0' : keyOf d' = keyFromJsonInteger 0
  · rw [h0', fromKey_zero]
    exact Int.le_of_lt_add_one (jsonIntegerFromKey (keyOf d)).toInt_lt
  · have hnot : ∀ {d : Double}, keyOf d ≠ keyFromJsonInteger 0 → d.neg = false → d.bits ≠ 0 :=
      fun hne hneg hbits => hne ((keyOf_zero_iff _).mpr ⟨hneg, hbits⟩)
    rw [fromKey_keyOf d (hnot h0), fromKey_keyOf d' (hnot h0')]
    rw [UInt64.le_iff_toNat_le, keyOf_toNat, keyOf_toNat] at hle
    by_cases hneg : d.neg = true
    · rw [if_pos hneg] at hle ⊢
      by_cases hneg' : d'.neg = true
      · rw [if_pos hneg'] at hle ⊢
        have hmono := integerPart_mono (by omega : d'.bits ≤ d.bits)
        omega
      · rw [if_neg hneg']
        omega
    · rw [if_neg hneg] at hle ⊢
      by_cases hneg' : d'.neg = true
      · rw [if_pos hneg'] at hle
        omega
      · rw [if_neg hneg'] at hle ⊢
        have hmono := integerPart_mono (by omega : d.bits ≤ d'.bits)
        omega

-- what is not less than the key of zero comes back as large only behind the limit
theorem zero_le_fromKey (d : Double) (hle : keyFromJsonInteger 0 ≤ keyOf d) :
    jsonIntegerFromKey (keyFromJsonInteger 0) ≤ jsonIntegerFromKey (keyOf d) ↔
      keyOf d = keyFromJsonInteger 0 ∨ (2 ^ 63 * unit : Nat) ≤ d.value := by
  by_cases h0 : keyOf d = keyFromJsonInteger 0
  · rw [h0]
    exact iff_of_true (Int64.le_refl _) (Or.inl rfl)
  · have hfinite := d.finite
    have hneg : ¬d.neg = true := by
      intro hneg
      rw [UInt64.le_iff_toNat_le, zero_toNat, keyOf_toNat, if_pos hneg] at hle
      omega
    have hbits : d.neg = false → d.bits ≠ 0 := fun h hb => h0 ((keyOf_zero_iff d).mpr ⟨h, hb⟩)
    have hmax : Int64.maxValue.toInt = 2 ^ 63 - 1 := rfl
    have hvalue : (2 ^ 63 * unit : Nat) ≤ d.value ↔ 2 ^ 63 ≤ integerPart d.bits := by
      unfold Double.value integerPart
      rw [if_neg hneg, Int.ofNat_le, Nat.le_div_iff_mul_le unit_pos]
    rw [or_iff_right h0, hvalue, Int64.le_iff_toInt_le, fromKey_zero, hmax, fromKey_keyOf d hbits,
      if_neg hneg]
    exact ⟨fun h => integerPart_gap (by omega), fun h => by omega⟩

/-- Integers come back from their keys, or as the nearest double has them, exactly if they are not
zero; what comes back is in the order of the keys of all finite doubles, but for the key of zero. -/
theorem jsonInteger_round_trip (n : Int64) (d d' : Double) :
    (n.toInt.natAbs ≤ 2 ^ 53 →
      (jsonIntegerFromKey (keyFromJsonInteger n) = n ↔ n ≠ 0)) ∧
    (2 ^ 53 < n.toInt.natAbs → ∃ d, Nearest (n.toInt * unit) d ∧
      (jsonIntegerFromKey (keyFromJsonInteger n)).toInt * unit = saturated d.value) ∧
    (keyOf d ≤ keyOf d' →
      (jsonIntegerFromKey (keyOf d) ≤ jsonIntegerFromKey (keyOf d') ↔
        (keyOf d = keyFromJsonInteger 0 →
          keyOf d' = keyFromJsonInteger 0 ∨ (2 ^ 63 * unit : Nat) ≤ d'.value))) := by
  refine ⟨fun hsmall => ?_, fun hlarge => ?_, fun hle => ?_⟩
  · constructor
    · intro heq h0
      rw [h0, fromKey_zero] at heq
      exact absurd heq (by decide)
    · intro h0
      have ⟨d, _, hback, hexact⟩ := fromKey_fromJson h0
      rw [hexact hsmall] at hback
      apply Int64.toInt_inj.mp
      have hlo := n.le_toInt
      have hhi := n.toInt_lt
      have hpos : (0 : Int) ≤ unit := Int.natCast_nonneg unit
      have hbelow := Int.mul_le_mul_of_nonneg_right hlo hpos
      have habove := Int.mul_le_mul_of_nonneg_right (Int.le_sub_one_of_lt hhi) hpos
      have hsat : saturated (n.toInt * unit) = n.toInt * unit := by
        unfold saturated
        rw [min_eq_right habove, max_eq_right hbelow]
      rw [hsat] at hback
      exact Int.eq_of_mul_eq_mul_right (by have := unit_pos; omega) hback
  · have h0 : n ≠ 0 := by
      intro h
      rw [h] at hlarge
      exact absurd hlarge (by decide)
    have ⟨d, hnearest, hback, _⟩ := fromKey_fromJson h0
    exact ⟨d, hnearest, hback⟩
  · by_cases h0 : keyOf d = keyFromJsonInteger 0
    · rw [h0] at hle ⊢
      rw [zero_le_fromKey d' hle]
      exact ⟨fun h _ => h, fun h => h rfl⟩
    · exact iff_of_true (fromKey_mono hle h0) fun h => absurd h h0

-- the bias less the key less one is no exponent
theorem zero_comes_back_as_largest : (0 : Int64).toInt.natAbs ≤ 2 ^ 53 ∧
    jsonIntegerFromKey (keyFromJsonInteger 0) = Int64.maxValue ∧
    jsonIntegerFromKey (keyFromJsonInteger 0) ≠ 0 := by decide

end Mdbx.Keys
