import Mdbx.Geometry.Model
import Mathlib.Data.Nat.Log
import Mathlib.Tactic.IntervalCases

/-!
# Geometry.Packed — steps that are packed into 16 bits

`pages2pv` keeps a number of pages up to 32768 as it is, and so the even ones below 65536. Any
other number is rounded up to one of eight classes, with a mantissa of 11 bits each.
-/

namespace Mdbx.Geometry

/-! ## 1. Packing -/

def v2me (v e : Nat) : UInt16 :=
  let m := (v - 32768 + 2 ^ (e + 8) - 1) / 2 ^ (e + 8)
  let m := m - if 0 < m then 1 else 0
  UInt16.ofNat (0x8001 + e * 2 ^ 12 + m * 2)

def pages2pv (pages : Nat) : UInt16 :=
  if pages < 32769 ∨ (pages < 65536 ∧ pages % 2 = 0) then UInt16.ofNat pages
  else if pages ≤ me2v 2047 0 then v2me pages 0
  else if pages ≤ me2v 2047 1 then v2me pages 1
  else if pages ≤ me2v 2047 2 then v2me pages 2
  else if pages ≤ me2v 2047 3 then v2me pages 3
  else if pages ≤ me2v 2047 4 then v2me pages 4
  else if pages ≤ me2v 2047 5 then v2me pages 5
  else if pages ≤ me2v 2047 6 then v2me pages 6
  else if pages < me2v 2046 7 then v2me pages 7
  else 65533

/-- `pv2pages_verify`, with its answer only -/
def pv2pagesVerify : Bool :=
  (List.range 65536).all fun i =>
    let pages := pv2pages (UInt16.ofNat i)
    pages == pv2pages (pages2pv pages)

/-! ## 2. Classes of exponents -/

/-- The largest number of pages that a packed step stands for. -/
def maxStep : Nat := 67108864

theorem me2v_eq {m e : Nat} (hm : m < 2048) (he : e < 8) :
    me2v m e = 32768 + (m + 1) * 2 ^ (e + 8) := by
  have hpow : 2 ^ (e + 8) ≤ 2 ^ 15 := Nat.pow_le_pow_right (by decide) (by omega)
  have hmul : (m + 1) * 2 ^ (e + 8) ≤ 2048 * 2 ^ 15 := Nat.mul_le_mul (by omega) hpow
  unfold me2v pgnoT
  rw [Nat.mod_eq_of_lt (by omega)]

/-- The class of a number of pages that is not kept as it is. -/
def expClass (pages : Nat) : Nat := Nat.clog 2 (pages - 32768) - 19

theorem expClass_le_iff (pages e : Nat) :
    expClass pages ≤ e ↔ pages ≤ 32768 + 2048 * 2 ^ (e + 8) := by
  have hclog : Nat.clog 2 (pages - 32768) ≤ e + 19 ↔ pages - 32768 ≤ 2 ^ (e + 19) :=
    Nat.clog_le_iff_le_pow (by decide)
  have hpow : 2 ^ (e + 19) = 2048 * 2 ^ (e + 8) := by
    rw [show e + 19 = 11 + (e + 8) by omega, pow_add]
    rfl
  unfold expClass
  omega

/-- Rounded up within its class. -/
def roundUp (pages e : Nat) : Nat :=
  32768 + (pages - 32768 + 2 ^ (e + 8) - 1) / 2 ^ (e + 8) * 2 ^ (e + 8)

theorem le_roundUp (pages e : Nat) : pages ≤ roundUp pages e := by
  have hpos : 0 < 2 ^ (e + 8) := Nat.two_pow_pos _
  have hdiv := Nat.div_add_mod' (pages - 32768 + 2 ^ (e + 8) - 1) (2 ^ (e + 8))
  have hmod := Nat.mod_lt (pages - 32768 + 2 ^ (e + 8) - 1) hpos
  unfold roundUp
  omega

theorem roundUp_lt {pages : Nat} (hlo : 32768 ≤ pages) (e : Nat) :
    roundUp pages e < pages + 2 ^ (e + 8) := by
  have hpos : 0 < 2 ^ (e + 8) := Nat.two_pow_pos _
  have hdiv := Nat.div_mul_le_self (pages - 32768 + 2 ^ (e + 8) - 1) (2 ^ (e + 8))
  unfold roundUp
  omega

theorem roundUp_mono {p q : Nat} (hle : p ≤ q) (e : Nat) : roundUp p e ≤ roundUp q e := by
  unfold roundUp
  have hdiv : (p - 32768 + 2 ^ (e + 8) - 1) / 2 ^ (e + 8) ≤
      (q - 32768 + 2 ^ (e + 8) - 1) / 2 ^ (e + 8) := Nat.div_le_div_right (by omega)
  have hmul := Nat.mul_le_mul_right (2 ^ (e + 8)) hdiv
  omega

theorem roundUp_multiple (k e : Nat) :
    roundUp (32768 + k * 2 ^ (e + 8)) e = 32768 + k * 2 ^ (e + 8) := by
  have hpos : 0 < 2 ^ (e + 8) := Nat.two_pow_pos _
  unfold roundUp
  rw [show 32768 + k * 2 ^ (e + 8) - 32768 + 2 ^ (e + 8) - 1 =
      2 ^ (e + 8) - 1 + k * 2 ^ (e + 8) by omega,
    Nat.add_mul_div_right _ _ hpos, Nat.div_eq_of_lt (by omega), Nat.zero_add]

/-- What is at most a multiple of the quantum is rounded to at most that multiple. -/
theorem roundUp_le {pages k e : Nat} (hle : pages ≤ 32768 + k * 2 ^ (e + 8)) :
    roundUp pages e ≤ 32768 + k * 2 ^ (e + 8) := by
  rw [← roundUp_multiple k e]
  exact roundUp_mono hle e

/-! ## 3. Unpacking what was packed -/

-- `(pv & 0x8001) == 0x8001`: the marks of a packed exponent
theorem marked_iff (pv : UInt16) :
    pv &&& 0x8001 = 0x8001 ↔ 32768 ≤ pv.toNat ∧ pv.toNat % 2 = 1 := by
  have hlt := pv.toNat_lt
  have hbit : ∀ i < 16, Nat.testBit 0x8001 i = true → i = 0 ∨ i = 15 := by decide
  have hodd : pv.toNat.testBit 0 = true ↔ pv.toNat % 2 = 1 := by
    rw [Nat.testBit_zero, decide_eq_true_iff]
  have hhigh : pv.toNat.testBit 15 = true ↔ 32768 ≤ pv.toNat := by
    rw [Nat.testBit_eq_decide_div_mod_eq, decide_eq_true_iff]
    omega
  have hnat : pv &&& 0x8001 = 0x8001 ↔ pv.toNat &&& 0x8001 = 0x8001 := by
    rw [← UInt16.toNat_inj, UInt16.toNat_and]
    rfl
  rw [hnat, ← hodd, ← hhigh]
  constructor
  · intro hand
    have h15 : (pv.toNat &&& 0x8001).testBit 15 = true := by
      rw [hand]
      decide
    have h0 : (pv.toNat &&& 0x8001).testBit 0 = true := by
      rw [hand]
      decide
    rw [Nat.testBit_and, Bool.and_eq_true] at h15 h0
    exact ⟨h15.1, h0.1⟩
  · rintro ⟨h15, h0⟩
    apply Nat.eq_of_testBit_eq
    intro i
    rw [Nat.testBit_and]
    cases hi : Nat.testBit 0x8001 i with
    | false => rw [Bool.and_false]
    | true =>
      have hsmall : i < 16 := by
        by_contra hge
        have hlow : 0x8001 < 2 ^ i := Nat.lt_of_lt_of_le (by decide : 0x8001 < 2 ^ 16)
          (Nat.pow_le_pow_right (by decide) (by omega))
        rw [Nat.testBit_lt_two_pow hlow] at hi
        exact Bool.noConfusion hi
      rcases hbit i hsmall hi with rfl | rfl
      · rw [h0]
        rfl
      · rw [h15]
        rfl

theorem pv2pages_plain {pv : UInt16} (hplain : pv.toNat < 32768 ∨ pv.toNat % 2 = 0) :
    pv2pages pv = pv.toNat := by
  unfold pv2pages
  rw [if_pos]
  rw [ne_eq, marked_iff]
  omega

theorem exponent_toNat (pv : UInt16) : ((pv >>> 12) &&& 7).toNat = pv.toNat / 2 ^ 12 % 8 := by
  rw [UInt16.toNat_and, UInt16.toNat_shiftRight]
  exact (Nat.and_two_pow_sub_one_eq_mod _ 3).trans (by rw [Nat.shiftRight_eq_div_pow]; rfl)

theorem pv2pages_marked {pv : UInt16} (hmark : 32768 ≤ pv.toNat ∧ pv.toNat % 2 = 1)
    (hne : pv.toNat ≠ 65535) :
    pv2pages pv = 32768 + (pv.toNat / 2 % 2048 + 1) * 2 ^ (pv.toNat / 2 ^ 12 % 8 + 8) := by
  have hm : ((pv >>> 1) &&& 2047).toNat = pv.toNat / 2 % 2048 := by
    rw [UInt16.toNat_and, UInt16.toNat_shiftRight]
    exact (Nat.and_two_pow_sub_one_eq_mod _ 11).trans (by rw [Nat.shiftRight_eq_div_pow]; rfl)
  unfold pv2pages
  rw [if_neg, if_neg, hm, exponent_toNat, me2v_eq (Nat.mod_lt _ (by decide)) (Nat.mod_lt _ (by decide))]
  · intro heq
    apply hne
    rw [heq]
    rfl
  · rw [ne_eq, not_not, marked_iff]
    exact hmark

/-- One unit of the last place of a packed step. -/
def quantum (pv : UInt16) : Nat :=
  if pv &&& 0x8001 ≠ 0x8001 then 1 else 2 ^ (((pv >>> 12) &&& 7).toNat + 8)

theorem quantum_plain {pv : UInt16} (hplain : pv.toNat < 32768 ∨ pv.toNat % 2 = 0) :
    quantum pv = 1 := by
  unfold quantum
  rw [if_pos]
  rw [ne_eq, marked_iff]
  omega

theorem quantum_marked {pv : UInt16} (hmark : 32768 ≤ pv.toNat ∧ pv.toNat % 2 = 1) :
    quantum pv = 2 ^ (pv.toNat / 2 ^ 12 % 8 + 8) := by
  unfold quantum
  rw [if_neg, exponent_toNat]
  rw [ne_eq, not_not, marked_iff]
  exact hmark

/-- `v2me` rounds up within the class. -/
theorem v2me_unpacked {v e : Nat} (hlo : 32768 < v) (hhi : v ≤ 32768 + 2048 * 2 ^ (e + 8))
    (he : e < 8) (hmax : v < maxStep) :
    pv2pages (v2me v e) = roundUp v e ∧ quantum (v2me v e) = 2 ^ (e + 8) := by
  have hpos : 0 < 2 ^ (e + 8) := Nat.two_pow_pos _
  obtain ⟨k, hk⟩ : ∃ k, k = (v - 32768 + 2 ^ (e + 8) - 1) / 2 ^ (e + 8) := ⟨_, rfl⟩
  have hk0 : 0 < k := by
    rw [hk]
    exact Nat.div_pos (by omega) hpos
  have hk1 : k < 2049 := by
    rw [hk]
    exact Nat.div_lt_of_lt_mul (by omega)
  -- the packed value of all ones stands for something else
  have hk2 : e = 7 → k ≤ 2047 := by
    intro h7
    subst h7
    unfold maxStep at hmax
    omega
  unfold v2me roundUp
  rw [← hk]
  dsimp only
  rw [if_pos hk0]
  have hnat : (UInt16.ofNat (0x8001 + e * 2 ^ 12 + (k - 1) * 2)).toNat =
      0x8001 + e * 2 ^ 12 + (k - 1) * 2 := UInt16.toNat_ofNat_of_lt (by change _ < 65536; omega)
  have hm : (0x8001 + e * 2 ^ 12 + (k - 1) * 2) / 2 % 2048 + 1 = k := by omega
  have he' : (0x8001 + e * 2 ^ 12 + (k - 1) * 2) / 2 ^ 12 % 8 = e := by omega
  constructor
  · rw [pv2pages_marked (by rw [hnat]; omega) (by rw [hnat]; omega), hnat, hm, he']
  · rw [quantum_marked (by rw [hnat]; omega), hnat, he']

/-! ## 4. What a number of pages becomes -/

/-- Numbers that are kept as they are. -/
def Plain (pages : Nat) : Prop := pages < 32769 ∨ (pages < 65536 ∧ pages % 2 = 0)

instance (pages : Nat) : Decidable (Plain pages) :=
  inferInstanceAs (Decidable (pages < 32769 ∨ (pages < 65536 ∧ pages % 2 = 0)))

theorem pages2pv_plain {pages : Nat} (hplain : Plain pages) :
    pv2pages (pages2pv pages) = pages ∧ quantum (pages2pv pages) = 1 := by
  unfold Plain at hplain
  unfold pages2pv
  rw [if_pos hplain]
  have hnat : (UInt16.ofNat pages).toNat = pages :=
    UInt16.toNat_ofNat_of_lt (by change _ < 65536; omega)
  have heven : (UInt16.ofNat pages).toNat < 32768 ∨ (UInt16.ofNat pages).toNat % 2 = 0 := by
    rw [hnat]
    omega
  exact ⟨(pv2pages_plain heven).trans hnat, quantum_plain heven⟩

theorem expClass_lt {pages : Nat} (hmax : pages < maxStep) : expClass pages < 8 := by
  unfold maxStep at hmax
  exact Nat.lt_succ_of_le ((expClass_le_iff pages 7).mpr (by omega))

theorem pages2pv_class {pages : Nat} (hplain : ¬ Plain pages) (hmax : pages < maxStep) :
    pages2pv pages = v2me pages (expClass pages) := by
  have hlt := expClass_lt hmax
  have hone (e : Nat) (he : e < 8) : pages ≤ me2v 2047 e ↔ expClass pages ≤ e := by
    rw [me2v_eq (by decide) he, expClass_le_iff]
  have hlast : pages < me2v 2046 7 := by
    rw [me2v_eq (by decide) (by decide)]
    exact hmax
  unfold Plain at hplain
  unfold pages2pv
  rw [if_neg hplain, if_pos hlast]
  simp only [hone 0 (by decide), hone 1 (by decide), hone 2 (by decide), hone 3 (by decide),
    hone 4 (by decide), hone 5 (by decide), hone 6 (by decide)]
  generalize expClass pages = e at hlt
  interval_cases e <;> rfl

theorem pages2pv_max {pages : Nat} (hmax : maxStep ≤ pages) : pages2pv pages = 65533 := by
  have hne (e : Nat) (he : e < 7) : ¬ pages ≤ me2v 2047 e := by
    have hpow : 2 ^ (e + 8) ≤ 2 ^ 14 := Nat.pow_le_pow_right (by decide) (by omega)
    unfold maxStep at hmax
    rw [me2v_eq (by decide) (by omega)]
    omega
  have hlast : ¬ pages < me2v 2046 7 := by
    rw [me2v_eq (by decide) (by decide)]
    exact Nat.not_lt.mpr hmax
  have hplain : ¬ (pages < 32769 ∨ (pages < 65536 ∧ pages % 2 = 0)) := by
    unfold maxStep at hmax
    omega
  unfold pages2pv
  rw [if_neg hplain, if_neg (hne 0 (by decide)), if_neg (hne 1 (by decide)),
    if_neg (hne 2 (by decide)), if_neg (hne 3 (by decide)), if_neg (hne 4 (by decide)),
    if_neg (hne 5 (by decide)), if_neg (hne 6 (by decide)), if_neg hlast]

/-- The number of pages that comes back: as it was, rounded up in its class, or the largest. -/
def storedStep (pages : Nat) : Nat :=
  if Plain pages then pages
  else if pages < maxStep then roundUp pages (expClass pages)
  else maxStep

theorem pages2pv_stored (pages : Nat) : pv2pages (pages2pv pages) = storedStep pages := by
  unfold storedStep
  by_cases hplain : Plain pages
  · rw [if_pos hplain, (pages2pv_plain hplain).1]
  · rw [if_neg hplain]
    have hlo : 32768 < pages := by
      unfold Plain at hplain
      omega
    by_cases hmax : pages < maxStep
    · rw [if_pos hmax, pages2pv_class hplain hmax]
      exact (v2me_unpacked hlo ((expClass_le_iff _ _).mp (le_refl _)) (expClass_lt hmax) hmax).1
    · rw [if_neg hmax, pages2pv_max (Nat.not_lt.mp hmax)]
      decide

theorem le_storedStep (pages : Nat) : min pages maxStep ≤ storedStep pages := by
  unfold storedStep
  split_ifs
  · exact Nat.min_le_left _ _
  · exact (Nat.min_le_left _ _).trans (le_roundUp _ _)
  · exact Nat.min_le_right _ _

/-- Less than one unit of the last place is added. -/
theorem storedStep_lt (pages : Nat) : storedStep pages < pages + quantum (pages2pv pages) := by
  unfold storedStep
  by_cases hplain : Plain pages
  · rw [if_pos hplain, (pages2pv_plain hplain).2]
    exact Nat.lt_succ_self _
  · rw [if_neg hplain]
    have hlo : 32768 < pages := by
      unfold Plain at hplain
      omega
    by_cases hmax : pages < maxStep
    · rw [if_pos hmax, pages2pv_class hplain hmax,
        (v2me_unpacked hlo ((expClass_le_iff _ _).mp (le_refl _)) (expClass_lt hmax) hmax).2]
      exact roundUp_lt hlo.le _
    · rw [if_neg hmax, pages2pv_max (Nat.not_lt.mp hmax)]
      have hq : quantum 65533 = 2 ^ 15 := by decide
      omega

/-! ## 5. Every packed value is kept -/

/-- A multiple of the unit of a class stays, in whichever class it is. -/
theorem storedStep_multiple {k e : Nat} (hk : k ≤ 2048) (hmax : 32768 + k * 2 ^ (e + 8) ≤ maxStep) :
    storedStep (32768 + k * 2 ^ (e + 8)) = 32768 + k * 2 ^ (e + 8) := by
  unfold storedStep
  split_ifs with hplain hlt
  · rfl
  · have hle : expClass (32768 + k * 2 ^ (e + 8)) ≤ e :=
      (expClass_le_iff _ _).mpr (Nat.add_le_add_left (Nat.mul_le_mul_right _ hk) _)
    generalize expClass (32768 + k * 2 ^ (e + 8)) = e' at hle
    -- a unit of the class is a multiple of the unit of any class below
    have hpow : k * 2 ^ (e + 8) = k * 2 ^ (e - e') * 2 ^ (e' + 8) := by
      rw [Nat.mul_assoc, ← pow_add, show e - e' + (e' + 8) = e + 8 by omega]
    rw [hpow, roundUp_multiple]
  · omega

theorem pv2pages_le (pv : UInt16) : pv2pages pv ≤ maxStep := by
  have hlt := pv.toNat_lt
  unfold maxStep
  by_cases hmark : 32768 ≤ pv.toNat ∧ pv.toNat % 2 = 1
  · by_cases hne : pv.toNat = 65535
    · rw [show pv = 65535 from UInt16.toNat_inj.mp hne]
      decide
    · rw [pv2pages_marked hmark hne]
      have he : pv.toNat / 2 ^ 12 % 8 ≤ 6 ∨ pv.toNat / 2 ^ 12 % 8 = 7 := by omega
      rcases he with he | he
      · have hpow : 2 ^ (pv.toNat / 2 ^ 12 % 8 + 8) ≤ 2 ^ 14 :=
          Nat.pow_le_pow_right (by decide) (by omega)
        have hmul : (pv.toNat / 2 % 2048 + 1) * 2 ^ (pv.toNat / 2 ^ 12 % 8 + 8) ≤ 2048 * 2 ^ 14 :=
          Nat.mul_le_mul (by omega) hpow
        omega
      · rw [he]
        omega
  · rw [pv2pages_plain (by omega)]
    omega

/-- What any packed value stands for is packed and unpacked without a loss. -/
theorem pv2pages_kept (pv : UInt16) : pv2pages (pages2pv (pv2pages pv)) = pv2pages pv := by
  have hlt := pv.toNat_lt
  have hle := pv2pages_le pv
  rw [pages2pv_stored]
  by_cases hmark : 32768 ≤ pv.toNat ∧ pv.toNat % 2 = 1
  · by_cases hne : pv.toNat = 65535
    · rw [show pv = 65535 from UInt16.toNat_inj.mp hne]
      exact storedStep_multiple (k := 128) (e := 0) (by decide) (by decide)
    · rw [pv2pages_marked hmark hne] at hle ⊢
      exact storedStep_multiple (by omega) hle
  · rw [pv2pages_plain (by omega)]
    have hplain : Plain pv.toNat := by
      unfold Plain
      omega
    unfold storedStep
    rw [if_pos hplain]

theorem pv2pagesVerify_true : pv2pagesVerify = true := by
  unfold pv2pagesVerify
  rw [List.all_eq_true]
  intro i _
  exact beq_iff_eq.mpr (pv2pages_kept _).symm

/-! ## 6. Order -/

/-- An odd number below 65536 is rounded up beyond the even one that follows. -/
def Overtakes (p q : Nat) : Prop :=
  32768 < p ∧ p % 2 = 1 ∧ q % 2 = 0 ∧ q < 65536 ∧ q < roundUp p 0

theorem storedStep_le (pages : Nat) : storedStep pages ≤ maxStep := by
  rw [← pages2pv_stored]
  exact pv2pages_le _

theorem storedStep_odd {p : Nat} (hplain : ¬ Plain p) (hlt : p < 65536) :
    storedStep p = roundUp p 0 := by
  have hzero : expClass p = 0 := Nat.le_zero.mp ((expClass_le_iff p 0).mpr (by omega))
  unfold storedStep
  rw [if_neg hplain, if_pos (by unfold maxStep; omega), hzero]

/-- Numbers that are rounded up in their classes keep their order. -/
theorem storedStep_classes {p q : Nat} (hp : ¬ Plain p) (hq : ¬ Plain q) (hle : p ≤ q) :
    storedStep p ≤ storedStep q := by
  by_cases hmax : q < maxStep
  · unfold storedStep
    rw [if_neg hp, if_neg hq, if_pos (by omega), if_pos hmax]
    by_cases hclass : expClass q ≤ expClass p
    · have hback : expClass p ≤ expClass q :=
        (expClass_le_iff p _).mpr (hle.trans ((expClass_le_iff q _).mp (le_refl _)))
      rw [Nat.le_antisymm hclass hback]
      exact roundUp_mono hle _
    · -- the whole class of `p` lies below `q`
      have hp' : roundUp p (expClass p) ≤ 32768 + 2048 * 2 ^ (expClass p + 8) :=
        roundUp_le ((expClass_le_iff p _).mp (le_refl _))
      rw [expClass_le_iff] at hclass
      have hq' := le_roundUp q (expClass q)
      omega
  · have hq' : storedStep q = maxStep := by
      unfold storedStep
      rw [if_neg hq, if_neg hmax]
    rw [hq']
    exact storedStep_le p

theorem storedStep_mono_iff {p q : Nat} (hle : p ≤ q) :
    storedStep p ≤ storedStep q ↔ ¬ Overtakes p q := by
  by_cases hp : Plain p
  · have hnot : ¬ Overtakes p q := by
      unfold Overtakes
      unfold Plain at hp
      omega
    have hmin := le_storedStep q
    have hpmax : p ≤ maxStep := by
      unfold maxStep
      unfold Plain at hp
      omega
    have hps : storedStep p = p := by
      unfold storedStep
      rw [if_pos hp]
    rw [hps]
    exact ⟨fun _ => hnot, fun _ => by omega⟩
  · by_cases hq : Plain q
    · have hqs : storedStep q = q := by
        unfold storedStep
        rw [if_pos hq]
      have hodd : 32768 < p ∧ p % 2 = 1 ∧ q % 2 = 0 ∧ q < 65536 := by
        unfold Plain at hp hq
        omega
      rw [hqs, storedStep_odd hp (by omega)]
      unfold Overtakes
      omega
    · have hnot : ¬ Overtakes p q := by
        unfold Overtakes
        unfold Plain at hq
        omega
      exact ⟨fun _ => hnot, fun _ => storedStep_classes hp hq hle⟩

theorem step_not_monotone :
    ¬ ∀ p q : Nat, p ≤ q → pv2pages (pages2pv p) ≤ pv2pages (pages2pv q) := by
  intro hmono
  have hover := hmono 32769 32770 (by decide)
  exact absurd hover (by decide)

/-- A packed step is a quantization: at least the number of pages asked for, as far as there is
one, kept when it is packed again, and less than a unit of its class too large. The order is kept
except that an odd number below 65536 may overtake the even numbers up to its rounding. -/
theorem packed_step_quantized (p : Nat) :
    (∀ pv : UInt16, pv2pages pv ≤ maxStep) ∧ pv2pages 65533 = maxStep ∧
      min p maxStep ≤ pv2pages (pages2pv p) ∧
      pv2pages (pages2pv (pv2pages (pages2pv p))) = pv2pages (pages2pv p) ∧
      pv2pages (pages2pv p) < p + quantum (pages2pv p) ∧
      ∀ q, p ≤ q → (pv2pages (pages2pv p) ≤ pv2pages (pages2pv q) ↔ ¬ Overtakes p q) := by
  refine ⟨pv2pages_le, by decide, ?_, pv2pages_kept _, ?_, fun q hle => ?_⟩
  · rw [pages2pv_stored]
    exact le_storedStep p
  · rw [pages2pv_stored]
    exact storedStep_lt p
  · rw [pages2pv_stored, pages2pv_stored]
    exact storedStep_mono_iff hle

end Mdbx.Geometry
