import Mdbx.Geometry.Model

/-!
# Geometry.Steps — one growth and one shrink

Both as they would be computed without words of a fixed size, when the words are large enough for
that, and what the new end of the file covers.
-/

namespace Mdbx.Geometry

variable {b : Build} {geo : Geo}

/-! ## 1. Packed steps -/

theorem me2v_bounds {m e : Nat} (hm : m ≤ 2047) (he : e ≤ 7) :
    0 < me2v m e ∧ me2v m e ≤ 2 ^ 27 := by
  have hpow : 2 ^ (e + 8) ≤ 2 ^ 15 := Nat.pow_le_pow_right (by decide) (by omega)
  have hmul : (m + 1) * 2 ^ (e + 8) ≤ 2048 * 2 ^ 15 := Nat.mul_le_mul (by omega) hpow
  unfold me2v pgnoT
  rw [Nat.mod_eq_of_lt (by omega)]
  omega

/-- A step that is not zero is some pages, and not too many to be added to a page number. -/
theorem pv2pages_bounds (pv : UInt16) : (pv ≠ 0 → 0 < pv2pages pv) ∧ pv2pages pv ≤ 2 ^ 27 := by
  unfold pv2pages
  split
  · have hlt := pv.toNat_lt
    refine ⟨fun hne => ?_, by omega⟩
    exact Nat.pos_of_ne_zero fun hzero => hne (UInt16.toNat_inj.mp hzero)
  · split
    · exact ⟨fun _ => by decide, by decide⟩
    · have hm : ((pv >>> 1) &&& 2047).toNat ≤ 2047 := by
        rw [UInt16.toNat_and]
        exact Nat.and_le_right
      have he : ((pv >>> 12) &&& 7).toNat ≤ 7 := by
        rw [UInt16.toNat_and]
        exact Nat.and_le_right
      have hbounds := me2v_bounds hm he
      exact ⟨fun _ => hbounds.1, hbounds.2⟩

/-! ## 2. Rounding -/

/-- The rounding of page numbers to units of the system, in words of any size. -/
def ceilPages (b : Build) (pages : Nat) : Nat :=
  let n := pages * 2 ^ b.pagesizeLn + 2 ^ b.unitLn - 1
  (n - n % 2 ^ b.unitLn) / 2 ^ b.pagesizeLn

/-- The bytes of the pages are rounded in a word of the size of `size_t`. -/
def Room (b : Build) (pages : Nat) : Prop :=
  pages * 2 ^ b.pagesizeLn + 2 ^ b.unitLn ≤ 2 ^ b.sizeBits

theorem room_of_wide (hwide : b.sizeBits = 64) {pages : Nat} (hpages : pages ≤ 2 ^ 32) :
    Room b pages := by
  have hpage : 2 ^ b.pagesizeLn ≤ 2 ^ 16 := Nat.pow_le_pow_right (by decide) b.paged.2
  have hunit : 2 ^ b.unitLn ≤ 2 ^ 22 := Nat.pow_le_pow_right (by decide) b.aligned
  have hmul : pages * 2 ^ b.pagesizeLn ≤ 2 ^ 32 * 2 ^ 16 := Nat.mul_le_mul hpages hpage
  unfold Room
  rw [hwide]
  omega

theorem sizeBits_le (b : Build) : 2 ^ 32 ≤ 2 ^ b.sizeBits ∧ 2 ^ b.sizeBits ≤ 2 ^ 64 := by
  rcases b.word with h | h
  · rw [h]
    exact ⟨by decide, by decide⟩
  · rw [h]
    exact ⟨by decide, by decide⟩

theorem ceilPages_bounds (b : Build) (pages : Nat) :
    pages ≤ ceilPages b pages ∧ ceilPages b pages ≤ pages + 2 ^ 14 := by
  have hps : 0 < 2 ^ b.pagesizeLn := Nat.two_pow_pos _
  have hunit : 0 < 2 ^ b.unitLn := Nat.two_pow_pos _
  have hpage : 2 ^ 8 ≤ 2 ^ b.pagesizeLn := Nat.pow_le_pow_right (by decide) b.paged.1
  have hunit' : 2 ^ b.unitLn ≤ 2 ^ 22 := Nat.pow_le_pow_right (by decide) b.aligned
  have hmod := Nat.mod_lt (pages * 2 ^ b.pagesizeLn + 2 ^ b.unitLn - 1) hunit
  unfold ceilPages
  dsimp only
  constructor
  · rw [Nat.le_div_iff_mul_le hps]
    omega
  · have hfloor : pages * 2 ^ b.pagesizeLn + 2 ^ b.unitLn - 1 -
        (pages * 2 ^ b.pagesizeLn + 2 ^ b.unitLn - 1) % 2 ^ b.unitLn ≤
        (pages + 2 ^ 14) * 2 ^ b.pagesizeLn := by
      have hsmall : 2 ^ 14 * 2 ^ 8 ≤ 2 ^ 14 * 2 ^ b.pagesizeLn := Nat.mul_le_mul_left _ hpage
      rw [Nat.add_mul]
      omega
    exact (Nat.div_le_div_right hfloor).trans (Nat.mul_div_cancel _ hps).le

theorem pgnoCeil2osPgno_eq {pages : Nat} (hroom : Room b pages) (hpages : pages ≤ 2 ^ 31 + 2 ^ 28) :
    pgnoCeil2osPgno b pages = ceilPages b pages := by
  have hunit : 0 < 2 ^ b.unitLn := Nat.two_pow_pos _
  have hbits := sizeBits_le b
  have hbound := (ceilPages_bounds b pages).2
  unfold Room at hroom
  unfold pgnoCeil2osPgno pgnoCeil2osBytes ceilPowerof2 u64 sizeT pgnoT
  dsimp only
  rw [Nat.mod_eq_of_lt (a := pages * 2 ^ b.pagesizeLn) (b := 2 ^ 64) (by omega),
    Nat.mod_eq_of_lt (a := pages * 2 ^ b.pagesizeLn) (by omega),
    Nat.mod_eq_of_lt (a := pages * 2 ^ b.pagesizeLn + 2 ^ b.unitLn - 1) (b := 2 ^ b.sizeBits)
      (by omega)]
  change ceilPages b pages % 2 ^ 32 = ceilPages b pages
  rw [Nat.mod_eq_of_lt (by omega)]

/-- Without that room the rounding wraps, and its result is too small. -/
theorem pgnoCeil2osPgno_exact {pages : Nat} (hpages : pages ≤ 2 ^ 31 + 2 ^ 28) :
    pgnoCeil2osPgno b pages = ceilPages b pages ↔ Room b pages := by
  refine ⟨fun heq => ?_, fun hroom => pgnoCeil2osPgno_eq hroom hpages⟩
  by_contra hroom
  have hps : 0 < 2 ^ b.pagesizeLn := Nat.two_pow_pos _
  have hunit : 0 < 2 ^ b.unitLn := Nat.two_pow_pos _
  have hnarrow : b.sizeBits = 32 := by
    rcases b.word with h | h
    · exact h
    · exact absurd (room_of_wide h (by omega)) hroom
  unfold Room at hroom
  rw [hnarrow] at hroom
  -- a word of 32 bits is a multiple of the unit and of the page size
  have hdvdUnit : 2 ^ b.unitLn ∣ 2 ^ 32 := pow_dvd_pow 2 (b.aligned.trans (by decide))
  have hdvdPage : 2 ^ b.pagesizeLn ∣ 2 ^ 32 := pow_dvd_pow 2 (b.paged.2.trans (by decide))
  have hbig : 2 ^ 32 / 2 ^ b.pagesizeLn ≤ ceilPages b pages := by
    unfold ceilPages
    dsimp only
    refine Nat.div_le_div_right ?_
    obtain ⟨k, hk⟩ := hdvdUnit
    have hfloor := Nat.div_add_mod (pages * 2 ^ b.pagesizeLn + 2 ^ b.unitLn - 1) (2 ^ b.unitLn)
    have hk' : k ≤ (pages * 2 ^ b.pagesizeLn + 2 ^ b.unitLn - 1) / 2 ^ b.unitLn := by
      rw [Nat.le_div_iff_mul_le hunit, Nat.mul_comm, ← hk]
      omega
    have hmul := Nat.mul_le_mul_left (2 ^ b.unitLn) hk'
    omega
  have hsmall : pgnoCeil2osPgno b pages < 2 ^ 32 / 2 ^ b.pagesizeLn := by
    have hbytes : pgnoCeil2osBytes b pages < 2 ^ 32 := by
      unfold pgnoCeil2osBytes ceilPowerof2
      dsimp only
      refine Nat.lt_of_le_of_lt (Nat.sub_le _ _) ?_
      unfold sizeT
      rw [hnarrow]
      exact Nat.mod_lt _ (by decide)
    have hdiv : pgnoCeil2osBytes b pages / 2 ^ b.pagesizeLn < 2 ^ 32 / 2 ^ b.pagesizeLn := by
      rw [Nat.div_lt_iff_lt_mul hps, Nat.div_mul_cancel hdvdPage]
      exact hbytes
    exact Nat.lt_of_le_of_lt (Nat.mod_le _ _) hdiv
  omega

/-- The next multiple of a step after a page number. -/
def nextStep (pages step : Nat) : Nat := pages + step - pages % step

theorem nextStep_bounds (pages : Nat) {step : Nat} (hstep : 0 < step) :
    pages ≤ nextStep pages step ∧ nextStep pages step ≤ pages + step := by
  have hmod := Nat.mod_lt pages hstep
  unfold nextStep
  omega

/-! ## 3. Growth -/

/-- The relations that a geometry keeps. -/
structure Geo.Wf (geo : Geo) : Prop where
  lower : geo.lower ≤ geo.now
  upper : geo.now ≤ geo.upper
  limit : geo.upper ≤ 2 ^ 31
  used : geo.firstUnallocated ≤ geo.now

/-- Growth in words of any size. -/
def growPages (b : Build) (geo : Geo) (num : Nat) : Growth :=
  let newnext := geo.firstUnallocated + num
  if newnext ≤ geo.now then .enough
  else if geo.upper < newnext ∨ geo.growPv = 0 then .mapFull
  else
    let aligned := ceilPages b (nextStep newnext (pv2pages geo.growPv))
    .grow (if geo.upper < aligned then geo.upper else aligned)

/-- A growth has to round to the next step, if there is any, in a word of the size of `size_t`. -/
def GrowthFits (b : Build) (geo : Geo) (num : Nat) : Prop :=
  geo.now < geo.firstUnallocated + num → geo.firstUnallocated + num ≤ geo.upper → geo.growPv ≠ 0 →
    Room b (nextStep (geo.firstUnallocated + num) (pv2pages geo.growPv))

theorem growthFits_of_wide (hgeo : geo.Wf) (hwide : b.sizeBits = 64) (num : Nat) :
    GrowthFits b geo num := by
  intro _ hupper hstep
  have hlimit := hgeo.limit
  have hpv := pv2pages_bounds geo.growPv
  have hnext := nextStep_bounds (geo.firstUnallocated + num) (hpv.1 hstep)
  exact room_of_wide hwide (by omega)

theorem growTo_eq (hgeo : geo.Wf) {num : Nat} (hnum : num < 2 ^ 31) (hfits : GrowthFits b geo num) :
    growTo b geo num = growPages b geo num := by
  have hlimit := hgeo.limit
  have hupper := hgeo.upper
  have hused := hgeo.used
  have hbits := sizeBits_le b
  have hnewnext : sizeT b (geo.firstUnallocated + num) = geo.firstUnallocated + num :=
    Nat.mod_eq_of_lt (by omega)
  unfold growTo growPages
  dsimp only
  rw [hnewnext]
  by_cases henough : geo.firstUnallocated + num ≤ geo.now
  · rw [if_pos henough, if_pos henough]
  · rw [if_neg henough, if_neg henough]
    by_cases hfull : geo.upper < geo.firstUnallocated + num ∨ geo.growPv = 0
    · rw [if_pos hfull, if_pos hfull]
    · rw [if_neg hfull, if_neg hfull]
      have hpv := pv2pages_bounds geo.growPv
      have hstep : geo.growPv ≠ 0 := fun hzero => hfull (.inr hzero)
      have hnext := nextStep_bounds (geo.firstUnallocated + num) (hpv.1 hstep)
      have hroom := hfits (by omega) (by omega) hstep
      have htarget : pgnoT (sizeT b (geo.firstUnallocated + num + pv2pages geo.growPv -
          (geo.firstUnallocated + num) % pv2pages geo.growPv)) =
          nextStep (geo.firstUnallocated + num) (pv2pages geo.growPv) := by
        change nextStep (geo.firstUnallocated + num) (pv2pages geo.growPv) % 2 ^ b.sizeBits %
          2 ^ 32 = _
        rw [Nat.mod_eq_of_lt (b := 2 ^ b.sizeBits) (by omega), Nat.mod_eq_of_lt (by omega)]
      rw [htarget, pgnoCeil2osPgno_eq hroom (by omega)]

/-- What a growth is to do. -/
def Growth.Sound (geo : Geo) (num : Nat) : Growth → Prop
  | .enough => geo.firstUnallocated + num ≤ geo.now
  | .mapFull => geo.upper < geo.firstUnallocated + num ∨ geo.growPv = 0
  | .grow aligned => geo.firstUnallocated + num ≤ aligned ∧ aligned ≤ geo.upper ∧ geo.now < aligned

theorem growPages_sound (b : Build) (geo : Geo) (num : Nat) :
    (growPages b geo num).Sound geo num := by
  unfold growPages
  dsimp only
  by_cases henough : geo.firstUnallocated + num ≤ geo.now
  · rw [if_pos henough]
    exact henough
  · rw [if_neg henough]
    by_cases hfull : geo.upper < geo.firstUnallocated + num ∨ geo.growPv = 0
    · rw [if_pos hfull]
      exact hfull
    · rw [if_neg hfull]
      have hstep : geo.growPv ≠ 0 := fun hzero => hfull (.inr hzero)
      have hnext := nextStep_bounds (geo.firstUnallocated + num)
        ((pv2pages_bounds geo.growPv).1 hstep)
      have hceil := (ceilPages_bounds b (nextStep (geo.firstUnallocated + num)
        (pv2pages geo.growPv))).1
      unfold Growth.Sound
      dsimp only
      split
      · omega
      · omega

/-! ## 4. Shrink -/

theorem mvccSnapshotLargest_bounds (basalTxnid : Nat) : ∀ (slots : List Slot) (last : Nat),
    last ≤ mvccSnapshotLargest slots basalTxnid last ∧
    ∀ slot ∈ slots, slot.pid ≠ 0 → slot.txnid ≤ basalTxnid →
      slot.snapshotPagesUsed ≤ mvccSnapshotLargest slots basalTxnid last
  | [], last => ⟨Nat.le_refl last, nofun⟩
  | slot :: slots, last => by
      have ih := mvccSnapshotLargest_bounds basalTxnid slots
        (if slot.pid ≠ 0 ∧ last < slot.snapshotPagesUsed ∧ slot.txnid ≤ basalTxnid then
          slot.snapshotPagesUsed else last)
      unfold mvccSnapshotLargest at *
      rw [List.foldl_cons]
      obtain ⟨hlast, hslots⟩ := ih
      have hfirst : last ≤ (if slot.pid ≠ 0 ∧ last < slot.snapshotPagesUsed ∧
          slot.txnid ≤ basalTxnid then slot.snapshotPagesUsed else last) := by
        split
        · omega
        · omega
      refine ⟨hfirst.trans hlast, fun other hmem hpid htxnid => ?_⟩
      rcases List.mem_cons.mp hmem with rfl | hmem
      · refine Nat.le_trans ?_ hlast
        split
        · omega
        · omega
      · exact hslots other hmem hpid htxnid

/-- The step that the new end is rounded to. -/
def shrinkAligner (pending : Geo) : Nat :=
  if pending.growPv ≠ 0 then pv2pages pending.growPv else pv2pages pending.shrinkPv

/-- There is enough behind the last page in use that a new end is computed. -/
structure ShrinkTries (pending : Geo) (gcHeight : UInt16) (largest : Nat) : Prop where
  enabled : pending.shrinkPv ≠ 0
  own : pv2pages pending.shrinkPv + (3 + gcHeight.toNat * 3) <
    pending.now - pending.firstUnallocated
  inside : largest < pending.now
  snapshots : pv2pages pending.shrinkPv + (3 + gcHeight.toNat * 3) < pending.now - largest

/-- The page that the new end is rounded up from. -/
def shrinkTarget (pending : Geo) (gcHeight : UInt16) (largest : Nat) : Nat :=
  nextStep (largest + (3 + gcHeight.toNat * 3)) (shrinkAligner pending)

/-- A shrink has to round to the next step in a word of the size of `size_t`. -/
def ShrinkFits (b : Build) (pending : Geo) (gcHeight : UInt16) (largest : Nat) : Prop :=
  ShrinkTries pending gcHeight largest → Room b (shrinkTarget pending gcHeight largest)

/-- Shrink in words of any size. -/
def shrinkPages (b : Build) (pending : Geo) (gcHeight : UInt16) (largest : Nat) : Option Nat :=
  let gap := 3 + gcHeight.toNat * 3
  let shrinkStep := pv2pages pending.shrinkPv
  if pending.shrinkPv ≠ 0 ∧ shrinkStep + gap < pending.now - pending.firstUnallocated then
    if largest < pending.now ∧ shrinkStep + gap < pending.now - largest then
      let aligned := ceilPages b (shrinkTarget pending gcHeight largest)
      let bottom := if pending.lower < aligned then aligned else pending.lower
      if bottom < pending.now then some bottom else none
    else none
  else none

theorem shrinkAligner_bounds (pending : Geo) (hshrink : pending.shrinkPv ≠ 0) :
    0 < shrinkAligner pending ∧ shrinkAligner pending ≤ 2 ^ 27 := by
  have hgrow := pv2pages_bounds pending.growPv
  have hstep := pv2pages_bounds pending.shrinkPv
  unfold shrinkAligner
  split
  · exact ⟨hgrow.1 ‹_›, hgrow.2⟩
  · exact ⟨hstep.1 hshrink, hstep.2⟩

theorem shrinkTarget_bounds (hgeo : geo.Wf) {gcHeight : UInt16} {largest : Nat}
    (htries : ShrinkTries geo gcHeight largest) :
    largest ≤ shrinkTarget geo gcHeight largest ∧
      shrinkTarget geo gcHeight largest ≤ 2 ^ 31 + 2 ^ 28 := by
  have hlimit := hgeo.limit
  have hupper := hgeo.upper
  have hheight := gcHeight.toNat_lt
  have hinside := htries.inside
  have haligner := shrinkAligner_bounds geo htries.enabled
  have hnext := nextStep_bounds (largest + (3 + gcHeight.toNat * 3)) haligner.1
  unfold shrinkTarget
  omega

theorem shrinkFits_of_wide (hgeo : geo.Wf) (hwide : b.sizeBits = 64) (gcHeight : UInt16)
    (largest : Nat) : ShrinkFits b geo gcHeight largest := by
  intro htries
  have hbounds := (shrinkTarget_bounds hgeo htries).2
  exact room_of_wide hwide (by omega)

theorem pgnoSub_eq {m n : Nat} (hm : m ≤ 2 ^ 31) (h : n ≤ m) : pgnoSub m n = m - n := by
  unfold pgnoSub pgnoT
  omega

theorem shrinkTo_eq (hgeo : geo.Wf) {gcHeight : UInt16} {largest : Nat}
    (hfits : ShrinkFits b geo gcHeight largest) :
    shrinkTo b geo gcHeight largest = shrinkPages b geo gcHeight largest := by
  have hlimit := hgeo.limit
  have hupper := hgeo.upper
  have hheight := gcHeight.toNat_lt
  have hstep := (pv2pages_bounds geo.shrinkPv).2
  have hbits := sizeBits_le b
  have hgap : stockpileGap gcHeight = 3 + gcHeight.toNat * 3 := Nat.mod_eq_of_lt (by omega)
  have hsum : pgnoT (pv2pages geo.shrinkPv + (3 + gcHeight.toNat * 3)) =
      pv2pages geo.shrinkPv + (3 + gcHeight.toNat * 3) := Nat.mod_eq_of_lt (by omega)
  unfold shrinkTo shrinkPages
  dsimp only
  rw [hgap, hsum, pgnoSub_eq (by omega) hgeo.used]
  split
  · rename_i hmuch
    by_cases hlargest : largest < geo.now
    · rw [pgnoSub_eq (by omega) hlargest.le]
      split
      · rename_i hbehind
        have htries : ShrinkTries geo gcHeight largest := ⟨hmuch.1, hmuch.2, hbehind.1, hbehind.2⟩
        have hbounds := shrinkTarget_bounds hgeo htries
        have hwith : pgnoT (largest + (3 + gcHeight.toNat * 3)) =
            largest + (3 + gcHeight.toNat * 3) := Nat.mod_eq_of_lt (by omega)
        have htarget : sizeT b (largest + (3 + gcHeight.toNat * 3) + shrinkAligner geo -
            (largest + (3 + gcHeight.toNat * 3)) % shrinkAligner geo) =
            shrinkTarget geo gcHeight largest :=
          Nat.mod_eq_of_lt (by unfold shrinkTarget nextStep at hbounds; omega)
        have hround : pgnoCeil2osPgno b (sizeT b (largest + (3 + gcHeight.toNat * 3) +
            shrinkAligner geo - (largest + (3 + gcHeight.toNat * 3)) % shrinkAligner geo)) =
            ceilPages b (shrinkTarget geo gcHeight largest) := by
          rw [htarget]
          exact pgnoCeil2osPgno_eq (hfits htries) (by omega)
        have haligner : (if geo.growPv ≠ 0 then pv2pages geo.growPv else pv2pages geo.shrinkPv) =
            shrinkAligner geo := rfl
        rw [haligner, hwith, hround]
      · rfl
    · rw [if_neg (fun h => hlargest h.1), if_neg (fun h => hlargest h.1)]
  · rfl

/-- A shrink leaves the lower limit and all pages up to the largest snapshot. -/
theorem shrinkPages_sound (hgeo : geo.Wf) {gcHeight : UInt16} {largest bottom : Nat}
    (h : shrinkPages b geo gcHeight largest = some bottom) :
    geo.lower ≤ bottom ∧ largest ≤ bottom ∧ bottom < geo.now := by
  unfold shrinkPages at h
  dsimp only at h
  have hceil := (ceilPages_bounds b (shrinkTarget geo gcHeight largest)).1
  generalize ceilPages b (shrinkTarget geo gcHeight largest) = aligned at *
  have hbottom : geo.lower ≤ (if geo.lower < aligned then aligned else geo.lower) ∧
      aligned ≤ (if geo.lower < aligned then aligned else geo.lower) := by
    split
    · omega
    · omega
  generalize (if geo.lower < aligned then aligned else geo.lower) = low at *
  split at h
  · rename_i hmuch
    split at h
    · rename_i hbehind
      have hbounds := shrinkTarget_bounds hgeo ⟨hmuch.1, hmuch.2, hbehind.1, hbehind.2⟩
      split at h
      · rename_i hless
        cases h
        exact ⟨hbottom.1, by omega, hless⟩
      · exact nomatch h
    · exact nomatch h
  · exact nomatch h

end Mdbx.Geometry
