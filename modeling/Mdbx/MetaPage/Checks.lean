import Mdbx.MetaPage.Model

/-!
# MetaPage.Checks — what the validation of a meta page lets through

Each group of checks as the conditions that it stands for, the repairs in closed form, and with them
when a meta page is accepted and what it becomes.
-/

namespace Mdbx.MetaPage

variable {b : Build} {m m' : Meta} {page : PageHead} {metaNumber : Nat} {file : File}

/-! ## 1. Sequences of checks -/

theorem refuse_ok {bad : Prop} [Decidable bad] {code : Code} : refuse bad code = .ok () ↔ ¬bad := by
  unfold refuse
  split
  · exact ⟨nofun, fun h => absurd ‹bad› h⟩
  · exact ⟨fun _ => ‹¬bad›, fun _ => rfl⟩

theorem refuse_then {α : Type} {bad : Prop} [Decidable bad] {code : Code} {f : Unit → Except Code α}
    {a : α} : (refuse bad code >>= f) = .ok a ↔ ¬bad ∧ f () = .ok a := by
  unfold refuse
  split
  · exact ⟨nofun, fun h => absurd ‹bad› h.1⟩
  · exact ⟨fun h => ⟨‹¬bad›, h⟩, fun h => h.2⟩

theorem check_then {α : Type} {x : Except Code Unit} {f : Unit → Except Code α} {a : α} :
    (x >>= f) = .ok a ↔ x = .ok () ∧ f () = .ok a := by
  cases x with
  | error code => exact ⟨nofun, fun h => nomatch h.1⟩
  | ok u => exact ⟨fun h => ⟨rfl, h⟩, fun h => h.2⟩

/-! ## 2. The checks -/

/-- `checkHead` -/
structure HeadOk (b : Build) (m : Meta) (page : PageHead) (metaNumber : Nat) : Prop where
  magic : m.magicAndVersion.toNat = dataMagic b ∨
    m.magicAndVersion.toNat = dataMagicLegacyCompat b ∨
    m.magicAndVersion.toNat = dataMagicLegacyDevel
  pgno : page.pgno.toNat = metaNumber
  flags : page.flags = pMeta
  pagesize : isPowerof2 m.pagesize.toNat = true ∧ minPagesize ≤ m.pagesize.toNat ∧
    m.pagesize.toNat ≤ maxPagesize

theorem checkHead_ok : checkHead b m page metaNumber = .ok () ↔ HeadOk b m page metaNumber := by
  unfold checkHead
  dsimp only
  rw [refuse_then, refuse_then, refuse_then, refuse_ok]
  constructor
  · rintro ⟨hmagic, hpgno, hflags, hsize⟩
    refine ⟨by tauto, not_not.mp hpgno, not_not.mp hflags, ?_⟩
    simp only [not_or, not_not] at hsize
    exact ⟨hsize.1, by omega, by omega⟩
  · rintro ⟨hmagic, hpgno, hflags, hsize⟩
    refine ⟨by tauto, not_not.mpr hpgno, not_not.mpr hflags, ?_⟩
    simp only [not_or, not_not]
    exact ⟨hsize.1, by omega, by omega⟩

/-- `checkStamps` -/
structure StampsOk (b : Build) (m : Meta) : Prop where
  phases : m.txnidA = m.txnidB
  sign : signIsSteady m.sign = true → m.sign = metaSignCalculate m
  gcFlags : m.gc.flags = integerKey ∨
    m.gc.flags &&& dbPersistentFlags = integerKey ∧ m.magicAndVersion.toNat ≠ dataMagic b
  mainFlags : checkTableFlags m.main.flags = true
  txnid : minTxnid ≤ m.txnidA.toNat ∧ m.txnidA.toNat ≤ maxTxnid

theorem checkStamps_ok : checkStamps b m = .ok () ↔ StampsOk b m := by
  unfold checkStamps
  rw [refuse_then, refuse_then, refuse_then, refuse_then, refuse_ok]
  constructor
  · rintro ⟨hphases, hsign, hgc, hmain, htxnid⟩
    exact ⟨not_not.mp hphases, fun h => by tauto, by tauto, not_not.mp hmain, by omega⟩
  · rintro ⟨hphases, hsign, hgc, hmain, htxnid⟩
    exact ⟨not_not.mpr hphases, by tauto, by tauto, not_not.mpr hmain, by omega⟩

/-- `checkBounds` -/
structure BoundsOk (m : Meta) : Prop where
  lower : minPageno ≤ m.geometry.lower.toNat
  order : m.geometry.lower.toNat ≤ m.geometry.upper.toNat
  upper : m.geometry.upper.toNat ≤ maxPageno + 1
  allocated : minPageno ≤ m.geometry.firstUnallocated.toNat ∧
    m.geometry.firstUnallocated.toNat ≤ maxPageno + 1

theorem pred_toNat {n : UInt32} (h : minPageno ≤ n.toNat) : (n - 1).toNat = n.toNat - 1 := by
  have hone : (1 : UInt32).toNat = 1 := rfl
  have hle : (1 : UInt32) ≤ n := by
    rw [UInt32.le_iff_toNat_le, hone]
    exact (by decide : 1 ≤ minPageno).trans h
  rw [UInt32.toNat_sub_of_le _ _ hle, hone]

theorem checkBounds_ok : checkBounds m = .ok () ↔ BoundsOk m := by
  have hmin : minPageno = 3 := rfl
  unfold checkBounds
  dsimp only
  rw [refuse_then, refuse_then, refuse_ok]
  constructor
  · rintro ⟨hlower, hupper, hfirst⟩
    have hfirst' : minPageno ≤ m.geometry.firstUnallocated.toNat := by omega
    rw [pred_toNat hfirst'] at hfirst
    exact ⟨by omega, by omega, by omega, by omega, by omega⟩
  · rintro ⟨hlower, horder, hupper, hfirst⟩
    rw [pred_toNat hfirst.1]
    exact ⟨by omega, by omega, by omega⟩

/-- The size of the file that the allocated pages are compared with at last. -/
def File.seen (file : File) (m : Meta) : Except Int UInt64 :=
  if file.filesize.toNat < m.allocatedBytes then file.fetched else .ok file.filesize

/-- `checkFile` -/
def FileOk (m : Meta) (file : File) : Prop :=
  ∃ size, file.seen m = .ok size ∧ m.allocatedBytes ≤ size.toNat

theorem checkFile_ok : checkFile m file = .ok () ↔ FileOk m file := by
  unfold checkFile FileOk File.seen
  by_cases hold : file.filesize.toNat < m.allocatedBytes
  · rw [if_pos hold, if_pos hold]
    cases file.fetched with
    | error rc => exact ⟨nofun, fun ⟨_, h, _⟩ => nomatch h⟩
    | ok size =>
      dsimp only
      rw [refuse_ok]
      constructor
      · intro h
        exact ⟨size, rfl, by omega⟩
      · rintro ⟨size', h, hle⟩
        cases h
        omega
  · rw [if_neg hold, if_neg hold]
    exact ⟨fun _ => ⟨_, rfl, by omega⟩, fun _ => rfl⟩

/-- The tree is empty and has no pages, levels and items, or its root is an allocated page. -/
def RootOk (m : Meta) (t : Tree) : Prop :=
  t.root = pInvalid ∧ t.branchPages = 0 ∧ t.height = 0 ∧ t.items = 0 ∧ t.leafPages = 0 ∧
    t.largePages = 0 ∨
  t.root ≠ pInvalid ∧ numMetas ≤ t.root.toNat ∧ t.root.toNat < m.geometry.firstUnallocated.toNat

theorem checkTree_ok {t : Tree} : checkTree m t = .ok () ↔ RootOk m t := by
  unfold checkTree RootOk
  by_cases hroot : t.root = pInvalid
  · rw [if_pos hroot, refuse_ok]
    tauto
  · rw [if_neg hroot, refuse_ok]
    constructor
    · intro h
      exact .inr ⟨hroot, by omega, by omega⟩
    · rintro (⟨h, _⟩ | ⟨_, h₁, h₂⟩)
      · exact absurd h hroot
      · omega

/-- `checkTrees` -/
structure TreesOk (m : Meta) : Prop where
  gc : RootOk m m.gc
  main : RootOk m m.main
  gcMod : m.gc.modTxnid ≤ m.txnidA
  mainMod : m.main.modTxnid ≤ m.txnidA

theorem checkTrees_ok : checkTrees m = .ok () ↔ TreesOk m := by
  unfold checkTrees
  rw [check_then, check_then, refuse_then, refuse_ok, checkTree_ok, checkTree_ok]
  constructor
  · rintro ⟨hgc, hmain, hgcMod, hmainMod⟩
    exact ⟨hgc, hmain, UInt64.not_lt.mp hgcMod, UInt64.not_lt.mp hmainMod⟩
  · rintro ⟨hgc, hmain, hgcMod, hmainMod⟩
    exact ⟨hgc, hmain, UInt64.not_lt.mpr hgcMod, UInt64.not_lt.mpr hmainMod⟩

/-! ## 3. The repairs in closed form -/

/-- The most pages that the build can map. -/
def mapLimit (b : Build) (m : Meta) : Nat := maxMapsize b / m.pagesize.toNat

theorem maxMapsize_le (b : Build) : maxMapsize b ≤ maxMapsize64 ∧
    (b.wide = false → maxMapsize b < 2 ^ 31) := by
  unfold maxMapsize
  cases b.wide with
  | true => exact ⟨Nat.le_refl _, nofun⟩
  | false =>
    rw [if_neg Bool.false_ne_true]
    split
    · exact ⟨by decide, fun _ => by decide⟩
    · exact ⟨by decide, fun _ => by decide⟩

theorem pages_le_limit (b : Build) {m : Meta} (hsize : 0 < m.pagesize.toNat) (n : Nat) :
    n * m.pagesize.toNat ≤ maxMapsize b ↔ n ≤ mapLimit b m :=
  (Nat.le_div_iff_mul_le hsize).symm

/-- With 64 bits no geometry is too large. -/
theorem limit_wide (hwide : b.wide = true) (hsize : minPagesize ≤ m.pagesize.toNat)
    (hmax : m.pagesize.toNat ≤ maxPagesize) : maxPageno + 1 ≤ mapLimit b m := by
  have hpos : 0 < m.pagesize.toNat := Nat.lt_of_lt_of_le (by decide) hsize
  rw [← pages_le_limit b hpos]
  unfold maxMapsize
  rw [if_pos hwide]
  exact Nat.mul_le_mul_left _ hmax

theorem mapPages_eq (hnarrow : b.wide = false) (hsize : minPagesize ≤ m.pagesize.toNat) :
    mapPages b m = mapLimit b m := by
  have hlt := (maxMapsize_le b).2 hnarrow
  have hdiv : maxMapsize b / m.pagesize.toNat ≤ maxMapsize b / 256 := Nat.div_le_div_left hsize (by decide)
  unfold mapPages mapLimit
  have hmax : maxPageno = 2 ^ 31 - 1 := rfl
  dsimp only
  rw [Nat.mod_eq_of_lt (by omega), if_neg (by omega)]

theorem repairLower_eq (hhead : HeadOk b m page metaNumber) (hbounds : BoundsOk m) :
    repairLower b m = .ok (min m.geometry.lower.toNat (mapLimit b m)) := by
  obtain ⟨_, hsize, hmax⟩ := hhead.pagesize
  have hpos : 0 < m.pagesize.toNat := Nat.lt_of_lt_of_le (by decide) hsize
  have hlower := hbounds.lower
  have horder := hbounds.order
  have hupper := hbounds.upper
  have hmin : minMapsize ≤ m.geometry.lower.toNat * m.pagesize.toNat := by
    have := Nat.mul_le_mul hsize hlower
    rw [Nat.mul_comm m.pagesize.toNat] at this
    exact this
  have hlimit := pages_le_limit b hpos m.geometry.lower.toNat
  unfold repairLower
  dsimp only
  by_cases hfits : m.geometry.lower.toNat ≤ mapLimit b m
  · rw [if_neg (by rw [← hlimit] at hfits; omega), Nat.min_eq_left hfits]
  · have hnarrow : b.wide = false := by
      by_contra hwide
      have := limit_wide (b := b) (by simpa using hwide) hsize hmax
      omega
    have h64 : m.geometry.lower.toNat * m.pagesize.toNat ≤ maxMapsize64 :=
      Nat.mul_le_mul (horder.trans hupper) hmax
    have hover : maxMapsize b < m.geometry.lower.toNat * m.pagesize.toNat := by
      rw [← hlimit] at hfits
      omega
    rw [if_pos (.inr hover), if_pos ⟨by omega, hover, h64⟩, mapPages_eq hnarrow hsize,
      Nat.min_eq_right (by omega)]

/-- Rounding up to the granularity never passes the limit, which is a multiple of it. -/
theorem ceil_le (b : Build) {value pagesize : Nat} (hle : value ≤ (maxPageno + 1) * pagesize) :
    ceilPowerof2 value (2 ^ b.granularityLn) ≤ (maxPageno + 1) * pagesize := by
  have hdvd : 2 ^ b.granularityLn ∣ (maxPageno + 1) * pagesize := by
    have hpow : maxPageno + 1 = 2 ^ 31 := rfl
    rw [hpow]
    exact Dvd.dvd.mul_right (pow_dvd_pow 2 (b.granular.trans (by decide))) pagesize
  obtain ⟨k, hk⟩ := hdvd
  have hpos : 0 < 2 ^ b.granularityLn := Nat.two_pow_pos _
  unfold ceilPowerof2
  dsimp only
  rw [hk] at hle ⊢
  have hdiv : (value + 2 ^ b.granularityLn - 1) / 2 ^ b.granularityLn ≤ k := by
    have hlt : value + 2 ^ b.granularityLn - 1 < 2 ^ b.granularityLn * (k + 1) := by
      rw [Nat.mul_succ]
      omega
    exact Nat.lt_succ_iff.mp (Nat.div_lt_of_lt_mul hlt)
  have hmul := Nat.mul_le_mul_left (2 ^ b.granularityLn) hdiv
  have hmod := Nat.div_add_mod (value + 2 ^ b.granularityLn - 1) (2 ^ b.granularityLn)
  omega

theorem repairUpper_eq (hhead : HeadOk b m page metaNumber) (hbounds : BoundsOk m) :
    repairUpper b m = .ok (max (min m.geometry.upper.toNat (mapLimit b m))
      m.geometry.firstUnallocated.toNat) := by
  obtain ⟨_, hsize, hmax⟩ := hhead.pagesize
  have hpos : 0 < m.pagesize.toNat := Nat.lt_of_lt_of_le (by decide) hsize
  have hupper := hbounds.upper
  have hlimit := pages_le_limit b hpos m.geometry.upper.toNat
  have hceil := ceil_le b (Nat.mul_le_mul_right m.pagesize.toNat hupper)
  have hround : ¬maxPageno + 1 <
      ceilPowerof2 (m.geometry.upper.toNat * m.pagesize.toNat) (2 ^ b.granularityLn) /
        m.pagesize.toNat := by
    have hdiv := Nat.div_le_div_right (c := m.pagesize.toNat) hceil
    rw [Nat.mul_div_cancel _ hpos] at hdiv
    omega
  have hmaxEq : ∀ upper : Nat, (if upper < m.geometry.firstUnallocated.toNat then
      m.geometry.firstUnallocated.toNat else upper) = max upper m.geometry.firstUnallocated.toNat := by
    intro upper
    split
    · omega
    · omega
  unfold repairUpper
  dsimp only
  by_cases hfits : m.geometry.upper.toNat ≤ mapLimit b m
  · rw [if_neg (by rw [← hlimit] at hfits; omega), Nat.min_eq_left hfits, ← hmaxEq]
    rfl
  · have hnarrow : b.wide = false := by
      by_contra hwide
      have := limit_wide (b := b) (by simpa using hwide) hsize hmax
      omega
    have h64 : m.geometry.upper.toNat * m.pagesize.toNat ≤ maxMapsize64 := Nat.mul_le_mul hupper hmax
    have hover : maxMapsize b < m.geometry.upper.toNat * m.pagesize.toNat := by
      rw [← hlimit] at hfits
      omega
    rw [if_pos (.inl hover), if_neg (by omega), mapPages_eq hnarrow hsize,
      Nat.min_eq_right (by omega), ← hmaxEq]
    rfl

end Mdbx.MetaPage
