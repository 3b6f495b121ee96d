import Mdbx.MetaPage.Checks

/-!
# MetaPage.Accepted — accepted meta pages are consistent

An accepted meta page is consistent and a consistent one is accepted, as long as the number of pages
in the file fits in a page number, or what is left of it does no harm.
-/

namespace Mdbx.MetaPage

variable {b : Build} {m m' : Meta} {page : PageHead} {metaNumber : Nat} {file : File}
  {guess : Option UInt32}

/-! ## 1. What is accepted -/

/-- All checks but that of the last page. -/
structure Sound (b : Build) (m : Meta) (page : PageHead) (metaNumber : Nat) (file : File) : Prop where
  head : HeadOk b m page metaNumber
  stamps : StampsOk b m
  bounds : BoundsOk m
  file : FileOk m file
  mapped : m.allocatedBytes ≤ maxMapsize b
  trees : TreesOk m

def newLower (b : Build) (m : Meta) : Nat := min m.geometry.lower.toNat (mapLimit b m)

def newUpper (b : Build) (m : Meta) : Nat :=
  max (min m.geometry.upper.toNat (mapLimit b m)) m.geometry.firstUnallocated.toNat

def newNow (b : Build) (m : Meta) (file : File) : Nat :=
  repairNow m file (newLower b m) (newUpper b m)

theorem repair_then {α : Type} {x : Except Code Nat} {n : Nat} (h : x = .ok n)
    {f : Nat → Except Code α} : (x >>= f) = f n := by
  rw [h]
  rfl

/-- When a meta page is accepted, and what it becomes. -/
theorem metaValidate_ok : (metaValidate b m page metaNumber file guess).1 = .ok m' ↔
    Sound b m page metaNumber file ∧
    m.geometry.firstUnallocated.toNat ≤ newNow b m file ∧
    m' = m.withGeometry (newLower b m) (newUpper b m) (newNow b m file) := by
  unfold metaValidate
  cases hcheck : checkHead b m page metaNumber with
  | error code =>
    refine ⟨nofun, fun h => ?_⟩
    have := checkHead_ok.mpr h.1.head
    rw [hcheck] at this
    exact nomatch this
  | ok u =>
    have hhead := checkHead_ok.mp hcheck
    dsimp only
    unfold validateContent
    rw [check_then, check_then, check_then, refuse_then, checkStamps_ok, checkBounds_ok, checkFile_ok]
    constructor
    · rintro ⟨hstamps, hbounds, hfile, hmapped, hrest⟩
      rw [repair_then (repairLower_eq hhead hbounds), repair_then (repairUpper_eq hhead hbounds),
        refuse_then, check_then, checkTrees_ok] at hrest
      obtain ⟨hnow, htrees, heq⟩ := hrest
      exact ⟨⟨hhead, hstamps, hbounds, hfile, by omega, htrees⟩, Nat.le_of_not_lt hnow,
        (Except.ok.inj heq).symm⟩
    · rintro ⟨⟨_, hstamps, hbounds, hfile, hmapped, htrees⟩, hnow, heq⟩
      have hfirst := hbounds.allocated
      refine ⟨hstamps, hbounds, hfile, ?_, ?_⟩
      · rw [pred_toNat hfirst.1]
        omega
      · rw [repair_then (repairLower_eq hhead hbounds), repair_then (repairUpper_eq hhead hbounds),
          refuse_then, check_then, checkTrees_ok]
        exact ⟨Nat.not_lt.mpr hnow, htrees, heq ▸ rfl⟩

/-! ## 2. Consistent metas -/

/-- The relations that a meta page is to keep. -/
structure Consistent (m : Meta) (file : File) : Prop where
  now : m.geometry.lower.toNat ≤ m.geometry.now.toNat ∧
    m.geometry.now.toNat ≤ m.geometry.upper.toNat
  allocated : numMetas ≤ m.geometry.firstUnallocated.toNat ∧
    m.geometry.firstUnallocated.toNat ≤ m.geometry.now.toNat
  file : FileOk m file
  gc : RootOk m m.gc
  main : RootOk m m.main
  phases : m.txnidA = m.txnidB
  txnid : minTxnid ≤ m.txnidA.toNat ∧ m.txnidA.toNat ≤ maxTxnid
  gcMod : m.gc.modTxnid ≤ m.txnidA
  mainMod : m.main.modTxnid ≤ m.txnidA
  sign : signIsSteady m.sign = true → m.sign = metaSignCalculate m

/-- A meta page of this format, with tables and limits that the build can open. -/
structure Readable (b : Build) (m : Meta) (page : PageHead) (metaNumber : Nat) : Prop where
  head : HeadOk b m page metaNumber
  gcFlags : m.gc.flags = integerKey ∨
    m.gc.flags &&& dbPersistentFlags = integerKey ∧ m.magicAndVersion.toNat ≠ dataMagic b
  mainFlags : checkTableFlags m.main.flags = true
  lower : minPageno ≤ m.geometry.lower.toNat
  upper : m.geometry.upper.toNat ≤ maxPageno + 1
  mapped : m.geometry.upper.toNat * m.pagesize.toNat ≤ maxMapsize b

theorem Consistent.sound (h : Consistent m file) (hread : Readable b m page metaNumber) :
    Sound b m page metaNumber file where
  head := hread.head
  stamps := ⟨h.phases, h.sign, hread.gcFlags, hread.mainFlags, h.txnid⟩
  bounds := by
    have hnow := h.now
    have hallocated := h.allocated
    have hupper := hread.upper
    exact ⟨hread.lower, by omega, hupper, hallocated.1, by omega⟩
  file := h.file
  mapped := by
    have hle := h.allocated.2.trans h.now.2
    exact (Nat.mul_le_mul_right _ hle).trans hread.mapped
  trees := ⟨h.gc, h.main, h.gcMod, h.mainMod⟩

/-- The repairs of the limits leave the limits of a consistent meta alone. -/
theorem Consistent.limits (h : Consistent m file) (hread : Readable b m page metaNumber) :
    newLower b m = m.geometry.lower.toNat ∧ newUpper b m = m.geometry.upper.toNat := by
  obtain ⟨_, hsize, _⟩ := hread.head.pagesize
  have hpos : 0 < m.pagesize.toNat := Nat.lt_of_lt_of_le (by decide) hsize
  have hmap := (pages_le_limit b hpos m.geometry.upper.toNat).mp hread.mapped
  have hnow := h.now
  have hallocated := h.allocated
  unfold newLower newUpper
  omega

theorem Sound.limits (h : Sound b m page metaNumber file) :
    newLower b m ≤ newUpper b m ∧ m.geometry.firstUnallocated.toNat ≤ newUpper b m ∧
      newUpper b m < 2 ^ 32 := by
  have hbounds := h.bounds
  have horder := hbounds.order
  have hupper := hbounds.upper
  have hallocated := hbounds.allocated
  have hmax : maxPageno = 2 ^ 31 - 1 := rfl
  unfold newLower newUpper
  omega

/-! ## 3. The last page -/

/-- The repaired end, where the number of pages of the file fits in 32 bits. -/
theorem newNow_small (hpages : dxbsizePages m file < 2 ^ 32) :
    newNow b m file =
      min (max (max m.geometry.now.toNat (newLower b m)) (dxbsizePages m file)) (newUpper b m) := by
  unfold newNow repairNow
  dsimp only
  rw [Nat.mod_eq_of_lt hpages]
  split
  · split
    · split
      · omega
      · omega
    · split
      · omega
      · omega
  · split
    · split
      · omega
      · omega
    · split
      · omega
      · omega

/-- Of a larger file only the low half of the number is left. -/
theorem newNow_large (h : Sound b m page metaNumber file) (hpages : 2 ^ 32 ≤ dxbsizePages m file) :
    newNow b m file = min (dxbsizePages m file % 2 ^ 32) (newUpper b m) := by
  have hlimits := h.limits
  have hnow := m.geometry.now.toNat_lt
  have hbelow : (if m.geometry.now.toNat < newLower b m then newLower b m
      else m.geometry.now.toNat) < dxbsizePages m file := by
    split
    · omega
    · omega
  unfold newNow repairNow
  dsimp only
  rw [if_pos hbelow]
  split
  · omega
  · omega

theorem toNat_ofNat {n : Nat} (h : n < 2 ^ 32) : (UInt32.ofNat n).toNat = n :=
  UInt32.toNat_ofNat_of_lt' h

theorem withGeometry_consistent (h : Sound b m page metaNumber file) {now : Nat}
    (hlower : newLower b m ≤ now) (hupper : now ≤ newUpper b m)
    (hfirst : m.geometry.firstUnallocated.toNat ≤ now) :
    Consistent (m.withGeometry (newLower b m) (newUpper b m) now) file := by
  have hlimits := h.limits
  have hl : (UInt32.ofNat (newLower b m)).toNat = newLower b m :=
    toNat_ofNat (by omega)
  have hu : (UInt32.ofNat (newUpper b m)).toNat = newUpper b m :=
    toNat_ofNat (by omega)
  have hn : (UInt32.ofNat now).toNat = now := toNat_ofNat (by omega)
  have htrees := h.trees
  have hstamps := h.stamps
  refine ⟨?_, ?_, h.file, htrees.gc, htrees.main, hstamps.phases, hstamps.txnid, htrees.gcMod,
    htrees.mainMod, hstamps.sign⟩
  · unfold Meta.withGeometry
    dsimp only
    rw [hl, hu, hn]
    exact ⟨hlower, hupper⟩
  · unfold Meta.withGeometry
    dsimp only
    rw [hn]
    exact ⟨h.bounds.allocated.1, hfirst⟩

theorem withGeometry_lower (h : Sound b m page metaNumber file) (now : Nat) (hn : now < 2 ^ 32) :
    (m.withGeometry (newLower b m) (newUpper b m) now).geometry.lower.toNat = newLower b m ∧
    (m.withGeometry (newLower b m) (newUpper b m) now).geometry.now.toNat = now := by
  have hlimits := h.limits
  exact ⟨toNat_ofNat (by omega), toNat_ofNat hn⟩

/-- A meta whose limits are not repaired changes in its end only. -/
theorem withGeometry_same (now : Nat) :
    m.withGeometry m.geometry.lower.toNat m.geometry.upper.toNat now =
      { m with geometry := { m.geometry with now := UInt32.ofNat now } } := by
  unfold Meta.withGeometry
  rw [UInt32.ofNat_toNat, UInt32.ofNat_toNat]

/-! ## 4. Accepted metas -/

/-- The end of a consistent meta: raised to the end of the file, but not over the limit. -/
def raisedNow (m : Meta) (file : File) : Nat :=
  max m.geometry.now.toNat (min (dxbsizePages m file) m.geometry.upper.toNat)

/-- What the validation is to do: an accepted meta is consistent, and a consistent one is accepted
with its end raised at most. -/
def Upheld (b : Build) (m : Meta) (page : PageHead) (metaNumber : Nat) (file : File)
    (guess : Option UInt32) : Prop :=
  (∀ m', (metaValidate b m page metaNumber file guess).1 = .ok m' → Consistent m' file) ∧
  (Readable b m page metaNumber → Consistent m file →
    (metaValidate b m page metaNumber file guess).1 =
      .ok { m with geometry := { m.geometry with now := UInt32.ofNat (raisedNow m file) } })

/-- The low half of the number of pages is used in place of the number, and is too small. -/
def Truncated (b : Build) (m : Meta) (page : PageHead) (metaNumber : Nat) (file : File) : Prop :=
  2 ^ 32 ≤ dxbsizePages m file ∧
  (Sound b m page metaNumber file ∧
      m.geometry.firstUnallocated.toNat ≤ dxbsizePages m file % 2 ^ 32 ∧
      dxbsizePages m file % 2 ^ 32 < min m.geometry.lower.toNat (mapLimit b m) ∨
    Readable b m page metaNumber ∧ Consistent m file ∧
      dxbsizePages m file % 2 ^ 32 < m.geometry.upper.toNat)

theorem upheld_small (hpages : dxbsizePages m file < 2 ^ 32) :
    Upheld b m page metaNumber file guess := by
  constructor
  · intro m' hok
    obtain ⟨hsound, hfirst, rfl⟩ := metaValidate_ok.mp hok
    have hlimits := hsound.limits
    have hnow := newNow_small (b := b) hpages
    exact withGeometry_consistent hsound (by omega) (by omega) hfirst
  · intro hread hcons
    have hsound := hcons.sound hread
    obtain ⟨hlower, hupper⟩ := hcons.limits hread
    have hnow := newNow_small (b := b) hpages
    have hin := hcons.now
    have hallocated := hcons.allocated
    have hraised : newNow b m file = raisedNow m file := by
      unfold raisedNow
      rw [hnow, hlower, hupper]
      omega
    rw [metaValidate_ok, hlower, hupper, hraised, withGeometry_same]
    refine ⟨hsound, ?_, rfl⟩
    unfold raisedNow
    omega

/-- The validation does what it is to do exactly where no truncated number of pages is used. -/
theorem meta_validate_upheld_iff (b : Build) (m : Meta) (page : PageHead) (metaNumber : Nat)
    (file : File) (guess : Option UInt32) :
    Upheld b m page metaNumber file guess ↔ ¬Truncated b m page metaNumber file := by
  rcases Nat.lt_or_ge (dxbsizePages m file) (2 ^ 32) with hsmall | hlarge
  · refine ⟨fun _ htrunc => ?_, fun _ => upheld_small hsmall⟩
    have := htrunc.1
    omega
  · constructor
    · rintro ⟨haccept, hkeep⟩ ⟨_, ⟨hsound, hfirst, hless⟩ | ⟨hread, hcons, hless⟩⟩
      · -- accepted with an end below the lower limit
        have hlimits := hsound.limits
        have hnow := newNow_large hsound hlarge
        have hless' : dxbsizePages m file % 2 ^ 32 < newLower b m := hless
        have hok := haccept _ (metaValidate_ok.mpr ⟨hsound, by omega, rfl⟩)
        have hfields := withGeometry_lower hsound (newNow b m file) (by omega)
        have hrange := hok.now.1
        omega
      · -- refused, or accepted with a wrong end
        have hsound := hcons.sound hread
        have hnow := newNow_large hsound hlarge
        have hrange := hcons.now
        obtain ⟨_, hupper⟩ := hcons.limits hread
        obtain ⟨_, _, heq⟩ := metaValidate_ok.mp (hkeep hread hcons)
        have hend := congrArg (fun m => m.geometry.now.toNat) heq
        have hfields := withGeometry_lower hsound (newNow b m file) (by
          have := hsound.limits
          omega)
        have hraised : raisedNow m file = m.geometry.upper.toNat := by
          unfold raisedNow
          have hlt := m.geometry.upper.toNat_lt
          omega
        dsimp only at hend
        rw [hfields.2, hraised, toNat_ofNat m.geometry.upper.toNat_lt] at hend
        omega
    · intro htrunc
      constructor
      · intro m' hok
        obtain ⟨hsound, hfirst, rfl⟩ := metaValidate_ok.mp hok
        have hlimits := hsound.limits
        have hnow := newNow_large hsound hlarge
        refine withGeometry_consistent hsound ?_ (by omega) hfirst
        by_contra hless
        refine htrunc ⟨hlarge, .inl ⟨hsound, ?_⟩⟩
        have hless' : newNow b m file < min m.geometry.lower.toNat (mapLimit b m) :=
          Nat.lt_of_not_le hless
        have hlower : newLower b m = min m.geometry.lower.toNat (mapLimit b m) := rfl
        omega
      · intro hread hcons
        have hsound := hcons.sound hread
        obtain ⟨hlower, hupper⟩ := hcons.limits hread
        have hnow := newNow_large hsound hlarge
        have hin := hcons.now
        have hallocated := hcons.allocated
        have hmuch : m.geometry.upper.toNat ≤ dxbsizePages m file % 2 ^ 32 := by
          by_contra hless
          exact htrunc ⟨hlarge, .inr ⟨hread, hcons, Nat.lt_of_not_le hless⟩⟩
        have hraised : newNow b m file = raisedNow m file := by
          have hlt := m.geometry.upper.toNat_lt
          unfold raisedNow
          rw [hnow, hupper]
          omega
        rw [metaValidate_ok, hlower, hupper, hraised, withGeometry_same]
        refine ⟨hsound, ?_, rfl⟩
        unfold raisedNow
        omega

/-! A file of 2^32 and 50 pages of 256 bytes, with a lower limit of 100 pages. -/

theorem page_granular : 12 ≤ 22 := by decide

def wideBuild : Build := ⟨true, false, false, 12, page_granular⟩

def emptyTree (flags : UInt16) (dupfixSize : UInt32) : Tree :=
  ⟨flags, 0, dupfixSize, pInvalid, 0, 0, 0, 0, 0, 0⟩

def plainMeta (lower upper now firstUnallocated : UInt32) : Meta :=
  ⟨UInt64.ofNat (dataMagic wideBuild), 5, ⟨0, 0, lower, upper, now, firstUnallocated⟩,
    emptyTree integerKey 256, emptyTree 0 0, 1, 5⟩

def hugeFile : File := ⟨UInt64.ofNat ((2 ^ 32 + 50) * 256), .error 0⟩

/-- A consistent meta page gets an end below its lower limit, and one with more allocated pages is
refused. -/
theorem metaValidate_truncates :
    metaValidateCopy wideBuild (plainMeta 100 1000 100 3) ⟨pMeta, 0⟩ 0 hugeFile =
      .ok (plainMeta 100 1000 50 3) ∧
    metaValidateCopy wideBuild (plainMeta 100 1000 100 60) ⟨pMeta, 0⟩ 0 hugeFile =
      .error .corrupted ∧
    ¬Upheld wideBuild (plainMeta 100 1000 100 3) ⟨pMeta, 0⟩ 0 hugeFile none := by
  have haccepted : metaValidateCopy wideBuild (plainMeta 100 1000 100 3) ⟨pMeta, 0⟩ 0 hugeFile =
      .ok (plainMeta 100 1000 50 3) := by rfl
  refine ⟨haccepted, by rfl, fun h => ?_⟩
  have hrange := (h.1 _ haccepted).now.1
  exact absurd hrange (by decide)

end Mdbx.MetaPage
