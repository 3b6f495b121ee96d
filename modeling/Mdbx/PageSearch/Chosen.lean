import Mdbx.PageSearch.Agree

/-!
# PageSearch.Chosen — the search that a cursor chooses

Whichever of the generated searches the tables' flags and the key length lead to, its comparators
answer as the one of the table, so it finds what the plain search and a linear scan find.
-/

namespace Mdbx.PageSearch

open Compare Comparator

variable {s : Set Bytes} {m : Machine} {c : Cursor} {mp : Page} {key : Bytes}

/-! ## 1. Integer keys -/

-- the value of an integer comparator does not depend on the alignment
theorem cmpUintInline_align (m : Machine) (i j : Nat) (a b : Bytes) :
    cmpUintInline m i a b = cmpUintInline m j a b := by
  by_cases hlen : a.length = b.length
  · by_cases hfour : a.length = 4
    · rw [cmpUintInline_eq4 m i hfour (by omega), cmpUintInline_eq4 m j hfour (by omega)]
    · by_cases height : a.length = 8
      · rw [cmpUintInline_eq8 m i height (by omega), cmpUintInline_eq8 m j height (by omega)]
      · simp only [cmpUintInline, hfour, height, and_false, if_false]
  · simp only [cmpUintInline, hlen, if_false]

theorem cmpUintAlign2_eq (m : Machine) (a b : Bytes) : cmpUintAlign2 m a b = cmpUintInline m 1 a b := by
  unfold cmpUintAlign2
  split
  · exact cmpUintInline_align m 2 1 a b
  · rfl

theorem cmpUintAlign4_eq (m : Machine) (a b : Bytes) : cmpUintAlign4 m a b = cmpUintInline m 1 a b := by
  unfold cmpUintAlign4
  split
  · exact cmpUintInline_align m 4 1 a b
  · rfl

theorem call_uint {f : CmpFunc} (hf : f.isUint = true) (a b : Bytes) :
    f.call m a b = cmpUintInline m 1 a b := by
  cases f with
  | uintUnaligned => rfl
  | uintAlign2 => exact cmpUintAlign2_eq m a b
  | uintAlign4 => exact cmpUintAlign4_eq m a b
  | lexical => exact absurd hf Bool.false_ne_true
  | reverse => exact absurd hf Bool.false_ne_true
  | lenfast => exact absurd hf Bool.false_ne_true
  | custom cmp => exact absurd hf Bool.false_ne_true

/-- Where an integer comparator is total, all keys have one size. -/
theorem same_size {f : CmpFunc} (hf : f.isUint = true) (h : TotalOn s (f.call m)) {a b : Bytes}
    (ha : a ∈ s) (hb : b ∈ s) : a.length = b.length := by
  by_contra hne
  have hzero : f.call m a b = 0 := by
    rw [call_uint hf]
    unfold cmpUintInline
    rw [if_neg hne]
  exact hne (congrArg List.length (h.eq a ha b hb hzero))

theorem call_eq32 {f : CmpFunc} (hf : f.isUint = true) {cmp : Bytes → Bytes → Int}
    (hcmp : cmp ∈ comparators32 m) {a b : Bytes} (ha : a.length = 4) (hb : b.length = 4) :
    cmp a b = f.call m a b := by
  rw [comparators32_eq hcmp ha hb, call_uint hf, cmpUintInline_eq4 m 1 ha hb]

theorem call_eq64 {f : CmpFunc} (hf : f.isUint = true) {cmp : Bytes → Bytes → Int}
    (hcmp : cmp ∈ comparators64 m) {a b : Bytes} (ha : a.length = 8) (hb : b.length = 8) :
    cmp a b = f.call m a b := by
  rw [comparators64_eq hcmp ha hb, call_uint hf, cmpUintInline_eq8 m 1 ha hb]

/-- What the choice among the searches for integer keys has checked. -/
theorem ordinalChoice_cases {α : Type} (c : Cursor) (keylen : Nat) (x32 x64 xord xcustom : α)
    {P : α → Prop} (h32 : c.cmp.isUint = true → keylen = 4 → P x32)
    (h64 : c.cmp.isUint = true → keylen = 8 → P x64) (hord : c.cmp.isUint = true → P xord)
    (hcustom : P xcustom) : P (ordinalChoice c keylen x32 x64 xord xcustom) := by
  have hcmp : (c.narrow keylen).cmp = c.cmp := by
    unfold Cursor.narrow
    split
    · rfl
    · rfl
  unfold ordinalChoice
  dsimp only
  rw [hcmp]
  cases huint : c.cmp.isUint with
  | false =>
    rw [if_neg Bool.false_ne_true, if_neg (not_not.mpr rfl)]
    exact hcustom
  | true =>
    rw [if_pos rfl]
    split
    · split
      · rename_i hsize
        exact h32 huint hsize.2.2.2
      · split
        · rename_i hsize
          exact h64 huint hsize.2.2.2
        · exact hord huint
    · exact hcustom

/-! ## 2. The chosen search -/

theorem Serves.same {call : Bytes → Bytes → Int} (hkind : mp.kind ≠ .dupfixLeaf) :
    Serves call mp key (searchFoliage call nullComparator false false) :=
  ⟨_, _, _, _, rfl, nofun, fun _ => hkind, fun _ _ _ => ⟨rfl, fun h => by simp at h⟩⟩

theorem Serves.sameDupfix {call : Bytes → Bytes → Int} (hkind : mp.kind ≠ .leaf) :
    Serves call mp key (searchFoliage call call false true) :=
  ⟨_, _, _, _, rfl, fun _ => hkind, nofun, fun _ _ _ => ⟨rfl, fun _ => rfl⟩⟩

/-- A search for integers of tables without dupfix pages. -/
theorem Serves.usual {call branch leaf : Bytes → Bytes → Int} (separate : Bool)
    (hkind : mp.kind ≠ .dupfixLeaf)
    (hbranch : ∀ i, mp.start ≤ i → i < mp.numkeys → branch (mp.key i) key = call (mp.key i) key)
    (hleaf : ∀ i, mp.start ≤ i → i < mp.numkeys → leaf (mp.key i) key = call (mp.key i) key) :
    Serves call mp key (if separate = true then searchFoliage branch leaf true false
      else searchFoliage branch nullComparator false false) := by
  cases separate with
  | true =>
    exact ⟨_, _, _, _, rfl, nofun, fun _ => hkind, fun i hlo hi =>
      ⟨hbranch i hlo hi, fun _ => hleaf i hlo hi⟩⟩
  | false =>
    exact ⟨_, _, _, _, rfl, nofun, fun _ => hkind, fun i hlo hi =>
      ⟨hbranch i hlo hi, fun h => by simp at h⟩⟩

/-- A search for integers of one size in dupfix pages. -/
theorem Serves.dupfix {call branch leaf : Bytes → Bytes → Int} (hkind : mp.kind ≠ .leaf)
    (hbranch : ∀ i, mp.start ≤ i → i < mp.numkeys → branch (mp.key i) key = call (mp.key i) key)
    (hleaf : ∀ i, mp.start ≤ i → i < mp.numkeys → leaf (mp.key i) key = call (mp.key i) key) :
    Serves call mp key (searchFoliage branch leaf true true) :=
  ⟨_, _, _, _, rfl, fun _ => hkind, nofun, fun i hlo hi =>
    ⟨hbranch i hlo hi, fun _ => hleaf i hlo hi⟩⟩

-- where one searched key has `n` bytes, each has, and so has the sought key
theorem Searchable.sizes (h : Searchable s m c mp key) (huint : c.cmp.isUint = true) {n i : Nat}
    (hlo : mp.start ≤ i) (hi : i < mp.numkeys) (hn : (mp.key i).length = n) :
    (∀ j, mp.start ≤ j → j < mp.numkeys → (mp.key j).length = n) ∧ key.length = n := by
  have hmem := h.entries i hlo hi
  constructor
  · intro j hlo' hj
    rw [same_size huint h.total (h.entries j hlo' hj) hmem, hn]
  · rw [same_size huint h.total h.sought hmem, hn]

theorem mem_unaligned32 (m : Machine) : cmpUint32UnalignedUnchecked m ∈ comparators32 m := by
  simp [comparators32]

theorem mem_align32 (m : Machine) : cmpUint32Align4Unchecked m ∈ comparators32 m := by
  simp [comparators32]

theorem mem_unaligned64 (m : Machine) : cmpUint64UnalignedUnchecked m ∈ comparators64 m := by
  simp [comparators64]

theorem mem_align64 (m : Machine) : cmpUint64Align4Unchecked m ∈ comparators64 m := by
  simp [comparators64]

/-- With keys of 4 bytes, all comparators of such integers answer as that of the table. -/
theorem Searchable.same32 (h : Searchable s m c mp key) (huint : c.cmp.isUint = true)
    {cmp : Bytes → Bytes → Int} (hcmp : cmp ∈ comparators32 m)
    (hsize : ∀ j, mp.start ≤ j → j < mp.numkeys → (mp.key j).length = 4) :
    ∀ i, mp.start ≤ i → i < mp.numkeys → cmp (mp.key i) key = c.cmp.call m (mp.key i) key := by
  intro i hlo hi
  have hkey := (h.sizes huint hlo hi (hsize i hlo hi)).2
  exact call_eq32 huint hcmp (hsize i hlo hi) hkey

theorem Searchable.same64 (h : Searchable s m c mp key) (huint : c.cmp.isUint = true)
    {cmp : Bytes → Bytes → Int} (hcmp : cmp ∈ comparators64 m)
    (hsize : ∀ j, mp.start ≤ j → j < mp.numkeys → (mp.key j).length = 8) :
    ∀ i, mp.start ≤ i → i < mp.numkeys → cmp (mp.key i) key = c.cmp.call m (mp.key i) key := by
  intro i hlo hi
  have hkey := (h.sizes huint hlo hi (hsize i hlo hi)).2
  exact call_eq64 huint hcmp (hsize i hlo hi) hkey

/-- The length of the first node, where it is not 0, is that of all searched keys. -/
theorem Searchable.first (h : Searchable s m c mp key) (huint : c.cmp.isUint = true) {n : Nat}
    (hn : (mp.key 0).length = n) (hpos : n ≠ 0) :
    ∀ j, mp.start ≤ j → j < mp.numkeys → (mp.key j).length = n := by
  intro j hlo hj
  have hkind : mp.kind ≠ .branch := fun hk => hpos (by rw [← hn, h.leftmost hk]; rfl)
  have hstart : mp.start = 0 := by
    unfold Page.start
    rw [if_neg hkind]
  exact (h.sizes huint (by omega) (by omega) hn).1 j hlo hj

-- the part of the choice for dupfix pages that the table's flags leave to the key length
theorem serves_integer_dupfix (h : Searchable s m c mp key)
    (hinner : c.dupfixed = true ∧ c.inner = true) :
    Serves (c.cmp.call m) mp key (if c.integerKey = true then
      ordinalChoice c c.dupfixSize (searchFoliageUint32Dupfix m) (searchFoliageUint64Dupfix m)
        (searchFoliageOrdinalDupfix m) (searchFoliageCustomDupfix (c.cmp.call m))
      else searchFoliageCustomDupfix (c.cmp.call m)) := by
  obtain ⟨hkind, hsized⟩ := h.dupfix hinner
  split
  · apply ordinalChoice_cases
    · intro huint hsize
      rw [hsize] at hsized
      exact Serves.dupfix hkind (h.same32 huint (mem_align32 m) hsized)
        (h.same32 huint (mem_unaligned32 m) hsized)
    · intro huint hsize
      rw [hsize] at hsized
      exact Serves.dupfix hkind (h.same64 huint (mem_align64 m) hsized)
        (h.same64 huint (mem_unaligned64 m) hsized)
    · intro huint
      apply Serves.dupfix hkind
      · intro i _ _
        rw [cmpUintAlign4_eq, call_uint huint]
      · intro i _ _
        rw [call_uint huint]
        rfl
    · exact Serves.sameDupfix hkind
  · exact Serves.sameDupfix hkind

theorem serves_integer_usual (h : Searchable s m c mp key) (hkind : mp.kind ≠ .dupfixLeaf) :
    Serves (c.cmp.call m) mp key (if c.integerKey = true then
      ordinalChoice c (mp.key 0).length (searchFoliageUint32Usual m) (searchFoliageUint64Usual m)
        (searchFoliageOrdinalUsual m) (searchFoliageCustomUsual (c.cmp.call m))
      else searchFoliageCustomUsual (c.cmp.call m)) := by
  split
  · apply ordinalChoice_cases
    · intro huint hsize
      have hsized := h.first huint hsize (by decide)
      exact Serves.usual (m.separate 4) hkind (h.same32 huint (mem_align32 m) hsized)
        (h.same32 huint (mem_unaligned32 m) hsized)
    · intro huint hsize
      have hsized := h.first huint hsize (by decide)
      exact Serves.usual (m.separate 4) hkind (h.same64 huint (mem_align64 m) hsized)
        (h.same64 huint (mem_unaligned64 m) hsized)
    · intro huint
      apply Serves.usual (m.separate 4) hkind
      · intro i _ _
        rw [cmpUintAlign4_eq, call_uint huint]
      · intro i _ _
        rw [call_uint huint]
        rfl
    · exact Serves.same hkind
  · exact Serves.same hkind

theorem serves_chosen (h : Searchable s m c mp key) :
    Serves (c.cmp.call m) mp key (cursorToSearchFoliage m c mp) := by
  unfold cursorToSearchFoliage
  by_cases hinner : c.dupfixed = true ∧ c.inner = true
  · have hinteger := serves_integer_dupfix h hinner
    have hkind := (h.dupfix hinner).1
    rw [if_pos hinner]
    cases hcmp : c.cmp with
    | lexical => exact Serves.sameDupfix hkind
    | reverse => exact Serves.sameDupfix hkind
    | lenfast => exact Serves.sameDupfix hkind
    | uintUnaligned => rw [hcmp] at hinteger; exact hinteger
    | uintAlign2 => rw [hcmp] at hinteger; exact hinteger
    | uintAlign4 => rw [hcmp] at hinteger; exact hinteger
    | custom cmp => rw [hcmp] at hinteger; exact hinteger
  · have hkind := h.usual hinner
    have hinteger := serves_integer_usual h hkind
    rw [if_neg hinner]
    cases hcmp : c.cmp with
    | lexical => exact Serves.same hkind
    | reverse => exact Serves.same hkind
    | lenfast => exact Serves.same hkind
    | uintUnaligned => rw [hcmp] at hinteger; exact hinteger
    | uintAlign2 => rw [hcmp] at hinteger; exact hinteger
    | uintAlign4 => rw [hcmp] at hinteger; exact hinteger
    | custom cmp => rw [hcmp] at hinteger; exact hinteger

/-! ## 3. The plain search -/

theorem oldComparator_eq (m : Machine) (f : CmpFunc) (mp : Page) (a b : Bytes) :
    oldComparator m f mp a b = f.call m a b := by
  unfold oldComparator
  cases f with
  | uintAlign2 =>
    dsimp only
    split
    · rw [cmpUintAlign4_eq]
      exact (cmpUintAlign2_eq m a b).symm
    · rfl
  | uintUnaligned =>
    dsimp only
    split
    · exact cmpUintAlign4_eq m a b
    · rfl
  | uintAlign4 => rfl
  | lexical => rfl
  | reverse => rfl
  | lenfast => rfl
  | custom cmp => rfl

theorem Searchable.oldLoop (h : Searchable s m c mp key) (hlt : mp.start < mp.numkeys) :
    let out := oldLoop (fun i => c.cmp.call m key (mp.key i)) mp.numkeys mp.start (mp.numkeys - 1)
    0 ≤ out.1 ∧ Placed (c.compares m mp key) mp.start mp.numkeys out.1.toNat out.2 := by
  have hsign : ∀ i : Nat, (mp.start : Int) ≤ i → i < mp.numkeys →
      (c.compares m mp key i < 0 ↔ 0 < c.cmp.call m key (mp.key i)) ∧
        (0 < c.compares m mp key i ↔ c.cmp.call m key (mp.key i) < 0) := by
    intro i hlo hi
    have hmem := h.entries i (by omega) hi
    exact ⟨h.total.anti _ hmem _ h.sought, (h.total.anti _ h.sought _ hmem).symm⟩
  have hplaced := oldLoop_placed mp.numkeys (a := mp.start)
    (b := (mp.numkeys : Int) - 1) hsign (by rw [Int.toNat_natCast]; exact h.ascends) (by omega)
    (by omega) (by omega) (by omega) (by omega) (fun i h₁ h₂ => by omega) (fun i h₁ h₂ => by omega)
  rw [Int.toNat_natCast] at hplaced
  exact hplaced

theorem oldNodeSearch_placed (h : Searchable s m c mp key) (hlt : mp.start < mp.numkeys) :
    ∃ pos exact, Placed (c.compares m mp key) mp.start mp.numkeys pos exact ∧
      oldNodeSearch m c.cmp mp key = resultAt mp.nodeAt mp.numkeys pos exact := by
  obtain ⟨hpos, hplaced⟩ := h.oldLoop hlt
  refine ⟨_, _, hplaced, ?_⟩
  have hhigh := hplaced.high
  have hfits := mp.fits
  have hcomp : (fun i => oldComparator m c.cmp mp key (mp.key i)) =
      fun i => c.cmp.call m key (mp.key i) := by
    funext i
    exact oldComparator_eq m c.cmp mp key (mp.key i)
  unfold oldNodeSearch resultAt Page.nodeAt
  dsimp only
  rw [if_neg (by omega), hcomp]
  generalize PageSearch.oldLoop (fun i => c.cmp.call m key (mp.key i)) mp.numkeys mp.start
    (mp.numkeys - 1) = out at *
  have hki : indx out.1.toNat = out.1.toNat := indx_of_lt (by unfold Page.numkeys at hhigh; omega)
  have hedge : out.1 < mp.numkeys ↔ out.1.toNat < mp.numkeys := by omega
  by_cases hkind : mp.kind = .dupfixLeaf
  · rw [if_pos hkind, if_pos hkind, hki]
    simp only [hedge]
  · rw [if_neg hkind, if_neg hkind, hki]
    simp only [hedge]

theorem oldNodeSearch_empty (hle : mp.numkeys ≤ mp.start) :
    oldNodeSearch m c.cmp mp key = ⟨.null, false, 0⟩ := by
  unfold oldNodeSearch
  dsimp only
  rw [if_pos (by omega)]

theorem foliage_eq_old (h : Searchable s m c mp key) :
    cursorToSearchFoliage m c mp mp key = oldNodeSearch m c.cmp mp key := by
  rcases Nat.lt_or_ge mp.start mp.numkeys with hlt | hge
  · obtain ⟨pos, exact, hplaced, hres⟩ := (serves_chosen h).placed h.ascends hlt
    obtain ⟨pos', exact', hplaced', hres'⟩ := oldNodeSearch_placed h hlt
    obtain ⟨rfl, rfl⟩ := hplaced.unique hplaced'
    rw [hres, hres']
  · rw [(serves_chosen h).empty hge, oldNodeSearch_empty hge]

/-! ## 4. Branch pages -/

theorem searchBranch_childAt {call cmp : Bytes → Bytes → Int}
    (hsame : ∀ i, 1 ≤ i → i < mp.numkeys → cmp (mp.key i) key = call (mp.key i) key)
    (hasc : Ascends (fun i => call (mp.key i) key) 1 mp.numkeys) (hpos : 0 < mp.numkeys) :
    ChildAt (fun i => call (mp.key i) key) mp.numkeys (searchBranch cmp mp key) := by
  unfold searchBranch
  dsimp only
  by_cases hone : 1 < mp.numkeys
  · have hasc' : Ascends (fun i => cmp (mp.key i) key) 1 mp.numkeys := by
      intro i j hlo hij hj hle
      dsimp only at hle ⊢
      rw [hsame j (by omega) hj] at hle
      rw [hsame i hlo (by omega)]
      exact hasc i j hlo hij hj hle
    have hcongr : ∀ {pos exact}, Placed (fun i => cmp (mp.key i) key) 1 mp.numkeys pos exact →
        Placed (fun i => call (mp.key i) key) 1 mp.numkeys pos exact := by
      intro pos exact hplaced
      refine hplaced.congr fun i hlo hi => ?_
      rw [hsame i hlo hi]
      exact ⟨Iff.rfl, Iff.rfl⟩
    have hscope : Scope (fun i => cmp (mp.key i) key) 1 mp.numkeys 1 (mp.numkeys - 1) :=
      ⟨Nat.le_refl 1, by omega, fun i h₁ h₂ => by omega, fun i h₁ h₂ => by omega⟩
    have hcycle := hscope.cycle hasc' (by omega) (Nat.le_refl _)
    rw [if_pos hone]
    cases hend : cycle (fun i => cmp (mp.key i) key) (mp.numkeys - 1) 1 (mp.numkeys - 1) with
    | found it =>
      rw [hend] at hcycle
      exact (hcongr hcycle).childAt hasc
    | missed it lo' last =>
      rw [hend] at hcycle
      exact (hcongr hcycle.2).childAt hasc
  · rw [if_neg hone]
    exact ⟨hpos, fun i h₁ h₂ => by omega, fun h => by omega⟩

/-- The comparator of the branch search that a cursor chooses answers as that of the table. -/
theorem branch_chosen (h : Searchable s m c mp key) (hkind : mp.kind = .branch) :
    ∃ cmp : Bytes → Bytes → Int, cursorToSearchBranch m c mp = searchBranch cmp ∧
      ∀ i, 1 ≤ i → i < mp.numkeys → cmp (mp.key i) key = c.cmp.call m (mp.key i) key := by
  have hstart : mp.start = 1 := by
    unfold Page.start
    rw [if_pos hkind]
  have hinteger : ∃ cmp : Bytes → Bytes → Int, (if c.integerKey = true then
      ordinalChoice c (if mp.kind = .dupfixLeaf then c.dupfixSize else (mp.key mp.start).length)
        (searchBranch (cmpUint32Align4Unchecked m)) (searchBranch (cmpUint64Align4Unchecked m))
        (searchBranch (cmpUintAlign4 m)) (searchBranch (c.cmp.call m))
      else searchBranch (c.cmp.call m)) = searchBranch cmp ∧
      ∀ i, 1 ≤ i → i < mp.numkeys → cmp (mp.key i) key = c.cmp.call m (mp.key i) key := by
    have hdup : ¬mp.kind = .dupfixLeaf := by
      rw [hkind]
      decide
    rw [if_neg hdup, hstart]
    -- the length of entry 1 is that of every entry
    have hsized : ∀ {n : Nat}, c.cmp.isUint = true → (mp.key 1).length = n →
        ∀ j, mp.start ≤ j → j < mp.numkeys → (mp.key j).length = n := by
      intro n huint hn j hlo hj
      exact (h.sizes huint (i := 1) (by omega) (by omega) hn).1 j hlo hj
    split
    · refine ordinalChoice_cases (P := fun x => ∃ cmp, x = searchBranch cmp ∧
        ∀ i, 1 ≤ i → i < mp.numkeys → cmp (mp.key i) key = c.cmp.call m (mp.key i) key)
        c _ _ _ _ _ ?_ ?_ ?_ ?_
      · intro huint hn
        refine ⟨_, rfl, fun i hlo hi => ?_⟩
        exact h.same32 huint (mem_align32 m) (hsized huint hn) i (by omega) hi
      · intro huint hn
        refine ⟨_, rfl, fun i hlo hi => ?_⟩
        exact h.same64 huint (mem_align64 m) (hsized huint hn) i (by omega) hi
      · intro huint
        refine ⟨_, rfl, fun i _ _ => ?_⟩
        rw [cmpUintAlign4_eq, call_uint huint]
      · exact ⟨_, rfl, fun _ _ _ => rfl⟩
    · exact ⟨_, rfl, fun _ _ _ => rfl⟩
  unfold cursorToSearchBranch
  cases hcmp : c.cmp with
  | lexical => exact ⟨_, rfl, fun _ _ _ => rfl⟩
  | reverse => exact ⟨_, rfl, fun _ _ _ => rfl⟩
  | lenfast => exact ⟨_, rfl, fun _ _ _ => rfl⟩
  | uintUnaligned => rw [hcmp] at hinteger; exact hinteger
  | uintAlign2 => rw [hcmp] at hinteger; exact hinteger
  | uintAlign4 => rw [hcmp] at hinteger; exact hinteger
  | custom cmp => rw [hcmp] at hinteger; exact hinteger

theorem oldBranchSearch_childAt (h : Searchable s m c mp key) (hkind : mp.kind = .branch)
    (hpos : 0 < mp.numkeys) :
    ChildAt (c.compares m mp key) mp.numkeys (oldBranchSearch m c.cmp mp key) := by
  have hstart : mp.start = 1 := by
    unfold Page.start
    rw [if_pos hkind]
  have hasc := h.ascends
  rw [hstart] at hasc
  unfold oldBranchSearch
  dsimp only
  rcases Nat.lt_or_ge 1 mp.numkeys with hlt | hge
  · obtain ⟨pos, exact, hplaced, hres⟩ := oldNodeSearch_placed h (hstart ▸ hlt)
    rw [hstart] at hplaced
    have hnode : mp.nodeAt pos = .node pos := by
      unfold Page.nodeAt
      rw [if_neg (by rw [hkind]; decide)]
    rw [hres]
    unfold resultAt
    dsimp only
    by_cases hin : pos < mp.numkeys
    · rw [if_pos hin, hnode, if_pos (by simp)]
      exact hplaced.childAt hasc
    · rw [if_neg hin, if_neg (not_not.mpr rfl)]
      have hend : pos = mp.numkeys := by
        have := hplaced.high
        omega
      have hexact : exact = false := by
        cases exact with
        | true => exact absurd (hplaced.found rfl).1 hin
        | false => rfl
      have hchild := hplaced.childAt hasc
      rw [hexact, hend] at hchild
      exact hchild
  · rw [oldNodeSearch_empty (by omega), if_neg (not_not.mpr rfl)]
    exact ⟨by omega, fun i h₁ h₂ => by omega, fun h' => by omega⟩

/-! ## 5. All searches -/

theorem mem_keys_iff (h : Searchable s m c mp key) (hstart : mp.start = 0) :
    (∃ i, 0 ≤ i ∧ i < mp.numkeys ∧ c.compares m mp key i = 0) ↔ key ∈ mp.keys := by
  constructor
  · rintro ⟨i, _, hi, hzero⟩
    have heq := h.total.eq _ (h.entries i (by omega) hi) _ h.sought hzero
    have hget : mp.key i = mp.keys.get ⟨i, hi⟩ := List.getD_eq_getElem _ _ hi
    rw [← heq, hget]
    exact List.getElem_mem hi
  · intro hmem
    obtain ⟨i, hi, heq⟩ := List.mem_iff_getElem.mp hmem
    refine ⟨i, Nat.zero_le i, hi, ?_⟩
    have hget : mp.key i = key := (List.getD_eq_getElem _ _ hi).trans heq
    unfold Cursor.compares
    rw [hget]
    exact h.total.refl key h.sought

/-- The search that a cursor chooses answers as the plain one on every page, and as a linear scan:
with the first entry that is not less than the key, which it calls exact when the key is there; on a
branch page with the child whose interval holds the key. -/
theorem page_search_agrees (s : Set Bytes) (m : Machine) (c : Cursor) (mp : Page) (key : Bytes)
    (h : Searchable s m c mp key) :
    cursorToSearchFoliage m c mp mp key = oldNodeSearch m c.cmp mp key ∧
    (mp.kind ≠ .branch →
      let found := linearScan (c.cmp.call m) key mp.keys
      cursorToSearchFoliage m c mp mp key = resultAt mp.nodeAt mp.numkeys found.1 found.2 ∧
      Placed (c.compares m mp key) 0 mp.numkeys found.1 found.2 ∧
      (found.2 = true ↔ key ∈ mp.keys)) ∧
    (mp.kind = .branch → 0 < mp.numkeys →
      let child := linearChild (c.cmp.call m) key mp.keys.tail
      cursorToSearchBranch m c mp mp key = child ∧ oldBranchSearch m c.cmp mp key = child ∧
      ChildAt (c.compares m mp key) mp.numkeys child) := by
  refine ⟨foliage_eq_old h, fun hkind => ?_, fun hkind hpos => ?_⟩
  · have hstart : mp.start = 0 := by
      unfold Page.start
      rw [if_neg hkind]
    have hlinear : Placed (c.compares m mp key) 0 mp.numkeys
        (linearScan (c.cmp.call m) key mp.keys).1 (linearScan (c.cmp.call m) key mp.keys).2 :=
      linearScan_placed (c.cmp.call m) key mp.keys
    have hasc := h.ascends
    refine ⟨?_, hlinear, ?_⟩
    · rcases Nat.lt_or_ge 0 mp.numkeys with hlt | hge
      · obtain ⟨pos, exact, hplaced, hres⟩ := (serves_chosen h).placed hasc (by omega)
        rw [hstart] at hplaced
        obtain ⟨rfl, rfl⟩ := hplaced.unique hlinear
        exact hres
      · have hnil : mp.keys = [] := List.length_eq_zero_iff.mp (by unfold Page.numkeys at hge; omega)
        rw [(serves_chosen h).empty (by omega), hnil]
        unfold resultAt
        rw [if_neg (by simp only [linearScan]; omega)]
        rfl
    · rw [hstart] at hasc
      exact (hlinear.exact_iff hasc).trans (mem_keys_iff h hstart)
  · have hstart : mp.start = 1 := by
      unfold Page.start
      rw [if_pos hkind]
    have hasc := h.ascends
    rw [hstart] at hasc
    have hchild : ChildAt (c.compares m mp key) mp.numkeys
        (linearChild (c.cmp.call m) key mp.keys.tail) :=
      linearChild_childAt (c.cmp.call m) key mp.keys hpos
    obtain ⟨cmp, hsearch, hsame⟩ := branch_chosen h hkind
    refine ⟨?_, (oldBranchSearch_childAt h hkind hpos).unique hchild, hchild⟩
    rw [hsearch]
    exact (searchBranch_childAt hsame hasc hpos).unique hchild

/-- A cursor of a table with plain keys. -/
def plainCursor : Cursor := ⟨false, false, 0, false, false, .lexical, 0, 255⟩

def leafPage : Page := ⟨.leaf, [[1], [2, 0], [5]], by decide⟩

def branchPage : Page := ⟨.branch, [[], [2], [5]], by decide⟩

theorem plain_searchable {mp : Page} {key : Bytes} (hkind : mp.kind ≠ .dupfixLeaf)
    (hshort : ∀ a ∈ key :: mp.keys, a.length ≤ intMax)
    (hsorted : ∀ j < mp.numkeys, ∀ i < j, mp.start ≤ i → cmpLexical (mp.key i) (mp.key j) < 0)
    (hleft : mp.kind = .branch → mp.key 0 = []) :
    Searchable short little64 plainCursor mp key where
  total := cmpLexical_ordered.total codes_injective.injOn
  entries := by
    intro i _ hi
    have hget : mp.key i = mp.keys.get ⟨i, hi⟩ := List.getD_eq_getElem _ _ hi
    rw [hget]
    exact hshort _ (List.mem_cons_of_mem key (List.getElem_mem hi))
  sought := hshort key List.mem_cons_self
  sorted := fun i j hlo hij hj => hsorted j hj i hij hlo
  dupfix := fun h => absurd h.1 Bool.false_ne_true
  usual := fun _ => hkind
  leftmost := hleft

theorem page_search_agrees_plain :
    cursorToSearchFoliage little64 plainCursor leafPage leafPage [2, 0] = ⟨.node 1, true, 1⟩ ∧
    cursorToSearchBranch little64 plainCursor branchPage branchPage [3] = 1 := by
  have hleaf := page_search_agrees short little64 plainCursor leafPage [2, 0]
    (plain_searchable (by decide) (by decide) (by decide) nofun)
  have hbranch := page_search_agrees short little64 plainCursor branchPage [3]
    (plain_searchable (by decide) (by decide) (by decide) (fun _ => rfl))
  constructor
  · rw [(hleaf.2.1 (by decide)).1]
    rfl
  · rw [(hbranch.2.2 rfl (by decide)).1]
    rfl

end Mdbx.PageSearch
