import Mdbx.PageSearch.Model
import Mdbx.Compare.Orders

/-!
# PageSearch.Agree — every search finds the lower bound

A search answers with a position: what is in front of it is less than the key, and nothing behind it
is.  The branch-free cycle, the plain loop and a linear scan all find the position, and there is one
only.
-/

namespace Mdbx.PageSearch

open Compare Comparator

/-! ## 1. The position of a key -/

/-- `pos` is the lower bound of the key among the entries from `lo` on. -/
structure Placed (cmpAt : Nat → Int) (lo n pos : Nat) (exact : Bool) : Prop where
  low : lo ≤ pos
  high : pos ≤ n
  before : ∀ i, lo ≤ i → i < pos → cmpAt i < 0
  found : exact = true → pos < n ∧ cmpAt pos = 0
  missed : exact = false → pos < n → 0 < cmpAt pos

/-- Entries in order: what is in front of one that is not greater than the key is less. -/
def Ascends (cmpAt : Nat → Int) (lo n : Nat) : Prop :=
  ∀ i j, lo ≤ i → i < j → j < n → cmpAt j ≤ 0 → cmpAt i < 0

variable {cmpAt : Nat → Int} {lo n pos pos' : Nat} {exact exact' : Bool}

theorem Placed.here (h : Placed cmpAt lo n pos exact) (hlt : pos < n) : 0 ≤ cmpAt pos := by
  cases exact with
  | true => exact (h.found rfl).2.ge
  | false => exact (h.missed rfl hlt).le

theorem Placed.pos_le (h : Placed cmpAt lo n pos exact) (h' : Placed cmpAt lo n pos' exact') :
    pos ≤ pos' := by
  by_contra hlt
  have hbefore := h.before pos' h'.low (by omega)
  have hhere := h'.here (by have := h.high; omega)
  omega

theorem Placed.unique (h : Placed cmpAt lo n pos exact) (h' : Placed cmpAt lo n pos' exact') :
    pos = pos' ∧ exact = exact' := by
  have hpos : pos = pos' := Nat.le_antisymm (h.pos_le h') (h'.pos_le h)
  subst hpos
  refine ⟨rfl, ?_⟩
  cases exact with
  | true =>
    cases exact' with
    | true => rfl
    | false =>
      have hzero := h.found rfl
      have hpos := h'.missed rfl hzero.1
      omega
  | false =>
    cases exact' with
    | true =>
      have hzero := h'.found rfl
      have hpos := h.missed rfl hzero.1
      omega
    | false => rfl

/-- The search tells that a key is there exactly when it is. -/
theorem Placed.exact_iff (h : Placed cmpAt lo n pos exact) (hasc : Ascends cmpAt lo n) :
    exact = true ↔ ∃ i, lo ≤ i ∧ i < n ∧ cmpAt i = 0 := by
  constructor
  · intro he
    exact ⟨pos, h.low, h.found he⟩
  · rintro ⟨i, hlo, hlt, hzero⟩
    rcases Nat.lt_trichotomy i pos with hi | hi | hi
    · have := h.before i hlo hi
      omega
    · subst hi
      cases exact with
      | true => rfl
      | false =>
        have := h.missed rfl hlt
        omega
    · have hless := hasc pos i h.low hi hlt hzero.le
      have := h.here (by omega)
      omega

theorem Placed.congr {cmpAt' : Nat → Int} (h : Placed cmpAt lo n pos exact)
    (hcmp : ∀ i, lo ≤ i → i < n → (cmpAt' i < 0 ↔ cmpAt i < 0) ∧ (0 < cmpAt' i ↔ 0 < cmpAt i)) :
    Placed cmpAt' lo n pos exact where
  low := h.low
  high := h.high
  before := by
    intro i hlo hi
    have := h.high
    exact (hcmp i hlo (by omega)).1.mpr (h.before i hlo hi)
  found := by
    intro he
    obtain ⟨hlt, hzero⟩ := h.found he
    have := hcmp pos h.low hlt
    exact ⟨hlt, by omega⟩
  missed := by
    intro he hlt
    exact (hcmp pos h.low hlt).2.mpr (h.missed he hlt)

/-! ## 2. The branch-free cycle -/

/-- What the entries outside of the scope have been found to be. -/
structure Scope (cmpAt : Nat → Int) (start n lo scope : Nat) : Prop where
  low : start ≤ lo
  high : lo + scope ≤ n
  before : ∀ i, start ≤ i → i < lo → cmpAt i < 0
  behind : ∀ i, lo + scope ≤ i → i < n → 0 < cmpAt i

theorem Scope.cycle {start fuel scope : Nat} (h : Scope cmpAt start n lo scope)
    (hasc : Ascends cmpAt start n) (hpos : 0 < scope) (hfuel : scope ≤ fuel) :
    match cycle cmpAt fuel lo scope with
    | .found it => Placed cmpAt start n it true
    | .missed it lo' cmp => it + masked cmp 1 = lo' ∧ Placed cmpAt start n lo' false := by
  induction fuel generalizing lo scope with
  | zero => omega
  | succ fuel ih =>
    have hlow := h.low
    have hhigh := h.high
    have hit : lo + (scope - 1) / 2 < n := by omega
    rw [PageSearch.cycle]
    dsimp only
    by_cases hzero : cmpAt (lo + (scope - 1) / 2) = 0
    · rw [if_pos hzero]
      refine ⟨by omega, by omega, fun i hlo hi => ?_, fun _ => ⟨hit, hzero⟩, nofun⟩
      exact hasc i _ hlo hi hit hzero.le
    · rw [if_neg hzero]
      -- the scope that the round leaves, to the right of `it` or to the left of it
      have hnext : Scope cmpAt start n
          (lo + masked (cmpAt (lo + (scope - 1) / 2)) ((scope - 1) / 2 + 1))
          ((scope - 1) / 2 + masked (cmpAt (lo + (scope - 1) / 2)) ((scope - 1) % 2)) := by
        unfold masked
        by_cases hneg : cmpAt (lo + (scope - 1) / 2) < 0
        · rw [if_pos hneg, if_pos hneg]
          refine ⟨by omega, by omega, fun i hlo hi => ?_, fun i hi hn => ?_⟩
          · by_cases he : i = lo + (scope - 1) / 2
            · rw [he]
              exact hneg
            · exact hasc i (lo + (scope - 1) / 2) hlo (by omega) hit hneg.le
          · exact h.behind i (by omega) hn
        · rw [if_neg hneg, if_neg hneg]
          refine ⟨by omega, by omega, fun i hlo hi => h.before i hlo (by omega), fun i hi hn => ?_⟩
          by_contra hle
          rcases Nat.lt_or_ge (lo + (scope - 1) / 2) i with hlt | hge
          · exact hneg (hasc _ i (by omega) hlt hn (by omega))
          · have he : i = lo + (scope - 1) / 2 := by omega
            rw [he] at hle
            omega
      by_cases hmore : 0 < (scope - 1) / 2 +
          masked (cmpAt (lo + (scope - 1) / 2)) ((scope - 1) % 2)
      · rw [if_pos hmore]
        apply ih hnext hmore
        unfold masked
        split <;> omega
      · rw [if_neg hmore]
        have hhalf : (scope - 1) / 2 = 0 := by omega
        refine ⟨by rw [hhalf, Nat.add_zero], ⟨hnext.low, ?_, hnext.before, nofun, fun _ hlt => ?_⟩⟩
        · have := hnext.high
          omega
        · exact hnext.behind _ (by omega) hlt

/-- The result of a search at a position. -/
def resultAt (node : Nat → NodePtr) (nkeys pos : Nat) (exact : Bool) : Sfr :=
  ⟨if pos < nkeys then node pos else .null, exact, pos⟩

theorem indx_of_lt {i : Nat} (h : i < 2 ^ 16) : indx i = i := Nat.mod_eq_of_lt h

theorem foliageLoop_placed (node : Nat → NodePtr) (hasc : Ascends cmpAt lo n) (hlo : lo < n)
    (hn : n < 2 ^ 15) :
    ∃ pos exact, Placed cmpAt lo n pos exact ∧
      foliageLoop node cmpAt n lo = resultAt node n pos exact := by
  have hscope : Scope cmpAt lo n lo (n - lo) :=
    ⟨Nat.le_refl lo, by omega, fun i h₁ h₂ => by omega, fun i h₁ h₂ => by omega⟩
  have hcycle := hscope.cycle hasc (by omega) (Nat.le_refl _)
  unfold foliageLoop resultAt
  dsimp only
  cases hend : cycle cmpAt (n - lo) lo (n - lo) with
  | found it =>
    rw [hend] at hcycle
    have hlt := (hcycle.found rfl).1
    refine ⟨it, true, hcycle, ?_⟩
    dsimp only
    rw [if_pos hlt, indx_of_lt (by omega)]
  | missed it lo' cmp =>
    rw [hend] at hcycle
    obtain ⟨hit, hplaced⟩ := hcycle
    have := hplaced.high
    refine ⟨lo', false, hplaced, ?_⟩
    dsimp only
    rw [hit, indx_of_lt (by omega)]

/-! ## 3. The plain loop -/

/-- The loop of `old_node_search` compares the other way round. -/
theorem oldLoop_placed {old : Nat → Int} (fuel : Nat) {start a b : Int}
    (hsign : ∀ i : Nat, start ≤ i → i < n → (cmpAt i < 0 ↔ 0 < old i) ∧ (0 < cmpAt i ↔ old i < 0))
    (hasc : Ascends cmpAt start.toNat n) (hstart : 0 ≤ start) (ha : start ≤ a) (hb : b < n)
    (hab : a ≤ b) (hfuel : b - a < fuel)
    (hbefore : ∀ i : Nat, start ≤ i → (i : Int) < a → cmpAt i < 0)
    (hbehind : ∀ i : Nat, b < i → i < n → 0 < cmpAt i) :
    0 ≤ (oldLoop old fuel a b).1 ∧
      Placed cmpAt start.toNat n (oldLoop old fuel a b).1.toNat (oldLoop old fuel a b).2 := by
  induction fuel generalizing a b with
  | zero => omega
  | succ fuel ih =>
    obtain ⟨i, hi⟩ : ∃ i : Nat, (a + b) / 2 = (i : Int) := ⟨((a + b) / 2).toNat, by omega⟩
    have hin : i < n := by omega
    have hsi := hsign i (by omega) hin
    rw [oldLoop, hi, Int.toNat_natCast]
    by_cases hgt : 0 < old i
    · have hneg := hsi.1.mpr hgt
      have hleft : ∀ j : Nat, start ≤ j → (j : Int) < (i : Int) + 1 → cmpAt j < 0 := by
        intro j hj hji
        by_cases he : j = i
        · rw [he]
          exact hneg
        · exact hasc j i (by omega) (by omega) hin hneg.le
      rw [if_pos hgt]
      by_cases hmore : (i : Int) + 1 ≤ b
      · rw [if_pos hmore]
        exact ih (by omega) hb hmore (by omega) hleft hbehind
      · rw [if_neg hmore]
        refine ⟨by omega, ⟨by omega, by omega, fun j hj hji => hleft j (by omega) (by omega), nofun,
          fun _ hlt => ?_⟩⟩
        exact hbehind _ (by omega) hlt
    · rw [if_neg hgt]
      by_cases hlt : old i < 0
      · have hpos := hsi.2.mpr hlt
        have hright : ∀ j : Nat, (i : Int) - 1 < j → j < n → 0 < cmpAt j := by
          intro j hj hjn
          by_contra hle
          by_cases he : j = i
          · rw [he] at hle
            omega
          · have := hasc i j (by omega) (by omega) hjn (by omega)
            omega
        rw [if_pos hlt]
        by_cases hmore : a ≤ (i : Int) - 1
        · rw [if_pos hmore]
          exact ih ha (by omega) hmore (by omega) hbefore hright
        · rw [if_neg hmore]
          refine ⟨by omega, ⟨by omega, by omega, fun j hj hji => hbefore j (by omega) (by omega),
            nofun, fun _ _ => ?_⟩⟩
          rw [Int.toNat_natCast]
          exact hpos
      · have hzero : cmpAt i = 0 := by omega
        rw [if_neg hlt]
        refine ⟨by omega, ⟨by omega, by omega, fun j hj hji => ?_, fun _ => ?_, nofun⟩⟩
        · exact hasc j i hj (by omega) hin hzero.le
        · rw [Int.toNat_natCast]
          exact ⟨hin, hzero⟩

/-! ## 4. A linear scan -/

/-- The first of `keys` that is not less than the key, and whether it is equal. -/
def linearScan (cmp : Bytes → Bytes → Int) (key : Bytes) : List Bytes → Nat × Bool
  | [] => (0, false)
  | k :: keys =>
      if cmp k key < 0 then
        let out := linearScan cmp key keys
        (out.1 + 1, out.2)
      else (0, cmp k key = 0)

theorem linearScan_placed (cmp : Bytes → Bytes → Int) (key : Bytes) (keys : List Bytes) :
    Placed (fun i => cmp (keys.getD i []) key) 0 keys.length (linearScan cmp key keys).1
      (linearScan cmp key keys).2 := by
  induction keys with
  | nil => exact ⟨Nat.le_refl 0, Nat.le_refl 0, fun i _ hi => absurd hi (Nat.not_lt_zero i), nofun,
      fun _ h => absurd h (Nat.not_lt_zero 0)⟩
  | cons k keys ih =>
    rw [linearScan]
    by_cases hneg : cmp k key < 0
    · rw [if_pos hneg]
      refine ⟨Nat.zero_le _, Nat.succ_le_succ ih.high, fun i _ hi => ?_, fun he => ?_,
        fun he hlt => ?_⟩
      · cases i with
        | zero => exact hneg
        | succ i => exact ih.before i (Nat.zero_le i) (Nat.lt_of_succ_lt_succ hi)
      · obtain ⟨hlt, hzero⟩ := ih.found he
        exact ⟨Nat.succ_lt_succ hlt, hzero⟩
      · exact ih.missed he (Nat.lt_of_succ_lt_succ hlt)
    · rw [if_neg hneg]
      refine ⟨Nat.le_refl 0, Nat.zero_le _, fun i _ hi => absurd hi (Nat.not_lt_zero i),
        fun he => ⟨Nat.succ_pos _, of_decide_eq_true he⟩, fun he _ => ?_⟩
      have hne : cmp k key ≠ 0 := of_decide_eq_false he
      change 0 < cmp k key
      omega

/-- The number of separators that are not greater than the key. -/
def linearChild (cmp : Bytes → Bytes → Int) (key : Bytes) : List Bytes → Nat
  | [] => 0
  | k :: keys => if cmp k key ≤ 0 then linearChild cmp key keys + 1 else 0

/-- `child` is the entry whose interval holds the key, where entry 0 is minus infinity. -/
structure ChildAt (cmpAt : Nat → Int) (n child : Nat) : Prop where
  inside : child < n
  above : ∀ i, 1 ≤ i → i ≤ child → cmpAt i ≤ 0
  below : child + 1 < n → 0 < cmpAt (child + 1)

theorem ChildAt.unique {child child' : Nat} (h : ChildAt cmpAt n child)
    (h' : ChildAt cmpAt n child') : child = child' := by
  have hin := h.inside
  have hin' := h'.inside
  rcases Nat.lt_trichotomy child child' with hlt | heq | hgt
  · have hbelow := h.below (by omega)
    have habove := h'.above (child + 1) (by omega) (by omega)
    omega
  · exact heq
  · have hbelow := h'.below (by omega)
    have habove := h.above (child' + 1) (by omega) (by omega)
    omega

theorem linearChild_childAt (cmp : Bytes → Bytes → Int) (key : Bytes) (keys : List Bytes)
    (hpos : 0 < keys.length) :
    ChildAt (fun i => cmp (keys.getD i []) key) keys.length (linearChild cmp key keys.tail) := by
  obtain ⟨first, keys, rfl⟩ := List.exists_cons_of_length_pos hpos
  change ChildAt (fun i => cmp ((first :: keys).getD i []) key) (keys.length + 1)
    (linearChild cmp key keys)
  clear hpos
  induction keys generalizing first with
  | nil => exact ⟨Nat.one_pos, fun i h₁ h₂ => by simp only [linearChild] at h₂; omega,
      fun h => absurd h (by simp only [linearChild, List.length_nil]; omega)⟩
  | cons k keys ih =>
    have ih := ih k
    rw [linearChild]
    by_cases hle : cmp k key ≤ 0
    · rw [if_pos hle]
      refine ⟨Nat.succ_lt_succ ih.inside, fun i hlo hi => ?_, fun hlt => ?_⟩
      · obtain ⟨j, rfl⟩ : ∃ j, i = j + 1 := ⟨i - 1, by omega⟩
        change cmp ((k :: keys).getD j []) key ≤ 0
        cases j with
        | zero => exact hle
        | succ j => exact ih.above (j + 1) (by omega) (by omega)
      · exact ih.below (Nat.lt_of_succ_lt_succ hlt)
    · rw [if_neg hle]
      refine ⟨Nat.succ_pos _, fun i hlo hi => by omega, fun _ => ?_⟩
      change 0 < cmp k key
      omega

theorem Placed.childAt (h : Placed cmpAt 1 n pos exact) (hasc : Ascends cmpAt 1 n) :
    ChildAt cmpAt n (pos + (if exact then 1 else 0) - 1) := by
  have hlow := h.low
  have hhigh := h.high
  cases exact with
  | true =>
    obtain ⟨hlt, hzero⟩ := h.found rfl
    rw [if_pos rfl, Nat.add_sub_cancel]
    refine ⟨hlt, fun i hlo hi => ?_, fun hin => ?_⟩
    · by_cases he : i = pos
      · rw [he]
        omega
      · have := h.before i hlo (by omega)
        omega
    · by_contra hle
      have := hasc pos (pos + 1) hlow (by omega) hin (by omega)
      omega
  | false =>
    rw [if_neg Bool.false_ne_true, Nat.add_zero]
    refine ⟨by omega, fun i hlo hi => ?_, fun hin => ?_⟩
    · have := h.before i hlo (by omega)
      omega
    · rw [show pos - 1 + 1 = pos by omega] at hin ⊢
      exact h.missed rfl hin

/-! ## 5. The searches of a page -/

/-- A page in order under a comparator that is total on its keys and on the sought one. -/
structure Searchable (s : Set Bytes) (m : Machine) (c : Cursor) (mp : Page) (key : Bytes) : Prop where
  total : TotalOn s (c.cmp.call m)
  entries : ∀ i, mp.start ≤ i → i < mp.numkeys → mp.key i ∈ s
  sought : key ∈ s
  sorted : ∀ i j, mp.start ≤ i → i < j → j < mp.numkeys → c.cmp.call m (mp.key i) (mp.key j) < 0
  -- dupfix pages are those of nested trees with values of one size, and its keys have that size
  dupfix : c.dupfixed = true ∧ c.inner = true → mp.kind ≠ .leaf ∧
    ∀ i, mp.start ≤ i → i < mp.numkeys → (mp.key i).length = c.dupfixSize
  usual : ¬(c.dupfixed = true ∧ c.inner = true) → mp.kind ≠ .dupfixLeaf
  -- the first key of a branch page is empty
  leftmost : mp.kind = .branch → mp.key 0 = []

variable {s : Set Bytes} {m : Machine} {c : Cursor} {mp : Page} {key : Bytes}

/-- The comparison of an entry with the sought key. -/
def Cursor.compares (c : Cursor) (m : Machine) (mp : Page) (key : Bytes) (i : Nat) : Int :=
  c.cmp.call m (mp.key i) key

theorem Searchable.ascends (h : Searchable s m c mp key) :
    Ascends (c.compares m mp key) mp.start mp.numkeys := by
  intro i j hlo hij hj hle
  have hi := h.entries i hlo (by omega)
  have hj' := h.entries j (by omega) hj
  have hlt := h.sorted i j hlo hij hj
  have hle' := h.total.trans _ hi _ hj' _ h.sought hlt.le hle
  by_contra hge
  have heq := h.total.eq _ hi _ h.sought (by unfold Cursor.compares at hge; omega)
  have hgt := (h.total.anti _ hi _ hj').mp hlt
  unfold Cursor.compares at hle
  rw [← heq] at hle
  omega

/-- A search function that compares the entries with the key as `call` does. -/
def Serves (call : Bytes → Bytes → Int) (mp : Page) (key : Bytes) (search : Page → Bytes → Sfr) :
    Prop :=
  ∃ branch leaf differ dupfixed, search = searchFoliage branch leaf differ dupfixed ∧
    (dupfixed = true → mp.kind ≠ .leaf) ∧ (dupfixed = false → mp.kind ≠ .dupfixLeaf) ∧
    ∀ i, mp.start ≤ i → i < mp.numkeys → branch (mp.key i) key = call (mp.key i) key ∧
      (differ = true ∨ dupfixed = true → leaf (mp.key i) key = call (mp.key i) key)

/-- The node pointers of a page. -/
def Page.nodeAt (mp : Page) (i : Nat) : NodePtr := if mp.kind = .dupfixLeaf then .fake else .node i

theorem Serves.placed {call : Bytes → Bytes → Int} {search : Page → Bytes → Sfr}
    (h : Serves call mp key search)
    (hasc : Ascends (fun i => call (mp.key i) key) mp.start mp.numkeys)
    (hlt : mp.start < mp.numkeys) :
    ∃ pos exact, Placed (fun i => call (mp.key i) key) mp.start mp.numkeys pos exact ∧
      search mp key = resultAt mp.nodeAt mp.numkeys pos exact := by
  obtain ⟨branch, leaf, differ, dupfixed, rfl, hdup, husual, hsame⟩ := h
  have hrun : ∀ (node : Nat → NodePtr) (cmp : Bytes → Bytes → Int), node = mp.nodeAt →
      (∀ i, mp.start ≤ i → i < mp.numkeys → cmp (mp.key i) key = call (mp.key i) key) →
      ∃ pos exact, Placed (fun i => call (mp.key i) key) mp.start mp.numkeys pos exact ∧
        foliageLoop node (fun i => cmp (mp.key i) key) mp.numkeys mp.start =
          resultAt mp.nodeAt mp.numkeys pos exact := by
    intro node cmp hnode heq
    have hasc' : Ascends (fun i => cmp (mp.key i) key) mp.start mp.numkeys := by
      intro i j hlo hij hj hle
      dsimp only at hle ⊢
      rw [heq j (by omega) hj] at hle
      rw [heq i hlo (by omega)]
      exact hasc i j hlo hij hj hle
    obtain ⟨pos, exact, hplaced, hres⟩ := foliageLoop_placed node hasc' hlt mp.fits
    refine ⟨pos, exact, hplaced.congr fun i hlo hi => ?_, hnode ▸ hres⟩
    rw [heq i hlo hi]
    exact ⟨Iff.rfl, Iff.rfl⟩
  have hstart : mp.start = 0 ↔ mp.kind ≠ .branch := by
    unfold Page.start
    split <;> simp_all
  have hplain : mp.kind ≠ .dupfixLeaf → NodePtr.node = mp.nodeAt := by
    intro hk
    funext i
    unfold Page.nodeAt
    rw [if_neg hk]
  unfold searchFoliage
  dsimp only
  rw [if_neg (by omega)]
  by_cases hleaf : (differ = true ∨ dupfixed = true) ∧ mp.start = 0
  · rw [if_pos hleaf]
    have hbranch := hstart.mp hleaf.2
    cases dupfixed with
    | true =>
      have hk : mp.kind = .dupfixLeaf := by
        have := hdup rfl
        cases hkind : mp.kind <;> simp_all
      rw [if_pos rfl]
      apply hrun
      · funext i
        unfold Page.nodeAt
        rw [if_pos hk]
      · exact fun i hlo hi => (hsame i hlo hi).2 hleaf.1
    | false =>
      rw [if_neg Bool.false_ne_true]
      exact hrun _ _ (hplain (husual rfl)) fun i hlo hi => (hsame i hlo hi).2 hleaf.1
  · rw [if_neg hleaf]
    apply hrun
    · apply hplain
      cases dupfixed with
      | true =>
        intro hk
        exact hleaf ⟨.inr rfl, hstart.mpr (by rw [hk]; decide)⟩
      | false => exact husual rfl
    · exact fun i hlo hi => (hsame i hlo hi).1

theorem Serves.empty {call : Bytes → Bytes → Int} {search : Page → Bytes → Sfr}
    (h : Serves call mp key search) (hle : mp.numkeys ≤ mp.start) :
    search mp key = ⟨.null, false, 0⟩ := by
  obtain ⟨branch, leaf, differ, dupfixed, rfl, _⟩ := h
  unfold searchFoliage
  dsimp only
  rw [if_pos (by omega)]

end Mdbx.PageSearch
