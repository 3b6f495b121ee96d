import Mdbx.Spill.Model

/-!
# Spill.Removal — removed words of a spill list

The pages of a spill list are those of its words without the low bit.  A removal takes a span out of
them and leaves the words in order, and a purge leaves the pages as they are.
-/

namespace Mdbx.Spill

open Buffer
open Nested (Spilled)

variable {sp sp' : Spilled} {idx n p : Nat}

/-- Page numbers descend, and no word before `least_removed` is of a removed page. -/
structure Listed (sp : Spilled) : Prop where
  desc : ∀ i j, 1 ≤ i → i < j → j ≤ sp.list.size → sp.list.cells j / 2 < sp.list.cells i / 2
  clean : ∀ i, 1 ≤ i → i < sp.leastRemoved → i ≤ sp.list.size → sp.list.cells i % 2 = 0
  pos : 1 ≤ sp.leastRemoved
  least : sp.leastRemoved = Nested.intMax ∨ sp.leastRemoved ≤ sp.list.size + 1
  short : sp.list.size < Nested.intMax

/-- The page is spilled. -/
def Present (sp : Spilled) (p : Nat) : Prop :=
  ∃ i, 1 ≤ i ∧ i ≤ sp.list.size ∧ sp.list.cells i = 2 * p

/-! ## 1. A single word -/

theorem or_one (n : Nat) : (n ||| 1) / 2 = n / 2 ∧ (n ||| 1) % 2 = 1 := by
  constructor
  · rw [Nat.or_div_two]
    exact Nat.or_zero _
  · rw [Nat.or_mod_two_eq_one]
    exact .inr rfl

theorem removeWord_cells (sp : Spilled) (idx i : Nat) :
    (Nested.spillRemove sp idx).list.cells i / 2 = sp.list.cells i / 2 ∧
    (i ≠ idx → (Nested.spillRemove sp idx).list.cells i = sp.list.cells i) ∧
    (Nested.spillRemove sp idx).list.cells idx % 2 = 1 := by
  change set sp.list.cells idx (sp.list.cells idx ||| 1) i / 2 = sp.list.cells i / 2 ∧
    (i ≠ idx → set sp.list.cells idx (sp.list.cells idx ||| 1) i = sp.list.cells i) ∧
    set sp.list.cells idx (sp.list.cells idx ||| 1) idx % 2 = 1
  rw [set_self]
  refine ⟨?_, fun hne => set_of_ne _ _ hne, (or_one _).2⟩
  by_cases hi : i = idx
  · rw [hi, set_self]
    exact (or_one _).1
  · rw [set_of_ne _ _ hi]

theorem removeWord_size (sp : Spilled) (idx : Nat) :
    (Nested.spillRemove sp idx).list.size ≤ sp.list.size ∧
    sp.list.size ≤ (Nested.spillRemove sp idx).list.size + 1 ∧
    (idx ≠ sp.list.size → (Nested.spillRemove sp idx).list.size = sp.list.size) ∧
    (idx = sp.list.size → (Nested.spillRemove sp idx).list.size = sp.list.size - 1) := by
  change sp.list.size - (if idx = sp.list.size then 1 else 0) ≤ sp.list.size ∧
    sp.list.size ≤ sp.list.size - (if idx = sp.list.size then 1 else 0) + 1 ∧
    (idx ≠ sp.list.size → sp.list.size - (if idx = sp.list.size then 1 else 0) = sp.list.size) ∧
    (idx = sp.list.size → sp.list.size - (if idx = sp.list.size then 1 else 0) = sp.list.size - 1)
  split
  · omega
  · omega

/-- One word loses its page, and the list stays in order. -/
theorem removeWord_listed (h : Listed sp) (hidx : 1 ≤ idx) (hin : idx ≤ sp.list.size) :
    Listed (Nested.spillRemove sp idx) := by
  obtain ⟨hle, hge, -, -⟩ := removeWord_size sp idx
  have hleast : (Nested.spillRemove sp idx).leastRemoved =
      if idx < sp.leastRemoved then idx else sp.leastRemoved := rfl
  constructor
  · intro i j hi hij hj
    rw [(removeWord_cells sp idx i).1, (removeWord_cells sp idx j).1]
    exact h.desc i j hi hij (hj.trans hle)
  · intro i hi hlt his
    rw [hleast] at hlt
    have hbefore : i < idx ∧ i < sp.leastRemoved := by
      split at hlt
      · omega
      · omega
    rw [(removeWord_cells sp idx i).2.1 (by omega)]
    exact h.clean i hi hbefore.2 (his.trans hle)
  · have hpos := h.pos
    rw [hleast]
    split
    · omega
    · omega
  · rw [hleast]
    split
    · exact .inr (by omega)
    · exact .inr (by omega)
  · exact Nat.lt_of_le_of_lt hle h.short

theorem removeWord_present (h : Listed sp) (hidx : 1 ≤ idx) (hin : idx ≤ sp.list.size)
    (hword : sp.list.cells idx = 2 * n) (p : Nat) :
    Present (Nested.spillRemove sp idx) p ↔ Present sp p ∧ p ≠ n := by
  obtain ⟨hle, -, hsame, hless⟩ := removeWord_size sp idx
  constructor
  · rintro ⟨i, hi, his, hp⟩
    have hcells := removeWord_cells sp idx i
    have hne : i ≠ idx := by
      rintro rfl
      have hodd := hcells.2.2
      omega
    rw [hcells.2.1 hne] at hp
    refine ⟨⟨i, hi, his.trans hle, hp⟩, ?_⟩
    rintro rfl
    rcases Nat.lt_or_gt_of_ne hne with hlt | hlt
    · have hdesc := h.desc i idx hi hlt hin
      omega
    · have hdesc := h.desc idx i hidx hlt (his.trans hle)
      omega
  · rintro ⟨⟨i, hi, his, hp⟩, hpn⟩
    have hne : i ≠ idx := by
      rintro rfl
      omega
    refine ⟨i, hi, ?_, ?_⟩
    · by_cases hlast : idx = sp.list.size
      · rw [hless hlast]
        omega
      · rw [hsame hlast]
        exact his
    · rw [(removeWord_cells sp idx i).2.1 hne]
      exact hp

/-! ## 2. A span -/

/-- The page after one of the list is in the word before. -/
theorem Listed.before (h : Listed sp) (hidx : 1 ≤ idx) (hin : idx ≤ sp.list.size + 1)
    (hword : idx ≤ sp.list.size → sp.list.cells idx / 2 = n)
    (hbelow : ∀ i, 1 ≤ i → i < idx → n < sp.list.cells i / 2) (hnext : Present sp (n + 1)) :
    2 ≤ idx ∧ sp.list.cells (idx - 1) = 2 * (n + 1) := by
  obtain ⟨j, hj, hjs, hcell⟩ := hnext
  have hlt : j < idx := by
    by_contra hge
    by_cases hsame : j = idx
    · have heq := hword (hsame ▸ hjs)
      rw [← hsame, hcell] at heq
      omega
    · have hdesc := h.desc idx j hidx (by omega) hjs
      have heq := hword (by omega)
      omega
  have hlast : j = idx - 1 := by
    by_contra hne
    have hdesc := h.desc j (idx - 1) hj (by omega) (by omega)
    have hmore := hbelow (idx - 1) (by omega) (by omega)
    omega
  rw [← hlast]
  exact ⟨by omega, hcell⟩

theorem removeMore_spec {k : Nat} : ∀ {sp : Spilled} {idx n : Nat}, Listed sp → 1 ≤ idx →
    idx ≤ sp.list.size + 1 → sp.list.cells idx / 2 = n →
    (∀ i, 1 ≤ i → i < idx → n < sp.list.cells i / 2) →
    (∀ q, n < q → q ≤ n + k → Present sp q) →
    Listed (removeMore k sp idx) ∧
    ∀ p, Present (removeMore k sp idx) p ↔ Present sp p ∧ ¬ (n < p ∧ p ≤ n + k) := by
  -- by induction on the pages that are left of the span
  induction k with
  | zero =>
      intro sp idx n h _ _ _ _ _
      exact ⟨h, fun p => ⟨fun hp => ⟨hp, by omega⟩, And.left⟩⟩
  | succ k ih =>
      intro sp idx n h hidx hin hword hbelow hspan
      obtain ⟨htwo, hcell⟩ := h.before hidx hin (fun _ => hword) hbelow
        (hspan (n + 1) (by omega) (by omega))
      have hlast : idx - 1 ≤ sp.list.size := by omega
      have hlisted := removeWord_listed h (show 1 ≤ idx - 1 by omega) hlast
      have hpresent := removeWord_present h (show 1 ≤ idx - 1 by omega) hlast hcell
      have hhalf := fun i => (removeWord_cells sp (idx - 1) i).1
      have hsize := (removeWord_size sp (idx - 1)).2.1
      obtain ⟨hdone, hleft⟩ := ih hlisted (show 1 ≤ idx - 1 by omega) (by omega)
        (show (Nested.spillRemove sp (idx - 1)).list.cells (idx - 1) / 2 = n + 1 by
          rw [hhalf, hcell]
          omega)
        (fun i hi hlt => by
          rw [hhalf]
          have hdesc := h.desc i (idx - 1) hi hlt hlast
          omega)
        (fun q hlo hhi => (hpresent q).mpr ⟨hspan q (by omega) (by omega), by omega⟩)
      rw [removeMore]
      have hgo : ¬ (idx - 1 < 1 ∨
          sp.list.cells (idx - 1) >>> 1 ≠ (sp.list.cells idx >>> 1) + 1) := by
        rw [Nat.shiftRight_one, Nat.shiftRight_one, hword, hcell]
        omega
      rw [if_neg hgo]
      refine ⟨hdone, fun p => ?_⟩
      rw [hleft p, hpresent p]
      constructor
      · rintro ⟨⟨hp, hne⟩, hout⟩
        exact ⟨hp, by omega⟩
      · rintro ⟨hp, hout⟩
        exact ⟨⟨hp, by omega⟩, by omega⟩

/-- `spill_remove` takes the pages of a span out of the list, and no other. -/
theorem spillRemove_spec (h : Listed sp) (hidx : 1 ≤ idx) (hin : idx ≤ sp.list.size)
    (hword : sp.list.cells idx = 2 * n) {npages : Nat} (hpos : 0 < npages)
    (hspan : ∀ q, n ≤ q → q < n + npages → Present sp q) :
    Listed (spillRemove sp idx npages) ∧
    ∀ p, Present (spillRemove sp idx npages) p ↔
      Present sp p ∧ ¬ (n ≤ p ∧ p < n + npages) := by
  have hlisted := removeWord_listed h hidx hin
  have hpresent := removeWord_present h hidx hin hword
  have hhalf := fun i => (removeWord_cells sp idx i).1
  have hsize := (removeWord_size sp idx).2.1
  obtain ⟨hdone, hleft⟩ := removeMore_spec (k := npages - 1) (n := n) hlisted hidx (by omega)
    (by rw [hhalf, hword]; omega)
    (fun i hi hlt => by
      rw [hhalf]
      have hdesc := h.desc i idx hi hlt hin
      omega)
    (fun q hlo hhi => (hpresent q).mpr ⟨hspan q (by omega) (by omega), by omega⟩)
  refine ⟨hdone, fun p => ?_⟩
  change Present (removeMore (npages - 1) (Nested.spillRemove sp idx) idx) p ↔ _
  rw [hleft p, hpresent p]
  constructor
  · rintro ⟨⟨hp, hne⟩, hout⟩
    exact ⟨hp, by omega⟩
  · rintro ⟨hp, hout⟩
    exact ⟨⟨hp, by omega⟩, by omega⟩

/-! ## 3. `spill_purge` -/

/-- The words of pages that have not been removed. -/
def kept (l : List Nat) : List Nat := l.filter fun word => word % 2 = 0

theorem kept_concat_even (l : List Nat) {word : Nat} (h : word % 2 = 0) :
    kept (l ++ [word]) = kept l ++ [word] := by
  unfold kept
  rw [List.filter_append, List.filter_cons_of_pos (by simpa using h)]
  rfl

theorem kept_concat_odd (l : List Nat) {word : Nat} (h : ¬ word % 2 = 0) :
    kept (l ++ [word]) = kept l := by
  unfold kept
  rw [List.filter_append, List.filter_cons_of_neg (by simpa using h)]
  exact List.append_nil _

/-- The loop has copied what is kept of the words up to `r`. -/
structure Purging (first cells : Nat → Nat) (lo r w : Nat) : Prop where
  start : lo ≤ w
  le : w ≤ r
  before : ∀ i, i < lo → cells i = first i
  after : ∀ i, r ≤ i → cells i = first i
  copied : slice cells lo (w - lo) = kept (slice first lo (r - lo))

theorem purgeLoop_spec {first : Nat → Nat} {len lo : Nat} : ∀ (fuel : Nat) {cells : Nat → Nat}
    {r w : Nat}, len + 1 - r ≤ fuel → r ≤ len + 1 → Purging first cells lo r w →
    Purging first (Nested.purgeLoop len fuel cells r w).1 lo (len + 1)
      (Nested.purgeLoop len fuel cells r w).2
  | 0, cells, r, w, hfuel, hr, h => by
      rw [Nested.purgeLoop, show len + 1 = r by omega]
      exact h
  | fuel + 1, cells, r, w, hfuel, hr, h => by
      rw [Nested.purgeLoop]
      by_cases hdone : len < r
      · rw [if_pos hdone, show len + 1 = r by omega]
        exact h
      · rw [if_neg hdone]
        refine purgeLoop_spec fuel (by omega) (by omega) ?_
        have hlo := h.start
        have hle := h.le
        have hword : cells r = first r := h.after r (Nat.le_refl r)
        have hnext : slice first lo (r + 1 - lo) = slice first lo (r - lo) ++ [first r] := by
          rw [show r + 1 - lo = r - lo + 1 by omega, slice_add, Nat.add_sub_cancel' (hlo.trans hle)]
          rfl
        have hcopy : slice (set cells w (cells r)) lo (w - lo) = slice cells lo (w - lo) :=
          slice_set_outside _ (.inr (by omega))
        rw [hword] at hcopy ⊢
        constructor
        · omega
        · omega
        · intro i hi
          rw [set_of_ne _ _ (by omega)]
          exact h.before i hi
        · intro i hi
          rw [set_of_ne _ _ (by omega)]
          exact h.after i (by omega)
        · rw [hnext]
          by_cases heven : first r % 2 = 0
          · rw [kept_concat_even _ heven, ← h.copied, ← hcopy, show w + (1 - first r % 2) - lo =
              w - lo + 1 by omega, slice_add, Nat.add_sub_cancel' hlo]
            congr 1
            change [set cells w (first r) w] = [first r]
            rw [set_self]
          · rw [kept_concat_odd _ heven, ← h.copied, ← hcopy, show w + (1 - first r % 2) - lo =
              w - lo by omega]

theorem kept_of_even {l : List Nat} (h : ∀ word ∈ l, word % 2 = 0) : kept l = l :=
  List.filter_eq_self.mpr fun word hword => decide_eq_true (h word hword)

/-- The words of the pages that have not been removed are left, in their order. -/
theorem spillPurge_list (h : Listed sp) : (Nested.spillPurge sp).list.list = kept sp.list.list := by
  change slice _ 1 _ = kept (slice sp.list.cells 1 sp.list.size)
  have hclean := h.clean
  have hpos := h.pos
  have hshort := h.short
  unfold Nested.spillPurge
  by_cases hnone : sp.leastRemoved = Nested.intMax
  · rw [if_pos hnone]
    refine (kept_of_even fun word hword => ?_).symm
    obtain ⟨i, hi, his, rfl⟩ := mem_slice.mp hword
    exact hclean i hi (by omega) (by omega)
  · rw [if_neg hnone]
    have hleast := h.least.resolve_left hnone
    have hstart : Purging sp.list.cells sp.list.cells sp.leastRemoved sp.leastRemoved
        sp.leastRemoved := by
      refine ⟨Nat.le_refl _, Nat.le_refl _, fun _ _ => rfl, fun _ _ => rfl, ?_⟩
      rw [Nat.sub_self]
      rfl
    have hdone := purgeLoop_spec (sp.list.size + 1)
      (by omega) hleast hstart
    dsimp only
    generalize Nested.purgeLoop sp.list.size (sp.list.size + 1) sp.list.cells sp.leastRemoved
      sp.leastRemoved = out at hdone
    have hlo := hdone.start
    have hsplit : ∀ (cells : Nat → Nat) (n : Nat), sp.leastRemoved ≤ n →
        slice cells 1 (n - 1) = slice cells 1 (sp.leastRemoved - 1) ++
          slice cells sp.leastRemoved (n - sp.leastRemoved) := by
      intro cells n hn
      rw [slice_at cells (show sp.leastRemoved - 1 ≤ n - 1 by omega), Nat.sub_add_cancel hpos,
        show n - 1 - (sp.leastRemoved - 1) = n - sp.leastRemoved by omega]
    rw [hsplit out.1 out.2 hlo, hdone.copied, slice_congr fun i _ hi => hdone.before i (by omega)]
    have hwhole := hsplit sp.list.cells (sp.list.size + 1) hleast
    rw [Nat.add_sub_cancel] at hwhole
    rw [hwhole]
    unfold kept
    rw [List.filter_append]
    congr 1
    refine (kept_of_even fun word hword => ?_).symm
    obtain ⟨i, hi, his, rfl⟩ := mem_slice.mp hword
    exact hclean i hi (by omega) (by omega)

theorem present_iff : Present sp p ↔ 2 * p ∈ sp.list.list := by
  change _ ↔ 2 * p ∈ slice sp.list.cells 1 sp.list.size
  rw [mem_slice]
  constructor
  · rintro ⟨i, hi, his, hcell⟩
    exact ⟨i, hi, by omega, hcell⟩
  · rintro ⟨i, hi, his, hcell⟩
    exact ⟨i, hi, by omega, hcell⟩

theorem Listed.of_list {pnl : Pnl} (hdesc : pnl.list.Pairwise fun p q => q / 2 < p / 2)
    (heven : ∀ word ∈ pnl.list, word % 2 = 0) (hshort : pnl.size < Nested.intMax) :
    Listed ⟨pnl, Nested.intMax⟩ := by
  change (slice pnl.cells 1 pnl.size).Pairwise _ at hdesc
  change ∀ word ∈ slice pnl.cells 1 pnl.size, _ at heven
  constructor
  · intro i j hi hij hj
    exact pairwise_slice.mp hdesc i j hi hij (Nat.lt_one_add_iff.mpr hj)
  · intro i hi _ his
    exact heven _ (mem_slice.mpr ⟨i, hi, Nat.lt_one_add_iff.mpr his, rfl⟩)
  · exact Nat.one_le_two_pow.trans (by decide : 2 ^ 0 ≤ Nested.intMax)
  · exact .inl rfl
  · exact hshort

/-- `spill_purge` squashes the removed words, and the pages stay. -/
theorem spillPurge_spec (h : Listed sp) :
    Listed (Nested.spillPurge sp) ∧ (Nested.spillPurge sp).leastRemoved = Nested.intMax ∧
    (∀ word ∈ (Nested.spillPurge sp).list.list, word % 2 = 0) ∧
    ∀ p, Present (Nested.spillPurge sp) p ↔ Present sp p := by
  have hlist := spillPurge_list h
  have hleast : (Nested.spillPurge sp).leastRemoved = Nested.intMax := by
    unfold Nested.spillPurge
    split
    · assumption
    · rfl
  have heven : ∀ word ∈ (Nested.spillPurge sp).list.list, word % 2 = 0 := by
    intro word hword
    rw [hlist] at hword
    exact of_decide_eq_true (List.mem_filter.mp hword).2
  have hdesc : (Nested.spillPurge sp).list.list.Pairwise fun p q => q / 2 < p / 2 := by
    rw [hlist]
    refine List.Pairwise.filter _ ?_
    exact pairwise_slice.mpr fun i j hi hij hj => h.desc i j hi hij (by omega)
  have hsize : (Nested.spillPurge sp).list.size ≤ sp.list.size := by
    have hlength := congrArg List.length hlist
    change (slice _ 1 _).length = _ at hlength
    rw [slice_length] at hlength
    rw [hlength]
    refine (List.length_filter_le _ _).trans ?_
    change (slice _ 1 _).length ≤ _
    rw [slice_length]
  have hlisted := Listed.of_list hdesc heven (Nat.lt_of_le_of_lt hsize h.short)
  rw [← hleast] at hlisted
  refine ⟨hlisted, hleast, heven, fun p => ?_⟩
  rw [present_iff, present_iff, hlist]
  unfold kept
  rw [List.mem_filter]
  exact ⟨And.left, fun hp => ⟨hp, decide_eq_true (by omega)⟩⟩

/-! ## 4. Runs -/

inductive ListOp where
  -- of the page in the word `idx`, and those behind it
  | remove (idx npages : Nat)
  | purge

def applyList (sp : Spilled) : ListOp → Spilled
  | .remove idx npages => spillRemove sp idx npages
  | .purge => Nested.spillPurge sp

/-- The pages that an operation takes out. -/
def spanOf (sp : Spilled) : ListOp → Nat → Prop
  | .remove idx npages, p =>
      sp.list.cells idx / 2 ≤ p ∧ p < sp.list.cells idx / 2 + npages
  | .purge, _ => False

/-- What `spill_search` finds: the word of a page that was spilled with those behind it. -/
def LegalList (sp : Spilled) : ListOp → Prop
  | .remove idx npages => 1 ≤ idx ∧ idx ≤ sp.list.size ∧ sp.list.cells idx % 2 = 0 ∧ 0 < npages ∧
      ∀ p, spanOf sp (.remove idx npages) p → Present sp p
  | .purge => True

/-- Each operation of a run takes its span out of the pages, and no other page. -/
def Removes (sp : Spilled) : List ListOp → Prop
  | [] => Listed sp
  | op :: ops => Listed sp ∧ (LegalList sp op →
      (∀ p, Present (applyList sp op) p ↔ Present sp p ∧ ¬ spanOf sp op p) ∧
        Removes (applyList sp op) ops)

theorem applyList_spec (h : Listed sp) (op : ListOp) (hlegal : LegalList sp op) :
    Listed (applyList sp op) ∧
    ∀ p, Present (applyList sp op) p ↔ Present sp p ∧ ¬ spanOf sp op p := by
  cases op with
  | remove idx npages =>
      obtain ⟨hidx, hin, heven, hpos, hspan⟩ := hlegal
      have hword : sp.list.cells idx = 2 * (sp.list.cells idx / 2) := by omega
      exact spillRemove_spec h hidx hin hword hpos fun q hlo hhi => hspan q ⟨hlo, hhi⟩
  | purge =>
      obtain ⟨hlisted, -, -, hpresent⟩ := spillPurge_spec h
      exact ⟨hlisted, fun p => (hpresent p).trans ⟨fun hp => ⟨hp, id⟩, And.left⟩⟩

theorem run_removes (ops : List ListOp) : ∀ {sp : Spilled}, Listed sp → Removes sp ops := by
  induction ops with
  | nil => exact fun h => h
  | cons op ops ih =>
      intro sp h
      refine ⟨h, fun hlegal => ?_⟩
      obtain ⟨hlisted, hpresent⟩ := applyList_spec h op hlegal
      exact ⟨hpresent, ih hlisted⟩

end Mdbx.Spill
