import Mdbx.Sort.Model
import Mdbx.Lib.Network
import Mdbx.Lib.Slices
import Mathlib.Logic.Equiv.Basic

/-!
# Sort.Quick — the quick sort puts every array in order

The parts that are still to be sorted are apart: two items that no such part has in common stand in
order.  Each round keeps that, and the part that is sorted next is at most half of the one before.
-/

namespace Mdbx.Sort

open Buffer Network

variable {α β : Type} [LinearOrder β] {key : α → β} {c : Config} {x y z : Nat → α}

/-- The order of the keys, as a comparator. -/
def byKey (key : α → β) (a b : α) : Bool := decide (key a < key b)

/-! ## 1. Rearrangements -/

/-- The same items in other cells, from `lo` up to `stop`. -/
def Rearranged (x y : Nat → α) (lo stop : Nat) : Prop :=
  ∃ σ : Equiv.Perm Nat, (∀ i, i < lo ∨ stop ≤ i → σ i = i) ∧ y = x ∘ σ

section Rearranged

variable {lo stop : Nat}

theorem Rearranged.refl (x : Nat → α) (lo stop : Nat) : Rearranged x x lo stop :=
  ⟨Equiv.refl Nat, fun _ _ => rfl, rfl⟩

theorem Rearranged.trans (h : Rearranged x y lo stop) (h' : Rearranged y z lo stop) :
    Rearranged x z lo stop := by
  obtain ⟨σ, hσ, rfl⟩ := h
  obtain ⟨τ, hτ, rfl⟩ := h'
  refine ⟨τ.trans σ, fun i hi => ?_, rfl⟩
  rw [Equiv.trans_apply, hτ i hi, hσ i hi]

theorem Rearranged.mono {lo' stop' : Nat} (h : Rearranged x y lo stop) (hlo : lo' ≤ lo)
    (hstop : stop ≤ stop') : Rearranged x y lo' stop' := by
  obtain ⟨σ, hσ, rfl⟩ := h
  exact ⟨σ, fun i hi => hσ i (by omega), rfl⟩

theorem Rearranged.outside (h : Rearranged x y lo stop) {i : Nat} (hi : i < lo ∨ stop ≤ i) :
    y i = x i := by
  obtain ⟨σ, hσ, rfl⟩ := h
  rw [Function.comp_apply, hσ i hi]

theorem perm_inside {σ : Equiv.Perm Nat} (hσ : ∀ i, i < lo ∨ stop ≤ i → σ i = i) {i : Nat}
    (hlo : lo ≤ i) (hstop : i < stop) : lo ≤ σ i ∧ σ i < stop := by
  by_contra hout
  have hfix := σ.injective (hσ (σ i) (by omega))
  rw [hfix] at hout
  exact hout ⟨hlo, hstop⟩

-- every item comes from somewhere in the part
theorem Rearranged.source (h : Rearranged x y lo stop) {i : Nat} (hlo : lo ≤ i) (hstop : i < stop) :
    ∃ k, lo ≤ k ∧ k < stop ∧ y i = x k := by
  obtain ⟨σ, hσ, rfl⟩ := h
  have hin := perm_inside hσ hlo hstop
  exact ⟨σ i, hin.1, hin.2, rfl⟩

theorem Rearranged.perm {n : Nat} (h : Rearranged x y lo (lo + n)) :
    (slice y lo n).Perm (slice x lo n) := by
  obtain ⟨σ, hσ, rfl⟩ := h
  unfold slice
  rw [← List.map_map]
  refine List.Perm.map x ?_
  refine (List.perm_ext_iff_of_nodup ?_ List.nodup_range').mpr fun i => ?_
  · exact List.Nodup.map σ.injective List.nodup_range'
  · rw [List.mem_map, List.mem_range'_1]
    constructor
    · rintro ⟨k, hk, rfl⟩
      rw [List.mem_range'_1] at hk
      exact perm_inside hσ hk.1 hk.2
    · intro hi
      have hin : lo ≤ σ.symm i ∧ σ.symm i < lo + n := by
        by_contra hout
        have hfix := hσ (σ.symm i) (by omega)
        rw [Equiv.apply_symm_apply] at hfix
        rw [← hfix] at hout
        exact hout hi
      exact ⟨σ.symm i, List.mem_range'_1.mpr hin, Equiv.apply_symm_apply σ i⟩

theorem swap_rearranged {a b : Nat} (ha : lo ≤ a ∧ a < stop) (hb : lo ≤ b ∧ b < stop) :
    Rearranged x (set (set x a (x b)) b (x a)) lo stop := by
  refine ⟨Equiv.swap a b, fun i hi => Equiv.swap_apply_of_ne_of_ne (by omega) (by omega), ?_⟩
  funext i
  rw [Function.comp_apply]
  by_cases hib : i = b
  · rw [hib, set_self, Equiv.swap_apply_right]
  · rw [set_of_ne _ _ hib]
    by_cases hia : i = a
    · rw [hia, set_self, Equiv.swap_apply_left]
    · rw [set_of_ne _ _ hia, Equiv.swap_apply_of_ne_of_ne hia hib]

end Rearranged

/-! ## 2. Networks -/

-- both variants of `SORT_CMP_SWAP` swap unless the items are in order
theorem sortCmpSwap_eq (cmp : α → α → Bool) {a b : Nat} (hne : a ≠ b) :
    sortCmpSwap c cmp x a b = if cmp (x a) (x b) then x else set (set x a (x b)) b (x a) := by
  unfold sortCmpSwap
  by_cases hcmp : cmp (x a) (x b) = true
  · have hsame : set (set x a (x a)) b (set x a (x a) b) = x := by
      funext i
      by_cases hib : i = b
      · rw [hib, set_self, set_of_ne _ _ (Ne.symm hne)]
      · rw [set_of_ne _ _ hib]
        by_cases hia : i = a
        · rw [hia, set_self]
        · rw [set_of_ne _ _ hia]
    simp only [hcmp, if_true, not_true_eq_false, if_false, hsame, ite_self]
  · simp only [hcmp, if_false, not_false_eq_true, if_true, ite_self, Bool.false_eq_true]

theorem sortCmpSwap_rearranged (cmp : α → α → Bool) {a b lo stop : Nat} (hne : a ≠ b)
    (ha : lo ≤ a ∧ a < stop) (hb : lo ≤ b ∧ b < stop) :
    Rearranged x (sortCmpSwap c cmp x a b) lo stop := by
  rw [sortCmpSwap_eq cmp hne]
  split_ifs
  · exact Rearranged.refl x lo stop
  · exact swap_rearranged ha hb

/-- For the keys it is a comparator. -/
theorem sortCmpSwap_keys (c : Config) (key : α → β) (x : Nat → α) {a b : Nat} (hne : a ≠ b) (i : Nat) :
    key (sortCmpSwap c (byKey key) x a b i) =
      if i = a then min (key (x a)) (key (x b)) else if i = b then max (key (x a)) (key (x b))
      else key (x i) := by
  rw [sortCmpSwap_eq (byKey key) hne]
  by_cases hcmp : key (x a) < key (x b)
  · rw [if_pos (show byKey key (x a) (x b) = true from decide_eq_true hcmp), min_eq_left hcmp.le,
      max_eq_right hcmp.le]
    split_ifs with hia hib
    · rw [hia]
    · rw [hib]
    · rfl
  · have hle := not_lt.mp hcmp
    rw [if_neg (by rw [byKey, decide_eq_true_eq]; exact hcmp), min_eq_right hle, max_eq_left hle]
    by_cases hia : i = a
    · rw [if_pos hia, hia, set_of_ne _ _ hne, set_self]
    · rw [if_neg hia]
      by_cases hib : i = b
      · rw [if_pos hib, hib, set_self]
      · rw [if_neg hib, set_of_ne _ _ hib, set_of_ne _ _ hia]

theorem sortNetwork_checked {len : Nat} (hlen : len ≤ 8) : checked len (sortNetwork len) = true := by
  interval_cases len <;> decide

theorem sortNetwork_inside {len : Nat} (hlen : len ≤ 8) :
    ∀ p ∈ sortNetwork len, p.1 < p.2 ∧ p.2 < len := by
  interval_cases len <;> decide

-- a network on the keys, from some cell on
theorem foldl_keys (net : List (Nat × Nat)) (hnet : ∀ p ∈ net, p.1 < p.2) (lo k : Nat) :
    key (net.foldl (fun x p => sortCmpSwap c (byKey key) x (lo + p.1) (lo + p.2)) x (lo + k)) =
      run net (fun k => key (x (lo + k))) k := by
  unfold run
  induction net generalizing x with
  | nil => rfl
  | cons p net ih =>
    rw [List.foldl_cons, List.foldl_cons, ih fun p hp => hnet p (List.mem_cons_of_mem _ hp)]
    have hp := hnet p List.mem_cons_self
    have hstep : (fun k => key (sortCmpSwap c (byKey key) x (lo + p.1) (lo + p.2) (lo + k))) =
        compareSwap (fun k => key (x (lo + k))) p := by
      have hne : lo + p.1 ≠ lo + p.2 := by omega
      funext k
      refine (sortCmpSwap_keys c key x hne (lo + k)).trans ?_
      unfold compareSwap
      simp only [Nat.add_left_cancel_iff]
    rw [hstep]

theorem foldl_rearranged (cmp : α → α → Bool) (net : List (Nat × Nat)) {lo len : Nat}
    (hnet : ∀ p ∈ net, p.1 < p.2 ∧ p.2 < len) :
    Rearranged x (net.foldl (fun x p => sortCmpSwap c cmp x (lo + p.1) (lo + p.2)) x) lo
      (lo + len) := by
  induction net generalizing x with
  | nil => exact Rearranged.refl x lo (lo + len)
  | cons p net ih =>
    have hp := hnet p List.mem_cons_self
    rw [List.foldl_cons]
    exact (sortCmpSwap_rearranged cmp (by omega) (by omega) (by omega)).trans
      (ih fun p hp => hnet p (List.mem_cons_of_mem _ hp))

variable (key c x) in
/-- A part of at most eight items is put in order. -/
theorem sortInner_spec (lo : Nat) {len : Nat} (hlen : len ≤ 8) :
    Rearranged x (sortInner c (byKey key) x lo len) lo (lo + len) ∧
      ∀ i j, lo ≤ i → i < j → j < lo + len →
        key (sortInner c (byKey key) x lo len i) ≤ key (sortInner c (byKey key) x lo len j) := by
  refine ⟨foldl_rearranged _ _ (sortNetwork_inside hlen), fun i j hi hij hj => ?_⟩
  have hnet : ∀ p ∈ sortNetwork len, p.1 < p.2 := fun p hp => (sortNetwork_inside hlen p hp).1
  have hordered := run_of_checked (sortNetwork_checked hlen) (fun k => key (x (lo + k)))
    (i - lo) (j - lo) (by omega) (by omega)
  rw [← foldl_keys (c := c) _ hnet, ← foldl_keys (c := c) _ hnet, show lo + (i - lo) = i by omega,
    show lo + (j - lo) = j by omega] at hordered
  exact hordered

/-! ## 3. The partition -/

section Partition

variable {lo hi mid left right : Nat}

theorem scanLeft_spec {n stop : Nat} (hn : left + n = hi + 1) (hstop : left ≤ stop ∧ stop ≤ hi)
    (hkey : key (x mid) ≤ key (x stop)) :
    ∃ l, scanLeft (byKey key) x mid n left = some l ∧ left ≤ l ∧ l ≤ hi ∧
      key (x mid) ≤ key (x l) ∧ ∀ i, left ≤ i → i < l → key (x i) < key (x mid) := by
  induction n generalizing left with
  | zero => omega
  | succ n ih =>
    unfold scanLeft
    by_cases hcmp : key (x left) < key (x mid)
    · have hne : left ≠ stop := by
        intro heq
        rw [heq] at hcmp
        exact absurd hkey (not_le.mpr hcmp)
      have hwidth : left + 1 + n = hi + 1 := by omega
      obtain ⟨l, hl, hle, hhi, hge, hall⟩ := ih hwidth (by omega)
      rw [if_pos (show byKey key (x left) (x mid) = true from decide_eq_true hcmp)]
      refine ⟨l, hl, by omega, hhi, hge, fun i hi₁ hi₂ => ?_⟩
      by_cases heq : i = left
      · rw [heq]
        exact hcmp
      · exact hall i (by omega) hi₂
    · rw [if_neg (by rw [byKey, decide_eq_true_eq]; exact hcmp)]
      exact ⟨left, rfl, le_refl _, by omega, not_lt.mp hcmp, fun i hi₁ hi₂ => by omega⟩

theorem scanRight_spec {n stop : Nat} (hn : lo + n = right + 1) (hstop : lo ≤ stop ∧ stop ≤ right)
    (hkey : key (x stop) ≤ key (x mid)) :
    ∃ r, scanRight (byKey key) x mid n right = some r ∧ lo ≤ r ∧ r ≤ right ∧
      key (x r) ≤ key (x mid) ∧ ∀ i, r < i → i ≤ right → key (x mid) < key (x i) := by
  induction n generalizing right with
  | zero => omega
  | succ n ih =>
    unfold scanRight
    by_cases hcmp : key (x mid) < key (x right)
    · have hne : right ≠ stop := by
        intro heq
        rw [heq] at hcmp
        exact absurd hkey (not_le.mpr hcmp)
      have hwidth : lo + n = right - 1 + 1 := by omega
      obtain ⟨r, hr, hlo, hle, hge, hall⟩ := ih hwidth (by omega)
      rw [if_pos (show byKey key (x mid) (x right) = true from decide_eq_true hcmp)]
      refine ⟨r, hr, hlo, by omega, hge, fun i hi₁ hi₂ => ?_⟩
      by_cases heq : i = right
      · rw [heq]
        exact hcmp
      · exact hall i hi₁ (by omega)
    · rw [if_neg (by rw [byKey, decide_eq_true_eq]; exact hcmp)]
      exact ⟨right, rfl, by omega, le_refl _, not_lt.mp hcmp, fun i hi₁ hi₂ => by omega⟩

/-- Before a round of the partition: what has been passed on either side of the pivot. -/
structure Passed (key : α → β) (x : Nat → α) (pivot : β) (lo hi mid left right : Nat) : Prop where
  mid_in : lo ≤ mid ∧ mid ≤ hi
  pivot_eq : key (x mid) = pivot
  left_in : lo < left ∧ left ≤ hi
  right_in : lo ≤ right ∧ right < hi
  below : ∀ i, lo ≤ i → i < left → key (x i) ≤ pivot
  above : ∀ i, right < i → i ≤ hi → pivot ≤ key (x i)

/-- After the partition: two parts that overlap the rest of the whole nowhere. -/
structure Divided (key : α → β) (p : Partition α) (pivot : β) (lo hi : Nat) : Prop where
  left_in : lo < p.left ∧ p.left ≤ hi
  right_in : lo ≤ p.right ∧ p.right < hi
  crossed : p.right < p.left
  below : ∀ i, lo ≤ i → i < p.left → key (p.items i) ≤ pivot
  above : ∀ i, p.right < i → i ≤ hi → pivot ≤ key (p.items i)

theorem sortSwap_left (a b : Nat) : sortSwap x a b a = x b := by
  by_cases hab : a = b
  · rw [hab]
    exact set_self _ _ _
  · exact (set_of_ne _ _ hab).trans (set_self _ _ _)

theorem sortSwap_right (a b : Nat) : sortSwap x a b b = x a := set_self _ _ _

theorem sortSwap_other {a b i : Nat} (ha : i ≠ a) (hb : i ≠ b) : sortSwap x a b i = x i :=
  (set_of_ne _ _ hb).trans (set_of_ne _ _ ha)

/-- The items on which both scans stop change places. -/
theorem Passed.swap {pivot : β} {l r : Nat} (h : Passed key x pivot lo hi mid left right)
    (hl : left ≤ l) (hr : r ≤ right) (hlr : l ≤ r) (hlkey : pivot ≤ key (x l))
    (hrkey : key (x r) ≤ pivot) (hbelow : ∀ i, left ≤ i → i < l → key (x i) ≤ pivot)
    (habove : ∀ i, r < i → i ≤ right → pivot ≤ key (x i)) :
    Passed key (sortSwap x l r) pivot lo hi
      (if mid = l then r else if mid = r then l else mid) (l + 1) (r - 1) := by
  have hm := h.mid_in
  have hli := h.left_in
  have hri := h.right_in
  constructor
  · split_ifs <;> omega
  · split_ifs with h1 h2
    · rw [sortSwap_right, ← h1, h.pivot_eq]
    · rw [sortSwap_left, ← h2, h.pivot_eq]
    · rw [sortSwap_other h1 h2, h.pivot_eq]
  · omega
  · omega
  · intro i hi₁ hi₂
    by_cases heq : i = l
    · rw [heq, sortSwap_left]
      exact hrkey
    · rw [sortSwap_other heq (by omega)]
      by_cases hpast : i < left
      · exact h.below i hi₁ hpast
      · exact hbelow i (by omega) (by omega)
  · intro i hi₁ hi₂
    by_cases heq : i = r
    · rw [heq, sortSwap_right]
      exact hlkey
    · rw [sortSwap_other (by omega) heq]
      by_cases hpast : right < i
      · exact h.above i hpast hi₂
      · exact habove i (by omega) (by omega)

theorem partitionLoop_spec {pivot : β} : ∀ {fuel : Nat} {x : Nat → α} {mid left right : Nat},
    Passed key x pivot lo hi mid left right → right + 1 - left < fuel →
    ∃ p, partitionLoop (byKey key) lo hi fuel x mid left right = some p ∧
      Rearranged x p.items lo (hi + 1) ∧ Divided key p pivot lo hi
  | 0, _, _, _, _, _, hfuel => absurd hfuel (Nat.not_lt_zero _)
  | fuel + 1, x, mid, left, right, h, hfuel => by
    have hli := h.left_in
    have hri := h.right_in
    have hhi : key (x mid) ≤ key (x hi) := by
      rw [h.pivot_eq]
      exact h.above hi hri.2 (le_refl _)
    have hlo : key (x lo) ≤ key (x mid) := by
      rw [h.pivot_eq]
      exact h.below lo (le_refl _) hli.1
    have hwidth : left + (hi + 1 - left) = hi + 1 := by omega
    have hwidth' : lo + (right + 1 - lo) = right + 1 := by omega
    obtain ⟨l, hl, hll, hlh, hlkey, hlall⟩ := scanLeft_spec hwidth ⟨hli.2, le_refl hi⟩ hhi
    obtain ⟨r, hr, hrl, hrh, hrkey, hrall⟩ := scanRight_spec hwidth' ⟨le_refl lo, hri.1⟩ hlo
    rw [h.pivot_eq] at hlkey hlall hrkey hrall
    unfold partitionLoop
    rw [hl, Option.bind_eq_bind, Option.bind_some, hr, Option.bind_some]
    by_cases hcross : l > r
    · rw [if_pos hcross]
      refine ⟨_, rfl, Rearranged.refl x lo (hi + 1), ⟨lt_of_lt_of_le hli.1 hll, hlh⟩,
        ⟨hrl, lt_of_le_of_lt hrh hri.2⟩, hcross, fun i hi₁ hi₂ => ?_, fun i hi₁ hi₂ => ?_⟩
      · by_cases hpast : i < left
        · exact h.below i hi₁ hpast
        · exact (hlall i (by omega) hi₂).le
      · by_cases hpast : right < i
        · exact h.above i hpast hi₂
        · exact (hrall i hi₁ (by omega)).le
    · have hnext := h.swap hll hrh (by omega) hlkey hrkey (fun i h₁ h₂ => (hlall i h₁ h₂).le)
        fun i h₁ h₂ => (hrall i h₁ h₂).le
      rw [if_neg hcross]
      obtain ⟨p, hp, hrearr, hdiv⟩ := partitionLoop_spec hnext (show r - 1 + 1 - (l + 1) < fuel by omega)
      exact ⟨p, hp, (swap_rearranged (by omega) (by omega)).trans hrearr, hdiv⟩

variable (key c x) in
/-- Smallest, pivot and largest of three. -/
theorem median_spec (hlm : lo < mid) (hmh : mid < hi) :
    ∃ z, z = sortCmpSwap c (byKey key)
        (sortCmpSwap c (byKey key) (sortCmpSwap c (byKey key) x lo mid) mid hi) lo mid ∧
      Rearranged x z lo (hi + 1) ∧ key (z lo) ≤ key (z mid) ∧ key (z mid) ≤ key (z hi) := by
  have hne : lo ≠ mid := by omega
  have hne' : mid ≠ hi := by omega
  have hlo : lo ≤ lo ∧ lo < hi + 1 := by omega
  have hmid : lo ≤ mid ∧ mid < hi + 1 := by omega
  have hhi : lo ≤ hi ∧ hi < hi + 1 := by omega
  have hfirst := sortCmpSwap_keys c key x hne
  have hperm := sortCmpSwap_rearranged (c := c) (x := x) (byKey key) hne hlo hmid
  generalize sortCmpSwap c (byKey key) x lo mid = x₁ at *
  have hsecond := sortCmpSwap_keys c key x₁ hne'
  have hperm' := sortCmpSwap_rearranged (c := c) (x := x₁) (byKey key) hne' hmid hhi
  generalize sortCmpSwap c (byKey key) x₁ mid hi = x₂ at *
  have hthird := sortCmpSwap_keys c key x₂ hne
  refine ⟨_, rfl, (hperm.trans hperm').trans (sortCmpSwap_rearranged _ hne hlo hmid), ?_, ?_⟩
  · rw [hthird, hthird, if_pos rfl, if_neg (Ne.symm hne), if_pos rfl]
    exact min_le_max
  · rw [hthird, hthird, if_neg (Ne.symm hne), if_pos rfl, if_neg (show hi ≠ lo by omega),
      if_neg (Ne.symm hne'), hsecond lo, hsecond mid, hsecond hi, if_neg hne,
      if_neg (show lo ≠ hi by omega), if_pos rfl, if_neg (Ne.symm hne'), if_pos rfl, hfirst lo,
      hfirst mid, if_pos rfl, if_neg (Ne.symm hne), if_pos rfl]
    -- the smaller of the first two is not above the larger
    exact max_le (min_le_max.trans (le_max_left _ _)) ((min_le_left _ _).trans (le_max_left _ _))

variable (key c x) in
/-- A part of more than eight items is divided. -/
theorem partition_spec (hlong : lo + 8 < hi + 1) :
    ∃ p pivot, partition c (byKey key) x lo hi = some p ∧ Rearranged x p.items lo (hi + 1) ∧
      Divided key p pivot lo hi := by
  have hlm : lo < lo + (hi - lo) / 2 := by omega
  have hmh : lo + (hi - lo) / 2 < hi := by omega
  unfold partition
  generalize lo + (hi - lo) / 2 = mid at *
  obtain ⟨z, hz, hrearr, hlow, hhigh⟩ := median_spec key c x hlm hmh
  dsimp only
  rw [← hz]
  have hpassed : Passed key z (key (z mid)) lo hi mid (lo + 1) (hi - 1) := by
    refine ⟨by omega, rfl, by omega, by omega, fun i hi₁ hi₂ => ?_, fun i hi₁ hi₂ => ?_⟩
    · rw [show i = lo by omega]
      exact hlow
    · rw [show i = hi by omega]
      exact hhigh
  obtain ⟨p, hp, hperm, hdiv⟩ := partitionLoop_spec hpassed
    (show hi - 1 + 1 - (lo + 1) < hi + 1 - lo by omega)
  exact ⟨p, key (z mid), hp, hrearr.trans hperm, hdiv⟩

end Partition

/-! ## 4. What is left to be done -/

def Part.Has (s : Part) (i : Nat) : Prop := s.lo ≤ i ∧ i ≤ s.hi

def Part.size (s : Part) : Nat := s.hi + 1 - s.lo

/-- The parts on the stack hold what is not in order yet. -/
structure Pending (key : α → β) (x : Nat → α) (lo stop : Nat) (parts : List Part) : Prop where
  inside : ∀ s ∈ parts, ∀ i, s.Has i → lo ≤ i ∧ i < stop
  disjoint : parts.Pairwise fun s t => ∀ i, s.Has i → ¬ t.Has i
  apart : ∀ i j, lo ≤ i → i < j → j < stop → (∀ s ∈ parts, s.Has i → ¬ s.Has j) →
    key (x i) ≤ key (x j)

section Pending

variable {lo stop : Nat} {s : Part} {ts rest : List Part}

theorem Pending.within (h : Pending key x lo stop (s :: rest)) (hmove : Rearranged x y s.lo (s.hi + 1)) :
    Rearranged x y lo stop := by
  by_cases hempty : s.hi < s.lo
  · obtain ⟨σ, hσ, rfl⟩ := hmove
    exact ⟨σ, fun i _ => hσ i (by omega), rfl⟩
  · have hfirst := h.inside s List.mem_cons_self s.lo ⟨le_refl _, by omega⟩
    have hlast := h.inside s List.mem_cons_self s.hi ⟨by omega, le_refl _⟩
    exact hmove.mono hfirst.1 hlast.2

/-- A part is rearranged, and what of it is not in order is in some parts of its own. -/
theorem Pending.refine (h : Pending key x lo stop (s :: rest))
    (hmove : Rearranged x y s.lo (s.hi + 1)) (hsub : ∀ t ∈ ts, ∀ i, t.Has i → s.Has i)
    (hdisj : ts.Pairwise fun t u => ∀ i, t.Has i → ¬ u.Has i)
    (hlocal : ∀ i j, s.Has i → i < j → s.Has j → (∀ t ∈ ts, t.Has i → ¬ t.Has j) →
      key (y i) ≤ key (y j)) : Pending key y lo stop (ts ++ rest) := by
  have hhead := List.pairwise_cons.mp h.disjoint
  -- an item of the part was in the part, any other is where it was
  have hsource : ∀ i, s.Has i → ∃ k, s.Has k ∧ y i = x k := by
    intro i hin
    obtain ⟨k, hk, hk', heq⟩ := hmove.source hin.1 (Nat.lt_succ_of_le hin.2)
    exact ⟨k, ⟨hk, Nat.le_of_lt_succ hk'⟩, heq⟩
  have hstays : ∀ i, ¬ s.Has i → y i = x i := by
    intro i hout
    unfold Part.Has at hout
    exact hmove.outside (by omega)
  constructor
  · intro t ht i hin
    rw [List.mem_append] at ht
    rcases ht with ht | ht
    · exact h.inside s List.mem_cons_self i (hsub t ht i hin)
    · exact h.inside t (List.mem_cons_of_mem s ht) i hin
  · rw [List.pairwise_append]
    exact ⟨hdisj, hhead.2, fun t ht u hu i hin => hhead.1 u hu i (hsub t ht i hin)⟩
  · intro i j hi hij hj hnone
    have hrest : ∀ t ∈ rest, t.Has i → ¬ t.Has j := fun t ht =>
      hnone t (List.mem_append_right ts ht)
    by_cases hsi : s.Has i
    · by_cases hsj : s.Has j
      · exact hlocal i j hsi hij hsj fun t ht => hnone t (List.mem_append_left rest ht)
      · obtain ⟨k, hk, heq⟩ := hsource i hsi
        have hk' := h.inside s List.mem_cons_self k hk
        unfold Part.Has at hsi hsj hk
        rw [heq, hstays j hsj]
        refine h.apart k j hk'.1 (by omega) hj fun t ht hin => ?_
        rcases List.mem_cons.mp ht with rfl | ht
        · exact hsj
        · exact absurd hin (hhead.1 t ht k hk)
    · by_cases hsj : s.Has j
      · obtain ⟨k, hk, heq⟩ := hsource j hsj
        have hk' := h.inside s List.mem_cons_self k hk
        unfold Part.Has at hsi hsj hk
        rw [heq, hstays i hsi]
        refine h.apart i k hi (by omega) hk'.2 fun t ht hin => ?_
        rcases List.mem_cons.mp ht with rfl | ht
        · exact absurd hin hsi
        · exact fun hin' => hhead.1 t ht k hk hin'
      · rw [hstays i hsi, hstays j hsj]
        refine h.apart i j hi hij hj fun t ht hin => ?_
        rcases List.mem_cons.mp ht with rfl | ht
        · exact absurd hin hsi
        · exact hrest t ht hin

end Pending

/-! ## 5. The stack -/

/-- Each part fits where halving would have led from `n` items, with the parts below it. -/
def Shrinking (n : Nat) : List Part → Prop
  | [] => True
  | s :: rest => s.size * 2 ^ rest.length ≤ n ∧ Shrinking n rest

/-- A bound on the rounds that are left. -/
def Part.work (s : Part) : Nat := 2 * (s.size - 1) + 1

def work (parts : List Part) : Nat := (parts.map Part.work).sum

/-- Before the pointer to its last item, an empty part has the one to its first. -/
def Part.Valid (s : Part) : Prop := s.lo ≤ s.hi + 1

/-- What a round does with a part of more than eight items. -/
structure Cut (s a b : Part) : Prop where
  smaller : a.size ≤ b.size
  both : a.size + b.size ≤ s.size
  rounds : a.work + b.work + 1 ≤ s.work
  valid : a.Valid ∧ b.Valid

theorem Cut.shrinking {n : Nat} {s a b : Part} {rest : List Part} (h : Cut s a b)
    (hs : Shrinking n (s :: rest)) : Shrinking n (a :: b :: rest) := by
  have hsmaller := h.smaller
  have hboth := h.both
  obtain ⟨hsize, hrest⟩ := hs
  refine ⟨?_, ?_, hrest⟩
  · rw [List.length_cons, Nat.pow_succ, Nat.mul_comm (2 ^ rest.length) 2, ← Nat.mul_assoc]
    exact le_trans (Nat.mul_le_mul_right _ (by omega)) hsize
  · exact le_trans (Nat.mul_le_mul_right _ (by omega)) hsize

-- the part that is pushed is not the smaller one
theorem choose_cut {lo hi lo' hi' left right : Nat} (hleft : lo < left ∧ left ≤ hi)
    (hright : lo ≤ right ∧ right < hi) (hcross : right < left) (hlo : lo' = lo ∨ lo' = right + 1)
    (hhi : hi' = hi ∨ hi' = left) :
    Cut ⟨lo, hi⟩ (choose lo' hi' left right).1 (choose lo' hi' left right).2 := by
  unfold choose
  by_cases hgt : (right : Int) - lo' > (hi' : Int) - left
  · rw [if_pos hgt]
    refine ⟨?_, ?_, ?_, ?_⟩ <;> simp only [Part.work, Part.size, Part.Valid] <;> omega
  · rw [if_neg hgt]
    refine ⟨?_, ?_, ?_, ?_⟩ <;> simp only [Part.work, Part.size, Part.Valid] <;> omega

theorem isSorted_spec {n first : Nat} (h : isSorted (byKey key) x n first = true) :
    ∀ i j, first ≤ i → i < j → j ≤ first + n → key (x i) ≤ key (x j) := by
  induction n generalizing first with
  | zero => intro i j hi hij hj; omega
  | succ n ih =>
    unfold isSorted at h
    split_ifs at h with hcmp
    have hstep : key (x first) ≤ key (x (first + 1)) := by
      rw [byKey, decide_eq_true_eq] at hcmp
      exact not_lt.mp hcmp
    intro i j hi hij hj
    by_cases heq : i = first
    · rw [heq]
      by_cases hnext : j = first + 1
      · rw [hnext]
        exact hstep
      · exact hstep.trans (ih h (first + 1) j (le_refl _) (by omega) (by omega))
    · exact ih h i j (by omega) hij (by omega)

/-! ## 6. The main loop -/

section Loop

variable {lo hi lo' hi' : Nat} {p : Partition α} {pivot : β}

-- either order of the two parts
theorem mem_choose {left right : Nat} {t : Part}
    (ht : t ∈ [(choose lo' hi' left right).1, (choose lo' hi' left right).2]) :
    t = ⟨lo', right⟩ ∨ t = ⟨left, hi'⟩ := by
  unfold choose at ht
  split_ifs at ht <;> rw [List.mem_pair] at ht
  · exact ht.symm
  · exact ht

theorem choose_mem (left right : Nat) :
    (⟨lo', right⟩ : Part) ∈ [(choose lo' hi' left right).1, (choose lo' hi' left right).2] ∧
      (⟨left, hi'⟩ : Part) ∈ [(choose lo' hi' left right).1, (choose lo' hi' left right).2] := by
  unfold choose
  split_ifs
  · exact ⟨List.mem_cons_of_mem _ List.mem_cons_self, List.mem_cons_self⟩
  · exact ⟨List.mem_cons_self, List.mem_cons_of_mem _ List.mem_cons_self⟩

theorem Divided.choose_disjoint (h : Divided key p pivot lo hi) :
    [(choose lo' hi' p.left p.right).1, (choose lo' hi' p.left p.right).2].Pairwise
      fun t u => ∀ i, t.Has i → ¬ u.Has i := by
  have hcross := h.crossed
  rw [List.pairwise_pair]
  unfold choose Part.Has
  split_ifs
  · intro i hin hin'
    dsimp only at hin hin'
    omega
  · intro i hin hin'
    dsimp only at hin hin'
    omega

/-- Two items that neither part has are on either side of the pivot, or in a part that is sorted. -/
theorem Divided.ordered (h : Divided key p pivot lo hi)
    (hlo : lo' = lo ∨ (lo' = p.right + 1 ∧
      ∀ i j, lo ≤ i → i < j → j ≤ p.right → key (p.items i) ≤ key (p.items j)))
    (hhi : hi' = hi ∨ (hi' = p.left ∧
      ∀ i j, p.left ≤ i → i < j → j ≤ hi → key (p.items i) ≤ key (p.items j))) {i j : Nat}
    (hi₁ : lo ≤ i) (hij : i < j) (hj : j ≤ hi)
    (hleft : (⟨lo', p.right⟩ : Part).Has i → ¬ (⟨lo', p.right⟩ : Part).Has j)
    (hright : (⟨p.left, hi'⟩ : Part).Has i → ¬ (⟨p.left, hi'⟩ : Part).Has j) :
    key (p.items i) ≤ key (p.items j) := by
  unfold Part.Has at hleft hright
  dsimp only at hleft hright
  by_cases hlow : j ≤ p.right
  · rcases hlo with heq | ⟨-, hsorted⟩
    · omega
    · exact hsorted i j hi₁ hij hlow
  · by_cases hhigh : p.left ≤ i
    · rcases hhi with heq | ⟨-, hsorted⟩
      · omega
      · exact hsorted i j hhigh hij hj
    · exact (h.below i hi₁ (by omega)).trans (h.above j (by omega) hj)

-- a part that is found sorted is cut down, where that is looked for
theorem ite_presorted (expect found : Bool) (cutDown whole : Nat) :
    (if expect ∧ found then cutDown else whole) = whole ∨
      ((if expect ∧ found then cutDown else whole) = cutDown ∧ found = true) := by
  by_cases hpre : expect = true ∧ found = true
  · exact Or.inr ⟨if_pos hpre, hpre.2⟩
  · exact Or.inl (if_neg hpre)

/-- What a round does with a part of more than eight items. -/
structure Round (key : α → β) (x y : Nat → α) (s a b : Part) : Prop where
  moved : Rearranged x y s.lo (s.hi + 1)
  cut : Cut s a b
  sub : ∀ t ∈ [a, b], ∀ i, t.Has i → s.Has i
  disjoint : [a, b].Pairwise fun t u => ∀ i, t.Has i → ¬ u.Has i
  ordered : ∀ i j, s.Has i → i < j → s.Has j → (∀ t ∈ [a, b], t.Has i → ¬ t.Has j) →
    key (y i) ≤ key (y j)

variable (key c x) in
theorem sortLoop_round (hlong : lo + 8 < hi + 1) :
    ∃ y a b, Round key x y ⟨lo, hi⟩ a b ∧
      ∀ fuel stack, sortLoop c (byKey key) (fuel + 1) x ⟨lo, hi⟩ stack =
        if stack.length < c.sizeBits then sortLoop c (byKey key) fuel y a (b :: stack)
        else none := by
  obtain ⟨p, pivot, hp, hmove, hdiv⟩ := partition_spec key c x hlong
  have hleft := hdiv.left_in
  have hright := hdiv.right_in
  have hlo := ite_presorted c.expectPresorted
    (isSorted (byKey key) p.items (p.right - lo) lo) (p.right + 1) lo
  have hhi := ite_presorted c.expectPresorted
    (isSorted (byKey key) p.items (hi - p.left) p.left) p.left hi
  have heq : ∀ fuel stack, sortLoop c (byKey key) (fuel + 1) x ⟨lo, hi⟩ stack = _ :=
    fun fuel stack => by
      unfold sortLoop
      rw [if_neg (show ¬ hi + 1 - lo ≤ 8 by omega), hp, Option.bind_eq_bind, Option.bind_some]
  dsimp only at heq
  generalize (if c.expectPresorted ∧ isSorted (byKey key) p.items (p.right - lo) lo = true then
    p.right + 1 else lo) = lo' at *
  generalize (if c.expectPresorted ∧ isSorted (byKey key) p.items (hi - p.left) p.left = true then
    p.left else hi) = hi' at *
  refine ⟨p.items, (choose lo' hi' p.left p.right).1, (choose lo' hi' p.left p.right).2,
    ⟨hmove, ?_, fun t ht i hin => ?_, hdiv.choose_disjoint, fun i j hin hij hin' hnone => ?_⟩, heq⟩
  · exact choose_cut hleft hright hdiv.crossed (hlo.imp_right And.left) (hhi.imp_right And.left)
  · rcases mem_choose ht with rfl | rfl
    · unfold Part.Has at *
      dsimp only at *
      omega
    · unfold Part.Has at *
      dsimp only at *
      omega
  · refine hdiv.ordered (hlo.imp_right fun h => ⟨h.1, fun i j hi₁ hij hj => ?_⟩)
      (hhi.imp_right fun h => ⟨h.1, fun i j hi₁ hij hj => ?_⟩) hin.1 hij hin'.2
      (hnone _ (choose_mem p.left p.right).1) (hnone _ (choose_mem p.left p.right).2)
    · exact isSorted_spec h.2 i j hi₁ hij (by omega)
    · exact isSorted_spec h.2 i j hi₁ hij (by omega)

end Loop

/-- From parts that shrink, the stack does not overflow and everything is put in order. -/
theorem sortLoop_spec {n lo stop : Nat} (hbits : n < 2 ^ c.sizeBits) :
    ∀ {fuel : Nat} {x : Nat → α} {s : Part} {rest : List Part},
      Pending key x lo stop (s :: rest) → Shrinking n (s :: rest) →
      (∀ t ∈ s :: rest, t.Valid) → work (s :: rest) ≤ fuel →
      ∃ y, sortLoop c (byKey key) fuel x s rest = some y ∧ Rearranged x y lo stop ∧
        Pending key y lo stop []
  | 0, x, s, rest, _, _, _, hfuel => by
    rw [work, List.map_cons, List.sum_cons, Part.work] at hfuel
    omega
  | fuel + 1, x, ⟨first, last⟩, rest, hpending, hshrink, hvalid, hfuel => by
    have hwork : work (⟨first, last⟩ :: rest) = (⟨first, last⟩ : Part).work + work rest :=
      List.sum_cons
    by_cases hshort : last + 1 - first ≤ 8
    · have hends : first ≤ last + 1 := hvalid _ List.mem_cons_self
      have hpos : 0 < (⟨first, last⟩ : Part).work := Nat.succ_pos _
      obtain ⟨hmove, hsorted⟩ := sortInner_spec key c x first hshort
      rw [show first + (last + 1 - first) = last + 1 by omega] at hmove hsorted
      have hwithin := hpending.within hmove
      have hnext : Pending key (sortInner c (byKey key) x first (last + 1 - first)) lo stop
          ([] ++ rest) := by
        refine hpending.refine hmove (fun t ht => absurd ht List.not_mem_nil) List.Pairwise.nil
          fun i j hi hij hj _ => ?_
        exact hsorted i j hi.1 hij (Nat.lt_succ_of_le hj.2)
      unfold sortLoop
      rw [if_pos hshort]
      cases rest with
      | nil => exact ⟨_, rfl, hwithin, hnext⟩
      | cons top rest =>
        obtain ⟨y, hy, hmoved, hdone⟩ := sortLoop_spec hbits hnext hshrink.2
          (fun t ht => hvalid t (List.mem_cons_of_mem _ ht)) (show _ ≤ fuel by omega)
        exact ⟨y, hy, hwithin.trans hmoved, hdone⟩
    · obtain ⟨y, a, b, hround, hstep⟩ := sortLoop_round key c x
        (show first + 8 < last + 1 by omega)
      have hrounds := hround.cut.rounds
      have hwithin := hpending.within hround.moved
      have hnext : Pending key y lo stop (a :: b :: rest) :=
        hpending.refine hround.moved hround.sub hround.disjoint hround.ordered
      have hnextWork : work (a :: b :: rest) = a.work + (b.work + work rest) := by
        unfold work
        rw [List.map_cons, List.sum_cons, List.map_cons, List.sum_cons]
      have hnextValid : ∀ t ∈ a :: b :: rest, t.Valid := by
        intro t ht
        rw [List.mem_cons, List.mem_cons] at ht
        rcases ht with rfl | rfl | ht
        · exact hround.cut.valid.1
        · exact hround.cut.valid.2
        · exact hvalid t (List.mem_cons_of_mem _ ht)
      have hstack : rest.length < c.sizeBits := by
        have hsize : 2 ^ rest.length ≤ n := by
          refine le_trans ?_ hshrink.1
          exact Nat.le_mul_of_pos_left _ (show 0 < last + 1 - first by omega)
        exact (Nat.pow_lt_pow_iff_right (by decide)).mp (lt_of_le_of_lt hsize hbits)
      rw [hstep, if_pos hstack]
      obtain ⟨z, hz, hmoved, hdone⟩ := sortLoop_spec hbits hnext (hround.cut.shrinking hshrink)
        hnextValid (show _ ≤ fuel by omega)
      exact ⟨z, hz, hwithin.trans hmoved, hdone⟩

variable (key c x) in
/-- Every array of a size that can be addressed is put in order. -/
theorem sort_sorts {begin stop : Nat} (hbegin : 0 < begin) (hstop : begin ≤ stop)
    (hbits : stop - begin < 2 ^ c.sizeBits) :
    ∃ y, sort c (byKey key) x begin stop = some y ∧ Rearranged x y begin stop ∧
      ∀ i j, begin ≤ i → i < j → j < stop → key (y i) ≤ key (y j) := by
  have hpending : Pending key x begin stop [⟨begin, stop - 1⟩] := by
    refine ⟨fun s hs i hin => ?_, List.pairwise_singleton _ _, fun i j hi hij hj hnone => ?_⟩
    · rw [List.mem_singleton.mp hs] at hin
      unfold Part.Has at hin
      dsimp only at hin
      omega
    · exact absurd (show (⟨begin, stop - 1⟩ : Part).Has j from ⟨by show begin ≤ j; omega,
        by show j ≤ stop - 1; omega⟩) (hnone _ List.mem_cons_self
          ⟨hi, by show i ≤ stop - 1; omega⟩)
  have hshrink : Shrinking (stop - begin) [⟨begin, stop - 1⟩] := by
    refine ⟨?_, trivial⟩
    rw [List.length_nil, Nat.pow_zero, Nat.mul_one]
    show stop - 1 + 1 - begin ≤ stop - begin
    omega
  have hvalid : ∀ t ∈ [(⟨begin, stop - 1⟩ : Part)], t.Valid := by
    intro t ht
    rw [List.mem_singleton.mp ht]
    show begin ≤ stop - 1 + 1
    omega
  have hfuel : work [(⟨begin, stop - 1⟩ : Part)] ≤ 2 * (stop - begin) + 1 := by
    show 2 * (stop - 1 + 1 - begin - 1) + 1 + 0 ≤ 2 * (stop - begin) + 1
    omega
  obtain ⟨y, hy, hmoved, hdone⟩ := sortLoop_spec hbits hpending hshrink hvalid hfuel
  exact ⟨y, hy, hmoved, fun i j hi hij hj => hdone.apart i j hi hij hj fun s hs =>
    absurd hs List.not_mem_nil⟩

end Mdbx.Sort
