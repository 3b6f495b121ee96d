import Mdbx.Rkl.Exchange

/-!
# Rkl.Insert — every outcome of `rkl_push`

The undo loop of `rkl_push` leaves the last cell of the list as the shift made it, so a duplicate
that lies deeper than one cell from the end of the list costs the set its largest list element;
`BuriedDuplicate` names these calls.
-/

namespace Mdbx

open Buffer

variable {r : Rkl} {b : Build} {al : Allocator} {id : Nat}

/-! ## 1. Insertion into the list -/

structure Scanned (id : Nat) (list : Nat → Nat) (n : Nat) (s : PushScan) : Prop where
  le : s.i ≤ n
  cells : ∀ j, s.list j = if s.i < j ∧ j ≤ n then list (j - 1) else list j
  above : ∀ k, s.i ≤ k → k < n → id < list k
  below : 0 < s.i → list (s.i - 1) ≤ id
  found : s.found = true ↔ 0 < s.i ∧ list (s.i - 1) = id

theorem pushScan_spec (id : Nat) (list : Nat → Nat) (n : Nat) :
    Scanned id list n (pushScan id list n) := by
  induction n generalizing list with
  | zero =>
    refine ⟨le_rfl, fun j => ?_, by omega, by simp [pushScan], by simp [pushScan]⟩
    rw [if_neg (by omega)]
    rfl
  | succ n ih =>
    rw [pushScan]
    split
    · rename_i hlt
      have h := ih (set list (n + 1) (list n))
      have hle := h.le
      have hkeep : ∀ k ≤ n, set list (n + 1) (list n) k = list k :=
        fun k hk => set_of_ne _ _ (by omega)
      refine ⟨by omega, fun j => ?_, fun k hk hkn => ?_, fun hpos => ?_, ?_⟩
      · rw [h.cells]
        by_cases hin : (pushScan id (set list (n + 1) (list n)) n).i < j ∧ j ≤ n
        · rw [if_pos hin, if_pos (by omega), hkeep _ (by omega)]
        · rw [if_neg hin]
          by_cases hlast : j = n + 1
          · rw [hlast, set_self, if_pos (by omega), Nat.add_sub_cancel]
          · rw [set_of_ne _ _ hlast, if_neg (by omega)]
      · by_cases hlast : k = n
        · rw [hlast]; exact hlt
        · rw [← hkeep k (by omega)]
          exact h.above k hk (by omega)
      · rw [← hkeep _ (by omega)]
        exact h.below hpos
      · rw [h.found, hkeep _ (by omega)]
    · rename_i hge
      refine ⟨le_rfl, fun j => ?_, by simp only; omega, fun _ => ?_, ?_⟩
      · rw [if_neg (by simp only; omega)]
      · simp only [Nat.add_sub_cancel]; omega
      · simp only [decide_eq_true_eq, Nat.add_sub_cancel]
        constructor
        · intro he; exact ⟨by omega, he.symm⟩
        · intro he; exact he.2.symm

/-- The calls of `rkl_push` that go wrong: `id` is already in the list with at least two greater
elements behind it, and the interval is not empty. -/
def BuriedDuplicate (r : Rkl) (id : Nat) : Prop :=
  r.solidBegin < r.solidEnd ∧ ∃ k < r.listLength, k + 2 < r.listLength ∧ r.list k = id

instance (r : Rkl) (id : Nat) : Decidable (BuriedDuplicate r id) := by
  unfold BuriedDuplicate
  infer_instance

/-- Pushing an element of the list: every cell survives but the last, which takes the value of its
left neighbour as soon as two cells were shifted. -/
theorem pushList_of_mem {k : Nat} (ha : Ascending r.list r.listLength) (hk : k < r.listLength)
    (hid : r.list k = id) :
    (pushList b r id).1 = .resultTrue ∧
      (pushList b r id).2 = { r with list := (pushList b r id).2.list } ∧
      ∀ j < r.listLength, (pushList b r id).2.list j =
        if j + 1 = r.listLength ∧ k + 2 < r.listLength then r.list (j - 1) else r.list j := by
  have h := pushScan_spec id r.list r.listLength
  have hle := h.le
  have hi : (pushScan id r.list r.listLength).i = k + 1 := by
    rcases Nat.lt_trichotomy (pushScan id r.list r.listLength).i (k + 1) with hlt | heq | hgt
    · have := h.above k (by omega) hk
      omega
    · exact heq
    · have h1 := h.below (by omega)
      have h2 := ha k _ (show k < (pushScan id r.list r.listLength).i - 1 by omega) (by omega)
      omega
  have hfound : (pushScan id r.list r.listLength).found = true :=
    h.found.mpr ⟨by omega, by rw [hi]; exact hid⟩
  unfold pushList
  simp only [hfound, if_true]
  refine ⟨trivial, trivial, fun j hj => ?_⟩
  rw [hi, moveDown_apply _ _ _ _ _ (by omega), h.cells, h.cells, hi]
  split_ifs <;> first | omega | rfl | (congr 1; omega)

/-- What a push of a new id into the list leaves before the exchange is considered. -/
theorem pushList_of_not_mem (h : r.Wf) (hs : r.solidBegin < r.solidEnd)
    (hroom : r.listLength < r.listLimit) (hid : minTxnid ≤ id ∧ id < invalidTxnid)
    (hout : id + 1 < r.solidBegin ∨ r.solidEnd < id)
    (hnew : ∀ k < r.listLength, r.list k ≠ id) :
    (pushList b r id).1 = .success ∧ (pushList b r id).2.Wf ∧
      (pushList b r id).2.ids = insert id r.ids := by
  have hscan := pushScan_spec id r.list r.listLength
  have hle := hscan.le
  set s := pushScan id r.list r.listLength with hsdef
  have hfound : s.found = false := by
    rw [← Bool.not_eq_true, hscan.found]
    rintro ⟨hpos, he⟩
    exact hnew _ (by omega) he
  have hbelow : ∀ k < s.i, r.list k < id := by
    intro k hk
    have h1 := hscan.below (by omega)
    have h2 := hnew (s.i - 1) (by omega)
    have h3 := h.ascending.le (show k ≤ s.i - 1 by omega) (by omega)
    omega
  -- the list with `id` at its place
  set r1 : Rkl := { r with list := set s.list s.i id, listLength := r.listLength + 1 } with hr1
  have hcells : ∀ j, r1.list j =
      if j = s.i then id else if s.i < j ∧ j ≤ r.listLength then r.list (j - 1) else r.list j := by
    intro j
    change set s.list s.i id j = _
    by_cases hj : j = s.i
    · rw [hj, set_self, if_pos rfl]
    · rw [set_of_ne _ _ hj, if_neg hj, hscan.cells]
  have hmem : ∀ x, (∃ j < r.listLength + 1, r1.list j = x) ↔
      x = id ∨ ∃ k < r.listLength, r.list k = x := by
    intro x
    constructor
    · rintro ⟨j, hj, rfl⟩
      rw [hcells]
      split_ifs
      · exact Or.inl rfl
      · exact Or.inr ⟨j - 1, by omega, rfl⟩
      · exact Or.inr ⟨j, by omega, rfl⟩
    · rintro (rfl | ⟨k, hk, rfl⟩)
      · exact ⟨s.i, by omega, by rw [hcells, if_pos rfl]⟩
      · by_cases hki : k < s.i
        · exact ⟨k, by omega, by rw [hcells, if_neg (by omega), if_neg (by omega)]⟩
        · refine ⟨k + 1, by omega, ?_⟩
          rw [hcells, if_neg (by omega), if_pos (by omega), Nat.add_sub_cancel]
  have hids : r1.ids = insert id r.ids := by
    ext x
    rw [Finset.mem_insert, Rkl.mem_ids, Rkl.mem_ids]
    change ((∃ j < r.listLength + 1, r1.list j = x) ∨ _) ↔ _
    rw [hmem, or_assoc]
  have hlist : ∀ j < r.listLength + 1, r1.list j = id ∨ ∃ k < r.listLength, r.list k = r1.list j :=
    fun j hj => (hmem _).mp ⟨j, hj, rfl⟩
  have hasc : Ascending r1.list (r.listLength + 1) := by
    intro i j hij hj
    rw [hcells, hcells]
    split_ifs
    · omega
    · exact hscan.above _ (by omega) (by omega)
    · omega
    · exact hbelow _ (by omega)
    · exact h.ascending _ _ (by omega) (by omega)
    · omega
    · exact hbelow _ (by omega)
    · exact h.ascending _ _ (by omega) (by omega)
    · exact h.ascending _ _ (by omega) (by omega)
  have hwf : r1.Wf := by
    refine ⟨hasc, fun j hj => ?_, h.solidIds, fun _ j hj => ?_, fun hne => absurd hs hne, ?_,
      h.limit, h.inplaceLimit⟩
    · rcases hlist j hj with he | ⟨k, hk, he⟩
      · rw [he]; exact hid
      · rw [← he]; exact h.listIds k hk
    · rcases hlist j hj with he | ⟨k, hk, he⟩
      · rw [he]; exact hout
      · rw [← he]; exact h.apart hs k hk
    · change r.listLength + 1 ≤ r.listLimit
      omega
  have hput : r1.list s.i = id := by rw [hcells, if_pos rfl]
  have hpush : pushList b r id = (.success, considerExchange b r1 s.i id) := by
    unfold pushList
    simp only [← hsdef, hfound, Bool.false_eq_true, if_false]
    rfl
  obtain ⟨hwf', hids'⟩ := considerExchange_spec (b := b) hwf hs
    (show s.i < r1.listLength by change s.i < r.listLength + 1; omega) hput
  rw [hpush]
  exact ⟨rfl, hwf', hids'.trans hids⟩

/-! ## 2. Growing the buffer -/

theorem le_rklSize2bytes (size : Nat) : 8 * size ≤ rklSize2bytes size := by
  simp only [rklSize2bytes, txlGranulate, mallocOverhead]
  omega

/-- A resize touches nothing but the buffer, and a successful one makes room. -/
theorem rklResize_spec (al : Allocator) (r : Rkl) (wanna : Nat) :
    (rklResize al r wanna).2 =
        { r with listLimit := (rklResize al r wanna).2.listLimit
                 inplace := (rklResize al r wanna).2.inplace } ∧
      ((rklResize al r wanna).1 = .success → r.listLength ≤ wanna ∧
        wanna ≤ (rklResize al r wanna).2.listLimit ∧
        (rklInplaceLength ≤ r.listLimit → rklInplaceLength ≤ (rklResize al r wanna).2.listLimit) ∧
        ((r.inplace = true → r.listLimit = rklInplaceLength) →
          (rklResize al r wanna).2.inplace = true →
          (rklResize al r wanna).2.listLimit = rklInplaceLength)) ∧
      ((rklResize al r wanna).1 ≠ .success → (rklResize al r wanna).2 = r) := by
  unfold rklResize
  split
  · exact ⟨rfl, by simp, fun _ => rfl⟩
  · split
    · exact ⟨rfl, by simp, fun _ => rfl⟩
    · split
      · refine ⟨rfl, fun _ => ⟨by omega, by simpa using ‹_›, fun _ => le_rfl, fun _ _ => rfl⟩, ?_⟩
        simp
      · split
        · cases ha : al.alloc (rklSize2bytes wanna) with
          | none => exact ⟨rfl, by simp, fun _ => rfl⟩
          | some usable =>
            have h1 := al.enough _ _ ha
            have h2 := le_rklSize2bytes wanna
            have hsize : wanna ≤ rklBytes2size usable := by
              unfold rklBytes2size
              omega
            refine ⟨rfl, fun _ => ⟨by omega, hsize, fun _ => ?_, by simp⟩, by simp⟩
            change rklInplaceLength ≤ rklBytes2size usable
            omega
        · rename_i he
          refine ⟨rfl, fun _ => ⟨by omega, by simp only; omega, fun h => h, fun h => h⟩, by simp⟩

theorem rklResize_ne_resultTrue (al : Allocator) (r : Rkl) (wanna : Nat) :
    (rklResize al r wanna).1 ≠ .resultTrue := by
  unfold rklResize
  cases al.alloc (rklSize2bytes wanna) <;> split_ifs <;> simp

theorem listLength_lt_pushGrowSize (r : Rkl) : r.listLength < pushGrowSize r := by
  unfold pushGrowSize
  simp only
  split_ifs <;> omega

/-! ## 3. One push -/

/-- `rkl_resize`, where `rkl_push` needs it, succeeds. -/
def AllocationSucceeds (al : Allocator) (r : Rkl) : Prop :=
  r.listLength = r.listLimit → (rklResize al r (pushGrowSize r)).1 = .success

/-- The same set in the same list order. -/
structure SameContent (r r' : Rkl) : Prop where
  ids_eq : r'.ids = r.ids
  length_eq : r'.listLength = r.listLength
  cells_eq : ∀ j < r.listLength, r'.list j = r.list j

theorem SameContent.of_fields {r r' : Rkl} (hb : r'.solidBegin = r.solidBegin)
    (he : r'.solidEnd = r.solidEnd) (hl : r'.listLength = r.listLength)
    (hc : ∀ j < r.listLength, r'.list j = r.list j) : SameContent r r' := by
  refine ⟨?_, hl, hc⟩
  ext x
  rw [Rkl.mem_ids, Rkl.mem_ids, hb, he, hl]
  apply or_congr_left
  constructor
  · rintro ⟨j, hj, rfl⟩
    exact ⟨j, hj, (hc j hj).symm⟩
  · rintro ⟨j, hj, rfl⟩
    exact ⟨j, hj, hc j hj⟩

theorem Rkl.Wf.of_sameContent {r r' : Rkl} (h : r.Wf) (hs : SameContent r r')
    (hb : r'.solidBegin = r.solidBegin) (he : r'.solidEnd = r.solidEnd)
    (hroom : r.listLength ≤ r'.listLimit) (hlimit : rklInplaceLength ≤ r'.listLimit)
    (hin : r'.inplace = true → r'.listLimit = rklInplaceLength) : r'.Wf := by
  have hl := hs.length_eq
  refine ⟨fun i j hij hj => ?_, fun j hj => ?_, ?_, fun hlt j hj => ?_, ?_, by omega, hlimit, hin⟩
  · rw [hs.cells_eq i (by omega), hs.cells_eq j (by omega)]
    exact h.ascending i j hij (by omega)
  · rw [hs.cells_eq j (by omega)]
    exact h.listIds j (by omega)
  · rw [hb, he]; exact h.solidIds
  · rw [hb, he, hs.cells_eq j (by omega)]
    exact h.apart (by omega) j (by omega)
  · rw [hb, he, hl]; exact h.hollow

/-- Everything one call of `rkl_push` does to a well-formed set. -/
inductive PushOutcome (al : Allocator) (r : Rkl) (id : Nat) : Rc × Rkl → Prop
  | added {r' : Rkl} (absent : id ∉ r.ids) (wf : r'.Wf) (ids_eq : r'.ids = insert id r.ids) :
      PushOutcome al r id (.success, r')
  | known {r' : Rkl} (present : id ∈ r.ids) (clear : ¬ BuriedDuplicate r id) (wf : r'.Wf)
      (same : SameContent r r') : PushOutcome al r id (.resultTrue, r')
  | clobbered {r' : Rkl} (buried : BuriedDuplicate r id)
      (ids_eq : r'.ids = r.ids.erase (r.list (r.listLength - 1))) :
      PushOutcome al r id (.resultTrue, r')
  | refused {rc : Rc} (err : rc ≠ .success ∧ rc ≠ .resultTrue)
      (full : r.listLength = r.listLimit ∧ rc = (rklResize al r (pushGrowSize r)).1) :
      PushOutcome al r id (rc, r)

theorem pushList_outcome {r0 : Rkl} (h : r.Wf) (hs : r.solidBegin < r.solidEnd)
    (hroom : r.listLength < r.listLimit) (hid : minTxnid ≤ id ∧ id < invalidTxnid)
    (hout : id + 1 < r.solidBegin ∨ r.solidEnd < id)
    (hsame : SameContent r0 r) (hb : r.solidBegin = r0.solidBegin)
    (he : r.solidEnd = r0.solidEnd) : PushOutcome al r0 id (pushList b r id) := by
  by_cases hmem : ∃ k < r.listLength, r.list k = id
  · obtain ⟨k, hk, hkid⟩ := hmem
    obtain ⟨hrc, hrest, hcells⟩ := @pushList_of_mem r b id k h.ascending hk hkid
    have hk0 : k < r0.listLength := by rw [← hsame.length_eq]; exact hk
    rw [← Prod.mk.eta (p := pushList b r id), hrc, hrest]
    set list' := (pushList b r id).2.list
    by_cases hdeep : k + 2 < r.listLength
    · -- the last cell is overwritten by its neighbour
      have hbur : BuriedDuplicate r0 id := by
        refine ⟨by omega, k, hk0, ?_, ?_⟩
        · rw [← hsame.length_eq]; exact hdeep
        · rw [← hsame.cells_eq k hk0]; exact hkid
      apply PushOutcome.clobbered hbur
      have hl := hsame.length_eq
      have hlast : r0.list (r0.listLength - 1) = r.list (r.listLength - 1) := by
        rw [hl, hsame.cells_eq _ (by omega)]
      ext x
      rw [Finset.mem_erase, ← hsame.ids_eq, Rkl.mem_ids, Rkl.mem_ids, hlast]
      change ((∃ j < r.listLength, list' j = x) ∨ (r.solidBegin ≤ x ∧ x < r.solidEnd)) ↔ _
      constructor
      · rintro (⟨j, hj, rfl⟩ | hx)
        · rw [hcells j hj]
          split_ifs with hj'
          · have := h.ascending (j - 1) (r.listLength - 1) (by omega) (by omega)
            exact ⟨by omega, Or.inl ⟨j - 1, by omega, rfl⟩⟩
          · have := h.ascending j (r.listLength - 1) (by omega) (by omega)
            exact ⟨by omega, Or.inl ⟨j, hj, rfl⟩⟩
        · have := h.apart hs (r.listLength - 1) (by omega)
          exact ⟨by omega, Or.inr hx⟩
      · rintro ⟨hne, ⟨j, hj, rfl⟩ | hx⟩
        · have hj' : j ≠ r.listLength - 1 := fun hj' => hne (by rw [hj'])
          exact Or.inl ⟨j, hj, by rw [hcells j hj, if_neg (by omega)]⟩
        · exact Or.inr hx
    · have hclear : ¬ BuriedDuplicate r0 id := by
        rintro ⟨-, k', hk', hdeep', hkid'⟩
        rw [← hsame.cells_eq k' hk'] at hkid'
        rw [← hsame.length_eq] at hk' hdeep'
        have := h.ascending.inj hk' hk (hkid'.trans hkid.symm)
        omega
      have hkeep : SameContent r { r with list := list' } :=
        SameContent.of_fields rfl rfl rfl (fun j hj => by
          change list' j = _
          rw [hcells j hj, if_neg (by omega)])
      have hmem0 : id ∈ r0.ids := by
        rw [← hsame.ids_eq]
        exact Rkl.mem_ids.mpr (Or.inl ⟨k, hk, hkid⟩)
      refine PushOutcome.known hmem0 hclear
        (h.of_sameContent hkeep rfl rfl h.room h.limit h.inplaceLimit) ⟨?_, ?_, ?_⟩
      · rw [hkeep.ids_eq, hsame.ids_eq]
      · exact hsame.length_eq
      · intro j hj
        rw [hkeep.cells_eq j (by rw [hsame.length_eq]; exact hj), hsame.cells_eq j hj]
  · have hnew : ∀ k < r.listLength, r.list k ≠ id := fun k hk hkid => hmem ⟨k, hk, hkid⟩
    obtain ⟨hrc, hwf, hids⟩ := pushList_of_not_mem (b := b) h hs hroom hid hout hnew
    rw [← Prod.mk.eta (p := pushList b r id), hrc]
    refine PushOutcome.added ?_ hwf (by rw [hids, hsame.ids_eq])
    rw [← hsame.ids_eq, Rkl.mem_ids]
    rintro (hx | hx)
    · exact hmem hx
    · omega

theorem pushAside_outcome (h : r.Wf) (hs : r.solidBegin < r.solidEnd)
    (hid : minTxnid ≤ id ∧ id < invalidTxnid)
    (hout : id + 1 < r.solidBegin ∨ r.solidEnd < id) :
    PushOutcome al r id (pushAside b al r id) := by
  unfold pushAside
  split
  · -- one element each: the pair around `id` becomes the interval
    rename_i hc
    obtain ⟨hone, hsolid, hnear⟩ := hc
    have hap := h.apart hs 0 (by omega)
    have hl0 := h.listIds 0 (by omega)
    have hmin : minTxnid = 1 := rfl
    set couple := if r.list 0 = id - 1 then id - 1 else id with hcouple
    have hpair : ∀ x, (couple ≤ x ∧ x < couple + 2) ↔ x = id ∨ x = r.list 0 := by
      intro x
      rw [hcouple]
      split_ifs <;> omega
    have hget : ∀ j < r.listLength, set r.list 0 r.solidBegin j = r.solidBegin := by
      intro j hj
      rw [show j = 0 by omega, set_self]
    have hsb := h.solidIds hs
    simp only
    refine PushOutcome.added ?_ ⟨fun i j hij hj => ?_, fun j hj => ?_, fun _ => ⟨?_, ?_⟩,
      fun _ j hj => ?_, ?_, h.room, h.limit, h.inplaceLimit⟩ ?_
    · rw [Rkl.mem_ids]
      rintro (⟨k, hk, hkid⟩ | hx)
      · rw [show k = 0 by omega] at hkid
        omega
      · omega
    · change j < r.listLength at hj
      omega
    · change minTxnid ≤ set r.list 0 r.solidBegin j ∧ set r.list 0 r.solidBegin j < invalidTxnid
      rw [hget j hj]
      omega
    · change minTxnid ≤ couple
      rw [hcouple]
      split_ifs <;> omega
    · change couple + 2 ≤ invalidTxnid
      rw [hcouple]
      split_ifs <;> omega
    · change set r.list 0 r.solidBegin j + 1 < couple ∨ couple + 2 < set r.list 0 r.solidBegin j
      rw [hget j hj, hcouple]
      split_ifs <;> omega
    · exact fun hne => absurd (show couple < couple + 2 by omega) hne
    · ext x
      rw [Finset.mem_insert, Rkl.mem_ids, Rkl.mem_ids]
      change ((∃ j < r.listLength, set r.list 0 r.solidBegin j = x) ∨
        (couple ≤ x ∧ x < couple + 2)) ↔ _
      rw [hpair]
      constructor
      · rintro (⟨j, hj, rfl⟩ | hx | hx)
        · rw [hget j hj]
          exact Or.inr (Or.inr ⟨le_rfl, hs⟩)
        · exact Or.inl hx
        · exact Or.inr (Or.inl ⟨0, by omega, hx.symm⟩)
      · rintro (hx | ⟨k, hk, rfl⟩ | hx)
        · exact Or.inr (Or.inl hx)
        · exact Or.inr (Or.inr (by rw [show k = 0 by omega]))
        · exact Or.inl ⟨0, by omega, by rw [set_self]; omega⟩
  · split
    · rename_i hfull
      obtain ⟨hfields, hok, hbad⟩ := rklResize_spec al r (pushGrowSize r)
      simp only
      split
      · rename_i hrc
        rw [← Prod.mk.eta (p := rklResize al r (pushGrowSize r)), hbad hrc]
        exact PushOutcome.refused ⟨hrc, rklResize_ne_resultTrue al r _⟩ ⟨hfull, rfl⟩
      · rename_i hrc
        obtain ⟨-, hgrow, hlimit, hin⟩ := hok (not_not.mp hrc)
        have hlt := listLength_lt_pushGrowSize r
        set g := (rklResize al r (pushGrowSize r)).2
        have hsb : g.solidBegin = r.solidBegin := by rw [hfields]
        have hse : g.solidEnd = r.solidEnd := by rw [hfields]
        have hlen : g.listLength = r.listLength := by rw [hfields]
        have hlist : g.list = r.list := by rw [hfields]
        have hsame : SameContent r g :=
          SameContent.of_fields hsb hse hlen (fun j _ => by rw [hlist])
        have hwf : g.Wf := h.of_sameContent hsame hsb hse (by omega) (hlimit h.limit)
          (hin h.inplaceLimit)
        exact pushList_outcome hwf (by omega) (by omega) hid (by omega) hsame hsb hse
    · have hroom := h.room
      exact pushList_outcome h hs (by omega) hid hout ⟨rfl, rfl, fun _ _ => rfl⟩ rfl rfl

/-- The whole of `rkl_push`. -/
theorem rklPush_outcome (h : r.Wf) (b : Build) (al : Allocator)
    (hid : minTxnid ≤ id ∧ id < invalidTxnid) : PushOutcome al r id (rklPush b al r id) := by
  have ha := h.ascending
  have hpos : ∀ k < r.listLength, 1 ≤ r.list k := fun k hk => (h.listIds k hk).1
  have hmin : minTxnid = 1 := rfl
  unfold rklPush
  split
  · -- the interval is empty, `id` starts a new one
    rename_i hempty
    by_cases hmem : ∃ k < r.listLength, r.list k = id
    · obtain ⟨k, hk, hkid⟩ := hmem
      rw [extendSolid_of_mem_list ha hk hkid (fun j hj => hkid ▸ ha j k hj hk) (by omega)]
      refine PushOutcome.known (Rkl.mem_ids.mpr (Or.inl ⟨k, hk, hkid⟩)) ?_ h
        ⟨rfl, rfl, fun _ _ => rfl⟩
      rintro ⟨hs, -⟩
      omega
    · have hne : ∀ k < r.listLength, r.list k ≠ id := fun k hk hkid => hmem ⟨k, hk, hkid⟩
      obtain ⟨r', i, f, t, he, hext⟩ := @extendSolid_of_not_mem r b id id (id + 1) ha hpos
        (by omega) (fun k hk => by have := hne k hk; omega)
      rw [he]
      refine PushOutcome.added ?_ (hext.wf h (by omega) (by omega) (by omega))
        (hext.ids_eq (by omega) ?_)
      · rw [Rkl.mem_ids]
        rintro (hx | hx)
        · exact hmem hx
        · omega
      · rw [show Finset.Ico r.solidBegin r.solidEnd = ∅ from Finset.Ico_eq_empty (by omega),
          Nat.Ico_succ_singleton]
        rfl
  · rename_i hsolid
    have hs : r.solidBegin < r.solidEnd := by omega
    have hsb := h.solidIds hs
    split
    · split
      · -- just below the interval
        rename_i hadj
        obtain ⟨r', i, f, t, he, hext⟩ := @extendSolid_of_not_mem r b id id r.solidEnd ha hpos
          (by omega) (fun k hk => by have := h.apart hs k hk; omega)
        rw [he]
        refine PushOutcome.added ?_ (hext.wf h (by omega) (by omega) (by omega))
          (hext.ids_eq (by omega) ?_)
        · rw [Rkl.mem_ids]
          rintro (⟨k, hk, hx⟩ | hx)
          · have := h.apart hs k hk
            omega
          · omega
        · ext x
          simp only [Finset.mem_Ico, Finset.mem_insert]
          omega
      · exact pushAside_outcome h hs hid (by omega)
    · split
      · split
        · -- just above the interval
          rename_i hadj
          obtain ⟨r', i, f, t, he, hext⟩ := @extendSolid_of_not_mem r b id r.solidBegin (id + 1)
            ha hpos (by omega) (fun k hk => by have := h.apart hs k hk; omega)
          rw [he]
          refine PushOutcome.added ?_ (hext.wf h (by omega) (by omega) (by omega))
            (hext.ids_eq (by omega) ?_)
          · rw [Rkl.mem_ids]
            rintro (⟨k, hk, hx⟩ | hx)
            · have := h.apart hs k hk
              omega
            · omega
          · ext x
            simp only [Finset.mem_Ico, Finset.mem_insert]
            omega
        · exact pushAside_outcome h hs hid (by omega)
      · refine PushOutcome.known (Rkl.mem_ids.mpr (Or.inr (by omega))) ?_ h
          ⟨rfl, rfl, fun _ _ => rfl⟩
        rintro ⟨-, k, hk, -, hkid⟩
        have := h.apart hs k hk
        omega

end Mdbx
