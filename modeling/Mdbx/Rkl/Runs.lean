import Mdbx.Rkl.Insert

/-!
# Rkl.Runs — the sets reachable through the `rkl_*` operations

One step lemma for each operation, and from them the invariant of everything built from `rkl_init`.
-/

namespace Mdbx

open Buffer

variable {r : Rkl} {b : Build} {al : Allocator} {id : Nat}

/-! ## 1. The operations besides the push -/

theorem rklClear_wf (h : r.Wf) : (rklClear r).Wf := by
  refine ⟨fun i j _ hj => ?_, fun i hi => ?_, fun hs => ?_, fun _ i hi => ?_, fun _ => ?_,
    Nat.zero_le _, h.limit, h.inplaceLimit⟩
  · exact absurd hj (Nat.not_lt_zero _)
  · exact absurd hi (Nat.not_lt_zero _)
  · exact absurd hs (Nat.not_lt_zero _)
  · exact absurd hi (Nat.not_lt_zero _)
  · exact Or.inl ⟨rfl, rfl, rfl⟩

theorem rklInit_wf (r : Rkl) : (rklInit r).Wf := by
  refine ⟨fun i j _ hj => ?_, fun i hi => ?_, fun hs => ?_, fun _ i hi => ?_, fun _ => ?_,
    Nat.zero_le _, le_rfl, fun _ => rfl⟩
  · exact absurd hj (Nat.not_lt_zero _)
  · exact absurd hi (Nat.not_lt_zero _)
  · exact absurd hs (Nat.not_lt_zero _)
  · exact absurd hi (Nat.not_lt_zero _)
  · exact Or.inl ⟨rfl, rfl, rfl⟩

theorem rklInit_ids (r : Rkl) : (rklInit r).ids = ∅ :=
  Rkl.ids_eq_empty.mpr ⟨rfl, Nat.not_lt_zero _⟩

/-- The destination of a move holds the set of the source, the source is empty. -/
theorem rklDestructiveMove_spec (h : r.Wf) :
    (rklDestructiveMove r).2.Wf ∧ SameContent r (rklDestructiveMove r).2 ∧
      (rklDestructiveMove r).1.Wf ∧ (rklDestructiveMove r).1.ids = ∅ := by
  have hsame : SameContent r (rklDestructiveMove r).2 :=
    SameContent.of_fields rfl rfl rfl (fun _ _ => rfl)
  have hlimit : (rklDestructiveMove r).2.listLimit = r.listLimit := by
    change (if r.inplace then rklInplaceLength else r.listLimit) = r.listLimit
    split
    · rename_i hin
      exact (h.inplaceLimit hin).symm
    · rfl
  refine ⟨h.of_sameContent hsame rfl rfl ?_ ?_ ?_, hsame, rklInit_wf r, rklInit_ids r⟩
  · rw [hlimit]; exact h.room
  · rw [hlimit]; exact h.limit
  · rw [hlimit]; exact h.inplaceLimit

/-- A successful copy has the set of the source; a failed one is empty. -/
theorem rklCopy_spec (h : r.Wf) (al : Allocator) (dst : Rkl) :
    (rklCopy al r dst).2.Wf ∧
      ((rklCopy al r dst).1 = .success → (rklCopy al r dst).2.ids = r.ids) ∧
      ((rklCopy al r dst).1 ≠ .success → (rklCopy al r dst).2.ids = ∅) := by
  have hinit := rklInit_wf dst
  unfold rklCopy
  simp only
  split
  · rename_i he
    refine ⟨hinit, fun _ => ?_, by simp⟩
    rw [h.empty_iff.mp he, rklInit_ids]
  · set reserved := if (rklInit dst).listLimit < r.listLength
      then rklResize al (rklInit dst) r.listLimit else (Rc.success, rklInit dst) with hres
    obtain ⟨hfields, hok, hbad⟩ := rklResize_spec al (rklInit dst) r.listLimit
    have hroom := h.room
    by_cases hsmall : (rklInit dst).listLimit < r.listLength
    · rw [if_pos hsmall] at hres
      rw [hres]
      split
      · rename_i hrc
        rw [hbad hrc]
        exact ⟨hinit, fun hs => absurd hs hrc, fun _ => rklInit_ids dst⟩
      · rename_i hrc
        obtain ⟨-, hgrow, hlimit, hin⟩ := hok (not_not.mp hrc)
        have hsame : SameContent r { (rklResize al (rklInit dst) r.listLimit).2 with
            list := r.list, listLength := r.listLength
            solidBegin := r.solidBegin, solidEnd := r.solidEnd } :=
          SameContent.of_fields rfl rfl rfl (fun _ _ => rfl)
        exact ⟨h.of_sameContent hsame rfl rfl (by simp only; omega) (hlimit hinit.limit)
          (hin hinit.inplaceLimit), fun _ => hsame.ids_eq, by simp⟩
    · rw [if_neg hsmall] at hres
      rw [hres]
      have hsame : SameContent r { rklInit dst with
          list := r.list, listLength := r.listLength
          solidBegin := r.solidBegin, solidEnd := r.solidEnd } :=
        SameContent.of_fields rfl rfl rfl (fun _ _ => rfl)
      simp only [ne_eq, not_true, if_false]
      exact ⟨h.of_sameContent hsame rfl rfl (by simp only; omega) hinit.limit hinit.inplaceLimit,
        fun _ => hsame.ids_eq, fun hne => hne.elim⟩

theorem afterCut_ids (r : Rkl) : (afterCut r).ids = r.ids := by
  unfold afterCut
  split
  · rename_i hc
    rw [Rkl.ids_eq_empty.mpr ⟨hc.1, by omega⟩]
    exact Rkl.ids_eq_empty.mpr ⟨hc.1, Nat.not_lt_zero _⟩
  · rfl

/-- `after_cut` restores the canonical empty form. -/
theorem afterCut_wf (ha : Ascending r.list r.listLength)
    (hl : ∀ i < r.listLength, minTxnid ≤ r.list i ∧ r.list i < invalidTxnid)
    (hs : r.solidBegin < r.solidEnd → minTxnid ≤ r.solidBegin ∧ r.solidEnd ≤ invalidTxnid)
    (hap : r.solidBegin < r.solidEnd →
      ∀ i < r.listLength, r.list i + 1 < r.solidBegin ∨ r.solidEnd < r.list i)
    (hle : r.solidBegin ≤ r.solidEnd) (hroom : r.listLength ≤ r.listLimit)
    (hlimit : rklInplaceLength ≤ r.listLimit)
    (hin : r.inplace = true → r.listLimit = rklInplaceLength) : (afterCut r).Wf := by
  unfold afterCut
  split
  · rename_i hc
    refine ⟨ha, hl, fun hlt => absurd hlt (Nat.not_lt_zero _),
      fun hlt => absurd hlt (Nat.not_lt_zero _), fun _ => Or.inl ⟨hc.1, rfl, rfl⟩, hroom, hlimit,
      hin⟩
  · rename_i hc
    exact ⟨ha, hl, hs, hap, fun hne => Or.inr ⟨by omega, by omega⟩, hroom, hlimit, hin⟩

theorem Rkl.Wf.solid_le (h : r.Wf) (hpos : 0 < r.listLength) : r.solidBegin ≤ r.solidEnd := by
  by_cases hs : r.solidBegin < r.solidEnd
  · omega
  · rcases h.hollow hs with ⟨hz, -, -⟩ | ⟨-, he⟩ <;> omega

/-- Dropping the last list element. -/
theorem popLast_spec (h : r.Wf) (hpos : 0 < r.listLength) :
    (afterCut { r with listLength := r.listLength - 1 }).Wf ∧
      (afterCut { r with listLength := r.listLength - 1 }).ids =
        r.ids.erase (r.list (r.listLength - 1)) := by
  have hroom := h.room
  refine ⟨afterCut_wf (fun i j hij hj => ?_) (fun i hi => ?_) h.solidIds (fun hs i hi => ?_)
    (h.solid_le hpos) (by simp only; omega) h.limit h.inplaceLimit, ?_⟩
  · exact h.ascending i j hij (by simp only at hj; omega)
  · exact h.listIds i (by simp only at hi; omega)
  · exact h.apart hs i (by simp only at hi; omega)
  · rw [afterCut_ids]
    ext x
    rw [Finset.mem_erase, Rkl.mem_ids, Rkl.mem_ids]
    change ((∃ j < r.listLength - 1, r.list j = x) ∨ (r.solidBegin ≤ x ∧ x < r.solidEnd)) ↔ _
    constructor
    · rintro (⟨j, hj, rfl⟩ | hx)
      · have := h.ascending j (r.listLength - 1) hj (by omega)
        exact ⟨by omega, Or.inl ⟨j, by omega, rfl⟩⟩
      · have := h.apart (by omega) (r.listLength - 1) (by omega)
        exact ⟨by omega, Or.inr hx⟩
    · rintro ⟨hne, ⟨j, hj, rfl⟩ | hx⟩
      · have hj' : j ≠ r.listLength - 1 := fun hj' => hne (by rw [hj'])
        exact Or.inl ⟨j, by omega, rfl⟩
      · exact Or.inr hx

/-- Dropping the first list element. -/
theorem popFirst_spec (h : r.Wf) (hpos : 0 < r.listLength) :
    (afterCut (listRemoveFirst r).2).Wf ∧
      (afterCut (listRemoveFirst r).2).ids = r.ids.erase (r.list 0) := by
  have hroom := h.room
  have hcells : ∀ j < r.listLength - 1, (listRemoveFirst r).2.list j = r.list (j + 1) := by
    intro j hj
    change moveDown r.list 0 1 (r.listLength - 1) j = _
    rw [moveDown_apply _ _ _ _ _ (by omega), if_pos (by omega)]
    congr 1
    omega
  refine ⟨afterCut_wf (fun i j hij hj => ?_) (fun i hi => ?_) h.solidIds (fun hs i hi => ?_)
    (h.solid_le hpos) (by change r.listLength - 1 ≤ r.listLimit; omega) h.limit h.inplaceLimit, ?_⟩
  · change j < r.listLength - 1 at hj
    rw [hcells i (by omega), hcells j hj]
    exact h.ascending _ _ (by omega) (by omega)
  · change i < r.listLength - 1 at hi
    rw [hcells i hi]
    exact h.listIds _ (by omega)
  · change i < r.listLength - 1 at hi
    rw [hcells i hi]
    exact h.apart hs _ (by omega)
  · rw [afterCut_ids]
    ext x
    rw [Finset.mem_erase, Rkl.mem_ids, Rkl.mem_ids]
    change ((∃ j < r.listLength - 1, (listRemoveFirst r).2.list j = x) ∨
      (r.solidBegin ≤ x ∧ x < r.solidEnd)) ↔ _
    constructor
    · rintro (⟨j, hj, rfl⟩ | hx)
      · rw [hcells j hj]
        have := h.ascending 0 (j + 1) (by omega) (by omega)
        exact ⟨by omega, Or.inl ⟨j + 1, by omega, rfl⟩⟩
      · have := h.apart (by omega) 0 hpos
        exact ⟨by omega, Or.inr hx⟩
    · rintro ⟨hne, ⟨j, hj, rfl⟩ | hx⟩
      · have hj' : j ≠ 0 := fun hj' => hne (by rw [hj'])
        refine Or.inl ⟨j - 1, by omega, ?_⟩
        rw [hcells _ (by omega), Nat.sub_add_cancel (by omega)]
      · exact Or.inr hx

/-- Shortening the interval by one id at either end. -/
theorem popSolid_spec (h : r.Wf) (hs : r.solidBegin < r.solidEnd) (highest : Bool) :
    let cut : Rkl := if highest then { r with solidEnd := r.solidEnd - 1 }
      else { r with solidBegin := r.solidBegin + 1 }
    (afterCut cut).Wf ∧ (afterCut cut).ids =
      r.ids.erase (if highest then r.solidEnd - 1 else r.solidBegin) := by
  have hsb := h.solidIds hs
  have hwf : ∀ lo hi, r.solidBegin ≤ lo → hi ≤ r.solidEnd → lo ≤ hi →
      (afterCut { r with solidBegin := lo, solidEnd := hi }).Wf := by
    intro lo hi hlo hhi hle
    refine afterCut_wf h.ascending h.listIds (fun _ => ?_) (fun _ i hi' => ?_) hle h.room h.limit
      h.inplaceLimit
    · exact ⟨by simp only; omega, by simp only; omega⟩
    · have := h.apart hs i hi'
      simp only
      omega
  have hids : ∀ lo hi v, r.solidBegin ≤ v ∧ v < r.solidEnd →
      (∀ x, lo ≤ x ∧ x < hi ↔ x ≠ v ∧ r.solidBegin ≤ x ∧ x < r.solidEnd) →
      (afterCut { r with solidBegin := lo, solidEnd := hi }).ids = r.ids.erase v := by
    intro lo hi v hv hcut
    rw [afterCut_ids]
    ext x
    rw [Finset.mem_erase, Rkl.mem_ids, Rkl.mem_ids]
    change ((∃ j < r.listLength, r.list j = x) ∨ (lo ≤ x ∧ x < hi)) ↔ _
    rw [hcut]
    constructor
    · rintro (⟨j, hj, rfl⟩ | ⟨hne, hx⟩)
      · have := h.not_mem_solid hs hj
        exact ⟨by omega, Or.inl ⟨j, hj, rfl⟩⟩
      · exact ⟨hne, Or.inr hx⟩
    · rintro ⟨hne, hx | hx⟩
      · exact Or.inl hx
      · exact Or.inr ⟨hne, hx⟩
  cases highest with
  | true =>
    exact ⟨hwf r.solidBegin (r.solidEnd - 1) le_rfl (by omega) (by omega),
      hids r.solidBegin (r.solidEnd - 1) (r.solidEnd - 1) (by omega) (fun x => by omega)⟩
  | false =>
    exact ⟨hwf (r.solidBegin + 1) r.solidEnd (by omega) le_rfl (by omega),
      hids (r.solidBegin + 1) r.solidEnd r.solidBegin (by omega) (fun x => by omega)⟩

/-- `rkl_pop` takes the maximum or the minimum out of a nonempty set. -/
theorem rklPop_spec (h : r.Wf) (highest : Bool) :
    (rklPop r highest).2.Wf ∧
      (r.ids.Nonempty →
        (rklPop r highest).1 = (if highest then rklHighest r else rklLowest r) ∧
        (rklPop r highest).2.ids = r.ids.erase (rklPop r highest).1) ∧
      (r.ids = ∅ → rklPop r highest = (0, r)) := by
  unfold rklPop
  have hsolid : solidEmpty r = true ↔ ¬ r.solidBegin < r.solidEnd := by simp [solidEmpty]
  by_cases hA : r.listLength ≠ 0 ∧ highest = true ∧
      (solidEmpty r ∨ r.solidEnd < r.list (r.listLength - 1))
  · rw [if_pos hA]
    obtain ⟨hz, rfl, hc⟩ := hA
    obtain ⟨hwf, hids⟩ := popLast_spec h (by omega)
    refine ⟨hwf, fun _ => ⟨?_, hids⟩, fun he => ?_⟩
    · unfold rklHighest
      rw [if_pos rfl, if_pos hz, if_pos (hc.imp id le_of_lt)]
    · exact absurd (Rkl.ids_eq_empty.mp he).1 hz
  · rw [if_neg hA]
    by_cases hB : r.listLength ≠ 0 ∧ highest = false ∧ (solidEmpty r ∨ r.solidBegin > r.list 0)
    · rw [if_pos hB]
      obtain ⟨hz, rfl, hc⟩ := hB
      obtain ⟨hwf, hids⟩ := popFirst_spec h (by omega)
      refine ⟨hwf, fun _ => ⟨?_, hids⟩, fun he => ?_⟩
      · unfold rklLowest
        rw [if_neg Bool.false_ne_true, if_pos hz, if_pos hc]
        rfl
      · exact absurd (Rkl.ids_eq_empty.mp he).1 hz
    · rw [if_neg hB]
      by_cases hs : r.solidBegin < r.solidEnd
      · have hne : ¬ r.ids = ∅ := fun he => (Rkl.ids_eq_empty.mp he).2 hs
        have hse : solidEmpty r = false := by simp [solidEmpty, hs]
        rw [hse]
        simp only [Bool.not_false, if_true]
        obtain ⟨hwf, hids⟩ := popSolid_spec h hs highest
        cases highest with
        | true =>
          simp only [if_true] at hwf hids ⊢
          refine ⟨hwf, fun _ => ⟨?_, hids⟩, fun he => absurd he hne⟩
          unfold rklHighest
          rw [hse]
          simp only [Bool.false_eq_true, false_or, Bool.not_false, if_true]
          split_ifs with hz hlast
          · -- the last list element would adjoin the interval
            have := h.apart hs (r.listLength - 1) (by omega)
            simp only [ne_eq, hz, not_false_eq_true, hse, Bool.false_eq_true, false_or, true_and]
              at hA
            omega
          · rfl
          · rfl
        | false =>
          simp only [Bool.false_eq_true, if_false] at hwf hids ⊢
          refine ⟨hwf, fun _ => ⟨?_, hids⟩, fun he => absurd he hne⟩
          unfold rklLowest
          rw [hse]
          simp only [Bool.false_eq_true, false_or, Bool.not_false, if_true]
          split_ifs with hz hfirst
          · simp only [ne_eq, hz, not_false_eq_true, hse, Bool.false_eq_true, false_or, true_and]
              at hB
            omega
          · rfl
          · rfl
      · have hse : solidEmpty r = true := by simp [solidEmpty, hs]
        rw [hse]
        have hz : r.listLength = 0 := by
          by_contra hz
          cases highest with
          | true => exact hA ⟨hz, rfl, Or.inl hse⟩
          | false => exact hB ⟨hz, rfl, Or.inl hse⟩
        refine ⟨h, fun hne => absurd (Rkl.ids_eq_empty.mpr ⟨hz, hs⟩) hne.ne_empty, fun _ => rfl⟩

/-! ## 2. Runs -/

/-- Each push of a merge meets `ok` in the state it is made in. -/
def PushesMeet (ok : Rkl → Nat → Prop) (b : Build) (al : Allocator) (ignoreDuplicates : Bool) :
    Rkl → List Nat → Prop
  | _, [] => True
  | dst, id :: ids =>
      ok dst id ∧
        (¬ ((rklPush b al dst id).1 ≠ .success ∧
            (ignoreDuplicates = false ∨ (rklPush b al dst id).1 ≠ .resultTrue)) →
          PushesMeet ok b al ignoreDuplicates (rklPush b al dst id).2 ids)

/-- Everything that the `rkl_*` operations build, as long as each push meets `ok`; an allocation may
fail in any of them. -/
inductive Built (ok : Rkl → Nat → Prop) (b : Build) : Rkl → Prop
  | init (raw : Rkl) : Built ok b (rklInit raw)
  | clear {r : Rkl} (hr : Built ok b r) : Built ok b (rklClear r)
  | push {r : Rkl} {id : Nat} (al : Allocator) (hr : Built ok b r)
      (hid : minTxnid ≤ id ∧ id < invalidTxnid) (hok : ok r id) : Built ok b (rklPush b al r id).2
  | pop {r : Rkl} (highest : Bool) (hr : Built ok b r) : Built ok b (rklPop r highest).2
  | merge {src dst : Rkl} (al : Allocator) (ignoreDuplicates : Bool) (hsrc : Built ok b src)
      (hdst : Built ok b dst) (hok : PushesMeet ok b al ignoreDuplicates dst (mergeOrder src)) :
      Built ok b (rklMerge b al src dst ignoreDuplicates).2
  | moved {r : Rkl} (hr : Built ok b r) : Built ok b (rklDestructiveMove r).2
  | drained {r : Rkl} (hr : Built ok b r) : Built ok b (rklDestructiveMove r).1
  | copy {r : Rkl} (al : Allocator) (raw : Rkl) (hr : Built ok b r) : Built ok b (rklCopy al r raw).2

theorem rklPush_wf (h : r.Wf) (al : Allocator) (hid : minTxnid ≤ id ∧ id < invalidTxnid)
    (hclear : ¬ BuriedDuplicate r id) : (rklPush b al r id).2.Wf := by
  have hout := rklPush_outcome h b al hid
  generalize rklPush b al r id = res at hout ⊢
  cases hout with
  | added _ hwf _ => exact hwf
  | known _ _ hwf _ => exact hwf
  | clobbered hbur _ => exact absurd hbur hclear
  | refused _ _ => exact h

theorem pushEach_wf {ignoreDuplicates : Bool} {ids : List Nat} {dst : Rkl} (h : dst.Wf)
    (hids : ∀ x ∈ ids, minTxnid ≤ x ∧ x < invalidTxnid)
    (hok : PushesMeet (fun r id => ¬ BuriedDuplicate r id) b al ignoreDuplicates dst ids) :
    (pushEach b al ignoreDuplicates dst ids).2.Wf := by
  induction ids generalizing dst with
  | nil => exact h
  | cons x ids ih =>
    obtain ⟨hclear, hrest⟩ := hok
    have hwf := rklPush_wf (b := b) h al (hids x List.mem_cons_self) hclear
    rw [pushEach]
    split
    · exact hwf
    · rename_i hgo
      exact ih hwf (fun y hy => hids y (List.mem_cons_of_mem x hy)) (hrest hgo)

theorem mergeOrder_bounds (h : r.Wf) : ∀ x ∈ mergeOrder r, minTxnid ≤ x ∧ x < invalidTxnid := by
  intro x hx
  apply h.ids_bounds
  rw [Rkl.mem_ids]
  simp only [mergeOrder, List.mem_append, List.mem_reverse, List.mem_map, List.mem_range] at hx
  rcases hx with ⟨j, hj, rfl⟩ | ⟨j, hj, rfl⟩
  · exact Or.inl ⟨j, hj, rfl⟩
  · exact Or.inr (by omega)

/-- The invariant of a run: as long as no push meets a buried duplicate, the representation stays
well-formed. -/
theorem Built.wf (h : Built (fun r id => ¬ BuriedDuplicate r id) b r) : r.Wf := by
  induction h with
  | init raw => exact rklInit_wf raw
  | clear _ ih => exact rklClear_wf ih
  | push al _ hid hok ih => exact rklPush_wf ih al hid hok
  | pop highest _ ih => exact (rklPop_spec ih highest).1
  | merge al ign _ _ hok ihs ihd => exact pushEach_wf ihd (mergeOrder_bounds ihs) hok
  | moved _ ih => exact (rklDestructiveMove_spec ih).1
  | drained _ ih => exact (rklDestructiveMove_spec ih).2.2.1
  | copy al raw _ ih => exact (rklCopy_spec ih al raw).1

/-- The four queries answer for the represented set. -/
structure QueriesExact (b : Build) (r : Rkl) : Prop where
  len : rklLen r = r.ids.card
  contain : ∀ x, rklContain b r x = true ↔ x ∈ r.ids
  lowest : (r.ids = ∅ → rklLowest r = invalidTxnid) ∧
    (r.ids.Nonempty → rklLowest r ∈ r.ids ∧ ∀ x ∈ r.ids, rklLowest r ≤ x)
  highest : (r.ids = ∅ → rklHighest r = 0) ∧
    (r.ids.Nonempty → rklHighest r ∈ r.ids ∧ ∀ x ∈ r.ids, x ≤ rklHighest r)

theorem Rkl.Wf.queriesExact (h : r.Wf) (b : Build) : QueriesExact b r :=
  ⟨rklLen_eq_card h, rklContain_iff h b, rklLowest_spec h, rklHighest_spec h⟩

/-- `rkl_push` as an insertion into a finite set. -/
structure PushIsInsert (b : Build) (al : Allocator) (r : Rkl) (id : Nat) : Prop where
  absent : id ∉ r.ids →
    (rklPush b al r id).1 = .success ∧ (rklPush b al r id).2.ids = insert id r.ids
  present : id ∈ r.ids →
    (rklPush b al r id).1 = .resultTrue ∧ SameContent r (rklPush b al r id).2
  queries : QueriesExact b (rklPush b al r id).2

theorem pushIsInsert_of_clear (h : r.Wf) (hid : minTxnid ≤ id ∧ id < invalidTxnid)
    (hal : AllocationSucceeds al r) (hclear : ¬ BuriedDuplicate r id) :
    PushIsInsert b al r id := by
  have hwf := rklPush_wf (b := b) h al hid hclear
  have hout := rklPush_outcome h b al hid
  suffices hres : (id ∉ r.ids → (rklPush b al r id).1 = .success ∧
        (rklPush b al r id).2.ids = insert id r.ids) ∧
      (id ∈ r.ids → (rklPush b al r id).1 = .resultTrue ∧ SameContent r (rklPush b al r id).2) from
    ⟨hres.1, hres.2, hwf.queriesExact b⟩
  generalize rklPush b al r id = res at hout ⊢
  cases hout with
  | added habsent _ hids => exact ⟨fun _ => ⟨rfl, hids⟩, fun hin => absurd hin habsent⟩
  | known hin _ _ hsame => exact ⟨fun habsent => absurd hin habsent, fun _ => ⟨rfl, hsame⟩⟩
  | clobbered hbur _ => exact absurd hbur hclear
  | refused herr hfull => exact absurd (hfull.2.trans (hal hfull.1)) herr.1

/-- A push of a buried duplicate drops the largest element of the list. -/
theorem not_pushIsInsert_of_buried (h : r.Wf) (hid : minTxnid ≤ id ∧ id < invalidTxnid)
    (hbur : BuriedDuplicate r id) : ¬ PushIsInsert b al r id := by
  intro hmeets
  obtain ⟨hs, k, hk, hdeep, hkid⟩ := hbur
  have hin : id ∈ r.ids := Rkl.mem_ids.mpr (Or.inl ⟨k, hk, hkid⟩)
  have hlast : r.list (r.listLength - 1) ∈ r.ids :=
    Rkl.mem_ids.mpr (Or.inl ⟨r.listLength - 1, by omega, rfl⟩)
  obtain ⟨hrc, hsame⟩ := hmeets.present hin
  have hout := rklPush_outcome h b al hid
  generalize rklPush b al r id = res at hout hrc hsame
  cases hout with
  | added habsent _ _ => exact habsent hin
  | known _ hclear _ _ => exact hclear ⟨hs, k, hk, hdeep, hkid⟩
  | clobbered _ hids =>
    have := hsame.ids_eq
    rw [hids] at this
    exact Finset.notMem_erase _ _ (this ▸ hlast)
  | refused herr _ => exact herr.2 hrc

/-- On everything built without a buried duplicate, a push acts as a set insertion exactly when it
is not itself such a push. -/
theorem rklPush_isInsert_iff (b : Build) (al : Allocator) (r : Rkl) (id : Nat)
    (hr : Built (fun r id => ¬ BuriedDuplicate r id) b r)
    (hid : minTxnid ≤ id ∧ id < invalidTxnid) (hal : AllocationSucceeds al r) :
    PushIsInsert b al r id ↔ ¬ BuriedDuplicate r id := by
  constructor
  · intro hmeets hbur
    exact not_pushIsInsert_of_buried hr.wf hid hbur hmeets
  · exact pushIsInsert_of_clear hr.wf hid hal

/-- An allocator that gives exactly what is asked for. -/
def exactAllocator : Allocator := ⟨fun bytes => some bytes, fun _ _ h => (Option.some.inj h).le⟩

/-- Ids 1, 10, 20 and 30 pushed in this order: the interval is `[1, 2)`, the list `[10, 20, 30]`. -/
def sampleRkl : Rkl :=
  (pushEach ⟨false, true⟩ exactAllocator false (rklInit ⟨0, 0, 0, 0, fun _ => 0, true⟩)
    [1, 10, 20, 30]).2

theorem sampleRkl_built (ok : Rkl → Nat → Prop)
    (hok : PushesMeet ok ⟨false, true⟩ exactAllocator false
      (rklInit ⟨0, 0, 0, 0, fun _ => 0, true⟩) [1, 10, 20, 30]) :
    Built ok ⟨false, true⟩ sampleRkl := by
  obtain ⟨h1, hr⟩ := hok
  obtain ⟨h2, hr⟩ := hr (by decide)
  obtain ⟨h3, hr⟩ := hr (by decide)
  obtain ⟨h4, -⟩ := hr (by decide)
  exact Built.push exactAllocator (Built.push exactAllocator (Built.push exactAllocator
    (Built.push exactAllocator (Built.init _) (by decide) h1) (by decide) h2) (by decide) h3)
    (by decide) h4

theorem rklPush_isInsert_iff_sample :
    (PushIsInsert ⟨false, true⟩ exactAllocator sampleRkl 20 ↔ ¬ BuriedDuplicate sampleRkl 20) ∧
      ¬ BuriedDuplicate sampleRkl 20 :=
  ⟨rklPush_isInsert_iff ⟨false, true⟩ exactAllocator sampleRkl 20
    (sampleRkl_built _ ⟨by decide, fun _ => ⟨by decide, fun _ => ⟨by decide, fun _ =>
      ⟨by decide, fun _ => trivial⟩⟩⟩⟩) (by decide) (by unfold AllocationSucceeds; decide),
    by decide⟩

/-- Pushing 10 once more into `{1, 10, 20, 30}` reports the duplicate and loses 30. -/
theorem rklPush_loses_largest :
    ¬ ∀ (b : Build) (al : Allocator) (r : Rkl) (id : Nat), Built (fun _ _ => True) b r →
      minTxnid ≤ id ∧ id < invalidTxnid → AllocationSucceeds al r → PushIsInsert b al r id := by
  intro hall
  have hbuilt : Built (fun _ _ => True) ⟨false, true⟩ sampleRkl :=
    sampleRkl_built _ ⟨trivial, fun _ => ⟨trivial, fun _ => ⟨trivial, fun _ =>
      ⟨trivial, fun _ => trivial⟩⟩⟩⟩
  have hmeets := hall ⟨false, true⟩ exactAllocator sampleRkl 10 hbuilt (by decide)
    (by unfold AllocationSucceeds; decide)
  have hsame := (hmeets.present (by decide)).2.ids_eq
  have hlost : 30 ∉ (rklPush ⟨false, true⟩ exactAllocator sampleRkl 10).2.ids := by decide
  rw [hsame] at hlost
  exact hlost (by decide)

end Mdbx
