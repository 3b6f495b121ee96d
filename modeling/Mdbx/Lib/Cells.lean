import Mdbx.Lib.Buffer

/-!
# Cells — buffers with empty cells

A cell holds a value or nothing.  A segment is read as the list of its values; two loops close the
gaps of a segment, one towards its beginning and one towards its end.
-/

namespace Buffer

variable {α : Type}

/-- The values in the `n` cells from `lo` on. -/
def seg (b : Nat → Option α) (lo n : Nat) : List α := (List.range' lo n).filterMap b

/-! ## 1. Segments -/

@[simp] theorem seg_zero (b : Nat → Option α) (lo : Nat) : seg b lo 0 = [] := rfl

theorem seg_append (b : Nat → Option α) (lo m n : Nat) :
    seg b lo (m + n) = seg b lo m ++ seg b (lo + m) n := by
  unfold seg
  rw [← List.filterMap_append]
  congr 1
  have h := @List.range'_append lo m n 1
  rw [Nat.one_mul] at h
  exact h.symm

theorem seg_one (b : Nat → Option α) (lo : Nat) : seg b lo 1 = (b lo).toList := by
  unfold seg
  cases h : b lo with
  | none => simp [h]
  | some x => simp [h]

theorem seg_succ (b : Nat → Option α) (lo n : Nat) :
    seg b lo (n + 1) = (b lo).toList ++ seg b (lo + 1) n := by
  rw [Nat.add_comm n 1, seg_append, seg_one]

theorem seg_concat (b : Nat → Option α) (lo n : Nat) :
    seg b lo (n + 1) = seg b lo n ++ (b (lo + n)).toList := by
  rw [seg_append, seg_one]

theorem seg_congr {b b' : Nat → Option α} {lo n : Nat}
    (h : ∀ i, lo ≤ i → i < lo + n → b' i = b i) : seg b' lo n = seg b lo n := by
  induction n with
  | zero => rfl
  | succ n ih =>
    rw [seg_concat, seg_concat, ih fun i hlo hhi => h i hlo (by omega),
      h (lo + n) (by omega) (by omega)]

theorem seg_shift {b b' : Nat → Option α} {lo lo' n : Nat}
    (h : ∀ i, i < n → b' (lo' + i) = b (lo + i)) : seg b' lo' n = seg b lo n := by
  induction n with
  | zero => rfl
  | succ n ih =>
    rw [seg_concat, seg_concat, ih fun i hi => h i (by omega), h n (by omega)]

theorem seg_length_le (b : Nat → Option α) (lo n : Nat) : (seg b lo n).length ≤ n := by
  have h := List.length_filterMap_le b (List.range' lo n)
  rw [List.length_range'] at h
  exact h

theorem mem_seg {b : Nat → Option α} {lo n : Nat} {x : α} :
    x ∈ seg b lo n ↔ ∃ i, lo ≤ i ∧ i < lo + n ∧ b i = some x := by
  unfold seg
  rw [List.mem_filterMap]
  constructor
  · intro h
    obtain ⟨i, hi, hx⟩ := h
    have hb := List.mem_range'_1.mp hi
    exact ⟨i, hb.1, hb.2, hx⟩
  · intro h
    obtain ⟨i, hlo, hhi, hx⟩ := h
    exact ⟨i, List.mem_range'_1.mpr ⟨hlo, hhi⟩, hx⟩

-- a segment is full if its list is as long as it is
theorem seg_full_of_isSome {b : Nat → Option α} {lo n : Nat}
    (h : ∀ i, lo ≤ i → i < lo + n → b i ≠ none) : (seg b lo n).length = n := by
  induction n with
  | zero => rfl
  | succ n ih =>
    rw [seg_concat, List.length_append, ih fun i hlo hhi => h i hlo (by omega)]
    cases hx : b (lo + n) with
    | none => exact absurd hx (h (lo + n) (by omega) (by omega))
    | some x => rfl

theorem isSome_of_seg_full {b : Nat → Option α} {lo n : Nat} (h : (seg b lo n).length = n) {i : Nat}
    (hlo : lo ≤ i) (hhi : i < lo + n) : b i ≠ none := by
  intro hnone
  have hsplit : seg b lo n = seg b lo (i - lo) ++ seg b (i + 1) (lo + n - (i + 1)) := by
    have hn : n = (i - lo) + ((lo + n - (i + 1)) + 1) := by omega
    have hi : lo + (i - lo) = i := by omega
    conv_lhs => rw [hn, seg_append, hi, seg_succ, hnone]
    rfl
  have h₁ := seg_length_le b lo (i - lo)
  have h₂ := seg_length_le b (i + 1) (lo + n - (i + 1))
  rw [hsplit, List.length_append] at h
  omega

theorem seg_set_of_lt {b : Nat → Option α} {lo n i : Nat} (v : Option α) (h : i < lo ∨ lo + n ≤ i) :
    seg (set b i v) lo n = seg b lo n := by
  apply seg_congr
  intro j hlo hhi
  exact set_of_ne _ _ (by omega)

theorem seg_set_concat (b : Nat → Option α) (lo n : Nat) (v : Option α) :
    seg (set b (lo + n) v) lo (n + 1) = seg b lo n ++ v.toList := by
  rw [seg_concat, set_self, seg_set_of_lt v (by omega)]

theorem seg_set_cons (b : Nat → Option α) (lo n : Nat) (v : Option α) :
    seg (set b lo v) lo (n + 1) = v.toList ++ seg b (lo + 1) n := by
  rw [seg_succ, set_self, seg_set_of_lt v (by omega)]

theorem seg_getElem? {b : Nat → Option α} {lo n k : Nat} (h : (seg b lo n).length = n) (hk : k < n) :
    (seg b lo n)[k]? = b (lo + k) := by
  induction n generalizing lo k with
  | zero => omega
  | succ n ih =>
    cases hb : b lo with
    | none => exact absurd hb (isSome_of_seg_full h (Nat.le_refl lo) (by omega))
    | some x =>
      have hcons : seg b lo (n + 1) = x :: seg b (lo + 1) n := by
        rw [seg_succ, hb]
        rfl
      rw [hcons] at h ⊢
      rw [List.length_cons] at h
      cases k with
      | zero => exact hb.symm
      | succ k =>
        rw [List.getElem?_cons_succ, ih (by omega) (by omega)]
        congr 1
        omega

-- the part of a full segment after a cell
theorem seg_full_split {b : Nat → Option α} {lo m n : Nat}
    (h : (seg b lo (m + n)).length = m + n) :
    (seg b lo m).length = m ∧ (seg b (lo + m) n).length = n := by
  have h₁ := seg_length_le b lo m
  have h₂ := seg_length_le b (lo + m) n
  rw [seg_append, List.length_append] at h
  omega

theorem seg_filter {b b' : Nat → Option α} {lo n : Nat} (p : α → Bool)
    (h : ∀ i, lo ≤ i → i < lo + n → b' i = (b i).filter p) :
    seg b' lo n = (seg b lo n).filter p := by
  unfold seg
  rw [List.filter_filterMap]
  apply List.filterMap_congr
  intro i hi
  have hb := List.mem_range'_1.mp hi
  exact h i hb.1 hb.2

theorem seg_eq_map [Inhabited α] {b : Nat → Option α} {lo n : Nat} (h : (seg b lo n).length = n) :
    seg b lo n = (List.range' lo n).map fun i => (b i).getD default := by
  induction n generalizing lo with
  | zero => rfl
  | succ n ih =>
    cases hb : b lo with
    | none => exact absurd hb (isSome_of_seg_full h (Nat.le_refl lo) (by omega))
    | some x =>
      rw [Nat.add_comm n 1] at h
      obtain ⟨-, hrest⟩ := seg_full_split h
      rw [seg_succ, List.range'_succ, List.map_cons, ih hrest, hb]
      rfl

/-! ## 2. Closing the gaps towards the beginning -/

/-- The loop over the cells `1 … n`, with the next cell to be filled. -/
def squashBegin (b : Nat → Option α) : Nat → (Nat → Option α) × Nat
  | 0 => (b, 1)
  | n + 1 =>
      let done := squashBegin b n
      match done.1 (n + 1) with
      | none => done
      | some x =>
          if done.2 ≠ n + 1 then (set (set done.1 done.2 (some x)) (n + 1) none, done.2 + 1)
          else (done.1, done.2 + 1)

theorem squashBegin_spec (b : Nat → Option α) (n : Nat) :
    (squashBegin b n).2 = (seg b 1 n).length + 1 ∧
      seg (squashBegin b n).1 1 (seg b 1 n).length = seg b 1 n ∧
      (∀ i, (seg b 1 n).length < i → i ≤ n → (squashBegin b n).1 i = none) ∧
      ∀ i, n < i → (squashBegin b n).1 i = b i := by
  induction n with
  | zero =>
    refine ⟨rfl, rfl, ?_, fun _ _ => rfl⟩
    intro i hlo hhi
    omega
  | succ n ih =>
    obtain ⟨hw, hseg, hnone, hrest⟩ := ih
    have hlen := seg_length_le b 1 n
    have hnext : (squashBegin b n).1 (n + 1) = b (n + 1) := hrest (n + 1) (by omega)
    have hcat : seg b 1 (n + 1) = seg b 1 n ++ (b (n + 1)).toList := by
      rw [seg_concat, Nat.add_comm 1 n]
    unfold squashBegin
    simp only
    rw [hnext]
    cases hb : b (n + 1) with
    | none =>
      rw [hcat, hb, Option.toList_none, List.append_nil]
      refine ⟨hw, hseg, ?_, fun i hi => hrest i (by omega)⟩
      intro i hlo hhi
      by_cases hi : i = n + 1
      · rw [hi, hnext, hb]
      · exact hnone i hlo (by omega)
    | some x =>
      have hlen' : (seg b 1 (n + 1)).length = (seg b 1 n).length + 1 := by
        rw [hcat, hb, List.length_append]
        rfl
      simp only
      rw [hlen', hcat, hb, Option.toList_some]
      by_cases hgap : (squashBegin b n).2 ≠ n + 1
      · rw [if_pos hgap]
        simp only
        refine ⟨by rw [hw], ?_, ?_, ?_⟩
        · rw [seg_concat, Nat.add_comm 1]
          have hlast : set (set (squashBegin b n).1 (squashBegin b n).2 (some x)) (n + 1) none
              ((seg b 1 n).length + 1) = some x := by
            rw [set_of_ne _ _ (by omega), ← hw, set_self]
          rw [hlast, seg_set_of_lt none (by omega), seg_set_of_lt _ (by omega), hseg]
          rfl
        · intro i hlo hhi
          by_cases hi : i = n + 1
          · rw [hi, set_self]
          · rw [set_of_ne _ _ hi, set_of_ne _ _ (by omega)]
            exact hnone i (by omega) (by omega)
        · intro i hi
          rw [set_of_ne _ _ (by omega), set_of_ne _ _ (by omega)]
          exact hrest i (by omega)
      · rw [if_neg hgap]
        simp only
        have hw' : (squashBegin b n).2 = n + 1 := not_not.mp hgap
        have hfull : (seg b 1 n).length = n := by omega
        refine ⟨by rw [hw], ?_, ?_, fun i hi => hrest i (by omega)⟩
        · rw [seg_concat, Nat.add_comm 1, hseg, hfull, hnext, hb]
          rfl
        · intro i hlo hhi
          omega

/-! ## 3. Closing the gaps towards the end -/

/-- The loop over the `k` cells up to `len`, with the next cell to be filled. -/
def squashEnd (b : Nat → Option α) (len : Nat) : Nat → (Nat → Option α) × Nat
  | 0 => (b, len)
  | k + 1 =>
      let done := squashEnd b len k
      match done.1 (len - k) with
      | none => done
      | some x =>
          if done.2 ≠ len - k then (set (set done.1 done.2 (some x)) (len - k) none, done.2 - 1)
          else (done.1, done.2 - 1)

theorem squashEnd_spec (b : Nat → Option α) {len k : Nat} (hk : k ≤ len) :
    (squashEnd b len k).2 = len - (seg b (len - k + 1) k).length ∧
      seg (squashEnd b len k).1 (len - (seg b (len - k + 1) k).length + 1)
        (seg b (len - k + 1) k).length = seg b (len - k + 1) k ∧
      ∀ i, i ≤ len - k → (squashEnd b len k).1 i = b i := by
  induction k with
  | zero => exact ⟨rfl, rfl, fun _ _ => rfl⟩
  | succ k ih =>
    obtain ⟨hw, hseg, hrest⟩ := ih (by omega)
    have hlen := seg_length_le b (len - k + 1) k
    have hnext : (squashEnd b len k).1 (len - k) = b (len - k) := hrest (len - k) (by omega)
    have hlow : len - (k + 1) + 1 = len - k := by omega
    have hcat : seg b (len - k) (k + 1) = (b (len - k)).toList ++ seg b (len - k + 1) k :=
      seg_succ _ _ _
    unfold squashEnd
    simp only
    rw [hnext, hlow, hcat]
    cases hb : b (len - k) with
    | none =>
      rw [Option.toList_none, List.nil_append]
      exact ⟨hw, hseg, fun i hi => hrest i (by omega)⟩
    | some x =>
      simp only
      rw [Option.toList_some, List.singleton_append, List.length_cons]
      have hlow' : len - ((seg b (len - k + 1) k).length + 1) + 1 =
          len - (seg b (len - k + 1) k).length := by omega
      by_cases hgap : (squashEnd b len k).2 ≠ len - k
      · rw [if_pos hgap]
        simp only
        refine ⟨by omega, ?_, ?_⟩
        · rw [hlow', seg_succ]
          have hfirst : set (set (squashEnd b len k).1 (squashEnd b len k).2 (some x)) (len - k) none
              (len - (seg b (len - k + 1) k).length) = some x := by
            rw [set_of_ne _ _ (by omega), ← hw, set_self]
          rw [hfirst, seg_set_of_lt none (by omega), seg_set_of_lt _ (by omega), hseg]
          rfl
        · intro i hi
          rw [set_of_ne _ _ (by omega), set_of_ne _ _ (by omega)]
          exact hrest i (by omega)
      · rw [if_neg hgap]
        simp only
        have hw' : (squashEnd b len k).2 = len - k := not_not.mp hgap
        refine ⟨by omega, ?_, fun i hi => hrest i (by omega)⟩
        have hsame : len - (seg b (len - k + 1) k).length = len - k := by omega
        rw [hlow', seg_succ, hseg, hsame, hnext, hb]
        rfl

end Buffer
