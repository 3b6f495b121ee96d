import Mdbx.Lib.Buffer

/-!
# Slices — a part of an array as a list

The cells from one on are read as a list.  A block copy and a sort of such a part get their lists, and
an order of the list is an order of the cells.
-/

namespace Buffer

variable {α : Type} {b b' : Nat → α} {lo lo' n : Nat}

/-- The `n` cells from `lo` on. -/
def slice (b : Nat → α) (lo n : Nat) : List α := (List.range' lo n).map b

@[simp] theorem slice_length (b : Nat → α) (lo n : Nat) : (slice b lo n).length = n := by
  unfold slice
  rw [List.length_map, List.length_range']

theorem slice_add (b : Nat → α) (lo m n : Nat) :
    slice b lo (m + n) = slice b lo m ++ slice b (lo + m) n := by
  unfold slice
  rw [← List.map_append, List.range'_append_1]

theorem slice_cons (b : Nat → α) (lo n : Nat) :
    slice b lo (n + 1) = b lo :: slice b (lo + 1) n := by
  unfold slice
  rw [List.range'_succ, List.map_cons]

-- the cells from one on in two parts
theorem slice_at (b : Nat → α) {k n : Nat} (h : k ≤ n) :
    slice b 1 n = slice b 1 k ++ slice b (k + 1) (n - k) := by
  rw [Nat.add_comm k 1, ← slice_add, Nat.add_sub_cancel' h]

theorem slice_getElem? {k : Nat} (h : k < n) : (slice b lo n)[k]? = some (b (lo + k)) := by
  unfold slice
  rw [List.getElem?_map, List.getElem?_range' h, Nat.one_mul]
  rfl

theorem mem_slice {x : α} : x ∈ slice b lo n ↔ ∃ i, lo ≤ i ∧ i < lo + n ∧ b i = x := by
  unfold slice
  simp only [List.mem_map, List.mem_range'_1, and_assoc]

theorem slice_shift (h : ∀ k, k < n → b' (lo' + k) = b (lo + k)) :
    slice b' lo' n = slice b lo n := by
  refine List.ext_getElem? fun k => ?_
  by_cases hk : k < n
  · rw [slice_getElem? hk, slice_getElem? hk, h k hk]
  · rw [List.getElem?_eq_none (by rw [slice_length]; omega),
      List.getElem?_eq_none (by rw [slice_length]; omega)]

theorem slice_congr (h : ∀ i, lo ≤ i → i < lo + n → b' i = b i) : slice b' lo n = slice b lo n :=
  slice_shift fun k hk => h (lo + k) (Nat.le_add_right lo k) (by omega)

theorem pairwise_slice {R : α → α → Prop} : (slice b lo n).Pairwise R ↔
    ∀ i j, lo ≤ i → i < j → j < lo + n → R (b i) (b j) := by
  induction n generalizing lo with
  | zero =>
    refine iff_of_true List.Pairwise.nil fun i j hi hij hj => ?_
    omega
  | succ n ih =>
    rw [slice_cons, List.pairwise_cons, ih]
    constructor
    · intro h i j hi hij hj
      by_cases hlo : i = lo
      · rw [hlo]
        exact h.1 _ (mem_slice.mpr ⟨j, by omega, by omega, rfl⟩)
      · exact h.2 i j (by omega) hij (by omega)
    · intro h
      refine ⟨fun x hx => ?_, fun i j hi hij hj => h i j (by omega) hij (by omega)⟩
      obtain ⟨i, hi, hin, rfl⟩ := mem_slice.mp hx
      exact h lo i (Nat.le_refl lo) (by omega) (by omega)

/-! ## 1. Single cells -/

theorem slice_set_outside {i : Nat} (v : α) (h : i < lo ∨ lo + n ≤ i) :
    slice (set b i v) lo n = slice b lo n :=
  slice_congr fun j hlo hhi => set_of_ne b v (by omega)

theorem slice_set_first (v : α) :
    slice (set b lo v) lo (n + 1) = v :: slice b (lo + 1) n := by
  rw [slice_cons, set_self, slice_set_outside v (by omega)]

/-- A slice without one of its cells. -/
theorem slice_split {i : Nat} (hlo : lo ≤ i) (hhi : i < lo + n) :
    slice b lo n = slice b lo (i - lo) ++ b i :: slice b (i + 1) (lo + n - (i + 1)) := by
  have hn : n = (i - lo) + ((lo + n - (i + 1)) + 1) := by omega
  have hi : lo + (i - lo) = i := by omega
  conv_lhs => rw [hn, slice_add, hi, slice_cons]

/-! ## 2. Blocks -/

/-- `memcpy` between parts that do not overlap. -/
def copyBlock (b : Nat → α) (dst src n : Nat) : Nat → α :=
  fun j => if dst ≤ j ∧ j < dst + n then b (src + (j - dst)) else b j

/-- The list is stored from `lo` on. -/
def store [Inhabited α] (b : Nat → α) (lo : Nat) (l : List α) : Nat → α :=
  fun j => if lo ≤ j ∧ j < lo + l.length then l.getD (j - lo) default else b j

theorem slice_copyBlock (b : Nat → α) (dst src n : Nat) :
    slice (copyBlock b dst src n) dst n = slice b src n := by
  refine slice_shift fun k hk => ?_
  unfold copyBlock
  rw [if_pos (by omega), Nat.add_sub_cancel_left]

theorem slice_store [Inhabited α] (b : Nat → α) (lo : Nat) (l : List α) :
    slice (store b lo l) lo l.length = l := by
  refine List.ext_getElem? fun k => ?_
  by_cases hk : k < l.length
  · rw [slice_getElem? hk]
    unfold store
    rw [if_pos (by omega), Nat.add_sub_cancel_left, List.getD_eq_getElem?_getD,
      List.getElem?_eq_getElem hk]
    rfl
  · rw [List.getElem?_eq_none (by rw [slice_length]; omega), List.getElem?_eq_none (by omega)]

theorem store_outside [Inhabited α] (b : Nat → α) {l : List α} {j : Nat}
    (h : j < lo ∨ lo + l.length ≤ j) : store b lo l j = b j := if_neg (by omega)

theorem copyBlock_outside (b : Nat → α) {dst src j : Nat} (h : j < dst ∨ dst + n ≤ j) :
    copyBlock b dst src n j = b j := if_neg (by omega)

end Buffer
