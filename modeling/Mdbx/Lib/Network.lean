import Mathlib

/-!
# Lib.Network — networks of comparators

A comparator puts the smaller of two wires first.  A network commutes with monotone maps, so that
it puts the wires of any linear order in order when it does so for zeros and ones.
-/

namespace Mdbx.Network

variable {β γ : Type*} [LinearOrder β] [LinearOrder γ]

def compareSwap (f : Nat → β) (c : Nat × Nat) : Nat → β := fun k =>
  if k = c.1 then min (f c.1) (f c.2) else if k = c.2 then max (f c.1) (f c.2) else f k

def run (net : List (Nat × Nat)) (f : Nat → β) : Nat → β := net.foldl compareSwap f

/-- The first `n` wires are in order. -/
def Ordered (n : Nat) (f : Nat → β) : Prop := ∀ i j, i < j → j < n → f i ≤ f j

/-! ## 1. Zeros and ones -/

theorem compareSwap_comp {g : β → γ} (hg : Monotone g) (f : Nat → β) (c : Nat × Nat) :
    compareSwap (g ∘ f) c = g ∘ compareSwap f c := by
  funext k
  show (if k = c.1 then min (g (f c.1)) (g (f c.2))
    else if k = c.2 then max (g (f c.1)) (g (f c.2)) else g (f k)) = g (compareSwap f c k)
  unfold compareSwap
  rw [apply_ite g, apply_ite g, hg.map_min, hg.map_max]

theorem run_comp {g : β → γ} (hg : Monotone g) (net : List (Nat × Nat)) (f : Nat → β) :
    run net (g ∘ f) = g ∘ run net f := by
  unfold run
  induction net generalizing f with
  | nil => rfl
  | cons c net ih =>
    rw [List.foldl_cons, List.foldl_cons, compareSwap_comp hg, ih]

theorem run_ordered {n : Nat} {net : List (Nat × Nat)}
    (hbool : ∀ f : Nat → Bool, Ordered n (run net f)) (f : Nat → β) : Ordered n (run net f) := by
  intro i j hij hj
  by_contra hlt
  -- what is above the output `j`, where the output `i` is
  have hmono : Monotone fun b : β => decide (run net f j < b) := by
    intro a b hab
    by_cases ha : run net f j < a
    · dsimp only
      rw [decide_eq_true ha, decide_eq_true (lt_of_lt_of_le ha hab)]
    · dsimp only
      rw [decide_eq_false ha]
      exact Bool.false_le _
  have hcut := hbool ((fun b : β => decide (run net f j < b)) ∘ f) i j hij hj
  rw [run_comp hmono, Function.comp_apply, Function.comp_apply,
    decide_eq_true (not_le.mp hlt), decide_eq_false (lt_irrefl _)] at hcut
  exact absurd hcut (by decide)

/-! ## 2. A check by computation -/

/-- All inputs of zeros and ones at once: a wire is a column of bits, one for each input. -/
def compareSwapColumns (l : List Nat) (c : Nat × Nat) : List Nat :=
  (l.set c.1 (l.getD c.1 0 &&& l.getD c.2 0)).set c.2 (l.getD c.1 0 ||| l.getD c.2 0)

def orderedColumns : List Nat → Bool
  | a :: b :: l => a &&& b == a && orderedColumns (b :: l)
  | _ => true

/-- The columns of all inputs to `n` wires. -/
def columns : Nat → List Nat
  | 0 => []
  | n + 1 => ((2 ^ 2 ^ n - 1) <<< 2 ^ n) :: (columns n).map fun a => a ||| a <<< 2 ^ n

/-- A network on `n` wires that puts all bits in order. -/
def checked (n : Nat) (net : List (Nat × Nat)) : Bool :=
  net.all (fun c => c.1 < c.2 && c.2 < n) && orderedColumns (net.foldl compareSwapColumns (columns n))

/-- The wires of one input. -/
def row (l : List Nat) (t : Nat) (k : Nat) : Bool := (l.getD k 0).testBit t

theorem columns_length (n : Nat) : (columns n).length = n := by
  induction n with
  | zero => rfl
  | succ n ih => rw [columns, List.length_cons, List.length_map, ih]

theorem columns_lt {n a : Nat} (ha : a ∈ columns n) : a < 2 ^ 2 ^ n := by
  induction n generalizing a with
  | zero => exact absurd ha List.not_mem_nil
  | succ n ih =>
    have hpow : (2 : Nat) ^ 2 ^ (n + 1) = 2 ^ 2 ^ n * 2 ^ 2 ^ n := by
      rw [← Nat.pow_add, Nat.pow_succ, Nat.mul_two]
    have hpos : 0 < (2 : Nat) ^ 2 ^ n := Nat.two_pow_pos _
    have hshift : ∀ b, b < 2 ^ 2 ^ n → b <<< 2 ^ n < 2 ^ 2 ^ (n + 1) := by
      intro b hb
      rw [Nat.shiftLeft_eq, hpow]
      exact Nat.mul_lt_mul_of_pos_right hb hpos
    rw [columns, List.mem_cons, List.mem_map] at ha
    rcases ha with rfl | ⟨b, hb, rfl⟩
    · exact hshift _ (by omega)
    · have hlt := ih hb
      refine Nat.or_lt_two_pow (lt_of_lt_of_le hlt ?_) (hshift b hlt)
      rw [hpow]
      exact Nat.le_mul_of_pos_right _ hpos

/-- Every input has its row. -/
theorem exists_row (n : Nat) (f : Nat → Bool) : ∃ t, t < 2 ^ n ∧ ∀ k < n, row (columns n) t k = f k := by
  induction n generalizing f with
  | zero => exact ⟨0, by decide, fun k hk => absurd hk (Nat.not_lt_zero k)⟩
  | succ n ih =>
    obtain ⟨t, ht, hrow⟩ := ih fun k => f (k + 1)
    refine ⟨if f 0 then t + 2 ^ n else t, ?_, fun k hk => ?_⟩
    · rw [Nat.pow_succ]
      split_ifs <;> omega
    · unfold row columns
      cases k with
      | zero =>
        rw [List.getD_cons_zero, Nat.testBit_shiftLeft, Nat.testBit_two_pow_sub_one]
        cases f 0 with
        | true =>
          rw [if_pos rfl, Nat.add_sub_cancel, decide_eq_true ht, decide_eq_true (by omega)]
          rfl
        | false =>
          rw [if_neg Bool.false_ne_true, decide_eq_false (by omega)]
          rfl
      | succ k =>
        have hk' : k < (columns n).length := by
          rw [columns_length]
          omega
        have hlt := columns_lt (List.getElem_mem hk')
        have hbit := hrow k (by omega)
        unfold row at hbit
        rw [List.getD_eq_getElem _ _ hk'] at hbit
        rw [List.getD_cons_succ, List.getD_eq_getElem _ _ (by rw [List.length_map]; exact hk'),
          List.getElem_map, Nat.testBit_or, Nat.testBit_shiftLeft]
        cases f 0 with
        | true =>
          have hzero : ((columns n)[k]).testBit (t + 2 ^ n) = false :=
            Nat.testBit_lt_two_pow (lt_of_lt_of_le hlt (Nat.pow_le_pow_right (by decide) (by omega)))
          rw [if_pos rfl, hzero, Nat.add_sub_cancel, hbit, decide_eq_true (by omega)]
          rfl
        | false =>
          rw [if_neg Bool.false_ne_true, hbit, decide_eq_false (by omega), Bool.false_and,
            Bool.or_false]

theorem orderedColumns_row : ∀ {l : List Nat}, orderedColumns l = true → ∀ t,
    Ordered l.length (row l t)
  | [], _, _ => fun i j hij hj => absurd hj (Nat.not_lt_zero j)
  | [a], _, _ => fun i j hij hj => by
    have hj' : j < 1 := hj
    omega
  | a :: b :: l, h, t => by
    rw [orderedColumns, Bool.and_eq_true, beq_iff_eq] at h
    have hrest := orderedColumns_row h.2 t
    have hab : a.testBit t ≤ b.testBit t := by
      rw [← h.1, Nat.testBit_and]
      exact Bool.and_le_right _ _
    intro i j hij hj
    cases j with
    | zero => omega
    | succ j =>
      have hj' : j < (b :: l).length := Nat.lt_of_succ_lt_succ hj
      cases i with
      | zero =>
        cases j with
        | zero => exact hab
        | succ j => exact le_trans hab (hrest 0 (j + 1) (by omega) hj')
      | succ i => exact hrest i j (by omega) hj'

/-- What a network does with the columns it does with each row. -/
theorem run_row {n : Nat} {net : List (Nat × Nat)} (hin : ∀ c ∈ net, c.1 < c.2 ∧ c.2 < n) {t : Nat}
    {f : Nat → Bool} {l : List Nat} (hlen : l.length = n) (hf : ∀ k < n, f k = row l t k) :
    (net.foldl compareSwapColumns l).length = n ∧
      ∀ k < n, run net f k = row (net.foldl compareSwapColumns l) t k := by
  unfold run
  induction net generalizing f l with
  | nil => exact ⟨hlen, hf⟩
  | cons c net ih =>
    obtain ⟨hlt, hn⟩ := hin c List.mem_cons_self
    rw [List.foldl_cons, List.foldl_cons]
    refine ih (fun c hc => hin c (List.mem_cons_of_mem _ hc)) ?_ fun k hk => ?_
    · unfold compareSwapColumns
      rw [List.length_set, List.length_set, hlen]
    · unfold compareSwap compareSwapColumns
      rw [hf c.1 (by omega), hf c.2 hn, hf k hk]
      unfold row
      simp only [List.getD_eq_getElem?_getD, List.getElem?_set, List.length_set, hlen]
      by_cases h1 : k = c.1
      · subst h1
        rw [if_pos rfl, if_neg (by omega), if_pos rfl, if_pos (by omega), Option.getD_some,
          Nat.testBit_and]
        rfl
      · rw [if_neg h1]
        by_cases h2 : k = c.2
        · subst h2
          rw [if_pos rfl, if_pos rfl, if_pos (by omega), Option.getD_some, Nat.testBit_or]
          rfl
        · rw [if_neg h2, if_neg (Ne.symm h2), if_neg (Ne.symm h1)]

/-- A checked network puts the wires of any linear order in order. -/
theorem run_of_checked {n : Nat} {net : List (Nat × Nat)} (h : checked n net = true)
    (f : Nat → β) : Ordered n (run net f) := by
  unfold checked at h
  rw [Bool.and_eq_true, List.all_eq_true] at h
  have hin : ∀ c ∈ net, c.1 < c.2 ∧ c.2 < n := by
    intro c hc
    have hboth := h.1 c hc
    rw [Bool.and_eq_true, decide_eq_true_eq, decide_eq_true_eq] at hboth
    exact hboth
  refine run_ordered (fun g => ?_) f
  obtain ⟨t, -, hrow⟩ := exists_row n g
  obtain ⟨hlen, hrun⟩ := run_row hin (columns_length n) fun k hk => (hrow k hk).symm
  have hordered := orderedColumns_row h.2 t
  rw [hlen] at hordered
  intro i j hij hj
  rw [hrun i (by omega), hrun j hj]
  exact hordered i j hij hj

end Mdbx.Network
