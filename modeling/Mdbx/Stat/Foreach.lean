import Mathlib

/-!
# Stat.Foreach — the handles in use of a transaction

`TXN_FOREACH_DBI_FROM` goes over a bitmap of the slots, word by word and from one set bit to the
next.  It visits, in ascending order, exactly the slots whose bit is set and whose state is not 0.
-/

namespace Mdbx.Stat

/-- The slots of `MDBX_txn` for handles; the state of a slot means something only if its bit in the
sparse map is set. -/
structure Slots where
  nDbi : Nat
  dbiState : Nat → Nat
  dbiSparse : Nat → UInt32

/-- `CHAR_BIT * sizeof(txn->dbi_sparse[0])` -/
def bitmapChunk : Nat := 32

/-- `dbi_bitmap_ctz`, of a number of at most `fuel` bits. -/
def bitmapCtz : Nat → Nat → Nat
  | 0, _ => 0
  | fuel + 1, item => if item % 2 = 1 then 0 else bitmapCtz fuel (item / 2) + 1

/-- `dbi_foreach_step`: whether the slot is to be visited, and the new `bitmap_item` and `dbi` -/
def dbiForeachStep (s : Slots) (item dbi : Nat) : Bool × Nat × Nat :=
  if item &&& 1 ≠ 0 then (decide (s.dbiState dbi ≠ 0), item >>> 1, dbi)
  else if item ≠ 0 then
    let skip := bitmapCtz bitmapChunk item
    (false, item >>> skip, dbi + (skip - 1))
  else
    let dbi := (dbi - 1) ||| (bitmapChunk - 1)
    let item := (s.dbiSparse ((1 + dbi) / bitmapChunk)).toNat
    (false, item, if item = 0 then dbi + bitmapChunk else dbi)

/-- The loop of `TXN_FOREACH_DBI_FROM`, as the list of the slots visited. -/
def foreachLoop (s : Slots) : Nat → Nat → Nat → List Nat
  | 0, _, _ => []
  | fuel + 1, item, dbi =>
      if dbi < s.nDbi then
        let next := dbiForeachStep s item dbi
        if next.1 then next.2.2 :: foreachLoop s fuel next.2.1 (next.2.2 + 1)
        else foreachLoop s fuel next.2.1 (next.2.2 + 1)
      else []

/-- A visit of each slot takes two turns at most. -/
def foreachDbi (s : Slots) (start : Nat) : List Nat :=
  foreachLoop s (2 * s.nDbi + 2) ((s.dbiSparse 0).toNat >>> start) start

/-- In use: the bit is set, and the state is not 0. -/
def Live (s : Slots) (dbi : Nat) : Prop :=
  (s.dbiSparse (dbi / bitmapChunk)).toNat.testBit (dbi % bitmapChunk) = true ∧ s.dbiState dbi ≠ 0

instance (s : Slots) : DecidablePred (Live s) := fun dbi =>
  inferInstanceAs (Decidable ((s.dbiSparse (dbi / bitmapChunk)).toNat.testBit (dbi % bitmapChunk) =
    true ∧ s.dbiState dbi ≠ 0))

/-! ## 1. Bits -/

theorem bitmapCtz_spec {fuel item : Nat} (h0 : item ≠ 0) (hsize : item < 2 ^ fuel) :
    (item >>> bitmapCtz fuel item) % 2 = 1 ∧
      ∀ j, j < bitmapCtz fuel item → item.testBit j = false := by
  induction fuel generalizing item with
  | zero => omega
  | succ fuel ih =>
    unfold bitmapCtz
    by_cases hodd : item % 2 = 1
    · rw [if_pos hodd]
      exact ⟨hodd, fun j hj => absurd hj (Nat.not_lt_zero j)⟩
    · rw [if_neg hodd]
      have hhalf : item / 2 < 2 ^ fuel := by
        rw [pow_succ] at hsize
        omega
      obtain ⟨hlow, hnone⟩ := ih (show item / 2 ≠ 0 by omega) hhalf
      refine ⟨?_, fun j hj => ?_⟩
      · rw [Nat.add_comm, Nat.shiftRight_add]
        exact hlow
      · cases j with
        | zero =>
          rw [Nat.testBit_zero]
          exact decide_eq_false hodd
        | succ j =>
          rw [Nat.testBit_succ]
          exact hnone j (by omega)

theorem or_chunk (n : Nat) : n ||| (bitmapChunk - 1) = 32 * (n / 32) + 31 := by
  have hlow : ∀ m, m < 32 → m ||| 31 = 31 := by decide
  have hsplit : 32 * (n / 32) ||| n % 32 = n := by
    have h := Nat.two_pow_add_eq_or_of_lt (i := 5) (Nat.mod_lt n (by decide)) (n / 32)
    exact h.symm.trans (Nat.div_add_mod n 32)
  have hjoin := Nat.two_pow_add_eq_or_of_lt (i := 5) (b := 31) (by decide) (n / 32)
  show n ||| 31 = _
  rw [← hsplit, Nat.or_assoc, hlow _ (Nat.mod_lt n (by decide)), hsplit]
  exact hjoin.symm

/-! ## 2. The loop -/

section Loop

variable {s : Slots}

/-- What is left of the word of a slot, or nothing before the next word is taken. -/
def At (s : Slots) (item dbi : Nat) : Prop :=
  item = (s.dbiSparse (dbi / 32)).toNat >>> (dbi % 32) ∨ item = 0 ∧ dbi % 32 = 0

theorem word_lt (s : Slots) (k : Nat) : (s.dbiSparse k).toNat < 2 ^ 32 := (s.dbiSparse k).toNat_lt

-- slots that are passed over
theorem filter_skip {p : Nat → Bool} {i j n : Nat} (hij : i ≤ j)
    (hnone : ∀ k, i ≤ k → k < j → p k = false) :
    (List.range' i (n - i)).filter p = (List.range' j (n - j)).filter p := by
  obtain ⟨d, rfl⟩ := Nat.exists_eq_add_of_le hij
  induction d with
  | zero => rfl
  | succ d ih =>
    rw [ih (by omega) fun k hk hkd => hnone k hk (by omega)]
    by_cases hin : i + d < n
    · have hlen : n - (i + d) = n - (i + (d + 1)) + 1 := by omega
      rw [hlen, List.range'_succ, List.filter_cons, hnone (i + d) (by omega) (by omega)]
      rfl
    · have hz : n - (i + d) = 0 := by omega
      have hz' : n - (i + (d + 1)) = 0 := by omega
      rw [hz, hz']
      rfl

theorem live_testBit {dbi k : Nat} (hlo : 32 * (dbi / 32) ≤ k) (hhi : k < 32 * (dbi / 32) + 32) :
    (s.dbiSparse (k / bitmapChunk)).toNat.testBit (k % bitmapChunk) =
      (s.dbiSparse (dbi / 32)).toNat.testBit (k - 32 * (dbi / 32)) := by
  have hdiv : k / bitmapChunk = dbi / 32 := by
    unfold bitmapChunk
    omega
  have hmod : k % bitmapChunk = k - 32 * (dbi / 32) := by
    unfold bitmapChunk
    omega
  rw [hdiv, hmod]

-- the bits of the rest of a word
theorem rest_testBit {item dbi k : Nat}
    (hitem : item = (s.dbiSparse (dbi / 32)).toNat >>> (dbi % 32)) (hlo : dbi ≤ k) (hhi : k < 32 * (dbi / 32) + 32) :
    (s.dbiSparse (k / bitmapChunk)).toNat.testBit (k % bitmapChunk) = item.testBit (k - dbi) := by
  have hword : 32 * (dbi / 32) ≤ k := by omega
  rw [live_testBit hword hhi, hitem, Nat.testBit_shiftRight]
  congr 1
  omega

theorem not_live {k : Nat}
    (h : (s.dbiSparse (k / bitmapChunk)).toNat.testBit (k % bitmapChunk) = false) :
    decide (Live s k) = false := by
  apply decide_eq_false
  intro hlive
  have hbit := hlive.1
  rw [h] at hbit
  exact Bool.false_ne_true hbit

-- a word without bits
theorem not_live_word {base k : Nat} (hbase : base % 32 = 0)
    (hzero : (s.dbiSparse (base / 32)).toNat = 0) (hlo : base ≤ k) (hhi : k < base + 32) :
    decide (Live s k) = false := by
  apply not_live
  have hword : 32 * (base / 32) ≤ k := by omega
  rw [live_testBit hword (by omega), hzero, Nat.zero_testBit]

theorem foreachLoop_eq :
    ∀ {fuel item dbi : Nat}, At s item dbi → 1 ≤ dbi →
      2 * (s.nDbi - dbi) + (if item = 0 then 1 else 0) < fuel →
      foreachLoop s fuel item dbi =
        (List.range' dbi (s.nDbi - dbi)).filter fun k => decide (Live s k)
  | fuel + 1, item, dbi, hat, hone, hfuel => by
    unfold foreachLoop
    by_cases hin : dbi < s.nDbi
    · rw [if_pos hin]
      unfold dbiForeachStep
      rw [Nat.and_one_is_mod]
      by_cases hodd : item % 2 ≠ 0
      · -- the slot is in the map
        have hne : item ≠ 0 := by omega
        have hitem : item = (s.dbiSparse (dbi / 32)).toNat >>> (dbi % 32) :=
          hat.resolve_right fun hz => hne hz.1
        have hnext : At s (item >>> 1) (dbi + 1) := by
          rw [hitem, ← Nat.shiftRight_add]
          by_cases hend : dbi % 32 + 1 < 32
          · left
            have hdiv : (dbi + 1) / 32 = dbi / 32 := by omega
            have hmod : (dbi + 1) % 32 = dbi % 32 + 1 := by omega
            rw [hdiv, hmod]
          · right
            have hsum : dbi % 32 + 1 = 32 := by omega
            rw [hsum, Nat.shiftRight_eq_div_pow]
            exact ⟨Nat.div_eq_of_lt (word_lt s _), by omega⟩
        have hlen : s.nDbi - dbi = s.nDbi - (dbi + 1) + 1 := by omega
        have hrest : foreachLoop s fuel (item >>> 1) (dbi + 1) = _ :=
          foreachLoop_eq hnext (by omega) (by split_ifs <;> omega)
        have hbit : (s.dbiSparse (dbi / bitmapChunk)).toNat.testBit (dbi % bitmapChunk) = true := by
          rw [rest_testBit hitem (Nat.le_refl _) (by omega), Nat.sub_self, Nat.testBit_zero]
          exact decide_eq_true (by omega)
        have hlive : decide (Live s dbi) = decide (s.dbiState dbi ≠ 0) := by
          apply decide_eq_decide.2
          exact ⟨fun h => h.2, fun h => ⟨hbit, h⟩⟩
        rw [if_pos hodd, hlen, List.range'_succ, List.filter_cons, hlive]
        simp only [hrest]
      · rw [if_neg hodd]
        by_cases hne : item ≠ 0
        · -- on to the next bit of the word
          have hitem : item = (s.dbiSparse (dbi / 32)).toNat >>> (dbi % 32) :=
            hat.resolve_right fun hz => hne hz.1
          have hsize : item < 2 ^ bitmapChunk := by
            rw [hitem, Nat.shiftRight_eq_div_pow]
            exact Nat.lt_of_le_of_lt (Nat.div_le_self _ _) (word_lt s _)
          obtain ⟨hfound, hnone⟩ := bitmapCtz_spec hne hsize
          generalize bitmapCtz bitmapChunk item = skip at hfound hnone
          have hskip : 1 ≤ skip := by
            by_contra hz
            have hz' : skip = 0 := by omega
            rw [hz'] at hfound
            exact hodd (by
              have : item % 2 = 1 := hfound
              omega)
          have hword : dbi % 32 + skip < 32 := by
            by_contra hge
            rw [hitem, ← Nat.shiftRight_add, Nat.shiftRight_eq_div_pow, Nat.div_eq_of_lt] at hfound
            · omega
            · refine Nat.lt_of_lt_of_le (word_lt s _) ?_
              exact Nat.pow_le_pow_right (by decide) (by omega)
          have hnext : At s (item >>> skip) (dbi + skip) := by
            left
            have hdiv : (dbi + skip) / 32 = dbi / 32 := by omega
            have hmod : (dbi + skip) % 32 = dbi % 32 + skip := by omega
            rw [hdiv, hmod, hitem, Nat.shiftRight_add]
          have hmeasure : (if item >>> skip = 0 then 1 else 0) = 0 := by
            rw [if_neg]
            intro hz
            rw [hz] at hfound
            omega
          have hplace : dbi + (skip - 1) + 1 = dbi + skip := by omega
          rw [if_pos hne]
          simp only [Bool.false_eq_true, if_false]
          rw [hplace, foreachLoop_eq hnext (by omega) (by rw [hmeasure]; omega)]
          refine (filter_skip (by omega) fun k hlo hhi => not_live ?_).symm
          rw [rest_testBit hitem hlo (by omega)]
          exact hnone (k - dbi) (by omega)
        · -- on to the next word
          have hz : item = 0 := not_not.1 hne
          subst hz
          rw [if_neg hne, or_chunk]
          simp only [Bool.false_eq_true, if_false]
          have hbase : 32 * ((dbi - 1) / 32) + 31 + 1 = 32 * ((dbi - 1) / 32 + 1) := by omega
          have hdiv : (1 + (32 * ((dbi - 1) / 32) + 31)) / bitmapChunk = (dbi - 1) / 32 + 1 := by
            unfold bitmapChunk
            omega
          -- no bits up to the end of this word
          have hhead : ∀ k, dbi ≤ k → k < 32 * ((dbi - 1) / 32 + 1) →
              decide (Live s k) = false := by
            intro k hlo hhi
            have hitem : 0 = (s.dbiSparse (dbi / 32)).toNat >>> (dbi % 32) :=
              hat.resolve_right fun hc => by omega
            apply not_live
            rw [rest_testBit hitem hlo (by omega), Nat.zero_testBit]
          have hmod : 32 * ((dbi - 1) / 32 + 1) % 32 = 0 := Nat.mul_mod_right _ _
          have hquot : 32 * ((dbi - 1) / 32 + 1) / 32 = (dbi - 1) / 32 + 1 :=
            Nat.mul_div_cancel_left _ (by decide)
          rw [hdiv]
          by_cases hempty : (s.dbiSparse ((dbi - 1) / 32 + 1)).toNat = 0
          · have hplace : 32 * ((dbi - 1) / 32) + 31 + bitmapChunk + 1 =
                32 * ((dbi - 1) / 32 + 1) + 32 := by
              unfold bitmapChunk
              omega
            rw [if_pos hempty, hempty, hplace,
              foreachLoop_eq (Or.inr ⟨rfl, by omega⟩) (by omega) (by
                rw [if_pos rfl] at hfuel ⊢
                omega)]
            refine (filter_skip (by omega) fun k hlo hhi => ?_).symm
            by_cases hk : k < 32 * ((dbi - 1) / 32 + 1)
            · exact hhead k hlo hk
            · exact not_live_word hmod (by rw [hquot]; exact hempty) (by omega) hhi
          · have hnext : At s (s.dbiSparse ((dbi - 1) / 32 + 1)).toNat
                (32 * ((dbi - 1) / 32 + 1)) := by
              left
              rw [hquot, hmod]
              rfl
            rw [if_neg hempty, hbase, foreachLoop_eq hnext (by omega) (by
              rw [if_neg hempty]
              rw [if_pos rfl] at hfuel
              omega)]
            exact (filter_skip (by omega) hhead).symm
    · have hz : s.nDbi - dbi = 0 := by omega
      rw [if_neg hin, hz]
      rfl

/-- The slots in use from `start` on. -/
theorem foreachDbi_eq {start : Nat} (hlo : 1 ≤ start) (hhi : start < 32) :
    foreachDbi s start =
      (List.range' start (s.nDbi - start)).filter fun k => decide (Live s k) := by
  have hdiv : start / 32 = 0 := Nat.div_eq_of_lt hhi
  have hmod : start % 32 = start := Nat.mod_eq_of_lt hhi
  refine foreachLoop_eq (Or.inl ?_) hlo (by split_ifs <;> omega)
  rw [hdiv, hmod]

end Loop

end Mdbx.Stat
