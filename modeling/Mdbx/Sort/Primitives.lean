import Mdbx.Sort.Quick
import Mdbx.Sort.Radix
import Mdbx.Search

/-!
# Sort.Primitives — what the lists of pages rest on

The quick sort puts every array in order, within its stack; the radix sort is the stable sort for
as many items as its counters can number; and a binary search finds the first item that is not
before the one that is looked for.
-/

namespace Mdbx.Sort

open Buffer StableSort

variable {α β : Type} [LinearOrder β] {key : α → β} {x y : Nat → α} {lo n : Nat}

/-- The items from `lo` on are in order and the same as before, and no other has changed. -/
structure Sorts (key : α → β) (x y : Nat → α) (lo n : Nat) : Prop where
  sorted : (slice y lo n).Pairwise fun u v => key u ≤ key v
  perm : (slice y lo n).Perm (slice x lo n)
  outside : ∀ i, i < lo ∨ lo + n ≤ i → y i = x i

theorem sort_Sorts (c : Config) (key : α → β) (x : Nat → α) (hlo : 0 < lo)
    (hn : n < 2 ^ c.sizeBits) :
    ∃ y, sort c (byKey key) x lo (lo + n) = some y ∧ Sorts key x y lo n := by
  have hbits : lo + n - lo < 2 ^ c.sizeBits := by
    rw [Nat.add_sub_cancel_left]
    exact hn
  obtain ⟨y, hy, hmoved, hsorted⟩ := sort_sorts key c x hlo (Nat.le_add_right lo n)
    hbits
  exact ⟨y, hy, pairwise_slice.mpr hsorted, hmoved.perm, fun i hi => hmoved.outside hi⟩

theorem radixsort_Sorts (key : α → Nat) (x tmp : Nat → α) (hn : 0 < n) (hsize : n ≤ 2 ^ 32)
    (hkeys : ∀ v, key v < 2 ^ 64) :
    ∃ y, radixsort true key x tmp n = some (true, y) ∧ Sorts key x y 0 n ∧
      StableSorted key (slice x 0 n) (slice y 0 n) := by
  obtain ⟨y, hy, hstable, hbehind⟩ := radixsort_sorts x tmp hn hsize hkeys
  exact ⟨y, hy, ⟨hstable.sorted, hstable.perm, fun i hi => hbehind i (by omega)⟩, hstable⟩

-- where no two keys are the same, any sort is the stable one
theorem Sorts.stable {key : α → Nat} (h : Sorts key x y lo n)
    (hdistinct : (slice x lo n).Pairwise fun u v => key u ≠ key v) :
    StableSorted key (slice x lo n) (slice y lo n) :=
  StableSorted.of_nodup h.perm h.sorted hdistinct

theorem search_sorted (haveCmov : Bool) (item : β)
    (h : (slice x 0 n).Pairwise fun u v => key u ≤ key v) :
    LowerBound (fun i => decide (key (x i) < item)) n
      (search haveCmov (fun i => decide (key (x i) < item)) n) := by
  refine search_lowerBound haveCmov _ n fun i j hij hj hbefore => ?_
  have hle := pairwise_slice.mp h i j (Nat.zero_le i) hij (by omega)
  exact decide_eq_true (lt_of_le_of_lt hle (of_decide_eq_true hbefore))

/-- The three primitives, for every array. -/
theorem sort_search_correct :
    (∀ (c : Config) (key : α → β) (x : Nat → α) (lo n : Nat), 0 < lo → n < 2 ^ c.sizeBits →
      ∃ y, sort c (byKey key) x lo (lo + n) = some y ∧ Sorts key x y lo n) ∧
    (∀ (key : α → Nat) (x tmp : Nat → α) (n : Nat), 0 < n → n ≤ 2 ^ 32 → (∀ v, key v < 2 ^ 64) →
      ∃ y, radixsort true key x tmp n = some (true, y) ∧ Sorts key x y 0 n ∧
        StableSorted key (slice x 0 n) (slice y 0 n)) ∧
    (∀ (key : α → Nat) (x tmp : Nat → α) (n : Nat),
      radixsort false key x tmp n = some (false, x)) ∧
    (∀ (key : α → Nat) (x y : Nat → α) (lo n : Nat), Sorts key x y lo n →
      ((slice x lo n).Pairwise fun u v => key u ≠ key v) →
      StableSorted key (slice x lo n) (slice y lo n)) ∧
    (∀ (haveCmov : Bool) (key : α → β) (x : Nat → α) (n : Nat) (item : β),
      ((slice x 0 n).Pairwise fun u v => key u ≤ key v) →
      LowerBound (fun i => decide (key (x i) < item)) n
        (search haveCmov (fun i => decide (key (x i) < item)) n)) :=
  ⟨fun c key x _ _ hlo hn => sort_Sorts c key x hlo hn,
    fun key x tmp _ hn hsize hkeys => radixsort_Sorts key x tmp hn hsize hkeys,
    fun _ _ _ _ => rfl, fun _ _ _ _ _ h hdistinct => h.stable hdistinct,
    fun haveCmov _ _ _ item h => search_sorted haveCmov item h⟩

/-- The radix sort runs off an array without items, and leaves behind what was in the buffer beyond
the cells that a counter can number. -/
theorem radixsort_fails : radixsort true id (fun _ => 0) (fun _ => 1) 0 = none ∧
    ∃ y, radixsort true id (fun _ => 0) (fun _ => 1) (2 ^ 32 + 1) =
      some (true, y) ∧ y (2 ^ 32) = 1 := by
  refine ⟨rfl, radixsort_overflow (fun _ => rfl) ?_⟩
  exact Nat.lt_succ_self _

end Mdbx.Sort
