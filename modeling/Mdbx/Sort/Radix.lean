import Mdbx.Sort.Model
import Mdbx.Lib.Slices
import Mdbx.Lib.StableSort
import Mathlib.Data.LawfulXor.Basic

/-!
# Sort.Radix — the radix sort is the stable sort

A pass counts the items of each digit, turns the counts into the first cells of the buckets, and
puts every item into the next free cell of its bucket.  A round of two passes sorts by 16 more bits
of the keys, and it is the last one when the bits above are the same for all items.
-/

namespace Mdbx.Sort

open Buffer StableSort

variable {α : Type} {key : α → Nat} {digit : α → Nat} {x y tmp src dst : Nat → α} {n shift : Nat}

/-! ## 1. Digits -/

/-- The two digits of a round. -/
def digitA (key : α → Nat) (shift : Nat) (v : α) : Nat := (key v >>> shift) &&& 255

def digitB (key : α → Nat) (shift : Nat) (v : α) : Nat := (key v >>> shift >>> 8) &&& 255

/-- How many items have a digit. -/
def occurrences (digit : α → Nat) (l : List α) (d : Nat) : Nat := (l.filter (digit · = d)).length

theorem and_255 (k : Nat) : k &&& 255 = k % 256 := Nat.and_two_pow_sub_one_eq_mod k 8

theorem digitA_eq (v : α) : digitA key shift v = key v / 2 ^ shift % 256 := by
  unfold digitA
  rw [and_255, Nat.shiftRight_eq_div_pow]

theorem digitB_eq (v : α) : digitB key shift v = key v / 2 ^ (shift + 8) % 256 := by
  unfold digitB
  rw [and_255, Nat.shiftRight_eq_div_pow, Nat.shiftRight_eq_div_pow, Nat.div_div_eq_div_mul,
    ← Nat.pow_add]

theorem occurrences_cons (digit : α → Nat) (v : α) (l : List α) (d : Nat) :
    occurrences digit (v :: l) d = (if digit v = d then 1 else 0) + occurrences digit l d := by
  unfold occurrences
  by_cases hd : digit v = d
  · rw [if_pos hd, List.filter_cons, if_pos (decide_eq_true hd), List.length_cons, Nat.add_comm]
  · rw [if_neg hd, List.filter_cons, if_neg (by rw [decide_eq_true_eq]; exact hd), Nat.zero_add]

theorem occurrences_append (digit : α → Nat) (l l' : List α) (d : Nat) :
    occurrences digit (l ++ l') d = occurrences digit l d + occurrences digit l' d := by
  unfold occurrences
  rw [List.filter_append, List.length_append]

theorem occurrences_perm {l l' : List α} (h : l.Perm l') (d : Nat) :
    occurrences digit l d = occurrences digit l' d :=
  (h.filter (digit · = d)).length_eq

/-! ## 2. Counters -/

theorem incr_apply (counter : Nat → Nat) (d e : Nat) :
    incr counter d e % 2 ^ 32 = ((if d = e then 1 else 0) + counter e) % 2 ^ 32 := by
  unfold incr
  by_cases he : d = e
  · rw [he, set_self, if_pos rfl, Nat.mod_mod, Nat.add_comm]
  · rw [set_of_ne _ _ (Ne.symm he), if_neg he, Nat.zero_add]

theorem incr_lt {counter : Nat → Nat} {e : Nat} (h : counter e < 2 ^ 32) (d : Nat) :
    incr counter d e < 2 ^ 32 := by
  unfold incr
  by_cases he : e = d
  · rw [he, set_self]
    exact Nat.mod_lt _ (by decide)
  · rw [set_of_ne _ _ he]
    exact h

-- bits that differ
theorem xor_lt_two_pow_iff (a b m : Nat) : a ^^^ b < 2 ^ m ↔ b / 2 ^ m = a / 2 ^ m := by
  have hpos : 0 < 2 ^ m := Nat.two_pow_pos m
  rw [← Nat.div_eq_zero_iff_lt hpos, Nat.xor_div_two_pow, xor_eq_zero_iff]
  exact eq_comm

theorem or_lt_two_pow_iff (a b m : Nat) : a ||| b < 2 ^ m ↔ a < 2 ^ m ∧ b < 2 ^ m :=
  ⟨fun h => ⟨lt_of_le_of_lt Nat.left_le_or h, lt_of_le_of_lt Nat.right_le_or h⟩,
    fun h => Nat.or_lt_two_pow h.1 h.2⟩

/-- What the first loop finds out about the items. -/
structure Counted (key : α → Nat) (shift : Nat) (l : List α) (s s' : Counters) : Prop where
  a : ∀ d, s'.a d % 2 ^ 32 = (occurrences (digitA key shift) l d + s.a d) % 2 ^ 32
  b : ∀ d, s'.b d % 2 ^ 32 = (occurrences (digitB key shift) l d + s.b d) % 2 ^ 32
  mask : ∀ m, s'.keyDiffMask < 2 ^ m ↔
    s.keyDiffMask < 2 ^ m ∧ ∀ v ∈ l, (key v >>> shift) / 2 ^ m = s.prevKey / 2 ^ m

theorem Counted.cons {v : α} {l : List α} {s s' : Counters}
    (h : Counted key shift l (s.count (key v >>> shift)) s') : Counted key shift (v :: l) s s' := by
  refine ⟨fun d => ?_, fun d => ?_, fun m => ?_⟩
  · have hincr := incr_apply s.a (digitA key shift v) d
    have hrest : s'.a d % 2 ^ 32 = (occurrences (digitA key shift) l d +
      incr s.a (digitA key shift v) d) % 2 ^ 32 := h.a d
    rw [hrest, occurrences_cons]
    omega
  · have hincr := incr_apply s.b (digitB key shift v) d
    have hrest : s'.b d % 2 ^ 32 = (occurrences (digitB key shift) l d +
      incr s.b (digitB key shift v) d) % 2 ^ 32 := h.b d
    rw [hrest, occurrences_cons]
    omega
  · rw [h.mask]
    show s.keyDiffMask ||| (s.prevKey ^^^ key v >>> shift) < 2 ^ m ∧
      (∀ u ∈ l, (key u >>> shift) / 2 ^ m = (key v >>> shift) / 2 ^ m) ↔ _
    rw [or_lt_two_pow_iff, xor_lt_two_pow_iff, and_assoc, List.forall_mem_cons]
    refine and_congr_right fun _ => and_congr_right fun hv => ?_
    rw [hv]

variable (key x shift) in
theorem countLoop_spec {left : Nat} (hleft : 0 < left) (r : Nat) (s : Counters) :
    ∃ s', countLoop key x shift left r s = some s' ∧ Counted key shift (slice x r left) s s' := by
  induction left generalizing r s with
  | zero => omega
  | succ left ih =>
    unfold countLoop
    rw [slice_cons]
    by_cases hlast : left = 0
    · rw [if_pos hlast, hlast]
      have hnone : Counted key shift (slice x (r + 1) 0) (s.count (key (x r) >>> shift))
          (s.count (key (x r) >>> shift)) := by
        refine ⟨fun d => ?_, fun d => ?_, fun m => ?_⟩
        · exact congrArg (· % 2 ^ 32) (Nat.zero_add _).symm
        · exact congrArg (· % 2 ^ 32) (Nat.zero_add _).symm
        · exact ⟨fun hm => ⟨hm, fun v hv => absurd hv List.not_mem_nil⟩, And.left⟩
      exact ⟨_, rfl, hnone.cons⟩
    · rw [if_neg hlast]
      obtain ⟨s', hs', hcounted⟩ := ih (by omega) (r + 1) (s.count (key (x r) >>> shift))
      exact ⟨s', hs', hcounted.cons⟩

/-- Each counter becomes the length of the buckets before it. -/
theorem sumLoop_spec {l : List α} {k i : Nat} {counter : Nat → Nat}
    (hcounter : ∀ d, i ≤ d → counter d % 2 ^ 32 = occurrences digit l d % 2 ^ 32) (d : Nat) :
    sumLoop k i ((buckets digit l i).length % 2 ^ 32) counter d =
      if i ≤ d ∧ d < i + k then (buckets digit l d).length % 2 ^ 32 else counter d := by
  induction k generalizing i counter with
  | zero => exact (if_neg (by omega)).symm
  | succ k ih =>
    have hnext : ((buckets digit l i).length % 2 ^ 32 + counter i) % 2 ^ 32 =
        (buckets digit l (i + 1)).length % 2 ^ 32 := by
      have hi := hcounter i (le_refl i)
      rw [buckets_succ, List.length_append]
      unfold occurrences at hi
      omega
    unfold sumLoop
    rw [hnext, ih fun d hd => ?_]
    · by_cases hd : d = i
      · rw [hd, if_neg (by omega), set_self, if_pos (by omega)]
      · rw [set_of_ne _ _ hd]
        by_cases hin : i ≤ d ∧ d < i + (k + 1)
        · rw [if_pos (by omega), if_pos hin]
        · rw [if_neg (by omega), if_neg hin]
    · rw [set_of_ne _ _ (by omega)]
      exact hcounter d (by omega)

/-! ## 3. Passes -/

section Pass

variable {whole done : List α} {v : α} {counter : Nat → Nat}

theorem length_buckets (hdigit : ∀ v, digit v < n) (l : List α) :
    (buckets digit l n).length = l.length := by
  have hsort := (StableSorted.of_constant (fun _ => 0) l fun _ _ _ _ => rfl).buckets
    (fun _ => Nat.zero_lt_one) hdigit
  exact hsort.perm.length_eq

theorem length_buckets_perm {l l' : List α} (h : l.Perm l') (d : Nat) :
    (buckets digit l d).length = (buckets digit l' d).length := by
  induction d with
  | zero => rfl
  | succ d ih =>
    rw [buckets_succ, buckets_succ, List.length_append, List.length_append, ih]
    exact congrArg _ (occurrences_perm h d)

/-- The items that are done are in their buckets, and nothing behind them is touched. -/
structure Scattered (digit : α → Nat) (whole done : List α) (counter : Nat → Nat)
    (dst₀ dst : Nat → α) : Prop where
  next : ∀ d, d < 256 → counter d =
    ((buckets digit whole d).length + occurrences digit done d) % 2 ^ 32
  bucket : ∀ d, d < 256 → slice dst (buckets digit whole d).length (occurrences digit done d) =
    done.filter (digit · = d)
  behind : ∀ j, whole.length ≤ j → dst j = dst₀ j

theorem Scattered.step {dst₀ : Nat → α} {rest : List α}
    (h : Scattered digit whole done counter dst₀ dst) (hdigit : ∀ v, digit v < 256)
    (hwhole : whole = done ++ v :: rest) (hsize : whole.length ≤ 2 ^ 32) :
    Scattered digit whole (done ++ [v]) (incr counter (digit v)) dst₀
      (set dst (counter (digit v)) v) := by
  have hnext := h.next (digit v) (hdigit v)
  have hone : ∀ d, occurrences digit (done ++ [v]) d =
      occurrences digit done d + if digit v = d then 1 else 0 := by
    intro d
    rw [occurrences_append, occurrences_cons]
    rfl
  have hroom : ∀ d, occurrences digit (done ++ [v]) d ≤ occurrences digit whole d := by
    intro d
    rw [hwhole, occurrences_append, occurrences_append, occurrences_cons, occurrences_cons]
    exact Nat.add_le_add_left (Nat.add_le_add_left (Nat.zero_le _) _) _
  have hstart : ∀ d, (buckets digit whole (d + 1)).length =
      (buckets digit whole d).length + occurrences digit whole d := by
    intro d
    rw [buckets_succ, List.length_append]
    rfl
  have hlast := length_buckets_le digit whole (Nat.succ_le_of_lt (hdigit v))
  rw [length_buckets hdigit, hstart] at hlast
  have hown := hroom (digit v)
  rw [hone, if_pos rfl] at hown
  rw [Nat.mod_eq_of_lt (by omega)] at hnext
  refine ⟨fun d hd => ?_, fun d hd => ?_, fun j hj => ?_⟩
  · have hd' := h.next d hd
    have hlt : counter d < 2 ^ 32 := by
      rw [hd']
      exact Nat.mod_lt _ (by decide)
    rw [← Nat.mod_eq_of_lt (incr_lt hlt (digit v)), incr_apply, hone]
    omega
  · rw [hone]
    by_cases hdv : digit v = d
    · rw [if_pos hdv, slice_add, List.filter_append, ← h.bucket d hd, ← hdv, ← hnext,
        slice_set_outside _ (by omega), slice_set_first, List.filter_cons,
        if_pos (decide_eq_true rfl)]
      rfl
    · rw [if_neg hdv, Nat.add_zero, List.filter_append, List.filter_cons,
        if_neg (by rw [decide_eq_true_eq]; exact hdv), List.filter_nil, List.append_nil,
        ← h.bucket d hd]
      -- the buckets are apart
      refine slice_set_outside _ ?_
      have hother := hroom d
      rw [hone, if_neg hdv] at hother
      by_cases hlt : d < digit v
      · have hle := length_buckets_le digit whole (Nat.succ_le_of_lt hlt)
        rw [hstart] at hle
        omega
      · have hle := length_buckets_le digit whole
          (show digit v + 1 ≤ d by omega)
        rw [hstart] at hle
        omega
  · rw [set_of_ne _ _ (by omega)]
    exact h.behind j hj

theorem scatterLoop_scattered {left r : Nat} {dst₀ : Nat → α} (hdigit : ∀ v, digit v < 256)
    (hsize : whole.length ≤ 2 ^ 32) (hleft : 0 < left) (hwhole : whole = done ++ slice src r left)
    (h : Scattered digit whole done counter dst₀ dst) :
    ∃ y counter', scatterLoop digit src left r counter dst = some y ∧
      Scattered digit whole whole counter' dst₀ y := by
  induction left generalizing r done counter dst with
  | zero => omega
  | succ left ih =>
    rw [slice_cons] at hwhole
    have hstep := h.step hdigit hwhole hsize
    unfold scatterLoop
    by_cases hlast : left = 0
    · rw [if_pos hlast]
      have hdone : done ++ [src r] = whole := by
        rw [hwhole, hlast]
        rfl
      rw [hdone] at hstep
      exact ⟨_, _, rfl, hstep⟩
    · rw [if_neg hlast]
      refine ih (by omega) ?_ hstep
      rw [hwhole, List.append_assoc]
      rfl

/-- Every item in its bucket is the list of the buckets. -/
theorem Scattered.slice_eq {dst₀ : Nat → α} (h : Scattered digit whole whole counter dst₀ dst)
    (hdigit : ∀ v, digit v < 256) : slice dst 0 whole.length = buckets digit whole 256 := by
  have hfirst : ∀ d, d ≤ 256 → slice dst 0 (buckets digit whole d).length = buckets digit whole d := by
    intro d hd
    induction d with
    | zero => rfl
    | succ d ih =>
      have hbucket := h.bucket d (by omega)
      rw [buckets_succ, List.length_append, slice_add, ih (by omega), Nat.zero_add]
      exact congrArg _ hbucket
  have hall := hfirst 256 (le_refl _)
  rw [length_buckets hdigit] at hall
  exact hall

variable (src dst) in
/-- A pass, with counters that were made for the same items in some order. -/
theorem pass_spec {l : List α} (hdigit : ∀ v, digit v < 256) (hn : 0 < n) (hsize : n ≤ 2 ^ 32)
    (hl : l.Perm (slice src 0 n))
    (hcounter : ∀ d, counter d % 2 ^ 32 = occurrences digit l d % 2 ^ 32) :
    ∃ y, scatterLoop digit src n 0 (sumLoop 256 0 0 counter) dst = some y ∧
      slice y 0 n = buckets digit (slice src 0 n) 256 ∧ ∀ j, n ≤ j → y j = dst j := by
  have hlength : (slice src 0 n).length = n := slice_length src 0 n
  have hscattered : Scattered digit (slice src 0 n) [] (sumLoop 256 0 0 counter) dst dst := by
    refine ⟨fun d hd => ?_, fun d _ => rfl, fun j _ => rfl⟩
    have hsum := sumLoop_spec (k := 256) (i := 0) (fun d _ => hcounter d) d
    rw [buckets_zero, List.length_nil, Nat.zero_mod, if_pos (by omega), length_buckets_perm hl]
      at hsum
    exact hsum
  have hsize' : (slice src 0 n).length ≤ 2 ^ 32 := by
    rw [hlength]
    exact hsize
  obtain ⟨y, counter', hy, hdone⟩ := scatterLoop_scattered hdigit hsize' hn rfl hscattered
  have hslice := hdone.slice_eq hdigit
  have hbehind := hdone.behind
  rw [hlength] at hslice hbehind
  exact ⟨y, hy, hslice, hbehind⟩

end Pass

/-! ## 4. Rounds -/

section Rounds

variable {l₀ l : List α} {m : Nat}

/-- A pass sorts by eight more bits. -/
theorem StableSorted.pass (h : StableSorted (fun v => key v % 2 ^ m) l₀ l)
    (hdigit : ∀ v, digit v = key v / 2 ^ m % 256) :
    StableSorted (fun v => key v % 2 ^ (m + 8)) l₀ (buckets digit l 256) := by
  have hlt : ∀ v, digit v < 256 := fun v => by
    rw [hdigit v]
    exact Nat.mod_lt _ (by decide)
  have hsort := h.buckets (fun v => Nat.mod_lt _ (Nat.two_pow_pos m)) hlt
  have hkey : (fun v => digit v * 2 ^ m + key v % 2 ^ m) = fun v => key v % 2 ^ (m + 8) := by
    funext v
    rw [hdigit v, Nat.pow_add, Nat.mod_mul, Nat.add_comm, Nat.mul_comm]
  rw [hkey] at hsort
  exact hsort

-- bits above those that differ
theorem Counted.high {s s' : Counters} (h : Counted key shift l s s') (hl : l.Perm l₀)
    (hmask : s'.keyDiffMask < 2 ^ m) :
    ∀ u ∈ l₀, ∀ v ∈ l₀, key u / 2 ^ (shift + m) = key v / 2 ^ (shift + m) := by
  have hall := ((h.mask m).mp hmask).2
  intro u hu v hv
  have hu' := hall u (hl.mem_iff.mpr hu)
  rw [← hall v (hl.mem_iff.mpr hv)] at hu'
  rw [Nat.shiftRight_eq_div_pow, Nat.shiftRight_eq_div_pow, Nat.div_div_eq_div_mul,
    Nat.div_div_eq_div_mul, ← Nat.pow_add] at hu'
  exact hu'

theorem slice_copyBack : slice (copyBack x tmp n) 0 n = slice tmp 0 n :=
  slice_congr fun i _ hi => if_pos (by omega)

theorem radixLoop_succ (fuel : Nat) : radixLoop key n (fuel + 1) shift x tmp = (do
    let s ← countLoop key x shift n 0 ⟨fun _ => 0, fun _ => 0, 0, key (x 0) >>> shift⟩
    let tmp ← scatterLoop (digitA key shift) x n 0 (sumLoop 256 0 0 s.a) tmp
    if s.keyDiffMask < 256 then pure (copyBack x tmp n)
    else
      let x ← scatterLoop (digitB key shift) tmp n 0 (sumLoop 256 0 0 s.b) x
      if s.keyDiffMask >>> 16 ≠ 0 then radixLoop key n fuel (shift + 16) x tmp else pure x) := rfl

/-- With keys that have no more bits than the rounds that are left can sort by. -/
theorem radixLoop_spec (tmp : Nat → α) (hn : 0 < n) (hsize : n ≤ 2 ^ 32) {fuel : Nat}
    (hsorted : StableSorted (fun v => key v % 2 ^ shift) l₀ (slice x 0 n))
    (hkeys : ∀ v ∈ l₀, key v < 2 ^ (shift + 16 * fuel)) (hfuel : 0 < fuel) :
    ∃ y, radixLoop key n fuel shift x tmp = some y ∧ StableSorted key l₀ (slice y 0 n) ∧
      ∀ j, n ≤ j → y j = x j := by
  induction fuel generalizing shift x tmp with
  | zero => omega
  | succ fuel ih =>
    obtain ⟨s, hs, hcounted⟩ := countLoop_spec key x shift hn 0
      ⟨fun _ => 0, fun _ => 0, 0, key (x 0) >>> shift⟩
    have hdigitA : ∀ v, digitA key shift v < 256 := fun v => by
      rw [digitA_eq]
      exact Nat.mod_lt _ (by decide)
    have hdigitB : ∀ v, digitB key shift v < 256 := fun v => by
      rw [digitB_eq]
      exact Nat.mod_lt _ (by decide)
    obtain ⟨z, hz, hzslice, -⟩ := pass_spec x tmp hdigitA hn hsize
      (List.Perm.refl _) hcounted.a
    have hfirst := StableSorted.pass hsorted digitA_eq
    rw [← hzslice] at hfirst
    rw [radixLoop_succ, hs, Option.bind_eq_bind, Option.bind_some, hz, Option.bind_eq_bind,
      Option.bind_some]
    by_cases hlow : s.keyDiffMask < 256
    · rw [if_pos hlow]
      refine ⟨_, rfl, ?_, fun j hj => if_neg (by omega)⟩
      rw [slice_copyBack]
      exact hfirst.of_mod (hcounted.high (m := 8) hsorted.perm hlow)
    · have hperm : (slice x 0 n).Perm (slice z 0 n) := hsorted.perm.trans hfirst.perm.symm
      obtain ⟨y, hy, hyslice, hybehind⟩ := pass_spec z x hdigitB hn hsize
        hperm hcounted.b
      have hsecond := StableSorted.pass hfirst digitB_eq
      rw [← hyslice, Nat.add_assoc] at hsecond
      rw [if_neg hlow, hy, Option.bind_some]
      by_cases hmore : s.keyDiffMask >>> 16 ≠ 0
      · have hrounds : 0 < fuel := by
          by_contra hzero
          have hzero' : fuel = 0 := by omega
          subst hzero'
          -- there are no more bits
          have hmask : s.keyDiffMask < 2 ^ 16 := by
            refine (hcounted.mask 16).mpr ⟨Nat.two_pow_pos 16, fun v hv => ?_⟩
            have hnone : ∀ v ∈ slice x 0 n, key v >>> shift / 2 ^ 16 = 0 := by
              intro v hv
              rw [Nat.shiftRight_eq_div_pow, Nat.div_div_eq_div_mul, ← Nat.pow_add]
              exact Nat.div_eq_of_lt (hkeys v (hsorted.perm.mem_iff.mp hv))
            rw [hnone v hv]
            exact (hnone (x 0) (mem_slice.mpr ⟨0, by omega, by omega, rfl⟩)).symm
          rw [Nat.shiftRight_eq_div_pow] at hmore
          exact hmore (Nat.div_eq_of_lt hmask)
        rw [if_pos hmore]
        obtain ⟨w, hw, hwsorted, hwbehind⟩ := ih z hsecond (fun v hv => by
          have hlt := hkeys v hv
          rw [show shift + 16 * (fuel + 1) = shift + 16 + 16 * fuel by omega] at hlt
          exact hlt) hrounds
        exact ⟨w, hw, hwsorted, fun j hj => (hwbehind j hj).trans (hybehind j hj)⟩
      · rw [if_neg hmore]
        have hmask : s.keyDiffMask < 2 ^ 16 := by
          rw [not_ne_iff, Nat.shiftRight_eq_div_pow] at hmore
          exact (Nat.div_eq_zero_iff_lt (Nat.two_pow_pos 16)).mp hmore
        exact ⟨y, rfl, hsecond.of_mod (hcounted.high hsorted.perm hmask), hybehind⟩

variable (x tmp) in
/-- Every array of at least one item is put in order, and the items of one key stay as they are. -/
theorem radixsort_sorts (hn : 0 < n) (hsize : n ≤ 2 ^ 32) (hkeys : ∀ v, key v < 2 ^ 64) :
    ∃ y, radixsort true key x tmp n = some (true, y) ∧
      StableSorted key (slice x 0 n) (slice y 0 n) ∧ ∀ j, n ≤ j → y j = x j := by
  have hnone : StableSorted (fun v => key v % 2 ^ 0) (slice x 0 n) (slice x 0 n) :=
    StableSorted.of_constant _ _ fun u _ v _ => by
      rw [Nat.pow_zero, Nat.mod_one, Nat.mod_one]
  obtain ⟨y, hy, hsorted, hbehind⟩ := radixLoop_spec tmp hn hsize hnone
    (fun v _ => hkeys v) (show 0 < 4 by decide)
  refine ⟨y, ?_, hsorted, hbehind⟩
  unfold radixsort
  rw [if_pos rfl, hy, Option.map_some]

end Rounds

/-! ## 5. Lengths that the counters cannot hold -/

section Overflow

variable {counter : Nat → Nat}

theorem sumLoop_before {k i t d : Nat} (h : d < i) : sumLoop k i t counter d = counter d := by
  induction k generalizing i t counter with
  | zero => rfl
  | succ k ih =>
    unfold sumLoop
    rw [ih (by omega), set_of_ne _ _ (by omega)]

variable (counter) in
theorem sumLoop_lt {k i t d : Nat} (ht : t < 2 ^ 32) (hi : i ≤ d) (hd : d < i + k) :
    sumLoop k i t counter d < 2 ^ 32 := by
  induction k generalizing i t counter with
  | zero => omega
  | succ k ih =>
    unfold sumLoop
    by_cases hd' : d = i
    · rw [sumLoop_before (by omega), hd', set_self]
      exact ht
    · exact ih _ (Nat.mod_lt _ (by decide)) (by omega) (by omega)

variable (src dst) in
/-- A pass reaches no cell from the `2 ^ 32`-th on. -/
theorem scatterLoop_reach (hdigit : ∀ v, digit v < 256) {left : Nat} (hleft : 0 < left) (r : Nat)
    (hcounter : ∀ d, d < 256 → counter d < 2 ^ 32) :
    ∃ y, scatterLoop digit src left r counter dst = some y ∧ ∀ j, 2 ^ 32 ≤ j → y j = dst j := by
  induction left generalizing r counter dst with
  | zero => omega
  | succ left ih =>
    have hd := hcounter _ (hdigit (src r))
    have hkeep : ∀ j, 2 ^ 32 ≤ j → set dst (counter (digit (src r))) (src r) j = dst j :=
      fun j hj => set_of_ne _ _ (by omega)
    unfold scatterLoop
    by_cases hlast : left = 0
    · rw [if_pos hlast]
      exact ⟨_, rfl, hkeep⟩
    · rw [if_neg hlast]
      obtain ⟨y, hy, hbehind⟩ := ih (set dst (counter (digit (src r))) (src r)) (by omega) (r + 1)
        fun d hd => incr_lt (hcounter d hd) (digit (src r))
      exact ⟨y, hy, fun j hj => (hbehind j hj).trans (hkeep j hj)⟩

/-- With one key for all items, those from the `2 ^ 32`-th on are what the buffer had there. -/
theorem radixsort_overflow {k : Nat} (hkey : ∀ i, key (x i) = k) (hn : 2 ^ 32 < n) :
    ∃ y, radixsort true key x tmp n = some (true, y) ∧ y (2 ^ 32) = tmp (2 ^ 32) := by
  obtain ⟨s, hs, hcounted⟩ := countLoop_spec key x 0 (show 0 < n by omega) 0
    ⟨fun _ => 0, fun _ => 0, 0, key (x 0) >>> 0⟩
  have hmask : s.keyDiffMask < 2 ^ 8 := by
    refine (hcounted.mask 8).mpr ⟨Nat.two_pow_pos 8, fun v hv => ?_⟩
    obtain ⟨i, -, -, rfl⟩ := mem_slice.mp hv
    rw [hkey i, hkey 0]
  have hdigit : ∀ v, digitA key 0 v < 256 := fun v => by
    rw [digitA_eq]
    exact Nat.mod_lt _ (by decide)
  obtain ⟨z, hz, hbehind⟩ := scatterLoop_reach x tmp hdigit (show 0 < n by omega) 0
    fun d hd => sumLoop_lt s.a (show 0 < 2 ^ 32 by decide) (Nat.zero_le d)
      (show d < 0 + 256 by omega)
  refine ⟨copyBack x z n, ?_, ?_⟩
  · unfold radixsort
    rw [if_pos rfl, radixLoop_succ, hs, Option.bind_eq_bind, Option.bind_some, hz,
      Option.bind_eq_bind, Option.bind_some, if_pos (show s.keyDiffMask < 256 from hmask)]
    rfl
  · exact (if_pos hn).trans (hbehind (2 ^ 32) (le_refl _))

end Overflow

end Mdbx.Sort
