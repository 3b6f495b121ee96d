import Mdbx.Compare.Model
import Mathlib.Data.Prod.Lex
import Mathlib.Data.Nat.Bitwise

/-!
# Compare.Orders — the built-in comparators are total orders

Every load reads the bytes it should, whichever way it is made; so each comparator orders strings by
a key that is written down without loads, and `eq_fast` tells equality.
-/

namespace Mdbx.Compare

open Comparator

/-! ## 1. Bytes and words -/

theorem codes_length (a : Bytes) : (codes a).length = a.length := List.length_map _

theorem codes_reverse (a : Bytes) : (codes a).reverse = codes a.reverse := by
  unfold codes
  rw [List.map_reverse]

theorem codes_append (a b : Bytes) : codes (a ++ b) = codes a ++ codes b := List.map_append

theorem codes_lt {a : Bytes} : ∀ d ∈ codes a, d < 256 := by
  intro d hd
  obtain ⟨x, _, rfl⟩ := List.mem_map.mp hd
  exact x.toNat_lt

theorem codes_injective : Function.Injective codes :=
  List.map_injective_iff.mpr fun _ _ h => UInt8.toNat_inj.mp h

theorem slice_length {a : Bytes} {pos n : Nat} (h : pos + n ≤ a.length) :
    (slice a pos n).length = n := by
  unfold slice
  rw [List.length_take, List.length_drop]
  omega

theorem slice_add (a : Bytes) (pos n k : Nat) :
    slice a pos (n + k) = slice a pos n ++ slice a (pos + n) k := by
  unfold slice
  rw [List.take_add, List.drop_drop]

theorem slice_whole (a : Bytes) : slice a 0 a.length = a := by
  unfold slice
  rw [List.drop_zero, List.take_length]

/-- The number with its lowest byte first. -/
def littleValue (l : Bytes) : Nat := Nat.ofDigits 256 (codes l)

theorem littleValue_lt (l : Bytes) : littleValue l < 2 ^ (8 * l.length) := by
  have h := Nat.ofDigits_lt_base_pow_length (b := 256) (l := codes l) (by decide) codes_lt
  rw [codes_length] at h
  rw [Nat.pow_mul]
  exact h

theorem littleValue_append (x y : Bytes) :
    littleValue (x ++ y) = 2 ^ (8 * x.length) * littleValue y + littleValue x := by
  unfold littleValue
  rw [codes_append, Nat.ofDigits_append, codes_length, Nat.pow_mul, Nat.add_comm]

theorem littleValue_inj {x y : Bytes} (hlen : x.length = y.length) :
    littleValue x = littleValue y ↔ x = y := by
  constructor
  · intro h
    apply codes_injective
    apply Nat.ofDigits_inj_of_len_eq (b := 256) (by decide) _ codes_lt codes_lt h
    rw [codes_length, codes_length, hlen]
  · intro h
    rw [h]

theorem littleValue_lt_iff {x y : Bytes} (hlen : x.length = y.length) :
    littleValue x < littleValue y ↔ codes x.reverse < codes y.reverse := by
  unfold littleValue
  rw [← codes_reverse, ← codes_reverse]
  apply ofDigits_lt_iff (by decide) _ codes_lt codes_lt
  rw [codes_length, codes_length, hlen]

theorem word_eq (m : Machine) (l : Bytes) :
    m.word l = littleValue (if m.bigEndian then l.reverse else l) := rfl

theorem word_inj (m : Machine) {x y : Bytes} (hlen : x.length = y.length) :
    m.word x = m.word y ↔ x = y := by
  rw [word_eq, word_eq]
  cases m.bigEndian
  · simp only [Bool.false_eq_true, if_false]
    exact littleValue_inj hlen
  · simp only [if_true]
    rw [littleValue_inj (by rw [List.length_reverse, List.length_reverse, hlen])]
    exact List.reverse_inj

theorem bswap_littleValue (l : Bytes) : bswap l.length (littleValue l) = littleValue l.reverse := by
  induction l with
  | nil => rfl
  | cons x l ih =>
    have hx : x.toNat < 256 := x.toNat_lt
    have hcons : littleValue (x :: l) = x.toNat + 256 * littleValue l := rfl
    have hsingle : littleValue [x] = x.toNat := Nat.ofDigits_singleton
    rw [List.length_cons, bswap, hcons, show (x.toNat + 256 * littleValue l) % 256 = x.toNat by omega,
      show (x.toNat + 256 * littleValue l) / 256 = littleValue l by omega, ih, List.reverse_cons,
      littleValue_append, hsingle, List.length_reverse, Nat.pow_mul, Nat.mul_comm]

/-! ## 2. Loads -/

theorem load_eq (m : Machine) (n : Nat) (a : Bytes) (pos : Nat) :
    m.load n a pos = m.word (slice a pos n) := rfl

/-- A word is the same when it is read by halves. -/
theorem loadHalves_eq (m : Machine) {n : Nat} {a : Bytes} {pos : Nat} (h : pos + (n + n) ≤ a.length) :
    m.loadHalves n a pos = m.load (n + n) a pos := by
  have hlow : (slice a pos n).length = n := slice_length (by omega)
  have hhigh : (slice a (pos + n) n).length = n := slice_length (by omega)
  have hor : ∀ lo hi : Bytes, lo.length = n →
      littleValue lo ||| littleValue hi <<< (8 * n) = littleValue (lo ++ hi) := by
    intro lo hi hlo
    have hlt := littleValue_lt lo
    rw [hlo] at hlt
    rw [littleValue_append, hlo, Nat.two_pow_add_eq_or_of_lt hlt, Nat.shiftLeft_eq, Nat.or_comm,
      Nat.mul_comm]
  unfold Machine.loadHalves
  rw [load_eq, load_eq, load_eq, word_eq, word_eq, word_eq, slice_add]
  cases m.bigEndian
  · simp only [Bool.false_eq_true, if_false]
    exact hor _ _ hlow
  · simp only [if_true]
    rw [List.reverse_append]
    exact hor _ _ (by rw [List.length_reverse, hhigh])

theorem unalignedPeekU32_eq (m : Machine) (expectedAlignment : Nat) {a : Bytes} {pos : Nat}
    (h : pos + 4 ≤ a.length) :
    unalignedPeekU32 m expectedAlignment a pos = m.word (slice a pos 4) := by
  unfold unalignedPeekU32
  split
  · rfl
  · split
    · exact loadHalves_eq m (n := 2) h
    · rfl

theorem unalignedPeekU64_eq (m : Machine) (expectedAlignment : Nat) {a : Bytes} {pos : Nat}
    (h : pos + 8 ≤ a.length) :
    unalignedPeekU64 m expectedAlignment a pos = m.word (slice a pos 8) := by
  unfold unalignedPeekU64
  split
  · rfl
  · split
    · exact loadHalves_eq m (n := 4) h
    · rfl

theorem peekSwapped_eq (m : Machine) {n : Nat} (hn : n = 4 ∨ n = 8) {a : Bytes} {pos : Nat}
    (h : pos + n ≤ a.length) : m.peekSwapped n a pos = littleValue (slice a pos n) := by
  have hload : (if n = 4 then unalignedPeekU32 m 1 a pos else unalignedPeekU64 m 1 a pos) =
      m.word (slice a pos n) := by
    rcases hn with rfl | rfl
    · exact unalignedPeekU32_eq m 1 h
    · exact unalignedPeekU64_eq m 1 h
  have hlen : (slice a pos n).length = n := slice_length h
  unfold Machine.peekSwapped
  rw [hload, word_eq]
  cases m.bigEndian
  · simp only [Bool.false_eq_true, if_false]
  · have hswap := bswap_littleValue (slice a pos n).reverse
    rw [List.length_reverse, hlen, List.reverse_reverse] at hswap
    simp only [if_true]
    exact hswap

/-! ## 3. Comparisons of parts -/

theorem cmp2int_says (x y : Nat) : Says (cmp2int x y) x y := by
  unfold cmp2int
  rcases Nat.lt_trichotomy x y with h | h | h
  · rw [if_pos (by omega), if_pos h]
    exact Says.of_lt h
  · subst h
    rw [if_neg (by simp)]
    exact Says.refl x
  · rw [if_pos (by omega), if_neg (by omega)]
    exact Says.of_gt h

theorem memcmp_spec {a b : Bytes} (hlen : a.length = b.length) :
    Says (memcmp a b) (codes a) (codes b) := by
  induction a generalizing b with
  | nil =>
    have hb : b = [] := List.length_eq_zero_iff.mp hlen.symm
    subst hb
    exact Says.refl []
  | cons x a ih =>
    cases b with
    | nil => exact absurd hlen (Nat.succ_ne_zero _)
    | cons y b =>
      have hlen' : a.length = b.length := Nat.succ.inj hlen
      rw [memcmp]
      by_cases hxy : x = y
      · subst hxy
        rw [if_pos rfl]
        exact (ih hlen').append_left [x.toNat]
      · have hne : x.toNat ≠ y.toNat := fun h => hxy (UInt8.toNat_inj.mp h)
        have hsub := says_sub x.toNat y.toNat
        rw [if_neg hxy]
        apply hsub.congr
        · change x.toNat :: codes a < y.toNat :: codes b ↔ _
          simp only [List.cons_lt_cons_iff, hne, false_and, or_false]
        · change y.toNat :: codes b < x.toNat :: codes a ↔ _
          simp only [List.cons_lt_cons_iff, hne.symm, false_and, or_false]

theorem memcmp_eq_zero {a b : Bytes} (hlen : a.length = b.length) : memcmp a b = 0 ↔ a = b := by
  rw [(memcmp_spec hlen).eq]
  exact codes_injective.eq_iff

/-- The strings whose length fits in an `int`. -/
def short : Set Bytes := {a | a.length ≤ intMax}

/-- The strings of `n` bytes. -/
def strings (n : Nat) : Set Bytes := {a | a.length = n}

theorem cmpLen_eq {x y : Nat} (hx : x ≤ intMax) (hy : y ≤ intMax) :
    cmpLen x y = (x : Int) - y := by
  unfold intMax at hx hy
  unfold cmpLen
  apply Int.bmod_eq_of_le
  · omega
  · omega

theorem byte_eq {a : Bytes} {i : Nat} (h : i < a.length) : byte a i = (a[i]).toNat := by
  unfold byte
  rw [List.getD_eq_getElem?_getD, List.getElem?_eq_getElem h, Option.getD_some]

theorem codes_slice {a : Bytes} {pos n : Nat} (h : pos + n ≤ a.length) :
    codes (slice a pos n) = (List.range n).map fun i => byte a (pos + i) := by
  apply List.ext_getElem
  · rw [codes_length, slice_length h, List.length_map, List.length_range]
  · intro i hi hi'
    rw [List.length_map, List.length_range] at hi'
    simp only [codes, slice, List.getElem_map, List.getElem_take, List.getElem_drop,
      List.getElem_range]
    rw [byte_eq (by omega)]

theorem tail3le_eq (a : Bytes) (pos l : Nat) : tail3le a pos l =
    Nat.ofDigits 256 [byte a pos, byte a (pos + l >>> 1), byte a (pos + l - 1)] := by
  have hbyte : ∀ i, byte a i < 256 := fun i => (a.getD i 0).toNat_lt
  have h₀ := hbyte pos
  have h₁ := hbyte (pos + l >>> 1)
  have h₂ := hbyte (pos + l - 1)
  unfold tail3le
  simp only [Nat.ofDigits_cons, Nat.ofDigits_nil]
  generalize byte a pos = x at *
  generalize byte a (pos + l >>> 1) = y at *
  generalize byte a (pos + l - 1) = z at *
  have hlow : x ||| y <<< 8 = 2 ^ 8 * y + x := by
    rw [Nat.two_pow_add_eq_or_of_lt h₀, Nat.shiftLeft_eq, Nat.or_comm, Nat.mul_comm]
  have hall : (2 ^ 8 * y + x) ||| z <<< 16 = 2 ^ 16 * z + (2 ^ 8 * y + x) := by
    have hmid : 2 ^ 8 * y + x < 2 ^ 16 := by omega
    generalize 2 ^ 8 * y + x = low at *
    rw [Nat.two_pow_add_eq_or_of_lt hmid, Nat.shiftLeft_eq, Nat.or_comm, Nat.mul_comm z]
  rw [hlow, hall]
  omega

/-- The three bytes that `tail3le` picks stand in the order of the bytes of the slice. -/
theorem tail3le_lt_iff {a b : Bytes} {i j l : Nat} (hpos : l ≠ 0) (hl : l ≤ 3)
    (ha : i + l ≤ a.length) (hb : j + l ≤ b.length) :
    tail3le a i l < tail3le b j l ↔
      codes (slice a i l).reverse < codes (slice b j l).reverse := by
  have hbyte : ∀ (c : Bytes) i, byte c i < 256 := fun c i => (c.getD i 0).toNat_lt
  rw [tail3le_eq, tail3le_eq, ← codes_reverse, ← codes_reverse, codes_slice ha, codes_slice hb]
  apply (ofDigits_lt_iff (by decide) (by rfl) (by simp [hbyte]) (by simp [hbyte])).trans
  obtain rfl | rfl | rfl : l = 1 ∨ l = 2 ∨ l = 3 := by omega
  · change [byte a i, byte a i, byte a i] < [byte b j, byte b j, byte b j] ↔
      [byte a i] < [byte b j]
    simp only [List.cons_lt_cons_iff, lt_irrefl, and_false, or_false]
    omega
  · change [byte a (i + 1), byte a (i + 1), byte a i] < [byte b (j + 1), byte b (j + 1), byte b j] ↔
      [byte a (i + 1), byte a i] < [byte b (j + 1), byte b j]
    simp only [List.cons_lt_cons_iff, lt_irrefl, and_false, or_false]
    omega
  · exact Iff.rfl

/-! ## 4. Integers -/

theorem cmpUint32Unchecked_eq (m : Machine) (expectedAlignment : Nat) {a b : Bytes}
    (ha : a.length = 4) (hb : b.length = 4) :
    cmpUint32Unchecked m expectedAlignment a b = cmp2int (m.word a) (m.word b) := by
  unfold cmpUint32Unchecked
  rw [unalignedPeekU32_eq m _ (by omega), unalignedPeekU32_eq m _ (by omega), ← ha, slice_whole,
    ha, ← hb, slice_whole]

theorem cmpUint64Unchecked_eq (m : Machine) (expectedAlignment : Nat) {a b : Bytes}
    (ha : a.length = 8) (hb : b.length = 8) :
    cmpUint64Unchecked m expectedAlignment a b = cmp2int (m.word a) (m.word b) := by
  unfold cmpUint64Unchecked
  rw [unalignedPeekU64_eq m _ (by omega), unalignedPeekU64_eq m _ (by omega), ← ha, slice_whole,
    ha, ← hb, slice_whole]

theorem cmpUintInline_eq4 (m : Machine) (expectedAlignment : Nat) {a b : Bytes}
    (ha : a.length = 4) (hb : b.length = 4) :
    cmpUintInline m expectedAlignment a b = cmp2int (m.word a) (m.word b) := by
  unfold cmpUintInline
  rw [if_pos (ha.trans hb.symm), if_neg (by omega), if_pos ha]
  exact cmpUint32Unchecked_eq m _ ha hb

theorem cmpUintInline_eq8 (m : Machine) (expectedAlignment : Nat) {a b : Bytes}
    (ha : a.length = 8) (hb : b.length = 8) :
    cmpUintInline m expectedAlignment a b = cmp2int (m.word a) (m.word b) := by
  unfold cmpUintInline
  rw [if_pos (ha.trans hb.symm)]
  by_cases hwide : m.wide = true
  · rw [if_pos ⟨hwide, ha⟩]
    exact cmpUint64Unchecked_eq m _ ha hb
  · rw [if_neg (fun h => hwide h.1), if_neg (by omega), if_pos ⟨hwide, ha⟩]
    exact cmpUint64Unchecked_eq m _ ha hb

theorem cmpUint32Inline_eq (m : Machine) (expectedAlignment : Nat) {a b : Bytes}
    (ha : a.length = 4) (hb : b.length = 4) :
    cmpUint32Inline m expectedAlignment a b = cmp2int (m.word a) (m.word b) := by
  unfold cmpUint32Inline
  rw [if_pos ⟨ha.trans hb.symm, ha⟩]
  exact cmpUint32Unchecked_eq m _ ha hb

theorem cmpUint64Inline_eq (m : Machine) (expectedAlignment : Nat) {a b : Bytes}
    (ha : a.length = 8) (hb : b.length = 8) :
    cmpUint64Inline m expectedAlignment a b = cmp2int (m.word a) (m.word b) := by
  unfold cmpUint64Inline
  rw [if_pos ⟨ha.trans hb.symm, ha⟩]
  exact cmpUint64Unchecked_eq m _ ha hb

/-- Whatever the alignment, a comparator of 4-byte integers compares their values. -/
theorem comparators32_eq {m : Machine} {cmp : Bytes → Bytes → Int} (hcmp : cmp ∈ comparators32 m)
    {a b : Bytes} (ha : a.length = 4) (hb : b.length = 4) :
    cmp a b = cmp2int (m.word a) (m.word b) := by
  simp only [comparators32, List.mem_cons, List.not_mem_nil, or_false] at hcmp
  rcases hcmp with rfl | rfl | rfl | rfl | rfl | rfl | rfl | rfl | rfl
  · exact cmpUintInline_eq4 m 1 ha hb
  · unfold cmpUintAlign2
    split
    · exact cmpUintInline_eq4 m 2 ha hb
    · exact cmpUintInline_eq4 m 1 ha hb
  · unfold cmpUintAlign4
    split
    · exact cmpUintInline_eq4 m 4 ha hb
    · exact cmpUintInline_eq4 m 1 ha hb
  · exact cmpUint32Inline_eq m 1 ha hb
  · unfold cmpUint32Align2
    split
    · exact cmpUint32Inline_eq m 2 ha hb
    · exact cmpUintInline_eq4 m 1 ha hb
  · unfold cmpUint32Align4
    split
    · exact cmpUint32Inline_eq m 4 ha hb
    · exact cmpUint32Inline_eq m 1 ha hb
  · exact cmpUint32Unchecked_eq m 1 ha hb
  · unfold cmpUint32Align2Unchecked
    split
    · exact cmpUint32Unchecked_eq m 2 ha hb
    · exact cmpUint32Unchecked_eq m 1 ha hb
  · unfold cmpUint32Align4Unchecked
    split
    · exact cmpUint32Unchecked_eq m 4 ha hb
    · exact cmpUint32Unchecked_eq m 1 ha hb

/-- Whatever the alignment, a comparator of 8-byte integers compares their values. -/
theorem comparators64_eq {m : Machine} {cmp : Bytes → Bytes → Int} (hcmp : cmp ∈ comparators64 m)
    {a b : Bytes} (ha : a.length = 8) (hb : b.length = 8) :
    cmp a b = cmp2int (m.word a) (m.word b) := by
  simp only [comparators64, List.mem_cons, List.not_mem_nil, or_false] at hcmp
  rcases hcmp with rfl | rfl | rfl | rfl | rfl | rfl | rfl | rfl | rfl
  · exact cmpUintInline_eq8 m 1 ha hb
  · unfold cmpUintAlign2
    split
    · exact cmpUintInline_eq8 m 2 ha hb
    · exact cmpUintInline_eq8 m 1 ha hb
  · unfold cmpUintAlign4
    split
    · exact cmpUintInline_eq8 m 4 ha hb
    · exact cmpUintInline_eq8 m 1 ha hb
  · exact cmpUint64Inline_eq m 1 ha hb
  · unfold cmpUint64Align2
    split
    · exact cmpUint64Inline_eq m 2 ha hb
    · exact cmpUintInline_eq8 m 1 ha hb
  · unfold cmpUint64Align4
    split
    · exact cmpUint64Inline_eq m 4 ha hb
    · exact cmpUint64Inline_eq m 1 ha hb
  · exact cmpUint64Unchecked_eq m 1 ha hb
  · unfold cmpUint64Align2Unchecked
    split
    · exact cmpUint64Unchecked_eq m 2 ha hb
    · exact cmpUint64Unchecked_eq m 1 ha hb
  · unfold cmpUint64Align4Unchecked
    split
    · exact cmpUint64Unchecked_eq m 4 ha hb
    · exact cmpUint64Unchecked_eq m 1 ha hb

theorem comparators32_ordered {m : Machine} {cmp : Bytes → Bytes → Int}
    (hcmp : cmp ∈ comparators32 m) : OrderedBy (strings 4) cmp m.word := by
  intro a ha b hb
  rw [comparators32_eq hcmp ha hb]
  exact cmp2int_says _ _

theorem comparators64_ordered {m : Machine} {cmp : Bytes → Bytes → Int}
    (hcmp : cmp ∈ comparators64 m) : OrderedBy (strings 8) cmp m.word := by
  intro a ha b hb
  rw [comparators64_eq hcmp ha hb]
  exact cmp2int_says _ _

theorem word_injOn (m : Machine) (n : Nat) : Set.InjOn m.word (strings n) := by
  intro a ha b hb hab
  exact (word_inj m (ha.trans hb.symm)).mp hab

/-! ## 5. Byte strings -/

theorem cmpLexical_ordered : OrderedBy short cmpLexical codes := by
  intro a ha b hb
  have hlen := cmpLen_eq ha hb
  unfold cmpLexical
  set n := if a.length < b.length then a.length else b.length with hn
  have hna : n ≤ a.length := by rw [hn]; split <;> omega
  have hnb : n ≤ b.length := by rw [hn]; split <;> omega
  have hedge : n = a.length ∨ n = b.length := by rw [hn]; split <;> omega
  have hta : (a.take n).length = n := by rw [List.length_take]; omega
  have htb : (b.take n).length = n := by rw [List.length_take]; omega
  have hdata : Says (if n ≠ 0 then memcmp (a.take n) (b.take n) else 0)
      (codes (a.take n)) (codes (b.take n)) := by
    by_cases hzero : n = 0
    · rw [if_neg (by simpa using hzero), hzero]
      exact Says.refl []
    · rw [if_pos hzero]
      exact memcmp_spec (hta.trans htb.symm)
  have hsplit : ∀ c : Bytes, codes c = codes (c.take n) ++ codes (c.drop n) := by
    intro c
    rw [← codes_append, List.take_append_drop]
  rw [hsplit a, hsplit b]
  dsimp only
  generalize (if n ≠ 0 then memcmp (a.take n) (b.take n) else 0) = diffData at hdata ⊢
  by_cases hz : diffData = 0
  · have heq := hdata.eq.mp hz
    rw [if_neg (by simpa using hz), heq, hlen]
    apply Says.append_left
    have hrest : codes (a.drop n) = [] ∨ codes (b.drop n) = [] := by
      rcases hedge with h | h
      · exact .inl (by rw [h, List.drop_length]; rfl)
      · exact .inr (by rw [h, List.drop_length]; rfl)
    have hsays := says_length hrest
    rw [codes_length, codes_length, List.length_drop, List.length_drop] at hsays
    rw [show (a.length : Int) - b.length = ((a.length - n : Nat) : Int) - (b.length - n : Nat) by
      omega]
    exact hsays
  · rw [if_pos hz]
    apply hdata.append (fun heq => hz (hdata.eq.mpr heq))
    rw [codes_length, codes_length, hta, htb]

/-- What is left in front of two positions with the same bytes behind them. -/
structure Behind (a b : Bytes) (pa pb left : Nat) : Prop where
  left : left = min pa pb
  same : a.length + pb = b.length + pa
  inside : pa ≤ a.length

theorem Behind.insideB {a b : Bytes} {pa pb left : Nat} (h : Behind a b pa pb left) :
    pb ≤ b.length := by
  have := h.same
  have := h.inside
  omega

theorem Behind.back {a b : Bytes} {pa pb left : Nat} (h : Behind a b pa pb left) {n : Nat}
    (hn : n ≤ left) : Behind a b (pa - n) (pb - n) (left - n) where
  left := by have := h.left; omega
  same := by have := h.left; have := h.same; omega
  inside := by have := h.inside; omega

/-- The bytes in front of a position, the last one first. -/
def front (a : Bytes) (pos : Nat) : List Nat := codes (a.take pos).reverse

theorem front_split {a : Bytes} {pos n : Nat} (hn : n ≤ pos) :
    front a pos = codes (slice a (pos - n) n).reverse ++ front a (pos - n) := by
  unfold front slice
  rw [← codes_append, ← List.reverse_append, ← List.take_add, Nat.sub_add_cancel hn]

/-- One comparison of `cmp_reverse`: the part before the position, then the rest. -/
theorem front_step {a b : Bytes} {pa pb left n xa xb : Nat} {r : Int}
    (h : Behind a b pa pb left) (hn : n ≤ left)
    (hlt : xa < xb ↔ codes (slice a (pa - n) n).reverse < codes (slice b (pb - n) n).reverse)
    (hgt : xb < xa ↔ codes (slice b (pb - n) n).reverse < codes (slice a (pa - n) n).reverse)
    (hr : Says r (front a (pa - n)) (front b (pb - n))) :
    Says (if xa ≠ xb then if xa < xb then -1 else 1 else r) (front a pa) (front b pb) := by
  have hpa : n ≤ pa := by have := h.left; omega
  have hpb : n ≤ pb := by have := h.left; omega
  have hla : (codes (slice a (pa - n) n).reverse).length = n := by
    have := h.inside
    rw [codes_length, List.length_reverse, slice_length (by omega)]
  have hlb : (codes (slice b (pb - n) n).reverse).length = n := by
    have := h.insideB
    rw [codes_length, List.length_reverse, slice_length (by omega)]
  rw [front_split hpa, front_split hpb]
  rcases Nat.lt_trichotomy xa xb with hx | hx | hx
  · rw [if_pos (by omega), if_pos hx]
    exact Says.append (Says.of_lt (hlt.mp hx)) (ne_of_lt (hlt.mp hx)) (hla.trans hlb.symm) _ _
  · rw [if_neg (by simpa using hx)]
    have heq : codes (slice a (pa - n) n).reverse = codes (slice b (pb - n) n).reverse := by
      apply le_antisymm
      · exact not_lt.mp fun hlt' => by have := hgt.mpr hlt'; omega
      · exact not_lt.mp fun hlt' => by have := hlt.mpr hlt'; omega
    rw [heq]
    exact hr.append_left _
  · rw [if_pos (by omega), if_neg (by omega)]
    exact Says.append (Says.of_gt (hgt.mp hx)) (ne_of_gt (hgt.mp hx)) (hla.trans hlb.symm) _ _

/-- Comparing `n` bytes as one number, with the lowest byte first. -/
theorem reverse_word (m : Machine) {a b : Bytes} {n : Nat} (hn : n = 4 ∨ n = 8)
    {pa pb left : Nat} {r : Int} (h : Behind a b pa pb left) (hle : n ≤ left)
    (hr : Says r (front a (pa - n)) (front b (pb - n))) :
    Says (if m.peekSwapped n a (pa - n) ≠ m.peekSwapped n b (pb - n) then
      if m.peekSwapped n a (pa - n) < m.peekSwapped n b (pb - n) then -1 else 1 else r)
      (front a pa) (front b pb) := by
  have hmin := h.left
  have hia := h.inside
  have hib := h.insideB
  have hla : (slice a (pa - n) n).length = n := slice_length (by omega)
  have hlb : (slice b (pb - n) n).length = n := slice_length (by omega)
  rw [peekSwapped_eq m hn (by omega), peekSwapped_eq m hn (by omega)]
  apply front_step h hle
  · exact littleValue_lt_iff (hla.trans hlb.symm)
  · exact littleValue_lt_iff (hlb.trans hla.symm)
  · exact hr

section Reverse

variable {m : Machine} {a b : Bytes} (ha : a ∈ short) (hb : b ∈ short)
include ha hb

/-- With nothing left on one side the lengths decide. -/
theorem front_lengths {pa pb left : Nat} (h : Behind a b pa pb left) (hzero : left = 0) :
    Says (cmpLen a.length b.length) (front a pa) (front b pb) := by
  have hlen : ∀ {c : Bytes} {pos : Nat}, pos ≤ c.length → (front c pos).length = pos := by
    intro c pos hpos
    unfold front
    rw [codes_length, List.length_reverse, List.length_take]
    omega
  have hla := hlen h.inside
  have hlb := hlen h.insideB
  have hempty : front a pa = [] ∨ front b pb = [] := by
    have hmin := h.left
    rcases Nat.le_total pa pb with hle | hle
    · exact .inl (List.length_eq_zero_iff.mp (by omega))
    · exact .inr (List.length_eq_zero_iff.mp (by omega))
  have hsays := says_length hempty
  rw [hla, hlb] at hsays
  have hsame := h.same
  rw [cmpLen_eq ha hb, show (a.length : Int) - b.length = (pa : Int) - pb by omega]
  exact hsays

theorem reverseTail_says {pa pb left : Nat} (h : Behind a b pa pb left) (hleft : left ≤ 3) :
    Says (reverseTail a b pa pb left) (front a pa) (front b pb) := by
  have hmin := h.left
  have hia := h.inside
  have hib := h.insideB
  unfold reverseTail
  by_cases hzero : left = 0
  · rw [if_neg (by simpa using hzero)]
    exact front_lengths ha hb h hzero
  · rw [if_pos hzero]
    apply front_step h (Nat.le_refl left)
    · exact tail3le_lt_iff hzero hleft (by omega) (by omega)
    · exact tail3le_lt_iff hzero hleft (by omega) (by omega)
    · exact front_lengths ha hb (h.back (Nat.le_refl left)) (Nat.sub_self left)

theorem reverseHalf_says {pa pb left : Nat} (h : Behind a b pa pb left)
    (hleft : left < m.sizeofSize) :
    Says (reverseHalf m a b pa pb left) (front a pa) (front b pb) := by
  unfold Machine.sizeofSize at hleft
  unfold reverseHalf
  by_cases hfour : m.wide = true ∧ 4 ≤ left
  · rw [if_pos hfour]
    rw [if_pos hfour.1] at hleft
    apply reverse_word m (.inl rfl) h hfour.2
    exact reverseTail_says ha hb (h.back hfour.2) (by omega)
  · rw [if_neg hfour]
    have hthree : left ≤ 3 := by
      by_cases hwide : m.wide = true
      · have : ¬ 4 ≤ left := fun hle => hfour ⟨hwide, hle⟩
        omega
      · rw [if_neg hwide] at hleft
        omega
    exact reverseTail_says ha hb h hthree

-- the loop over the words, by induction on the fuel that `left` bounds
theorem reverseWords_says (fuel : Nat) {pa pb left : Nat} (h : Behind a b pa pb left)
    (hfuel : left ≤ fuel) :
    Says (reverseWords m a b fuel pa pb left) (front a pa) (front b pb) := by
  have hsize : m.sizeofSize = 4 ∨ m.sizeofSize = 8 := by
    unfold Machine.sizeofSize
    split
    · exact .inr rfl
    · exact .inl rfl
  induction fuel generalizing pa pb left with
  | zero =>
    rw [reverseWords]
    exact reverseHalf_says ha hb h (by omega)
  | succ fuel ih =>
    rw [reverseWords]
    dsimp only
    by_cases hle : m.sizeofSize ≤ left
    · rw [if_pos hle]
      apply reverse_word m hsize h hle
      exact ih (h.back hle) (by omega)
    · rw [if_neg hle]
      exact reverseHalf_says ha hb h (by omega)

end Reverse

theorem cmpReverse_ordered (m : Machine) :
    OrderedBy short (cmpReverse m) fun a => codes a.reverse := by
  intro a ha b hb
  change Says (cmpReverse m a b) (codes a.reverse) (codes b.reverse)
  have hfront : ∀ c : Bytes, codes c.reverse = front c c.length := by
    intro c
    unfold front
    rw [List.take_length]
  have hbehind : Behind a b a.length b.length (if a.length < b.length then a.length else b.length) :=
    ⟨by split <;> omega, Nat.add_comm _ _, Nat.le_refl _⟩
  unfold cmpReverse
  rw [hfront a, hfront b]
  generalize (if a.length < b.length then a.length else b.length) = left at hbehind
  by_cases hzero : left = 0
  · rw [if_neg (not_not.mpr hzero)]
    exact front_lengths ha hb hbehind hzero
  · rw [if_pos hzero]
    exact reverseWords_says ha hb left hbehind (Nat.le_refl left)

/-- Length first, then the bytes. -/
def lengthCodes (a : Bytes) : Nat ×ₗ List Nat := toLex (a.length, codes a)

theorem lengthCodes_lt {a b : Bytes} :
    lengthCodes a < lengthCodes b ↔ a.length < b.length ∨ a.length = b.length ∧ codes a < codes b :=
  Prod.Lex.toLex_lt_toLex

theorem cmpLenfast_ordered : OrderedBy short cmpLenfast lengthCodes := by
  intro a ha b hb
  unfold cmpLenfast
  dsimp only
  rw [cmpLen_eq ha hb]
  by_cases hdiff : (a.length : Int) - b.length ≠ 0 ∨ a.length = 0
  · rw [if_pos hdiff]
    apply (says_sub a.length b.length).congr
    · rw [lengthCodes_lt]
      constructor
      · rintro (h | ⟨hlen, hlt⟩)
        · exact h
        · have hnil : a = [] := List.length_eq_zero_iff.mp (by omega)
          have hnil' : b = [] := List.length_eq_zero_iff.mp (by omega)
          exact absurd hlt (by rw [hnil, hnil']; exact lt_irrefl _)
      · exact Or.inl
    · rw [lengthCodes_lt]
      constructor
      · rintro (h | ⟨hlen, hlt⟩)
        · exact h
        · have hnil : a = [] := List.length_eq_zero_iff.mp (by omega)
          have hnil' : b = [] := List.length_eq_zero_iff.mp (by omega)
          exact absurd hlt (by rw [hnil, hnil']; exact lt_irrefl _)
      · exact Or.inl
  · have hlen : a.length = b.length := by omega
    rw [if_neg hdiff, hlen, List.take_length]
    apply (memcmp_spec hlen).congr
    · rw [lengthCodes_lt, hlen]
      simp only [lt_irrefl, true_and, false_or]
    · rw [lengthCodes_lt, hlen]
      simp only [lt_irrefl, true_and, false_or]

/-! ## 6. Equality -/

theorem subWord_eq_zero {n x y : Nat} (hx : x < 256 ^ n) (hy : y < 256 ^ n) :
    subWord n x y = 0 ↔ x = y := by
  unfold subWord
  generalize 256 ^ n = w at *
  constructor
  · intro h
    rcases Nat.lt_trichotomy x y with hlt | heq | hgt
    · rw [Nat.mod_eq_of_lt (by omega)] at h
      omega
    · exact heq
    · rw [show x + w - y = (x - y) + w by omega, Nat.add_mod_right, Nat.mod_eq_of_lt (by omega)] at h
      omega
  · rintro rfl
    rw [Nat.add_sub_cancel_left, Nat.mod_self]

theorem word_lt (m : Machine) (l : Bytes) : m.word l < 256 ^ l.length := by
  have h := littleValue_lt (if m.bigEndian then l.reverse else l)
  have hlen : (if m.bigEndian then l.reverse else l).length = l.length := by
    split
    · exact List.length_reverse
    · rfl
  rw [hlen, Nat.pow_mul] at h
  rw [word_eq]
  exact h

/-- Two loads of `n` bytes, which overlap where there are fewer than `2 * n`, see every byte. -/
theorem overlapped_eq (m : Machine) {n : Nat} {a b : Bytes} (hlen : a.length = b.length)
    (hlo : n ≤ a.length) (hhi : a.length ≤ 2 * n) :
    subWord n (m.word (slice a 0 n)) (m.word (slice b 0 n)) |||
      subWord n (m.word (slice a (a.length - n) n)) (m.word (slice b (a.length - n) n)) = 0 ↔
        a = b := by
  have hsize : ∀ {c : Bytes} {pos : Nat}, c.length = a.length → pos ≤ a.length - n →
      (slice c pos n).length = n := fun hc hpos => slice_length (by omega)
  have hword : ∀ {c : Bytes} {pos : Nat}, c.length = a.length → pos ≤ a.length - n →
      m.word (slice c pos n) < 256 ^ n := by
    intro c pos hc hpos
    have h := word_lt m (slice c pos n)
    rwa [hsize hc hpos] at h
  have hpart : ∀ {pos : Nat}, pos ≤ a.length - n →
      (subWord n (m.word (slice a pos n)) (m.word (slice b pos n)) = 0 ↔
        slice a pos n = slice b pos n) := by
    intro pos hpos
    rw [subWord_eq_zero (hword rfl hpos) (hword hlen.symm hpos),
      word_inj m ((hsize rfl hpos).trans (hsize hlen.symm hpos).symm)]
  rw [Nat.or_eq_zero_iff, hpart (Nat.zero_le _), hpart (Nat.le_refl _)]
  constructor
  · rintro ⟨hfirst, hlast⟩
    apply List.ext_getElem hlen
    intro i hi hi'
    by_cases hin : i < n
    · have hget := congrArg (fun l => l[i]?) hfirst
      simpa [slice, List.getElem?_take, hin, hi, hi'] using hget
    · have hget := congrArg (fun l => l[i - (a.length - n)]?) hlast
      have hoff : i - (a.length - n) < n := by omega
      have hidx : a.length - n + (i - (a.length - n)) = i := by omega
      simpa [slice, List.getElem?_take, hoff, hidx, hi, hi'] using hget
  · rintro rfl
    exact ⟨rfl, rfl⟩

theorem eqFastSlowpath_iff (m : Machine) {a b : Bytes} (hlen : a.length = b.length) :
    eqFastSlowpath m a b a.length = true ↔ a = b := by
  unfold eqFastSlowpath
  by_cases hlong : 3 < a.length
  · rw [if_pos hlong]
    by_cases hfour : 4 ≤ m.unalignedOk ∧ a.length < 9
    · rw [if_pos hfour, decide_eq_true_iff, unalignedPeekU32_eq m 1 (by omega),
        unalignedPeekU32_eq m 1 (by omega), unalignedPeekU32_eq m 1 (by omega),
        unalignedPeekU32_eq m 1 (by omega)]
      exact overlapped_eq m hlen (by omega) (by omega)
    · rw [if_neg hfour]
      by_cases height : 8 ≤ m.unalignedOk ∧ m.wide = true ∧ a.length < 17
      · have hnine : 9 ≤ a.length := by
          by_contra hlt
          exact hfour ⟨by omega, by omega⟩
        rw [if_pos height, decide_eq_true_iff, unalignedPeekU64_eq m 1 (by omega),
          unalignedPeekU64_eq m 1 (by omega), unalignedPeekU64_eq m 1 (by omega),
          unalignedPeekU64_eq m 1 (by omega)]
        exact overlapped_eq m hlen (by omega) (by omega)
      · rw [if_neg height, decide_eq_true_iff, List.take_length, hlen, List.take_length]
        exact memcmp_eq_zero hlen
  · rw [if_neg hlong]
    by_cases hzero : a.length = 0
    · have hnil : a = [] := List.length_eq_zero_iff.mp hzero
      have hnil' : b = [] := List.length_eq_zero_iff.mp (by omega)
      rw [if_neg (by simpa using hzero), hnil, hnil']
      simp only
    · have hlt := tail3le_lt_iff (a := a) (b := b) (i := 0) (j := 0) hzero (by omega) (by omega)
        (by omega)
      have hgt := tail3le_lt_iff (a := b) (b := a) (i := 0) (j := 0) hzero (by omega) (by omega)
        (by omega)
      have hwhole : slice b 0 a.length = b := by rw [hlen]; exact slice_whole b
      rw [slice_whole, hwhole] at hlt hgt
      rw [if_pos hzero, decide_eq_true_iff]
      constructor
      · intro heq
        have hcodes : codes a.reverse = codes b.reverse :=
          le_antisymm (not_lt.mp fun h => by have := hgt.mpr h; omega)
            (not_lt.mp fun h => by have := hlt.mpr h; omega)
        exact List.reverse_inj.mp (codes_injective hcodes)
      · rintro rfl
        rfl

theorem eqFast_iff (m : Machine) (a b : Bytes) : eqFast m a b = true ↔ a = b := by
  unfold eqFast
  rw [decide_eq_true_iff]
  constructor
  · rintro ⟨hlen, hfast⟩
    exact (eqFastSlowpath_iff m hlen).mp hfast
  · rintro rfl
    exact ⟨rfl, (eqFastSlowpath_iff m rfl).mpr rfl⟩

/-! ## 7. The comparators together -/

theorem codes_reverse_injective : Function.Injective fun a : Bytes => codes a.reverse :=
  fun _ _ h => List.reverse_inj.mp (codes_injective h)

theorem lengthCodes_injective : Function.Injective lengthCodes :=
  fun _ _ h => codes_injective (congrArg (fun p => (ofLex p).2) h)

/-- Strings with lengths that fit in an `int` are ordered as `cmp_lexical`, `cmp_reverse` and
`cmp_lenfast` say they are; integers of one size are ordered by their values. -/
theorem comparators_total (m : Machine) :
    (OrderedBy short cmpLexical codes ∧ TotalOn short cmpLexical) ∧
    (OrderedBy short (cmpReverse m) (fun a => codes a.reverse) ∧ TotalOn short (cmpReverse m)) ∧
    (OrderedBy short cmpLenfast lengthCodes ∧ TotalOn short cmpLenfast) ∧
    (∀ cmp ∈ comparators32 m, OrderedBy (strings 4) cmp m.word ∧ TotalOn (strings 4) cmp) ∧
    (∀ cmp ∈ comparators64 m, OrderedBy (strings 8) cmp m.word ∧ TotalOn (strings 8) cmp) ∧
    ∀ a b, eqFast m a b = true ↔ a = b := by
  refine ⟨⟨cmpLexical_ordered, ?_⟩, ⟨cmpReverse_ordered m, ?_⟩, ⟨cmpLenfast_ordered, ?_⟩,
    fun cmp hcmp => ?_, fun cmp hcmp => ?_, eqFast_iff m⟩
  · exact cmpLexical_ordered.total codes_injective.injOn
  · exact (cmpReverse_ordered m).total codes_reverse_injective.injOn
  · exact cmpLenfast_ordered.total lengthCodes_injective.injOn
  · have hord := comparators32_ordered hcmp
    exact ⟨hord, hord.total (word_injOn m 4)⟩
  · have hord := comparators64_ordered hcmp
    exact ⟨hord, hord.total (word_injOn m 8)⟩

def little64 : Machine := ⟨true, false, 8, false⟩

theorem comparators_total_little : TotalOn (strings 4) (cmpUintAlign2 little64) ∧
    (cmpReverse little64 [9, 1] [8, 2] < 0 ↔ codes [1, 9] < codes [2, 8]) := by
  have h := comparators_total little64
  have hmem : cmpUintAlign2 little64 ∈ comparators32 little64 :=
    List.mem_cons_of_mem _ List.mem_cons_self
  have hshort : ∀ a : Bytes, a.length = 2 → a ∈ short := by
    intro a ha
    change a.length ≤ intMax
    rw [ha]
    decide
  exact ⟨(h.2.2.2.1 _ hmem).2, (h.2.1.1 [9, 1] (hshort _ rfl) [8, 2] (hshort _ rfl)).lt⟩

/-- Strings of 2^32 bytes and of none have the same length as an `int`, and integers of different
sizes are not compared at all. -/
theorem unequal_compare_equal :
    (List.replicate (2 ^ 32) (0 : UInt8) ≠ [] ∧
      cmpLexical (List.replicate (2 ^ 32) 0) [] = 0 ∧
      cmpReverse little64 (List.replicate (2 ^ 32) 0) [] = 0) ∧
    (List.replicate 4 (0 : UInt8) ≠ List.replicate 8 0 ∧
      cmpUintUnaligned little64 (List.replicate 4 0) (List.replicate 8 0) = 0) := by
  have hlen : (List.replicate (2 ^ 32) (0 : UInt8)).length = 2 ^ 32 := List.length_replicate
  have hcast : cmpLen (2 ^ 32) 0 = 0 := by decide
  refine ⟨⟨?_, ?_, ?_⟩, by decide, by decide⟩
  · intro h
    rw [h] at hlen
    exact absurd hlen (by decide)
  · unfold cmpLexical
    rw [hlen, List.length_nil]
    exact hcast
  · unfold cmpReverse
    rw [hlen, List.length_nil]
    exact hcast

end Mdbx.Compare
