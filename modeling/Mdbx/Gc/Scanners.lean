import Mdbx.Gc.Sequence
import Mdbx.Lib.LaneMask

/-!
# Gc.Scanners — the variants of `scan4seq`

Over a memory in which a word can be read or not.  A pointer is the index of a word of 4 bytes, so
`range` is the last word of the list, and the words above `detent` can be the low end of a run.  The
vector variants end with a look at words before the list, in the page of a word of the list.
-/

namespace Mdbx.Scan4seq

open Gc (sub32 hit LastAt FoursAt add_false lastAt_self)
open LaneMask

/-- The words of 4 bytes that can be read. -/
abbrev Memory := Nat → Option Nat

/-- `range[-k] - range[offset - k] == target` -/
def diffEq (m : Memory) (seq i : Nat) : Option Bool := do
  let f ← m i
  let l ← m (i - seq)
  pure (decide (sub32 f l = sub32 0 seq))

/-! ## 1. Without vectors -/

/-- The first loop of `scan4seq_fallback`; all differences are there before the first comparison. -/
def foursLoop (m : Memory) (seq detent : Nat) : Nat → Option (Nat ⊕ Nat)
  | range + 4 => do
      let diff0 ← diffEq m seq (range + 4)
      let diff1 ← diffEq m seq (range + 3)
      let diff2 ← diffEq m seq (range + 2)
      let diff3 ← diffEq m seq (range + 1)
      if diff0 then pure (.inl (range + 4))
      else if diff1 then pure (.inl (range + 3))
      else if diff2 then pure (.inl (range + 2))
      else if diff3 then pure (.inl (range + 1))
      else if range > detent + 3 then foursLoop m seq detent range
      else pure (.inr range)
  | _ => none

/-- `do if (*range - range[offset] == target) return range; while (again(--range))` -/
def doOnes (again : Nat → Bool) (m : Memory) (seq : Nat) : Nat → Option (Option Nat)
  | range + 1 => do
      if ← diffEq m seq (range + 1) then pure (some (range + 1))
      else if again range then doOnes again m seq range
      else pure none
  | 0 => none

def scan4seqFallback (m : Memory) (range len seq : Nat) : Option (Option Nat) := do
  let detent := range + seq - len
  if len > seq + 3 then
    match ← foursLoop m seq detent range with
    | .inl found => pure (some found)
    | .inr range =>
        if range = detent then pure none
        else doOnes (fun range => decide (range > detent)) m seq range
  else doOnes (fun range => decide (range > detent)) m seq range

/-! ## 2. With vectors -/

/-- An unaligned load of a vector. -/
def loadu (m : Memory) (lanes ptr : Nat) : Option (List Nat) := (List.range' ptr lanes).mapM m

/-- `diffcmp2mask_…`, for a vector of so many lanes and a mask with so many bits for each lane -/
def diffcmp2mask (bits lanes : Nat) (m : Memory) (ptr seq : Nat) : Option Nat := do
  let f ← loadu m lanes ptr
  let l ← loadu m lanes (ptr - seq)
  pure (maskOf bits (List.zipWith (fun x y => decide (sub32 x y = sub32 0 seq)) f l))

/-- `__builtin_clz` and `__builtin_clzl`, of a word of that size. -/
def builtinClz (size mask : Nat) : Nat := size - 1 - Nat.log2 mask

/-- What the variants differ in. -/
structure Simd where
  lanes : Nat
  bits : Nat
  -- `on_page_safe_mask`
  pageSafe : Nat
  -- what is returned for a mask
  found : Nat → Nat → Nat
  -- the lanes above so many
  tailMask : Nat → Nat

/-- `diffcmp2mask_…(range - (lanes - 1), offset, pattern)` -/
def maskAt (v : Simd) (m : Memory) (seq range : Nat) : Option Nat :=
  diffcmp2mask v.bits v.lanes m (range - (v.lanes - 1)) seq

/-- The first loop, with as many rounds as there are words at most. -/
def wideLoop (v : Simd) (m : Memory) (seq detent : Nat) : Nat → Nat → Option (Nat ⊕ Nat)
  | 0, _ => none
  | fuel + 1, range => do
      let mask ← maskAt v m seq range
      if mask ≠ 0 then pure (.inl (v.found range mask))
      else if range - v.lanes > detent + (v.lanes - 1) then
        wideLoop v m seq detent fuel (range - v.lanes)
      else pure (.inr (range - v.lanes))

/-- What is left: one more vector if its words are in the page of a word of the list. -/
def wideTail (v : Simd) (epilogue : Nat → Option (Option Nat)) (careful : Bool) (m : Memory)
    (seq detent range : Nat) : Option (Option Nat) :=
  if ¬ careful ∧ v.pageSafe &&& (4 * (range - seq)) ≠ 0 then do
    let extra := detent + v.lanes - range
    let mask ← maskAt v m seq range
    let mask := v.tailMask extra &&& mask
    pure (if mask ≠ 0 then some (v.found range mask) else none)
  else epilogue range

/-- A vector variant; `careful` with `ENABLE_MEMCHECK`, under a sanitizer and on Valgrind. -/
def scanWide (v : Simd) (epilogue : Memory → Nat → Nat → Nat → Option (Option Nat)) (careful : Bool)
    (m : Memory) (range len seq : Nat) : Option (Option Nat) := do
  let detent := range + seq - len
  if len > seq + (v.lanes - 1) then
    match ← wideLoop v m seq detent len range with
    | .inl found => pure (some found)
    | .inr range =>
        if range = detent then pure none
        else wideTail v (epilogue m seq detent) careful m seq detent range
  else wideTail v (epilogue m seq detent) careful m seq detent range

/-- `while (--range != detent)` -/
def untilOnes (m : Memory) (seq detent range : Nat) : Option (Option Nat) :=
  doOnes (fun range => decide (range ≠ detent)) m seq range

/-- `while (range > detent)` -/
def whileOnes (m : Memory) (seq detent : Nat) : Nat → Option (Option Nat)
  | range + 1 =>
      if range + 1 > detent then do
        if ← diffEq m seq (range + 1) then pure (some (range + 1)) else whileOnes m seq detent range
      else pure none
  | 0 => pure none

/-- One vector of half the size, if there are as many words. -/
def narrower (v : Simd) (rest : Memory → Nat → Nat → Nat → Option (Option Nat)) (m : Memory)
    (seq detent range : Nat) : Option (Option Nat) := do
  if range > detent + (v.lanes - 1) then
    let mask ← maskAt v m seq range
    if mask ≠ 0 then pure (some (v.found range mask)) else rest m seq detent (range - v.lanes)
  else rest m seq detent range

def sse2 : Simd where
  lanes := 4
  bits := 1
  pageSafe := 0xff0
  found := fun range mask => range + 28 - builtinClz 32 mask
  tailMask := fun extra => (0xF <<< extra) % 2 ^ 8

def avx2 : Simd where
  lanes := 8
  bits := 1
  pageSafe := 0xfe0
  found := fun range mask => range + 24 - builtinClz 32 mask
  tailMask := fun extra => (0xFF <<< extra) % 2 ^ 8

def avx512bw : Simd where
  lanes := 16
  bits := 1
  pageSafe := 0xfc0
  found := fun range mask => range + 16 - builtinClz 32 mask
  tailMask := fun extra => (0xFFFF <<< extra) % 2 ^ 32

/-- Two widths of `size_t`, and of `long` with it; the pointer is moved by bytes. -/
inductive SizeBits where
  | wide
  | narrow

def SizeBits.bits : SizeBits → Nat
  | wide => 64
  | narrow => 32

def neon (w : SizeBits) : Simd where
  lanes := 4
  bits := w.bits / 4
  pageSafe := 0xff0
  found := fun range mask => (4 * range - (builtinClz w.bits mask >>> (w.bits / 32))) / 4
  tailMask := fun extra => ((2 ^ w.bits - 1) <<< (extra * (w.bits / 4))) % 2 ^ w.bits

def scan4seqSse2 := scanWide sse2 untilOnes
def scan4seqAvx2 := scanWide avx2 (narrower sse2 whileOnes)
def scan4seqAvx512bw := scanWide avx512bw (narrower avx2 (narrower sse2 whileOnes))
def scan4seqNeon (w : SizeBits) := scanWide (neon w) untilOnes

/-! ## 3. Masks -/

/-- The words of a memory, where they can be read. -/
def cells (m : Memory) (i : Nat) : Nat := (m i).getD 0

/-- The word and the one `seq` words before it, for each index up to `hi`. -/
def Reads (m : Memory) (seq lo hi : Nat) : Prop :=
  ∀ i, lo < i → i ≤ hi → (m i).isSome ∧ (m (i - seq)).isSome

section Masks

variable {m : Memory} {v : Simd} {seq range lo hi detent lanes bits ptr : Nat}

theorem read_eq {i : Nat} (h : (m i).isSome) : m i = some (cells m i) := by
  unfold cells
  obtain ⟨x, hx⟩ := Option.isSome_iff_exists.mp h
  rw [hx]
  rfl

theorem Reads.mono {lo' hi' : Nat} (h : Reads m seq lo hi) (hlo : lo ≤ lo') (hhi : hi' ≤ hi) :
    Reads m seq lo' hi' :=
  fun i hi₁ hi₂ => h i (by omega) (by omega)

theorem Reads.diffEq (h : Reads m seq lo hi) {i : Nat} (hlo : lo < i) (hhi : i ≤ hi) :
    diffEq m seq i = some (hit (cells m) seq i) := by
  obtain ⟨hf, hl⟩ := h i hlo hhi
  unfold Scan4seq.diffEq
  rw [read_eq hf, read_eq hl]
  rfl

theorem loadu_eq (h : ∀ j, j < lanes → (m (ptr + j)).isSome) :
    loadu m lanes ptr = some ((List.range' ptr lanes).map (cells m)) := by
  unfold loadu
  induction lanes generalizing ptr with
  | zero => rfl
  | succ lanes ih =>
    have hfirst := read_eq (h 0 (by omega))
    rw [Nat.add_zero] at hfirst
    rw [List.range'_succ, List.mapM_cons, hfirst, ih fun j hj => by
      rw [show ptr + 1 + j = ptr + (j + 1) by omega]
      exact h (j + 1) (by omega)]
    rfl

theorem diffcmp2mask_marks (hbits : 0 < bits) (hseq : seq ≤ ptr)
    (hf : ∀ j, j < lanes → (m (ptr + j)).isSome)
    (hl : ∀ j, j < lanes → (m (ptr - seq + j)).isSome) :
    ∃ mask, diffcmp2mask bits lanes m ptr seq = some mask ∧
      Marks bits mask fun j => decide (j < lanes) && hit (cells m) seq (ptr + j) := by
  unfold diffcmp2mask
  rw [loadu_eq hf, loadu_eq hl]
  refine ⟨_, rfl, (marks_maskOf hbits _).congr fun j => ?_⟩
  rw [List.range'_eq_map_range, List.range'_eq_map_range, List.map_map, List.map_map,
    List.zipWith_map, List.zipWith_self]
  by_cases hj : j < lanes
  · rw [List.getD_eq_getElem _ _ (by rw [List.length_map, List.length_range]; exact hj),
      List.getElem_map, List.getElem_range, decide_eq_true hj, Bool.true_and]
    unfold hit
    rw [show ptr + j - seq = ptr - seq + j by omega]
    rfl
  · rw [List.getD_eq_default _ _ (by rw [List.length_map, List.length_range]; omega),
      decide_eq_false hj, Bool.false_and]

/-- What the proofs need of a variant. -/
structure Sound (v : Simd) : Prop where
  lanes_pos : 0 < v.lanes
  bits_pos : 0 < v.bits
  found_eq : ∀ {range mask lane : Nat}, v.lanes ≤ range + 1 → lane < v.lanes →
    Nat.log2 mask = v.bits * lane + (v.bits - 1) →
    v.found range mask = range - (v.lanes - 1) + lane
  tail_eq : ∀ {extra i : Nat}, extra < v.lanes → i / v.bits < v.lanes →
    (v.tailMask extra).testBit i = decide (extra ≤ i / v.bits)
  page : ∀ {a : Nat}, v.pageSafe &&& a ≠ 0 → 4 * v.lanes ≤ a % 4096

-- the lanes of the vector that ends with a word
theorem maskAt_marks (hv : Sound v) (hin : seq + v.lanes ≤ range)
    (h : Reads m seq (range - v.lanes) range) :
    ∃ mask, maskAt v m seq range = some mask ∧
      Marks v.bits mask fun j => decide (j < v.lanes) &&
        hit (cells m) seq (range - (v.lanes - 1) + j) := by
  have hpos := hv.lanes_pos
  refine diffcmp2mask_marks hv.bits_pos (by omega) (fun j hj => ?_) fun j hj => ?_
  · exact (h _ (by omega) (by omega)).1
  · rw [show range - (v.lanes - 1) - seq + j = range - (v.lanes - 1) + j - seq by omega]
    exact (h _ (by omega) (by omega)).2

/-- No lane: nothing among the words of the vector. -/
theorem marks_none (hv : Sound v) {mask : Nat} {q : Nat → Bool}
    (h : Marks v.bits mask fun j => q j && (decide (j < v.lanes) &&
      hit (cells m) seq (range - (v.lanes - 1) + j))) (hzero : mask = 0) :
    ∀ i, range - v.lanes < i → i ≤ range → q (i - (range - (v.lanes - 1))) = true →
      hit (cells m) seq i = false := by
  intro i hlo hhi hq
  have hpos := hv.lanes_pos
  have hnone := h.none hv.bits_pos hzero (i - (range - (v.lanes - 1)))
  rw [hq, Bool.true_and, decide_eq_true (by omega), Bool.true_and,
    show range - (v.lanes - 1) + (i - (range - (v.lanes - 1))) = i by omega] at hnone
  exact hnone

/-- The last lane is the last of the words that counts. -/
theorem marks_found (hv : Sound v) (hin : v.lanes ≤ range) {mask : Nat} {q : Nat → Bool}
    (h : Marks v.bits mask fun j => q j && (decide (j < v.lanes) &&
      hit (cells m) seq (range - (v.lanes - 1) + j))) (hne : mask ≠ 0)
    (hq : ∀ i, lo < i → i ≤ range → range - v.lanes < i ∧ q (i - (range - (v.lanes - 1))) = true)
    (hlo : ∀ j, q j = true → j < v.lanes → lo < range - (v.lanes - 1) + j) :
    LastAt (hit (cells m) seq) lo range (some (v.found range mask)) := by
  have hpos := hv.lanes_pos
  obtain ⟨hlast, hafter⟩ := h.last hv.bits_pos hne
  have hlog := h.log2_eq hv.bits_pos hne
  generalize Nat.log2 mask / v.bits = lane at hlast hafter hlog
  rw [Bool.and_eq_true, Bool.and_eq_true, decide_eq_true_eq] at hlast
  obtain ⟨hqlane, hlane, hhit⟩ := hlast
  rw [hv.found_eq (by omega) hlane hlog]
  refine ⟨hlo lane hqlane hlane, by omega, hhit, fun i hi hhi => ?_⟩
  have hbefore := hlo lane hqlane hlane
  obtain ⟨hin', hqi⟩ := hq i (by omega) hhi
  have hnone := hafter (i - (range - (v.lanes - 1))) (by omega)
  rw [hqi, Bool.true_and, decide_eq_true (by omega), Bool.true_and,
    show range - (v.lanes - 1) + (i - (range - (v.lanes - 1))) = i by omega] at hnone
  exact hnone

end Masks

/-! ## 4. The loops -/

section Loops

variable {m : Memory} {v : Simd} {seq range detent : Nat}

theorem lastAt_lower {p : Nat → Bool} {lo lo' hi t : Nat} (h : LastAt p lo hi (some t))
    (hle : lo' ≤ lo) : LastAt p lo' hi (some t) :=
  ⟨Nat.lt_of_le_of_lt hle h.1, h.2⟩

-- the equations of the loops, for comparisons that have been made
theorem doOnes_succ {again : Nat → Bool} {b : Bool} (h : diffEq m seq (range + 1) = some b) :
    doOnes again m seq (range + 1) = if b then some (some (range + 1))
      else if again range then doOnes again m seq range else some none := by
  rw [doOnes, h]
  rfl

theorem whileOnes_succ {b : Bool} (hlt : range + 1 > detent)
    (h : diffEq m seq (range + 1) = some b) :
    whileOnes m seq detent (range + 1) = if b then some (some (range + 1))
      else whileOnes m seq detent range := by
  rw [whileOnes, if_pos hlt, h]
  rfl

theorem foursLoop_add_four {b0 b1 b2 b3 : Bool} (h0 : diffEq m seq (range + 4) = some b0)
    (h1 : diffEq m seq (range + 3) = some b1) (h2 : diffEq m seq (range + 2) = some b2)
    (h3 : diffEq m seq (range + 1) = some b3) :
    foursLoop m seq detent (range + 4) = if b0 then some (.inl (range + 4))
      else if b1 then some (.inl (range + 3)) else if b2 then some (.inl (range + 2))
      else if b3 then some (.inl (range + 1))
      else if range > detent + 3 then foursLoop m seq detent range else some (.inr range) := by
  rw [foursLoop, h0, h1, h2, h3]
  rfl

/-- A loop over single words that goes on above `detent`. -/
theorem doOnes_lastAt {again : Nat → Bool}
    (hagain : ∀ i, detent ≤ i → again i = decide (detent < i)) : ∀ {range : Nat}, detent < range →
    Reads m seq detent range →
    ∃ r, doOnes again m seq range = some r ∧ LastAt (hit (cells m) seq) detent range r
  | range + 1, hlt, hreads => by
    rw [doOnes_succ (hreads.diffEq hlt (Nat.le_refl _))]
    by_cases hh : hit (cells m) seq (range + 1) = true
    · rw [if_pos hh]
      exact ⟨_, rfl, lastAt_self hlt hh⟩
    · have hno : ∀ i, range < i → i ≤ range + 1 → hit (cells m) seq i = false :=
        add_false (eq_false_of_ne_true hh) fun i hlo hhi => absurd hhi (by omega)
      rw [if_neg hh, hagain range (by omega)]
      by_cases hd : detent < range
      · rw [if_pos (decide_eq_true hd)]
        obtain ⟨r, hr, hlast⟩ := doOnes_lastAt hagain hd (hreads.mono (le_refl _) (Nat.le_succ _))
        exact ⟨r, hr, hlast.extend (Nat.le_succ _) hno⟩
      · rw [if_neg (by rw [decide_eq_true_eq]; exact hd)]
        exact ⟨none, rfl, fun i hlo hhi => hno i (by omega) hhi⟩

theorem whileOnes_lastAt : ∀ {range : Nat}, Reads m seq detent range →
    ∃ r, whileOnes m seq detent range = some r ∧ LastAt (hit (cells m) seq) detent range r
  | 0, _ => ⟨none, rfl, fun i hlo hhi => absurd hlo (by omega)⟩
  | range + 1, hreads => by
    by_cases hlt : range + 1 > detent
    · rw [whileOnes_succ hlt (hreads.diffEq hlt (Nat.le_refl _))]
      by_cases hh : hit (cells m) seq (range + 1) = true
      · rw [if_pos hh]
        exact ⟨_, rfl, lastAt_self hlt hh⟩
      · have hno : ∀ i, range < i → i ≤ range + 1 → hit (cells m) seq i = false :=
          add_false (eq_false_of_ne_true hh) fun i hlo hhi => absurd hhi (by omega)
        obtain ⟨r, hr, hlast⟩ := whileOnes_lastAt (hreads.mono (le_refl _) (Nat.le_succ _))
        rw [if_neg hh]
        exact ⟨r, hr, hlast.extend (Nat.le_succ _) hno⟩
    · rw [whileOnes, if_neg hlt]
      exact ⟨none, rfl, fun i hlo hhi => absurd hhi (by omega)⟩

/-- The loop over four words is the one of the list alone. -/
theorem foursLoop_eq : ∀ {range : Nat}, detent + 3 < range → Reads m seq detent range →
    foursLoop m seq detent range = some (Gc.scanFours (cells m) seq detent range)
  | range + 4, hlt, hreads => by
    have hrest : (if range > detent + 3 then foursLoop m seq detent range else some (.inr range)) =
        some (if range > detent + 3 then Gc.scanFours (cells m) seq detent range
          else .inr range) := by
      by_cases hd : range > detent + 3
      · rw [if_pos hd, if_pos hd, foursLoop_eq hd (hreads.mono (le_refl _) (by omega))]
      · rw [if_neg hd, if_neg hd]
    rw [foursLoop_add_four (hreads.diffEq (by omega) (by omega))
      (hreads.diffEq (by omega) (by omega)) (hreads.diffEq (by omega) (by omega))
      (hreads.diffEq (by omega) (by omega)), hrest, Gc.scanFours]
    simp only [apply_ite some]

/-- A vector whose words are all above `detent`. -/
theorem round_spec (hv : Sound v) (hseq : seq ≤ detent) (hlt : detent + (v.lanes - 1) < range)
    (hreads : Reads m seq detent range) :
    ∃ mask, maskAt v m seq range = some mask ∧
      (mask ≠ 0 → LastAt (hit (cells m) seq) detent range (some (v.found range mask))) ∧
      (mask = 0 → ∀ i, range - v.lanes < i → i ≤ range → hit (cells m) seq i = false) := by
  have hpos := hv.lanes_pos
  obtain ⟨mask, hmask, hmarks⟩ := maskAt_marks hv (show seq + v.lanes ≤ range by omega)
    (hreads.mono (by omega) (le_refl _))
  have hall : Marks v.bits mask fun j => true && (decide (j < v.lanes) &&
      hit (cells m) seq (range - (v.lanes - 1) + j)) := by
    intro i
    rw [hmarks i]
    exact (Bool.true_and _).symm
  refine ⟨mask, hmask, fun hne => ?_, fun hzero i hlo hhi => ?_⟩
  · have hfound : LastAt (hit (cells m) seq) (range - v.lanes) range (some (v.found range mask)) :=
      marks_found hv (by omega) hall hne (fun i hi _ => ⟨hi, rfl⟩) fun j _ _ => by omega
    exact lastAt_lower hfound (by omega)
  · exact marks_none hv hall hzero i hlo hhi rfl

theorem wideLoop_spec (hv : Sound v) (hseq : seq ≤ detent) : ∀ {fuel range : Nat},
    detent + (v.lanes - 1) < range → range ≤ detent + fuel → Reads m seq detent range →
    ∃ r, wideLoop v m seq detent fuel range = some r ∧
      FoursAt (hit (cells m) seq) detent range r ∧ ∀ rest, r = .inr rest → rest < detent + v.lanes
  | 0, range, hlt, hfuel, _ => by omega
  | fuel + 1, range, hlt, hfuel, hreads => by
    have hpos := hv.lanes_pos
    obtain ⟨mask, hmask, hfound, hnone⟩ := round_spec hv hseq hlt hreads
    unfold wideLoop
    rw [hmask]
    simp only [Option.bind_eq_bind, Option.bind_some]
    by_cases hne : mask ≠ 0
    · rw [if_pos hne]
      exact ⟨_, rfl, hfound hne, fun rest hrest => by cases hrest⟩
    · rw [if_neg hne]
      have hno := hnone (not_not.mp hne)
      by_cases hd : range - v.lanes > detent + (v.lanes - 1)
      · rw [if_pos hd]
        obtain ⟨r, hr, hat, hrest⟩ := wideLoop_spec hv hseq hd (show _ ≤ detent + fuel by omega)
          (hreads.mono (le_refl _) (by omega))
        exact ⟨r, hr, hat.extend (by omega) hno, hrest⟩
      · rw [if_neg hd]
        refine ⟨_, rfl, ⟨by omega, by omega, hno⟩, fun rest hrest => ?_⟩
        cases hrest
        omega

theorem narrower_lastAt (hv : Sound v) (hseq : seq ≤ detent)
    {rest : Memory → Nat → Nat → Nat → Option (Option Nat)}
    (hrest : ∀ range, detent ≤ range → Reads m seq detent range →
      ∃ r, rest m seq detent range = some r ∧ LastAt (hit (cells m) seq) detent range r)
    (hle : detent ≤ range) (hreads : Reads m seq detent range) :
    ∃ r, narrower v rest m seq detent range = some r ∧
      LastAt (hit (cells m) seq) detent range r := by
  have hpos := hv.lanes_pos
  unfold narrower
  by_cases hd : range > detent + (v.lanes - 1)
  · obtain ⟨mask, hmask, hfound, hnone⟩ := round_spec hv hseq hd hreads
    rw [if_pos hd, hmask]
    simp only [Option.bind_eq_bind, Option.bind_some]
    by_cases hne : mask ≠ 0
    · rw [if_pos hne]
      exact ⟨_, rfl, hfound hne⟩
    · rw [if_neg hne]
      obtain ⟨r, hr, hlast⟩ := hrest (range - v.lanes) (by omega)
        (hreads.mono (le_refl _) (by omega))
      exact ⟨r, hr, hlast.extend (by omega) (hnone (not_not.mp hne))⟩
  · rw [if_neg hd]
    exact hrest range hle hreads

/-- One more vector, of which the words up to `detent` do not count. -/
theorem wideTail_lastAt (hv : Sound v) {epilogue : Nat → Option (Option Nat)} {careful : Bool}
    (hlt : detent < range) (hfew : range < detent + v.lanes) (hseq : seq ≤ detent)
    (hreads : careful = false → 4 * v.lanes ≤ (4 * (range - seq)) % 4096 →
      Reads m seq (range - v.lanes) range)
    (hepilogue : ∃ r, epilogue range = some r ∧ LastAt (hit (cells m) seq) detent range r) :
    ∃ r, wideTail v epilogue careful m seq detent range = some r ∧
      LastAt (hit (cells m) seq) detent range r := by
  have hpos := hv.lanes_pos
  unfold wideTail
  by_cases hsafe : ¬ careful ∧ v.pageSafe &&& (4 * (range - seq)) ≠ 0
  · have hpage := hv.page hsafe.2
    obtain ⟨mask, hmask, hmarks⟩ := maskAt_marks hv (show seq + v.lanes ≤ range by omega)
      (hreads (eq_false_of_ne_true hsafe.1) hpage)
    rw [if_pos hsafe, hmask]
    simp only [Option.bind_eq_bind, Option.bind_some]
    -- the lanes of words above `detent`
    have hall := hmarks.and
      (q := fun j => decide (detent + v.lanes - range ≤ j)) fun i hi => by
        rw [Bool.and_eq_true, decide_eq_true_eq] at hi
        exact hv.tail_eq (by omega) hi.1
    by_cases hne : v.tailMask (detent + v.lanes - range) &&& mask ≠ 0
    · rw [if_pos hne]
      refine ⟨_, rfl, marks_found hv (by omega) hall hne (fun i hlo hhi => ⟨by omega, ?_⟩) fun j hj hjl => ?_⟩
      · rw [decide_eq_true_eq]
        omega
      · rw [decide_eq_true_eq] at hj
        omega
    · rw [if_neg hne]
      refine ⟨none, rfl, fun i hlo hhi => ?_⟩
      refine marks_none hv hall (not_not.mp hne) i (by omega) hhi ?_
      rw [decide_eq_true_eq]
      omega
  · rw [if_neg hsafe]
    exact hepilogue

end Loops

/-! ## 5. The variants -/

-- an address that is not in the first bytes of its page
theorem page_safe {mask low a : Nat} (hmask : mask < 2 ^ 12) (hzero : ∀ r < low, mask &&& r = 0)
    (h : mask &&& a ≠ 0) : low ≤ a % 4096 := by
  by_contra hlt
  apply h
  have hmod : (mask &&& a) % 2 ^ 12 = mask &&& a % 2 ^ 12 := by
    rw [Nat.and_mod_two_pow, Nat.mod_eq_of_lt hmask]
  rw [← Nat.mod_eq_of_lt (Nat.lt_of_le_of_lt Nat.and_le_left hmask), hmod]
  exact hzero _ (Nat.not_le.mp hlt)

theorem sse2_sound : Sound sse2 where
  lanes_pos := by decide
  bits_pos := by decide
  found_eq := fun {range mask lane} hr hl hlog => by
    change 4 ≤ range + 1 at hr
    change lane < 4 at hl
    change Nat.log2 mask = 1 * lane + 0 at hlog
    change range + 28 - (32 - 1 - Nat.log2 mask) = range - 3 + lane
    omega
  tail_eq := fun {extra i} he hi => by
    have hall : ∀ e < 4, ∀ j < 4, ((0xF <<< e) % 2 ^ 8).testBit j = decide (e ≤ j) := by decide
    change i / 1 < 4 at hi
    change _ = decide (extra ≤ i / 1)
    rw [Nat.div_one] at hi ⊢
    exact hall extra he i hi
  page := fun h => page_safe (by decide) (by decide) h

theorem avx2_sound : Sound avx2 where
  lanes_pos := by decide
  bits_pos := by decide
  found_eq := fun {range mask lane} hr hl hlog => by
    change 8 ≤ range + 1 at hr
    change lane < 8 at hl
    change Nat.log2 mask = 1 * lane + 0 at hlog
    change range + 24 - (32 - 1 - Nat.log2 mask) = range - 7 + lane
    omega
  tail_eq := fun {extra i} he hi => by
    have hall : ∀ e < 8, ∀ j < 8, ((0xFF <<< e) % 2 ^ 8).testBit j = decide (e ≤ j) := by decide
    change i / 1 < 8 at hi
    change _ = decide (extra ≤ i / 1)
    rw [Nat.div_one] at hi ⊢
    exact hall extra he i hi
  page := fun h => page_safe (by decide) (by decide) h

theorem avx512bw_sound : Sound avx512bw where
  lanes_pos := by decide
  bits_pos := by decide
  found_eq := fun {range mask lane} hr hl hlog => by
    change 16 ≤ range + 1 at hr
    change lane < 16 at hl
    change Nat.log2 mask = 1 * lane + 0 at hlog
    change range + 16 - (32 - 1 - Nat.log2 mask) = range - 15 + lane
    omega
  tail_eq := fun {extra i} he hi => by
    have hall : ∀ e < 16, ∀ j < 16, ((0xFFFF <<< e) % 2 ^ 32).testBit j = decide (e ≤ j) := by
      decide
    change i / 1 < 16 at hi
    change _ = decide (extra ≤ i / 1)
    rw [Nat.div_one] at hi ⊢
    exact hall extra he i hi
  page := fun h => page_safe (by decide) (by decide) h

-- all ones, shifted by whole lanes
theorem ones_testBit {size bits extra i : Nat} (hbits : 0 < bits) (hi : i < size) :
    (((2 ^ size - 1) <<< (extra * bits)) % 2 ^ size).testBit i = decide (extra ≤ i / bits) := by
  rw [Nat.testBit_mod_two_pow, decide_eq_true hi, Bool.true_and, Nat.testBit_shiftLeft,
    Nat.testBit_two_pow_sub_one, decide_eq_true (by omega : i - extra * bits < size), Bool.and_true]
  exact decide_eq_decide.mpr (Nat.le_div_iff_mul_le hbits).symm

theorem neon_sound (w : SizeBits) : Sound (neon w) where
  lanes_pos := Nat.succ_pos 3
  bits_pos := by cases w <;> decide
  found_eq := fun {range mask lane} hr hl hlog => by
    change 4 ≤ range + 1 at hr
    change lane < 4 at hl
    cases w with
    | wide =>
      change Nat.log2 mask = 16 * lane + 15 at hlog
      change (4 * range - (64 - 1 - Nat.log2 mask) >>> 2) / 4 = range - 3 + lane
      rw [Nat.shiftRight_eq_div_pow]
      omega
    | narrow =>
      change Nat.log2 mask = 8 * lane + 7 at hlog
      change (4 * range - (32 - 1 - Nat.log2 mask) >>> 1) / 4 = range - 3 + lane
      rw [Nat.shiftRight_eq_div_pow]
      omega
  tail_eq := fun {extra i} he hi => by
    cases w with
    | wide =>
      have hi' : i / 16 < 4 := hi
      exact ones_testBit (by decide : 0 < 16) (by omega : i < 64)
    | narrow =>
      have hi' : i / 8 < 4 := hi
      exact ones_testBit (by decide : 0 < 8) (by omega : i < 32)
  page := fun {a} h => by
    have hmask : 0xff0 &&& a ≠ 0 := h
    change 16 ≤ a % 4096
    exact page_safe (by decide) (by decide) hmask

/-! ## 6. One answer -/

/-- A descending list of 32-bit words that ends at `range`. -/
structure Descending (m : Memory) (range len : Nat) : Prop where
  inside : len ≤ range
  held : ∀ i, range - len < i → i ≤ range → ∃ p, m i = some p ∧ p < 2 ^ 32
  strict : ∀ i j p q, range - len < i → i < j → j ≤ range → m i = some p → m j = some q → q < p

/-- The words of a page of 4096 bytes that holds a word of the list can be read, those before the
list up to `before` words from it. -/
def PageHeld (m : Memory) (range len before : Nat) : Prop :=
  ∀ i j, range - len < i → i ≤ range → j / 1024 = i / 1024 → range - len < j + before → (m j).isSome

/-- The word `seq` places further holds the page number that is larger by `seq`. -/
def Follows (m : Memory) (seq i : Nat) : Prop := ∃ p, m i = some p ∧ m (i - seq) = some (p + seq)

/-- The place of `(lo, hi]` next to the tail at which it does, if there is one. -/
def Nearest (m : Memory) (seq lo hi : Nat) : Option Nat → Prop
  | none => ∀ i, lo < i → i ≤ hi → ¬ Follows m seq i
  | some t => lo < t ∧ t ≤ hi ∧ Follows m seq t ∧ ∀ i, t < i → i ≤ hi → ¬ Follows m seq i

section Agree

variable {m : Memory} {range len seq : Nat}

-- at least as far apart as their places
theorem Descending.gap (h : Descending m range len) {i : Nat} (hi : i ≤ range) :
    ∀ k, range - len + k < i → cells m i + k ≤ cells m (i - k)
  | 0, _ => Nat.le_refl _
  | k + 1, hk => by
    have ih := h.gap hi k (by omega)
    obtain ⟨p, hp, -⟩ := h.held (i - (k + 1)) (by omega) (by omega)
    obtain ⟨q, hq, -⟩ := h.held (i - k) (by omega) (by omega)
    have hlt := h.strict (i - (k + 1)) (i - k) p q (by omega) (by omega) (by omega) hp hq
    unfold cells at ih ⊢
    rw [hq, Option.getD_some] at ih
    rw [hp, Option.getD_some]
    omega

theorem Descending.hit_iff (h : Descending m range len) {i : Nat} (hpos : 0 < seq)
    (hlo : range - len + seq < i) (hi : i ≤ range) :
    hit (cells m) seq i = true ↔ Follows m seq i := by
  have hgap := h.gap hi seq hlo
  obtain ⟨p, hp, hp32⟩ := h.held i (by omega) hi
  obtain ⟨q, hq, hq32⟩ := h.held (i - seq) (by omega) (by omega)
  have hcp : cells m i = p := by
    unfold cells
    rw [hp, Option.getD_some]
  have hcq : cells m (i - seq) = q := by
    unfold cells
    rw [hq, Option.getD_some]
  have hf : Follows m seq i ↔ q = p + seq := by
    unfold Follows
    rw [hp, hq]
    constructor
    · rintro ⟨x, hx, hy⟩
      rw [Option.some.inj hx]
      exact Option.some.inj hy
    · intro heq
      exact ⟨p, rfl, by rw [heq]⟩
  rw [hcp, hcq] at hgap
  unfold hit
  rw [hf, hcp, hcq, decide_eq_true_eq, Gc.sub32_of_lt (by omega) hq32,
    Gc.sub32_of_lt hpos (by omega)]
  omega

theorem Descending.nearest (h : Descending m range len) (hpos : 0 < seq) {r : Option Nat}
    (hr : LastAt (hit (cells m) seq) (range - len + seq) range r) :
    Nearest m seq (range - len + seq) range r := by
  have hno : ∀ i, range - len + seq < i → i ≤ range → hit (cells m) seq i = false →
      ¬ Follows m seq i := by
    intro i hlo hhi hfalse hfollows
    rw [(h.hit_iff hpos hlo hhi).mpr hfollows] at hfalse
    exact Bool.noConfusion hfalse
  cases r with
  | none => exact fun i hlo hhi => hno i hlo hhi (hr i hlo hhi)
  | some t =>
    obtain ⟨hlo, hhi, hhit, hafter⟩ := hr
    exact ⟨hlo, hhi, (h.hit_iff hpos hlo hhi).mp hhit,
      fun i hti hi => hno i (Nat.lt_trans hlo hti) hi (hafter i hti hi)⟩

-- there is one answer
theorem Nearest.unique {lo hi : Nat} {r s : Option Nat} (hr : Nearest m seq lo hi r)
    (hs : Nearest m seq lo hi s) : r = s := by
  cases r with
  | none =>
    cases s with
    | none => rfl
    | some t => exact absurd hs.2.2.1 (hr t hs.1 hs.2.1)
  | some t =>
    cases s with
    | none => exact absurd hr.2.2.1 (hs t hr.1 hr.2.1)
    | some u =>
      rcases Nat.lt_trichotomy t u with hlt | heq | hlt
      · exact absurd hs.2.2.1 (hr.2.2.2 u hlt hs.2.1)
      · rw [heq]
      · exact absurd hr.2.2.1 (hs.2.2.2 t hlt hr.2.1)

theorem Descending.reads (h : Descending m range len) :
    Reads m seq (range - len + seq) range := by
  intro i hlo hhi
  obtain ⟨p, hp, -⟩ := h.held i (by omega) hhi
  obtain ⟨q, hq, -⟩ := h.held (i - seq) (by omega) (by omega)
  rw [hp, hq]
  exact ⟨rfl, rfl⟩

/-- The words before the list that the last vector takes are in the page of a word of the list. -/
theorem Descending.readsPage (h : Descending m range len) {top n : Nat}
    (hpage : PageHeld m range len (n - 1)) (hlo : range - len + seq < top) (hhi : top ≤ range)
    (hsafe : 4 * n ≤ (4 * (top - seq)) % 4096) : Reads m seq (top - n) top := by
  have hmem : ∀ j, top - seq - n < j → j ≤ range → (m j).isSome := by
    intro j hj hjr
    by_cases hin : range - len < j
    · obtain ⟨p, hp, -⟩ := h.held j hin hjr
      rw [hp]
      rfl
    · exact hpage (top - seq) j (by omega) (by omega) (by omega) (by omega)
  exact fun i hi₁ hi₂ => ⟨hmem i (by omega) (by omega), hmem (i - seq) (by omega) (by omega)⟩

theorem scan4seqFallback_lastAt (h : Descending m range len) (hlt : seq < len) :
    ∃ r, scan4seqFallback m range len seq = some r ∧
      LastAt (hit (cells m) seq) (range - len + seq) range r := by
  have hdetent : range + seq - len = range - len + seq := by
    have := h.inside
    omega
  have hagain : ∀ i, range - len + seq ≤ i →
      decide (i > range - len + seq) = decide (range - len + seq < i) := fun i _ => rfl
  have hinside := h.inside
  unfold scan4seqFallback
  simp only [Option.bind_eq_bind, Option.pure_def]
  rw [hdetent]
  by_cases hlen : len > seq + 3
  · have hfours : FoursAt (hit (cells m) seq) (range - len + seq) range
        (Gc.scanFours (cells m) seq (range - len + seq) range) :=
      Gc.scanFours_foursAt (by omega)
    rw [if_pos hlen, foursLoop_eq (by omega) h.reads, Option.bind_some]
    cases hr : Gc.scanFours (cells m) seq (range - len + seq) range with
    | inl found =>
      rw [hr] at hfours
      exact ⟨_, rfl, hfours⟩
    | inr rest =>
      rw [hr] at hfours
      by_cases hd : rest = range - len + seq
      · simp only [if_pos hd]
        exact ⟨none, rfl, fun i hlo hhi => hfours.2.2 i (by omega) hhi⟩
      · simp only [if_neg hd]
        obtain ⟨r, hrun, hlast⟩ := doOnes_lastAt hagain (show range - len + seq < rest by
          have := hfours.1
          omega) (h.reads.mono (le_refl _) hfours.2.1)
        exact ⟨r, hrun, hlast.extend hfours.2.1 hfours.2.2⟩
  · rw [if_neg hlen]
    exact doOnes_lastAt hagain (by omega) h.reads

/-- Any vector variant with an epilogue that finds the last place. -/
theorem scanWide_lastAt {v : Simd} (hv : Sound v)
    {epilogue : Memory → Nat → Nat → Nat → Option (Option Nat)} {careful : Bool}
    (h : Descending m range len) (hlt : seq < len)
    (hpage : careful = false → PageHeld m range len (v.lanes - 1))
    (hepilogue : ∀ top, range - len + seq < top → Reads m seq (range - len + seq) top →
      ∃ r, epilogue m seq (range - len + seq) top = some r ∧
        LastAt (hit (cells m) seq) (range - len + seq) top r) :
    ∃ r, scanWide v epilogue careful m range len seq = some r ∧
      LastAt (hit (cells m) seq) (range - len + seq) range r := by
  have hinside := h.inside
  have hpos := hv.lanes_pos
  have hdetent : range + seq - len = range - len + seq := by omega
  -- the part below the last whole vector
  have htail : ∀ top, range - len + seq < top → top < range - len + seq + v.lanes → top ≤ range →
      ∃ r, wideTail v (epilogue m seq (range - len + seq)) careful m seq (range - len + seq) top =
        some r ∧ LastAt (hit (cells m) seq) (range - len + seq) top r := by
    intro top hlo hfew hhi
    exact wideTail_lastAt hv hlo hfew (by omega)
      (fun hcareful hsafe => h.readsPage (hpage hcareful) hlo hhi hsafe)
      (hepilogue top hlo (h.reads.mono (le_refl _) hhi))
  unfold scanWide
  simp only [Option.bind_eq_bind, Option.pure_def]
  rw [hdetent]
  by_cases hlen : len > seq + (v.lanes - 1)
  · obtain ⟨found, hfound, hat, hrest⟩ := wideLoop_spec hv (by omega : seq ≤ range - len + seq)
      (show range - len + seq + (v.lanes - 1) < range by omega)
      (show range ≤ range - len + seq + len by omega) h.reads
    rw [if_pos hlen, hfound, Option.bind_some]
    cases found with
    | inl t => exact ⟨_, rfl, hat⟩
    | inr rest =>
      by_cases hd : rest = range - len + seq
      · simp only [if_pos hd]
        exact ⟨none, rfl, fun i hlo hhi => hat.2.2 i (by omega) hhi⟩
      · simp only [if_neg hd]
        have hle := hat.1
        obtain ⟨r, hrun, hlast⟩ := htail rest (by omega) (hrest rest rfl) hat.2.1
        exact ⟨r, hrun, hlast.extend hat.2.1 hat.2.2⟩
  · rw [if_neg hlen]
    exact htail range (by omega) (by omega) (le_refl _)

theorem untilOnes_lastAt {detent top : Nat} (hlt : detent < top) (hreads : Reads m seq detent top) :
    ∃ r, untilOnes m seq detent top = some r ∧ LastAt (hit (cells m) seq) detent top r :=
  doOnes_lastAt (fun i hle => decide_eq_decide.mpr ⟨fun hne => by omega, fun hi => by omega⟩) hlt
    hreads

/-- In the list alone the checks make no difference. -/
theorem scan4seqFallback_unchecked (h : Descending m range len) (hpos : 0 < seq) (hlt : seq < len) :
    scan4seqFallback m range len seq = some (Gc.scan4seqFallback (cells m) range len seq) := by
  have hinside := h.inside
  obtain ⟨r, hr, hlast⟩ := scan4seqFallback_lastAt h hlt
  have hplain : LastAt (hit (cells m) seq) (range + seq - len) range
      (Gc.scan4seqFallback (cells m) range len seq) :=
    Gc.scan4seqFallback_lastAt hlt (show len ≤ range + seq by omega)
  rw [show range + seq - len = range - len + seq by omega] at hplain
  rw [hr, (h.nearest hpos hlast).unique (h.nearest hpos hplain)]

/-- All variants return the place next to the tail at which the list goes on without a gap for `seq`
places. They read nothing but the words of the list and, unless they have to be careful, of the
words before it less than a vector of those in the pages that hold it. -/
theorem scan4seq_agree (h : Descending m range len) (hpos : 0 < seq) (hlt : seq < len)
    (careful : Bool) (w : SizeBits) :
    ∃ r, Nearest m seq (range - len + seq) range r ∧
      scan4seqFallback m range len seq = some r ∧
      ((careful = false → PageHeld m range len 3) →
        scan4seqSse2 careful m range len seq = some r) ∧
      ((careful = false → PageHeld m range len 7) →
        scan4seqAvx2 careful m range len seq = some r) ∧
      ((careful = false → PageHeld m range len 15) →
        scan4seqAvx512bw careful m range len seq = some r) ∧
      ((careful = false → PageHeld m range len 3) →
        scan4seqNeon w careful m range len seq = some r) := by
  have hsse : ∀ top, range - len + seq ≤ top → Reads m seq (range - len + seq) top →
      ∃ r, narrower sse2 whileOnes m seq (range - len + seq) top = some r ∧
        LastAt (hit (cells m) seq) (range - len + seq) top r :=
    fun top hle hreads => narrower_lastAt sse2_sound (by omega) (fun _ _ => whileOnes_lastAt) hle
      hreads
  obtain ⟨r, hr, hlast⟩ := scan4seqFallback_lastAt h hlt
  have hnear := h.nearest hpos hlast
  refine ⟨r, hnear, hr, fun hpage => ?_, fun hpage => ?_, fun hpage => ?_, fun hpage => ?_⟩
  · obtain ⟨r₁, hr₁, hlast₁⟩ := scanWide_lastAt sse2_sound h hlt hpage fun _ => untilOnes_lastAt
    rw [hnear.unique (h.nearest hpos hlast₁)]
    exact hr₁
  · obtain ⟨r₂, hr₂, hlast₂⟩ := scanWide_lastAt avx2_sound h hlt hpage
      fun top htop => hsse top htop.le
    rw [hnear.unique (h.nearest hpos hlast₂)]
    exact hr₂
  · obtain ⟨r₃, hr₃, hlast₃⟩ := scanWide_lastAt avx512bw_sound h hlt hpage
      fun top htop hreads => narrower_lastAt avx2_sound (by omega) hsse htop.le hreads
    rw [hnear.unique (h.nearest hpos hlast₃)]
    exact hr₃
  · obtain ⟨r₄, hr₄, hlast₄⟩ := scanWide_lastAt (neon_sound w) h hlt hpage
      fun _ => untilOnes_lastAt
    rw [hnear.unique (h.nearest hpos hlast₄)]
    exact hr₄

end Agree

/-- The pages 9 and 8 in the words 6 and 7, behind the allocated and the current size of the list,
which is at an address of 16 bytes. -/
def pair (i : Nat) : Option Nat :=
  if i = 4 ∨ i = 5 then some 2 else if i = 6 then some 9 else if i = 7 then some 8 else none

/-- The same in a page that can be read as a whole. -/
def pairInPage (i : Nat) : Option Nat := if i < 1024 then some ((pair i).getD 0) else none

theorem pair_descending {m : Memory} (hfirst : m 6 = some 9) (hlast : m 7 = some 8) :
    Descending m 7 2 where
  inside := by decide
  held := fun i hlo hhi => by
    have hi : i = 6 ∨ i = 7 := by omega
    rcases hi with rfl | rfl
    · exact ⟨9, hfirst, by decide⟩
    · exact ⟨8, hlast, by decide⟩
  strict := fun i j p q hlo hij hhi hp hq => by
    obtain ⟨rfl, rfl⟩ : i = 6 ∧ j = 7 := by omega
    have hp' : 9 = p := Option.some.inj (hfirst.symm.trans hp)
    have hq' : 8 = q := Option.some.inj (hlast.symm.trans hq)
    omega

theorem pairInPage_held (before : Nat) : PageHeld pairInPage 7 2 before := by
  intro i j hlo hhi hpage _
  have hj : j < 1024 := by omega
  unfold pairInPage
  rw [if_pos hj]
  rfl

theorem scan4seq_agree_pair :
    ∃ r, Nearest pairInPage 1 (7 - 2 + 1) 7 r ∧
      scan4seqFallback pairInPage 7 2 1 = some r ∧ scan4seqSse2 false pairInPage 7 2 1 = some r ∧
      scan4seqAvx2 false pairInPage 7 2 1 = some r ∧
      scan4seqAvx512bw false pairInPage 7 2 1 = some r ∧
      scan4seqNeon .wide false pairInPage 7 2 1 = some r := by
  obtain ⟨r, hr, hplain, hsse, havx, hwide, hneon⟩ :=
    scan4seq_agree (pair_descending (m := pairInPage) rfl rfl) (show 0 < 1 by decide) (by decide)
      false .wide
  exact ⟨r, hr, hplain, hsse fun _ => pairInPage_held 3, havx fun _ => pairInPage_held 7,
    hwide fun _ => pairInPage_held 15, hneon fun _ => pairInPage_held 3⟩

/-- The last vector takes words in front of the list, here one that is not even allocated with it. -/
theorem sse2_reads_before_the_list :
    Descending pair 7 2 ∧ scan4seqFallback pair 7 2 1 = some (some 7) ∧
      scan4seqSse2 false pair 7 2 1 = none :=
  ⟨pair_descending rfl rfl, by decide, by decide⟩

end Mdbx.Scan4seq
