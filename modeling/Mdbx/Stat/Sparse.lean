import Mdbx.Stat.Foreach

/-!
# Stat.Sparse — the words that an iteration over handles reads

`TXN_FOREACH_DBI_FROM` once more, with indexes of type `size_t`, with every word of the sparse map
that is read, and from any start.  What it visits is exact.  It also reads the word after the last
one, unless the last slot of the table or a slot behind it is in the map, or its word is empty.
-/

namespace Mdbx.Stat.Sparse

/-- The slots and the size of `size_t`. There are at most `MDBX_MAX_DBI + CORE_DBS` slots. -/
structure Table extends Slots where
  sizeBits : Nat
  word : sizeBits = 32 ∨ sizeBits = 64
  limit : nDbi ≤ 32767

variable (t : Table)

def sizeT (n : Nat) : Nat := n % 2 ^ t.sizeBits

/-- What `dbi_foreach_step` returns and leaves, and the words of `dbi_sparse` that it reads. -/
structure Turn where
  body : Bool
  item : Nat
  dbi : Nat
  reads : List Nat

def dbiForeachStep (item dbi : Nat) : Turn :=
  if item &&& 1 ≠ 0 then ⟨decide (t.dbiState dbi ≠ 0), item >>> 1, dbi, []⟩
  else if item ≠ 0 then
    let skip := bitmapCtz bitmapChunk item
    ⟨false, item >>> skip, sizeT t (dbi + (skip - 1)), []⟩
  else
    let dbi := sizeT t (dbi + 2 ^ t.sizeBits - 1) ||| (bitmapChunk - 1)
    let k := sizeT t (1 + dbi) / bitmapChunk
    let item := (t.dbiSparse k).toNat
    ⟨false, item, if item = 0 then sizeT t (dbi + bitmapChunk) else dbi, [k]⟩

/-- The slots that the body of the loop is run for, and the words that are read on the way. -/
structure Trace where
  visited : List Nat
  reads : List Nat
  deriving DecidableEq

/-- The loop of `TXN_FOREACH_DBI_FROM`, or nothing when the turns do not suffice. -/
def foreachLoop : Nat → Nat → Nat → Option Trace
  | 0, _, _ => none
  | fuel + 1, item, dbi =>
      if dbi < t.nDbi then
        let turn := dbiForeachStep t item dbi
        (foreachLoop fuel turn.item (sizeT t (turn.dbi + 1))).map fun rest =>
          ⟨(if turn.body then [turn.dbi] else []) ++ rest.visited, turn.reads ++ rest.reads⟩
      else some ⟨[], []⟩

/-- A shift of the first word by its size or more is undefined. -/
def foreachDbi (start : Nat) : Option Trace :=
  if start < bitmapChunk then
    (foreachLoop t (2 * t.nDbi + 2) ((t.dbiSparse 0).toNat >>> start) start).map fun rest =>
      ⟨rest.visited, 0 :: rest.reads⟩
  else none

/-! ## 1. One turn -/

section Turns

variable {t} {item dbi : Nat}

theorem sizeT_small {n : Nat} (hn : n ≤ 2 ^ 16) : sizeT t n = n := by
  have hbits : 2 ^ 32 ≤ 2 ^ t.sizeBits := by
    rcases t.word with h | h
    · rw [h]
    · rw [h]
      decide
  exact Nat.mod_eq_of_lt (by omega)

/-- The first word at or behind a slot. -/
def wordFrom (dbi : Nat) : Nat := (dbi + 31) / 32

-- for the slot 0 the index wraps around and comes back
theorem chunkEnd_eq (hdbi : dbi < t.nDbi) :
    let last := sizeT t (dbi + 2 ^ t.sizeBits - 1) ||| (bitmapChunk - 1)
    sizeT t (1 + last) = 32 * wordFrom dbi ∧ sizeT t (last + 1) = 32 * wordFrom dbi ∧
      sizeT t (sizeT t (last + bitmapChunk) + 1) = 32 * wordFrom dbi + 32 := by
  have hlimit := t.limit
  have hbits : 2 ^ 32 ≤ 2 ^ t.sizeBits ∧ 2 ^ t.sizeBits % 32 = 0 := by
    rcases t.word with h | h
    · rw [h]
      decide
    · rw [h]
      decide
  dsimp only
  rw [or_chunk, Nat.add_comm 1]
  unfold bitmapChunk wordFrom
  by_cases hzero : dbi = 0
  · have hend : 32 * (sizeT t (dbi + 2 ^ t.sizeBits - 1) / 32) + 31 = 2 ^ t.sizeBits - 1 := by
      unfold sizeT
      rw [hzero, Nat.mod_eq_of_lt (by omega)]
      omega
    have hwrap : sizeT t (2 ^ t.sizeBits - 1 + 32) = 31 := by
      unfold sizeT
      rw [show 2 ^ t.sizeBits - 1 + 32 = 31 + 2 ^ t.sizeBits by omega, Nat.add_mod_right,
        Nat.mod_eq_of_lt (by omega)]
    have hback : sizeT t (2 ^ t.sizeBits - 1 + 1) = 0 := by
      unfold sizeT
      rw [show 2 ^ t.sizeBits - 1 + 1 = 2 ^ t.sizeBits by omega, Nat.mod_self]
    rw [hend, hwrap, hback, sizeT_small (by omega), hzero]
    exact ⟨rfl, rfl, rfl⟩
  · have hprev : sizeT t (dbi + 2 ^ t.sizeBits - 1) = dbi - 1 := by
      unfold sizeT
      rw [show dbi + 2 ^ t.sizeBits - 1 = dbi - 1 + 2 ^ t.sizeBits by omega, Nat.add_mod_right,
        Nat.mod_eq_of_lt (by omega)]
    rw [hprev, sizeT_small (by omega), sizeT_small (n := 32 * ((dbi - 1) / 32) + 31 + 32) (by omega),
      sizeT_small (by omega)]
    omega

theorem step_set (hodd : item % 2 = 1) :
    dbiForeachStep t item dbi = ⟨decide (t.dbiState dbi ≠ 0), item >>> 1, dbi, []⟩ := by
  unfold dbiForeachStep
  rw [Nat.and_one_is_mod, if_pos (by omega)]

variable (t dbi) in
theorem step_skip (heven : item % 2 = 0) (hne : item ≠ 0) :
    dbiForeachStep t item dbi =
      ⟨false, item >>> bitmapCtz bitmapChunk item,
        sizeT t (dbi + (bitmapCtz bitmapChunk item - 1)), []⟩ := by
  unfold dbiForeachStep
  rw [Nat.and_one_is_mod, if_neg (by omega), if_pos hne]

/-- The next word, and the slot that follows when the index is stepped. -/
theorem step_word (hdbi : dbi < t.nDbi) :
    (dbiForeachStep t 0 dbi).body = false ∧
      (dbiForeachStep t 0 dbi).item = (t.dbiSparse (wordFrom dbi)).toNat ∧
      (dbiForeachStep t 0 dbi).reads = [wordFrom dbi] ∧
      sizeT t ((dbiForeachStep t 0 dbi).dbi + 1) =
        if (t.dbiSparse (wordFrom dbi)).toNat = 0 then 32 * wordFrom dbi + 32
        else 32 * wordFrom dbi := by
  obtain ⟨hword, hplace, hnext⟩ := chunkEnd_eq hdbi
  have hk : sizeT t (1 + (sizeT t (dbi + 2 ^ t.sizeBits - 1) ||| (bitmapChunk - 1))) / bitmapChunk =
      wordFrom dbi := by
    rw [hword]
    exact Nat.mul_div_cancel_left _ (by decide)
  unfold dbiForeachStep
  rw [Nat.and_one_is_mod, if_neg (by decide), if_neg (by decide)]
  dsimp only
  rw [hk]
  refine ⟨rfl, rfl, rfl, ?_⟩
  split_ifs with hempty
  · exact hnext
  · exact hplace

end Turns

/-! ## 2. Where the words end -/

/-- The word of the last slot. -/
def lastWord : Nat := (t.nDbi - 1) / 32

/-- No word behind the last one is read any more: no slot is left; or the last word, which is still
to be read, is empty or has a bit for the last slot or behind it; or its rest has such a bit. -/
def Sealed (item dbi : Nat) : Prop :=
  t.nDbi ≤ dbi ∨
    if (if item = 0 then wordFrom dbi else dbi / 32 + 1) ≤ lastWord t then
      (t.dbiSparse (lastWord t)).toNat = 0 ∨
        (t.dbiSparse (lastWord t)).toNat >>> ((t.nDbi - 1) % 32) ≠ 0
    else item >>> (t.nDbi - 1 - dbi) ≠ 0

/-- What one turn keeps, when it is taken at a slot of the table. -/
structure Stepped (item dbi : Nat) : Prop where
  here : At t.toSlots (dbiForeachStep t item dbi).item
    (sizeT t ((dbiForeachStep t item dbi).dbi + 1))
  less : 2 * (t.nDbi - sizeT t ((dbiForeachStep t item dbi).dbi + 1)) +
      (if (dbiForeachStep t item dbi).item = 0 then 1 else 0) <
    2 * (t.nDbi - dbi) + if item = 0 then 1 else 0
  visits : (List.range' dbi (t.nDbi - dbi)).filter (fun k => decide (Live t.toSlots k)) =
    (if (dbiForeachStep t item dbi).body then [(dbiForeachStep t item dbi).dbi] else []) ++
      (List.range' (sizeT t ((dbiForeachStep t item dbi).dbi + 1))
        (t.nDbi - sizeT t ((dbiForeachStep t item dbi).dbi + 1))).filter
          (fun k => decide (Live t.toSlots k))
  closes : Sealed t item dbi ↔
    (∀ k ∈ (dbiForeachStep t item dbi).reads, k ≤ lastWord t) ∧
      Sealed t (dbiForeachStep t item dbi).item (sizeT t ((dbiForeachStep t item dbi).dbi + 1))

section Steps

variable {t} {item dbi : Nat}

-- what is left of a word belongs to it
theorem rest_lt (hitem : item = (t.dbiSparse (dbi / 32)).toNat >>> (dbi % 32)) :
    item >>> (32 - dbi % 32) = 0 := by
  rw [hitem, ← Nat.shiftRight_add, Nat.shiftRight_eq_div_pow]
  refine Nat.div_eq_of_lt (Nat.lt_of_lt_of_le (word_lt t.toSlots _) ?_)
  exact Nat.pow_le_pow_right (by decide) (by omega)

theorem shiftRight_zero_of_le {n i j : Nat} (hzero : n >>> i = 0) (hle : i ≤ j) : n >>> j = 0 := by
  obtain ⟨d, rfl⟩ := Nat.exists_eq_add_of_le hle
  rw [Nat.shiftRight_add, hzero, Nat.zero_shiftRight]

/-- On to a later slot in what is left of a word. -/
theorem sealed_within {skip : Nat} (hdbi : dbi < t.nDbi) (hne : item ≠ 0) (hpos : 0 < skip)
    (hskip : ∀ j, j < skip → item >>> j ≠ 0) (hword : dbi % 32 + skip ≤ 32)
    (hfull : item >>> skip ≠ 0 → dbi % 32 + skip < 32) :
    Sealed t item dbi ↔ Sealed t (item >>> skip) (dbi + skip) := by
  unfold Sealed
  rw [if_neg hne]
  by_cases hend : t.nDbi ≤ dbi + skip
  · have hfirst : ¬ dbi / 32 + 1 ≤ lastWord t := by
      unfold lastWord
      omega
    rw [if_neg hfirst]
    exact ⟨fun _ => Or.inl hend, fun _ => Or.inr (hskip _ (by omega))⟩
  · have hfirst : (if item >>> skip = 0 then wordFrom (dbi + skip) else (dbi + skip) / 32 + 1) =
        dbi / 32 + 1 := by
      unfold wordFrom
      split_ifs with hz
      · omega
      · have hlow := hfull hz
        omega
    rw [hfirst, ← Nat.shiftRight_add,
      show skip + (t.nDbi - 1 - (dbi + skip)) = t.nDbi - 1 - dbi by omega]
    rw [or_iff_right (Nat.not_le.mpr hdbi), or_iff_right hend]

/-- The slot is in the map. -/
theorem stepped_set (hdbi : dbi < t.nDbi)
    (hitem : item = (t.dbiSparse (dbi / 32)).toNat >>> (dbi % 32)) (hodd : item % 2 = 1) :
    Stepped t item dbi := by
  have hlimit := t.limit
  have hnext : sizeT t (dbi + 1) = dbi + 1 := sizeT_small (by omega)
  have hbit : (t.dbiSparse (dbi / bitmapChunk)).toNat.testBit (dbi % bitmapChunk) = true := by
    rw [rest_testBit hitem (Nat.le_refl _) (by omega), Nat.sub_self, Nat.testBit_zero]
    exact decide_eq_true hodd
  have hlive : decide (Live t.toSlots dbi) = decide (t.dbiState dbi ≠ 0) :=
    decide_eq_decide.2 ⟨fun h => h.2, fun h => ⟨hbit, h⟩⟩
  have hlen : t.nDbi - dbi = t.nDbi - (dbi + 1) + 1 := by omega
  have hlow : item >>> 1 ≠ 0 → dbi % 32 + 1 < 32 := by
    intro hne
    by_contra hge
    have hrest := rest_lt hitem
    rw [show 32 - dbi % 32 = 1 by omega] at hrest
    exact hne hrest
  constructor
  · rw [step_set hodd]
    dsimp only
    rw [hnext]
    by_cases hend : dbi % 32 + 1 < 32
    · left
      rw [show (dbi + 1) / 32 = dbi / 32 by omega, show (dbi + 1) % 32 = dbi % 32 + 1 by omega,
        Nat.shiftRight_add, hitem]
    · right
      refine ⟨?_, by omega⟩
      by_contra hne
      exact hend (hlow hne)
  · rw [step_set hodd]
    dsimp only
    rw [hnext]
    split_ifs <;> omega
  · rw [step_set hodd]
    dsimp only
    rw [hnext, hlen, List.range'_succ, List.filter_cons, hlive]
    split_ifs <;> rfl
  · rw [step_set hodd]
    dsimp only
    rw [hnext, sealed_within hdbi (by omega) Nat.one_pos ?_ (by omega) hlow]
    · exact ⟨fun h => ⟨fun k hk => absurd hk List.not_mem_nil, h⟩, fun h => h.2⟩
    · intro j hj
      rw [Nat.lt_one_iff.mp hj, Nat.shiftRight_zero]
      omega

/-- The slot is not in the map, but a later one of its word is. -/
theorem stepped_skip (hdbi : dbi < t.nDbi)
    (hitem : item = (t.dbiSparse (dbi / 32)).toNat >>> (dbi % 32)) (heven : item % 2 = 0)
    (hne : item ≠ 0) : Stepped t item dbi := by
  have hlimit := t.limit
  have hsize : item < 2 ^ bitmapChunk := by
    rw [hitem, Nat.shiftRight_eq_div_pow]
    exact Nat.lt_of_le_of_lt (Nat.div_le_self _ _) (word_lt t.toSlots _)
  have hstep := step_skip t dbi heven hne
  obtain ⟨hfound, hnone⟩ := bitmapCtz_spec hne hsize
  generalize bitmapCtz bitmapChunk item = skip at hfound hnone hstep
  have hpos : 0 < skip := by
    by_contra hz
    rw [Nat.eq_zero_of_not_pos hz, Nat.shiftRight_zero] at hfound
    omega
  have hafter : item >>> skip ≠ 0 := by
    intro hz
    rw [hz] at hfound
    omega
  have hword : dbi % 32 + skip < 32 := by
    by_contra hge
    exact hafter (shiftRight_zero_of_le (rest_lt hitem) (by omega))
  have hback : ∀ j, j < skip → item >>> j ≠ 0 := by
    intro j hj hz
    exact hafter (shiftRight_zero_of_le hz hj.le)
  have hplace : sizeT t (dbi + (skip - 1)) = dbi + (skip - 1) := sizeT_small (by omega)
  have hnext : sizeT t (dbi + (skip - 1) + 1) = dbi + skip := by
    rw [sizeT_small (by omega)]
    omega
  rw [hplace] at hstep
  constructor
  · rw [hstep]
    dsimp only
    rw [hnext]
    left
    rw [show (dbi + skip) / 32 = dbi / 32 by omega,
      show (dbi + skip) % 32 = dbi % 32 + skip by omega, Nat.shiftRight_add, hitem]
  · rw [hstep]
    dsimp only
    rw [hnext, if_neg hafter, if_neg hne]
    omega
  · rw [hstep]
    dsimp only
    rw [hnext]
    refine filter_skip (by omega) fun k hlo hhi => not_live ?_
    rw [rest_testBit hitem hlo (by omega)]
    exact hnone (k - dbi) (by omega)
  · rw [hstep]
    dsimp only
    rw [hnext, sealed_within hdbi hne hpos hback (by omega) fun _ => hword]
    exact ⟨fun h => ⟨fun k hk => absurd hk List.not_mem_nil, h⟩, fun h => h.2⟩

/-- The next word is read, and it is not behind the last one. -/
theorem sealed_word (hdbi : dbi < t.nDbi) :
    Sealed t 0 dbi ↔ wordFrom dbi ≤ lastWord t ∧
      Sealed t (t.dbiSparse (wordFrom dbi)).toNat
        (if (t.dbiSparse (wordFrom dbi)).toNat = 0 then 32 * wordFrom dbi + 32
          else 32 * wordFrom dbi) := by
  have hlast : lastWord t = (t.nDbi - 1) / 32 := rfl
  by_cases hle : wordFrom dbi ≤ lastWord t
  · have hleft : Sealed t 0 dbi ↔ (t.dbiSparse (lastWord t)).toNat = 0 ∨
        (t.dbiSparse (lastWord t)).toNat >>> ((t.nDbi - 1) % 32) ≠ 0 := by
      unfold Sealed
      rw [if_pos rfl, if_pos hle, or_iff_right (Nat.not_le.mpr hdbi)]
    rw [hleft, and_iff_right hle]
    by_cases hzero : (t.dbiSparse (wordFrom dbi)).toNat = 0
    · rw [if_pos hzero, hzero]
      unfold Sealed
      rcases Nat.lt_or_eq_of_le hle with hlt | heq
      · have hfirst : wordFrom (32 * wordFrom dbi + 32) ≤ lastWord t := by
          rw [show wordFrom (32 * wordFrom dbi + 32) = wordFrom dbi + 1 by
            rw [wordFrom]
            omega]
          exact hlt
        rw [if_pos rfl, if_pos hfirst, or_iff_right (show ¬ t.nDbi ≤ _ by omega)]
      · rw [← heq, hzero]
        exact ⟨fun _ => Or.inl (by omega), fun _ => Or.inl rfl⟩
    · rw [if_neg hzero]
      unfold Sealed
      rw [if_neg hzero, or_iff_right (show ¬ t.nDbi ≤ _ by omega),
        Nat.mul_div_cancel_left _ (by decide)]
      rcases Nat.lt_or_eq_of_le hle with hlt | heq
      · rw [if_pos (Nat.succ_le_of_lt hlt)]
      · rw [if_neg (by omega), heq, show t.nDbi - 1 - 32 * lastWord t = (t.nDbi - 1) % 32 by omega]
        rw [heq] at hzero
        exact or_iff_right hzero
  · have hleft : ¬ Sealed t 0 dbi := by
      unfold Sealed
      rw [if_pos rfl, if_neg hle, or_iff_right (Nat.not_le.mpr hdbi), Nat.zero_shiftRight]
      exact fun h => h rfl
    exact ⟨fun h => absurd h hleft, fun h => absurd h.1 hle⟩

/-- Nothing is left of a word, and the next one is read. -/
theorem stepped_word (hdbi : dbi < t.nDbi) (hat : At t.toSlots 0 dbi) : Stepped t 0 dbi := by
  obtain ⟨hbody, hitem, hreads, hnext⟩ := step_word hdbi
  have hfrom : wordFrom dbi = (dbi + 31) / 32 := rfl
  have hdiv : 32 * wordFrom dbi / 32 = wordFrom dbi := Nat.mul_div_cancel_left _ (by decide)
  have hmod : 32 * wordFrom dbi % 32 = 0 := Nat.mul_mod_right _ _
  -- no slots in use up to the end of this word
  have hhead : ∀ k, dbi ≤ k → k < 32 * wordFrom dbi → decide (Live t.toSlots k) = false := by
    intro k hlo hhi
    have hrest : 0 = (t.dbiSparse (dbi / 32)).toNat >>> (dbi % 32) :=
      hat.resolve_right fun hc => by omega
    apply not_live
    rw [rest_testBit hrest hlo (by omega), Nat.zero_testBit]
  have hempty : ∀ k, (t.dbiSparse (wordFrom dbi)).toNat = 0 → dbi ≤ k →
      k < 32 * wordFrom dbi + 32 → decide (Live t.toSlots k) = false := by
    intro k hzero hlo hhi
    by_cases hk : k < 32 * wordFrom dbi
    · exact hhead k hlo hk
    · exact not_live_word hmod (by rw [hdiv]; exact hzero) (Nat.not_lt.mp hk) hhi
  constructor
  · rw [hitem, hnext]
    split_ifs with hzero
    · right
      exact ⟨hzero, by omega⟩
    · left
      rw [hdiv, hmod, Nat.shiftRight_zero]
  · rw [hitem, hnext, if_pos rfl]
    split_ifs <;> omega
  · rw [hbody, hnext, if_neg Bool.false_ne_true, List.nil_append]
    split_ifs with hzero
    · exact filter_skip (by omega) fun k hlo hhi => hempty k hzero hlo hhi
    · exact filter_skip (by omega) hhead
  · rw [hitem, hreads, hnext, List.forall_mem_singleton]
    exact sealed_word hdbi

theorem stepped (hdbi : dbi < t.nDbi) (hat : At t.toSlots item dbi) : Stepped t item dbi := by
  by_cases hzero : item = 0
  · subst hzero
    exact stepped_word hdbi hat
  · have hitem := hat.resolve_right fun h => hzero h.1
    rcases Nat.mod_two_eq_zero_or_one item with heven | hodd
    · exact stepped_skip hdbi hitem heven hzero
    · exact stepped_set hdbi hitem hodd

/-! ## 3. The loop -/

theorem foreachLoop_spec : ∀ {fuel item dbi : Nat}, At t.toSlots item dbi →
    2 * (t.nDbi - dbi) + (if item = 0 then 1 else 0) < fuel →
    ∃ reads, foreachLoop t fuel item dbi =
        some ⟨(List.range' dbi (t.nDbi - dbi)).filter fun k => decide (Live t.toSlots k), reads⟩ ∧
      ((∀ k ∈ reads, k ≤ lastWord t) ↔ Sealed t item dbi)
  | fuel + 1, item, dbi, hat, hfuel => by
    unfold foreachLoop
    by_cases hdbi : dbi < t.nDbi
    · have h := stepped hdbi hat
      have hless := h.less
      obtain ⟨reads, hrest, hsealed⟩ := foreachLoop_spec h.here (show _ < fuel by omega)
      refine ⟨(dbiForeachStep t item dbi).reads ++ reads, ?_, ?_⟩
      · rw [if_pos hdbi]
        dsimp only
        rw [hrest, Option.map_some, h.visits]
      · rw [h.closes, ← hsealed, List.forall_mem_append]
    · rw [if_neg hdbi, Nat.sub_eq_zero_of_le (Nat.not_lt.mp hdbi)]
      exact ⟨[], rfl, fun _ => Or.inl (Nat.not_lt.mp hdbi),
        fun _ k hk => absurd hk List.not_mem_nil⟩

end Steps

/-- The last slot, or a slot behind it in the same word, is in the map, or the word is empty and the
iteration does not start within it. -/
def Closed (start : Nat) : Prop :=
  (t.dbiSparse (lastWord t)).toNat >>> ((t.nDbi - 1) % 32) ≠ 0 ∨
    ((t.dbiSparse (lastWord t)).toNat = 0 ∧ start ≤ 32 * lastWord t)

theorem sealed_start {start : Nat} (hstart : start < bitmapChunk) (hn : start < t.nDbi) :
    Sealed t ((t.dbiSparse 0).toNat >>> start) start ↔ Closed t start := by
  have hlast : lastWord t = (t.nDbi - 1) / 32 := rfl
  unfold bitmapChunk at hstart
  unfold Sealed Closed
  rw [or_iff_right (Nat.not_le.mpr hn)]
  by_cases hfar : 1 ≤ lastWord t
  · have hfirst : (if (t.dbiSparse 0).toNat >>> start = 0 then wordFrom start else start / 32 + 1) ≤
        lastWord t := by
      unfold wordFrom
      split_ifs <;> omega
    have hle : start ≤ 32 * lastWord t := by omega
    rw [if_pos hfirst, and_iff_left hle, or_comm]
  · have hzero : lastWord t = 0 := by omega
    have hmod : (t.nDbi - 1) % 32 = start + (t.nDbi - 1 - start) := by omega
    rw [hzero, hmod, Nat.shiftRight_add]
    by_cases hitem : (t.dbiSparse 0).toNat >>> start = 0
    · rw [if_pos hitem, hitem, Nat.zero_shiftRight]
      by_cases hs : start = 0
      · rw [hs, Nat.shiftRight_zero] at hitem
        rw [hs, if_pos (by decide)]
        exact ⟨fun _ => Or.inr ⟨hitem, le_refl _⟩, fun _ => Or.inl hitem⟩
      · rw [if_neg (by rw [wordFrom]; omega)]
        exact ⟨fun h => absurd rfl h, fun h => h.elim (fun h => absurd rfl h) fun h => by omega⟩
    · rw [if_neg hitem, if_neg (by omega)]
      refine ⟨Or.inl, fun h => h.elim id fun h => ?_⟩
      rw [h.1, Nat.zero_shiftRight] at hitem
      exact absurd rfl hitem

/-- From a start in the first word the loop ends, and visits what it should. -/
theorem foreachDbi_visits {start : Nat} (hstart : start < bitmapChunk) :
    ∃ reads, foreachDbi t start =
        some ⟨(List.range' start (t.nDbi - start)).filter fun k => decide (Live t.toSlots k),
          0 :: reads⟩ ∧
      ((∀ k ∈ reads, k ≤ lastWord t) ↔ t.nDbi ≤ start ∨ Closed t start) := by
  have hat : At t.toSlots ((t.dbiSparse 0).toNat >>> start) start := by
    unfold bitmapChunk at hstart
    left
    rw [Nat.div_eq_of_lt hstart, Nat.mod_eq_of_lt hstart]
  obtain ⟨reads, hloop, hsealed⟩ := foreachLoop_spec hat
    (show _ < 2 * t.nDbi + 2 by split_ifs <;> omega)
  refine ⟨reads, ?_, ?_⟩
  · unfold foreachDbi
    rw [if_pos hstart, hloop, Option.map_some]
  · rw [hsealed]
    by_cases hn : t.nDbi ≤ start
    · exact ⟨fun _ => Or.inl hn, fun _ => Or.inl hn⟩
    · rw [or_iff_right hn]
      exact sealed_start t hstart (Nat.not_le.mp hn)

/-- From the slot 1 on the index does not wrap around. -/
theorem foreachDbi_unwrapped {start : Nat} (hlo : 1 ≤ start) (hhi : start < bitmapChunk) :
    (foreachDbi t start).map Trace.visited = some (Stat.foreachDbi t.toSlots start) := by
  obtain ⟨reads, hrun, -⟩ := foreachDbi_visits t hhi
  rw [hrun, foreachDbi_eq hlo hhi, Option.map_some]

/-- The loop ends, visits exactly the slots in use from the start on, in ascending order and once
each, and reads only words with a bit of some slot of the table. -/
def Exact (start : Nat) : Prop :=
  ∃ trace, foreachDbi t start = some trace ∧
    trace.visited = (List.range' start (t.nDbi - start)).filter (fun k => decide (Live t.toSlots k)) ∧
    ∀ k ∈ trace.reads, ∃ dbi, dbi < t.nDbi ∧ dbi / bitmapChunk = k

theorem word_of_slot {k : Nat} (hn : 0 < t.nDbi) :
    (∃ dbi, dbi < t.nDbi ∧ dbi / bitmapChunk = k) ↔ k ≤ lastWord t := by
  unfold lastWord bitmapChunk
  constructor
  · rintro ⟨dbi, hlt, rfl⟩
    omega
  · intro hle
    exact ⟨32 * k, by omega, by omega⟩

theorem not_exact_empty {start : Nat} (hn : t.nDbi = 0) : ¬ Exact t start := by
  rintro ⟨trace, hrun, -, hreads⟩
  unfold foreachDbi at hrun
  split_ifs at hrun with hstart
  obtain ⟨rest, -, rfl⟩ := Option.map_eq_some_iff.mp hrun
  obtain ⟨dbi, hlt, -⟩ := hreads 0 List.mem_cons_self
  omega

theorem exact_iff_closed {start : Nat} (hn : 0 < t.nDbi) (hstart : start < bitmapChunk) :
    Exact t start ↔ t.nDbi ≤ start ∨ Closed t start := by
  obtain ⟨reads, hrun, hclosed⟩ := foreachDbi_visits t hstart
  rw [← hclosed]
  constructor
  · rintro ⟨trace, hrun', -, hreads⟩ k hk
    rw [hrun] at hrun'
    obtain rfl := Option.some.inj hrun'
    exact (word_of_slot t hn).mp (hreads k (List.mem_cons_of_mem _ hk))
  · intro hreads
    refine ⟨_, hrun, rfl, fun k hk => (word_of_slot t hn).mpr ?_⟩
    rcases List.mem_cons.mp hk with rfl | hk
    · exact Nat.zero_le _
    · exact hreads k hk

/-- The iteration is exact if and only if it starts within the first word of a table with slots, and
either there is no slot from the start on, or the last word is closed. -/
theorem foreachDbi_exact_iff (start : Nat) :
    Exact t start ↔ 0 < t.nDbi ∧ start < bitmapChunk ∧ (t.nDbi ≤ start ∨ Closed t start) := by
  rcases Nat.eq_zero_or_pos t.nDbi with hn | hn
  · exact ⟨fun h => absurd h (not_exact_empty t hn), fun h => by omega⟩
  · by_cases hstart : start < bitmapChunk
    · rw [exact_iff_closed t hn hstart, and_iff_right hn, and_iff_right hstart]
    · refine ⟨?_, fun h => absurd h.2.1 hstart⟩
      rintro ⟨trace, hrun, -⟩
      unfold foreachDbi at hrun
      rw [if_neg hstart] at hrun
      exact absurd hrun (by simp)

theorem wide_word : 64 = 32 ∨ 64 = 64 := Or.inr rfl

theorem four_slots : 4 ≤ 32767 := by decide

/-- Four slots, of which the first two are in the map. -/
def twoOfFour : Table where
  nDbi := 4
  dbiState := fun _ => 1
  dbiSparse := fun k => if k = 0 then 3 else 0
  sizeBits := 64
  word := wide_word
  limit := four_slots

/-- After the slot 1 the second word is read, although the table has one. -/
theorem reads_behind_the_map :
    foreachDbi twoOfFour 0 = some ⟨[0, 1], [0, 1]⟩ ∧ ¬ Exact twoOfFour 0 := by
  have hrun : foreachDbi twoOfFour 0 = some ⟨[0, 1], [0, 1]⟩ := by decide
  refine ⟨hrun, ?_⟩
  rintro ⟨trace, hrun', -, hreads⟩
  rw [hrun] at hrun'
  obtain rfl := Option.some.inj hrun'
  obtain ⟨dbi, hlt, hword⟩ := hreads 1 (by decide)
  change dbi < 4 at hlt
  unfold bitmapChunk at hword
  omega

end Mdbx.Stat.Sparse
