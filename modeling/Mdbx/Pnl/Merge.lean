import Mdbx.Pnl.Words

/-!
# Pnl.Merge — `pnl_merge` gives the union

The loop fills the list from its end.  What it has placed is in order and below everything that is
still to be placed; the detent in the first word makes `dst` last until `src` is used up.
-/

namespace Mdbx.Pnl.Words

/-! ## 1. Words and lists -/

theorem rd_eq {m : Words} {i : Nat} (h : i ≤ m.alloclen + 1) : m.rd i = some (m.cells i) := if_pos h

theorem wr_eq {m : Words} {i : Nat} (v : Nat) (h : i ≤ m.alloclen + 1) :
    m.wr i v = some { m with cells := Buffer.set m.cells i v } := if_pos h

theorem copy_eq {dst src : Words} {base start n : Nat} (h : base + n ≤ dst.alloclen + 2)
    (h' : start + n ≤ src.alloclen + 2) : dst.copy base src start n =
      some { dst with cells := copied dst.cells src.cells base start n } := if_pos ⟨h, h'⟩

/-- The words from `lo` on. -/
def seg (cells : Nat → Nat) (lo n : Nat) : List Nat := (List.range' lo n).map cells

theorem seg_succ (cells : Nat → Nat) (lo n : Nat) :
    seg cells lo (n + 1) = cells lo :: seg cells (lo + 1) n := by
  unfold seg
  rw [List.range'_succ, List.map_cons]

theorem seg_add (cells : Nat → Nat) (lo n k : Nat) :
    seg cells lo (n + k) = seg cells lo n ++ seg cells (lo + n) k := by
  unfold seg
  rw [← List.map_append, List.range'_append_1]

theorem mem_seg {cells : Nat → Nat} {lo n x : Nat} :
    x ∈ seg cells lo n ↔ ∃ i, lo ≤ i ∧ i < lo + n ∧ cells i = x := by
  unfold seg
  simp only [List.mem_map, List.mem_range'_1, and_assoc]

theorem seg_congr {cells cells' : Nat → Nat} {lo n : Nat}
    (h : ∀ i, lo ≤ i → i < lo + n → cells i = cells' i) : seg cells lo n = seg cells' lo n := by
  apply List.map_congr_left
  intro i hi
  have := List.mem_range'_1.mp hi
  exact h i this.1 this.2

-- a block that was moved
theorem seg_shift {cells cells' : Nat → Nat} {lo lo' n : Nat}
    (h : ∀ k, k < n → cells (lo + k) = cells' (lo' + k)) : seg cells lo n = seg cells' lo' n := by
  induction n generalizing lo lo' with
  | zero => rfl
  | succ n ih =>
    rw [seg_succ, seg_succ, show cells lo = cells' lo' from h 0 (Nat.succ_pos n)]
    congr 1
    apply ih
    intro k hk
    have := h (k + 1) (by omega)
    rwa [show lo + 1 + k = lo + (k + 1) by omega, show lo' + 1 + k = lo' + (k + 1) by omega]

theorem pairwise_seg {cells : Nat → Nat} {lo n : Nat} : (seg cells lo n).Pairwise (· > ·) ↔
    ∀ i j, lo ≤ i → i < j → j < lo + n → cells j < cells i := by
  induction n generalizing lo with
  | zero =>
    refine iff_of_true List.Pairwise.nil fun i j hi hij hj => ?_
    omega
  | succ n ih =>
    rw [seg_succ, List.pairwise_cons, ih]
    constructor
    · intro h i j hi hij hj
      by_cases hlo : i = lo
      · rw [hlo]
        exact h.1 _ (mem_seg.mpr ⟨j, by omega, by omega, rfl⟩)
      · exact h.2 i j (by omega) hij (by omega)
    · intro h
      refine ⟨fun x hx => ?_, fun i j hi hij hj => h i j (by omega) hij (by omega)⟩
      have ⟨i, hi, hin, hc⟩ := mem_seg.mp hx
      rw [← hc]
      exact h lo i le_rfl (by omega) (by omega)

theorem list_eq (m : Words) : m.list = seg m.cells 1 m.size := rfl

/-- A list of pages: strictly descending, and none is the invalid one. -/
structure Descends (m : Words) : Prop where
  strict : m.list.Pairwise (· > ·)
  page : ∀ p ∈ m.list, p < pInvalid

theorem Descends.lt {m : Words} (h : m.Descends) {i j : Nat} (hi : 1 ≤ i) (hij : i < j)
    (hj : j ≤ m.size) : m.cells j < m.cells i :=
  pairwise_seg.mp h.strict i j hi hij (by omega)

theorem Descends.lt_pInvalid {m : Words} (h : m.Descends) {i : Nat} (hi : 1 ≤ i) (hs : i ≤ m.size) :
    m.cells i < pInvalid := h.page _ (mem_seg.mpr ⟨i, hi, by omega, rfl⟩)

/-! ## 2. The loop of `pnl_merge_inner` -/

section Loop

variable {old src : Words} {dst : Words} {w a b : Nat}

/-- `old` is the list before the merge, and the words above `w` are placed. -/
structure Merging (old src dst : Words) (w a b : Nat) : Prop where
  dstLeft : a ≤ old.size
  srcLeft : b ≤ src.size
  place : w = a + b
  alloclen : dst.alloclen = old.alloclen
  detent : dst.cells 0 = pInvalid
  front : ∀ i, 1 ≤ i → i ≤ a → dst.cells i = old.cells i
  sorted : (seg dst.cells (w + 1) (old.size + src.size - w)).Pairwise (· > ·)
  perm : (seg dst.cells (w + 1) (old.size + src.size - w)).Perm
    (seg old.cells (a + 1) (old.size - a) ++ seg src.cells (b + 1) (src.size - b))
  below : ∀ x ∈ seg dst.cells (w + 1) (old.size + src.size - w),
    (1 ≤ a → x < old.cells a) ∧ (1 ≤ b → x < src.cells b)

/-- What the operations ask of their lists. -/
structure Mergeable (old src : Words) : Prop where
  dstOk : old.Descends
  srcOk : src.Descends
  disjoint : ∀ p ∈ old.list, p ∉ src.list
  room : old.size + src.size ≤ old.alloclen
  srcRoom : src.size ≤ src.alloclen

-- the placed words with the next one
theorem seg_set (cells : Nat → Nat) {w n v : Nat} (hw : 1 ≤ w) (hn : w ≤ n) :
    seg (Buffer.set cells w v) (w - 1 + 1) (n - (w - 1)) = v :: seg cells (w + 1) (n - w) := by
  rw [show n - (w - 1) = n - w + 1 by omega, Nat.sub_add_cancel hw, seg_succ, Buffer.set_self]
  congr 1
  apply seg_congr
  intro i hi _
  exact Buffer.set_of_ne _ _ (by omega)

theorem Merging.takeDst (hm : Mergeable old src) (h : Merging old src dst w a b) (hb : 1 ≤ b)
    (ha : 1 ≤ a) (hlt : old.cells a < src.cells b) :
    Merging old src { dst with cells := Buffer.set dst.cells w (dst.cells a) } (w - 1) (a - 1) b := by
  have hplace := h.place
  have hleft := h.dstLeft
  have hright := h.srcLeft
  have hseg := seg_set dst.cells (v := dst.cells a) (show 1 ≤ w by omega)
    (show w ≤ old.size + src.size by omega)
  have hcell := h.front a ha le_rfl
  rw [hcell] at hseg ⊢
  constructor
  · omega
  · exact h.srcLeft
  · omega
  · exact h.alloclen
  · exact (Buffer.set_of_ne _ _ (by omega)).trans h.detent
  · intro i hi hia
    exact (Buffer.set_of_ne _ _ (by omega)).trans (h.front i hi (by omega))
  · rw [hseg, List.pairwise_cons]
    exact ⟨fun x hx => (h.below x hx).1 ha, h.sorted⟩
  · rw [hseg, show old.size - (a - 1) = old.size - a + 1 by omega, Nat.sub_add_cancel ha, seg_succ]
    exact h.perm.cons _
  · intro x hx
    rw [hseg] at hx
    rcases List.mem_cons.mp hx with heq | hmem
    · rw [heq]
      exact ⟨fun ha' => hm.dstOk.lt ha' (by omega) (by omega), fun _ => hlt⟩
    · have hold := h.below x hmem
      exact ⟨fun ha' => (hold.1 ha).trans (hm.dstOk.lt ha' (by omega) (by omega)), hold.2⟩

theorem Merging.takeSrc (hm : Mergeable old src) (h : Merging old src dst w a b) (hb : 1 ≤ b)
    (hle : 1 ≤ a → src.cells b ≤ old.cells a) :
    Merging old src { dst with cells := Buffer.set dst.cells w (src.cells b) } (w - 1) a (b - 1) := by
  have hplace := h.place
  have hleft := h.dstLeft
  have hright := h.srcLeft
  have hseg := seg_set dst.cells (v := src.cells b) (show 1 ≤ w by omega)
    (show w ≤ old.size + src.size by omega)
  have hlt : 1 ≤ a → src.cells b < old.cells a := by
    intro ha
    apply lt_of_le_of_ne (hle ha)
    intro heq
    apply hm.disjoint (old.cells a) (mem_seg.mpr ⟨a, ha, by omega, rfl⟩)
    rw [← heq]
    exact mem_seg.mpr ⟨b, hb, by omega, rfl⟩
  constructor
  · exact h.dstLeft
  · omega
  · omega
  · exact h.alloclen
  · exact (Buffer.set_of_ne _ _ (by omega)).trans h.detent
  · intro i hi hia
    exact (Buffer.set_of_ne _ _ (by omega)).trans (h.front i hi (by omega))
  · rw [hseg, List.pairwise_cons]
    exact ⟨fun x hx => (h.below x hx).2 hb, h.sorted⟩
  · rw [hseg, show src.size - (b - 1) = src.size - b + 1 by omega, Nat.sub_add_cancel hb, seg_succ]
    exact (h.perm.cons _).trans List.perm_middle.symm
  · intro x hx
    rw [hseg] at hx
    rcases List.mem_cons.mp hx with heq | hmem
    · rw [heq]
      exact ⟨hlt, fun hb' => hm.srcOk.lt hb' (by omega) (by omega)⟩
    · have hold := h.below x hmem
      exact ⟨hold.1, fun hb' => (hold.2 hb).trans (hm.srcOk.lt hb' (by omega) (by omega))⟩

-- the word of `dst` is the greater one exactly if there is one and it is
theorem Merging.ordered_iff (hm : Mergeable old src) (h : Merging old src dst w a b) (hb : 1 ≤ b) :
    ordered (src.cells b) (dst.cells a) = true ↔ 1 ≤ a ∧ old.cells a < src.cells b := by
  have hright := h.srcLeft
  unfold ordered
  rw [decide_eq_true_eq]
  by_cases ha : 1 ≤ a
  · rw [h.front a ha le_rfl, and_iff_right ha]
  · have hdetent := hm.srcOk.lt_pInvalid hb hright
    rw [show a = 0 by omega, h.detent]
    exact iff_of_false (by omega) fun h => absurd h.1 (by decide)

theorem Merging.not_ordered (hm : Mergeable old src) (h : Merging old src dst w a b) (hb : 1 ≤ b)
    (hflag : ¬ordered (src.cells b) (dst.cells a) = true) : 1 ≤ a → src.cells b ≤ old.cells a := by
  intro ha
  rw [h.ordered_iff hm hb, not_and] at hflag
  exact Nat.not_lt.mp (hflag ha)

theorem back_eq {i : Nat} (h : 1 ≤ i) : back i = some (i - 1) := by
  cases i with
  | zero => exact absurd h (by decide)
  | succ i => rfl

theorem mergeCmov_spec (hm : Mergeable old src) : ∀ fuel dst w a b, w < fuel → 1 ≤ b →
    Merging old src dst w a b →
    ∃ dst' a', mergeCmov src fuel dst w a b = some dst' ∧ Merging old src dst' a' a' 0
  | 0, _, w, _, _, hfuel, _, _ => absurd hfuel (Nat.not_lt_zero w)
  | fuel + 1, dst, w, a, b, hfuel, hb, h => by
    have hplace := h.place
    have hleft := h.dstLeft
    have hright := h.srcLeft
    have hroom := hm.room
    have hsrcRoom := hm.srcRoom
    have halloc := h.alloclen
    unfold mergeCmov
    rw [rd_eq (m := src) (i := b) (by omega), Option.bind_some, rd_eq (m := dst) (by omega),
      Option.bind_some]
    dsimp only
    rw [wr_eq _ (by omega), Option.bind_some]
    by_cases hflag : ordered (src.cells b) (dst.cells a) = true
    · have ⟨ha, hlt⟩ := (h.ordered_iff hm hb).mp hflag
      have hnext := h.takeDst hm hb ha hlt
      rw [if_pos hflag, if_pos hflag, if_pos hflag, Option.bind_some, back_eq ha, Option.bind_some,
        back_eq (by omega), Option.bind_some, if_pos (show 0 < b from hb)]
      exact mergeCmov_spec hm fuel _ _ _ _ (by omega) hb hnext
    · have hnext := h.takeSrc hm hb (h.not_ordered hm hb hflag)
      rw [if_neg hflag, if_neg hflag, if_neg hflag, back_eq hb, Option.bind_some, Option.bind_some,
        back_eq (by omega), Option.bind_some]
      by_cases hlast : 0 < b - 1
      · rw [if_pos hlast]
        exact mergeCmov_spec hm fuel _ _ _ _ (by omega) hlast hnext
      · rw [if_neg hlast]
        refine ⟨_, a, rfl, ?_⟩
        rw [show b - 1 = 0 by omega, show w - 1 = a by omega] at hnext
        exact hnext

theorem takeDst_spec (hm : Mergeable old src) (hb : 1 ≤ b) : ∀ fuel dst w a, w < fuel →
    Merging old src dst w a b →
    ∃ dst' w' a', takeDst src b fuel dst w a = some (dst', w', a') ∧ w' ≤ w ∧
      Merging old src dst' w' a' b ∧ ¬ordered (src.cells b) (dst'.cells a') = true
  | 0, _, w, _, hfuel, _ => absurd hfuel (Nat.not_lt_zero w)
  | fuel + 1, dst, w, a, hfuel, h => by
    have hplace := h.place
    have hleft := h.dstLeft
    have hright := h.srcLeft
    have hroom := hm.room
    have hsrcRoom := hm.srcRoom
    have halloc := h.alloclen
    unfold takeDst
    rw [rd_eq (m := src) (i := b) (by omega), Option.bind_some, rd_eq (m := dst) (by omega),
      Option.bind_some]
    by_cases hflag : ordered (src.cells b) (dst.cells a) = true
    · have ⟨ha, hlt⟩ := (h.ordered_iff hm hb).mp hflag
      rw [if_pos hflag, wr_eq _ (by omega), Option.bind_some, back_eq (by omega), Option.bind_some,
        back_eq ha, Option.bind_some]
      have ⟨dst', w', a', heq, hle, hdone⟩ :=
        takeDst_spec hm hb fuel _ _ _ (by omega) (h.takeDst hm hb ha hlt)
      exact ⟨dst', w', a', heq, by omega, hdone⟩
    · rw [if_neg hflag]
      exact ⟨dst, w, a, rfl, le_rfl, h, hflag⟩

theorem mergePlain_spec (hm : Mergeable old src) : ∀ fuel dst w a b, w < fuel → 1 ≤ b →
    Merging old src dst w a b →
    ∃ dst' a', mergePlain src fuel dst w a b = some dst' ∧ Merging old src dst' a' a' 0
  | 0, _, w, _, _, hfuel, _, _ => absurd hfuel (Nat.not_lt_zero w)
  | fuel + 1, dst, w, a, b, hfuel, hb, h => by
    have ⟨dst', w', a', heq, hle, htaken, hflag⟩ :=
      takeDst_spec hm hb (w + 1) dst w a (Nat.lt_succ_self w) h
    have hplace := htaken.place
    have hleft := htaken.dstLeft
    have hright := htaken.srcLeft
    have hroom := hm.room
    have hsrcRoom := hm.srcRoom
    have halloc := htaken.alloclen
    have hnext := htaken.takeSrc hm hb (htaken.not_ordered hm hb hflag)
    unfold mergePlain
    rw [heq, Option.bind_some]
    dsimp only
    rw [rd_eq (m := src) (by omega), Option.bind_some, wr_eq _ (by omega), Option.bind_some,
      back_eq (by omega), Option.bind_some, back_eq hb, Option.bind_some]
    by_cases hlast : 0 < b - 1
    · rw [if_pos hlast]
      exact mergePlain_spec hm fuel _ _ _ _ (by omega) hlast hnext
    · rw [if_neg hlast]
      refine ⟨_, a', rfl, ?_⟩
      rw [show b - 1 = 0 by omega, show w' - 1 = a' by omega] at hnext
      exact hnext

/-! ## 3. The merged list -/

/-- The words of the merged list, but for its length. -/
structure Merged (old src dst : Words) : Prop where
  alloclen : dst.alloclen = old.alloclen
  sorted : (seg dst.cells 1 (old.size + src.size)).Pairwise (· > ·)
  perm : (seg dst.cells 1 (old.size + src.size)).Perm (old.list ++ src.list)

theorem Merging.merged (hm : Mergeable old src) (h : Merging old src dst a a 0) :
    Merged old src dst := by
  have hleft := h.dstLeft
  have hfront : seg dst.cells 1 a = seg old.cells 1 a :=
    seg_congr fun i hi hia => h.front i hi (by omega)
  have hsplit : seg dst.cells 1 (old.size + src.size) =
      seg old.cells 1 a ++ seg dst.cells (a + 1) (old.size + src.size - a) := by
    have hsum : old.size + src.size = a + (old.size + src.size - a) := by omega
    rw [← hfront, Nat.add_comm a 1, ← seg_add]
    congr 1
  have hold : old.list = seg old.cells 1 a ++ seg old.cells (a + 1) (old.size - a) := by
    rw [list_eq, Nat.add_comm a 1, ← seg_add]
    congr 1
    omega
  refine ⟨h.alloclen, ?_, ?_⟩
  · rw [hsplit, List.pairwise_append]
    refine ⟨?_, h.sorted, fun x hx y hy => ?_⟩
    · exact pairwise_seg.mpr fun i j hi hij hj => hm.dstOk.lt hi hij (by omega)
    · have ⟨i, hi, hia, hc⟩ := mem_seg.mp hx
      have hlt := (h.below y hy).1 (by omega)
      rw [← hc]
      by_cases heq : i = a
      · rw [heq]
        exact hlt
      · exact hlt.trans (hm.dstOk.lt hi (by omega) hleft)
  · rw [hsplit, hold, List.append_assoc]
    exact h.perm.append_left _

-- nothing is placed yet
theorem Merging.start : Merging old src
    { old with cells := Buffer.set old.cells 0 pInvalid } (old.size + src.size) old.size src.size := by
  refine ⟨le_rfl, le_rfl, rfl, rfl, Buffer.set_self old.cells 0 pInvalid, fun i hi _ => ?_, ?_, ?_, ?_⟩
  · exact Buffer.set_of_ne _ _ (by omega)
  · rw [Nat.sub_self]
    exact List.Pairwise.nil
  · rw [Nat.sub_self, Nat.sub_self, Nat.sub_self]
    exact List.Perm.refl _
  · rw [Nat.sub_self]
    exact fun x hx => absurd hx List.not_mem_nil

theorem mergeShort_spec (haveCmov : Bool) (hm : Mergeable old src) (hsrc : 0 < src.size) :
    ∃ dst, mergeShort haveCmov old src old.size src.size = some dst ∧ Merged old src dst := by
  unfold mergeShort mergeInner
  rw [wr_eq _ (Nat.zero_le _), Option.bind_some]
  cases haveCmov with
  | true =>
    have ⟨dst, a, heq, h⟩ := mergeCmov_spec hm _ _ _ _ _ (Nat.lt_succ_self _) hsrc .start
    exact ⟨dst, heq, h.merged hm⟩
  | false =>
    have ⟨dst, a, heq, h⟩ := mergePlain_spec hm _ _ _ _ _ (Nat.lt_succ_self _) hsrc .start
    exact ⟨dst, heq, h.merged hm⟩

/-! ## 4. The short cuts -/

theorem copied_eq (dst' src' : Nat → Nat) {base start n k : Nat} (hk : k < n) :
    copied dst' src' base start n (base + k) = src' (start + k) := by
  unfold copied
  rw [if_pos (by omega), Nat.add_sub_cancel_left]

theorem copied_of_lt (dst' src' : Nat → Nat) {base start n i : Nat} (hi : i < base) :
    copied dst' src' base start n i = dst' i := if_neg (by omega)

theorem copied_of_ge (dst' src' : Nat → Nat) {base start n i : Nat} (hi : base + n ≤ i) :
    copied dst' src' base start n i = dst' i := if_neg (by omega)

-- two descending blocks, the second below the first
theorem pairwise_blocks {x y : Words} (hx : x.Descends) (hy : y.Descends)
    (hlt : 1 ≤ x.size → 1 ≤ y.size → y.cells 1 < x.cells x.size) :
    (seg x.cells 1 x.size ++ seg y.cells 1 y.size).Pairwise (· > ·) := by
  rw [List.pairwise_append]
  refine ⟨hx.strict, hy.strict, fun p hp q hq => ?_⟩
  have ⟨i, hi, his, hc⟩ := mem_seg.mp hp
  have ⟨j, hj, hjs, hd⟩ := mem_seg.mp hq
  have hedge := hlt (by omega) (by omega)
  have hlast : x.cells x.size ≤ x.cells i := by
    by_cases heq : i = x.size
    · rw [heq]
    · exact (hx.lt hi (by omega) le_rfl).le
  have hfirst : y.cells j ≤ y.cells 1 := by
    by_cases heq : j = 1
    · rw [heq]
    · exact (hy.lt le_rfl (by omega) (by omega)).le
  rw [← hc, ← hd]
  omega

theorem append_spec (hm : Mergeable old src)
    (hlt : 1 ≤ old.size → 1 ≤ src.size → src.cells 1 < old.cells old.size) :
    ∃ dst, old.copy (old.size + 1) src 1 src.size = some dst ∧ Merged old src dst := by
  have hroom := hm.room
  have hsrcRoom := hm.srcRoom
  have hblocks : seg (copied old.cells src.cells (old.size + 1) 1 src.size) 1 (old.size + src.size) =
      old.list ++ src.list := by
    rw [seg_add]
    congr 1
    · exact seg_congr fun i _ hi => copied_of_lt _ _ (by omega)
    · rw [Nat.add_comm 1 old.size]
      exact seg_shift fun k hk => copied_eq _ _ hk
  refine ⟨_, copy_eq (by omega) (by omega), rfl, ?_, ?_⟩
  · rw [hblocks]
    exact pairwise_blocks hm.dstOk hm.srcOk hlt
  · rw [hblocks]

theorem prepend_spec (hm : Mergeable old src)
    (hlt : 1 ≤ src.size → 1 ≤ old.size → old.cells 1 < src.cells src.size) :
    ∃ dst, ((old.copy (1 + src.size) old 1 old.size).bind fun dst => dst.copy 1 src 1 src.size) =
      some dst ∧ Merged old src dst := by
  have hroom := hm.room
  have hsrcRoom := hm.srcRoom
  let moved := copied old.cells old.cells (1 + src.size) 1 old.size
  have hblocks : seg (copied moved src.cells 1 1 src.size) 1 (old.size + src.size) =
      src.list ++ old.list := by
    rw [Nat.add_comm old.size, seg_add]
    congr 1
    · exact seg_shift fun k hk => copied_eq _ _ hk
    · apply seg_shift
      intro k hk
      rw [copied_of_ge _ _ (by omega)]
      exact copied_eq _ _ hk
  refine ⟨{ old with cells := copied moved src.cells 1 1 src.size }, ?_, rfl, ?_, ?_⟩
  · rw [copy_eq (by omega) (by omega), Option.bind_some]
    exact copy_eq (show 1 + src.size ≤ old.alloclen + 2 by omega) (by omega)
  · rw [hblocks]
    exact pairwise_blocks hm.srcOk hm.dstOk hlt
  · rw [hblocks]
    exact List.perm_append_comm

theorem appends_eq (hm : Mergeable old src) (hsrc : 0 < src.size) : appends old src old.size =
    some (decide (old.size = 0) || ordered (old.cells old.size) (src.cells 1)) := by
  have hroom := hm.room
  have hsrcRoom := hm.srcRoom
  unfold appends
  by_cases hzero : old.size = 0
  · rw [if_pos hzero, decide_eq_true hzero, Bool.true_or]
  · rw [if_neg hzero, decide_eq_false hzero, rd_eq (by omega), Option.bind_some, rd_eq (by omega)]
    rfl

theorem precedes_eq (hm : Mergeable old src) :
    precedes old src src.size = some (ordered (src.cells src.size) (old.cells 1)) := by
  have hsrcRoom := hm.srcRoom
  unfold precedes
  rw [rd_eq (by omega), Option.bind_some, rd_eq (by omega)]
  rfl

theorem mergeWords_spec (b : Build) (hm : Mergeable old src) (hsrc : 0 < src.size) :
    ∃ dst, mergeWords b old src old.size src.size = some dst ∧ Merged old src dst := by
  have hshort := mergeShort_spec b.haveCmov hm hsrc
  unfold mergeWords
  by_cases hfew : b.debug = false ∧ old.size + src.size < (if b.haveCmov then 21 else 12)
  · rw [if_pos hfew]
    exact hshort
  · rw [if_neg hfew, appends_eq hm hsrc, Option.bind_some]
    by_cases happend : (decide (old.size = 0) || ordered (old.cells old.size) (src.cells 1)) = true
    · rw [if_pos happend]
      apply append_spec hm
      intro hold _
      rw [decide_eq_false (show ¬old.size = 0 by omega), Bool.false_or] at happend
      exact of_decide_eq_true happend
    · rw [if_neg happend, precedes_eq hm, Option.bind_some]
      by_cases hprepend : ordered (src.cells src.size) (old.cells 1) = true
      · rw [if_pos hprepend]
        exact prepend_spec hm fun _ _ => of_decide_eq_true hprepend
      · rw [if_neg hprepend]
        exact hshort

/-- The descending union of two lists. -/
structure Union (old src dst : Words) : Prop where
  size : dst.size = old.size + src.size
  alloclen : dst.alloclen = old.alloclen
  strict : dst.list.Pairwise (· > ·)
  perm : dst.list.Perm (old.list ++ src.list)

-- with its length in its word
theorem Merged.union (h : Merged old src dst) :
    Union old src { dst with cells := Buffer.set dst.cells 0 (old.size + src.size) } := by
  have hlist : seg (Buffer.set dst.cells 0 (old.size + src.size)) 1 (old.size + src.size) =
      seg dst.cells 1 (old.size + src.size) :=
    seg_congr fun i hi _ => Buffer.set_of_ne _ _ (by omega)
  refine ⟨rfl, h.alloclen, ?_, ?_⟩
  · show (seg (Buffer.set dst.cells 0 (old.size + src.size)) 1 (old.size + src.size)).Pairwise _
    rw [hlist]
    exact h.sorted
  · show (seg (Buffer.set dst.cells 0 (old.size + src.size)) 1 (old.size + src.size)).Perm _
    rw [hlist]
    exact h.perm

/-- Every way of merging gives the union, in the memory of the list, and its length. -/
theorem pnlMerge_spec (b : Build) (hm : Mergeable old src) :
    ∃ dst, pnlMerge b old src = some (dst, old.size + src.size) ∧ Union old src dst := by
  unfold pnlMerge
  rw [rd_eq (Nat.zero_le _), Option.bind_some, rd_eq (Nat.zero_le _), Option.bind_some]
  change ∃ dst, (if 0 < src.size then _ else some (old, old.size)) = _ ∧ _
  by_cases hsrc : 0 < src.size
  · have ⟨dst, heq, h⟩ := mergeWords_spec b hm hsrc
    refine ⟨_, ?_, h.union⟩
    rw [if_pos hsrc]
    change ((mergeWords b old src old.size src.size).bind _) = _
    rw [heq, Option.bind_some, wr_eq _ (Nat.zero_le _)]
    rfl
  · have hzero : src.size = 0 := by omega
    have hnil : src.list = [] := by
      rw [list_eq, hzero]
      rfl
    refine ⟨old, ?_, ?_, rfl, hm.dstOk.strict, ?_⟩
    · rw [if_neg hsrc, hzero, Nat.add_zero]
    · rw [hzero, Nat.add_zero]
    · rw [hnil, List.append_nil]

end Loop

end Mdbx.Pnl.Words
