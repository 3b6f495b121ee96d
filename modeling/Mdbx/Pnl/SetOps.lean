import Mdbx.Pnl.Merge

/-!
# Pnl.SetOps — `pnl_insert_span` and `pnl_sift`

A span goes to its place between the greater and the lower pages; sifting takes the pages of another
list out.  Both leave a descending list and touch only the memory of their lists.
-/

namespace Mdbx.Pnl.Words

/-! ## 1. `pnl_insert_span` -/

section Insert

variable {m : Words} {pgno n : Nat} {realloc : Option Nat}

/-- The two ways in which a list stays without room for `n` more pages. -/
inductive Refused (m : Words) (n : Nat) (realloc : Option Nat) : Rc → Prop where
  | tooLong (full : m.alloclen < m.size + n) (limit : pagelistLimit < m.size + n) :
      Refused m n realloc .txnFull
  | noMemory (full : m.alloclen < m.size + n) (failed : realloc = none) :
      Refused m n realloc .enomem

theorem Refused.full {rc : Rc} (h : Refused m n realloc rc) : m.alloclen < m.size + n := by
  cases h with
  | tooLong full => exact full
  | noMemory full => exact full

/-- With room or without, the pages stay. -/
theorem pnlNeed_cases (m : Words) (n : Nat) (realloc : Option Nat) :
    (∃ alloclen, pnlNeed m n realloc = (.success, { m with alloclen := alloclen }) ∧
      m.size + n ≤ alloclen) ∨
    (∃ rc, Refused m n realloc rc ∧ pnlNeed m n realloc = (rc, m)) := by
  unfold pnlNeed
  dsimp only
  by_cases hfits : m.size + n ≤ m.alloclen
  · rw [if_pos hfits]
    exact Or.inl ⟨m.alloclen, rfl, hfits⟩
  · rw [if_neg hfits]
    by_cases hlong : pagelistLimit < m.size + n
    · rw [if_pos hlong]
      exact Or.inr ⟨.txnFull, .tooLong (by omega) hlong, rfl⟩
    · rw [if_neg hlong]
      cases realloc with
      | none => exact Or.inr ⟨.enomem, .noMemory (by omega) rfl, rfl⟩
      | some extra =>
        refine Or.inl ⟨_, rfl, ?_⟩
        split_ifs
        · omega
        · omega

theorem shiftUp_spec (pgno : Nat) (hn : 1 ≤ n) : ∀ r (m : Words), r + n ≤ m.alloclen →
    ∃ cells r', shiftUp pgno n r m = some ({ m with cells := cells }, r') ∧ r' ≤ r ∧
      (1 ≤ r' → pgno < m.cells r') ∧ (∀ i, r' < i → i ≤ r → m.cells i ≤ pgno) ∧
      ∀ i, cells i = if r' + n < i ∧ i ≤ r + n then m.cells (i - n) else m.cells i
  | 0, m, _ => ⟨m.cells, 0, rfl, le_rfl, fun h => absurd h (by decide), fun i hi hi' => by omega,
      fun i => (if_neg (by omega)).symm⟩
  | r + 1, m, hroom => by
    unfold shiftUp
    rw [rd_eq (by omega), Option.bind_some]
    by_cases hle : m.cells (r + 1) ≤ pgno
    · rw [if_pos hle, wr_eq _ (by omega), Option.bind_some]
      have ⟨cells, r', heq, hr, habove, hbelow, hcells⟩ := shiftUp_spec pgno hn r
        { m with cells := Buffer.set m.cells (r + 1 + n) (m.cells (r + 1)) }
        (show r + n ≤ m.alloclen by omega)
      have hold : ∀ i, i ≤ r + n →
          Buffer.set m.cells (r + 1 + n) (m.cells (r + 1)) i = m.cells i :=
        fun i hi => Buffer.set_of_ne _ _ (by omega)
      refine ⟨cells, r', heq, by omega, fun h => ?_, fun i hi hi' => ?_, fun i => ?_⟩
      · have hset : pgno < Buffer.set m.cells (r + 1 + n) (m.cells (r + 1)) r' := habove h
        rwa [hold r' (by omega)] at hset
      · by_cases htop : i = r + 1
        · rw [htop]
          exact hle
        · have hset : Buffer.set m.cells (r + 1 + n) (m.cells (r + 1)) i ≤ pgno :=
            hbelow i hi (by omega)
          rwa [hold i (by omega)] at hset
      · rw [hcells]
        by_cases htop : i = r + 1 + n
        · rw [if_neg (by omega), if_pos (by omega), htop, Nat.add_sub_cancel]
          exact Buffer.set_self _ _ _
        · by_cases hin : r' + n < i ∧ i ≤ r + n
          · rw [if_pos hin, if_pos (by omega)]
            exact hold _ (by omega)
          · rw [if_neg hin, if_neg (by omega)]
            exact Buffer.set_of_ne _ _ htop
    · rw [if_neg hle]
      refine ⟨m.cells, r + 1, rfl, le_rfl, fun _ => by omega, fun i hi hi' => by omega, fun i => ?_⟩
      rw [if_neg (by omega)]

theorem fillSpan_spec (r : Nat) : ∀ k fill (m : Words), fill + k < 2 ^ 32 → r + k ≤ m.alloclen →
    ∃ cells, fillSpan r k fill m = some { m with cells := cells } ∧
      ∀ i, cells i = if r < i ∧ i ≤ r + k then fill + (r + k - i) else m.cells i
  | 0, fill, m, _, _ => ⟨m.cells, rfl, fun i => (if_neg (by omega)).symm⟩
  | k + 1, fill, m, hfill, hroom => by
    unfold fillSpan
    rw [wr_eq _ (by omega), Option.bind_some, Nat.mod_eq_of_lt (show fill + 1 < 2 ^ 32 by omega)]
    have ⟨cells, heq, hcells⟩ := fillSpan_spec r k (fill + 1)
      { m with cells := Buffer.set m.cells (r + (k + 1)) fill } (by omega)
      (show r + k ≤ m.alloclen by omega)
    refine ⟨cells, heq, fun i => ?_⟩
    rw [hcells]
    by_cases hin : r < i ∧ i ≤ r + k
    · rw [if_pos hin, if_pos (by omega)]
      omega
    · rw [if_neg hin]
      by_cases htop : i = r + (k + 1)
      · rw [if_pos (by omega), htop, Nat.sub_self]
        exact Buffer.set_self _ _ _
      · rw [if_neg (by omega)]
        exact Buffer.set_of_ne _ _ htop

-- the words of a span are its pages
theorem seg_span {cells : Nat → Nat} {r n pgno : Nat}
    (h : ∀ i, r < i → i ≤ r + n → cells i = pgno + (r + n - i)) :
    seg cells (r + 1) n = (List.range' pgno n).reverse := by
  induction n generalizing r with
  | zero => rfl
  | succ n ih =>
    have hfirst := h (r + 1) (by omega) (by omega)
    rw [show r + (n + 1) - (r + 1) = n by omega] at hfirst
    rw [seg_succ, hfirst, List.range'_1_concat, List.reverse_append, List.reverse_singleton,
      List.singleton_append]
    congr 1
    apply ih
    intro i hi hin
    rw [h i (by omega) (by omega)]
    omega

/-- `cells` has the span behind the first `r` pages of the list. -/
structure Inserted (m : Words) (pgno n r : Nat) (cells : Nat → Nat) : Prop where
  place : r ≤ m.size
  size : cells 0 = m.size + n
  above : ∀ i, 1 ≤ i → i ≤ r → cells i = m.cells i ∧ pgno + n ≤ m.cells i
  span : ∀ i, r < i → i ≤ r + n → cells i = pgno + (r + n - i)
  below : ∀ i, r < i → i ≤ m.size → cells (i + n) = m.cells i ∧ m.cells i < pgno

theorem Inserted.list_eq {r : Nat} {cells : Nat → Nat} (h : Inserted m pgno n r cells)
    (alloclen : Nat) : list ⟨cells, alloclen⟩ =
      seg m.cells 1 r ++ ((List.range' pgno n).reverse ++ seg m.cells (r + 1) (m.size - r)) := by
  have hplace := h.place
  show seg cells 1 (cells 0) = _
  rw [h.size, show m.size + n = r + (n + (m.size - r)) by omega, seg_add, seg_add,
    Nat.add_comm 1 r, seg_span h.span]
  congr 1
  · exact seg_congr fun i hi hin => (h.above i hi (by omega)).1
  · congr 1
    apply seg_shift
    intro k hk
    have := (h.below (r + 1 + k) (by omega) (by omega)).1
    rwa [show r + 1 + k + n = r + 1 + n + k by omega] at this

theorem Inserted.strict {r : Nat} {cells : Nat → Nat} (hm : m.Descends)
    (h : Inserted m pgno n r cells) (alloclen : Nat) :
    (list ⟨cells, alloclen⟩).Pairwise (· > ·) := by
  have hplace := h.place
  rw [h.list_eq, List.pairwise_append, List.pairwise_append]
  have hlow : ∀ x ∈ seg m.cells (r + 1) (m.size - r), x < pgno := by
    intro x hx
    have ⟨i, hi, hin, hc⟩ := mem_seg.mp hx
    rw [← hc]
    exact (h.below i (by omega) (by omega)).2
  have hin : ∀ x ∈ (List.range' pgno n).reverse, pgno ≤ x ∧ x < pgno + n := by
    intro x hx
    exact List.mem_range'_1.mp (List.mem_reverse.mp hx)
  refine ⟨?_, ⟨?_, ?_, fun x hx y hy => ?_⟩, fun x hx y hy => ?_⟩
  · exact pairwise_seg.mpr fun i j hi hij hj => hm.lt hi hij (by omega)
  · rw [List.pairwise_reverse]
    exact List.pairwise_lt_range'
  · exact pairwise_seg.mpr fun i j hi hij hj => hm.lt (by omega) hij (by omega)
  · have := hlow y hy
    have := hin x hx
    omega
  · have ⟨i, hi, hir, hc⟩ := mem_seg.mp hx
    have habove := (h.above i hi (by omega)).2
    rcases List.mem_append.mp hy with hy | hy
    · have := hin y hy
      omega
    · have := hlow y hy
      omega

theorem Inserted.perm {r : Nat} {cells : Nat → Nat} (h : Inserted m pgno n r cells)
    (alloclen : Nat) : (list ⟨cells, alloclen⟩).Perm (m.list ++ List.range' pgno n) := by
  have hold : m.list = seg m.cells 1 r ++ seg m.cells (r + 1) (m.size - r) := by
    rw [Words.list_eq, Nat.add_comm r 1, ← seg_add, Nat.add_sub_cancel' h.place]
  rw [h.list_eq, hold, List.append_assoc]
  apply List.Perm.append_left
  exact List.perm_append_comm.trans (List.Perm.append_left _ (List.reverse_perm _))

/-- The span is in the list afterwards, and nothing else has changed; where the list can get no room
for it, all is as it was. -/
theorem pnlInsertSpan_spec (hm : m.Descends) (hn : 1 ≤ n)
    (hspan : ∀ p ∈ m.list, p < pgno ∨ pgno + n ≤ p) (hpage : pgno + n ≤ pInvalid) :
    (∃ m', pnlInsertSpan m pgno n realloc = some (.success, m') ∧ m'.size = m.size + n ∧
      m'.size ≤ m'.alloclen ∧ m'.list.Pairwise (· > ·) ∧
      m'.list.Perm (m.list ++ List.range' pgno n)) ∨
    (∃ rc, Refused m n realloc rc ∧ pnlInsertSpan m pgno n realloc = some (rc, m)) := by
  unfold pnlInsertSpan
  rcases pnlNeed_cases m n realloc with ⟨alloclen, heq, hroom⟩ | ⟨rc, hrc, heq⟩
  · rw [heq]
    dsimp only
    rw [rd_eq (Nat.zero_le _), Option.bind_some, wr_eq _ (Nat.zero_le _), Option.bind_some]
    change (∃ m', ((shiftUp pgno n m.size
      ⟨Buffer.set m.cells 0 (m.size + n), alloclen⟩).bind _) = _ ∧ _) ∨ _
    have ⟨moved, r, hshift, hr, habove, hbelow, hmoved⟩ := shiftUp_spec pgno hn m.size
      ⟨Buffer.set m.cells 0 (m.size + n), alloclen⟩ hroom
    have ⟨cells, hfill, hcells⟩ := fillSpan_spec r n pgno ⟨moved, alloclen⟩
      (by unfold pInvalid at hpage; omega) (show r + n ≤ alloclen by omega)
    rw [hshift, Option.bind_some]
    dsimp only at habove hbelow hmoved hcells ⊢
    rw [hfill]
    have hset : ∀ i, 1 ≤ i → Buffer.set m.cells 0 (m.size + n) i = m.cells i :=
      fun i hi => Buffer.set_of_ne _ _ (by omega)
    have hpages : ∀ i, 1 ≤ i → i ≤ m.size → m.cells i < pgno ∨ pgno + n ≤ m.cells i :=
      fun i hi his => hspan _ (mem_seg.mpr ⟨i, hi, by omega, rfl⟩)
    have hinserted : Inserted m pgno n r cells := by
      refine ⟨hr, ?_, fun i hi hir => ⟨?_, ?_⟩, fun i hi hir => ?_, fun i hi his => ⟨?_, ?_⟩⟩
      · rw [hcells, if_neg (by omega), hmoved, if_neg (by omega)]
        exact Buffer.set_self _ _ _
      · rw [hcells, if_neg (by omega), hmoved, if_neg (by omega)]
        exact hset i hi
      · have hlast := habove (by omega)
        rw [hset r (by omega)] at hlast
        have hle : m.cells r ≤ m.cells i := by
          by_cases heq : i = r
          · rw [heq]
          · exact (hm.lt hi (by omega) hr).le
        exact (hpages i hi (by omega)).resolve_left (by omega)
      · rw [hcells, if_pos ⟨hi, hir⟩]
      · rw [hcells, if_neg (by omega), hmoved, if_pos (by omega), Nat.add_sub_cancel]
        exact hset i (by omega)
      · have hlow := hbelow i hi his
        rw [hset i (by omega)] at hlow
        exact (hpages i (by omega) his).resolve_right (by omega)
    refine Or.inl ⟨_, rfl, hinserted.size, ?_, hinserted.strict hm alloclen,
      hinserted.perm alloclen⟩
    show cells 0 ≤ alloclen
    rw [hinserted.size]
    exact hroom
  · rw [heq]
    refine Or.inr ⟨rc, hrc, ?_⟩
    cases hrc with
    | tooLong => rfl
    | noMemory => rfl

end Insert

/-! ## 2. What the search looks at -/

section Search

variable (haveCmov : Bool) {p q : Nat → Bool} {total : Nat}

theorem searchStep_congr (h : ∀ i < total, p i = q i) {it length : Nat} (hin : it + length ≤ total)
    (hpos : 0 < length) : searchStep haveCmov p it length = searchStep haveCmov q it length ∧
      (searchStep haveCmov p it length).1 + (searchStep haveCmov p it length).2 ≤ total := by
  unfold searchStep
  dsimp only
  rw [h (it + length / 2) (by omega)]
  refine ⟨rfl, ?_⟩
  split_ifs
  · dsimp only
    omega
  · dsimp only
    omega
  · dsimp only
    omega
  · dsimp only
    omega

theorem searchLoop_congr (h : ∀ i < total, p i = q i) : ∀ fuel it length, it + length ≤ total →
    searchLoop haveCmov p fuel it length = searchLoop haveCmov q fuel it length ∧
      (searchLoop haveCmov p fuel it length).1 + (searchLoop haveCmov p fuel it length).2 ≤ total
  | 0, it, length, hin => ⟨rfl, hin⟩
  | fuel + 1, it, length, hin => by
    unfold searchLoop
    by_cases hlong : length > 2
    · rw [if_pos hlong, if_pos hlong]
      obtain ⟨hstep, hnext⟩ := searchStep_congr haveCmov h hin (by omega)
      dsimp only
      rw [← hstep]
      exact searchLoop_congr h fuel _ _ hnext
    · rw [if_neg hlong, if_neg hlong]
      exact ⟨rfl, hin⟩

theorem searchFinish_congr (h : ∀ i < total, p i = q i) {it length : Nat}
    (hin : it + length ≤ total) : searchFinish p it length = searchFinish q it length := by
  unfold searchFinish
  dsimp only
  by_cases hzero : length = 0
  · rw [if_neg (by omega), if_neg (by omega), if_neg (by omega), if_neg (by omega)]
  · rw [h it (by omega)]
    congr 1
    by_cases hfirst : length > 1 ∧ q it = true
    · rw [if_pos hfirst, h (it + 1) (by omega)]
    · rw [if_neg hfirst, Nat.add_zero, h it (by omega)]

/-- The search looks at no cell behind the last one. -/
theorem search_congr (h : ∀ i < total, p i = q i) (hpos : 0 < total) :
    Mdbx.search haveCmov p total = Mdbx.search haveCmov q total := by
  unfold Mdbx.search
  dsimp only
  cases haveCmov with
  | false =>
    rw [if_neg Bool.false_ne_true, if_neg Bool.false_ne_true]
    have ⟨hloop, hin⟩ := searchLoop_congr false h total 0 total (by omega)
    rw [← hloop]
    exact searchFinish_congr h hin
  | true =>
    rw [if_pos rfl, if_pos rfl]
    have ⟨hstep, hnext⟩ := searchStep_congr true h (show 0 + total ≤ total by omega) hpos
    rw [← hstep]
    have ⟨hloop, hin⟩ := searchLoop_congr true h total _ _ hnext
    rw [← hloop]
    exact searchFinish_congr h hin

/-- `pnl_search` in a list reads nothing but its pages. -/
theorem pnlSearch_congr (b : Build) {m m' : Words} (hsize : m'.size = m.size)
    (halloc : m'.alloclen = m.alloclen)
    (hpages : ∀ i, 1 ≤ i → i ≤ m.size → m'.cells i = m.cells i) (hpos : 1 ≤ m.size) (pgno : Nat) :
    pnlSearch b m' pgno = pnlSearch b m pgno := by
  have hsame : ∀ i < m.size, ordered (m'.cells (i + 1)) pgno = ordered (m.cells (i + 1)) pgno :=
    fun i hi => by rw [hpages (i + 1) (by omega) hi]
  unfold pnlSearch
  rw [hsize, halloc, search_congr b.haveCmov hsame hpos]

end Search

/-! ## 3. `pnl_sift` -/

section Sift

variable {old fo m : Words} {w r f : Nat}

/-- Of the pages before `r` those that stay are in front of `w`; no page of `fo` before `f` is among
the others. -/
structure Sifting (old fo m : Words) (w r f : Nat) : Prop where
  alloclen : m.alloclen = old.alloclen
  places : 1 ≤ w ∧ w ≤ r ∧ r ≤ old.size + 1
  rest : ∀ i, r ≤ i → i ≤ old.size → m.cells i = old.cells i
  done : seg m.cells 1 (w - 1) = (seg old.cells 1 (r - 1)).filter fun p => p ∉ fo.list
  passed : ∀ j, 1 ≤ j → j < f → ∀ i, r ≤ i → i ≤ old.size → old.cells i < fo.cells j

theorem seg_last (cells : Nat → Nat) {r : Nat} (hr : 1 ≤ r) :
    seg cells 1 r = seg cells 1 (r - 1) ++ [cells r] := by
  conv_lhs => rw [show r = r - 1 + 1 by omega, seg_add]
  rw [show 1 + (r - 1) = r by omega]
  rfl

-- a page that is above the next one of `fo` is not in it
theorem not_mem_of_passed (hfo : fo.Descends) {x : Nat} (hf : 1 ≤ f)
    (hpassed : ∀ j, 1 ≤ j → j < f → x < fo.cells j)
    (hnext : f ≤ fo.size → fo.cells f < x) : x ∉ fo.list := by
  intro hmem
  have ⟨j, hj, hjs, hc⟩ := mem_seg.mp hmem
  rcases Nat.lt_trichotomy j f with hlt | heq | hgt
  · have := hpassed j hj hlt
    omega
  · have := hnext (by omega)
    rw [heq] at hc
    omega
  · have := hnext (by omega)
    have := hfo.lt hf hgt (by omega)
    omega

theorem Sifting.keep (h : Sifting old fo m w r f) (hr : r ≤ old.size)
    (hkeep : old.cells r ∉ fo.list) :
    Sifting old fo { m with cells := Buffer.set m.cells w (m.cells r) } (w + 1) (r + 1) f := by
  have hplaces := h.places
  have hsame : seg (Buffer.set m.cells w (m.cells r)) 1 (w - 1) = seg m.cells 1 (w - 1) :=
    seg_congr fun i _ hi => Buffer.set_of_ne _ _ (by omega)
  refine ⟨h.alloclen, by omega, fun i hi his => ?_, ?_, fun j hj hjf i hi his => ?_⟩
  · exact (Buffer.set_of_ne _ _ (by omega)).trans (h.rest i (by omega) his)
  · show seg (Buffer.set m.cells w (m.cells r)) 1 w = (seg old.cells 1 r).filter _
    rw [seg_last _ hplaces.1, hsame, Buffer.set_self, h.done, seg_last _ (show 1 ≤ r by omega),
      List.filter_append, h.rest r le_rfl hr]
    congr 1
    exact (List.filter_eq_self.mpr fun x hx => by
      rw [List.mem_singleton.mp hx]
      exact decide_eq_true hkeep).symm
  · exact h.passed j hj hjf i (by omega) his

theorem Sifting.drop (hm : old.Descends) (h : Sifting old fo m w r f) (hr : r ≤ old.size)
    (heq : old.cells r = fo.cells f) (hf : 1 ≤ f) (hfo : f ≤ fo.size) :
    Sifting old fo m w (r + 1) (f + 1) := by
  have hplaces := h.places
  refine ⟨h.alloclen, by omega, fun i hi his => h.rest i (by omega) his, ?_,
    fun j hj hjf i hi his => ?_⟩
  · have hmem : fo.cells f ∈ fo.list := mem_seg.mpr ⟨f, hf, by omega, rfl⟩
    rw [h.done, Nat.add_sub_cancel, seg_last _ (show 1 ≤ r by omega), List.filter_append, heq]
    have hnone : [fo.cells f].filter (fun p => p ∉ fo.list) = [] := by
      apply List.filter_eq_nil_iff.mpr
      intro x hx
      rw [List.mem_singleton.mp hx]
      simpa using hmem
    rw [hnone, List.append_nil]
  · by_cases hlast : j = f
    · rw [hlast, ← heq]
      exact hm.lt (by omega) (by omega) his
    · exact h.passed j hj (by omega) i (by omega) his

theorem Sifting.skip (hm : old.Descends) (h : Sifting old fo m w r f)
    (hlt : old.cells r < fo.cells f) : Sifting old fo m w r (f + 1) := by
  have hplaces := h.places
  refine ⟨h.alloclen, h.places, h.rest, h.done, fun j hj hjf i hi his => ?_⟩
  by_cases hlast : j = f
  · rw [hlast]
    by_cases heq : i = r
    · rw [heq]
      exact hlt
    · exact (hm.lt (by omega) (by omega) his).trans hlt
  · exact h.passed j hj (by omega) i hi his

theorem siftRest_spec (hfo : fo.Descends) (hroom : old.size ≤ old.alloclen) : ∀ n (m : Words) w r,
    n = old.size + 1 - r → Sifting old fo m w r (fo.size + 1) →
    ∃ m' w', siftRest n m w r = some (m', w') ∧ Sifting old fo m' w' (old.size + 1) (fo.size + 1)
  | 0, m, w, r, hn, h => by
    have hplaces := h.places
    refine ⟨m, w, rfl, ?_⟩
    rwa [show old.size + 1 = r by omega]
  | n + 1, m, w, r, hn, h => by
    have hplaces := h.places
    have halloc := h.alloclen
    unfold siftRest
    rw [rd_eq (by omega), Option.bind_some, wr_eq _ (by omega), Option.bind_some]
    apply siftRest_spec hfo hroom n _ _ _ (by omega)
    apply h.keep (by omega)
    apply not_mem_of_passed hfo (Nat.le_add_left 1 _)
      (fun j hj hjf => h.passed j hj hjf r le_rfl (by omega))
    intro hf
    omega

theorem siftUpdate_spec (hm : old.Descends) (hfo : fo.Descends) (hroom : old.size ≤ old.alloclen)
    (hfoRoom : fo.size ≤ fo.alloclen) : ∀ fuel (m : Words) w r f,
    old.size + 1 - r + (fo.size + 1 - f) < fuel → 1 ≤ f → f ≤ fo.size →
    Sifting old fo m w r f →
    ∃ m' w' f', siftUpdate fo old.size (fo.size + 1) fuel m w r f = some (m', w') ∧
      Sifting old fo m' w' (old.size + 1) f'
  | 0, _, _, _, _, hfuel, _, _, _ => absurd hfuel (Nat.not_lt_zero _)
  | fuel + 1, m, w, r, f, hfuel, hf, hfs, h => by
    have hplaces := h.places
    have halloc := h.alloclen
    unfold siftUpdate
    by_cases hr : r ≤ old.size
    · rw [if_pos hr, rd_eq (m := fo) (by omega), Option.bind_some, rd_eq (m := m) (by omega),
        Option.bind_some, h.rest r le_rfl hr]
      -- the list of `fo` ends, or the loop goes on
      have hnext : ∀ r', r ≤ r' → Sifting old fo m w r' (f + 1) → ∃ m' w' f',
          (if f + 1 = fo.size + 1 then siftRest (old.size + 1 - r') m w r'
            else siftUpdate fo old.size (fo.size + 1) fuel m w r' (f + 1)) = some (m', w') ∧
          Sifting old fo m' w' (old.size + 1) f' := by
        intro r' hle h'
        have hplaces' := h'.places
        by_cases hend : f + 1 = fo.size + 1
        · rw [if_pos hend]
          rw [hend] at h'
          have ⟨m', w', heq, hdone⟩ := siftRest_spec hfo hroom _ m w r' rfl h'
          exact ⟨m', w', _, heq, hdone⟩
        · rw [if_neg hend]
          exact siftUpdate_spec hm hfo hroom hfoRoom fuel m w r' (f + 1) (by omega) (by omega)
            (by omega) h'
      by_cases habove : ordered (old.cells r) (fo.cells f) = true
      · have hkeep : old.cells r ∉ fo.list :=
          not_mem_of_passed hfo hf (fun j hj hjf => h.passed j hj hjf r le_rfl hr)
            fun _ => of_decide_eq_true habove
        have hkept := h.keep hr hkeep
        rw [h.rest r le_rfl hr] at hkept
        rw [if_pos habove, wr_eq _ (by omega), Option.bind_some]
        exact siftUpdate_spec hm hfo hroom hfoRoom fuel _ _ _ f (by omega) hf hfs hkept
      · rw [if_neg habove]
        have hle : ¬fo.cells f < old.cells r := fun hlt => habove (decide_eq_true hlt)
        by_cases hlt : old.cells r < fo.cells f
        · rw [if_pos hlt]
          exact hnext r le_rfl (h.skip hm hlt)
        · rw [if_neg hlt]
          exact hnext (r + 1) (by omega) (h.drop hm hr (by omega) hf hfs)
    · rw [if_neg hr]
      refine ⟨m, w, f, rfl, ?_⟩
      rwa [show old.size + 1 = r by omega]

/-- The list without the pages of `fo`, and shorter by their number. -/
structure Sifted (old fo m : Words) : Prop where
  alloclen : m.alloclen = old.alloclen
  list : m.list = old.list.filter fun p => p ∉ fo.list
  removed : m.size + (old.list.filter fun p => p ∈ fo.list).length = old.size

theorem length_seg (cells : Nat → Nat) (lo n : Nat) : (seg cells lo n).length = n := by
  unfold seg
  rw [List.length_map, List.length_range']

theorem length_list (m : Words) : m.list.length = m.size := length_seg m.cells 1 m.size

theorem Sifted.of_list (halloc : m.alloclen = old.alloclen)
    (hlist : m.list = old.list.filter fun p => p ∉ fo.list) : Sifted old fo m := by
  refine ⟨halloc, hlist, ?_⟩
  have hlen := List.length_eq_length_filter_add (l := old.list) fun p => decide (p ∈ fo.list)
  have hnot : (old.list.filter fun p => p ∉ fo.list) =
      old.list.filter fun p => !decide (p ∈ fo.list) := by
    apply List.filter_congr
    intro p _
    exact decide_not
  rw [← length_list m, hlist, ← length_list old, hnot, hlen]
  exact Nat.add_comm _ _

theorem Sifting.sifted (h : Sifting old fo m w (old.size + 1) f) :
    Sifted old fo { m with cells := Buffer.set m.cells 0 (w - 1) } := by
  refine Sifted.of_list (m := { m with cells := Buffer.set m.cells 0 (w - 1) }) h.alloclen ?_
  show seg (Buffer.set m.cells 0 (w - 1)) 1 (w - 1) = _
  have hsame : seg (Buffer.set m.cells 0 (w - 1)) 1 (w - 1) = seg m.cells 1 (w - 1) :=
    seg_congr fun i hi _ => Buffer.set_of_ne _ _ (by omega)
  rw [hsame, h.done]
  rfl

-- what stays to the end is the whole list
theorem Sifting.unchanged (h : Sifting old fo old r r f)
    (hrest : ∀ i, r ≤ i → i ≤ old.size → old.cells i ∉ fo.list) : Sifted old fo old := by
  apply Sifted.of_list rfl
  have hplaces := h.places
  refine (List.filter_eq_self.mpr fun x hx => ?_).symm
  have ⟨i, hi, his, hc⟩ := mem_seg.mp hx
  by_cases hir : i < r
  · have hall := List.filter_eq_self.mp h.done.symm
    apply hall
    exact mem_seg.mpr ⟨i, hi, by omega, hc⟩
  · rw [← hc]
    exact decide_eq_true (hrest i (by omega) (by omega))

theorem siftScan_spec (hm : old.Descends) (hfo : fo.Descends) (hroom : old.size ≤ old.alloclen)
    (hfoRoom : fo.size ≤ fo.alloclen) : ∀ fuel r f,
    old.size + 1 - r + (fo.size + 1 - f) < fuel → 1 ≤ f → f ≤ fo.size →
    Sifting old fo old r r f →
    ∃ m, siftScan fo old.size (fo.size + 1) fuel old f r = some m ∧ Sifted old fo m
  | 0, _, _, hfuel, _, _, _ => absurd hfuel (Nat.not_lt_zero _)
  | fuel + 1, r, f, hfuel, hf, hfs, h => by
    have hplaces := h.places
    unfold siftScan
    by_cases hr : r ≤ old.size
    · have hpassed : ∀ j, 1 ≤ j → j < f → old.cells r < fo.cells j :=
        fun j hj hjf => h.passed j hj hjf r le_rfl hr
      rw [if_pos hr, rd_eq (m := fo) (by omega), Option.bind_some, rd_eq (m := old) (by omega),
        Option.bind_some]
      by_cases heq : old.cells r = fo.cells f
      · rw [if_neg (not_not.mpr heq)]
        have hdrop := h.drop hm hr heq hf hfs
        have hdone : ∃ m w f', (if f + 1 = fo.size + 1 then siftRest (old.size - r) old r (r + 1)
            else siftUpdate fo old.size (fo.size + 1) (old.size + (fo.size + 1) + 1) old r (r + 1)
              (f + 1)) = some (m, w) ∧ Sifting old fo m w (old.size + 1) f' := by
          by_cases hend : f + 1 = fo.size + 1
          · rw [if_pos hend]
            rw [hend] at hdrop
            have ⟨m, w, hrest, hdone⟩ :=
              siftRest_spec hfo hroom (old.size - r) old r (r + 1) (by omega) hdrop
            exact ⟨m, w, _, hrest, hdone⟩
          · rw [if_neg hend]
            exact siftUpdate_spec hm hfo hroom hfoRoom _ old r (r + 1) (f + 1) (by omega) (by omega)
              (by omega) hdrop
        have ⟨m, w, f', hsome, hdone⟩ := hdone
        rw [hsome, Option.bind_some]
        exact ⟨_, wr_eq _ (Nat.zero_le _), hdone.sifted⟩
      · rw [if_pos heq]
        dsimp only
        by_cases habove : ordered (old.cells r) (fo.cells f) = true
        · have hkeep : old.cells r ∉ fo.list :=
            not_mem_of_passed hfo hf hpassed fun _ => of_decide_eq_true habove
          have hkept := h.keep hr hkeep
          have hsame : Buffer.set old.cells r (old.cells r) = old.cells := by
            funext i
            by_cases hi : i = r
            · rw [hi, Buffer.set_self]
            · exact Buffer.set_of_ne _ _ hi
          rw [hsame] at hkept
          rw [if_pos habove, if_pos habove, if_pos (show f ≠ fo.size + 1 by omega)]
          exact siftScan_spec hm hfo hroom hfoRoom fuel (r + 1) f (by omega) hf hfs hkept
        · have hle : ¬fo.cells f < old.cells r := fun hlt => habove (decide_eq_true hlt)
          have hskip := h.skip hm (show old.cells r < fo.cells f by omega)
          rw [if_neg habove, if_neg habove]
          by_cases hend : f + 1 = fo.size + 1
          · rw [if_neg (not_not.mpr hend)]
            refine ⟨old, rfl, hskip.unchanged fun i hi his => ?_⟩
            apply not_mem_of_passed hfo (show 1 ≤ f + 1 by omega)
              (fun j hj hjf => hskip.passed j hj hjf i hi his)
            intro hlast
            omega
          · rw [if_pos hend]
            exact siftScan_spec hm hfo hroom hfoRoom fuel r (f + 1) (by omega) (by omega) (by omega)
              hskip
    · rw [if_neg hr]
      exact ⟨old, rfl, h.unchanged fun i hi his => by omega⟩

/-- The pages before the place that the search finds are above all of `fo`. -/
theorem sifting_start (b : Build) (hm : old.Descends) (hfo : fo.Descends) :
    let r := Mdbx.search b.haveCmov (fun i => ordered (old.cells (i + 1)) (fo.cells 1)) old.size + 1
    Sifting old fo old r r 1 := by
  have hordered : SearchOrdered (fun i => ordered (old.cells (i + 1)) (fo.cells 1)) old.size := by
    intro i j hij hj hb
    have hlt := hm.lt (show 1 ≤ i + 1 by omega) (show i + 1 < j + 1 by omega) (by omega)
    exact decide_eq_true ((of_decide_eq_true hb : fo.cells 1 < old.cells (j + 1)).trans hlt)
  have hfound := search_lowerBound b.haveCmov _ old.size hordered
  dsimp only
  generalize Mdbx.search b.haveCmov (fun i => ordered (old.cells (i + 1)) (fo.cells 1)) old.size = k
    at hfound
  have hin := hfound.inside
  refine ⟨rfl, by omega, fun _ _ _ => rfl, ?_, fun j hj hjf => by omega⟩
  refine (List.filter_eq_self.mpr fun x hx => ?_).symm
  have ⟨i, hi, hik, hc⟩ := mem_seg.mp hx
  have hbefore := hfound.left (i - 1) (by omega)
  rw [Nat.sub_add_cancel hi] at hbefore
  rw [← hc]
  apply decide_eq_true
  apply not_mem_of_passed hfo le_rfl (fun j hj hj1 => by omega)
  exact fun _ => of_decide_eq_true hbefore

/-- Sifting takes the pages of the other list out, in the memory of the list. -/
theorem pnlSift_spec (b : Build) (hm : old.Descends) (hfo : fo.Descends)
    (hroom : old.size ≤ old.alloclen) (hfoRoom : fo.size ≤ fo.alloclen) :
    ∃ m, pnlSift b old fo = some m ∧ Sifted old fo m := by
  unfold pnlSift
  rw [rd_eq (Nat.zero_le _), Option.bind_some]
  change ∃ m, (if old.size = 0 then _ else _) = some m ∧ _
  by_cases hzero : old.size = 0
  · rw [if_pos hzero]
    refine ⟨old, rfl, .of_list rfl ?_⟩
    rw [list_eq, hzero]
    rfl
  · rw [if_neg hzero, rd_eq (Nat.zero_le _), Option.bind_some]
    change ∃ m, (if fo.size = 0 then _ else _) = some m ∧ _
    by_cases hnone : fo.size = 0
    · rw [if_pos hnone]
      refine ⟨old, rfl, .of_list rfl ?_⟩
      refine (List.filter_eq_self.mpr fun x _ => ?_).symm
      rw [list_eq fo, hnone]
      exact decide_eq_true List.not_mem_nil
    · rw [if_neg hnone, rd_eq (by omega), Option.bind_some]
      unfold pnlSearch
      rw [if_pos (show old.size ≤ old.alloclen + 1 by omega), Option.bind_some]
      exact siftScan_spec hm hfo hroom hfoRoom _ _ 1 (by
        show _ < old.cells 0 + fo.cells 0 + 2
        show old.size + 1 - _ + _ < old.size + fo.size + 2
        omega) le_rfl (by omega)
        (sifting_start b hm hfo)

end Sift

/-! ## 4. Descending sets -/

/-- The operations on whole lists are those on descending sets: union, insertion of a span and
difference, in the memory of the lists and with the right lengths.  An insertion is refused only
where the list has no room and can get none. -/
theorem bulk_operations (b : Build) (dst src : Words) (pgno n : Nat) (realloc : Option Nat) :
    (dst.Descends → src.Descends → (∀ p ∈ dst.list, p ∉ src.list) →
      dst.size + src.size ≤ dst.alloclen → src.size ≤ src.alloclen →
      ∃ m, pnlMerge b dst src = some (m, m.size) ∧ Union dst src m) ∧
    (dst.Descends → 1 ≤ n → (∀ p ∈ dst.list, p < pgno ∨ pgno + n ≤ p) → pgno + n ≤ pInvalid →
      (∃ m, pnlInsertSpan dst pgno n realloc = some (.success, m) ∧ m.size = dst.size + n ∧
        m.size ≤ m.alloclen ∧ m.list.Pairwise (· > ·) ∧
        m.list.Perm (dst.list ++ List.range' pgno n)) ∨
      (∃ rc, Refused dst n realloc rc ∧ pnlInsertSpan dst pgno n realloc = some (rc, dst))) ∧
    (dst.Descends → src.Descends → dst.size ≤ dst.alloclen → src.size ≤ src.alloclen →
      (∃ m, pnlSift b dst src = some m ∧ Sifted dst src m) ∧
        -- the search reads nothing but the pages of the list
        ∀ other : Words, 1 ≤ dst.size → other.size = dst.size → other.alloclen = dst.alloclen →
          (∀ i, 1 ≤ i → i ≤ dst.size → other.cells i = dst.cells i) →
          pnlSearch b other pgno = pnlSearch b dst pgno) := by
  refine ⟨fun hdst hsrc hdisjoint hroom hsrcRoom => ?_, fun hdst => pnlInsertSpan_spec hdst,
    fun hdst hsrc hroom hsrcRoom => ⟨pnlSift_spec b hdst hsrc hroom hsrcRoom,
      fun other hpos hsize halloc hpages => pnlSearch_congr b hsize halloc hpages hpos pgno⟩⟩
  have ⟨m, heq, hunion⟩ := pnlMerge_spec b ⟨hdst, hsrc, hdisjoint, hroom, hsrcRoom⟩
  refine ⟨m, ?_, hunion⟩
  rw [hunion.size]
  exact heq

def ofList (l : List Nat) (alloclen : Nat) : Words :=
  ⟨fun i => if i = 0 then l.length else l.getD (i - 1) 0, alloclen⟩

theorem bulk_operations_sample :
    (∃ m, pnlMerge ⟨false, true⟩ (ofList [9, 5] 4) (ofList [8, 4] 2) = some (m, m.size) ∧
      Union (ofList [9, 5] 4) (ofList [8, 4] 2) m) ∧
    (∃ m, pnlInsertSpan (ofList [9, 5] 4) 6 2 none = some (.success, m) ∧ m.size = 2 + 2 ∧
      m.size ≤ m.alloclen ∧ m.list.Pairwise (· > ·) ∧
      m.list.Perm ((ofList [9, 5] 4).list ++ List.range' 6 2)) ∧
    ∃ m, pnlSift ⟨false, true⟩ (ofList [9, 5] 4) (ofList [8, 4] 2) = some m ∧
      Sifted (ofList [9, 5] 4) (ofList [8, 4] 2) m := by
  have h := bulk_operations ⟨false, true⟩ (ofList [9, 5] 4) (ofList [8, 4] 2) 6 2 none
  have hdst : (ofList [9, 5] 4).Descends := ⟨by decide, by decide⟩
  have hsrc : (ofList [8, 4] 2).Descends := ⟨by decide, by decide⟩
  have hinsert := h.2.1 hdst (by decide) (by decide) (by decide)
  -- there is room for two pages
  have hroom : ¬ ∃ rc, Refused (ofList [9, 5] 4) 2 none rc ∧
      pnlInsertSpan (ofList [9, 5] 4) 6 2 none = some (rc, ofList [9, 5] 4) :=
    fun ⟨_, hrefused, _⟩ => absurd hrefused.full (by decide)
  exact ⟨h.1 hdst hsrc (by decide) (by decide) (by decide), hinsert.resolve_right hroom,
    (h.2.2 hdst hsrc (by decide) (by decide)).1⟩

end Mdbx.Pnl.Words
