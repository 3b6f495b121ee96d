import Mdbx.Nested.Sift

/-!
# Nested.Merge — overlaps and the two in-place merges

The parent items that share a page with a nested one are emptied out of their cells; then the nested
items are merged in, from the end where the list grows and from the beginning where it shrinks.
Both directions need no second buffer because the gap between the cells read and the cells written
never closes while there is something left to be placed.
-/

namespace Mdbx.Nested

open Buffer

/-! ## 1. Overlapping items -/

def overlaps (x y : Item) : Bool := x.pgno < y.endPgno ∧ y.pgno < x.endPgno

/-- A parent item that some nested item overlaps. -/
def hit (src : List Item) (y : Item) : Bool := src.any fun x => overlaps x y

theorem hit_eq_false {src : List Item} {y : Item} :
    hit src y = false ↔ ∀ x ∈ src, y.endPgno ≤ x.pgno ∨ x.endPgno ≤ y.pgno := by
  unfold hit overlaps
  rw [List.any_eq_false]
  constructor
  · intro h x hx
    have hno := h x hx
    simp only [decide_eq_true_eq] at hno
    omega
  · intro h x hx
    have hno := h x hx
    simp only [decide_eq_true_eq]
    omega

theorem hit_eq_true {src : List Item} {y : Item} :
    hit src y = true ↔ ∃ x ∈ src, x.pgno < y.endPgno ∧ y.pgno < x.endPgno := by
  unfold hit overlaps
  rw [List.any_eq_true]
  constructor
  · intro h
    obtain ⟨x, hx, ho⟩ := h
    exact ⟨x, hx, of_decide_eq_true ho⟩
  · intro h
    obtain ⟨x, hx, ho⟩ := h
    exact ⟨x, hx, decide_eq_true ho⟩

/-- The cells after the loop has seen an item. -/
def emptied (src dl : Dpl) (i : Nat) : Option Item :=
  if hit src.list (dl.at i) then none else dl.items i

structure OverlapInv (src dl : Dpl) (o : Overlap) : Prop where
  dle : o.d ≤ dl.length
  sle : o.s ≤ src.length
  ahead : ∀ i, i ≤ o.d → o.items i = dl.items i
  behind : ∀ i, o.d < i → i ≤ dl.length → o.items i = emptied src dl i
  apart : ∀ j, o.s < j → j ≤ src.length → 0 < o.d → (dl.at o.d).endPgno ≤ (src.at j).pgno
  count : o.l + o.s = (seg o.items (o.d + 1) (dl.length - o.d)).length + src.length

variable {src dl : Dpl}

theorem mem_list_at (h : Sorted dl) {x : Item} (hx : x ∈ dl.list) :
    ∃ i, 1 ≤ i ∧ i ≤ dl.length ∧ x = dl.at i := by
  obtain ⟨i, hlo, hhi, hxi⟩ := mem_seg.mp hx
  have hg := (h.get hlo (by omega)).1
  rw [hxi] at hg
  exact ⟨i, hlo, by omega, Option.some.inj hg⟩

-- the nested items not yet passed lie below the current one
theorem not_hit_of_above (hs : Sorted src) {o : Overlap} (hinv : OverlapInv src dl o)
    (hd : 0 < o.d) (hspos : 0 < o.s) (habove : (src.at o.s).endPgno ≤ (dl.at o.d).pgno) :
    hit src.list (dl.at o.d) = false := by
  rw [hit_eq_false]
  intro x hx
  obtain ⟨j, hlo, hhi, rfl⟩ := mem_list_at hs hx
  by_cases hj : o.s < j
  · exact Or.inl (hinv.apart j hj hhi hd)
  · right
    by_cases hjs : j = o.s
    · rw [hjs]
      exact habove
    · have hlt := hs.lt hlo (show j < o.s by omega) hinv.sle
      have hpos := hs.spans.pos _ (hs.mem hspos hinv.sle)
      unfold Item.endPgno at hlt habove ⊢
      omega

theorem overlap_seg (o : Overlap) (items : Nat → Option Item) (hd : 0 < o.d)
    (hdle : o.d ≤ dl.length) (hrest : ∀ i, o.d < i → items i = o.items i) :
    seg items (o.d - 1 + 1) (dl.length - (o.d - 1)) =
      (items o.d).toList ++ seg o.items (o.d + 1) (dl.length - o.d) := by
  rw [show dl.length - (o.d - 1) = (dl.length - o.d) + 1 by omega, seg_succ,
    show o.d - 1 + 1 = o.d by omega]
  congr 1
  exact seg_congr fun i hlo _ => hrest i (by omega)

theorem overlapLoop_spec (hs : Sorted src) (hdl : Sorted dl) (front fuel : Nat) {o : Overlap}
    (hinv : OverlapInv src dl o) (hfuel : o.d + o.s ≤ fuel) :
    OverlapInv src dl (overlapLoop src front fuel o) ∧
      ((overlapLoop src front fuel o).d = 0 ∨ (overlapLoop src front fuel o).s = 0) := by
  induction fuel generalizing o with
  | zero => exact ⟨hinv, Or.inl (show o.d = 0 by omega)⟩
  | succ fuel ih =>
    unfold overlapLoop
    by_cases hend : o.d = 0 ∨ o.s = 0
    · rw [if_pos hend]
      exact ⟨hinv, hend⟩
    · rw [if_neg hend]
      have hdpos : 0 < o.d := by omega
      have hspos : 0 < o.s := by omega
      have hdle := hinv.dle
      have hsle := hinv.sle
      have hcount := hinv.count
      have hy : (o.items o.d).getD default = dl.at o.d := by
        rw [hinv.ahead o.d (Nat.le_refl _)]
        rfl
      have hprev : ∀ j, o.s < j → j ≤ src.length → 0 < o.d - 1 →
          (dl.at (o.d - 1)).endPgno ≤ (src.at j).pgno := by
        intro j hj hjl hpos
        have h₁ := hinv.apart j hj hjl hdpos
        have h₂ := hdl.lt (show 1 ≤ o.d - 1 by omega) (show o.d - 1 < o.d by omega) hdle
        unfold Item.endPgno at h₁ h₂ ⊢
        omega
      simp only [hy]
      by_cases habove : (src.at o.s).endPgno ≤ (dl.at o.d).pgno
      · rw [if_pos habove]
        have hno := not_hit_of_above hs hinv hdpos hspos habove
        apply ih
        · refine ⟨by simp only; omega, hsle, fun i hi => hinv.ahead i (by simp only at hi; omega),
            ?_, hprev, ?_⟩
          · intro i hi hil
            simp only at hi
            by_cases hid : i = o.d
            · rw [hid, hinv.ahead o.d (Nat.le_refl _)]
              unfold emptied
              rw [hno]
              rfl
            · exact hinv.behind i (by omega) hil
          · have hseg := overlap_seg o o.items hdpos hdle fun _ _ => rfl
            rw [hinv.ahead o.d (Nat.le_refl _), (hdl.get hdpos hdle).1] at hseg
            simp only
            rw [hseg, List.length_append]
            simp only [Option.toList_some, List.length_cons, List.length_nil]
            omega
        · simp only
          omega
      · rw [if_neg habove]
        by_cases hbelow : (dl.at o.d).endPgno ≤ (src.at o.s).pgno
        · rw [if_pos hbelow]
          apply ih
          · refine ⟨hdle, by simp only; omega, hinv.ahead, hinv.behind, ?_, by simp only; omega⟩
            intro j hj hjl _
            simp only at hj
            by_cases hjs : j = o.s
            · rw [hjs]
              exact hbelow
            · exact hinv.apart j (by omega) hjl hdpos
          · simp only
            omega
        · rw [if_neg hbelow]
          have hyes : hit src.list (dl.at o.d) = true := by
            rw [hit_eq_true]
            exact ⟨src.at o.s, hs.mem hspos hsle, by omega⟩
          apply ih
          · refine ⟨by simp only; omega, hsle, ?_, ?_, hprev, ?_⟩
            · intro i hi
              simp only at hi ⊢
              rw [set_of_ne _ _ (by omega)]
              exact hinv.ahead i (by omega)
            · intro i hi hil
              simp only at hi ⊢
              by_cases hid : i = o.d
              · rw [hid, set_self]
                unfold emptied
                rw [hyes]
                rfl
              · rw [set_of_ne _ _ hid]
                exact hinv.behind i (by omega) hil
            · have hseg := overlap_seg o (set o.items o.d none) hdpos hdle fun i hi =>
                set_of_ne _ _ (by omega)
              simp only
              rw [hseg, set_self]
              exact hcount
          · simp only
            omega

/-- After the loop the cells of the overlapped items are empty, the others are as before, and the
merged length counts what is left. -/
theorem overlap_result (hs : Sorted src) (hdl : Sorted dl) (front : Nat) (headers : Nat → Header) :
    let o := overlapLoop src front (dl.length + src.length)
      ⟨dl.items, headers, 0, dl.length, src.length⟩
    (∀ i, 1 ≤ i → i ≤ dl.length → o.items i = emptied src dl i) ∧
      o.l + o.d + o.s = (seg o.items 1 dl.length).length + src.length := by
  intro o
  have hstart : OverlapInv src dl ⟨dl.items, headers, 0, dl.length, src.length⟩ := by
    refine ⟨Nat.le_refl _, Nat.le_refl _, fun _ _ => rfl, ?_, ?_, ?_⟩
    · intro i hi hil
      simp only at hi
      omega
    · intro j hj hjl
      simp only at hj
      omega
    · simp
  obtain ⟨hinv, hend⟩ := overlapLoop_spec hs hdl front (dl.length + src.length) hstart
    (Nat.le_refl _)
  change OverlapInv src dl o at hinv
  change o.d = 0 ∨ o.s = 0 at hend
  -- what is left in front has no overlap
  have hfront : ∀ i, 1 ≤ i → i ≤ o.d → hit src.list (dl.at i) = false := by
    intro i hlo hi
    rw [hit_eq_false]
    intro x hx
    obtain ⟨j, hjlo, hjl, rfl⟩ := mem_list_at hs hx
    left
    have hj := hinv.apart j (by omega) hjl (by omega)
    by_cases hid : i = o.d
    · rw [hid]
      exact hj
    · have hlt := hdl.lt hlo (show i < o.d by omega) hinv.dle
      unfold Item.endPgno at hlt hj ⊢
      omega
  have hcells : ∀ i, 1 ≤ i → i ≤ dl.length → o.items i = emptied src dl i := by
    intro i hlo hil
    by_cases hi : i ≤ o.d
    · rw [hinv.ahead i hi]
      unfold emptied
      rw [hfront i hlo hi]
      rfl
    · exact hinv.behind i (by omega) hil
  refine ⟨hcells, ?_⟩
  have hsplit : seg o.items 1 dl.length =
      seg o.items 1 o.d ++ seg o.items (o.d + 1) (dl.length - o.d) := by
    have hcat := seg_append o.items 1 o.d (dl.length - o.d)
    rw [show o.d + (dl.length - o.d) = dl.length by have := hinv.dle; omega,
      show 1 + o.d = o.d + 1 by omega] at hcat
    exact hcat
  have hfull : (seg o.items 1 o.d).length = o.d := by
    apply seg_full_of_isSome
    intro i hlo hi
    rw [hinv.ahead i (by omega), (hdl.get hlo (by have := hinv.dle; omega)).1]
    exact Option.some_ne_none _
  have hcount := hinv.count
  rw [hsplit, List.length_append, hfull]
  omega

/-! ## 2. The extending merge -/

abbrev Ascending (l : List Item) : Prop := l.Pairwise fun x y => x.pgno < y.pgno

/-- The result of a merge into the first `n` cells. -/
structure Merged (n : Nat) (all : List Item) (items : Nat → Option Item) : Prop where
  full : (seg items 1 n).length = n
  ascending : Ascending (seg items 1 n)
  perm : (seg items 1 n).Perm all

/-- The cells above `l` are final, the first `d` parent cells and the first `s` nested ones are not
yet placed, and `l` cells remain for them. -/
structure Extending (src : Dpl) (n : Nat) (all : List Item) (items : Nat → Option Item)
    (l s d : Nat) : Prop where
  room : d ≤ l
  top : l ≤ n
  sle : s ≤ src.length
  count : l = (seg items 1 d).length + s
  full : (seg items (l + 1) (n - l)).length = n - l
  ascending : Ascending (seg items (l + 1) (n - l))
  left : Ascending (seg items 1 d)
  below : ∀ x ∈ seg items 1 d ++ seg src.items 1 s, ∀ y ∈ seg items (l + 1) (n - l),
    x.pgno < y.pgno
  perm : (seg items 1 d ++ seg src.items 1 s ++ seg items (l + 1) (n - l)).Perm all
  apart : ∀ x ∈ seg items 1 d, ∀ y ∈ seg src.items 1 s, x.pgno ≠ y.pgno

theorem seg_last (b : Nat → Option Item) {d : Nat} (hd : 0 < d) :
    seg b 1 d = seg b 1 (d - 1) ++ (b d).toList := by
  have hcat := seg_concat b 1 (d - 1)
  rw [show d - 1 + 1 = d by omega, show 1 + (d - 1) = d by omega] at hcat
  exact hcat

variable {n : Nat} {all : List Item} {items : Nat → Option Item} {l s d : Nat}

theorem Sorted.seg_length (h : Sorted dl) {k : Nat} (hk : k ≤ dl.length) :
    (seg dl.items 1 k).length = k :=
  seg_full_of_isSome fun i hlo hhi => by
    rw [(h.get hlo (by omega)).1]
    exact Option.some_ne_none _

-- Writing the greatest item left into cell `l` makes it final.
theorem Extending.placed (hsrc : Sorted src) (h : Extending src n all items l s d) {v : Item}
    {s' d' : Nat}
    (hgap : d < l) (hd' : d' ≤ d) (hs' : s' ≤ s)
    (hparts : (seg items 1 d' ++ seg src.items 1 s' ++ [v]).Perm
      (seg items 1 d ++ seg src.items 1 s))
    (hleft : Ascending (seg items 1 d'))
    (hgreatest : ∀ x ∈ seg items 1 d' ++ seg src.items 1 s', x.pgno < v.pgno)
    (hapart : ∀ x ∈ seg items 1 d', ∀ y ∈ seg src.items 1 s', x.pgno ≠ y.pgno)
    (hroom : d' ≤ l - 1) :
    Extending src n all (set items l (some v)) (l - 1) s' d' := by
  have htop := h.top
  have hseg : seg (set items l (some v)) (l - 1 + 1) (n - (l - 1)) =
      v :: seg items (l + 1) (n - l) := by
    rw [show l - 1 + 1 = l by omega, show n - (l - 1) = (n - l) + 1 by omega, seg_set_cons]
    rfl
  have hlow : seg (set items l (some v)) 1 d' = seg items 1 d' := seg_set_of_lt _ (by omega)
  have hvmem : v ∈ seg items 1 d ++ seg src.items 1 s :=
    hparts.subset (List.mem_append_right _ List.mem_cons_self)
  refine ⟨hroom, by omega, by have := h.sle; omega, ?_, ?_, ?_, ?_, ?_, ?_, ?_⟩
  · have hlen := hparts.length_eq
    have hcount := h.count
    have hsle := h.sle
    have hs₁ := hsrc.seg_length (show s' ≤ src.length by omega)
    have hs₂ := hsrc.seg_length hsle
    rw [hlow]
    simp only [List.length_append, List.length_cons, List.length_nil] at hlen
    omega
  · rw [hseg, List.length_cons, h.full]
    omega
  · rw [hseg]
    exact List.pairwise_cons.mpr ⟨fun y hy => h.below v hvmem y hy, h.ascending⟩
  · rw [hlow]
    exact hleft
  · rw [hlow, hseg]
    intro x hx y hy
    rcases List.mem_cons.mp hy with rfl | hy
    · exact hgreatest x hx
    · exact h.below x (hparts.subset (List.mem_append_left _ hx)) y hy
  · rw [hlow, hseg]
    have hall := (hparts.append_right (seg items (l + 1) (n - l))).trans h.perm
    rw [List.append_assoc _ [v]] at hall
    exact hall
  · rw [hlow]
    exact hapart

theorem Extending.takeDst (hsrc : Sorted src) (h : Extending src n all items l s d) (hd : 0 < d)
    (hgap : d < l) {y : Item} (hy : items d = some y) (hlt : (src.at s).pgno < y.pgno) :
    Extending src n all (set items l (some y)) (l - 1) s (d - 1) := by
  have hseg : seg items 1 d = seg items 1 (d - 1) ++ [y] := by
    rw [seg_last items hd, hy]
    rfl
  have hleft := h.left
  have hapart := h.apart
  rw [hseg] at hleft hapart
  obtain ⟨hasc, -, hcross⟩ := List.pairwise_append.mp hleft
  apply h.placed hsrc hgap (Nat.sub_le _ _) (Nat.le_refl _)
  · rw [hseg, List.append_assoc, List.append_assoc]
    exact (List.perm_append_comm).append_left _
  · exact hasc
  · intro x hx
    rcases List.mem_append.mp hx with hx | hx
    · exact hcross x hx y List.mem_cons_self
    · obtain ⟨j, hlo, hhi, hxj⟩ := mem_seg.mp hx
      have hsle := h.sle
      rw [(hsrc.get hlo (by omega)).1] at hxj
      rw [← Option.some.inj hxj]
      by_cases hjs : j = s
      · rw [hjs]
        exact hlt
      · exact Nat.lt_trans (hsrc.pgno_lt hlo (show j < s by omega) hsle) hlt
  · intro x hx
    exact hapart x (List.mem_append_left _ hx)
  · omega

theorem Extending.takeSrc (hsrc : Sorted src) (h : Extending src n all items l s d) (hs : 0 < s)
    (hgap : d < l) (hgreatest : ∀ x ∈ seg items 1 d, x.pgno < (src.at s).pgno) :
    Extending src n all (set items l (src.items s)) (l - 1) (s - 1) d := by
  have hsle := h.sle
  have hat := (hsrc.get hs hsle).1
  have hseg : seg src.items 1 s = seg src.items 1 (s - 1) ++ [src.at s] := by
    rw [seg_last src.items hs, hat]
    rfl
  rw [hat]
  apply h.placed hsrc hgap (Nat.le_refl _) (Nat.sub_le _ _)
  · rw [hseg, List.append_assoc]
  · exact h.left
  · intro x hx
    rcases List.mem_append.mp hx with hx | hx
    · exact hgreatest x hx
    · obtain ⟨j, hlo, hhi, hxj⟩ := mem_seg.mp hx
      rw [(hsrc.get hlo (by omega)).1] at hxj
      rw [← Option.some.inj hxj]
      exact hsrc.pgno_lt hlo (by omega) hsle
  · intro x hx y hy
    apply h.apart x hx y
    rw [hseg]
    exact List.mem_append_left _ hy
  · omega

-- an empty cell at the end of the parent's part
theorem Extending.skip (h : Extending src n all items l s d) (hd : 0 < d) (hy : items d = none) :
    Extending src n all items l s (d - 1) := by
  have hseg : seg items 1 d = seg items 1 (d - 1) := by
    rw [seg_last items hd, hy, Option.toList_none, List.append_nil]
  have hroom := h.room
  obtain ⟨-, htop, hsle, hcount, hfull, hasc, hleft, hbelow, hperm, hapart⟩ := h
  rw [hseg] at hcount hleft hbelow hperm hapart
  exact ⟨by omega, htop, hsle, hcount, hfull, hasc, hleft, hbelow, hperm, hapart⟩

-- Where the cells read meet the cells written, the gaps among the former make room again.
theorem Extending.squash (h : Extending src n all items l s d) :
    Extending src n all (squashBegin items d).1 l s ((squashBegin items d).2 - 1) := by
  obtain ⟨hw, hseg, -, hrest⟩ := squashBegin_spec items d
  have hroom := h.room
  have hlen := seg_length_le items 1 d
  have htail : seg (squashBegin items d).1 (l + 1) (n - l) = seg items (l + 1) (n - l) :=
    seg_congr fun i hlo _ => hrest i (by omega)
  rw [hw, Nat.add_sub_cancel]
  refine ⟨by omega, h.top, h.sle, ?_, ?_, ?_, ?_, ?_, ?_, ?_⟩
  · rw [hseg]
    exact h.count
  · rw [htail]
    exact h.full
  · rw [htail]
    exact h.ascending
  · rw [hseg]
    exact h.left
  · rw [hseg, htail]
    exact h.below
  · rw [hseg, htail]
    exact h.perm
  · rw [hseg]
    exact h.apart

theorem extendLoop_spec (hsrc : Sorted src) (fuel : Nat) (h : Extending src n all items l s d)
    (hfuel : s + d ≤ fuel) :
    let out := extendLoop src fuel items l s d
    Extending src n all out.1 out.2.1 out.2.2.1 out.2.2.2 ∧ (out.2.2.1 = 0 ∨ out.2.2.2 = 0) := by
  induction fuel generalizing items l s d with
  | zero => exact ⟨h, Or.inl (show s = 0 by omega)⟩
  | succ fuel ih =>
    unfold extendLoop
    by_cases hend : s = 0 ∨ d = 0
    · rw [if_pos hend]
      exact ⟨h, hend⟩
    · rw [if_neg hend]
      have hs : 0 < s := by omega
      have hd : 0 < d := by omega
      by_cases hmeet : l ≤ d
      · rw [if_pos hmeet]
        apply ih h.squash
        have hw := (squashBegin_spec items d).1
        have hcount := h.count
        omega
      · rw [if_neg hmeet]
        cases hy : items d with
        | none => exact ih (h.skip hd hy) (by omega)
        | some y =>
          simp only
          by_cases hlt : (src.at s).pgno < y.pgno
          · rw [if_pos hlt]
            exact ih (h.takeDst hsrc hd (by omega) hy hlt) (by omega)
          · rw [if_neg hlt]
            apply ih (h.takeSrc hsrc hs (by omega) ?_) (by omega)
            have hseg : seg items 1 d = seg items 1 (d - 1) ++ [y] := by
              rw [seg_last items hd, hy]
              rfl
            have hne : y.pgno ≠ (src.at s).pgno := by
              apply h.apart y
              · rw [hseg]
                exact List.mem_append_right _ List.mem_cons_self
              · exact mem_seg.mpr ⟨s, hs, by omega, (hsrc.get hs h.sle).1⟩
            have hleft := h.left
            rw [hseg] at hleft ⊢
            intro x hx
            rcases List.mem_append.mp hx with hx | hx
            · have := (List.pairwise_append.mp hleft).2.2 x hx y List.mem_cons_self
              omega
            · rw [List.mem_singleton.mp hx]
              omega

theorem copyDown_spec (hsrc : Sorted src) (h : Extending src n all items l s 0) :
    Merged n all (copyDown src s items l) := by
  induction s generalizing items l with
  | zero =>
    have hl : l = 0 := h.count
    subst hl
    exact ⟨h.full, h.ascending, h.perm⟩
  | succ s ih =>
    have hl : l = s + 1 := by
      have := h.count
      rw [seg_zero, List.length_nil] at this
      omega
    exact ih (h.takeSrc hsrc (Nat.succ_pos s) (by omega) fun x hx => absurd hx List.not_mem_nil)

-- with no nested item left the parent's part has no gaps and is where it has to be
theorem Extending.merged (h : Extending src n all items l 0 d) : Merged n all items := by
  have hcount := h.count
  have hroom := h.room
  have htop := h.top
  have hlen := seg_length_le items 1 d
  have hd : d = l := by omega
  subst hd
  have hcat : seg items 1 n = seg items 1 d ++ seg items (d + 1) (n - d) := by
    have hcut := seg_append items 1 d (n - d)
    rw [show d + (n - d) = n by omega, show 1 + d = d + 1 by omega] at hcut
    exact hcut
  have hfull := h.full
  have hperm := h.perm
  rw [seg_zero, List.append_nil] at hperm
  refine ⟨?_, ?_, ?_⟩
  · rw [hcat, List.length_append]
    omega
  · rw [hcat]
    refine List.pairwise_append.mpr ⟨h.left, h.ascending, ?_⟩
    intro x hx y hy
    exact h.below x (List.mem_append_left _ hx) y hy
  · rw [hcat]
    exact hperm

/-! ## 3. The shrinking merge -/

/-- The first `l - 1` cells are final.  The parent items left are in the cells from `d` to the end
without a gap, for the first round has squashed them there; so they stay ahead of `l`. -/
structure Shrinking (src : Dpl) (n len : Nat) (all : List Item) (items : Nat → Option Item)
    (l s d : Nat) : Prop where
  shrink : n < len
  lpos : 1 ≤ l
  spos : 1 ≤ s
  sle : s ≤ src.length + 1
  dle : d ≤ len + 1
  count : l + (len + 1 - d) + (src.length + 1 - s) = n + 1
  full : (seg items 1 (l - 1)).length = l - 1
  ascending : Ascending (seg items 1 (l - 1))
  rest : (seg items d (len + 1 - d)).length = len + 1 - d
  right : Ascending (seg items d (len + 1 - d))
  above : ∀ x ∈ seg items 1 (l - 1),
    ∀ y ∈ seg items d (len + 1 - d) ++ seg src.items s (src.length + 1 - s), x.pgno < y.pgno
  perm : (seg items 1 (l - 1) ++
    (seg items d (len + 1 - d) ++ seg src.items s (src.length + 1 - s))).Perm all
  apart : ∀ x ∈ seg items d (len + 1 - d), ∀ y ∈ seg src.items s (src.length + 1 - s),
    x.pgno ≠ y.pgno

variable {len : Nat}

theorem Shrinking.gap (h : Shrinking src n len all items l s d) : l < d := by
  have hcount := h.count
  have hshrink := h.shrink
  omega

theorem Shrinking.placed (h : Shrinking src n len all items l s d) {v : Item} {s' d' : Nat}
    (hd : d ≤ d') (hdle : d' ≤ len + 1) (hs : s ≤ s') (hsle : s' ≤ src.length + 1)
    (hone : (len + 1 - d') + (src.length + 1 - s') + 1 = (len + 1 - d) + (src.length + 1 - s))
    (hparts : (v :: (seg items d' (len + 1 - d') ++ seg src.items s' (src.length + 1 - s'))).Perm
      (seg items d (len + 1 - d) ++ seg src.items s (src.length + 1 - s)))
    (hrest : (seg items d' (len + 1 - d')).length = len + 1 - d')
    (hright : Ascending (seg items d' (len + 1 - d')))
    (hleast : ∀ y ∈ seg items d' (len + 1 - d') ++ seg src.items s' (src.length + 1 - s'),
      v.pgno < y.pgno)
    (hapart : ∀ x ∈ seg items d' (len + 1 - d'), ∀ y ∈ seg src.items s' (src.length + 1 - s'),
      x.pgno ≠ y.pgno) :
    Shrinking src n len all (set items l (some v)) (l + 1) s' d' := by
  have hgap := h.gap
  have hl := h.lpos
  have hcount := h.count
  have hdone : seg (set items l (some v)) 1 (l + 1 - 1) = seg items 1 (l - 1) ++ [v] := by
    have hcat := seg_set_concat items 1 (l - 1) (some v)
    rw [show 1 + (l - 1) = l by omega, show l - 1 + 1 = l + 1 - 1 by omega] at hcat
    exact hcat
  have hfar : seg (set items l (some v)) d' (len + 1 - d') = seg items d' (len + 1 - d') :=
    seg_set_of_lt _ (by omega)
  have hv : v ∈ seg items d (len + 1 - d) ++ seg src.items s (src.length + 1 - s) :=
    hparts.subset List.mem_cons_self
  refine ⟨h.shrink, by omega, by have := h.spos; omega, hsle, hdle, by omega, ?_, ?_, ?_, ?_, ?_, ?_,
    ?_⟩
  · rw [hdone, List.length_append, h.full, List.length_singleton]
    omega
  · rw [hdone]
    refine List.pairwise_append.mpr ⟨h.ascending, List.pairwise_singleton _ _, ?_⟩
    intro x hx y hy
    rw [List.mem_singleton.mp hy]
    exact h.above x hx v hv
  · rw [hfar]
    exact hrest
  · rw [hfar]
    exact hright
  · rw [hdone, hfar]
    intro x hx y hy
    rcases List.mem_append.mp hx with hx | hx
    · exact h.above x hx y (hparts.subset (List.mem_cons_of_mem v hy))
    · rw [List.mem_singleton.mp hx]
      exact hleast y hy
  · rw [hdone, hfar, List.append_assoc]
    exact (hparts.append_left _).trans h.perm
  · rw [hfar]
    exact hapart

-- the nested items from `s` on, the first one split off
theorem Sorted.seg_from (h : Sorted dl) {k : Nat} (hlo : 1 ≤ k) (hhi : k ≤ dl.length) :
    seg dl.items k (dl.length + 1 - k) =
      dl.at k :: seg dl.items (k + 1) (dl.length + 1 - (k + 1)) := by
  rw [show dl.length + 1 - k = (dl.length + 1 - (k + 1)) + 1 by omega, seg_succ, (h.get hlo hhi).1]
  rfl

theorem Sorted.least (h : Sorted dl) {k : Nat} (hlo : 1 ≤ k) :
    ∀ y ∈ seg dl.items (k + 1) (dl.length + 1 - (k + 1)), (dl.at k).pgno < y.pgno := by
  intro y hy
  obtain ⟨j, hjlo, hjhi, hyj⟩ := mem_seg.mp hy
  rw [(h.get (show 1 ≤ j by omega) (show j ≤ dl.length by omega)).1] at hyj
  rw [← Option.some.inj hyj]
  exact h.pgno_lt hlo (by omega) (by omega)

theorem Shrinking.split (h : Shrinking src n len all items l s d) (hd : d ≤ len) :
    ∃ y, items d = some y ∧
      seg items d (len + 1 - d) = y :: seg items (d + 1) (len + 1 - (d + 1)) ∧
      (seg items (d + 1) (len + 1 - (d + 1))).length = len + 1 - (d + 1) := by
  have hrest := h.rest
  cases hy : items d with
  | none => exact absurd hy (isSome_of_seg_full hrest (Nat.le_refl d) (by omega))
  | some y =>
    have hcons : seg items d (len + 1 - d) = y :: seg items (d + 1) (len + 1 - (d + 1)) := by
      rw [show len + 1 - d = (len + 1 - (d + 1)) + 1 by omega, seg_succ, hy]
      rfl
    rw [hcons, List.length_cons] at hrest
    exact ⟨y, rfl, hcons, by omega⟩

theorem Shrinking.takeDst (hsrc : Sorted src) (h : Shrinking src n len all items l s d)
    (hs : s ≤ src.length) (hd : d ≤ len) {y : Item} (hy : items d = some y)
    (hlt : y.pgno < (src.at s).pgno) :
    Shrinking src n len all (set items l (some y)) (l + 1) s (d + 1) := by
  obtain ⟨y', hy', hcons, hrest⟩ := h.split hd
  rw [hy] at hy'
  cases hy'
  have hright := h.right
  have hapart := h.apart
  rw [hcons] at hright hapart
  obtain ⟨hleast, hright⟩ := List.pairwise_cons.mp hright
  apply h.placed (Nat.le_succ d) (by omega) (Nat.le_refl s) h.sle (by omega)
  · rw [hcons]
    exact List.Perm.refl _
  · exact hrest
  · exact hright
  · intro x hx
    rcases List.mem_append.mp hx with hx | hx
    · exact hleast x hx
    · rw [hsrc.seg_from h.spos hs] at hx
      rcases List.mem_cons.mp hx with rfl | hx
      · exact hlt
      · exact Nat.lt_trans hlt (hsrc.least h.spos x hx)
  · intro x hx
    exact hapart x (List.mem_cons_of_mem y hx)

theorem Shrinking.takeSrc (hsrc : Sorted src) (h : Shrinking src n len all items l s d)
    (hs : s ≤ src.length) (hleast : ∀ x ∈ seg items d (len + 1 - d), (src.at s).pgno < x.pgno) :
    Shrinking src n len all (set items l (src.items s)) (l + 1) (s + 1) d := by
  have hcons := hsrc.seg_from h.spos hs
  rw [(hsrc.get h.spos hs).1]
  apply h.placed (Nat.le_refl d) h.dle (Nat.le_succ s) (by omega) (by omega)
  · rw [hcons]
    exact List.perm_middle.symm
  · exact h.rest
  · exact h.right
  · intro x hx
    rcases List.mem_append.mp hx with hx | hx
    · exact hleast x hx
    · exact hsrc.least h.spos x hx
  · intro x hx y hy
    apply h.apart x hx y
    rw [hcons]
    exact List.mem_cons_of_mem _ hy

theorem shrinkLoop_spec (hsrc : Sorted src) (fuel : Nat)
    (h : Shrinking src n len all items l s d)
    (hfuel : (src.length + 1 - s) + (len + 1 - d) ≤ fuel) :
    let out := shrinkLoop src len fuel items l s d
    Shrinking src n len all out.1 out.2.1 out.2.2.1 out.2.2.2 ∧
      (src.length < out.2.2.1 ∨ len < out.2.2.2) := by
  induction fuel generalizing items l s d with
  | zero => exact ⟨h, Or.inl (show src.length < s by omega)⟩
  | succ fuel ih =>
    unfold shrinkLoop
    by_cases hend : src.length < s ∨ len < d
    · rw [if_pos hend]
      exact ⟨h, hend⟩
    · have hgap := h.gap
      have hs : s ≤ src.length := by omega
      have hd : d ≤ len := by omega
      rw [if_neg hend, if_neg (by omega)]
      obtain ⟨y, hy, hcons, -⟩ := h.split hd
      rw [hy]
      simp only
      by_cases hlt : y.pgno < (src.at s).pgno
      · rw [if_pos hlt]
        exact ih (h.takeDst hsrc hs hd hy hlt) (by omega)
      · rw [if_neg hlt]
        apply ih (h.takeSrc hsrc hs ?_) (by omega)
        have hne : y.pgno ≠ (src.at s).pgno := by
          apply h.apart y
          · rw [hcons]
            exact List.mem_cons_self
          · rw [hsrc.seg_from h.spos hs]
            exact List.mem_cons_self
        have hright := h.right
        rw [hcons] at hright ⊢
        intro x hx
        rcases List.mem_cons.mp hx with rfl | hx
        · omega
        · have := (List.pairwise_cons.mp hright).1 x hx
          omega

theorem copyUp_spec (hsrc : Sorted src) (k : Nat) (h : Shrinking src n len all items l s (len + 1))
    (hk : k = src.length + 1 - s) : Merged n all (copyUp src k items l s) := by
  induction k generalizing items l s with
  | zero =>
    have hcount := h.count
    have hfull := h.full
    have hasc := h.ascending
    have hperm := h.perm
    rw [show src.length + 1 - s = 0 by omega, show len + 1 - (len + 1) = 0 by omega, seg_zero,
      seg_zero, List.append_nil, List.append_nil] at hperm
    rw [show l - 1 = n by omega] at hfull hasc hperm
    exact ⟨hfull, hasc, hperm⟩
  | succ k ih =>
    apply ih (h.takeSrc hsrc (by omega) ?_) (by omega)
    rw [show len + 1 - (len + 1) = 0 by omega]
    exact fun x hx => absurd hx List.not_mem_nil

-- the rest of the parent's items moves down to the cells written
theorem Shrinking.merged (h : Shrinking src n len all items l (src.length + 1) d) :
    Merged n all (moveDown items l d (n + 1 - l)) := by
  have hcount := h.count
  have hgap := h.gap
  have hl := h.lpos
  have hdle := h.dle
  have hcat : seg (moveDown items l d (n + 1 - l)) 1 n =
      seg items 1 (l - 1) ++ seg items d (len + 1 - d) := by
    rw [show n = (l - 1) + (len + 1 - d) by omega, seg_append]
    congr 1
    · apply seg_congr
      intro i hlo hhi
      rw [moveDown_apply _ _ _ _ _ (by omega), if_neg (by omega)]
    · apply seg_shift
      intro i hi
      rw [moveDown_apply _ _ _ _ _ (by omega), if_pos (by omega)]
      congr 1
      omega
  have hfull := h.full
  have hrest := h.rest
  have hperm := h.perm
  rw [show src.length + 1 - (src.length + 1) = 0 by omega, seg_zero, List.append_nil] at hperm
  refine ⟨?_, ?_, ?_⟩
  · rw [hcat, List.length_append]
    omega
  · rw [hcat]
    refine List.pairwise_append.mpr ⟨h.ascending, h.right, ?_⟩
    intro x hx y hy
    exact h.above x hx y (List.mem_append_left _ hy)
  · rw [hcat]
    exact hperm

/-! ## 4. Both directions -/

-- The first round squashes: the parent's items end up behind the cells that are to be written.
theorem shrinking_start (hn : n = (seg items 1 len).length + src.length)
    (hshrink : n < len) (hleft : Ascending (seg items 1 len))
    (hapart : ∀ x ∈ seg items 1 len, ∀ y ∈ src.list, x.pgno ≠ y.pgno) :
    Shrinking src n len (seg items 1 len ++ src.list) (squashEnd items len len).1 1 1
      ((squashEnd items len len).2 + 1) := by
  obtain ⟨hw, hseg, -⟩ := squashEnd_spec items (Nat.le_refl len)
  have hlen := seg_length_le items 1 len
  rw [show len - len + 1 = 1 by omega] at hw hseg
  rw [hw]
  have hcells : len + 1 - (len - (seg items 1 len).length + 1) = (seg items 1 len).length := by omega
  have hall : seg src.items 1 (src.length + 1 - 1) = src.list := rfl
  refine ⟨hshrink, Nat.le_refl 1, Nat.le_refl 1, by omega, by omega, by omega, rfl,
    List.Pairwise.nil, ?_, ?_, ?_, ?_, ?_⟩
  · rw [hcells, hseg]
  · rw [hcells, hseg]
    exact hleft
  · exact fun x hx => absurd hx List.not_mem_nil
  · rw [hcells, hseg, hall]
    exact List.Perm.refl _
  · rw [hcells, hseg, hall]
    exact hapart

theorem extending_start (hn : n = (seg items 1 len).length + src.length) (hextend : len ≤ n)
    (hleft : Ascending (seg items 1 len))
    (hapart : ∀ x ∈ seg items 1 len, ∀ y ∈ src.list, x.pgno ≠ y.pgno) :
    Extending src n (seg items 1 len ++ src.list) items n src.length len := by
  refine ⟨hextend, Nat.le_refl n, Nat.le_refl _, hn, ?_, ?_, hleft, ?_, ?_, hapart⟩
  · rw [Nat.sub_self]
    rfl
  · rw [Nat.sub_self]
    exact List.Pairwise.nil
  · rw [Nat.sub_self]
    exact fun x _ y hy => absurd hy List.not_mem_nil
  · rw [Nat.sub_self, seg_zero, List.append_nil]
    exact List.Perm.refl _

theorem mergeItems_spec (hsrc : Sorted src) (hn : n = (seg items 1 len).length + src.length)
    (hnone : src.length = 0 → (seg items 1 len).length = len) (hleft : Ascending (seg items 1 len))
    (hapart : ∀ x ∈ seg items 1 len, ∀ y ∈ src.list, x.pgno ≠ y.pgno) :
    Merged n (seg items 1 len ++ src.list) (mergeItems src items len n) := by
  unfold mergeItems
  by_cases hdir : len ≤ n
  · rw [if_pos hdir]
    obtain ⟨hinv, hend⟩ := extendLoop_spec hsrc (src.length + len)
      (extending_start hn hdir hleft hapart) (Nat.le_refl _)
    generalize extendLoop src (src.length + len) items n src.length len = out at *
    obtain ⟨items', l, s, d⟩ := out
    simp only at hinv hend ⊢
    by_cases hs : s > 0
    · rw [if_pos hs]
      have hd : d = 0 := by omega
      subst hd
      exact copyDown_spec hsrc hinv
    · rw [if_neg hs]
      have hs' : s = 0 := by omega
      subst hs'
      exact hinv.merged
  · rw [if_neg hdir]
    have hstart := shrinking_start hn (by omega) hleft hapart
    have hgap := hstart.gap
    -- a shorter result needs an overlap and so a nested item
    have hpos : 0 < src.length := by omega
    have hlen := seg_length_le items 1 len
    have hw := (squashEnd_spec items (Nat.le_refl len)).1
    rw [show len - len + 1 = 1 by omega] at hw
    have hone : shrinkLoop src len (src.length + len) items 1 1 1 =
        shrinkLoop src len (src.length + len - 1) (squashEnd items len len).1 1 1
          ((squashEnd items len len).2 + 1) := by
      rw [show src.length + len = (src.length + len - 1) + 1 by omega, shrinkLoop,
        if_neg (by omega), if_pos (Nat.le_refl 1)]
      rfl
    rw [hone]
    obtain ⟨hinv, hend⟩ := shrinkLoop_spec hsrc (src.length + len - 1) hstart (by omega)
    generalize shrinkLoop src len (src.length + len - 1) (squashEnd items len len).1 1 1
      ((squashEnd items len len).2 + 1) = out at *
    obtain ⟨items', l, s, d⟩ := out
    simp only at hinv hend ⊢
    have hsle := hinv.sle
    have hdle := hinv.dle
    by_cases hs : s ≤ src.length
    · rw [if_pos hs]
      have hd : d = len + 1 := by omega
      subst hd
      exact copyUp_spec hsrc _ hinv rfl
    · rw [if_neg hs]
      have hs' : s = src.length + 1 := by omega
      subst hs'
      exact hinv.merged

end Mdbx.Nested
