import Mdbx.Spill.Model

/-!
# Spill.Moves — what the loop over the dirty list moves

Up to the item that is read, the items that are left and those that were moved are the items of the
list.  The numbers of the moved ones are in the spill list, until a call fails.
-/

namespace Mdbx.Spill

open Buffer

variable {v : Watch} {levels : Levels} {first s : Out} {x : Item} {moved group : List Item}

/-- The words of an item, as `spill_append_span` puts them. -/
def wordsOf (x : Item) : List Nat := ((List.range' x.pgno x.npages).map fun p => 2 * p).reverse

/-- Whether a call leaves pages in the queue. -/
def Answer.pending : Answer → Bool
  | .queued => true
  | .refused _ pending => pending
  | .noRoom _ => true

/-! ## 1. Levels -/

theorem levelsLoop_bounds {l : List Item} {wanted spillable : Amount} : ∀ (n : Nat) (s : Levels),
    n ≤ 255 → s.prio2spill ≤ 255 → s.prio2adjacent ≤ 256 →
    (levelsLoop v l wanted spillable n s).prio2spill ≤ 255 ∧
    (levelsLoop v l wanted spillable n s).prio2adjacent ≤ 256
  | 0, _, _, hspill, hadjacent => ⟨hspill, hadjacent⟩
  | n + 1, s, hn, hspill, hadjacent => by
      rw [levelsLoop]
      split
      · exact levelsLoop_bounds n _ (by omega) (by change 255 - n ≤ 255; omega)
          (by change 255 - n + (257 - (255 - n)) / 2 ≤ 256; omega)
      · split
        · exact levelsLoop_bounds n _ (by omega) hspill (by change 255 - n ≤ 256; omega)
        · exact ⟨hspill, hadjacent⟩

theorem levelsOf_bounds (v : Watch) (l : List Item) (wanted spillable : Amount) :
    (levelsOf v l wanted spillable).prio2spill ≤ 255 ∧
    (levelsOf v l wanted spillable).prio2adjacent ≤ 256 :=
  levelsLoop_bounds 255 _ (Nat.le_refl _) (Nat.zero_le _) (show 128 ≤ 256 by omega)

/-! ## 2. A group of items -/

/-- All calls were successful, and the items are in the spill list. -/
structure Running (first s : Out) (moved : List Item) : Prop where
  asked : ∃ asked, first.answers = asked ++ s.answers ∧ ∀ a ∈ asked, a = .queued
  words : s.words = first.words ++ moved.flatMap wordsOf
  entries : s.entries = first.entries + moved.length
  npages : s.npages = first.npages + (moved.map Item.npages).sum
  rc : s.rc = .success

/-- The call for `x` failed, after those for the items before it. -/
structure Broken (first s : Out) (moved : List Item) (x : Item) : Prop where
  asked : ∃ asked last, first.answers = asked ++ last :: s.answers ∧
    (∀ a ∈ asked, a = .queued) ∧ last ≠ .queued ∧ s.pending = last.pending
  words : s.words = first.words ++ moved.flatMap wordsOf
  rc : s.rc ≠ .success

theorem Running.queue {answers : List Answer} (h : Running first s moved)
    (hanswers : s.answers = answers ∨ s.answers = .queued :: answers) :
    Running first
      { s with
        entries := s.entries + 1
        npages := s.npages + x.npages
        words := spillAppendSpan s.words x.pgno x.npages
        pending := true
        answers := answers } (moved ++ [x]) := by
  obtain ⟨asked, hasked, hall⟩ := h.asked
  constructor
  · rcases hanswers with heq | heq
    · exact ⟨asked, by rw [hasked, heq], hall⟩
    · refine ⟨asked ++ [.queued], by rw [hasked, heq, List.append_assoc]; rfl, fun a ha => ?_⟩
      rcases List.mem_append.mp ha with hin | hin
      · exact hall a hin
      · exact List.mem_singleton.mp hin
  · change s.words ++ wordsOf x = _
    rw [h.words, List.flatMap_append, List.flatMap_singleton, List.append_assoc]
  · change s.entries + 1 = _
    rw [h.entries, List.length_append, List.length_singleton, Nat.add_assoc]
  · change s.npages + x.npages = _
    rw [h.npages, List.map_append, List.sum_append, List.map_singleton, List.sum_singleton,
      Nat.add_assoc]
  · exact h.rc

theorem spillGroup_spec : ∀ (group : List Item) {s : Out} {moved : List Item},
    Running first s moved →
    Running first (spillGroup group s) (moved ++ group) ∨
    ∃ before x after, group = before ++ x :: after ∧
      Broken first (spillGroup group s) (moved ++ before) x
  | [], s, moved, h => .inl ((List.append_nil moved).symm ▸ h)
  | x :: rest, s, moved, h => by
      obtain ⟨asked, hasked, hall⟩ := h.asked
      -- the items that are left, once `x` has been queued
      have hrest : ∀ {out : Out}, Running first out (moved ++ [x]) →
          Running first (spillGroup rest out) (moved ++ x :: rest) ∨
          ∃ before y after, x :: rest = before ++ y :: after ∧
            Broken first (spillGroup rest out) (moved ++ before) y := by
        intro out hout
        rcases spillGroup_spec rest hout with hrun | ⟨before, y, after, hgroup, hbroken⟩
        · rw [List.append_assoc] at hrun
          exact .inl hrun
        · rw [List.append_assoc] at hbroken
          exact .inr ⟨x :: before, y, after, by rw [hgroup]; rfl, hbroken⟩
      rw [spillGroup]
      cases hans : s.answers with
      | nil =>
          have hout := h.queue (x := x) (.inl hans)
          have hsame : ({ s with answers := ([] : List Answer) } : Out) = s := by rw [← hans]
          exact hrest (by simpa only [← hans] using hout)
      | cons a answers =>
          cases a with
          | queued => exact hrest (h.queue (.inr hans))
          | refused rc pending =>
              exact .inr ⟨[], x, rest, rfl,
                ⟨asked, _, hans ▸ hasked, hall, Answer.noConfusion, rfl⟩,
                by rw [List.append_nil]; exact h.words, rc.property⟩
          | noRoom rc =>
              exact .inr ⟨[], x, rest, rfl,
                ⟨asked, _, hans ▸ hasked, hall, Answer.noConfusion, rfl⟩,
                by rw [List.append_nil]; exact h.words, rc.property⟩

/-! ## 3. The way back -/

theorem walkBack_spec {items : Nat → Item} : ∀ w, 0 < w → walkBack v levels items w < w ∧
    ∀ i, walkBack v levels items w < i → i < w → spillPrio v (items i) < levels.prio2adjacent
  | 0, h => absurd h (Nat.lt_irrefl 0)
  | w + 1, _ => by
      rw [walkBack]
      split
      · rename_i hmore
        obtain ⟨hlt, hprio⟩ := walkBack_spec w (Nat.pos_of_ne_zero hmore.1)
        refine ⟨Nat.lt_succ_of_lt hlt, fun i hlo hhi => ?_⟩
        by_cases hlast : i = w
        · rw [hlast]
          exact hmore.2.2
        · exact hprio i hlo (by omega)
      · exact ⟨Nat.lt_succ_self w, fun i hlo hhi => by omega⟩

/-! ## 4. The loop -/

/-- The items up to `r` are those up to `w`, those that were moved and those that were lost. -/
structure Scanned (v : Watch) (items : Nat → Item) (length : Nat) (s : Scan)
    (moved lost : List Item) : Prop where
  le : s.w ≤ s.r
  inside : s.r ≤ length
  after : ∀ i, s.r < i → s.items i = items i
  sub : (slice s.items 1 s.w).Sublist (slice items 1 s.r)
  perm : (slice s.items 1 s.w ++ (moved ++ lost)).Perm (slice items 1 s.r)
  chosen : ∀ x ∈ moved, spillPrio v x < 256
  counted : s.r = s.w + (moved.length + lost.length)

theorem slice_concat {α : Type} (b : Nat → α) (n : Nat) :
    slice b 1 (n + 1) = slice b 1 n ++ [b (n + 1)] := by
  rw [slice_add, Nat.add_comm n 1]
  rfl

/-- The item that is read comes behind those that are left. -/
theorem Scanned.read {items : Nat → Item} {length : Nat} {s : Scan}
    (h : Scanned v items length s moved []) (hr : s.r < length) :
    Scanned v items length
      { s with items := set s.items (s.w + 1) (s.items (s.r + 1)), r := s.r + 1, w := s.w + 1 }
      moved [] := by
  have hslice : slice (set s.items (s.w + 1) (s.items (s.r + 1))) 1 (s.w + 1) =
      slice s.items 1 s.w ++ [items (s.r + 1)] := by
    rw [slice_concat, set_self, slice_set_outside _ (.inr (by omega)),
      h.after _ (Nat.lt_succ_self s.r)]
  have hle := h.le
  constructor
  · exact Nat.succ_le_succ h.le
  · exact hr
  · intro i hi
    change s.r + 1 < i at hi
    change set s.items (s.w + 1) (s.items (s.r + 1)) i = _
    rw [set_of_ne _ _ (by omega)]
    exact h.after i (by omega)
  · change List.Sublist (slice _ 1 (s.w + 1)) (slice items 1 (s.r + 1))
    rw [hslice, slice_concat]
    exact h.sub.append (List.Sublist.refl _)
  · change List.Perm (slice _ 1 (s.w + 1) ++ _) (slice items 1 (s.r + 1))
    rw [hslice, slice_concat, List.append_assoc]
    refine List.Perm.trans ?_ (h.perm.append_right _)
    rw [List.append_assoc]
    exact List.perm_append_comm.append_left _
  · exact h.chosen
  · have hcounted := h.counted
    change s.r + 1 = s.w + 1 + _
    omega

/-- The items behind `w` leave the list. -/
theorem Scanned.leave {items : Nat → Item} {length w last : Nat} {s : Scan} {out : Out}
    {gone lost : List Item} (h : Scanned v items length s moved []) (hw : w ≤ s.w)
    (hgroup : slice s.items (w + 1) (s.w - w) = gone ++ lost)
    (hgone : ∀ x ∈ gone, spillPrio v x < 256) :
    Scanned v items length { s with w := w, last := last, out := out } (moved ++ gone) lost := by
  have hslice : slice s.items 1 s.w = slice s.items 1 w ++ (gone ++ lost) := by
    rw [← hgroup]
    exact slice_at s.items hw
  have hlength := congrArg List.length hgroup
  rw [slice_length, List.length_append] at hlength
  constructor
  · exact hw.trans h.le
  · exact h.inside
  · exact h.after
  · refine List.Sublist.trans ?_ h.sub
    rw [hslice]
    exact List.sublist_append_left _ _
  · refine List.Perm.trans ?_ h.perm
    rw [hslice, List.append_nil, List.append_assoc, List.append_assoc]
    exact List.perm_append_comm.append_left _
  · intro x hx
    rcases List.mem_append.mp hx with hin | hin
    · exact h.chosen x hin
    · exact hgone x hin
  · have hcounted := h.counted
    rw [List.length_nil] at hcounted
    change s.r = w + _
    rw [List.length_append]
    omega

/-- How the loop ends: all calls were successful, or the item of the failed one is the first of those
that were lost. -/
inductive Ended (v : Watch) (items : Nat → Item) (length : Nat) (first : Out) (s : Scan) : Prop
  | all (moved : List Item) (scanned : Scanned v items length s moved [])
      (running : Running first s.out moved)
  | failed (moved : List Item) (x : Item) (lost : List Item)
      (scanned : Scanned v items length s moved (x :: lost)) (broken : Broken first s.out moved x)

theorem scanLoop_spec {items : Nat → Item} (wanted : Amount) (length : Nat)
    (hlevels : levels.prio2spill ≤ 255 ∧ levels.prio2adjacent ≤ 256) : ∀ (n : Nat) (s : Scan)
    (moved : List Item), Scanned v items length s moved [] → Running first s.out moved →
    Ended v items length first (scanLoop v levels wanted length n s)
  | 0, s, moved, hscanned, hrun => .all moved hscanned hrun
  | n + 1, s, moved, hscanned, hrun => by
      rw [scanLoop]
      split
      · rename_i hmore
        have hread := hscanned.read hmore.1
        dsimp only
        split
        · exact scanLoop_spec wanted length hlevels n _ moved hread hrun
        · rename_i hprio
          -- the item that is read, and those before it that are close to it
          generalize hitems : set s.items (s.w + 1) (s.items (s.r + 1)) = cells at hread ⊢
          have hcell : cells (s.w + 1) = s.items (s.r + 1) := by
            rw [← hitems]
            exact set_self _ _ _
          obtain ⟨hback, hclose⟩ := walkBack_spec (v := v)
            (s.w + 1) (Nat.succ_pos s.w)
          generalize walkBack v levels cells (s.w + 1) = w at hback hclose ⊢
          have hchosen : ∀ y ∈ slice cells (w + 1) (s.w + 1 - w), spillPrio v y < 256 := by
            intro y hy
            obtain ⟨i, hlo, hhi, rfl⟩ := mem_slice.mp hy
            by_cases hlast : i = s.w + 1
            · rw [hlast, hcell]
              by_contra hge
              exact hprio ⟨by omega, .inl (by omega)⟩
            · have hlt := hclose i (by omega) (by omega)
              omega
          rcases spillGroup_spec (slice cells (w + 1) (s.w + 1 - w)) hrun with
            hdone | ⟨before, y, after, hgroup, hbroken⟩
          · rw [if_pos hdone.rc]
            refine scanLoop_spec wanted length hlevels n _ _ ?_ hdone
            exact hread.leave (Nat.le_of_lt hback) (List.append_nil _).symm hchosen
          · rw [if_neg hbroken.rc]
            refine .failed _ y after ?_ hbroken
            exact hread.leave (Nat.le_of_lt hback) hgroup fun z hz =>
              hchosen z (hgroup ▸ List.mem_append_left _ hz)
      · exact .all moved hscanned hrun

/-! ## 5. The list after the loop -/

-- `while (r < dl->length)`
theorem rest_copied {items : Nat → Item} {length : Nat} {s : Scan} {lost : List Item}
    (h : Scanned v items length s moved lost) :
    slice (moveDown s.items (s.w + 1) (s.r + 1) (length - s.r)) 1 (s.w + (length - s.r)) =
      slice s.items 1 s.w ++ slice items (s.r + 1) (length - s.r) := by
  have hle := h.le
  rw [slice_add]
  congr 1
  · refine slice_congr fun i _ hi => ?_
    rw [moveDown_apply _ _ _ _ _ (Nat.succ_le_succ h.le), if_neg (by omega)]
  · refine slice_shift fun k hk => ?_
    rw [moveDown_apply _ _ _ _ _ (Nat.succ_le_succ h.le), if_pos (by omega),
      show 1 + s.w + k - (s.w + 1) = k by omega]
    exact h.after _ (by omega)

theorem Scanned.whole {items : Nat → Item} {length : Nat} {s : Scan} {lost : List Item}
    (h : Scanned v items length s moved lost) :
    (slice (moveDown s.items (s.w + 1) (s.r + 1) (length - s.r)) 1 (s.w + (length - s.r)) ++
      (moved ++ lost)).Perm (slice items 1 length) ∧
    (slice (moveDown s.items (s.w + 1) (s.r + 1) (length - s.r)) 1
      (s.w + (length - s.r))).Sublist (slice items 1 length) := by
  rw [rest_copied h, slice_at items h.inside]
  constructor
  · rw [List.append_assoc]
    refine List.Perm.trans ?_ (h.perm.append_right _)
    rw [List.append_assoc]
    exact List.perm_append_comm.append_left _
  · exact h.sub.append (List.Sublist.refl _)

end Mdbx.Spill
