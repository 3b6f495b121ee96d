import Mdbx.Copy.Safe

/-!
# Copy.Ends — whether the two threads come to an end

Every step brings the copy nearer to its end, so a run can only stop.  It stops when the copy
returns, or when the walker sleeps beside a writer that has gone: a writer that fails wakes nobody.
-/

namespace Mdbx.Copy

variable {c : Conf} {all f₀ sent : List UInt8} {metaBytes : Nat} {s s' : State}

/-! ## 1. The threads keep off each other's buffer -/

/-- While the writer sends a buffer the walker leaves it alone, and while the walker puts pages the
writer leaves the walker's side alone. -/
structure Apart (c : Conf) (s : State) : Prop where
  walker : ∀ n err s', s.writer = .writing n → walkerStep c s err = some s' →
    s'.writer = .writing n ∧ s'.toggle = s.toggle ∧ s'.writeBuf s.toggle = s.writeBuf s.toggle
  writer : ∀ ps err n s', s.walker = .putting ps → writerStep c s err n = some s' →
    s'.side = s.side ∧ s'.writeBuf = s.writeBuf ∧ s'.writeLen s.side = s.writeLen s.side

theorem writeLoop_head (s : State) : (writeLoop s).head = s.head := by
  unfold writeLoop awaitBuffer takeBuffer
  simp only [signalWalker_eq]
  split_ifs <;> rfl

theorem awaitBuffer_head (s : State) : (awaitBuffer s).head = s.head := by
  unfold awaitBuffer takeBuffer
  simp only [signalWalker_eq]
  split_ifs <;> rfl

theorem writeLoop_buf (s : State) : (writeLoop s).writeBuf = s.writeBuf := by
  unfold writeLoop awaitBuffer takeBuffer
  simp only [signalWalker_eq]
  split_ifs <;> rfl

theorem awaitBuffer_buf (s : State) : (awaitBuffer s).writeBuf = s.writeBuf := by
  unfold awaitBuffer takeBuffer
  simp only [signalWalker_eq]
  split_ifs <;> rfl

-- with no error set, only a buffer that was handed over is taken
theorem awaitBuffer_len (hc : Counters s) (he : s.error = 0) (hle : s.used ≤ 1) :
    (awaitBuffer s).writeLen s.side = s.writeLen s.side := by
  have hside := hc.side_eq
  have htl := toggle_lt s
  unfold awaitBuffer
  by_cases hw : s.tail = s.head ∧ s.error = 0
  · rw [if_pos hw]
  · rw [if_neg hw]
    have hpos : s.used ≠ 0 := fun h0 => hw ⟨hc.used_eq_zero.mp h0, he⟩
    have hne : s.side ≠ s.toggle := by omega
    unfold takeBuffer
    rw [if_pos he]
    split_ifs
    · rfl
    · exact Function.update_of_ne hne _ _

theorem put_other (c : Conf) (s : State) (p : Put) (ps : List Put) {side : Nat}
    (hne : side ≠ s.side) : (compactingPutBytes c s p ps).writer = s.writer ∧
      (compactingPutBytes c s p ps).toggle = s.toggle ∧
      (compactingPutBytes c s p ps).writeBuf side = s.writeBuf side := by
  unfold compactingPutBytes
  simp only
  split_ifs <;> first
    | exact ⟨rfl, rfl, rfl⟩
    | exact ⟨rfl, rfl, Function.update_of_ne hne _ _⟩

theorem writeLoop_len (hc : Counters s) (hle : s.error = 0 → s.used ≤ 1) :
    (writeLoop s).writeLen s.side = s.writeLen s.side := by
  unfold writeLoop
  by_cases he : s.error = 0
  · rw [if_pos he]
    exact awaitBuffer_len hc he (hle he)
  · rw [if_neg he]

theorem Inv.apart (h : Inv c all f₀ metaBytes sent s) : Apart c s where
  walker := fun n err s' hw hs => by
    have he := h.busy (by rw [hw]; rfl)
    have hq := h.quiet he
    have hpos := (hq.taken n hw).1
    have hside := h.counters.side_eq
    have htl := toggle_lt s
    cases walkerStep_some hs with
    | finish _ => exact ⟨hw, rfl, rfl⟩
    | put p ps hk =>
      have hle := hq.used_le_one (by rw [hk]; rfl)
      have hne : s.toggle ≠ s.side := by omega
      have hput := put_other c s p ps hne
      exact ⟨hput.1.trans hw, hput.2⟩
    | flush _ _ _ => exact ⟨hw, rfl, rfl⟩
    | eof _ _ _ => exact ⟨hw, rfl, rfl⟩
    | toggle k _ hfree =>
      rw [hw] at hfree
      cases hfree
    | resume k _ hfree =>
      rw [hw] at hfree
      cases hfree
    | leave k _ => exact ⟨hw, rfl, rfl⟩
    | join rc _ _ => exact ⟨hw, rfl, rfl⟩
  writer := fun ps err n s' hw hs => by
    have hle : s.error = 0 → s.used ≤ 1 := fun he =>
      (h.quiet he).used_le_one (by rw [hw]; rfl)
    have hnoticed : s.error ≠ 0 → s.writer = .exited ∨ s.writer = .locking := by
      intro he
      rcases h.noticed he with hx | hl | haside
      · exact Or.inl hx
      · exact Or.inr hl
      · exact absurd hw (haside.2 ps).1
    cases writerStep_some hs with
    | start _ => exact ⟨rfl, rfl, rfl⟩
    | lock _ =>
      exact ⟨congrArg (· % 2) (writeLoop_head s), writeLoop_buf s, writeLoop_len h.counters hle⟩
    | resume hr _ =>
      have he : s.error = 0 := by
        by_contra he
        rcases hnoticed he with hx | hl
        · exact Writer.noConfusion (hx.symm.trans hr)
        · exact Writer.noConfusion (hl.symm.trans hr)
      exact ⟨congrArg (· % 2) (awaitBuffer_head s), awaitBuffer_buf s,
        awaitBuffer_len h.counters he (hle he)⟩
    | broken _ _ => exact ⟨rfl, rfl, rfl⟩
    | wrote wsize hr _ =>
      have he := h.busy (by rw [hr]; rfl)
      have hpos := ((h.quiet he).taken wsize hr).1
      have hone := hle he
      have hnext : ∀ offset file, let t := s.shifted s.walker.woke s.writer offset file
          (Copy.writeLoop t).side = s.side ∧ (Copy.writeLoop t).writeBuf = s.writeBuf ∧
            (Copy.writeLoop t).writeLen s.side = s.writeLen s.side := by
        intro offset file t
        have hc : Counters t := ⟨h.counters.behind.head, h.counters.behind.tail⟩
        have hused : t.used = s.used - 1 := h.counters.behind_used hpos
        exact ⟨congrArg (· % 2) (writeLoop_head t), writeLoop_buf t,
          writeLoop_len hc fun _ => by omega⟩
      unfold Copy.wrote
      simp only [signalWalker_eq]
      split_ifs
      · exact ⟨rfl, rfl, rfl⟩
      · exact hnext _ _
      · exact hnext _ _
    | failed wsize _ _ => exact ⟨rfl, rfl, rfl⟩

/-! ## 2. Standstill -/

/-- Neither thread can move on by itself. -/
def Stuck (c : Conf) (s : State) : Prop :=
  (∀ err, walkerStep c s err = none) ∧ ∀ err n, writerStep c s err n = none

theorem writer_stuck (h : ∀ err n, writerStep c s err n = none) :
    s.writer = .waiting ∨ s.writer = .exited := by
  have h0 := h 0 0
  unfold writerStep at h0
  cases hw : s.writer with
  | waiting => exact Or.inl rfl
  | exited => exact Or.inr rfl
  | starting | locking | woken | writing n =>
    simp only [hw, if_true] at h0
    cases h0

theorem walker_stuck (h : ∀ err, walkerStep c s err = none) (hfree : s.writer.sending = false) :
    (∃ k, s.walker = .waiting k) ∨ (∃ rc, s.walker = .returned rc) ∨
      s.writer ≠ .exited ∧ s.walker.ended = true := by
  have h0 := h 0
  have hmutex := (mutexFree_iff s).mpr hfree
  unfold walkerStep at h0
  cases hw : s.walker with
  | waiting k => exact Or.inl ⟨k, rfl⟩
  | returned rc => exact Or.inr (Or.inl ⟨rc, rfl⟩)
  | joining rc =>
    simp only [hw] at h0
    refine Or.inr (Or.inr ⟨fun hx => ?_, rfl⟩)
    rw [if_pos hx] at h0
    cases h0
  | putting ps =>
    rw [hw] at h0
    cases ps <;> cases h0
  | walked rc =>
    simp only [hw] at h0
    split_ifs at h0
  | toggling k | woken k =>
    simp only [hw, hmutex, if_true] at h0
    cases h0
  | leaving k =>
    rw [hw] at h0
    cases h0

/-- At a standstill the copy has returned, or an error is set and the walker was forgotten. -/
theorem Inv.stuck (h : Inv c all f₀ metaBytes sent s) (hs : Stuck c s) :
    s.writer = .exited ∧
      ((∃ rc, s.walker = .returned rc) ∨ s.error ≠ 0 ∧ ∃ k, s.walker = .waiting k) := by
  have hzero := h.counters.used_eq_zero
  rcases writer_stuck hs.2 with hw | hw
  · exfalso
    have hdoze := h.dozing hw
    rcases walker_stuck hs.1 (by rw [hw]; rfl) with ⟨k, hk⟩ | ⟨rc, hk⟩ | ⟨-, hend⟩
    · by_cases he : s.error = 0
      · have h2 := (h.quiet he).asleep (by rw [hk]; rfl)
        have h0 := hzero.mpr hdoze.1
        omega
      · rcases h.noticed he with hx | hl | haside
        · exact Writer.noConfusion (hx.symm.trans hw)
        · exact Writer.noConfusion (hl.symm.trans hw)
        · rw [hk] at haside
          exact Bool.noConfusion haside.1
    · rw [hk] at hdoze
      exact Bool.noConfusion hdoze.2
    · exact Bool.noConfusion (hdoze.2.symm.trans hend)
  · refine ⟨hw, ?_⟩
    rcases walker_stuck hs.1 (by rw [hw]; rfl) with ⟨k, hk⟩ | hk | ⟨hne, -⟩
    · refine Or.inr ⟨fun he => ?_, k, hk⟩
      have hq := h.quiet he
      have h2 := hq.asleep (by rw [hk]; rfl)
      have h0 := hq.gone hw
      omega
    · exact Or.inl hk
    · exact absurd hw hne

/-! ## 3. Every step counts -/

/-- Each byte and each call is worth the steps that it may cost. -/
def size (ps : List Put) : Nat := (ps.map fun p => p.bytes + 1).sum

def Caller.rank : Caller → Nat
  | .put ps => 18 + 9 * size ps
  | .flush _ => 9
  | .eof _ => 2

/-- Without room for a header the walker may have to toggle first. -/
def crowded (c : Conf) (s : State) : Nat :=
  if pageHdrSz ≤ c.writeBufSize - s.writeLen s.side then 0 else 8

def walkerRank (c : Conf) (s : State) : Nat :=
  match s.walker with
  | .putting ps => 17 + 9 * size ps + crowded c s
  | .walked _ => 16
  | .toggling k => k.rank + 6
  | .waiting k => k.rank + 1
  | .woken k => k.rank + 2
  | .leaving k => k.rank
  | .joining _ => 1
  | .returned _ => 0

def writerRank (s : State) : Nat :=
  match s.writer with
  | .starting => 3 + 3 * s.used
  | .locking => 2 + 3 * s.used
  | .woken => 1 + 3 * s.used
  | .waiting => 3 * s.used
  | .writing _ => 3 * s.used
  | .exited => 0

def rank (c : Conf) (s : State) : Nat := walkerRank c s + writerRank s

theorem crowded_le (c : Conf) (s : State) : crowded c s ≤ 8 := by
  unfold crowded
  split_ifs <;> omega

theorem size_cons (p : Put) (ps : List Put) : size (p :: ps) = p.bytes + 1 + size ps := by
  unfold size
  rw [List.map_cons, List.sum_cons]

theorem walkerRank_woke (c : Conf) (s : State) :
    walkerRank c { s with walker := s.walker.woke } ≤ walkerRank c s + 1 := by
  unfold walkerRank
  cases s.walker with
  | waiting k => exact Nat.le_refl _
  | putting ps | walked rc | toggling k | woken k | leaving k | joining rc | returned rc =>
    exact Nat.le_add_right _ _

theorem writerRank_woke (s : State) :
    writerRank { s with writer := s.writer.woke } ≤ writerRank s + 1 := by
  unfold writerRank
  cases s.writer with
  | waiting => exact Nat.le_of_eq (Nat.add_comm 1 _)
  | starting | locking | woken | writing n | exited => exact Nat.le_add_right _ _

-- an idle call of `writerRank` looks at nothing else
theorem writerRank_congr {t : State} (hw : t.writer = s.writer) (hu : t.used = s.used) :
    writerRank t = writerRank s := by
  unfold writerRank
  rw [hw, hu]

theorem awaitSide_rank (c : Conf) (s : State) (k : Caller) :
    walkerRank c (awaitSide s k) ≤ k.rank + 1 := by
  rw [awaiting_eq]
  unfold walkerRank
  simp only
  split_ifs
  · exact Nat.le_refl _
  · exact Nat.le_succ _

theorem put_rank (hc : c.Ok) (hb : Buffers c s) {p : Put} {ps : List Put}
    (hw : s.walker = .putting (p :: ps)) :
    walkerRank c (compactingPutBytes c s p ps) + 1 ≤ walkerRank c s := by
  have hbefore : walkerRank c s = 17 + 9 * size (p :: ps) + crowded c s := by
    unfold walkerRank
    rw [hw]
  have hlen := hb.le s.side
  have hmin := hc.least
  rw [hbefore, size_cons]
  unfold compactingPutBytes
  by_cases h0 : p.bytes = 0
  · rw [if_pos h0]
    change 17 + 9 * size ps + crowded c s + 1 ≤ _
    omega
  · rw [if_neg h0]
    simp only
    by_cases hroom : c.writeBufSize - s.writeLen s.side < (if p.pgno ≠ 0 then pageHdrSz else 1)
    · rw [if_pos hroom]
      have hcrowded : crowded c s = 8 := by
        refine if_neg ?_
        unfold pageHdrSz at hroom ⊢
        split_ifs at hroom <;> omega
      change 18 + 9 * size (p :: ps) + 6 + 1 ≤ _
      rw [size_cons]
      omega
    · rw [if_neg hroom]
      generalize hn : (if p.bytes < c.writeBufSize - s.writeLen s.side then p.bytes
        else c.writeBufSize - s.writeLen s.side) = n
      have hone : 1 ≤ n ∧ n ≤ p.bytes := by
        unfold pageHdrSz at hroom
        split_ifs at hroom hn <;> omega
      have hafter := crowded_le c { s with
        writeBuf := Function.update s.writeBuf s.side
          (poke (s.writeBuf s.side) (s.writeLen s.side) (p.chunk c.txnid n))
        writeLen := Function.update s.writeLen s.side (s.writeLen s.side + n)
        walker := .putting (p.advance n :: ps) }
      change 17 + 9 * size (p.advance n :: ps) + crowded c _ + 1 ≤ _
      rw [size_cons, Put.advance_bytes]
      omega

theorem walkerStep_rank (h : Inv c all f₀ metaBytes sent s) (hc : c.Ok) {err : Int}
    (hs : walkerStep c s err = some s') : rank c s' + 1 ≤ rank c s := by
  have hstill : ∀ w : Walker, walkerRank c { s with walker := w } + 1 ≤ walkerRank c s →
      rank c { s with walker := w } + 1 ≤ rank c s := by
    intro w hw
    have hsame : writerRank { s with walker := w } = writerRank s := writerRank_congr rfl rfl
    unfold rank
    omega
  have hwas : ∀ w, s.walker = w → walkerRank c s = walkerRank c { s with walker := w } := by
    intro w hw
    rw [← hw]
  cases walkerStep_some hs with
  | finish hw =>
    refine hstill _ ?_
    rw [hwas _ hw]
    change 16 + 1 ≤ 17 + 9 * size [] + crowded c _
    omega
  | put p ps hw =>
    have hput := put_rank hc h.buffers hw
    have hsame : writerRank (compactingPutBytes c s p ps) = writerRank s := by
      unfold compactingPutBytes
      simp only
      split_ifs <;> rfl
    unfold rank
    omega
  | flush rc hw _ =>
    refine hstill _ ?_
    rw [hwas _ hw]
    exact Nat.le_refl 16
  | eof rc hw _ =>
    refine hstill _ ?_
    rw [hwas _ hw]
    exact (by decide : 8 + 1 ≤ 16)
  | toggle k hw _ =>
    unfold compactingToggleWriteBuffers
    have hside := awaitSide_rank c (signalWriter { s with head := wrap (s.head + 1) }) k
    have hwoke : writerRank (awaitSide (signalWriter { s with head := wrap (s.head + 1) }) k) ≤
        writerRank s.ahead + 1 := by
      rw [awaiting_eq, signalWriter_eq]
      exact writerRank_woke s.ahead
    have hgrown : writerRank s.ahead ≤ writerRank s + 3 := by
      have hused : s.ahead.used ≤ s.used + 1 := by
        rw [h.counters.ahead_used]
        exact Nat.mod_le _ _
      unfold writerRank
      change (match s.writer with
        | .starting => _ | .locking => _ | .woken => _ | .waiting => _ | .writing _ => _
        | .exited => _) ≤ _
      cases s.writer with
      | starting | locking | woken | waiting | writing n =>
        simp only
        omega
      | exited => exact Nat.zero_le _
    have hbefore := hwas _ hw
    change walkerRank c s = k.rank + 6 at hbefore
    unfold rank
    omega
  | resume k hw _ =>
    have hside := awaitSide_rank c (if err = 0 then s else { s with error := err }) k
    have hsame : writerRank (awaitSide (if err = 0 then s else { s with error := err }) k) =
        writerRank s := by
      rw [awaiting_eq]
      split_ifs <;> rfl
    have hbefore := hwas _ hw
    change walkerRank c s = k.rank + 2 at hbefore
    unfold rank
    omega
  | leave k hw =>
    refine hstill _ ?_
    rw [hwas _ hw]
    cases k with
    | put ps =>
      by_cases he : s.error = 0
      · have hq := h.quiet he
        have hle := hq.used_le_one (by rw [hw]; rfl)
        have hempty := hq.blank (by rw [hw]; rfl) hle
        have hmin := hc.least
        have ht : toggled s (.put ps) = .putting ps := if_pos he
        have hroom : crowded c { s with walker := .putting ps } = 0 := by
          refine if_pos ?_
          change pageHdrSz ≤ c.writeBufSize - s.writeLen s.side
          rw [hempty]
          unfold pageHdrSz
          omega
        rw [ht]
        change 17 + 9 * size ps + crowded c _ + 1 ≤ 18 + 9 * size ps
        rw [hroom]
        omega
      · have ht : toggled s (.put ps) = .walked s.error := if_neg he
        rw [ht]
        change 16 + 1 ≤ 18 + 9 * size ps
        omega
    | flush rc => exact Nat.le_refl 9
    | eof rc => exact Nat.le_refl 2
  | join rc hw _ =>
    refine hstill _ ?_
    rw [hwas _ hw]
    exact Nat.le_refl 1

theorem walkerRank_mono {t : State} (hw : t.walker = s.walker) (hside : t.side = s.side)
    (hlen : t.writeLen s.side ≤ s.writeLen s.side) : walkerRank c t ≤ walkerRank c s := by
  have hcrowded : crowded c t ≤ crowded c s := by
    unfold crowded
    rw [hside]
    split_ifs <;> omega
  unfold walkerRank
  rw [hw]
  cases s.walker with
  | putting ps => exact Nat.add_le_add_left hcrowded _
  | walked rc | toggling k | waiting k | woken k | leaving k | joining rc | returned rc =>
    exact Nat.le_refl _

-- behind the lock the writer costs no more than what is left in the queue
theorem awaitBuffer_rank (c : Conf) (s : State) (hcalm : s.error = 0 ∨ s.walker.held = false) :
    rank c (awaitBuffer s) ≤ walkerRank c s + 3 * s.used := by
  have hlen := writeLen_taken s s.side
  unfold awaitBuffer
  by_cases hidle : s.tail = s.head ∧ s.error = 0
  · rw [if_pos hidle]
    exact Nat.le_refl _
  · rw [if_neg hidle]
    unfold takeBuffer
    split_ifs with hz he
    · exact Nat.le_add_right _ _
    · have hless : walkerRank c s.taking ≤ walkerRank c s := walkerRank_mono rfl rfl hlen
      exact Nat.add_le_add_right hless _
    · rw [signalWalker_eq]
      simp only
      rw [woke_of_not_held (hcalm.resolve_left he)]
      have hless : walkerRank c { s with
          writeLen := Function.update s.writeLen s.toggle 0
          tail := wrap (s.tail + 1)
          writer := .exited } ≤ walkerRank c s := walkerRank_mono rfl rfl hlen
      exact Nat.le_trans hless (Nat.le_add_right _ _)

theorem writeLoop_rank (c : Conf) (s : State) :
    rank c (writeLoop s) ≤ walkerRank c s + 3 * s.used := by
  unfold writeLoop
  split_ifs with he
  · exact awaitBuffer_rank c s (Or.inl he)
  · exact Nat.le_add_right _ _

theorem writerStep_rank (h : Inv c all f₀ metaBytes sent s) {err : Int} {n : Nat}
    (hs : writerStep c s err n = some s') : rank c s' + 1 ≤ rank c s := by
  have hwas : ∀ wr, s.writer = wr → writerRank s = writerRank { s with writer := wr } := by
    intro wr hw
    rw [← hw]
  have hpos : ∀ wsize, s.writer = .writing wsize → 0 < s.used ∧
      rank c s = walkerRank c s + 3 * s.used := by
    intro wsize hw
    refine ⟨((h.quiet (h.busy (by rw [hw]; rfl))).taken wsize hw).1, ?_⟩
    unfold rank
    rw [hwas _ hw]
    rfl
  cases writerStep_some hs with
  | start hw =>
    have hbefore := hwas _ hw
    change writerRank s = 3 + 3 * s.used at hbefore
    change walkerRank c s + (2 + 3 * s.used) + 1 ≤ walkerRank c s + writerRank s
    omega
  | lock hw =>
    have hloop := writeLoop_rank c s
    have hbefore := hwas _ hw
    change writerRank s = 2 + 3 * s.used at hbefore
    unfold rank at hloop ⊢
    omega
  | resume hw _ =>
    have hcalm : s.error = 0 ∨ s.walker.held = false := by
      by_cases he : s.error = 0
      · exact Or.inl he
      · rcases h.noticed he with hx | hl | haside
        · exact absurd (hx.symm.trans hw) Writer.noConfusion
        · exact absurd (hl.symm.trans hw) Writer.noConfusion
        · exact Or.inr haside.1
    have hloop := awaitBuffer_rank c s hcalm
    have hbefore := hwas _ hw
    change writerRank s = 1 + 3 * s.used at hbefore
    unfold rank at hloop ⊢
    omega
  | broken hw _ =>
    have hbefore := hwas _ hw
    change writerRank s = 1 + 3 * s.used at hbefore
    change walkerRank c s + 0 + 1 ≤ walkerRank c s + writerRank s
    omega
  | wrote wsize hw _ =>
    obtain ⟨hused, hbefore⟩ := hpos wsize hw
    have hnext : ∀ offset file,
        rank c (writeLoop (s.shifted s.walker.woke s.writer offset file)) + 1 ≤ rank c s := by
      intro offset file
      have hloop := writeLoop_rank c (s.shifted s.walker.woke s.writer offset file)
      have hless : (s.shifted s.walker.woke s.writer offset file).used = s.used - 1 :=
        h.counters.behind_used hused
      have hwoke : walkerRank c (s.shifted s.walker.woke s.writer offset file) ≤
          walkerRank c s + 1 := walkerRank_woke c s
      omega
    unfold wrote
    simp only [signalWalker_eq]
    split_ifs
    · change walkerRank c s + 0 + 1 ≤ _
      omega
    · exact hnext _ _
    · exact hnext _ _
  | failed wsize hw _ =>
    obtain ⟨hused, hbefore⟩ := hpos wsize hw
    change walkerRank c s + 0 + 1 ≤ _
    omega

/-! ## 4. The end -/

/-- A thread wakes with no reason. -/
def Event.wakes : Event → Bool
  | .wakeWalker | .wakeWriter => true
  | .walker _ | .writer _ _ => false

variable {ps : List Put} {es : List Event}

theorem start_rank (hc : c.Ok) (ps : List Put) (metaBytes : Nat) (f₀ : List UInt8) :
    rank c (start c ps metaBytes f₀) = 20 + 9 * size ps := by
  have hused := start_used c ps metaBytes f₀
  have hmin := hc.least
  have hroom : crowded c (start c ps metaBytes f₀) = 0 := by
    refine if_pos ?_
    change pageHdrSz ≤ c.writeBufSize - 0
    unfold pageHdrSz
    omega
  change 17 + 9 * size ps + crowded c (start c ps metaBytes f₀) +
    (3 + 3 * (start c ps metaBytes f₀).used) = _
  omega

/-- No copy goes on for ever, and it stops only when it returns or when the walker was left asleep
by a writer that has gone with an error. -/
theorem copy_ends (h : Run c ps metaBytes f₀ es s) :
    es.countP (fun e => !e.wakes) ≤ 20 + 9 * size ps + es.countP Event.wakes ∧
      (Stuck c s → s.writer = .exited ∧
        ((∃ rc, s.walker = .returned rc) ∨ s.error ≠ 0 ∧ ∃ k, s.walker = .waiting k)) := by
  obtain ⟨sent, hi⟩ := h.inv
  refine ⟨?_, fun hstuck => hi.stuck hstuck⟩
  have hbound := Steps.exec_bounded Event.wakes (rank c)
    (fun _ _ _ hi hp hs => step_inv h.conf h.stub hi hp hs)
    (fun t e t' hi _ hs hw => by
      obtain ⟨sent, hi⟩ := hi
      cases e with
      | walker err => exact walkerStep_rank hi h.conf hs
      | writer err n => exact writerStep_rank hi hs
      | wakeWalker => cases hw
      | wakeWriter => cases hw)
    (fun t e t' _ _ hs hw => by
      cases e with
      | walker err => cases hw
      | writer err n => cases hw
      | wakeWalker =>
        cases hs
        rw [signalWalker_eq]
        have hwoke := walkerRank_woke c t
        have hsame : writerRank { t with walker := t.walker.woke } = writerRank t :=
          writerRank_congr rfl rfl
        unfold rank
        omega
      | wakeWriter =>
        cases hs
        rw [signalWriter_eq]
        have hwoke := writerRank_woke t
        have hsame : walkerRank c { t with writer := t.writer.woke } = walkerRank c t := rfl
        unfold rank
        omega)
    ⟨[], start_inv h.puts⟩ h.prompt h.exec
  rw [start_rank h.conf] at hbound
  omega

theorem copy_ends_pipe : pipeEvents.countP (fun e => !e.wakes) ≤
    20 + 9 * size (putPages 32 [onePage] numMetas) + pipeEvents.countP Event.wakes := by
  obtain ⟨s, h, -⟩ := pipe_run
  exact (copy_ends h).1

/-! ## 5. A writer that fails wakes nobody -/

/-- The step of the writer fails: a wait or a write returns an error, or the offset would wrap. -/
def Fails (c : Conf) (s : State) : Event → Prop
  | .writer err _ => s.writer ≠ .locking ∧ err ≠ 0 ∨ ∃ wsize, s.writer = .writing wsize ∧
      c.writeWithOffset = true ∧ uint64Max - s.writeOffset < wsize
  | _ => False

/-- The writer fails while the walker sleeps. -/
def Abandons (c : Conf) (s : State) (e : Event) : Prop :=
  (∃ k, s.walker = .waiting k) ∧ (∃ s', step c s e = some s') ∧ Fails c s e

/-- A sleeping walker that no writer will wake. -/
def Lost (s : State) : Prop := s.error ≠ 0 ∧ ∃ k, s.walker = .waiting k

theorem einval_ne : mdbxEinval ≠ 0 := by decide

theorem wrote_fails (c : Conf) (s : State) {wsize : Nat} (hoff : c.writeWithOffset = true)
    (hover : uint64Max - s.writeOffset < wsize) : wrote c s wsize = { s with
      file := send c s ((s.writeBuf s.toggle).take wsize)
      error := mdbxEinval
      writer := .exited } := by
  unfold wrote
  rw [if_pos hoff, if_pos hover]

theorem Abandons.lost {e : Event} (ha : Abandons c s e) (hs : step c s e = some s') :
    Lost s' := by
  obtain ⟨⟨k, hk⟩, -, hfail⟩ := ha
  cases e with
  | walker err => exact hfail.elim
  | wakeWalker => exact hfail.elim
  | wakeWriter => exact hfail.elim
  | writer err n =>
    cases writerStep_some hs with
    | start hw =>
      rcases hfail with ⟨-, hne⟩ | ⟨wsize, hws, -⟩
      · exact ⟨hne, k, hk⟩
      · exact absurd (hw.symm.trans hws) Writer.noConfusion
    | lock hw =>
      rcases hfail with ⟨hl, -⟩ | ⟨wsize, hws, -⟩
      · exact absurd hw hl
      · exact absurd (hw.symm.trans hws) Writer.noConfusion
    | resume hw herr =>
      rcases hfail with ⟨-, hne⟩ | ⟨wsize, hws, -⟩
      · exact absurd herr hne
      · exact absurd (hw.symm.trans hws) Writer.noConfusion
    | broken hw herr => exact ⟨herr, k, hk⟩
    | wrote wsize hw herr =>
      rcases hfail with ⟨-, hne⟩ | ⟨wsize', hws, hoff, hover⟩
      · exact absurd herr hne
      · cases hw.symm.trans hws
        rw [wrote_fails c s hoff hover]
        exact ⟨einval_ne, k, hk⟩
    | failed wsize hw herr => exact ⟨herr, k, hk⟩

/-- Nothing but a wake-up without a reason helps a lost walker. -/
theorem Lost.step (h : Inv c all f₀ metaBytes sent s) (hl : Lost s) {e : Event}
    (hw : e.wakes = false) (hs : step c s e = some s') : Lost s' := by
  obtain ⟨he, k, hk⟩ := hl
  cases e with
  | walker err =>
    change walkerStep c s err = some s' at hs
    unfold walkerStep at hs
    rw [hk] at hs
    cases hs
  | wakeWalker => cases hw
  | wakeWriter => cases hw
  | writer err n =>
    have hwriter : s.writer = .exited ∨ s.writer = .locking := by
      rcases h.noticed he with hx | hl | haside
      · exact Or.inl hx
      · exact Or.inr hl
      · rw [hk] at haside
        exact Bool.noConfusion haside.1
    cases writerStep_some hs with
    | lock _ =>
      unfold writeLoop
      rw [if_neg he]
      exact ⟨he, k, hk⟩
    | start hr | resume hr _ | broken hr _ | wrote _ hr _ | failed _ hr _ =>
      rcases hwriter with hx | hl
      · exact absurd (hx.symm.trans hr) Writer.noConfusion
      · exact absurd (hl.symm.trans hr) Writer.noConfusion

theorem awaitBuffer_error (s : State) : (awaitBuffer s).error = s.error := by
  unfold awaitBuffer takeBuffer
  simp only [signalWalker_eq]
  split_ifs <;> rfl

theorem writeLoop_error (s : State) : (writeLoop s).error = s.error := by
  unfold writeLoop
  split_ifs
  · exact awaitBuffer_error s
  · rfl

theorem woke_ne_asleep {w : Walker} {k : Caller} (h : w.woke = .waiting k) : w = .waiting k := by
  have ha := woke_asleep w
  rw [h] at ha
  cases ha

-- the writer puts nobody to sleep
theorem writer_asleep {err : Int} {n : Nat} (hs : WriterMove c s err n s') {k : Caller}
    (h : s'.walker = .waiting k) : s.walker = .waiting k := by
  have hloop : ∀ t : State, (writeLoop t).walker = .waiting k → t.walker = .waiting k := by
    intro t ht
    rcases writeLoop_walker t with hw | hw
    · exact hw.symm.trans ht
    · exact woke_ne_asleep (hw.symm.trans ht)
  cases hs with
  | start _ => exact h
  | lock _ => exact hloop s h
  | resume _ _ =>
    rcases awaitBuffer_walker s with hw | hw
    · exact hw.symm.trans h
    · exact woke_ne_asleep (hw.symm.trans h)
  | broken _ _ => exact h
  | wrote wsize _ _ =>
    unfold wrote at h
    simp only [signalWalker_eq] at h
    split_ifs at h
    · exact h
    · exact woke_ne_asleep (hloop _ h)
    · exact woke_ne_asleep (hloop _ h)
  | failed wsize _ _ => exact h

/-- A walker gets lost in no other way. -/
theorem lost_only {e : Event} (hl : ¬ Lost s) (ha : ¬ Abandons c s e) (hw : e.wakes = false)
    (hs : step c s e = some s') : ¬ Lost s' := by
  rintro ⟨he, k, hk⟩
  cases e with
  | wakeWalker => cases hw
  | wakeWriter => cases hw
  | walker err =>
    have hawait : ∀ t : State, ∀ k', awaitSide t k' = s' → False := by
      intro t k' ht
      rw [awaiting_eq] at ht
      rw [← ht] at hk he
      by_cases hgo : t.error = 0 ∧ t.used = 2
      · exact he hgo.1
      · change (if t.error = 0 ∧ t.used = 2 then Walker.waiting k' else .leaving k') = _ at hk
        rw [if_neg hgo] at hk
        cases hk
    cases hmove : walkerStep_some hs with
    | finish _ => cases hk
    | put p ps hp =>
      unfold compactingPutBytes at hk
      simp only at hk
      split_ifs at hk
    | flush _ _ _ => cases hk
    | eof _ _ _ => cases hk
    | toggle k' _ _ => exact hawait _ k' rfl
    | resume k' _ _ => exact hawait _ k' rfl
    | leave k' _ =>
      change toggled s k' = _ at hk
      cases k' with
      | put ps =>
        unfold toggled at hk
        simp only at hk
        split_ifs at hk
      | flush rc => cases hk
      | eof rc => cases hk
    | join rc _ _ => cases hk
  | writer err n =>
    have hmove := writerStep_some hs
    have hbefore := writer_asleep hmove hk
    have hzero : s.error = 0 := by
      by_contra hne
      exact hl ⟨hne, k, hbefore⟩
    have hfine : ¬ Fails c s (.writer err n) := fun hf => ha ⟨⟨k, hbefore⟩, ⟨s', hs⟩, hf⟩
    cases hmove with
    | start hr =>
      exact hfine (Or.inl ⟨by rw [hr]; exact Writer.noConfusion, he⟩)
    | lock _ => exact he ((writeLoop_error s).trans hzero)
    | resume _ _ => exact he ((awaitBuffer_error s).trans hzero)
    | broken hr herr => exact hfine (Or.inl ⟨by rw [hr]; exact Writer.noConfusion, herr⟩)
    | wrote wsize hr _ =>
      by_cases hover : c.writeWithOffset = true ∧ uint64Max - s.writeOffset < wsize
      · exact hfine (Or.inr ⟨wsize, hr, hover⟩)
      · have herror : (wrote c s wsize).error = s.error := by
          unfold wrote
          simp only [signalWalker_eq]
          split_ifs with h1 h2
          · exact absurd ⟨h1, h2⟩ hover
          · exact writeLoop_error _
          · exact writeLoop_error _
        exact he (herror.trans hzero)
    | failed _ hr herr => exact hfine (Or.inl ⟨by rw [hr]; exact Writer.noConfusion, herr⟩)

/-! ## 6. Whole runs -/

/-- The threads never touch the same buffer at the same time. -/
theorem buffers_apart (h : Run c ps metaBytes f₀ es s) : Apart c s := by
  obtain ⟨sent, hi⟩ := h.inv
  exact hi.apart

theorem buffers_apart_pipe : ∃ s : State, s.walker = .returned 0 ∧ Apart pipeConf s := by
  obtain ⟨s, h, hrc, -⟩ := pipe_run
  exact ⟨s, hrc, buffers_apart h⟩

theorem start_not_lost (c : Conf) (ps : List Put) (metaBytes : Nat) (f₀ : List UInt8) :
    ¬ Lost (start c ps metaBytes f₀) := fun hl => hl.1 rfl

-- lost once, lost for good
theorem exec_lost {t : State} (hc : c.Ok) (hbase : c.writeWithOffset = true → metaBytes ≤ f₀.length)
    (hi : ∃ sent, Inv c all f₀ metaBytes sent t) (hl : Lost t)
    (hok : Steps.Along (step c) Prompt t es) (hw : ∀ e ∈ es, e.wakes = false)
    (h : Steps.exec (step c) t es = some s) : Lost s := by
  have hboth := hok.and (Steps.Along.of_mem hw)
  have hstep : ∀ (u : State) (e : Event) (v : State),
      (∃ sent, Inv c all f₀ metaBytes sent u) ∧ Lost u → Prompt u e ∧ e.wakes = false →
      step c u e = some v → (∃ sent, Inv c all f₀ metaBytes sent v) ∧ Lost v := by
    intro u e v hu hp hs
    obtain ⟨sent, hu'⟩ := hu.1
    exact ⟨step_inv hc hbase hu.1 hp.1 hs, hu.2.step hu' hp.2 hs⟩
  exact (Steps.exec_inv hstep ⟨hi, hl⟩ hboth h).2

/-- A copy in which nobody wakes without a reason returns unless the writer has failed while the
walker was asleep, and never returns when it has. -/
theorem returns_iff (h : Run c ps metaBytes f₀ es s) (hw : ∀ e ∈ es, e.wakes = false)
    (hstuck : Stuck c s) : (∃ rc, s.walker = .returned rc) ↔
      Steps.Along (step c) (fun t e => ¬ Abandons c t e) (start c ps metaBytes f₀) es := by
  obtain ⟨sent, hi⟩ := h.inv
  constructor
  · rintro ⟨rc, hrc⟩
    by_contra hno
    obtain ⟨es₁, e, es₂, t, rfl, ht, ha⟩ := Steps.exec_not_along h.exec hno
    have ha : Abandons c t e := not_not.mp ha
    have hexec := h.exec
    rw [Steps.exec_append, ht] at hexec
    obtain ⟨u, hu, hrest⟩ := Steps.exec_cons hexec
    obtain ⟨hok₁, hok₂⟩ := h.prompt.append ht
    have hit := Steps.exec_inv
      (fun _ _ _ hi hp hs => step_inv h.conf h.stub hi hp hs)
      ⟨[], start_inv h.puts⟩ hok₁ ht
    have hiu := step_inv h.conf h.stub hit hok₂.1 hu
    have hlost := exec_lost h.conf h.stub hiu (ha.lost hu) (hok₂.2 u hu)
      (fun e' he' => hw e' (List.mem_append_right _ (List.mem_cons_of_mem _ he'))) hrest
    obtain ⟨-, k, hk⟩ := hlost
    rw [hk] at hrc
    cases hrc
  · intro hfine
    have hboth := hfine.and (Steps.Along.of_mem hw)
    have hfound : ¬ Lost s := Steps.exec_inv (fun _ _ _ hl hp hs => lost_only hl hp.1 hp.2 hs)
      (start_not_lost c ps metaBytes f₀) hboth h.exec
    rcases (hi.stuck hstuck).2 with hret | hlost
    · exact hret
    · exact absurd hlost hfound

theorem pipe_awake : ∀ e ∈ pipeEvents, e.wakes = false := by decide

theorem returned_stuck {s : State} {rc : Int} (hrc : s.walker = .returned rc)
    (hw : s.writer = .exited) : Stuck c s := by
  refine ⟨fun err => ?_, fun err n => ?_⟩
  · unfold walkerStep
    rw [hrc]
  · unfold writerStep
    rw [hw]

theorem returns_iff_pipe : Steps.Along (step pipeConf) (fun t e => ¬ Abandons pipeConf t e)
    (start pipeConf (putPages 32 [onePage] numMetas) (numMetas * 32) (List.replicate 96 0))
    pipeEvents := by
  obtain ⟨s, h, hrc, hw⟩ := pipe_run
  exact (returns_iff h pipe_awake (returned_stuck hrc hw)).mp ⟨0, hrc⟩

end Mdbx.Copy
