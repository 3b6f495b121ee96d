import Mdbx.Copy.Handover

/-!
# Copy.Safe — what is in the destination, over every interleaving of the two threads

Unless the writer's thread starts so late that it clears an error, the destination holds a beginning
of the copy at any time, and all of it when the copy succeeds.
-/

namespace Mdbx.Copy

variable {c : Conf} {all f₀ sent : List UInt8} {metaBytes : Nat} {s s' : State}

/-! ## 1. Moves -/

/-- What a step of the walker can be. -/
inductive WalkerMove (c : Conf) (s : State) (err : Int) : State → Prop where
  | finish (hw : s.walker = .putting []) :
      WalkerMove c s err { s with walker := .walked c.walkRc }
  | put (p : Put) (ps : List Put) (hw : s.walker = .putting (p :: ps)) :
      WalkerMove c s err (compactingPutBytes c s p ps)
  | flush (rc : Int) (hw : s.walker = .walked rc) (hlen : s.writeLen s.side ≠ 0) :
      WalkerMove c s err { s with walker := .toggling (.flush rc) }
  | eof (rc : Int) (hw : s.walker = .walked rc) (hlen : s.writeLen s.side = 0) :
      WalkerMove c s err { s with walker := .toggling (.eof rc) }
  | toggle (k : Caller) (hw : s.walker = .toggling k) (hfree : s.writer.sending = false) :
      WalkerMove c s err (compactingToggleWriteBuffers s k)
  | resume (k : Caller) (hw : s.walker = .woken k) (hfree : s.writer.sending = false) :
      WalkerMove c s err (awaitSide (if err = 0 then s else { s with error := err }) k)
  | leave (k : Caller) (hw : s.walker = .leaving k) :
      WalkerMove c s err { s with walker := toggled s k }
  | join (rc : Int) (hw : s.walker = .joining rc) (hx : s.writer = .exited) :
      WalkerMove c s err { s with walker := .returned (result s err rc) }

theorem mutexFree_iff (s : State) : mutexFree s ↔ s.writer.sending = false := by
  unfold mutexFree
  cases s.writer with
  | writing n => exact iff_of_false id (fun h => Bool.noConfusion h)
  | starting | locking | waiting | woken | exited => exact iff_of_true trivial rfl

theorem walkerStep_some {c : Conf} {s s' : State} {err : Int}
    (hs : walkerStep c s err = some s') : WalkerMove c s err s' := by
  unfold walkerStep at hs
  split at hs
  · next hw =>
    cases hs
    exact .finish hw
  · next p ps hw =>
    cases hs
    exact .put p ps hw
  · next rc hw =>
    by_cases hlen : s.writeLen s.side = 0
    · rw [if_neg (not_not.mpr hlen)] at hs
      cases hs
      exact .eof rc hw hlen
    · rw [if_pos hlen] at hs
      cases hs
      exact .flush rc hw hlen
  · next k hw =>
    split_ifs at hs with hfree
    cases hs
    exact .toggle k hw ((mutexFree_iff s).mp hfree)
  · cases hs
  · next k hw =>
    split_ifs at hs with hfree herr
    · cases hs
      have hmove : WalkerMove c s err _ := .resume k hw ((mutexFree_iff s).mp hfree)
      rw [if_pos herr] at hmove
      exact hmove
    · cases hs
      have hmove : WalkerMove c s err _ := .resume k hw ((mutexFree_iff s).mp hfree)
      rw [if_neg herr] at hmove
      exact hmove
  · next k hw =>
    cases hs
    exact .leave k hw
  · next rc hw =>
    split_ifs at hs with hx
    cases hs
    exact .join rc hw hx
  · cases hs

/-- What a step of the writer can be. -/
inductive WriterMove (c : Conf) (s : State) (err : Int) (n : Nat) : State → Prop where
  | start (hw : s.writer = .starting) :
      WriterMove c s err n { s with error := err, writer := .locking }
  | lock (hw : s.writer = .locking) : WriterMove c s err n (writeLoop s)
  | resume (hw : s.writer = .woken) (herr : err = 0) : WriterMove c s err n (awaitBuffer s)
  | broken (hw : s.writer = .woken) (herr : err ≠ 0) :
      WriterMove c s err n { s with error := err, writer := .exited }
  | wrote (wsize : Nat) (hw : s.writer = .writing wsize) (herr : err = 0) :
      WriterMove c s err n (wrote c s wsize)
  | failed (wsize : Nat) (hw : s.writer = .writing wsize) (herr : err ≠ 0) :
      WriterMove c s err n { s with
        file := send c s (((s.writeBuf s.toggle).take wsize).take n)
        error := err
        writer := .exited }

theorem writerStep_some {c : Conf} {s s' : State} {err : Int} {n : Nat}
    (hs : writerStep c s err n = some s') : WriterMove c s err n s' := by
  unfold writerStep at hs
  split at hs
  · next hw =>
    cases hs
    exact .start hw
  · next hw =>
    cases hs
    exact .lock hw
  · cases hs
  · next hw =>
    split_ifs at hs with herr
    · cases hs
      exact .resume hw herr
    · cases hs
      exact .broken hw herr
  · next wsize hw =>
    split_ifs at hs with herr
    · cases hs
      exact .wrote wsize hw herr
    · cases hs
      exact .failed wsize hw herr
  · cases hs

/-! ## 2. Signals -/

def Walker.woke : Walker → Walker
  | .waiting k => .woken k
  | w => w

def Writer.woke : Writer → Writer
  | .waiting => .woken
  | wr => wr

theorem signalWalker_eq (s : State) : signalWalker s = { s with walker := s.walker.woke } := by
  obtain ⟨head, tail, buf, len, error, offset, walker, writer, file⟩ := s
  cases walker <;> rfl

theorem signalWriter_eq (s : State) : signalWriter s = { s with writer := s.writer.woke } := by
  obtain ⟨head, tail, buf, len, error, offset, walker, writer, file⟩ := s
  cases writer <;> rfl

@[simp] theorem woke_puts (w : Walker) : w.woke.puts = w.puts := by cases w <;> rfl

@[simp] theorem woke_ended (w : Walker) : w.woke.ended = w.ended := by cases w <;> rfl

@[simp] theorem woke_blank (w : Walker) : w.woke.blank = w.blank := by cases w <;> rfl

@[simp] theorem woke_held (w : Walker) : w.woke.held = w.held := by cases w <;> rfl

@[simp] theorem woke_asleep (w : Walker) : w.woke.asleep = false := by cases w <;> rfl

theorem woke_of_not_held {w : Walker} (h : w.held = false) : w.woke = w := by
  cases w with
  | waiting k => cases h
  | putting ps | walked rc | toggling k | woken k | leaving k | joining rc | returned rc => rfl

theorem woke_sending (wr : Writer) : wr.woke.sending = wr.sending := by cases wr <;> rfl

theorem woke_cases (wr : Writer) : wr.woke = wr ∨ wr = .waiting ∧ wr.woke = .woken := by
  cases wr with
  | waiting => exact Or.inr ⟨rfl, rfl⟩
  | starting | locking | woken | writing n | exited => exact Or.inl rfl

theorem woke_ne_waiting (wr : Writer) : wr.woke ≠ .waiting := by
  cases wr <;> exact Writer.noConfusion

/-! ## 3. Steps of the walker -/

-- nothing but the walker changes
theorem Inv.goto (h : Inv c all f₀ metaBytes sent s) (w : Walker)
    (hputs : ∀ p ∈ w.puts, p.Ok)
    (hquiet : s.error = 0 → Quiet c all metaBytes sent { s with walker := w })
    (hnoticed : s.error ≠ 0 → s.writer = .exited ∨ s.writer = .locking ∨
      w.held = false ∧ ∀ ps, w ≠ .putting ps ∧ w ≠ .toggling (.put ps))
    (hended : s.writer = .waiting → w.ended = false) :
    Inv c all f₀ metaBytes sent { s with walker := w } where
  counters := ⟨h.counters.head, h.counters.tail⟩
  buffers := ⟨h.buffers.length, h.buffers.le⟩
  puts := hputs
  file := h.file
  part := h.part
  quiet := hquiet
  noticed := hnoticed
  dozing := fun hd => ⟨(h.dozing hd).1, hended hd⟩
  busy := h.busy

theorem awaiting_eq (s : State) (k : Caller) : awaitSide s k =
    { s with walker := if s.error = 0 ∧ s.used = 2 then .waiting k else .leaving k } := by
  unfold awaitSide
  split_ifs <;> rfl

/-- The walker enters `compacting_toggle_write_buffers`. -/
theorem Inv.toggle (h : Inv c all f₀ metaBytes sent s) {k : Caller}
    (hk : s.walker = .toggling k) :
    Inv c all f₀ metaBytes sent (compactingToggleWriteBuffers s k) := by
  have heq : compactingToggleWriteBuffers s k = s.handed s.writer.woke
      (if s.error = 0 ∧ s.ahead.used = 2 then .waiting k else .leaving k) := by
    unfold compactingToggleWriteBuffers
    rw [signalWriter_eq, awaiting_eq]
    rfl
  rw [heq]
  have hputs : (if s.error = 0 ∧ s.ahead.used = 2 then Walker.waiting k
      else .leaving k).puts = k.puts := by split_ifs <;> rfl
  exact {
    counters := ⟨h.counters.ahead.head, h.counters.ahead.tail⟩
    buffers := ⟨h.buffers.length, h.buffers.le⟩
    puts := fun p hp => by
      change p ∈ (if s.error = 0 ∧ s.ahead.used = 2 then Walker.waiting k else .leaving k).puts at hp
      rw [hputs] at hp
      exact h.puts p (by rw [hk]; exact hp)
    file := h.file
    part := h.part
    quiet := fun he => by
      have hq := h.quiet he
      have hle := hq.used_le_one (by rw [hk]; rfl)
      have hused : s.ahead.used = s.used + 1 := by
        rw [h.counters.ahead_used]
        exact Nat.mod_eq_of_lt (by omega)
      refine hq.handover h.counters hk ?_ hputs ?_ ?_ ?_ ?_
      · exact woke_cases s.writer
      · split_ifs <;> rfl
      · intro h1
        rw [if_pos ⟨he, by omega⟩]
        rfl
      · intro ha
        by_contra hne
        rw [if_neg (by omega)] at ha
        cases ha
      · intro k'
        split_ifs <;> exact Walker.noConfusion
    noticed := fun he => by
      have he' : s.error ≠ 0 := he
      change _ ∨ _ ∨ (if s.error = 0 ∧ s.ahead.used = 2 then Walker.waiting k
        else .leaving k).held = false ∧ _
      rw [if_neg fun hc => he' hc.1]
      exact Or.inr (Or.inr ⟨rfl, fun ps => ⟨Walker.noConfusion, Walker.noConfusion⟩⟩)
    dozing := fun hd => absurd hd (woke_ne_waiting s.writer)
    busy := fun hb => h.busy ((woke_sending s.writer).symm.trans hb) }

/-- The walker has the mutex again behind its wait. -/
theorem Inv.resume (h : Inv c all f₀ metaBytes sent s) {k : Caller} (hk : s.walker = .woken k)
    (hfree : s.writer.sending = false) (err : Int) :
    Inv c all f₀ metaBytes sent (awaitSide (if err = 0 then s else { s with error := err }) k) := by
  have hputs : ∀ p ∈ k.puts, p.Ok := fun p hp => h.puts p (by rw [hk]; exact hp)
  have hend : s.writer = .waiting → k.isEof = false := by
    intro hd
    have he := (h.dozing hd).2
    rw [hk] at he
    exact he
  by_cases herr : err = 0
  · rw [if_pos herr, awaiting_eq]
    by_cases hw : s.error = 0 ∧ s.used = 2
    · rw [if_pos hw]
      refine h.goto _ hputs (fun he => ?_) (fun he => absurd hw.1 he) hend
      have hq := h.quiet he
      refine hq.goto _ (fun _ => rfl) (fun _ => hw.2) (by rw [hk]; rfl) (fun hb hu => ?_)
        (fun k' hk' => Walker.noConfusion hk') (by rw [hk]; rfl)
      omega
    · rw [if_neg hw]
      refine h.goto _ hputs (fun he => ?_) (fun he => ?_) hend
      · have hq := h.quiet he
        refine hq.goto _ (fun hu => absurd ⟨he, hu⟩ hw) (fun ha => absurd ha Bool.false_ne_true)
          (by rw [hk]; rfl) (fun hb hu => hq.blank (by rw [hk]; rfl) hu)
          (fun k' hk' => Walker.noConfusion hk') (by rw [hk]; rfl)
      · exact Or.inr (Or.inr ⟨rfl, fun ps => ⟨Walker.noConfusion, Walker.noConfusion⟩⟩)
  · rw [if_neg herr, awaiting_eq, if_neg fun hc => herr hc.1]
    exact {
      counters := ⟨h.counters.head, h.counters.tail⟩
      buffers := ⟨h.buffers.length, h.buffers.le⟩
      puts := hputs
      file := h.file
      part := h.part
      quiet := fun he => absurd he herr
      noticed := fun _ =>
        Or.inr (Or.inr ⟨rfl, fun ps => ⟨Walker.noConfusion, Walker.noConfusion⟩⟩)
      dozing := fun hd => ⟨(h.dozing hd).1, hend hd⟩
      busy := fun hb => absurd (hfree.symm.trans hb) Bool.false_ne_true }

/-- The walker has read `ctx->error` behind the unlock. -/
theorem Inv.leave (h : Inv c all f₀ metaBytes sent s) {k : Caller} (hk : s.walker = .leaving k) :
    Inv c all f₀ metaBytes sent { s with walker := toggled s k } := by
  have hend : s.writer = .waiting → k.isEof = false := by
    intro hd
    have he := (h.dozing hd).2
    rw [hk] at he
    exact he
  have hputs : ∀ p ∈ k.puts, p.Ok := fun p hp => h.puts p (by rw [hk]; exact hp)
  have hle : s.error = 0 → s.used ≤ 1 := fun he =>
    (h.quiet he).used_le_one (by rw [hk]; rfl)
  have hblank : s.error = 0 → s.writeLen s.side = 0 := fun he =>
    (h.quiet he).blank (by rw [hk]; rfl) (hle he)
  have hfull : ∀ {w : Walker}, s.error = 0 → s.used = 2 → w.held = true := by
    intro w he hu
    have h1 := hle he
    omega
  cases k with
  | put ps =>
    by_cases he : s.error = 0
    · have ht : toggled s (.put ps) = .putting ps := if_pos he
      rw [ht]
      refine h.goto _ hputs (fun _ => ?_) (fun hne => absurd he hne) (fun _ => rfl)
      exact (h.quiet he).goto _ (hfull he) (fun ha => absurd ha Bool.false_ne_true)
        (by rw [hk]; rfl) (fun hb => absurd hb Bool.false_ne_true)
        (fun k' hk' => Walker.noConfusion hk') (by rw [hk]; rfl)
    · have ht : toggled s (.put ps) = .walked s.error := if_neg he
      rw [ht]
      refine h.goto _ (fun p hp => absurd hp (List.not_mem_nil)) (fun h0 => absurd h0 he)
        (fun _ => ?_) (fun _ => rfl)
      exact Or.inr (Or.inr ⟨rfl, fun qs => ⟨Walker.noConfusion, Walker.noConfusion⟩⟩)
  | flush rc =>
    refine h.goto _ (fun p hp => absurd hp (List.not_mem_nil)) (fun he => ?_) (fun _ => ?_)
      (fun _ => rfl)
    · exact (h.quiet he).goto _ (hfull he) (fun ha => absurd ha Bool.false_ne_true)
        (by rw [hk]; rfl) (fun _ _ => hblank he)
        (fun k' hk' heof => by cases hk'; cases heof) (by rw [hk]; rfl)
    · exact Or.inr (Or.inr ⟨rfl, fun qs => ⟨Walker.noConfusion, fun he => by cases he⟩⟩)
  | eof rc =>
    refine h.goto _ (fun p hp => absurd hp (List.not_mem_nil)) (fun he => ?_) (fun _ => ?_)
      (fun hd => absurd (hend hd) (fun h1 => by cases h1))
    · exact (h.quiet he).goto _ (hfull he) (fun ha => absurd ha Bool.false_ne_true)
        (by rw [hk]; rfl) (fun _ _ => hblank he)
        (fun k' hk' => Walker.noConfusion hk') (by rw [hk]; rfl)
    · exact Or.inr (Or.inr ⟨rfl, fun qs => ⟨Walker.noConfusion, Walker.noConfusion⟩⟩)

theorem images_cons (txnid : Nat) (p : Put) (ps : List Put) :
    images txnid (p :: ps) = p.image txnid ++ images txnid ps := List.flatMap_cons

theorem Inv.put (h : Inv c all f₀ metaBytes sent s) (hc : c.Ok) {p : Put} {ps : List Put}
    (hw : s.walker = .putting (p :: ps)) :
    Inv c all f₀ metaBytes sent (compactingPutBytes c s p ps) := by
  have hputs : ∀ q ∈ p :: ps, q.Ok := fun q hq => h.puts q (by rw [hw]; exact hq)
  have hp := hputs p List.mem_cons_self
  have hps : ∀ q ∈ ps, q.Ok := fun q hq => hputs q (List.mem_cons_of_mem p hq)
  have hnoticed : s.error ≠ 0 → s.writer = .exited ∨ s.writer = .locking := by
    intro he
    rcases h.noticed he with hx | hl | haside
    · exact Or.inl hx
    · exact Or.inr hl
    · exact absurd hw (haside.2 (p :: ps)).1
  have hexcuse : ∀ {A : Prop}, s.error ≠ 0 → s.writer = .exited ∨ s.writer = .locking ∨ A :=
    fun he => (hnoticed he).imp_right Or.inl
  have hle : s.error = 0 → s.used ≤ 1 := fun he =>
    (h.quiet he).used_le_one (by rw [hw]; rfl)
  have hfull : ∀ {w : Walker}, s.error = 0 → s.used = 2 → w.held = true := by
    intro w he hu
    have h1 := hle he
    omega
  have hlen := h.buffers.le s.side
  have hmin := hc.least
  unfold compactingPutBytes
  by_cases h0 : p.bytes = 0
  · rw [if_pos h0]
    refine h.goto _ hps (fun he => ?_) hexcuse (fun _ => rfl)
    refine (h.quiet he).goto _ (hfull he) (fun ha => absurd ha Bool.false_ne_true) ?_
      (fun hb => absurd hb Bool.false_ne_true) (fun k' hk' => Walker.noConfusion hk')
      (by rw [hw]; rfl)
    rw [hw]
    change images c.txnid ps = images c.txnid (p :: ps)
    rw [images_cons, Put.image_nil hp h0, List.nil_append]
  · rw [if_neg h0]
    simp only
    by_cases hroom : c.writeBufSize - s.writeLen s.side < (if p.pgno ≠ 0 then pageHdrSz else 1)
    · rw [if_pos hroom]
      have hne : s.writeLen s.side ≠ 0 := by
        unfold pageHdrSz at hroom
        split_ifs at hroom <;> omega
      refine h.goto _ hputs (fun he => ?_) hexcuse (fun _ => rfl)
      exact (h.quiet he).goto _ (hfull he) (fun ha => absurd ha Bool.false_ne_true)
        (by rw [hw]; rfl) (fun hb => absurd hb Bool.false_ne_true) (fun _ _ _ => hne)
        (by rw [hw]; rfl)
    · rw [if_neg hroom]
      generalize hn : (if p.bytes < c.writeBufSize - s.writeLen s.side then p.bytes
        else c.writeBufSize - s.writeLen s.side) = n
      have hnle : n ≤ p.bytes ∧ n ≤ c.writeBufSize - s.writeLen s.side := by
        rw [← hn]
        split_ifs <;> omega
      have hhead : p.pgno ≠ 0 → pageHdrSz ≤ n := by
        intro hpgno
        rw [if_pos hpgno] at hroom
        have hbig := (hp.header hpgno).2
        rw [← hn]
        split_ifs <;> omega
      have hchunk : (p.chunk c.txnid n).length = n := Put.length_chunk hp hnle.1 hhead
      have heq : ({ s with
          writeBuf := Function.update s.writeBuf s.side
            (poke (s.writeBuf s.side) (s.writeLen s.side) (p.chunk c.txnid n))
          writeLen := Function.update s.writeLen s.side (s.writeLen s.side + n)
          walker := .putting (p.advance n :: ps) } : State) =
          s.filled (p.chunk c.txnid n) (.putting (p.advance n :: ps)) := by
        unfold State.filled
        rw [hchunk]
      rw [heq]
      exact {
        counters := ⟨h.counters.head, h.counters.tail⟩
        buffers := h.buffers.filled _ (by omega)
        puts := fun q hq => by
          rcases List.mem_cons.mp hq with rfl | hq
          · exact hp.advance n
          · exact hps q hq
        file := h.file
        part := h.part
        quiet := fun he => (h.quiet he).fill h.counters h.buffers hw (by
          rw [images_cons, images_cons, Put.image_advance hp hnle.1 hhead, List.append_assoc])
        noticed := hexcuse
        dozing := fun hd => ⟨(h.dozing hd).1, rfl⟩
        busy := h.busy }

theorem walkerStep_inv (h : Inv c all f₀ metaBytes sent s) (hc : c.Ok) {err : Int}
    (hs : walkerStep c s err = some s') : Inv c all f₀ metaBytes sent s' := by
  have hfull : ∀ {w : Walker}, s.walker.held = false → s.error = 0 → s.used = 2 →
      w.held = true := by
    intro w hw he hu
    have h1 := (h.quiet he).used_le_one hw
    omega
  -- behind the walk there is nothing left to put
  have htoggle : ∀ rc k, s.walker = .walked rc → k.puts = [] →
      (k.isEof = true ↔ s.writeLen s.side = 0) → (∀ ps, k ≠ .put ps) →
      Inv c all f₀ metaBytes sent { s with walker := .toggling k } := by
    intro rc k hw hk hlen hput
    refine h.goto _ (fun p hp => ?_) (fun he => ?_) (fun _ => ?_) (fun _ => rfl)
    · change p ∈ k.puts at hp
      rw [hk] at hp
      cases hp
    · refine (h.quiet he).goto _ (hfull (by rw [hw]; rfl) he)
        (fun ha => absurd ha Bool.false_ne_true) ?_ (fun hb _ => hlen.mp hb)
        (fun k' hk' hf h0 => ?_) (by rw [hw]; rfl)
      · rw [hw]
        change images c.txnid k.puts = _
        rw [hk]
        rfl
      · cases hk'
        exact absurd (hf.symm.trans (hlen.mpr h0)) Bool.false_ne_true
    · exact Or.inr (Or.inr ⟨rfl, fun ps => ⟨Walker.noConfusion,
        fun he => hput ps (Walker.toggling.inj he)⟩⟩)
  cases walkerStep_some hs with
  | finish hw =>
    refine h.goto _ (fun p hp => absurd hp List.not_mem_nil) (fun he => ?_) (fun _ => ?_)
      (fun _ => rfl)
    · exact (h.quiet he).goto _ (hfull (by rw [hw]; rfl) he)
        (fun ha => absurd ha Bool.false_ne_true) (by rw [hw]; rfl)
        (fun hb => absurd hb Bool.false_ne_true) (fun k' hk' => Walker.noConfusion hk')
        (by rw [hw]; rfl)
    · exact Or.inr (Or.inr ⟨rfl, fun ps => ⟨Walker.noConfusion, Walker.noConfusion⟩⟩)
  | put p ps hw => exact h.put hc hw
  | flush rc hw hlen =>
    exact htoggle rc (.flush rc) hw rfl (iff_of_false Bool.false_ne_true hlen)
      (fun ps => Caller.noConfusion)
  | eof rc hw hlen =>
    exact htoggle rc (.eof rc) hw rfl (iff_of_true rfl hlen) (fun ps => Caller.noConfusion)
  | toggle k hw _ => exact h.toggle hw
  | resume k hw hfree => exact h.resume hw hfree err
  | leave k hw => exact h.leave hw
  | join rc hw hx =>
    refine h.goto _ (fun p hp => absurd hp List.not_mem_nil) (fun he => ?_) (fun _ => Or.inl hx)
      (fun hd => absurd (hd.symm.trans hx) Writer.noConfusion)
    exact (h.quiet he).goto _ (hfull (by rw [hw]; rfl) he)
      (fun ha => absurd ha Bool.false_ne_true) (by rw [hw]; rfl)
      (fun _ hu => (h.quiet he).blank (by rw [hw]; rfl) hu)
      (fun k' hk' => Walker.noConfusion hk') (by rw [hw]; rfl)

/-! ## 4. Steps of the writer -/

theorem writeLoop_writer (s : State) (wr : Writer) :
    writeLoop { s with writer := wr } = writeLoop s := by
  unfold writeLoop awaitBuffer takeBuffer
  simp only [signalWalker_eq]
  rfl

theorem writeLen_taken (s : State) (side : Nat) :
    Function.update s.writeLen s.toggle 0 side ≤ s.writeLen side := by
  by_cases hs : side = s.toggle
  · rw [hs, Function.update_self]
    exact Nat.zero_le _
  · rw [Function.update_of_ne hs]

/-- The writer looks for the next buffer. -/
theorem Inv.await (h : Inv c all f₀ metaBytes sent s) (hsend : s.writer.sending = false)
    (hx : s.writer ≠ .exited) : Inv c all f₀ metaBytes sent (awaitBuffer s) := by
  have hzero := h.counters.used_eq_zero
  unfold awaitBuffer
  by_cases hw : s.tail = s.head ∧ s.error = 0
  · rw [if_pos hw]
    exact {
      counters := ⟨h.counters.head, h.counters.tail⟩
      buffers := ⟨h.buffers.length, h.buffers.le⟩
      puts := h.puts
      file := h.file
      part := h.part
      quiet := fun he => (h.quiet he).idle hsend hx .waiting rfl Writer.noConfusion
      noticed := fun he => absurd hw.2 he
      dozing := fun _ => by
        refine ⟨hw.1, ?_⟩
        have hiff := (h.quiet hw.2).none (hzero.mpr hw.1)
        exact Bool.eq_false_iff.mpr fun he => hx (hiff.mp he)
      busy := fun hb => absurd hb Bool.false_ne_true }
  · rw [if_neg hw]
    unfold takeBuffer
    by_cases hlen : s.writeLen s.toggle = 0
    · rw [if_pos hlen]
      exact {
        counters := ⟨h.counters.behind.head, h.counters.behind.tail⟩
        buffers := ⟨h.buffers.length, h.buffers.le⟩
        puts := h.puts
        file := h.file
        part := h.part
        quiet := fun he => by
          have he' : s.error = 0 := he
          have hq := h.quiet he'
          have hpos : 0 < s.used := Nat.pos_of_ne_zero fun h0 => hw ⟨hzero.mp h0, he'⟩
          have hfirst := firstLen_of_not_sending hsend
          have hle := hq.used_le
          -- the empty buffer is the last one
          have hone : s.used = 1 := by
            by_contra hne
            exact (hq.two (by omega)).1 (hfirst.trans hlen)
          have hend := (hq.one hone).mp (hfirst.trans hlen)
          have hnil : s.first = [] := by
            unfold State.first
            rw [hfirst, hlen, List.take_zero]
          have hshift := hq.shift h.counters hpos hlen rfl rfl
            (Bool.eq_false_iff.mpr fun ha => by
              have h2 := hq.asleep ha
              omega)
            rfl (fun _ hk => hk) rfl (iff_of_true rfl ⟨hone, hend⟩)
            s.writeOffset (fun hoff => by rw [hnil, List.append_nil]; exact hq.offset hoff) s.file
          rw [hnil, List.append_nil] at hshift
          exact hshift
        noticed := fun _ => Or.inl rfl
        dozing := fun hd => Writer.noConfusion hd
        busy := fun hb => absurd hb Bool.false_ne_true }
    · rw [if_neg hlen]
      by_cases he : s.error = 0
      · rw [if_pos he]
        have hpos : 0 < s.used := Nat.pos_of_ne_zero fun h0 => hw ⟨hzero.mp h0, he⟩
        exact {
          counters := ⟨h.counters.head, h.counters.tail⟩
          buffers := ⟨h.buffers.length,
            fun side => Nat.le_trans (writeLen_taken s side) (h.buffers.le side)⟩
          puts := h.puts
          file := h.file
          part := h.part
          quiet := fun _ => (h.quiet he).take h.counters h.buffers hsend hpos hlen
          noticed := fun hne => absurd he hne
          dozing := fun hd => Writer.noConfusion hd
          busy := fun _ => he }
      · rw [if_neg he, signalWalker_eq]
        exact {
          counters := ⟨h.counters.behind.head, h.counters.behind.tail⟩
          buffers := ⟨h.buffers.length,
            fun side => Nat.le_trans (writeLen_taken s side) (h.buffers.le side)⟩
          puts := fun p hp => h.puts p ((woke_puts s.walker) ▸ hp)
          file := h.file
          part := h.part
          quiet := fun h0 => absurd h0 he
          noticed := fun _ => Or.inl rfl
          dozing := fun hd => Writer.noConfusion hd
          busy := fun hb => absurd hb Bool.false_ne_true }

-- the writer's thread ends with an error
theorem Inv.fail (h : Inv c all f₀ metaBytes sent s) {sent' file : List UInt8} {err : Int}
    (herr : err ≠ 0) (hfile : file = land c f₀ metaBytes sent') (hpart : sent' <+: all) :
    Inv c all f₀ metaBytes sent' { s with file := file, error := err, writer := .exited } where
  counters := ⟨h.counters.head, h.counters.tail⟩
  buffers := ⟨h.buffers.length, h.buffers.le⟩
  puts := h.puts
  file := hfile
  part := hpart
  quiet := fun he => absurd he herr
  noticed := fun _ => Or.inl rfl
  dozing := fun hd => Writer.noConfusion hd
  busy := fun hb => absurd hb Bool.false_ne_true

theorem Inv.writeLoop (h : Inv c all f₀ metaBytes sent s) (hsend : s.writer.sending = false)
    (hx : s.writer ≠ .exited) : Inv c all f₀ metaBytes sent (writeLoop s) := by
  unfold Copy.writeLoop
  by_cases he : s.error = 0
  · rw [if_pos he]
    exact h.await hsend hx
  · rw [if_neg he]
    exact h.fail he h.file h.part

-- the destination after another buffer
theorem send_land (hbase : c.writeWithOffset = true → metaBytes ≤ f₀.length)
    (hfile : s.file = land c f₀ metaBytes sent)
    (hoffset : c.writeWithOffset = true → s.writeOffset = metaBytes + sent.length)
    (bytes : List UInt8) : send c s bytes = land c f₀ metaBytes (sent ++ bytes) := by
  unfold send
  rw [hfile]
  unfold land
  by_cases hw : c.writeWithOffset = true
  · rw [if_pos hw, if_pos hw, if_pos hw, hoffset hw, poke_poke (hbase hw)]
  · rw [if_neg hw, if_neg hw, if_neg hw, List.append_assoc]

-- what is being sent comes next
theorem Quiet.first_part (h : Quiet c all metaBytes sent s) (hpos : 0 < s.used) :
    sent ++ s.first <+: all := by
  have hstream := h.stream
  unfold State.queued at hstream
  rw [if_neg (by omega)] at hstream
  split_ifs at hstream
  · rw [hstream, List.append_assoc]
    exact List.prefix_append _ _
  · rw [hstream, ← List.append_assoc sent, List.append_assoc, List.append_assoc]
    exact List.prefix_append _ _

theorem Inv.wrote (h : Inv c all f₀ metaBytes sent s)
    (hbase : c.writeWithOffset = true → metaBytes ≤ f₀.length) {wsize : Nat}
    (hw : s.writer = .writing wsize) :
    Inv c all f₀ metaBytes (sent ++ s.first) (wrote c s wsize) := by
  have he := h.busy (by rw [hw]; rfl)
  have hq := h.quiet he
  have ht := hq.taken wsize hw
  have hfirst : (s.writeBuf s.toggle).take wsize = s.first := by
    unfold State.first State.firstLen
    rw [hw]
  have hfile := send_land hbase h.file hq.offset s.first
  have hlive : s.walker.woke.asleep = false := woke_asleep s.walker
  -- a buffer that is sent is not the last one
  have hmore : s.used = 1 → s.walker.ended = false := by
    intro h1
    have hone := hq.one h1
    unfold State.firstLen at hone
    rw [hw] at hone
    exact Bool.eq_false_iff.mpr fun hend => Nat.ne_of_gt ht.2.1 (hone.mpr hend)
  have hdone : ∀ offset, (c.writeWithOffset = true →
      offset = metaBytes + (sent ++ s.first).length) →
      Inv c all f₀ metaBytes (sent ++ s.first) (Copy.writeLoop
        (s.shifted s.walker.woke .locking offset (send c s s.first))) := by
    intro offset hoffset
    refine Inv.writeLoop ?_ rfl Writer.noConfusion
    exact {
      counters := ⟨h.counters.behind.head, h.counters.behind.tail⟩
      buffers := ⟨h.buffers.length, h.buffers.le⟩
      puts := fun p hp => h.puts p ((woke_puts s.walker) ▸ hp)
      file := hfile
      part := hq.first_part ht.1
      quiet := fun _ => hq.shift h.counters ht.1 ht.2.2.2 (woke_puts _) (woke_ended _) hlive
        (woke_blank _)
        (fun k hk => by
          cases hwk : s.walker with
          | toggling k' =>
            rw [hwk] at hk
            exact hk
          | waiting k' | putting ps | walked rc | woken k' | leaving k' | joining rc
          | returned rc =>
            rw [hwk] at hk
            cases hk)
        rfl
        (iff_of_false Writer.noConfusion fun h1 =>
          Bool.false_ne_true ((hmore h1.1).symm.trans h1.2)) _ hoffset _
      noticed := fun hne => absurd he hne
      dozing := fun hd => Writer.noConfusion hd
      busy := fun hb => absurd hb Bool.false_ne_true }
  unfold Copy.wrote
  rw [hfirst]
  simp only [signalWalker_eq]
  by_cases hoff : c.writeWithOffset = true
  · rw [if_pos hoff]
    by_cases hover : uint64Max - s.writeOffset < wsize
    · rw [if_pos hover]
      exact h.fail (by decide) hfile (hq.first_part ht.1)
    · rw [if_neg hover, ← writeLoop_writer _ .locking]
      refine hdone _ fun _ => ?_
      have hlen : s.first.length = wsize := by
        rw [← hfirst, List.length_take, h.buffers.length]
        omega
      rw [hq.offset hoff, List.length_append, hlen, Nat.add_assoc]
  · rw [if_neg hoff, ← writeLoop_writer _ .locking]
    exact hdone _ fun h1 => absurd h1 hoff

theorem writerStep_inv (h : Inv c all f₀ metaBytes sent s)
    (hbase : c.writeWithOffset = true → metaBytes ≤ f₀.length) {err : Int} {n : Nat}
    (hprompt : s.writer = .starting → s.error = 0) (hs : writerStep c s err n = some s') :
    ∃ sent', sent <+: sent' ∧ Inv c all f₀ metaBytes sent' s' := by
  cases writerStep_some hs with
  | start hw =>
    have he := hprompt hw
    refine ⟨sent, List.prefix_rfl, ?_⟩
    exact {
      counters := ⟨h.counters.head, h.counters.tail⟩
      buffers := ⟨h.buffers.length, h.buffers.le⟩
      puts := h.puts
      file := h.file
      part := h.part
      quiet := fun h0 => by
        have h0' : err = 0 := h0
        have hsend : s.writer.sending = false := by rw [hw]; rfl
        have hidle := (h.quiet he).idle hsend (by rw [hw]; exact Writer.noConfusion)
          .locking rfl Writer.noConfusion
        exact ⟨hidle.used_le, hidle.full, hidle.asleep, hidle.offset, hidle.stream, hidle.taken,
          hidle.spare, hidle.blank, hidle.filled, hidle.none, hidle.one, hidle.two, hidle.gone⟩
      noticed := fun _ => Or.inr (Or.inl rfl)
      dozing := fun hd => Writer.noConfusion hd
      busy := fun hb => absurd hb Bool.false_ne_true }
  | lock hw =>
    exact ⟨sent, List.prefix_rfl,
      h.writeLoop (by rw [hw]; rfl) (by rw [hw]; exact Writer.noConfusion)⟩
  | resume hw _ =>
    exact ⟨sent, List.prefix_rfl, h.await (by rw [hw]; rfl) (by rw [hw]; exact Writer.noConfusion)⟩
  | broken hw herr => exact ⟨sent, List.prefix_rfl, h.fail herr h.file h.part⟩
  | wrote wsize hw _ => exact ⟨sent ++ s.first, List.prefix_append _ _, h.wrote hbase hw⟩
  | failed wsize hw herr =>
    have he := h.busy (by rw [hw]; rfl)
    have hq := h.quiet he
    have hfirst : (s.writeBuf s.toggle).take wsize = s.first := by
      unfold State.first State.firstLen
      rw [hw]
    rw [hfirst]
    refine ⟨sent ++ s.first.take n, List.prefix_append _ _,
      h.fail herr (send_land hbase h.file hq.offset _) ?_⟩
    have hpart := hq.first_part (hq.taken wsize hw).1
    have hcut : sent ++ s.first.take n <+: sent ++ s.first :=
      (List.prefix_append_right_inj sent).mpr (List.take_prefix n s.first)
    exact hcut.trans hpart

/-! ## 5. Runs -/

theorem wake_inv (h : Inv c all f₀ metaBytes sent s) :
    Inv c all f₀ metaBytes sent (signalWalker s) := by
  rw [signalWalker_eq]
  refine h.goto _ (fun p hp => h.puts p ((woke_puts s.walker) ▸ hp)) (fun he => ?_) (fun he => ?_)
    (fun hd => (woke_ended s.walker).trans (h.dozing hd).2)
  · have hq := h.quiet he
    refine hq.goto _ (fun hu => (woke_held s.walker).trans (hq.full hu))
      (fun ha => absurd ((woke_asleep s.walker).symm.trans ha) Bool.false_ne_true)
      (by rw [woke_puts]) (fun hb hu => hq.blank ((woke_blank s.walker).symm.trans hb) hu) ?_
      (woke_ended s.walker)
    intro k hk
    refine hq.filled k ?_
    cases hw : s.walker with
    | toggling k' =>
      rw [hw] at hk
      exact hk
    | waiting k' | putting ps | walked rc | woken k' | leaving k' | joining rc | returned rc =>
      rw [hw] at hk
      cases hk
  · rcases h.noticed he with hx | hl | haside
    · exact Or.inl hx
    · exact Or.inr (Or.inl hl)
    · rw [woke_of_not_held haside.1]
      exact Or.inr (Or.inr haside)

theorem wakeWriter_inv (h : Inv c all f₀ metaBytes sent s) :
    Inv c all f₀ metaBytes sent (signalWriter s) := by
  rw [signalWriter_eq]
  rcases woke_cases s.writer with hw | ⟨hw, hwoke⟩
  · rw [hw]
    exact h
  · rw [hwoke]
    have hsend : s.writer.sending = false := by rw [hw]; rfl
    have hx : s.writer ≠ .exited := by
      rw [hw]
      exact Writer.noConfusion
    exact {
      counters := ⟨h.counters.head, h.counters.tail⟩
      buffers := ⟨h.buffers.length, h.buffers.le⟩
      puts := h.puts
      file := h.file
      part := h.part
      quiet := fun he => (h.quiet he).idle hsend hx .woken rfl Writer.noConfusion
      noticed := fun he => by
        rcases h.noticed he with hx' | hl | haside
        · exact absurd hx' hx
        · exact absurd (hw.symm.trans hl) Writer.noConfusion
        · exact Or.inr (Or.inr haside)
      dozing := fun hd => Writer.noConfusion hd
      busy := fun hb => absurd hb Bool.false_ne_true }

theorem step_inv (hc : c.Ok) (hbase : c.writeWithOffset = true → metaBytes ≤ f₀.length)
    {e : Event} (h : ∃ sent, Inv c all f₀ metaBytes sent s) (hp : Prompt s e)
    (hs : step c s e = some s') : ∃ sent, Inv c all f₀ metaBytes sent s' := by
  obtain ⟨sent, h⟩ := h
  cases e with
  | walker err => exact ⟨sent, walkerStep_inv h hc hs⟩
  | writer err n =>
    obtain ⟨sent', -, h'⟩ := writerStep_inv h hbase hp hs
    exact ⟨sent', h'⟩
  | wakeWalker =>
    cases hs
    exact ⟨sent, wake_inv h⟩
  | wakeWriter =>
    cases hs
    exact ⟨sent, wakeWriter_inv h⟩

variable {ps : List Put}

theorem start_counters (c : Conf) (ps : List Put) (metaBytes : Nat) (f₀ : List UInt8) :
    Counters (start c ps metaBytes f₀) where
  head := by
    change 0 < _
    omega
  tail := by
    change 0 < _
    omega

theorem start_used (c : Conf) (ps : List Put) (metaBytes : Nat) (f₀ : List UInt8) :
    (start c ps metaBytes f₀).used = 0 := (start_counters c ps metaBytes f₀).used_eq_zero.mpr rfl

theorem start_quiet (c : Conf) (ps : List Put) (metaBytes : Nat) (f₀ : List UInt8) :
    Quiet c (images c.txnid ps) metaBytes [] (start c ps metaBytes f₀) := by
  have hused := start_used c ps metaBytes f₀
  exact {
    used_le := by omega
    full := fun h => by omega
    asleep := fun h => absurd h Bool.false_ne_true
    offset := fun _ => rfl
    stream := by
      have hqueued : (start c ps metaBytes f₀).queued = [] := if_pos hused
      have hown : (start c ps metaBytes f₀).own = [] := by
        unfold State.own
        rw [if_neg (by omega)]
        exact content_nil rfl
      rw [hqueued, hown]
      rfl
    taken := fun n h => Writer.noConfusion h
    spare := fun _ => rfl
    blank := fun h => absurd h Bool.false_ne_true
    filled := fun k h => Walker.noConfusion h
    none := fun _ => iff_of_false Bool.false_ne_true Writer.noConfusion
    one := fun h => by omega
    two := fun h => by omega
    gone := fun h => Writer.noConfusion h }

theorem start_inv (hps : ∀ p ∈ ps, p.Ok) :
    Inv c (images c.txnid ps) f₀ metaBytes [] (start c ps metaBytes f₀) where
  counters := start_counters c ps metaBytes f₀
  buffers := ⟨fun _ => List.length_replicate, fun _ => Nat.zero_le _⟩
  puts := hps
  file := by
    unfold land poke
    split_ifs
    · rw [List.append_nil, List.length_nil, Nat.add_zero, List.take_append_drop]
      rfl
    · exact (List.append_nil f₀).symm
  part := List.nil_prefix
  quiet := fun _ => start_quiet c ps metaBytes f₀
  noticed := fun h => absurd rfl h
  dozing := fun h => Writer.noConfusion h
  busy := fun h => absurd h Bool.false_ne_true

/-- A run from the start of the copy in which the writer's thread does not clear an error. -/
structure Run (c : Conf) (ps : List Put) (metaBytes : Nat) (f₀ : List UInt8) (es : List Event)
    (s : State) : Prop where
  conf : c.Ok
  puts : ∀ p ∈ ps, p.Ok
  -- the stub of the meta pages was written
  stub : c.writeWithOffset = true → metaBytes ≤ f₀.length
  prompt : Steps.Along (step c) Prompt (start c ps metaBytes f₀) es
  exec : Steps.exec (step c) (start c ps metaBytes f₀) es = some s

variable {es : List Event}

theorem Run.inv (h : Run c ps metaBytes f₀ es s) :
    ∃ sent, Inv c (images c.txnid ps) f₀ metaBytes sent s :=
  Steps.exec_inv (fun _ _ _ hi hp hs => step_inv h.conf h.stub hi hp hs)
    ⟨[], start_inv h.puts⟩ h.prompt h.exec

/-! ### A page through a pipe -/

/-- NUM_METAS. -/
def numMetas : Nat := 3

def onePage : PagePut := ⟨List.replicate 32 1, 32, 0, 1⟩

def pipeConf : Conf := ⟨65536, false, 7, 0⟩

/-- The walker toggles twice before the writer starts, and sleeps. -/
def pipeEvents : List Event :=
  List.replicate 9 (.walker 0) ++ List.replicate 3 (.writer 0 0) ++ List.replicate 3 (.walker 0)

def pipeStart : State := start pipeConf (putPages 32 [onePage] numMetas) (numMetas * 32)
  (List.replicate 96 0)

/-- The result of the copy once it has returned. -/
def State.rc (s : State) : Option Int :=
  match s.walker with
  | .returned rc => some rc
  | _ => none

theorem State.rc_eq_some {s : State} {rc : Int} (h : s.rc = some rc) : s.walker = .returned rc := by
  unfold State.rc at h
  split at h
  next rc' hw =>
    cases h
    exact hw
  next => cases h

theorem onePage_ok : ∀ q ∈ [onePage], q.Ok 32 := by
  intro q hq
  rw [List.mem_singleton.mp hq]
  exact ⟨by decide, by decide, by decide⟩

theorem pipe_run : ∃ s, Run pipeConf (putPages 32 [onePage] numMetas) (numMetas * 32)
    (List.replicate 96 0) pipeEvents s ∧ s.walker = .returned 0 ∧ s.writer = .exited := by
  have hend : (Steps.exec (step pipeConf) pipeStart pipeEvents).any
      (fun s => s.rc == some 0 && s.writer == .exited) = true := by decide +kernel
  have hprompt : Steps.check (step pipeConf)
      (fun s _ => s.writer != .starting || s.error == 0) pipeStart pipeEvents = true := by
    decide +kernel
  obtain ⟨s, hs, hdone⟩ := (Option.any_eq_true _ _).mp hend
  obtain ⟨hrc, hw⟩ := Bool.and_eq_true_iff.mp hdone
  refine ⟨s, ⟨⟨by decide, by decide⟩, ?_, fun h => absurd h Bool.false_ne_true, ?_, hs⟩,
    State.rc_eq_some (beq_iff_eq.mp hrc), beq_iff_eq.mp hw⟩
  · intro p hp
    rw [putPages, putPages, List.append_nil] at hp
    exact (onePage_ok onePage List.mem_cons_self).puts p hp
  · refine Steps.along_of_check (fun t e ht => ?_) hprompt
    cases e with
    | writer err n =>
      intro hw
      rw [hw] at ht
      exact beq_iff_eq.mp ht
    | walker err | wakeWalker | wakeWriter => trivial

/-! ### The destination -/

/-- At any time the destination holds a beginning of the copy and nothing else that is new. -/
theorem copied_part (h : Run c ps metaBytes f₀ es s) :
    ∃ n, s.file = land c f₀ metaBytes ((images c.txnid ps).take n) := by
  obtain ⟨sent, hi⟩ := h.inv
  refine ⟨sent.length, ?_⟩
  rw [← List.prefix_iff_eq_take.mp hi.part]
  exact hi.file

theorem copied_part_pipe : ∃ (s : State) (n : Nat), s.walker = .returned 0 ∧ s.file = land pipeConf
    (List.replicate 96 0) 96 ((images 7 (putPages 32 [onePage] numMetas)).take n) := by
  obtain ⟨s, h, hrc, -⟩ := pipe_run
  obtain ⟨n, hn⟩ := copied_part h
  exact ⟨s, n, hrc, hn⟩

/-- The result is read when the writer's thread is over. -/
structure Settled (s : State) : Prop where
  ended : ∀ rc, s.walker = .returned rc → s.writer = .exited ∧ (rc = 0 → s.error = 0)

theorem awaitSide_walker (s : State) (k : Caller) (rc : Int) :
    (awaitSide s k).walker ≠ .returned rc := by
  rw [awaiting_eq]
  change (if s.error = 0 ∧ s.used = 2 then Walker.waiting k else .leaving k) ≠ _
  split_ifs <;> exact Walker.noConfusion

theorem toggled_ne_returned (s : State) (k : Caller) (rc : Int) : toggled s k ≠ .returned rc := by
  cases k with
  | put ps =>
    unfold toggled
    simp only
    split_ifs <;> exact Walker.noConfusion
  | flush rc' => exact Walker.noConfusion
  | eof rc' => exact Walker.noConfusion

theorem put_walker (c : Conf) (s : State) (p : Put) (ps : List Put) (rc : Int) :
    (compactingPutBytes c s p ps).walker ≠ .returned rc := by
  unfold compactingPutBytes
  simp only
  split_ifs <;> exact Walker.noConfusion

theorem takeBuffer_walker (s : State) :
    (takeBuffer s).walker = s.walker ∨ (takeBuffer s).walker = s.walker.woke := by
  unfold takeBuffer
  simp only [signalWalker_eq]
  split_ifs
  · exact Or.inl rfl
  · exact Or.inl rfl
  · exact Or.inr rfl

theorem awaitBuffer_walker (s : State) :
    (awaitBuffer s).walker = s.walker ∨ (awaitBuffer s).walker = s.walker.woke := by
  unfold awaitBuffer
  split_ifs
  · exact Or.inl rfl
  · exact takeBuffer_walker s

theorem writeLoop_walker (s : State) :
    (writeLoop s).walker = s.walker ∨ (writeLoop s).walker = s.walker.woke := by
  unfold writeLoop
  split_ifs
  · exact awaitBuffer_walker s
  · exact Or.inl rfl

theorem woke_returned {w : Walker} {rc : Int} (h : w.woke = .returned rc) : w = .returned rc := by
  cases w with
  | waiting k => cases h
  | putting ps | walked rc' | toggling k | woken k | leaving k | joining rc' | returned rc' => exact h

theorem writer_walker {err : Int} {n : Nat} (hs : WriterMove c s err n s') {rc : Int}
    (h : s'.walker = .returned rc) : s.walker = .returned rc := by
  have hloop : ∀ t : State, (writeLoop t).walker = .returned rc → t.walker = .returned rc := by
    intro t ht
    rcases writeLoop_walker t with hw | hw
    · exact hw.symm.trans ht
    · exact woke_returned (hw.symm.trans ht)
  cases hs with
  | start _ => exact h
  | lock _ => exact hloop s h
  | resume _ _ =>
    rcases awaitBuffer_walker s with hw | hw
    · exact hw.symm.trans h
    · exact woke_returned (hw.symm.trans h)
  | broken _ _ => exact h
  | wrote wsize _ _ =>
    unfold wrote at h
    simp only [signalWalker_eq] at h
    split_ifs at h
    · exact h
    · exact woke_returned (hloop _ h)
    · exact woke_returned (hloop _ h)
  | failed wsize _ _ => exact h

theorem step_settled {e : Event} (h : Settled s) (hs : step c s e = some s') : Settled s' := by
  refine ⟨fun rc hrc => ?_⟩
  cases e with
  | walker err =>
    cases walkerStep_some hs with
    | finish _ => cases hrc
    | put p ps _ => exact absurd hrc (put_walker c s p ps rc)
    | flush _ _ _ => cases hrc
    | eof _ _ _ => cases hrc
    | toggle k _ _ => exact absurd hrc (awaitSide_walker _ k rc)
    | resume k _ _ => exact absurd hrc (awaitSide_walker _ k rc)
    | leave k _ => exact absurd hrc (toggled_ne_returned s k rc)
    | join rc' _ hx =>
      refine ⟨hx, fun h0 => ?_⟩
      have hres : result s err rc' = 0 := (Walker.returned.inj hrc).trans h0
      unfold result at hres
      split_ifs at hres
      · contradiction
      · contradiction
      · exact hres
  | writer err n =>
    have hmove := writerStep_some hs
    have hx := (h.ended rc (writer_walker hmove hrc)).1
    cases hmove with
    | start hw | lock hw | resume hw _ | broken hw _ | wrote _ hw _ | failed _ hw _ =>
      rw [hx] at hw
      cases hw
  | wakeWalker =>
    cases hs
    rw [signalWalker_eq] at hrc ⊢
    exact h.ended rc (woke_returned hrc)
  | wakeWriter =>
    cases hs
    rw [signalWriter_eq] at hrc ⊢
    have ho := h.ended rc hrc
    refine ⟨?_, ho.2⟩
    change s.writer.woke = .exited
    rw [ho.1]
    rfl

theorem Run.settled (h : Run c ps metaBytes f₀ es s) : Settled s :=
  Steps.exec_inv (fun _ _ _ hi _ hs => step_settled hi hs)
    ⟨fun _ hrc => Walker.noConfusion hrc⟩ h.prompt h.exec

theorem Run.file_whole (h : Run c ps metaBytes f₀ es s) (hrc : s.walker = .returned 0) :
    s.file = land c f₀ metaBytes (images c.txnid ps) := by
  obtain ⟨sent, hi⟩ := h.inv
  obtain ⟨hx, herr⟩ := h.settled.ended 0 hrc
  have hq := hi.quiet (herr rfl)
  have hused := hq.gone hx
  have hown : s.own = [] := by
    unfold State.own
    rw [if_neg (by omega)]
    exact content_nil (hq.blank (by rw [hrc]; rfl) (by omega))
  have hqueued : s.queued = [] := if_pos hused
  have hstream := hq.stream
  rw [hown, hqueued, hrc] at hstream
  have hall : images c.txnid ps = sent := by
    rw [hstream]
    change sent ++ [] ++ [] ++ [] = sent
    simp only [List.append_nil]
  rw [hall]
  exact hi.file

/-- A copy that succeeds is complete. -/
theorem copied_whole (h : Run c ps metaBytes f₀ es s) (hrc : s.walker = .returned 0) :
    s.file = land c f₀ metaBytes (images c.txnid ps) := h.file_whole hrc

theorem copied_whole_pipe : ∃ s : State, s.walker = .returned 0 ∧
    s.file = List.replicate 96 0 ++ images 7 (putPages 32 [onePage] numMetas) := by
  obtain ⟨s, h, hrc, -⟩ := pipe_run
  exact ⟨s, hrc, copied_whole h hrc⟩

/-! ## 6. Pages in the destination -/

theorem land_eq (hpipe : c.writeWithOffset = false → f₀.length = metaBytes) :
    ∃ rest, land c f₀ metaBytes sent = f₀.take metaBytes ++ (sent ++ rest) := by
  unfold land poke
  cases hoff : c.writeWithOffset with
  | true => exact ⟨_, List.append_assoc _ _ _⟩
  | false =>
    refine ⟨[], ?_⟩
    rw [List.append_nil, List.take_of_length_le (Nat.le_of_eq (hpipe hoff))]
    rfl

/-- In a copy that succeeds each page lies where its number says, behind untouched meta pages. -/
theorem copied_pages {pageSize : Nat} {qs : List PagePut}
    (h : Run c (putPages pageSize qs numMetas) (numMetas * pageSize) f₀ es s)
    (hqs : ∀ q ∈ qs, q.Ok pageSize)
    (hpipe : c.writeWithOffset = false → f₀.length = numMetas * pageSize)
    (hrc : s.walker = .returned 0) :
    s.file.take (numMetas * pageSize) = f₀.take (numMetas * pageSize) ∧
      ∀ pre q post, qs = pre ++ q :: post →
        (s.file.drop (pagesEnd numMetas pre * pageSize)).take (q.npages * pageSize) =
          q.image pageSize c.txnid (pagesEnd numMetas pre) := by
  have hle : numMetas * pageSize ≤ f₀.length := by
    cases hoff : c.writeWithOffset with
    | true => exact h.stub hoff
    | false => exact Nat.le_of_eq (hpipe hoff).symm
  have hmetas : (f₀.take (numMetas * pageSize)).length = numMetas * pageSize :=
    List.length_take_of_le hle
  obtain ⟨hlen, hat⟩ := images_putPages c.txnid qs
    (by decide : numMetas ≠ 0) hqs
  obtain ⟨rest, hland⟩ := land_eq hpipe
  rw [h.file_whole hrc, hland]
  refine ⟨List.take_left' hmetas, fun pre q post hq => ?_⟩
  -- the page lies in the copy, and what follows the copy is cut off
  have hpos : pagesEnd numMetas pre * pageSize =
      numMetas * pageSize + (pagesEnd numMetas pre - numMetas) * pageSize := by
    rw [← Nat.add_mul]
    congr 1
    unfold pagesEnd
    omega
  have hroom : (pagesEnd numMetas pre - numMetas) * pageSize + q.npages * pageSize ≤
      (images c.txnid (putPages pageSize qs numMetas)).length := by
    have hsum : pagesEnd numMetas pre + q.npages ≤ pagesEnd numMetas qs := by
      unfold pagesEnd
      rw [hq, List.map_append, List.map_cons, List.sum_append, List.sum_cons]
      omega
    have hmul := Nat.mul_le_mul_right pageSize hsum
    rw [Nat.add_mul] at hmul
    omega
  rw [hpos, ← List.drop_drop]
  have hskip : (f₀.take (numMetas * pageSize) ++
      (images c.txnid (putPages pageSize qs numMetas) ++ rest)).drop (numMetas * pageSize) =
        images c.txnid (putPages pageSize qs numMetas) ++ rest := List.drop_left' hmetas
  rw [hskip, List.drop_append_of_le_length (by omega), List.take_append_of_le_length, hat pre q post hq]
  rw [List.length_drop]
  omega

end Mdbx.Copy
