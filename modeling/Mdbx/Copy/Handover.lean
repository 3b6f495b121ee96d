import Mdbx.Copy.Puts

/-!
# Copy.Handover — the two buffers between the threads

As long as no error is set, the buffers are a queue of at most two: what the writer has sent, what
was handed over to it, what the walker has put since and what it still has to put are together
everything the copy consists of.
-/

namespace Mdbx.Copy

/-! ## 1. Where the threads stand -/

def Caller.puts : Caller → List Put
  | .put ps => ps
  | _ => []

def Caller.isEof : Caller → Bool
  | .eof _ => true
  | _ => false

/-- The calls that the walker still has to make. -/
def Walker.puts : Walker → List Put
  | .putting ps => ps
  | .toggling k | .waiting k | .woken k | .leaving k => k.puts
  | .walked _ | .joining _ | .returned _ => []

/-- The empty buffer that ends the copy was handed over. -/
def Walker.ended : Walker → Bool
  | .waiting k | .woken k | .leaving k => k.isEof
  | .joining _ | .returned _ => true
  | .putting _ | .walked _ | .toggling _ => false

/-- Nothing was put into the walker's side since it got the side. -/
def Walker.blank : Walker → Bool
  | .waiting _ | .woken _ | .leaving _ | .joining _ | .returned _ => true
  | .toggling k => k.isEof
  | .putting _ | .walked _ => false

/-- In the loop of `compacting_toggle_write_buffers`. -/
def Walker.held : Walker → Bool
  | .waiting _ | .woken _ => true
  | _ => false

def Walker.asleep : Walker → Bool
  | .waiting _ => true
  | _ => false

def Writer.sending : Writer → Bool
  | .writing _ => true
  | _ => false

/-! ## 2. The counters -/

structure Counters (s : State) : Prop where
  head : s.head < 4294967296
  tail : s.tail < 4294967296

theorem wrap_lt (n : Nat) : wrap n < 4294967296 := Nat.mod_lt _ (by decide)

variable {s : State}

theorem Counters.used_eq_zero (h : Counters s) : s.used = 0 ↔ s.tail = s.head := by
  have h1 := h.head
  have h2 := h.tail
  unfold State.used wrap
  omega

theorem Counters.side_eq (h : Counters s) : s.side = (s.toggle + s.used) % 2 := by
  have h1 := h.head
  have h2 := h.tail
  unfold State.side State.toggle State.used wrap
  omega

theorem toggle_lt (s : State) : s.toggle < 2 := Nat.mod_lt _ (by decide)

theorem side_lt (s : State) : s.side < 2 := Nat.mod_lt _ (by decide)

/-- The head moves on. -/
def State.ahead (s : State) : State := { s with head := wrap (s.head + 1) }

/-- The tail moves on. -/
def State.behind (s : State) : State := { s with tail := wrap (s.tail + 1) }

theorem Counters.ahead (h : Counters s) : Counters s.ahead := ⟨wrap_lt _, h.tail⟩

theorem Counters.behind (h : Counters s) : Counters s.behind := ⟨h.head, wrap_lt _⟩

theorem Counters.ahead_used (h : Counters s) : s.ahead.used = wrap (s.used + 1) := by
  have h1 := h.head
  have h2 := h.tail
  unfold State.used State.ahead wrap
  simp only
  omega

theorem ahead_side (s : State) : s.ahead.side = 1 - s.side := by
  unfold State.side State.ahead wrap
  simp only
  omega

theorem Counters.behind_used (h : Counters s) (hpos : 0 < s.used) :
    s.behind.used = s.used - 1 := by
  have h1 := h.head
  have h2 := h.tail
  unfold State.used wrap at hpos
  unfold State.used State.behind wrap
  simp only
  omega

theorem behind_toggle (s : State) : s.behind.toggle = 1 - s.toggle := by
  unfold State.toggle State.behind wrap
  simp only
  omega

/-! ## 3. The queue -/

def State.content (s : State) (side : Nat) : List UInt8 := (s.writeBuf side).take (s.writeLen side)

/-- How much of the buffer of `tail` is not sent yet. -/
def State.firstLen (s : State) : Nat :=
  match s.writer with
  | .writing n => n
  | _ => s.writeLen s.toggle

def State.first (s : State) : List UInt8 := (s.writeBuf s.toggle).take s.firstLen

/-- What was handed over to the writer and not sent. -/
def State.queued (s : State) : List UInt8 :=
  if s.used = 0 then [] else if s.used = 1 then s.first else s.first ++ s.content (1 - s.toggle)

/-- What the walker has put into its side. -/
def State.own (s : State) : List UInt8 := if s.used = 2 then [] else s.content s.side

/-- The destination when these bytes have been sent. -/
def land (c : Conf) (f₀ : List UInt8) (metaBytes : Nat) (sent : List UInt8) : List UInt8 :=
  if c.writeWithOffset then poke f₀ metaBytes sent else f₀ ++ sent

structure Quiet (c : Conf) (all : List UInt8) (metaBytes : Nat) (sent : List UInt8) (s : State) :
    Prop where
  used_le : s.used ≤ 2
  full : s.used = 2 → s.walker.held = true
  asleep : s.walker.asleep = true → s.used = 2
  offset : c.writeWithOffset = true → s.writeOffset = metaBytes + sent.length
  stream : all = sent ++ s.queued ++ s.own ++ images c.txnid s.walker.puts
  taken : ∀ n, s.writer = .writing n → 0 < s.used ∧ 0 < n ∧ n ≤ c.writeBufSize ∧
    s.writeLen s.toggle = 0
  -- the side that nobody uses is empty
  spare : s.used = 0 → s.writeLen (1 - s.side) = 0
  blank : s.walker.blank = true → s.used ≤ 1 → s.writeLen s.side = 0
  filled : ∀ k, s.walker = .toggling k → k.isEof = false → s.writeLen s.side ≠ 0
  -- only the last buffer that is handed over is empty
  none : s.used = 0 → (s.walker.ended = true ↔ s.writer = .exited)
  one : s.used = 1 → (s.firstLen = 0 ↔ s.walker.ended = true)
  two : s.used = 2 → s.firstLen ≠ 0 ∧ (s.writeLen (1 - s.toggle) = 0 ↔ s.walker.ended = true)
  gone : s.writer = .exited → s.used = 0

structure Buffers (c : Conf) (s : State) : Prop where
  length : ∀ side, (s.writeBuf side).length = c.writeBufSize
  le : ∀ side, s.writeLen side ≤ c.writeBufSize

structure Inv (c : Conf) (all f₀ : List UInt8) (metaBytes : Nat) (sent : List UInt8) (s : State) :
    Prop where
  counters : Counters s
  buffers : Buffers c s
  puts : ∀ p ∈ s.walker.puts, p.Ok
  file : s.file = land c f₀ metaBytes sent
  part : sent <+: all
  quiet : s.error = 0 → Quiet c all metaBytes sent s
  -- an error is known to the writer, or the walker has left its loop behind
  noticed : s.error ≠ 0 → s.writer = .exited ∨ s.writer = .locking ∨
    s.walker.held = false ∧ ∀ ps, s.walker ≠ .putting ps ∧ s.walker ≠ .toggling (.put ps)
  dozing : s.writer = .waiting → s.tail = s.head ∧ s.walker.ended = false
  -- the mutex is held over the call that writes
  busy : s.writer.sending = true → s.error = 0

/-! ## 4. The walker -/

variable {c : Conf} {all f₀ sent : List UInt8} {metaBytes : Nat}

theorem content_nil {side : Nat} (h : s.writeLen side = 0) : s.content side = [] := by
  unfold State.content
  rw [h, List.take_zero]

theorem firstLen_of_not_sending (h : s.writer.sending = false) :
    s.firstLen = s.writeLen s.toggle := by
  unfold State.firstLen
  cases hw : s.writer with
  | writing n =>
    rw [hw] at h
    cases h
  | starting | locking | waiting | woken | exited => rfl

theorem Quiet.not_sending (h : Quiet c all metaBytes sent s) (h0 : s.used = 0) :
    s.writer.sending = false := by
  cases hw : s.writer with
  | writing n =>
    have hpos := (h.taken n hw).1
    omega
  | starting | locking | waiting | woken | exited => rfl

-- outside of the loop there is room for another buffer
theorem Quiet.used_le_one (h : Quiet c all metaBytes sent s) (hw : s.walker.held = false) :
    s.used ≤ 1 := by
  have h2 := h.used_le
  by_contra hgt
  have hheld := h.full (by omega)
  rw [hw] at hheld
  cases hheld

/-- Only the walker moves. -/
theorem Quiet.goto (h : Quiet c all metaBytes sent s) (w : Walker)
    (hfull : s.used = 2 → w.held = true) (hasleep : w.asleep = true → s.used = 2)
    (hputs : images c.txnid w.puts = images c.txnid s.walker.puts)
    (hblank : w.blank = true → s.used ≤ 1 → s.writeLen s.side = 0)
    (hfilled : ∀ k, w = .toggling k → k.isEof = false → s.writeLen s.side ≠ 0)
    (hended : w.ended = s.walker.ended) :
    Quiet c all metaBytes sent { s with walker := w } where
  used_le := h.used_le
  full := hfull
  asleep := hasleep
  offset := h.offset
  stream := by
    refine h.stream.trans ?_
    rw [← hputs]
    rfl
  taken := h.taken
  spare := h.spare
  blank := hblank
  filled := hfilled
  none := by
    rw [hended]
    exact h.none
  one := by
    rw [hended]
    exact h.one
  two := by
    rw [hended]
    exact h.two
  gone := h.gone

/-- The walker's side is handed over. -/
def State.handed (s : State) (wr : Writer) (w : Walker) : State :=
  { s.ahead with writer := wr, walker := w }

/-- The queue grows by the walker's side, and the walker gets the empty side. -/
theorem Quiet.handed_bytes (h : Quiet c all metaBytes sent s) (hc : Counters s) {wr : Writer}
    {w : Walker} (hle : s.used ≤ 1)
    (hfirst : State.firstLen (s.handed wr w) = s.firstLen) :
    (s.handed wr w).queued ++ (s.handed wr w).own = s.queued ++ s.own := by
  have hused : (s.handed wr w).used = s.used + 1 := by
    change s.ahead.used = _
    rw [hc.ahead_used]
    exact Nat.mod_eq_of_lt (by omega)
  have hside : (s.handed wr w).side = 1 - s.side := ahead_side s
  have hsame := hc.side_eq
  have htl := toggle_lt s
  have hnext : (s.handed wr w).first = s.first := by
    unfold State.first
    rw [hfirst]
    rfl
  unfold State.queued State.own
  rw [hused]
  by_cases h0 : s.used = 0
  · have htog : s.toggle = s.side := by omega
    have hcur : s.first = s.content s.side := by
      unfold State.first State.content
      rw [firstLen_of_not_sending (h.not_sending h0), htog]
    have hspare : (s.handed wr w).content (s.handed wr w).side = [] := by
      rw [hside]
      exact content_nil (h.spare h0)
    rw [if_neg (by omega), if_pos (by omega), if_neg (by omega), if_pos h0, if_neg (by omega),
      hspare, hnext, hcur, List.append_nil, List.nil_append]
  · have htog : 1 - s.toggle = s.side := by omega
    rw [if_neg (by omega), if_neg (by omega), if_pos (by omega), if_neg h0, if_pos (by omega),
      if_neg (by omega), hnext, List.append_nil]
    change s.first ++ s.content (1 - s.toggle) = _
    rw [htog]

theorem Quiet.handover (h : Quiet c all metaBytes sent s) (hc : Counters s) {k : Caller}
    (hk : s.walker = .toggling k) {w : Walker} {wr : Writer}
    (hwr : wr = s.writer ∨ s.writer = .waiting ∧ wr = .woken)
    (hputs : w.puts = k.puts) (hended : w.ended = k.isEof)
    (hheld : s.used = 1 → w.held = true) (hasleep : w.asleep = true → s.used = 1)
    (htog : ∀ k, w ≠ .toggling k) : Quiet c all metaBytes sent (s.handed wr w) := by
  have hle : s.used ≤ 1 := h.used_le_one (by rw [hk]; rfl)
  have hused : (s.handed wr w).used = s.used + 1 := by
    change s.ahead.used = _
    rw [hc.ahead_used]
    exact Nat.mod_eq_of_lt (by omega)
  have hside : (s.handed wr w).side = 1 - s.side := ahead_side s
  have hsame := hc.side_eq
  have htl := toggle_lt s
  have hend : s.walker.ended = false := by rw [hk]; rfl
  have hwr_exit : wr ≠ .exited := by
    rcases hwr with hwr | ⟨-, hwr⟩
    · intro he
      have hex := hwr.symm.trans he
      have hiff := (h.none (h.gone hex)).mpr hex
      rw [hend] at hiff
      cases hiff
    · rw [hwr]
      exact Writer.noConfusion
  have hfirst : (s.handed wr w).firstLen = s.firstLen := by
    unfold State.firstLen State.handed
    rcases hwr with hwr | ⟨hwait, hwr⟩
    · rw [hwr]
      rfl
    · rw [hwr, hwait]
      rfl
  have hbytes := h.handed_bytes hc (w := w) hle hfirst
  -- the side that is handed over is empty in the last call only
  have hlast : s.writeLen s.side = 0 ↔ w.ended = true := by
    rw [hended]
    constructor
    · intro h0
      cases heof : k.isEof with
      | true => rfl
      | false => exact absurd h0 (h.filled k hk heof)
    · intro heof
      exact h.blank (by rw [hk]; exact heof) hle
  exact {
    used_le := by omega
    full := fun hu => hheld (by omega)
    asleep := fun ha => by
      have h1 := hasleep ha
      omega
    offset := h.offset
    stream := by
      have hstream := h.stream
      rw [hk, List.append_assoc sent] at hstream
      rw [List.append_assoc sent, hbytes]
      refine hstream.trans ?_
      change _ = _ ++ images c.txnid w.puts
      rw [hputs]
      rfl
    taken := fun n hn => by
      rcases hwr with hwr | ⟨-, hwr⟩
      · have ht := h.taken n (hwr.symm.trans hn)
        exact ⟨by omega, ht.2⟩
      · rw [show (s.handed wr w).writer = wr from rfl, hwr] at hn
        cases hn
    spare := fun hu => by omega
    blank := fun _ hu => by
      rw [hside]
      exact h.spare (by omega)
    filled := fun k' hk' => absurd hk' (htog k')
    none := fun hu => by omega
    one := fun hu => by
      have h0 : s.used = 0 := by omega
      have htog' : s.toggle = s.side := by omega
      rw [hfirst, firstLen_of_not_sending (h.not_sending h0), htog']
      exact hlast
    two := fun hu => by
      have h1 : s.used = 1 := by omega
      have hone := h.one h1
      rw [hend] at hone
      have htog' : 1 - s.toggle = s.side := by omega
      refine ⟨?_, ?_⟩
      · rw [hfirst]
        intro h0
        exact Bool.false_ne_true (hone.mp h0)
      · change s.writeLen (1 - s.toggle) = 0 ↔ _
        rw [htog']
        exact hlast
    gone := fun he => absurd he hwr_exit }

/-- A chunk goes behind what the walker's side holds. -/
def State.filled (s : State) (bytes : List UInt8) (w : Walker) : State :=
  { s with
    writeBuf := Function.update s.writeBuf s.side
      (poke (s.writeBuf s.side) (s.writeLen s.side) bytes)
    writeLen := Function.update s.writeLen s.side (s.writeLen s.side + bytes.length)
    walker := w }

theorem Buffers.content_filled (h : Buffers c s) {bytes : List UInt8} (w : Walker) :
    (s.filled bytes w).content s.side = s.content s.side ++ bytes := by
  have hlen := h.length s.side
  have hle := h.le s.side
  unfold State.content State.filled
  simp only [Function.update_self]
  unfold poke
  have hhead : ((s.writeBuf s.side).take (s.writeLen s.side) ++ bytes).length =
      s.writeLen s.side + bytes.length := head_length (by omega)
  rw [List.take_append_of_le_length (Nat.le_of_eq hhead.symm),
    List.take_of_length_le (Nat.le_of_eq hhead)]

theorem Buffers.filled (h : Buffers c s) {bytes : List UInt8} (w : Walker)
    (hle : s.writeLen s.side + bytes.length ≤ c.writeBufSize) : Buffers c (s.filled bytes w) where
  length := fun side => by
    by_cases hs : side = s.side
    · rw [hs]
      unfold State.filled
      simp only [Function.update_self]
      rw [length_poke (by rw [h.length]; exact hle), h.length]
    · unfold State.filled
      simp only [Function.update_of_ne hs]
      exact h.length side
  le := fun side => by
    by_cases hs : side = s.side
    · rw [hs]
      unfold State.filled
      simp only [Function.update_self]
      exact hle
    · unfold State.filled
      simp only [Function.update_of_ne hs]
      exact h.le side

/-- A chunk moves from the calls to come into the walker's side, which the writer does not use. -/
theorem Quiet.fill (h : Quiet c all metaBytes sent s) (hc : Counters s) (hb : Buffers c s)
    {ps qs : List Put} (hw : s.walker = .putting ps) {bytes : List UInt8}
    (hmoved : images c.txnid ps = bytes ++ images c.txnid qs) :
    Quiet c all metaBytes sent (s.filled bytes (.putting qs)) := by
  have hle : s.used ≤ 1 := h.used_le_one (by rw [hw]; rfl)
  have hsame := hc.side_eq
  have htl := toggle_lt s
  have hlen : ∀ side, side ≠ s.side → (s.filled bytes (.putting qs)).writeLen side =
      s.writeLen side := by
    intro side hne
    unfold State.filled
    simp only [Function.update_of_ne hne]
  have hfirst : s.used = 1 → (s.filled bytes (.putting qs)).firstLen = s.firstLen := by
    intro h1
    unfold State.firstLen
    change (match s.writer with | .writing n => n | _ => _) = _
    cases s.writer with
    | writing n => rfl
    | starting | locking | waiting | woken | exited => exact hlen s.toggle (by omega)
  have hqueued : (s.filled bytes (.putting qs)).queued = s.queued := by
    unfold State.queued
    change (if s.used = 0 then [] else if s.used = 1 then _ else _) = _
    by_cases h0 : s.used = 0
    · rw [if_pos h0, if_pos h0]
    · have h1 : s.used = 1 := by omega
      rw [if_neg h0, if_pos h1, if_neg h0, if_pos h1]
      unfold State.first
      rw [hfirst h1]
      unfold State.filled
      change (Function.update s.writeBuf s.side _ s.toggle).take _ = _
      rw [Function.update_of_ne (by omega)]
  have hown : (s.filled bytes (.putting qs)).own = s.own ++ bytes := by
    unfold State.own
    change (if s.used = 2 then [] else (s.filled bytes (.putting qs)).content s.side) = _
    rw [if_neg (by omega), if_neg (by omega), hb.content_filled]
  have hend : s.walker.ended = false := by rw [hw]; rfl
  exact {
    used_le := h.used_le
    full := fun hu => by
      change s.used = 2 at hu
      omega
    asleep := fun ha => absurd ha Bool.false_ne_true
    offset := h.offset
    stream := by
      have hstream := h.stream
      rw [hw] at hstream
      rw [hqueued, hown, hstream]
      change _ ++ images c.txnid ps = _ ++ images c.txnid qs
      rw [hmoved, List.append_assoc, List.append_assoc, List.append_assoc, List.append_assoc,
        List.append_assoc]
    taken := fun n hn => by
      have ht := h.taken n hn
      refine ⟨ht.1, ht.2.1, ht.2.2.1, ?_⟩
      have h1 : s.used = 1 := by omega
      exact (hlen s.toggle (by omega)).trans ht.2.2.2
    spare := fun hu => by
      have hsl := side_lt s
      exact (hlen (1 - s.side) (by omega)).trans (h.spare hu)
    blank := fun hbl => absurd hbl Bool.false_ne_true
    filled := fun k hk => Walker.noConfusion hk
    none := fun hu => by
      have hn := h.none hu
      rw [hend] at hn
      exact hn
    one := fun hu => by
      have ho := h.one hu
      rw [hend] at ho
      rw [hfirst hu]
      exact ho
    two := fun hu => by
      change s.used = 2 at hu
      omega
    gone := h.gone }

/-! ## 5. The writer -/

/-- The writer is done with the buffer of `tail`. -/
def State.shifted (s : State) (w : Walker) (wr : Writer) (offset : Nat) (file : List UInt8) :
    State :=
  { s.behind with walker := w, writer := wr, writeOffset := offset, file := file }

theorem Quiet.shifted_bytes (h : Quiet c all metaBytes sent s) (hc : Counters s)
    (hpos : 0 < s.used) (hempty : s.writeLen s.toggle = 0) (w : Walker) {wr : Writer}
    (hwr : wr.sending = false) (offset : Nat) (file : List UInt8) :
    s.queued ++ s.own =
      s.first ++ ((s.shifted w wr offset file).queued ++ (s.shifted w wr offset file).own) := by
  have hle := h.used_le
  have hused : (s.shifted w wr offset file).used = s.used - 1 := hc.behind_used hpos
  have htoggle : (s.shifted w wr offset file).toggle = 1 - s.toggle := behind_toggle s
  have hsame := hc.side_eq
  have htl := toggle_lt s
  have hside : (s.shifted w wr offset file).content (s.shifted w wr offset file).side =
      s.content s.side := rfl
  unfold State.queued State.own
  rw [hused]
  by_cases h1 : s.used = 1
  · rw [if_neg (by omega), if_pos h1, if_neg (by omega), if_pos (by omega), if_neg (by omega),
      List.nil_append, hside]
  · have h2 : s.used = 2 := by omega
    have hnext : (s.shifted w wr offset file).first = s.content (1 - s.toggle) := by
      unfold State.first
      rw [firstLen_of_not_sending hwr, htoggle]
      rfl
    have hown : s.content s.side = [] := content_nil (by
      rw [show s.side = s.toggle by omega]
      exact hempty)
    rw [if_neg (by omega), if_neg h1, if_pos h2, if_neg (by omega), if_pos (by omega),
      if_neg (by omega), hnext, hside, hown, List.append_nil, List.append_nil]

/-- The queue loses its first buffer. -/
theorem Quiet.shift (h : Quiet c all metaBytes sent s) (hc : Counters s) (hpos : 0 < s.used)
    (hempty : s.writeLen s.toggle = 0) {w : Walker} (hw : w.puts = s.walker.puts)
    (hend : w.ended = s.walker.ended) (hasleep : w.asleep = false)
    (hblank : w.blank = s.walker.blank)
    (htog : ∀ k, w = .toggling k → s.walker = .toggling k) {wr : Writer}
    (hwr : wr.sending = false) (hexit : wr = .exited ↔ s.used = 1 ∧ s.walker.ended = true)
    (offset : Nat) (hoffset : c.writeWithOffset = true →
      offset = metaBytes + (sent ++ s.first).length) (file : List UInt8) :
    Quiet c all metaBytes (sent ++ s.first) (s.shifted w wr offset file) := by
  have hle := h.used_le
  have hused : (s.shifted w wr offset file).used = s.used - 1 := hc.behind_used hpos
  have htoggle : (s.shifted w wr offset file).toggle = 1 - s.toggle := behind_toggle s
  have hsame := hc.side_eq
  have htl := toggle_lt s
  exact {
    used_le := by omega
    full := fun hu => by omega
    asleep := fun ha => by
      change w.asleep = true at ha
      rw [hasleep] at ha
      cases ha
    offset := hoffset
    stream := by
      have hstream := h.stream
      rw [List.append_assoc sent, h.shifted_bytes hc hpos hempty w hwr offset file] at hstream
      rw [hstream]
      change _ = _ ++ images c.txnid w.puts
      rw [hw]
      simp only [List.append_assoc]
    taken := fun n hn => by
      change wr = .writing n at hn
      rw [hn] at hwr
      cases hwr
    spare := fun hu => by
      change s.writeLen (1 - s.side) = 0
      rw [show 1 - s.side = s.toggle by omega]
      exact hempty
    blank := fun hb _ => by
      change s.writeLen s.side = 0
      by_cases h1 : s.used = 1
      · exact h.blank (hblank ▸ hb) (by omega)
      · rw [show s.side = s.toggle by omega]
        exact hempty
    filled := fun k hk hne => h.filled k (htog k hk) hne
    none := fun hu => by
      change w.ended = true ↔ wr = .exited
      rw [hexit, hend]
      exact ⟨fun he => ⟨by omega, he⟩, fun he => he.2⟩
    one := fun hu => by
      rw [firstLen_of_not_sending hwr, htoggle]
      change s.writeLen (1 - s.toggle) = 0 ↔ w.ended = true
      rw [hend]
      exact (h.two (by omega)).2
    two := fun hu => by omega
    gone := fun he => by
      have h1 := (hexit.mp he).1
      omega }

-- the writer takes the mutex, or goes to sleep with it
theorem Quiet.idle (h : Quiet c all metaBytes sent s) (hs : s.writer.sending = false)
    (hx : s.writer ≠ .exited) (wr : Writer) (hwr : wr.sending = false) (hwx : wr ≠ .exited) :
    Quiet c all metaBytes sent { s with writer := wr } := by
  have hfirst : State.firstLen { s with writer := wr } = s.firstLen :=
    (firstLen_of_not_sending hwr).trans (firstLen_of_not_sending hs).symm
  exact {
    used_le := h.used_le
    full := h.full
    asleep := h.asleep
    offset := h.offset
    stream := by
      have hq : State.queued { s with writer := wr } = s.queued := by
        unfold State.queued State.first
        rw [hfirst]
        rfl
      rw [hq]
      exact h.stream
    taken := fun n hn => by
      change wr = .writing n at hn
      rw [hn] at hwr
      cases hwr
    spare := h.spare
    blank := h.blank
    filled := h.filled
    none := fun hu => (h.none hu).trans (iff_of_false hx hwx)
    one := by
      rw [hfirst]
      exact h.one
    two := by
      rw [hfirst]
      exact h.two
    gone := fun he => absurd he hwx }

/-- The buffer of `tail` is being sent. -/
def State.taking (s : State) : State :=
  { s with
    writeLen := Function.update s.writeLen s.toggle 0
    writer := .writing (s.writeLen s.toggle) }

theorem Quiet.take (h : Quiet c all metaBytes sent s) (hc : Counters s) (hb : Buffers c s)
    (hs : s.writer.sending = false) (hpos : 0 < s.used) (hne : s.writeLen s.toggle ≠ 0) :
    Quiet c all metaBytes sent s.taking := by
  have hsame := hc.side_eq
  have htl := toggle_lt s
  have hfirst : s.taking.firstLen = s.firstLen := (firstLen_of_not_sending hs).symm
  have hlen : ∀ side, side ≠ s.toggle → s.taking.writeLen side = s.writeLen side := by
    intro side hside
    unfold State.taking
    simp only [Function.update_of_ne hside]
  have hcontent : ∀ side, side ≠ s.toggle → s.taking.content side = s.content side := by
    intro side hside
    unfold State.content
    rw [hlen side hside]
    rfl
  have hnot : s.used ≤ 1 → s.side ≠ s.toggle := by omega
  exact {
    used_le := h.used_le
    full := h.full
    asleep := h.asleep
    offset := h.offset
    stream := by
      have hq : s.taking.queued = s.queued := by
        unfold State.queued State.first
        rw [hfirst, show s.taking.toggle = s.toggle from rfl,
          hcontent (1 - s.toggle) (by omega)]
        rfl
      have ho : s.taking.own = s.own := by
        unfold State.own
        change (if s.used = 2 then [] else s.taking.content s.side) = _
        by_cases h2 : s.used = 2
        · rw [if_pos h2, if_pos h2]
        · have hle := h.used_le
          rw [if_neg h2, if_neg h2, hcontent s.side (hnot (by omega))]
      rw [hq, ho]
      exact h.stream
    taken := fun n hn => by
      cases hn
      refine ⟨hpos, Nat.pos_of_ne_zero hne, hb.le _, ?_⟩
      change Function.update s.writeLen s.toggle 0 s.toggle = 0
      rw [Function.update_self]
    spare := fun hu => by
      change s.used = 0 at hu
      omega
    blank := fun hbl hu => (hlen s.side (hnot hu)).trans (h.blank hbl hu)
    filled := fun k hk heof => by
      have hle := h.used_le_one (by rw [show s.walker = .toggling k from hk]; rfl)
      change s.taking.writeLen s.side ≠ 0
      rw [hlen s.side (hnot hle)]
      exact h.filled k hk heof
    none := fun hu => by
      change s.used = 0 at hu
      omega
    one := by
      rw [hfirst]
      exact h.one
    two := fun hu => by
      rw [hfirst, show s.taking.toggle = s.toggle from rfl, hlen (1 - s.toggle) (by omega)]
      exact h.two hu
    gone := fun he => Writer.noConfusion he }

end Mdbx.Copy
