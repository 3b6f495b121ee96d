import Mdbx.Readers.Model

/-!
# Readers.Invariant — what a reader may count on

A slot that was written before the flag was cleared is seen by the scan after it, and a slot that
was written later belongs to a reader that read the metas again and found nothing newer.  So
what the writer is about to publish is not above the txnid of a reader that started.
-/

namespace Mdbx.Readers

open Commit

/-! ## 1. The writer -/

/-- The scan in progress will see slot `i` or is not above `t` already. -/
def WPhase.Covers (i t : Nat) : WPhase → Prop
  | .testFlag _ _ res => res ≤ t
  | .publish _ _ res => res ≤ t
  | .scanPid c => c.j ≤ i ∧ i < c.n ∨ c.res ≤ t
  | .scanRetired c => c.j ≤ i ∧ i < c.n ∨ c.res ≤ t
  | .scanTxnid c _ => c.j ≤ i ∧ i < c.n ∨ c.res ≤ t
  | .scanRetired2 c _ got => c.j < i ∧ i < c.n ∨ c.j = i ∧ got = t ∨ c.res ≤ t
  | .scanTxnid2 c got => c.j < i ∧ i < c.n ∨ c.j = i ∧ got = t ∨ c.res ≤ t
  | .stuckFlag c _ => c.j < i ∧ i < c.n ∨ c.res ≤ t
  | .stuckCas c _ => c.j < i ∧ i < c.n ∨ c.res ≤ t
  | _ => True

/-- What is about to be published is not above `t`. -/
def WPhase.Publishes (t : Nat) : WPhase → Prop
  | .publish _ _ res => res ≤ t
  | _ => True

/-- The second half of an ousting of slot `i` is not of the txnid `t`. -/
def WPhase.Spares (i t : Nat) : WPhase → Prop
  | .kickReset _ oldest j => j = i → oldest < t
  | _ => True

/-- The locals of a scan. -/
structure Scan.Ok (c : Scan) (cached steady : Nat) : Prop where
  prev : c.prev = cached
  prev_le : c.prev ≤ c.res
  res_le : c.res ≤ steady

/-- What holds of the locals of the writer. -/
def WPhase.Ok (cached steady : Nat) : WPhase → Prop
  | .testFlag _ prev res => prev = cached ∧ prev ≤ res ∧ res ≤ steady
  | .publish _ prev res => prev = cached ∧ prev ≤ res ∧ res ≤ steady
  | .clear _ prev => prev = cached
  | .loadLength _ prev => prev = cached
  | .scanPid c => c.Ok cached steady
  | .scanRetired c => c.Ok cached steady ∧ c.j < c.n
  | .scanTxnid c _ => c.Ok cached steady ∧ c.j < c.n
  | .scanRetired2 c _ _ => c.Ok cached steady ∧ c.j < c.n
  | .scanTxnid2 c _ => c.Ok cached steady ∧ c.j < c.n
  | .stuckFlag c got => c.Ok cached steady ∧ got < c.prev
  | .stuckCas c got => c.Ok cached steady ∧ got < c.prev
  | .kickTxnid _ oldest _ => oldest < steady
  | .kickPid _ oldest _ => oldest < steady
  | .kickTid _ oldest _ => oldest < steady
  | .kickCas _ oldest _ => oldest < steady
  | .kickReset _ oldest _ => oldest < steady
  | _ => True

/-! ## 2. Readers -/

/-- The slot is in the table and belongs to a thread. -/
structure Bound (s : State) (i : Nat) : Prop where
  length : i < s.length
  pid : (s.slots i).pid = true

/-- The slot is bound and its transaction is not marked as parked. -/
structure Owned (s : State) (i : Nat) : Prop extends Bound s i where
  tid : (s.slots i).tid = .owner

/-- The flag is set again, or the scan in progress minds the slot. -/
def Seen (s : State) (i t : Nat) : Prop := s.flag = false → s.writer.Covers i t

/-- The slot holds the txnid, and nothing in progress will take it away. -/
structure Held (s : State) (i t : Nat) : Prop where
  slot : (s.slots i).txnid = t
  oldest : s.cachedOldest ≤ t
  publishes : s.writer.Publishes t
  seen : Seen s i t
  spares : s.writer.Spares i t

/-- How far the protection of a reader has come. -/
inductive Level where
  | free
  -- bound, with any mark
  | ending
  | owned
  -- about to write the txnid and to set the flag
  | fresh (t : Nat)
  -- the flag was set
  | flagged (t : Nat)
  -- the metas were read again
  | recent (t : Nat)
  -- the oldest txnid was loaded
  | settled (t : Nat)
  | held (t : Nat)
  | parked (t : Nat)

def Phase.level : Phase → Level
  | .free => .free
  | .dead => .free
  | .idle => .owned
  | .seizeReset z => .fresh z.head
  | .seizeRetired z => .fresh z.head
  | .seizeWrite z => .fresh z.head
  | .seizeFlag z => .fresh z.head
  | .reread z => .flagged z.head
  | .fetch z => .recent z.head
  | .loadOldest z => .recent z.head
  | .checkSlot z => .settled z.head
  | .active t => .held t
  | .parkTid t => .held t
  | .parkTxnid t => .held t
  | .parkStore t => .held t
  | .parkFlag t => .parked t
  | .parked t => .parked t
  | .unparkTid t => .parked t
  | .unparkTxnid t _ => .parked t
  | .unparkCas t => .parked t
  | .againTxnid t => .held t
  | .againTid t _ => .held t
  | .cleanTxnid => .ending
  | .cleanOwner => .ending
  | .cleanReadTxnid => .owned
  | .cleanReadTid => .owned
  | .endTxnid => .owned
  | .endFlag => .owned

def Level.Ok (s : State) (i : Nat) : Level → Prop
  | .free => True
  | .ending => Bound s i
  | .owned => Owned s i
  | .fresh t => Owned s i ∧ t ≤ maxTxnid
  | .flagged t => (Owned s i ∧ t ≤ maxTxnid) ∧
      ((s.slots i).txnid = t → s.cachedOldest ≤ t → Seen s i t)
  | .recent t => (Owned s i ∧ t ≤ maxTxnid) ∧ s.writer.Spares i t ∧
      ((s.slots i).txnid = t → s.cachedOldest ≤ t → s.writer.Publishes t ∧ Seen s i t)
  | .settled t => (Owned s i ∧ t ≤ maxTxnid) ∧ s.writer.Spares i t ∧
      ((s.slots i).txnid = t → s.cachedOldest ≤ t ∧ s.writer.Publishes t ∧ Seen s i t)
  | .held t => Owned s i ∧ Held s i t
  | .parked t => (Bound s i ∧ (s.slots i).tid ≠ .owner) ∧
      ((s.slots i).tid = .parked → Held s i t)

structure Inv (s : State) : Prop where
  oldest : s.cachedOldest ≤ steadyTxnid s.metas
  recent : recentTxnid s.metas ≤ maxTxnid
  writer : s.writer.Ok s.cachedOldest (steadyTxnid s.metas)
  readers : ∀ i, (s.readers i).level.Ok s i

/-! ## 3. Steps of readers -/

section updates

variable (s : State) (i : Nat) (slot : Slot) (p : Phase) (w : WPhase)

@[simp] theorem setSlot_slots_self : (s.setSlot i slot).slots i = slot := if_pos rfl
@[simp] theorem goto_readers_self : (s.goto i p).readers i = p := if_pos rfl

end updates

/-- A step of a reader leaves to the others what they count on: the flag is set at most. -/
structure Beside (i : Nat) (s s' : State) : Prop where
  slots : ∀ j, j ≠ i → s'.slots j = s.slots j
  readers : ∀ j, j ≠ i → s'.readers j = s.readers j
  length : s.length ≤ s'.length
  flag : s'.flag = false → s.flag = false
  oldest : s'.cachedOldest = s.cachedOldest
  metas : s'.metas = s.metas
  writer : s'.writer = s.writer

/-- The same for one slot. -/
structure Alike (j : Nat) (s s' : State) : Prop where
  slot : s'.slots j = s.slots j
  length : s.length ≤ s'.length
  flag : s'.flag = false → s.flag = false
  oldest : s'.cachedOldest = s.cachedOldest
  writer : s'.writer = s.writer

theorem Bound.alike {s s' : State} {j : Nat} (ha : Alike j s s') (h : Bound s j) : Bound s' j :=
  ⟨Nat.lt_of_lt_of_le h.length ha.length, ha.slot ▸ h.pid⟩

theorem Owned.alike {s s' : State} {j : Nat} (ha : Alike j s s') (h : Owned s j) : Owned s' j :=
  ⟨h.toBound.alike ha, ha.slot ▸ h.tid⟩

theorem Seen.alike {s s' : State} {j t : Nat} (ha : Alike j s s') (h : Seen s j t) :
    Seen s' j t := by
  intro hflag
  rw [ha.writer]
  exact h (ha.flag hflag)

theorem Held.alike {s s' : State} {j t : Nat} (ha : Alike j s s') (h : Held s j t) :
    Held s' j t :=
  ⟨ha.slot ▸ h.slot, ha.oldest ▸ h.oldest, ha.writer ▸ h.publishes, h.seen.alike ha,
    ha.writer ▸ h.spares⟩

theorem Level.Ok.alike {s s' : State} {j : Nat} (ha : Alike j s s') {l : Level} (h : l.Ok s j) :
    l.Ok s' j := by
  cases l with
  | free => trivial
  | ending => exact Bound.alike ha h
  | owned => exact Owned.alike ha h
  | fresh t => exact ⟨h.1.alike ha, h.2⟩
  | flagged t =>
    refine ⟨⟨h.1.1.alike ha, h.1.2⟩, fun htxnid hold => ?_⟩
    rw [ha.slot] at htxnid
    rw [ha.oldest] at hold
    exact (h.2 htxnid hold).alike ha
  | recent t =>
    refine ⟨⟨h.1.1.alike ha, h.1.2⟩, ha.writer ▸ h.2.1, fun htxnid hold => ?_⟩
    rw [ha.slot] at htxnid
    rw [ha.oldest] at hold
    have ⟨hpub, hseen⟩ := h.2.2 htxnid hold
    exact ⟨ha.writer ▸ hpub, hseen.alike ha⟩
  | settled t =>
    refine ⟨⟨h.1.1.alike ha, h.1.2⟩, ha.writer ▸ h.2.1, fun htxnid => ?_⟩
    rw [ha.slot] at htxnid
    have ⟨hold, hpub, hseen⟩ := h.2.2 htxnid
    exact ⟨ha.oldest ▸ hold, ha.writer ▸ hpub, hseen.alike ha⟩
  | held t => exact ⟨h.1.alike ha, h.2.alike ha⟩
  | parked t =>
    refine ⟨⟨h.1.1.alike ha, ha.slot ▸ h.1.2⟩, fun htid => ?_⟩
    rw [ha.slot] at htid
    exact (h.2 htid).alike ha

theorem Beside.alike {s s' : State} {i j : Nat} (hb : Beside i s s') (hj : j ≠ i) :
    Alike j s s' := ⟨hb.slots j hj, hb.length, hb.flag, hb.oldest, hb.writer⟩

-- only the level of the reader itself has to be shown
theorem Inv.beside {s s' : State} {i : Nat} (hinv : Inv s) (hb : Beside i s s')
    (hi : (s'.readers i).level.Ok s' i) : Inv s' where
  oldest := hb.oldest ▸ hb.metas ▸ hinv.oldest
  recent := hb.metas ▸ hinv.recent
  writer := by
    rw [hb.writer, hb.oldest, hb.metas]
    exact hinv.writer
  readers := fun j => by
    by_cases hj : j = i
    · exact hj ▸ hi
    · rw [hb.readers j hj]
      exact (hinv.readers j).alike (hb.alike hj)

theorem alike_goto (s : State) (i j : Nat) (p : Phase) : Alike j s (s.goto i p) :=
  ⟨rfl, Nat.le_refl _, id, rfl, rfl⟩

theorem Inv.goto {s : State} {i : Nat} {p : Phase} (hinv : Inv s) (h : p.level.Ok s i) :
    Inv (s.goto i p) := by
  have hb : Beside i s (s.goto i p) :=
    ⟨fun _ _ => rfl, fun _ hj => if_neg hj, Nat.le_refl _, id, rfl, rfl, rfl⟩
  apply hinv.beside hb
  rw [goto_readers_self]
  exact h.alike (alike_goto _ i i p)

theorem Inv.changed {s : State} {i : Nat} {p : Phase} (hinv : Inv s)
    (h : p.level.Ok s.changed i) : Inv (s.changed.goto i p) := by
  have hb : Beside i s (s.changed.goto i p) :=
    ⟨fun _ _ => rfl, fun _ hj => if_neg hj, Nat.le_refl _, fun h => (nomatch h), rfl, rfl, rfl⟩
  apply hinv.beside hb
  rw [goto_readers_self]
  exact h.alike (alike_goto _ i i p)

theorem Inv.setSlot {s : State} {i : Nat} {slot : Slot} {p : Phase} (hinv : Inv s)
    (h : p.level.Ok (s.setSlot i slot) i) : Inv ((s.setSlot i slot).goto i p) := by
  have hb : Beside i s ((s.setSlot i slot).goto i p) :=
    ⟨fun _ hj => if_neg hj, fun _ hj => if_neg hj, Nat.le_refl _, id, rfl, rfl, rfl⟩
  apply hinv.beside hb
  rw [goto_readers_self]
  exact h.alike (alike_goto _ i i p)

theorem Bound.setSlot {s : State} {i : Nat} (h : Bound s i) {slot : Slot} (hpid : slot.pid = true) :
    Bound (s.setSlot i slot) i := by
  refine ⟨h.length, ?_⟩
  rw [setSlot_slots_self]
  exact hpid

theorem Owned.setSlot {s : State} {i : Nat} (h : Bound s i) {slot : Slot} (hpid : slot.pid = true)
    (htid : slot.tid = .owner) : Owned (s.setSlot i slot) i := by
  refine ⟨h.setSlot hpid, ?_⟩
  rw [setSlot_slots_self]
  exact htid

theorem Held.setSlot {s : State} {i t : Nat} (h : Held s i t) {slot : Slot}
    (htxnid : slot.txnid = (s.slots i).txnid) : Held (s.setSlot i slot) i t := by
  refine ⟨?_, h.oldest, h.publishes, h.seen, h.spares⟩
  rw [setSlot_slots_self, htxnid]
  exact h.slot

theorem seizeAgain_ok {s : State} {i : Nat} (h : Owned s i) {z : Seize} (hz : z.head ≤ maxTxnid) :
    (seizeAgain z).level.Ok s i := by
  unfold seizeAgain
  split_ifs
  · exact ⟨h, hz⟩
  · exact h.toBound

-- a head that is still the recent one is not below what the writer may publish or oust
theorem Inv.recent_head {s : State} (hinv : Inv s) {t : Nat} (ht : t = recentTxnid s.metas)
    (i : Nat) : s.writer.Publishes t ∧ s.writer.Spares i t := by
  have hle := steadyTxnid_le s.metas
  have hw := hinv.writer
  cases hwr : s.writer with
  | publish caller prev res =>
    rw [hwr] at hw
    have hres : res ≤ steadyTxnid s.metas := hw.2.2
    refine ⟨?_, trivial⟩
    change res ≤ t
    omega
  | kickReset straggler oldest j =>
    rw [hwr] at hw
    have hold : oldest < steadyTxnid s.metas := hw
    refine ⟨trivial, fun _ => ?_⟩
    omega
  | _ => exact ⟨trivial, trivial⟩

theorem readerStep_inv {s s' : State} {i : Nat} {input : Input} (hinv : Inv s)
    (hs : readerStep s i input = some s') : Inv s' := by
  have hok := hinv.readers i
  unfold readerStep at hs
  cases hp : s.readers i with
  | free | dead | idle | active t | parked t =>
    rw [hp] at hs
    exact nomatch hs
  | seizeReset z =>
    rw [hp] at hs hok
    rw [← Option.some.inj hs]
    exact hinv.setSlot ⟨Owned.setSlot hok.1.toBound hok.1.pid hok.1.tid, hok.2⟩
  | seizeRetired z =>
    rw [hp] at hs hok
    rw [← Option.some.inj hs]
    exact hinv.setSlot ⟨Owned.setSlot hok.1.toBound hok.1.pid hok.1.tid, hok.2⟩
  | seizeWrite z =>
    rw [hp] at hs hok
    rw [← Option.some.inj hs]
    exact hinv.setSlot ⟨Owned.setSlot hok.1.toBound hok.1.pid hok.1.tid, hok.2⟩
  | seizeFlag z =>
    rw [hp] at hs hok
    rw [← Option.some.inj hs]
    have hchanged : Alike i s s.changed := ⟨rfl, Nat.le_refl _, fun h => (nomatch h), rfl, rfl⟩
    exact hinv.changed ⟨⟨hok.1.alike hchanged, hok.2⟩, fun _ _ h => nomatch h⟩
  | reread z =>
    rw [hp] at hs hok
    dsimp only at hs
    split_ifs at hs with herr heq
    · rw [← Option.some.inj hs]
      exact hinv.goto hok.1.1.toBound
    · rw [← Option.some.inj hs]
      have ⟨hpub, hspare⟩ := hinv.recent_head (metaTroikaEqual_recent heq) i
      exact hinv.goto ⟨hok.1, hspare, fun htxnid hold => ⟨hpub, hok.2 htxnid hold⟩⟩
    · rw [← Option.some.inj hs]
      exact hinv.goto (seizeAgain_ok hok.1.1 hinv.recent)
  | fetch z =>
    rw [hp] at hs hok
    cases hout : input.outcome with
    | success =>
      simp only [hout] at hs
      rw [← Option.some.inj hs]
      exact hinv.goto hok
    | again =>
      simp only [hout] at hs
      rw [← Option.some.inj hs]
      exact hinv.goto (seizeAgain_ok hok.1.1 hok.1.2)
    | error =>
      simp only [hout] at hs
      rw [← Option.some.inj hs]
      exact hinv.goto hok.1.1.toBound
  | loadOldest z =>
    rw [hp] at hs hok
    dsimp only at hs
    split_ifs at hs with hlt
    · rw [← Option.some.inj hs]
      exact hinv.goto (seizeAgain_ok hok.1.1 hok.1.2)
    · rw [← Option.some.inj hs]
      have hold : s.cachedOldest ≤ z.head := Nat.le_of_not_lt hlt
      exact hinv.goto ⟨hok.1, hok.2.1, fun htxnid => ⟨hold, hok.2.2 htxnid hold⟩⟩
  | checkSlot z =>
    rw [hp] at hs hok
    dsimp only at hs
    split_ifs at hs with heq
    · rw [← Option.some.inj hs]
      have ⟨hold, hpub, hseen⟩ := hok.2.2 heq.symm
      exact hinv.goto ⟨hok.1.1, ⟨heq.symm, hold, hpub, hseen, hok.2.1⟩⟩
    · rw [← Option.some.inj hs]
      exact hinv.goto (seizeAgain_ok hok.1.1 hok.1.2)
  | parkTid t =>
    rw [hp] at hs hok
    dsimp only at hs
    split_ifs at hs
    · rw [← Option.some.inj hs]
      exact hinv.goto hok
    · rw [← Option.some.inj hs]
      exact hinv.goto hok
  | parkTxnid t =>
    rw [hp] at hs hok
    dsimp only at hs
    split_ifs at hs
    · rw [← Option.some.inj hs]
      exact hinv.goto hok
    · rw [← Option.some.inj hs]
      exact hinv.goto hok
  | parkStore t =>
    rw [hp] at hs hok
    rw [← Option.some.inj hs]
    refine hinv.setSlot ⟨⟨hok.1.toBound.setSlot hok.1.pid, ?_⟩, fun _ => hok.2.setSlot rfl⟩
    rw [setSlot_slots_self]
    exact fun h => nomatch h
  | parkFlag t =>
    rw [hp] at hs hok
    rw [← Option.some.inj hs]
    have hchanged : Alike i s s.changed := ⟨rfl, Nat.le_refl _, fun h => (nomatch h), rfl, rfl⟩
    exact hinv.changed (Level.Ok.alike hchanged hok)
  | unparkTid t =>
    rw [hp] at hs hok
    rw [← Option.some.inj hs]
    exact hinv.goto hok
  | unparkTxnid t tid =>
    rw [hp] at hs hok
    dsimp only at hs
    split_ifs at hs
    · rw [← Option.some.inj hs]
      exact hinv.goto hok.1.1
    · rw [← Option.some.inj hs]
      exact hinv.goto hok.1.1
    · rw [← Option.some.inj hs]
      exact hinv.goto hok.1.1
    · rw [← Option.some.inj hs]
      exact hinv.goto hok
  | unparkCas t =>
    rw [hp] at hs hok
    dsimp only at hs
    split_ifs at hs with htid
    · rw [← Option.some.inj hs]
      exact hinv.setSlot ⟨Owned.setSlot hok.1.1 hok.1.1.pid rfl, (hok.2 htid).setSlot rfl⟩
    · rw [← Option.some.inj hs]
      exact hinv.goto hok
  | againTxnid t =>
    rw [hp] at hs hok
    rw [← Option.some.inj hs]
    exact hinv.goto hok
  | againTid t got =>
    rw [hp] at hs hok
    dsimp only at hs
    split_ifs at hs
    · rw [← Option.some.inj hs]
      exact hinv.goto hok
    · rw [← Option.some.inj hs]
      exact hinv.goto hok.1.toBound
  | cleanTxnid =>
    rw [hp] at hs hok
    rw [← Option.some.inj hs]
    exact hinv.setSlot (Bound.setSlot hok hok.pid)
  | cleanOwner =>
    rw [hp] at hs hok
    rw [← Option.some.inj hs]
    exact hinv.setSlot (Owned.setSlot hok hok.pid rfl)
  | cleanReadTxnid =>
    rw [hp] at hs hok
    dsimp only at hs
    split_ifs at hs
    · rw [← Option.some.inj hs]
      exact hinv.goto (Owned.toBound hok)
    · rw [← Option.some.inj hs]
      exact hinv.goto hok
  | cleanReadTid =>
    rw [hp] at hs hok
    dsimp only at hs
    split_ifs at hs
    · rw [← Option.some.inj hs]
      exact hinv.goto hok
    · rw [← Option.some.inj hs]
      exact hinv.goto (Owned.toBound hok)
  | endTxnid =>
    rw [hp] at hs hok
    rw [← Option.some.inj hs]
    have hown : Owned s i := hok
    exact hinv.setSlot (Owned.setSlot hown.toBound hown.pid hown.tid)
  | endFlag =>
    rw [hp] at hs hok
    rw [← Option.some.inj hs]
    have hchanged : Alike i s s.changed := ⟨rfl, Nat.le_refl _, fun h => (nomatch h), rfl, rfl⟩
    exact hinv.changed (Owned.alike hchanged hok)

end Mdbx.Readers
