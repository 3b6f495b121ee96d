import Mdbx.Readers.Invariant

/-!
# Readers.Runs — every interleaving of readers and the writer
-/

namespace Mdbx.Readers

open Commit

/-! ## 1. Steps of the writer -/

/-- A step of the writer that leaves slot `i` and what its reader counts on. -/
structure Advance (i : Nat) (s s' : State) : Prop where
  slot : s'.slots i = s.slots i
  length : s'.length = s.length
  oldest : s.cachedOldest ≤ s'.cachedOldest
  seen : ∀ t, Bound s i → (s.slots i).txnid = t → s'.cachedOldest ≤ t → Seen s i t → Seen s' i t
  publishes : ∀ t, Bound s i → (s.slots i).txnid = t → s.cachedOldest ≤ t →
    s.writer.Publishes t → Seen s i t → s'.cachedOldest ≤ t ∧ s'.writer.Publishes t
  spares : ∀ t, s.writer.Spares i t → s'.writer.Spares i t

theorem Bound.advance {s s' : State} {i : Nat} (ha : Advance i s s') (h : Bound s i) :
    Bound s' i := ⟨ha.length ▸ h.length, ha.slot ▸ h.pid⟩

theorem Owned.advance {s s' : State} {i : Nat} (ha : Advance i s s') (h : Owned s i) :
    Owned s' i := ⟨h.toBound.advance ha, ha.slot ▸ h.tid⟩

theorem Held.advance {s s' : State} {i t : Nat} (ha : Advance i s s') (hb : Bound s i)
    (h : Held s i t) : Held s' i t := by
  have ⟨hold, hpub⟩ := ha.publishes t hb h.slot h.oldest h.publishes h.seen
  exact ⟨ha.slot ▸ h.slot, hold, hpub, ha.seen t hb h.slot hold h.seen, ha.spares t h.spares⟩

theorem Level.Ok.advance {s s' : State} {i : Nat} (ha : Advance i s s') {l : Level}
    (h : l.Ok s i) : l.Ok s' i := by
  cases l with
  | free => trivial
  | ending => exact Bound.advance ha h
  | owned => exact Owned.advance ha h
  | fresh t => exact ⟨h.1.advance ha, h.2⟩
  | flagged t =>
    refine ⟨⟨h.1.1.advance ha, h.1.2⟩, fun htxnid hold => ?_⟩
    rw [ha.slot] at htxnid
    exact ha.seen t h.1.1.toBound htxnid hold (h.2 htxnid (Nat.le_trans ha.oldest hold))
  | recent t =>
    refine ⟨⟨h.1.1.advance ha, h.1.2⟩, ha.spares t h.2.1, fun htxnid hold => ?_⟩
    rw [ha.slot] at htxnid
    have hle := Nat.le_trans ha.oldest hold
    have ⟨hpub, hseen⟩ := h.2.2 htxnid hle
    exact ⟨(ha.publishes t h.1.1.toBound htxnid hle hpub hseen).2,
      ha.seen t h.1.1.toBound htxnid hold hseen⟩
  | settled t =>
    refine ⟨⟨h.1.1.advance ha, h.1.2⟩, ha.spares t h.2.1, fun htxnid => ?_⟩
    rw [ha.slot] at htxnid
    have ⟨hle, hpub, hseen⟩ := h.2.2 htxnid
    have ⟨hold, hpub'⟩ := ha.publishes t h.1.1.toBound htxnid hle hpub hseen
    exact ⟨hold, hpub', ha.seen t h.1.1.toBound htxnid hold hseen⟩
  | held t => exact ⟨h.1.advance ha, h.2.advance ha h.1.toBound⟩
  | parked t =>
    refine ⟨⟨h.1.1.advance ha, ha.slot ▸ h.1.2⟩, fun htid => ?_⟩
    rw [ha.slot] at htid
    exact (h.2 htid).advance ha h.1.1

-- a step to a place where nothing is published or ousted
theorem advance_writes {s : State} {i : Nat} {w : WPhase}
    (hcov : ∀ t, Bound s i → (s.slots i).txnid = t → s.cachedOldest ≤ t →
      s.writer.Covers i t → w.Covers i t)
    (hpub : ∀ t, w.Publishes t) (hspare : ∀ t, w.Spares i t) : Advance i s (s.writes w) where
  slot := rfl
  length := rfl
  oldest := Nat.le_refl _
  seen := fun t hb htxnid hold h hflag => hcov t hb htxnid hold (h hflag)
  publishes := fun t _ _ hold _ _ => ⟨hold, hpub t⟩
  spares := fun t _ => hspare t

theorem Inv.writes {s : State} (hinv : Inv s) {w : WPhase}
    (hw : w.Ok s.cachedOldest (steadyTxnid s.metas))
    (hcov : ∀ i t, Bound s i → (s.slots i).txnid = t → s.cachedOldest ≤ t →
      s.writer.Covers i t → w.Covers i t)
    (hpub : ∀ t, w.Publishes t) (hspare : ∀ i t, w.Spares i t) : Inv (s.writes w) where
  oldest := hinv.oldest
  recent := hinv.recent
  writer := hw
  readers := fun i => (hinv.readers i).advance (advance_writes (hcov i) hpub (hspare i))

-- a step to a place where no scan is in progress
theorem Inv.writesPlain {s : State} (hinv : Inv s) {w : WPhase}
    (hw : w.Ok s.cachedOldest (steadyTxnid s.metas)) (hcov : ∀ i t, w.Covers i t)
    (hpub : ∀ t, w.Publishes t) (hspare : ∀ i t, w.Spares i t) : Inv (s.writes w) :=
  hinv.writes hw (fun i t _ _ _ _ => hcov i t) hpub hspare

-- a slot that no transaction holds may lose its txnid
theorem Level.Ok.invalidated {s s' : State} {i : Nat} {l : Level} (h : l.Ok s i)
    (hlength : s'.length = s.length) (hpid : (s'.slots i).pid = (s.slots i).pid)
    (htid : (s'.slots i).tid = (s.slots i).tid) (htxnid : (s'.slots i).txnid = safe64Invalid)
    (hspare : ∀ t, s'.writer.Spares i t) (hnot : ∀ t, ¬Held s i t) : l.Ok s' i := by
  have hbound : Bound s i → Bound s' i := fun b => ⟨hlength ▸ b.length, hpid ▸ b.pid⟩
  have howned : Owned s i → Owned s' i := fun b => ⟨hbound b.toBound, htid ▸ b.tid⟩
  have hvoid : ∀ t, t ≤ maxTxnid → (s'.slots i).txnid ≠ t := by
    intro t ht heq
    rw [htxnid] at heq
    have hmax : maxTxnid < safe64Invalid := by decide
    omega
  cases l with
  | free => trivial
  | ending => exact hbound h
  | owned => exact howned h
  | fresh t => exact ⟨howned h.1, h.2⟩
  | flagged t => exact ⟨⟨howned h.1.1, h.1.2⟩, fun heq => absurd heq (hvoid t h.1.2)⟩
  | recent t =>
    exact ⟨⟨howned h.1.1, h.1.2⟩, hspare t, fun heq => absurd heq (hvoid t h.1.2)⟩
  | settled t =>
    exact ⟨⟨howned h.1.1, h.1.2⟩, hspare t, fun heq => absurd heq (hvoid t h.1.2)⟩
  | held t => exact absurd h.2 (hnot t)
  | parked t =>
    refine ⟨⟨hbound h.1.1, htid ▸ h.1.2⟩, fun hp => ?_⟩
    rw [htid] at hp
    exact absurd (h.2 hp) (hnot t)

theorem setSlot_self (s : State) (j : Nat) : s.setSlot j (s.slots j) = s := by
  unfold State.setSlot
  have hslots : (fun k => if k = j then s.slots j else s.slots k) = s.slots := by
    funext k
    split_ifs with hk
    · rw [hk]
    · rfl
  rw [hslots]

-- the compare and the reset of a slot that no transaction holds at that txnid
theorem Inv.resetCompare {s : State} (hinv : Inv s) {j t : Nat} {w : WPhase}
    (hw : w.Ok s.cachedOldest (steadyTxnid s.metas))
    (hcov : ∀ i t, Bound s i → (s.slots i).txnid = t → s.cachedOldest ≤ t →
      s.writer.Covers i t → w.Covers i t)
    (hpub : ∀ t, w.Publishes t) (hspare : ∀ i t, w.Spares i t)
    (hnot : (s.slots j).txnid = t → ∀ u, ¬Held s j u) :
    Inv ((s.setSlot j (resetCompare (s.slots j) t)).writes w) := by
  by_cases ht : (s.slots j).txnid = t
  · refine ⟨hinv.oldest, hinv.recent, hw, fun i => ?_⟩
    have hself : ((s.setSlot j (Readers.resetCompare (s.slots j) t)).writes w).slots j =
        { s.slots j with txnid := safe64Invalid } := by
      change (s.setSlot j _).slots j = _
      rw [setSlot_slots_self, Readers.resetCompare, if_pos ht]
    by_cases hi : i = j
    · rw [hi]
      exact (hinv.readers j).invalidated rfl (by rw [hself]) (by rw [hself]) (by rw [hself])
        (hspare j) (hnot ht)
    · have ha : Advance i s ((s.setSlot j (Readers.resetCompare (s.slots j) t)).writes w) :=
        { advance_writes (hcov i) hpub (hspare i) with slot := if_neg hi }
      exact (hinv.readers i).advance ha
  · rw [Readers.resetCompare, if_neg ht, setSlot_self]
    exact hinv.writes hw hcov hpub hspare

-- a parked transaction is marked; the reader cannot take it up again
theorem Inv.oust {s : State} (hinv : Inv s) {straggler oldest j : Nat}
    (hold : oldest < steadyTxnid s.metas) (htid : (s.slots j).tid = .parked) :
    Inv ((s.setSlot j { s.slots j with tid := .ousted }).writes
      (.kickReset straggler oldest j)) := by
  refine ⟨hinv.oldest, hinv.recent, hold, fun i => ?_⟩
  by_cases hi : i = j
  · have hok := hinv.readers i
    have hslot : ((s.setSlot j { s.slots j with tid := .ousted }).writes
        (.kickReset straggler oldest j)).slots i = { s.slots j with tid := .ousted } := if_pos hi
    have hfree : ¬(s.slots i).tid = .owner := by
      rw [hi, htid]
      exact fun h => nomatch h
    have hbound : Bound s i → Bound ((s.setSlot j { s.slots j with tid := .ousted }).writes
        (.kickReset straggler oldest j)) i := by
      intro hb
      have hpid := hb.pid
      rw [hi] at hpid
      refine ⟨hb.length, ?_⟩
      rw [hslot]
      exact hpid
    change ((s.readers i).level).Ok _ i
    generalize (s.readers i).level = l at hok ⊢
    cases l with
    | free => trivial
    | ending => exact hbound hok
    | owned => exact absurd (Owned.tid hok) hfree
    | fresh t => exact absurd hok.1.tid hfree
    | flagged t => exact absurd hok.1.1.tid hfree
    | recent t => exact absurd hok.1.1.tid hfree
    | settled t => exact absurd hok.1.1.tid hfree
    | held t => exact absurd hok.1.tid hfree
    | parked t =>
      refine ⟨⟨hbound hok.1.1, ?_⟩, ?_⟩
      · rw [hslot]
        exact fun h => nomatch h
      · rw [hslot]
        exact fun h => nomatch h
  · apply (hinv.readers i).advance
    exact ⟨if_neg hi, rfl, Nat.le_refl _, fun _ _ _ _ _ _ => trivial,
      fun _ _ _ hle _ _ => ⟨hle, trivial⟩, fun _ _ => fun hj => absurd hj.symm hi⟩

-- the scan goes on behind slot `j`
theorem Scan.Ok.next {c : Scan} {cached steady : Nat} (h : c.Ok cached steady) :
    c.next.Ok cached steady := ⟨h.prev, h.prev_le, h.res_le⟩

theorem judge_inv {b : Build} {s : State} (hinv : Inv s) {c : Scan} {t : Nat}
    (hw : s.writer = .scanTxnid2 c t) : Inv (s.writes (judge b c t)) := by
  have hok := hinv.writer
  rw [hw] at hok
  have ⟨⟨hprev, hle, hres⟩, _⟩ := hok
  have hcovers : ∀ i u, s.writer.Covers i u →
      c.j < i ∧ i < c.n ∨ c.j = i ∧ t = u ∨ c.res ≤ u := by
    intro i u h
    rw [hw] at h
    exact h
  unfold judge
  split_ifs with hstuck hless hearly
  · refine hinv.writes ⟨⟨hprev, hle, hres⟩, hstuck⟩ ?_ (fun _ => trivial) fun _ _ => trivial
    intro i u _ _ hold hc
    change c.j < i ∧ i < c.n ∨ c.res ≤ u
    have h := hcovers i u hc
    omega
  · refine hinv.writes ⟨hprev, ?_, ?_⟩ ?_ (fun _ => trivial) fun _ _ => trivial
    · omega
    · omega
    · intro i u _ _ hold _
      change t ≤ u
      have heq := hearly.2
      omega
  · refine hinv.writes ⟨hprev, ?_, ?_⟩ ?_ (fun _ => trivial) fun _ _ => trivial
    · change c.prev ≤ t
      omega
    · change t ≤ steadyTxnid s.metas
      omega
    · intro i u _ _ _ hc
      change c.j + 1 ≤ i ∧ i < c.n ∨ t ≤ u
      have h := hcovers i u hc
      omega
  · refine hinv.writes (Scan.Ok.next ⟨hprev, hle, hres⟩) ?_ (fun _ => trivial) fun _ _ => trivial
    intro i u _ _ _ hc
    change c.j + 1 ≤ i ∧ i < c.n ∨ c.res ≤ u
    have h := hcovers i u hc
    omega

theorem returned_ok {s : State} {res : Nat} (hres : res ≤ steadyTxnid s.metas) (caller : Caller)
    (cached : Nat) : (returned s res caller).Ok cached (steadyTxnid s.metas) ∧
      (∀ i t, (returned s res caller).Covers i t) ∧ (∀ t, (returned s res caller).Publishes t) ∧
      ∀ i t, (returned s res caller).Spares i t := by
  cases caller with
  | plain => exact ⟨trivial, fun _ _ => trivial, fun _ => trivial, fun _ _ => trivial⟩
  | kick straggler =>
    unfold returned
    dsimp only
    split_ifs with hdone
    · exact ⟨trivial, fun _ _ => trivial, fun _ => trivial, fun _ _ => trivial⟩
    · refine ⟨?_, fun _ _ => trivial, fun _ => trivial, fun _ _ => trivial⟩
      change res < steadyTxnid s.metas
      omega

-- nothing that is held is below what is published
theorem publish_inv {s : State} (hinv : Inv s) {caller : Caller} {prev res : Nat}
    (hw : s.writer = .publish caller prev res) :
    Inv ({ s with cachedOldest := res }.writes (returned s res caller)) := by
  have hok := hinv.writer
  rw [hw] at hok
  have ⟨hprev, hle, hres⟩ := hok
  have ⟨hwok, hcov, hpub, hspare⟩ := returned_ok hres caller res
  refine ⟨hres, hinv.recent, hwok, fun i => ?_⟩
  apply (hinv.readers i).advance
  refine ⟨rfl, rfl, ?_, fun t _ _ _ _ _ => hcov i t, fun t _ _ _ h _ => ?_, fun t _ => hspare i t⟩
  · change s.cachedOldest ≤ res
    omega
  · rw [hw] at h
    exact ⟨h, hpub t⟩

theorem writerStep_inv {b : Build} {s s' : State} {input : Input} (hinv : Inv s)
    (hs : writerStep b s input = some s') : Inv s' := by
  have hok := hinv.writer
  unfold writerStep at hs
  cases hw : s.writer with
  | idle | txn =>
    rw [hw] at hs
    exact nomatch hs
  | loadPrev caller =>
    rw [hw] at hs
    rw [← Option.some.inj hs]
    refine hinv.writes ⟨rfl, Nat.le_refl _, hinv.oldest⟩ ?_ (fun _ => trivial) fun _ _ => trivial
    exact fun i t _ _ hold _ => hold
  | testFlag caller prev res =>
    rw [hw] at hs hok
    dsimp only at hs
    split_ifs at hs with hflag
    · rw [← Option.some.inj hs]
      exact hinv.writesPlain hok.1 (fun _ _ => trivial) (fun _ => trivial) fun _ _ => trivial
    · rw [← Option.some.inj hs]
      -- the flag is clear, so the scan that ended saw every slot
      have hclear : s.flag = false := Bool.eq_false_of_not_eq_true hflag
      refine ⟨hinv.oldest, hinv.recent, hok, fun i => ?_⟩
      apply (hinv.readers i).advance
      have hseen : ∀ t, Seen s i t → res ≤ t := by
        intro t h
        have hc := h hclear
        rw [hw] at hc
        exact hc
      exact ⟨rfl, rfl, Nat.le_refl _, fun t _ _ _ h _ => hseen t h,
        fun t _ _ hle _ h => ⟨hle, hseen t h⟩, fun _ _ => trivial⟩
  | clear caller prev =>
    rw [hw] at hs hok
    rw [← Option.some.inj hs]
    refine ⟨hinv.oldest, hinv.recent, hok, fun i => ?_⟩
    apply (hinv.readers i).advance
    exact ⟨rfl, rfl, Nat.le_refl _, fun _ _ _ _ _ _ => trivial,
      fun _ _ _ hle _ _ => ⟨hle, trivial⟩, fun _ _ => trivial⟩
  | loadLength caller prev =>
    rw [hw] at hs hok
    rw [← Option.some.inj hs]
    have hprev : prev = s.cachedOldest := hok
    refine hinv.writes ⟨hok, ?_, Nat.le_refl _⟩ ?_ (fun _ => trivial) fun _ _ => trivial
    · change prev ≤ steadyTxnid s.metas
      have hle := hinv.oldest
      omega
    · exact fun i t hb _ _ _ => Or.inl ⟨Nat.zero_le _, hb.length⟩
  | scanPid c =>
    rw [hw] at hs hok
    have hcovers : ∀ i t, s.writer.Covers i t → c.j ≤ i ∧ i < c.n ∨ c.res ≤ t := by
      intro i t h
      rw [hw] at h
      exact h
    dsimp only at hs
    split_ifs at hs with hlt hpid
    · rw [← Option.some.inj hs]
      exact hinv.writes ⟨hok, hlt⟩ (fun i t _ _ _ h => hcovers i t h) (fun _ => trivial)
        fun _ _ => trivial
    · rw [← Option.some.inj hs]
      refine hinv.writes (Scan.Ok.next hok) ?_ (fun _ => trivial) fun _ _ => trivial
      intro i t hb _ _ h
      -- the slot that is skipped is not bound
      have hne : c.j ≠ i := fun heq => hpid (heq ▸ hb.pid)
      change c.j + 1 ≤ i ∧ i < c.n ∨ c.res ≤ t
      have hc := hcovers i t h
      omega
    · rw [← Option.some.inj hs]
      refine hinv.writes ⟨hok.prev, hok.prev_le, hok.res_le⟩ ?_ (fun _ => trivial)
        fun _ _ => trivial
      intro i t _ _ _ h
      change c.res ≤ t
      have hc := hcovers i t h
      omega
  | scanRetired c =>
    rw [hw] at hs hok
    rw [← Option.some.inj hs]
    refine hinv.writes hok ?_ (fun _ => trivial) fun _ _ => trivial
    intro i t _ _ _ h
    rw [hw] at h
    exact h
  | scanTxnid c r =>
    rw [hw] at hs hok
    rw [← Option.some.inj hs]
    refine hinv.writes hok ?_ (fun _ => trivial) fun _ _ => trivial
    intro i t _ htxnid _ h
    rw [hw] at h
    have hc : c.j ≤ i ∧ i < c.n ∨ c.res ≤ t := h
    change c.j < i ∧ i < c.n ∨ c.j = i ∧ (s.slots c.j).txnid = t ∨ c.res ≤ t
    by_cases heq : c.j = i
    · exact Or.inr (Or.inl ⟨heq, heq ▸ htxnid⟩)
    · omega
  | scanRetired2 c r t =>
    rw [hw] at hs hok
    dsimp only at hs
    split_ifs at hs
    · rw [← Option.some.inj hs]
      refine hinv.writes hok ?_ (fun _ => trivial) fun _ _ => trivial
      intro i u _ _ _ h
      rw [hw] at h
      exact h
    · rw [← Option.some.inj hs]
      refine hinv.writes hok.1 ?_ (fun _ => trivial) fun _ _ => trivial
      intro i u _ _ _ h
      rw [hw] at h
      have hc : c.j < i ∧ i < c.n ∨ c.j = i ∧ t = u ∨ c.res ≤ u := h
      have hlt := hok.2
      change c.j ≤ i ∧ i < c.n ∨ c.res ≤ u
      omega
  | scanTxnid2 c t =>
    rw [hw] at hs hok
    dsimp only at hs
    split_ifs at hs
    · rw [← Option.some.inj hs]
      exact judge_inv hinv hw
    · rw [← Option.some.inj hs]
      refine hinv.writes hok.1 ?_ (fun _ => trivial) fun _ _ => trivial
      intro i u _ _ _ h
      rw [hw] at h
      have hc : c.j < i ∧ i < c.n ∨ c.j = i ∧ t = u ∨ c.res ≤ u := h
      have hlt := hok.2
      change c.j ≤ i ∧ i < c.n ∨ c.res ≤ u
      omega
  | stuckFlag c t =>
    rw [hw] at hs hok
    have hcovers : ∀ i u, s.writer.Covers i u → c.j < i ∧ i < c.n ∨ c.res ≤ u := by
      intro i u h
      rw [hw] at h
      exact h
    dsimp only at hs
    split_ifs at hs
    · rw [← Option.some.inj hs]
      exact hinv.writes (Scan.Ok.next hok.1) (fun i u _ _ _ h => hcovers i u h) (fun _ => trivial)
        fun _ _ => trivial
    · rw [← Option.some.inj hs]
      exact hinv.writes hok (fun i u _ _ _ h => hcovers i u h) (fun _ => trivial)
        fun _ _ => trivial
  | stuckCas c t =>
    rw [hw] at hs hok
    rw [← Option.some.inj hs]
    refine hinv.resetCompare (Scan.Ok.next hok.1) ?_ (fun _ => trivial) (fun _ _ => trivial) ?_
    · intro i u _ _ _ h
      rw [hw] at h
      exact h
    · intro htxnid u hheld
      have hprev := hok.1.prev
      have hlt := hok.2
      have hold := hheld.oldest
      have hslot := hheld.slot
      omega
  | publish caller prev res =>
    have hw' := hw
    rw [hw] at hs hok
    dsimp only at hs
    split_ifs at hs with heq
    · rw [← Option.some.inj hs]
      have ⟨hwok, hcov, hpub, hspare⟩ := returned_ok hok.2.2 caller s.cachedOldest
      exact hinv.writesPlain hwok hcov hpub hspare
    · rw [← Option.some.inj hs]
      exact publish_inv hinv hw'
  | kickForce straggler =>
    rw [hw] at hs
    rw [← Option.some.inj hs]
    refine ⟨hinv.oldest, hinv.recent, trivial, fun i => ?_⟩
    apply (hinv.readers i).advance
    exact ⟨rfl, rfl, Nat.le_refl _, fun _ _ _ _ _ _ => trivial,
      fun _ _ _ hle _ _ => ⟨hle, trivial⟩, fun _ _ => trivial⟩
  | kickTxnid straggler oldest j =>
    rw [hw] at hs hok
    dsimp only at hs
    split_ifs at hs
    · rw [← Option.some.inj hs]
      exact hinv.writesPlain hok (fun _ _ => trivial) (fun _ => trivial) fun _ _ => trivial
    · rw [← Option.some.inj hs]
      exact hinv.writesPlain hok (fun _ _ => trivial) (fun _ => trivial) fun _ _ => trivial
    · rw [← Option.some.inj hs]
      exact hinv.writesPlain trivial (fun _ _ => trivial) (fun _ => trivial) fun _ _ => trivial
  | kickPid straggler oldest j =>
    rw [hw] at hs hok
    dsimp only at hs
    split_ifs at hs
    · rw [← Option.some.inj hs]
      exact hinv.writesPlain hok (fun _ _ => trivial) (fun _ => trivial) fun _ _ => trivial
    · rw [← Option.some.inj hs]
      exact hinv.writesPlain hok (fun _ _ => trivial) (fun _ => trivial) fun _ _ => trivial
  | kickTid straggler oldest j =>
    rw [hw] at hs hok
    dsimp only at hs
    split_ifs at hs
    · rw [← Option.some.inj hs]
      exact hinv.writesPlain hok (fun _ _ => trivial) (fun _ => trivial) fun _ _ => trivial
    · rw [← Option.some.inj hs]
      exact hinv.writesPlain hok (fun _ _ => trivial) (fun _ => trivial) fun _ _ => trivial
  | kickCas straggler oldest j =>
    rw [hw] at hs hok
    dsimp only at hs
    split_ifs at hs with htid
    · rw [← Option.some.inj hs]
      exact hinv.oust hok htid
    · rw [← Option.some.inj hs]
      exact hinv.writesPlain hok (fun _ _ => trivial) (fun _ => trivial) fun _ _ => trivial
  | kickReset straggler oldest j =>
    have hw' := hw
    rw [hw] at hs hok
    rw [← Option.some.inj hs]
    refine hinv.resetCompare hok (fun _ _ _ _ _ _ => trivial) (fun _ => trivial)
      (fun _ _ => trivial) ?_
    intro htxnid u hheld
    have hspare := hheld.spares
    rw [hw'] at hspare
    have hlt : oldest < u := hspare rfl
    have hslot := hheld.slot
    omega
  | kickEnd straggler =>
    rw [hw] at hs
    dsimp only at hs
    split_ifs at hs
    · rw [← Option.some.inj hs]
      exact hinv.writesPlain trivial (fun _ _ => trivial) (fun _ => trivial) fun _ _ => trivial
    · rw [← Option.some.inj hs]
      exact hinv.writesPlain trivial (fun _ _ => trivial) (fun _ => trivial) fun _ _ => trivial

/-! ## 2. Events -/

-- the slot of a thread that is bound anew
theorem bind_inv {s : State} (hinv : Inv s) {i : Nat} :
    Inv ({ s with length := max s.length (i + 1) }.setSlot i
      { s.slots i with pid := true, tid := .owner, txnid := safe64Invalid } |>.goto i .idle) := by
  have hb : Beside i s ({ s with length := max s.length (i + 1) }.setSlot i
      { s.slots i with pid := true, tid := .owner, txnid := safe64Invalid } |>.goto i .idle) :=
    ⟨fun _ hj => if_neg hj, fun _ hj => if_neg hj, Nat.le_max_left _ _, id, rfl, rfl, rfl⟩
  apply hinv.beside hb
  rw [goto_readers_self]
  refine ⟨⟨?_, ?_⟩, ?_⟩
  · exact Nat.lt_of_lt_of_le (Nat.lt_succ_self i) (Nat.le_max_right _ _)
  · exact congrArg Slot.pid (setSlot_slots_self _ i _)
  · exact congrArg Slot.tid (setSlot_slots_self _ i _)

-- the slot of a thread that died
theorem cleanup_inv {s : State} (hinv : Inv s) {i : Nat} {slot : Slot} :
    Inv ((s.setSlot i slot).changed.goto i .free) := by
  have hb : Beside i s ((s.setSlot i slot).changed.goto i .free) :=
    ⟨fun _ hj => if_neg hj, fun _ hj => if_neg hj, Nat.le_refl _, fun h => (nomatch h), rfl, rfl,
      rfl⟩
  apply hinv.beside hb
  rw [goto_readers_self]
  trivial

theorem aborted_inv {s : State} (hinv : Inv s) {i : Nat} (hp : s.readers i = .dead) {slot : Slot} :
    Inv (s.setSlot i slot) := by
  have hb : Beside i s (s.setSlot i slot) :=
    ⟨fun _ hj => if_neg hj, fun _ _ => rfl, Nat.le_refl _, id, rfl, rfl, rfl⟩
  apply hinv.beside hb
  change (s.readers i).level.Ok _ i
  rw [hp]
  trivial

-- new metas, with no scan in progress
theorem metas_inv {s : State} (hinv : Inv s) {metas : Nat → Meta} {flag : Bool} {w : WPhase}
    (hsteady : steadyTxnid s.metas ≤ steadyTxnid metas) (hrecent : recentTxnid metas ≤ maxTxnid)
    (hw : w = .txn ∨ w = .idle) :
    Inv { s with metas := metas, flag := flag, writer := w } := by
  have hplain : w.Ok s.cachedOldest (steadyTxnid metas) ∧ (∀ i t, w.Covers i t) ∧
      (∀ t, w.Publishes t) ∧ ∀ i t, w.Spares i t := by
    cases hw with
    | inl h | inr h =>
      rw [h]
      exact ⟨trivial, fun _ _ => trivial, fun _ => trivial, fun _ _ => trivial⟩
  have ⟨hok, hcov, hpub, hspare⟩ := hplain
  refine ⟨Nat.le_trans hinv.oldest hsteady, hrecent, hok, fun i => ?_⟩
  apply (hinv.readers i).advance
  exact ⟨rfl, rfl, Nat.le_refl _, fun t _ _ _ _ _ => hcov i t,
    fun t _ _ hold _ _ => ⟨hold, hpub t⟩, fun t _ => hspare i t⟩

theorem commit_inv {s : State} (hinv : Inv s) {m : Meta} (hm : recentTxnid s.metas < m.txnid)
    (hmax : m.txnid ≤ maxTxnid) :
    Inv ({ s with metas := commitMeta s.metas m }.writes .idle) := by
  have hrecent : recentTxnid (commitMeta s.metas m) ≤ maxTxnid := by
    rw [commitMeta_recent hm]
    exact hmax
  exact metas_inv hinv (commitMeta_steady hm) hrecent (Or.inr rfl)

theorem step_inv {b : Build} {s s' : State} {e : Event} (hinv : Inv s)
    (hs : step b s e = some s') : Inv s' := by
  cases e with
  | bind i =>
    dsimp only [step] at hs
    cases hp : s.readers i with
    | free =>
      simp only [hp] at hs
      split_ifs at hs
      rw [← Option.some.inj hs]
      exact bind_inv hinv
    | _ =>
      rw [hp] at hs
      exact nomatch hs
  | release i =>
    dsimp only [step] at hs
    cases hp : s.readers i with
    | idle =>
      rw [hp] at hs
      rw [← Option.some.inj hs]
      exact hinv.setSlot trivial
    | _ =>
      rw [hp] at hs
      exact nomatch hs
  | start i seen =>
    have hok := hinv.readers i
    dsimp only [step] at hs
    cases hp : s.readers i with
    | idle =>
      rw [hp] at hok
      simp only [hp] at hs
      split_ifs at hs with hmax
      rw [← Option.some.inj hs]
      exact hinv.goto ⟨hok, hmax⟩
    | _ =>
      rw [hp] at hs
      exact nomatch hs
  | park i =>
    have hok := hinv.readers i
    dsimp only [step] at hs
    cases hp : s.readers i with
    | active t =>
      rw [hp] at hs hok
      rw [← Option.some.inj hs]
      exact hinv.goto hok
    | _ =>
      rw [hp] at hs
      exact nomatch hs
  | unpark i =>
    have hok := hinv.readers i
    dsimp only [step] at hs
    cases hp : s.readers i with
    | parked t =>
      rw [hp] at hs hok
      rw [← Option.some.inj hs]
      exact hinv.goto hok
    | _ =>
      rw [hp] at hs
      exact nomatch hs
  | reset i =>
    have hok := hinv.readers i
    dsimp only [step] at hs
    cases hp : s.readers i with
    | active t =>
      rw [hp] at hs hok
      rw [← Option.some.inj hs]
      exact hinv.goto hok.1
    | parked t =>
      rw [hp] at hs hok
      rw [← Option.some.inj hs]
      exact hinv.goto hok.1.1
    | _ =>
      rw [hp] at hs
      exact nomatch hs
  | reader i input => exact readerStep_inv hinv hs
  | die i =>
    dsimp only [step] at hs
    cases hp : s.readers i with
    | free =>
      rw [hp] at hs
      exact nomatch hs
    | _ =>
      rw [hp] at hs
      rw [← Option.some.inj hs]
      exact hinv.goto trivial
  | cleanup i =>
    dsimp only [step] at hs
    cases hp : s.readers i with
    | dead =>
      rw [hp] at hs
      rw [← Option.some.inj hs]
      exact cleanup_inv hinv
    | _ =>
      rw [hp] at hs
      exact nomatch hs
  | killed i =>
    dsimp only [step] at hs
    cases hp : s.readers i with
    | dead =>
      rw [hp] at hs
      rw [← Option.some.inj hs]
      exact hinv.setSlot trivial
    | _ =>
      rw [hp] at hs
      exact nomatch hs
  | aborted i txnid =>
    dsimp only [step] at hs
    cases hp : s.readers i with
    | dead =>
      simp only [hp] at hs
      rw [← Option.some.inj hs]
      exact aborted_inv hinv hp
    | _ =>
      rw [hp] at hs
      exact nomatch hs
  | writer input => exact writerStep_inv hinv hs
  | begin =>
    dsimp only [step] at hs
    cases hw : s.writer with
    | idle =>
      rw [hw] at hs
      rw [← Option.some.inj hs]
      exact hinv.writesPlain trivial (fun _ _ => trivial) (fun _ => trivial) fun _ _ => trivial
    | _ =>
      rw [hw] at hs
      exact nomatch hs
  | oldest =>
    dsimp only [step] at hs
    cases hw : s.writer with
    | txn =>
      rw [hw] at hs
      rw [← Option.some.inj hs]
      exact hinv.writesPlain trivial (fun _ _ => trivial) (fun _ => trivial) fun _ _ => trivial
    | _ =>
      rw [hw] at hs
      exact nomatch hs
  | kick straggler =>
    dsimp only [step] at hs
    cases hw : s.writer with
    | txn =>
      rw [hw] at hs
      rw [← Option.some.inj hs]
      exact hinv.writesPlain trivial (fun _ _ => trivial) (fun _ => trivial) fun _ _ => trivial
    | _ =>
      rw [hw] at hs
      exact nomatch hs
  | makeSteady =>
    dsimp only [step] at hs
    cases hw : s.writer with
    | txn =>
      simp only [hw] at hs
      split_ifs at hs with hmin
      rw [← Option.some.inj hs]
      have hrecent := hinv.recent
      rw [← recentTxnid_congr (makeSteady_txnid s.metas)] at hrecent
      exact metas_inv hinv (makeSteady_steady hmin) hrecent (Or.inl rfl)
    | _ =>
      rw [hw] at hs
      exact nomatch hs
  | wipeSteady upto =>
    dsimp only [step] at hs
    cases hw : s.writer with
    | txn =>
      simp only [hw] at hs
      rw [← Option.some.inj hs]
      have hrecent := hinv.recent
      rw [← recentTxnid_congr (wipeSteady_txnid s.metas upto)] at hrecent
      exact metas_inv hinv (wipeSteady_steady s.metas upto) hrecent (Or.inl rfl)
    | _ =>
      rw [hw] at hs
      exact nomatch hs
  | commit m =>
    dsimp only [step] at hs
    cases hw : s.writer with
    | txn =>
      simp only [hw] at hs
      split_ifs at hs with hm
      rw [← Option.some.inj hs]
      exact commit_inv hinv hm.1 hm.2
    | _ =>
      rw [hw] at hs
      exact nomatch hs
  | abort =>
    dsimp only [step] at hs
    cases hw : s.writer with
    | txn =>
      rw [hw] at hs
      rw [← Option.some.inj hs]
      exact hinv.writesPlain trivial (fun _ _ => trivial) (fun _ => trivial) fun _ _ => trivial
    | _ =>
      rw [hw] at hs
      exact nomatch hs

theorem Init.inv {s : State} (h : Init s) : Inv s where
  oldest := h.oldest
  recent := h.recent
  writer := by
    rw [h.writer]
    trivial
  readers := fun i => by
    rw [h.readers i]
    trivial

theorem reachable_inv {b : Build} {s : State} (h : Reachable b s) : Inv s := by
  induction h with
  | init h => exact h.inv
  | step _ e hs ih => exact step_inv ih hs

/-! ## 3. The oldest txnid -/

/-- The steps of a list, one after the other. -/
def run (b : Build) (s : State) : List Event → Option State
  | [] => some s
  | e :: es => (step b s e).bind fun s' => run b s' es

theorem reachable_run {b : Build} {s s' : State} {es : List Event} (h : Reachable b s)
    (hrun : run b s es = some s') : Reachable b s' := by
  induction es generalizing s with
  | nil => exact Option.some.inj hrun ▸ h
  | cons e es ih =>
    have ⟨s₁, hs, hrest⟩ := Option.bind_eq_some_iff.mp hrun
    exact ih (h.step e hs) hrest

/-- Three steady metas, and nobody in the table. -/
def fresh : State where
  slots := fun _ => ⟨false, .owner, safe64Invalid, 0⟩
  length := 0
  flag := false
  cachedOldest := 1
  metas := fun k => { (default : Meta) with txnid := k + 1, sign := signSteady }
  readers := fun _ => .free
  writer := .idle

end Mdbx.Readers
