import Mdbx.Parking.Clone
import Mathlib.Tactic.SplitIfs

/-!
# Parking.CloneSafe — when a clone and its slot agree

The clone publishes its snapshot while its flags still say that it is finished.  Whatever fails
after that finds a finished transaction with a snapshot in its slot.
-/

namespace Mdbx.Parking

/-! ## 1. What is promised -/

/-- The slot holds the snapshot of the clone, and bears the mark of a parked one. -/
def Clone.Published (k : Clone) : Prop :=
  ∀ s, k.slot = some s → s.txnid = k.txn.txnid ∧ k.txn.txnid < safe64InvalidThreshold ∧
    s.tid = if k.txn.parked then mdbxTidTxnParked else k.txn.owner

def Vacant (slot : Option Slot) : Prop := ∀ s, slot = some s → safe64InvalidThreshold ≤ s.txnid

def Result.Safe : Result → Prop
  | .success k => k.Published
  | .error _ slot => Vacant slot
  | .panicked => False

/-- A read transaction of the caller: it is not active, or holds a snapshot that writers respect; a
slot with another `pid` was cleared for good. -/
structure Handle (c : Call) (txn : Txn) (slot : Option Slot) : Prop where
  finished : txn.finished = true → Vacant slot
  pid : ∀ s, slot = some s → s.pid = c.registeredPid ∨ safe64InvalidThreshold ≤ s.txnid
  oldest : txn.finished = false → txn.parked = false → c.oldestFirst ≤ txn.txnid

structure Call.Ok (c : Call) : Prop where
  pid : c.registeredPid = c.currentPid
  bound : ∀ s, c.bound = some s → s.pid = c.registeredPid ∧ safe64InvalidThreshold ≤ s.txnid
  handle : ∀ txn slot, c.handle = some (txn, slot) → txn.roFlat = true → Handle c txn slot
  -- a writer is not parked
  writer : c.roFlat = false → c.flags.parked = false

/-! ## 2. The condition -/

/-- The call gets a clone ready to be filled. -/
def Call.Ready (c : Call) : Prop :=
  c.before = none ∧
    match c.handle with
    | none => c.allocated = true ∧ c.again = none
    | some (txn, _) => txn.finished = false → c.again = none

/-- The slot of the clone, when it is to be had; `slot` is that of the caller's handle. -/
def Call.slotFor (c : Call) (slot : Option Slot) : Option Slot :=
  match slot with
  | some s => if s.pid = c.registeredPid then some s else none
  | none => if c.allocErr = none then c.bound else none

def Call.slot (c : Call) : Option Slot := c.slotFor (c.handle.bind Prod.snd)

def Call.Startable (c : Call) : Prop :=
  c.state.finished = false ∧ minTxnid ≤ c.state.txnid ∧ c.state.txnid ≤ maxTxnid

/-- The source was restarted since the snapshot `t` was taken from it. -/
def Call.Changed (c : Call) (t : Nat) : Prop := c.basis c.last ≠ t ∨ c.txnid ≠ c.last.txnid

instance (c : Call) (t : Nat) : Decidable (c.Changed t) :=
  inferInstanceAs (Decidable (_ ∨ _))

/-- A reader is the source: it is not parked, or the clone of it fails; and nothing fails after the
snapshot is in the slot while the clone still counts as finished. -/
def Call.KeptReader (c : Call) (t : Nat) : Prop :=
  if c.overlapping then True
  else if c.flags.parked then c.recheck.check ≠ none ∨ c.Changed t
  else if c.kicked ∧ t ≠ safe64Invalid then True
  else if t < c.oldest ∨ c.recheck.check ≠ none then
    c.kickedLate ∨ safe64InvalidThreshold ≤ t
  else if c.Changed t then c.oldestLate ≤ t
  else ¬ c.kickedLate ∧ t < safe64InvalidThreshold

/-- How `ro_seize` ends for a transaction with a slot, and the snapshot it has fetched last. -/
def seized (c : Call) (i : Nat) (t : Nat) : Nat → Option Err × Nat
  | 0 => (some .problem, t)
  | n + 1 =>
    let r := c.rounds i
    match r.err with
    | some e => (some e, t)
    | none =>
      if r.shouldRetry then seized c (i + 1) t n
      else match r.fetchErr with
        | some e => (some e, r.head)
        | none =>
          if r.fetchAgain then seized c (i + 1) r.head n
          else if r.head < r.oldest then
            if c.stuckMeta then (some .retarded, r.head) else seized c (i + 1) r.head n
          else if r.kicked ∧ r.head ≠ safe64Invalid then seized c (i + 1) r.head n
          else (none, r.head)

/-- A writer is the source: what `ro_seize` has fetched is not older than the oldest snapshot when
it has to be cleaned up. -/
def Call.KeptWriter (c : Call) (z : Option Err × Nat) : Prop :=
  if z.1 ≠ none ∨ c.recheck.check ≠ none ∨ c.Changed z.2 then c.oldestLate ≤ z.2
  else ¬ c.kickedLate ∧ z.2 < safe64InvalidThreshold

def Call.Kept (c : Call) : Prop :=
  if c.roFlat then c.KeptReader (c.basis c.snapshot)
  else c.tapErr ≠ none ∨ c.KeptWriter (seized c 0 (c.basis c.snapshot) 42)

def Call.Meets (c : Call) : Prop :=
  (∀ txn slot, c.handle = some (txn, slot) → txn.roFlat = true) ∧
  (c.Ready → c.slot ≠ none → c.Startable → c.Kept)

/-! ## 3. Cleaning -/

variable {c : Call} {k : Clone} {s : Slot} {o : Nat} {e : Err}

theorem setTxnid_slot (t : Nat) (hs : k.slot = some s) :
    (k.setTxnid t).slot = some { s with txnid := t } := by
  unfold Clone.setTxnid
  rw [hs]
  rfl

theorem setTxnid_none (t : Nat) (hs : k.slot = none) : (k.setTxnid t).slot = none := by
  unfold Clone.setTxnid
  rw [hs]
  rfl

theorem slotLate_slot (hs : k.slot = some s) :
    (c.slotLate k).slot =
      some { s with txnid := if c.kickedLate then safe64Invalid else s.txnid } := by
  unfold Call.slotLate
  split_ifs with hk
  · exact setTxnid_slot _ hs
  · exact hs

theorem slotLate_txn : (c.slotLate k).txn = k.txn := by
  unfold Call.slotLate
  split_ifs <;> rfl

theorem slotLate_none (hs : k.slot = none) : (c.slotLate k).slot = none := by
  unfold Call.slotLate
  split_ifs
  · exact setTxnid_none _ hs
  · exact hs

theorem invalid_ge : safe64InvalidThreshold ≤ safe64Invalid := by decide

/-- A slot of another process holds nothing. -/
def Clone.Owned (c : Call) (k : Clone) : Prop :=
  ∀ s, k.slot = some s → s.pid = c.registeredPid ∨ safe64InvalidThreshold ≤ s.txnid

theorem Clone.Owned.late (h : k.Owned c) : (c.slotLate k).Owned c := by
  intro s hs
  cases hk : k.slot with
  | none =>
    rw [slotLate_none hk] at hs
    exact nomatch hs
  | some s₀ =>
    rw [slotLate_slot hk] at hs
    rw [← Option.some.inj hs]
    rcases h s₀ hk with hpid | hle
    · exact Or.inl hpid
    · refine Or.inr ?_
      change safe64InvalidThreshold ≤ if _ then _ else _
      split_ifs
      · exact invalid_ge
      · exact hle

theorem roSlotCheckpid_own (hpid : s.pid = c.registeredPid) : roSlotCheckpid c s = none :=
  if_pos hpid

theorem roSlotCheckpid_other (hc : c.registeredPid = c.currentPid) (hpid : s.pid ≠ c.registeredPid) :
    roSlotCheckpid c s = some .badRslot := by
  unfold roSlotCheckpid
  rw [if_neg hpid, if_pos fun heq => hpid (heq.symm.trans hc.symm)]

-- what is cleaned holds nothing
theorem roSlotClean_vacant {out : Option Err × Clone} (hc : c.registeredPid = c.currentPid)
    (h : k.Owned c) (hout : roSlotClean c o k = some out) : Vacant out.2.slot := by
  intro s hs
  unfold roSlotClean at hout
  cases hk : k.slot with
  | none =>
    rw [hk] at hout
    rw [← Option.some.inj hout, hk] at hs
    exact nomatch hs
  | some s₀ =>
    rw [hk] at hout
    by_cases hpid : s₀.pid = c.registeredPid
    · simp only [roSlotCheckpid_own hpid] at hout
      split_ifs at hout with hf hlt hp hold
      · rw [← Option.some.inj hout, hk] at hs
        exact Option.some.inj hs ▸ Nat.not_lt.mp hlt
      · rw [← Option.some.inj hout] at hs
        rw [← Option.some.inj hs]
        exact invalid_ge
      · rw [← Option.some.inj hout] at hs
        unfold Clone.setTxnid at hs
        rw [hk] at hs
        rw [← Option.some.inj hs]
        exact invalid_ge
    · simp only [roSlotCheckpid_other hc hpid] at hout
      rw [← Option.some.inj hout, hk] at hs
      exact Option.some.inj hs ▸ (h s₀ hk).resolve_left hpid

theorem roSlotRelease_vacant {slot : Option Slot} (h : Vacant slot) :
    Vacant (slot.map (roSlotRelease c)) := by
  intro s hs
  have ⟨s₀, hs₀, heq⟩ := Option.map_eq_some_iff.mp hs
  rw [← heq]
  unfold roSlotRelease
  split_ifs
  · exact invalid_ge
  · exact h s₀ hs₀

-- a bailout is as good as the cleaning in it
theorem bailout_safe_iff (hc : c.registeredPid = c.currentPid) (h : k.Owned c) :
    (bailout c o e k).Safe ↔ (roSlotClean c o (c.slotLate k)).isSome = true := by
  have hlate := h.late
  unfold bailout
  dsimp only
  cases hclean : roSlotClean c o (c.slotLate k) with
  | none =>
    refine iff_of_false (fun hsafe => ?_) (fun hsome => nomatch hsome)
    have hreset : txnRoReset c o (c.slotLate k) = none := by
      unfold txnRoReset
      rw [hclean]
      rfl
    cases hh : c.handle with
    | none =>
      rw [hh] at hsafe
      unfold txnRoFree at hsafe
      cases hk : (c.slotLate k).slot with
      | none =>
        unfold roSlotClean at hclean
        rw [hk] at hclean
        exact nomatch hclean
      | some s =>
        simp only [hk, hreset, Option.map_none] at hsafe
        exact hsafe
    | some p =>
      simp only [hh, hreset] at hsafe
      exact hsafe
  | some out =>
    have hvacant := roSlotClean_vacant hc hlate hclean
    refine iff_of_true ?_ rfl
    have hreset : txnRoReset c o (c.slotLate k) = some (out.1, { out.2 with
        txn := { out.2.txn with finished := true, owner := 0, txnid := invalidTxnid } }) := by
      unfold txnRoReset
      rw [hclean]
      rfl
    cases hh : c.handle with
    | none =>
      unfold txnRoFree
      cases hk : (c.slotLate k).slot with
      | none =>
        simp only [Result.Safe]
        exact fun s hs => nomatch hs
      | some s =>
        simp only [hreset, Option.map_some]
        exact roSlotRelease_vacant hvacant
    | some p =>
      simp only [hreset]
      exact hvacant

/-! ## 4. Cleaning case by case -/

theorem clean_none (hs : k.slot = none) : (roSlotClean c o k).isSome = true := by
  unfold roSlotClean
  rw [hs]
  rfl

theorem clean_other (hc : c.registeredPid = c.currentPid) (hs : k.slot = some s)
    (hpid : s.pid ≠ c.registeredPid) : (roSlotClean c o k).isSome = true := by
  unfold roSlotClean
  rw [hs]
  simp only [roSlotCheckpid_other hc hpid]
  rfl

theorem clean_finished (hs : k.slot = some s) (hpid : s.pid = c.registeredPid)
    (hf : k.txn.finished = true) :
    (roSlotClean c o k).isSome = true ↔ safe64InvalidThreshold ≤ s.txnid := by
  unfold roSlotClean
  rw [hs]
  simp only [roSlotCheckpid_own hpid, hf, if_true]
  by_cases hlt : s.txnid < safe64InvalidThreshold
  · rw [if_pos hlt]
    exact iff_of_false (fun h => nomatch h) (Nat.not_le.mpr hlt)
  · rw [if_neg hlt]
    exact iff_of_true rfl (Nat.not_lt.mp hlt)

theorem clean_parked (hs : k.slot = some s) (hpid : s.pid = c.registeredPid)
    (hf : k.txn.finished = false) (hp : k.txn.parked = true) :
    (roSlotClean c o k).isSome = true := by
  unfold roSlotClean
  rw [hs]
  simp only [roSlotCheckpid_own hpid, hf, hp]
  rfl

theorem clean_active (hs : k.slot = some s) (hpid : s.pid = c.registeredPid)
    (hf : k.txn.finished = false) (hp : k.txn.parked = false) :
    (roSlotClean c o k).isSome = true ↔ o ≤ k.txn.txnid := by
  unfold roSlotClean
  rw [hs]
  simp only [roSlotCheckpid_own hpid, hf, hp, Bool.false_eq_true, if_false]
  by_cases hlt : k.txn.txnid < o
  · rw [if_pos hlt]
    exact iff_of_false (fun h => nomatch h) (Nat.not_le.mpr hlt)
  · rw [if_neg hlt]
    exact iff_of_true rfl (Nat.not_lt.mp hlt)

/-! ## 5. Bailouts -/

theorem Clone.Owned.of_some (hs : k.slot = some s) (hpid : s.pid = c.registeredPid) :
    k.Owned c := fun _ hs' => Or.inl (Option.some.inj (hs.symm.trans hs') ▸ hpid)

theorem Clone.Owned.of_none (hs : k.slot = none) : k.Owned c := fun _ hs' =>
  nomatch hs.symm.trans hs'

theorem bailout_none (hc : c.registeredPid = c.currentPid) (hs : k.slot = none) :
    (bailout c o e k).Safe :=
  (bailout_safe_iff hc (.of_none hs)).mpr (clean_none (slotLate_none hs))

theorem bailout_finished (hc : c.registeredPid = c.currentPid) (hs : k.slot = some s)
    (hpid : s.pid = c.registeredPid) (hf : k.txn.finished = true) :
    (bailout c o e k).Safe ↔ c.kickedLate = true ∨ safe64InvalidThreshold ≤ s.txnid := by
  rw [bailout_safe_iff hc (.of_some hs hpid), clean_finished (slotLate_slot hs) hpid (by
    rw [slotLate_txn]
    exact hf)]
  change safe64InvalidThreshold ≤ (if c.kickedLate = true then safe64Invalid else s.txnid) ↔ _
  split_ifs with hk
  · exact iff_of_true invalid_ge (Or.inl hk)
  · exact ⟨Or.inr, fun h => h.resolve_left hk⟩

theorem bailout_parked (hc : c.registeredPid = c.currentPid) (hs : k.slot = some s)
    (hpid : s.pid = c.registeredPid) (hf : k.txn.finished = false) (hp : k.txn.parked = true) :
    (bailout c o e k).Safe :=
  (bailout_safe_iff hc (.of_some hs hpid)).mpr (clean_parked (slotLate_slot hs) hpid
    (by rw [slotLate_txn]; exact hf) (by rw [slotLate_txn]; exact hp))

theorem bailout_active (hc : c.registeredPid = c.currentPid) (hs : k.slot = some s)
    (hpid : s.pid = c.registeredPid) (hf : k.txn.finished = false) (hp : k.txn.parked = false) :
    (bailout c o e k).Safe ↔ o ≤ k.txn.txnid := by
  rw [bailout_safe_iff hc (.of_some hs hpid), clean_active (slotLate_slot hs) hpid
    (by rw [slotLate_txn]; exact hf) (by rw [slotLate_txn]; exact hp), slotLate_txn]

theorem bailout_vacant (hc : c.registeredPid = c.currentPid) (hf : k.txn.finished = true)
    (hv : Vacant k.slot) : (bailout c o e k).Safe := by
  cases hs : k.slot with
  | none => exact bailout_none hc hs
  | some s =>
    by_cases hpid : s.pid = c.registeredPid
    · exact (bailout_finished hc hs hpid hf).mpr (Or.inr (hv s hs))
    · have howned : k.Owned c := fun s' hs' => Or.inr (hv s' hs')
      exact (bailout_safe_iff hc howned).mpr (clean_other hc (slotLate_slot hs) hpid)

-- a transaction of the caller is reset
theorem bailout_handle {txn : Txn} {slot : Option Slot} (hc : c.registeredPid = c.currentPid)
    (h : Handle c txn slot) : (bailout c c.oldestFirst e ⟨txn, slot⟩).Safe := by
  by_cases hf : txn.finished = true
  · exact bailout_vacant hc hf (h.finished hf)
  · have hf := Bool.not_eq_true _ ▸ hf
    cases hs : slot with
    | none => exact bailout_none hc rfl
    | some s =>
      rw [hs] at h
      by_cases hpid : s.pid = c.registeredPid
      · by_cases hp : txn.parked = true
        · exact bailout_parked hc rfl hpid hf hp
        · have hp := Bool.not_eq_true _ ▸ hp
          exact (bailout_active hc rfl hpid hf hp).mpr (h.oldest hf hp)
      · exact (bailout_safe_iff (k := ⟨txn, some s⟩) hc h.pid).mpr (clean_other hc (slotLate_slot rfl) hpid)

/-! ## 6. The end of the call -/

/-- The flags no longer say that the clone is finished. -/
def Clone.begun (k : Clone) : Clone := { k with txn := { k.txn with finished := false } }

theorem Clone.begun_eq (hf : k.txn.finished = false) : k.begun = k := by
  unfold Clone.begun
  rw [← hf]

/-- From the return of `txn_ro_clone` on. -/
def cloneEnd (c : Call) (out : Option Err × Clone) : Result :=
  match out with
  | (some e, k) => bailout c c.oldestLate e k
  | (none, k) =>
    match c.recheck.check with
    | some e => bailout c c.oldestLate e k
    | none =>
      if c.Changed k.begun.txn.txnid then bailout c c.oldestLate .problem k.begun
      else .success (c.slotLate k.begun)

theorem cloneReady_eq (c : Call) (k : Clone) : cloneReady c k = cloneEnd c (txnRoClone c k) := rfl

-- in the exclusive mode there is no slot to care for
theorem cloneEnd_none (hc : c.registeredPid = c.currentPid) {rc : Option Err}
    (hs : k.slot = none) : (cloneEnd c (rc, k)).Safe := by
  cases rc with
  | some e => exact bailout_none hc hs
  | none =>
    unfold cloneEnd
    cases c.recheck.check with
    | some e => exact bailout_none hc hs
    | none =>
      dsimp only
      split_ifs
      · exact bailout_none hc hs
      · intro s' hs'
        have hnone : (c.slotLate k.begun).slot = none := slotLate_none hs
        exact nomatch hnone.symm.trans hs'

-- success is the truth when the slot keeps the snapshot
theorem published_iff {t : Nat} (hs : k.slot = some { s with txnid := t })
    (ht : k.txn.txnid = t) (hp : k.txn.parked = false) (howner : k.txn.owner = s.tid) :
    (Result.success (c.slotLate k)).Safe ↔ ¬ c.kickedLate = true ∧ t < safe64InvalidThreshold := by
  have hslot := slotLate_slot (c := c) hs
  constructor
  · intro h
    have ⟨heq, hlt, _⟩ := h _ hslot
    rw [slotLate_txn, ht] at heq hlt
    refine ⟨fun hk => ?_, hlt⟩
    change (if c.kickedLate = true then safe64Invalid else t) = t at heq
    rw [if_pos hk] at heq
    rw [← heq] at hlt
    exact absurd invalid_ge (Nat.not_le.mpr hlt)
  · intro ⟨hk, hlt⟩ s' hs'
    rw [hslot] at hs'
    rw [← Option.some.inj hs', slotLate_txn, hp, ht]
    refine ⟨?_, hlt, howner.symm⟩
    change (if c.kickedLate = true then safe64Invalid else t) = t
    rw [if_neg hk]

-- the clone of a writer's snapshot: its flags say that it is active
theorem cloneEnd_active {t : Nat} (rc : Option Err) (hc : c.registeredPid = c.currentPid)
    (hpid : s.pid = c.registeredPid) (hs : ∃ t', k.slot = some { s with txnid := t' } ∧
      (rc = none → t' = t)) (ht : k.txn.txnid = t) (hf : k.txn.finished = false)
    (hp : k.txn.parked = false) (howner : k.txn.owner = s.tid) :
    (cloneEnd c (rc, k)).Safe ↔ c.KeptWriter (rc, t) := by
  have ⟨t', hslot, heq⟩ := hs
  have hbail : ∀ {e : Err}, (bailout c c.oldestLate e k).Safe ↔ c.oldestLate ≤ t := by
    intro e
    rw [bailout_active hc hslot hpid hf hp, ht]
  unfold Call.KeptWriter cloneEnd
  cases rc with
  | some e =>
    rw [if_pos (Or.inl fun h => nomatch h)]
    exact hbail
  | none =>
    dsimp only
    cases hcheck : c.recheck.check with
    | some e =>
      rw [if_pos (Or.inr (Or.inl fun h => nomatch h))]
      exact hbail
    | none =>
      dsimp only
      rw [Clone.begun_eq hf, ht]
      by_cases hch : c.Changed t
      · rw [if_pos hch, if_pos (Or.inr (Or.inr hch))]
        exact hbail
      · have hno : ¬ ((none : Option Err) ≠ none ∨ (none : Option Err) ≠ none ∨ c.Changed t) := by
          rintro (h | h | h)
          · exact h rfl
          · exact h rfl
          · exact hch h
        rw [if_neg hch, if_neg hno]
        exact published_iff (heq rfl ▸ hslot) ht hp howner

/-! ## 7. A reader is the source -/

theorem cloneEnd_error (c : Call) (e : Err) (k : Clone) :
    cloneEnd c (some e, k) = bailout c c.oldestLate e k := rfl

theorem parked_ge : safe64InvalidThreshold ≤ mdbxTidTxnParked := by decide

-- the slot of a parked clone is taken for an empty one
theorem cloneEnd_parked (hc : c.registeredPid = c.currentPid) (hpid : s.pid = c.registeredPid)
    (hs : k.slot = some { s with txnid := mdbxTidTxnParked }) (hf : k.txn.finished = true)
    (hp : k.txn.parked = true) :
    (cloneEnd c (none, k)).Safe ↔ c.recheck.check ≠ none ∨ c.Changed k.txn.txnid := by
  unfold cloneEnd
  cases c.recheck.check with
  | some e =>
    exact iff_of_true ((bailout_finished hc hs hpid hf).mpr (Or.inr parked_ge))
      (Or.inl fun h => nomatch h)
  | none =>
    dsimp only
    by_cases hch : c.Changed k.txn.txnid
    · rw [if_pos (show c.Changed k.begun.txn.txnid from hch)]
      exact iff_of_true (bailout_parked (k := k.begun) hc hs hpid rfl hp) (Or.inr hch)
    · rw [if_neg (show ¬ c.Changed k.begun.txn.txnid from hch)]
      refine iff_of_false (fun hsafe => ?_) (fun h => h.elim (fun h => h rfl) hch)
      have hslot := slotLate_slot (c := c) (k := k.begun) hs
      have ⟨heq, hlt, _⟩ := hsafe _ hslot
      rw [← heq] at hlt
      change (if c.kickedLate = true then safe64Invalid else mdbxTidTxnParked) < _ at hlt
      split_ifs at hlt
      · exact absurd invalid_ge (Nat.not_le.mpr hlt)
      · exact absurd parked_ge (Nat.not_le.mpr hlt)

-- a regular clone of a reader's snapshot, with nothing to stop it in `txn_ro_clone`
theorem cloneEnd_regular {t : Nat} (hc : c.registeredPid = c.currentPid)
    (hpid : s.pid = c.registeredPid) (hs : k.slot = some { s with txnid := t })
    (ht : k.txn.txnid = t) (hf : k.txn.finished = true) (hp : k.txn.parked = false)
    (howner : k.txn.owner = s.tid) :
    (cloneEnd c (none, k)).Safe ↔
      if c.recheck.check ≠ none then c.kickedLate ∨ safe64InvalidThreshold ≤ t
      else if c.Changed t then c.oldestLate ≤ t
      else ¬ c.kickedLate ∧ t < safe64InvalidThreshold := by
  unfold cloneEnd
  cases c.recheck.check with
  | some e =>
    rw [if_pos (fun h => nomatch h)]
    exact bailout_finished hc hs hpid hf
  | none =>
    rw [if_neg (fun h => h rfl)]
    dsimp only
    have ht' : k.begun.txn.txnid = t := ht
    by_cases hch : c.Changed t
    · rw [if_pos hch, if_pos (ht'.symm ▸ hch), ← ht']
      exact bailout_active hc hs hpid rfl hp
    · rw [if_neg hch, if_neg (ht'.symm ▸ hch)]
      exact published_iff hs ht' hp howner

theorem publish_parked (hp : k.txn.parked = true) :
    publish c k = (none, k.setTxnid mdbxTidTxnParked) := by
  unfold publish
  rw [if_pos hp]
  exact if_pos hp

theorem publish_regular (hp : k.txn.parked = false) (hs : k.slot = some s) :
    publish c k =
      if c.kicked ∧ k.txn.txnid ≠ safe64Invalid then
        (some .ousted, (k.setTxnid k.txn.txnid).setTxnid safe64Invalid)
      else if k.txn.txnid < c.oldest then (some .retarded, k.setTxnid k.txn.txnid)
      else (none, k.setTxnid k.txn.txnid) := by
  have hp : ¬ k.txn.parked = true := hp ▸ Bool.false_ne_true
  unfold publish
  rw [if_neg hp]
  dsimp only
  rw [setTxnid_slot _ hs]
  exact (if_neg hp).trans (if_congr (and_iff_right fun h => nomatch h) rfl rfl)

theorem reader_safe_iff (hc : c.registeredPid = c.currentPid) (hpid : s.pid = c.registeredPid)
    (hs : k.slot = some s) (hno : c.overlapping = false) :
    (cloneEnd c (publish c (fill c k))).Safe ↔ c.KeptReader (c.basis c.snapshot) := by
  have hslot : (fill c k).slot = some s := hs
  have howner : (fill c k).txn.owner = s.tid := by
    change (k.slot.map Slot.tid).getD k.txn.owner = s.tid
    rw [hs]
    rfl
  unfold Call.KeptReader
  rw [if_neg (by rw [hno]; exact Bool.false_ne_true)]
  by_cases hp : c.flags.parked = true
  · rw [if_pos hp, publish_parked (k := fill c k) hp]
    exact cloneEnd_parked hc hpid (setTxnid_slot _ hslot) rfl hp
  · have hp' : (fill c k).txn.parked = false := Bool.not_eq_true _ ▸ hp
    have htxnid : (fill c k).txn.txnid = c.basis c.snapshot := rfl
    rw [if_neg hp, publish_regular hp' hslot, htxnid]
    have hput := setTxnid_slot (c.basis c.snapshot) hslot
    by_cases hkick : c.kicked ∧ c.basis c.snapshot ≠ safe64Invalid
    · rw [if_pos hkick, if_pos hkick, cloneEnd_error]
      exact iff_of_true ((bailout_finished hc (setTxnid_slot safe64Invalid hput) hpid rfl).mpr
        (Or.inr invalid_ge)) trivial
    · rw [if_neg hkick, if_neg hkick]
      by_cases hold : c.basis c.snapshot < c.oldest
      · rw [if_pos hold, if_pos (Or.inl hold), cloneEnd_error]
        exact bailout_finished hc hput hpid rfl
      · have hcheck : c.basis c.snapshot < c.oldest ∨ c.recheck.check ≠ none ↔
            c.recheck.check ≠ none := or_iff_right hold
        rw [if_neg hold, if_congr hcheck rfl rfl]
        exact cloneEnd_regular hc hpid hput rfl rfl hp' howner

/-! ## 8. A writer is the source -/

-- `ro_seize` leaves the flags and all of the slot but the snapshot
theorem seizeLoop_some (n i : Nat) (txn : Txn) (s : Slot) : ∃ t,
    seizeLoop c i ⟨txn, some s⟩ n = ((seized c i txn.txnid n).1,
      ⟨{ txn with txnid := (seized c i txn.txnid n).2 }, some { s with txnid := t }⟩) ∧
    ((seized c i txn.txnid n).1 = none → t = (seized c i txn.txnid n).2) := by
  induction n generalizing i txn s with
  | zero => exact ⟨s.txnid, rfl, fun h => nomatch h⟩
  | succ n ih =>
    unfold seizeLoop seized
    dsimp only [Clone.setTxnid, Option.map_some]
    cases (c.rounds i).err with
    | some e => exact ⟨_, rfl, fun h => nomatch h⟩
    | none =>
      dsimp only
      by_cases hretry : (c.rounds i).shouldRetry = true
      · rw [if_pos hretry, if_pos hretry]
        exact ih (i + 1) txn { s with txnid := (c.rounds i).head }
      · rw [if_neg hretry, if_neg hretry]
        have hnext := ih (i + 1) { txn with txnid := (c.rounds i).head }
        cases (c.rounds i).fetchErr with
        | some e => exact ⟨_, rfl, fun h => nomatch h⟩
        | none =>
          dsimp only
          by_cases hagain : (c.rounds i).fetchAgain = true
          · rw [if_pos hagain, if_pos hagain]
            exact hnext { s with txnid := (c.rounds i).head }
          · rw [if_neg hagain, if_neg hagain]
            by_cases hold : (c.rounds i).head < (c.rounds i).oldest
            · rw [if_pos hold, if_pos hold]
              by_cases hstuck : c.stuckMeta = true
              · rw [if_pos hstuck, if_pos hstuck]
                exact ⟨_, rfl, fun h => nomatch h⟩
              · rw [if_neg hstuck, if_neg hstuck]
                exact hnext { s with txnid := (c.rounds i).head }
            · rw [if_neg hold, if_neg hold]
              by_cases hkick : (c.rounds i).kicked = true ∧ (c.rounds i).head ≠ safe64Invalid
              · rw [if_pos hkick, if_pos ⟨Option.some_ne_none _, hkick⟩]
                exact hnext { s with txnid := safe64Invalid }
              · rw [if_neg hkick, if_neg fun h => hkick h.2]
                exact ⟨_, rfl, fun _ => rfl⟩

theorem seizeLoop_none (n i : Nat) (txn : Txn) :
    (seizeLoop c i ⟨txn, none⟩ n).2.slot = none := by
  induction n generalizing i txn with
  | zero => rfl
  | succ n ih =>
    have hnext := fun txn => ih (i + 1) txn
    unfold seizeLoop
    dsimp only [Clone.setTxnid, Option.map_none]
    cases (c.rounds i).err with
    | some e => rfl
    | none =>
      cases (c.rounds i).fetchErr with
      | some e =>
        dsimp only
        split_ifs
        · exact hnext _
        · rfl
      | none =>
        dsimp only
        split_ifs
        all_goals first | exact hnext _ | rfl

theorem writer_safe_iff (hc : c.registeredPid = c.currentPid) (hpid : s.pid = c.registeredPid)
    (hs : k.slot = some s) (hv : safe64InvalidThreshold ≤ s.txnid)
    (hp : c.flags.parked = false) :
    (cloneEnd c (roSeize c (fill c k))).Safe ↔
      c.tapErr ≠ none ∨ c.KeptWriter (seized c 0 (c.basis c.snapshot) 42) := by
  have hslot : (fill c k).slot = some s := hs
  have howner : (fill c k).txn.owner = s.tid := by
    change (k.slot.map Slot.tid).getD k.txn.owner = s.tid
    rw [hs]
    rfl
  unfold roSeize
  cases c.tapErr with
  | some e =>
    refine iff_of_true ?_ (Or.inl fun h => nomatch h)
    exact (bailout_finished hc hslot hpid rfl).mpr (Or.inr hv)
  | none =>
    have hbegun : ({ fill c k with txn := { (fill c k).txn with finished := false } } : Clone) =
        ⟨(fill c k).begun.txn, some s⟩ := by
      rw [← hslot]
      rfl
    have ⟨t, heq, ht⟩ := seizeLoop_some (c := c) 42 0 (fill c k).begun.txn s
    dsimp only
    rw [hbegun, heq]
    have htxnid : (fill c k).begun.txn.txnid = c.basis c.snapshot := rfl
    rw [htxnid] at ht ⊢
    let z := seized c 0 (c.basis c.snapshot) 42
    have hend := cloneEnd_active (k := ⟨{ (fill c k).begun.txn with txnid := z.2 },
      some { s with txnid := t }⟩) z.1 hc hpid ⟨t, rfl, ht⟩ rfl rfl hp howner
    exact hend.trans ⟨Or.inr, fun h => h.resolve_left fun h => h rfl⟩

/-! ## 9. The whole call -/

theorem publish_none (hs : k.slot = none) : (publish c k).2.slot = none := by
  have hput := fun t => setTxnid_none t hs
  unfold publish
  dsimp only
  split_ifs
  all_goals first | exact hput _ | exact setTxnid_none _ (hput _)

theorem slotFor_own {slot : Option Slot} (hok : c.Ok) (h : c.slotFor slot = some s) :
    s.pid = c.registeredPid := by
  cases slot with
  | some s₀ =>
    simp only [Call.slotFor] at h
    split_ifs at h with hpid
    exact Option.some.inj h ▸ hpid
  | none =>
    simp only [Call.slotFor] at h
    split_ifs at h
    exact (hok.bound s h).1

theorem slotFor_vacant {slot : Option Slot} (hok : c.Ok) (hv : Vacant slot)
    (h : c.slotFor slot = some s) : safe64InvalidThreshold ≤ s.txnid := by
  cases slot with
  | some s₀ =>
    simp only [Call.slotFor] at h
    split_ifs at h
    exact hv s h
  | none =>
    simp only [Call.slotFor] at h
    split_ifs at h
    exact (hok.bound s h).2

theorem roSlotGet_some {txn : Txn} {slot : Option Slot} (h : c.slotFor slot = some s) :
    roSlotGet c ⟨txn, slot⟩ = (none, ⟨txn, some s⟩) := by
  unfold roSlotGet
  cases slot with
  | some s₀ =>
    simp only [Call.slotFor] at h
    split_ifs at h with hpid
    rw [← Option.some.inj h]
    exact congrArg (·, _) (roSlotCheckpid_own hpid)
  | none =>
    simp only [Call.slotFor] at h
    split_ifs at h with hnone
    rw [hnone, ← h]

-- no slot to be had: an error, or the exclusive mode
theorem roSlotGet_none (txn : Txn) {slot : Option Slot} (hok : c.Ok) (hv : Vacant slot)
    (h : c.slotFor slot = none) :
    ∃ rc slot', roSlotGet c ⟨txn, slot⟩ = (rc, ⟨txn, slot'⟩) ∧ Vacant slot' ∧
      (rc = none → slot' = none) := by
  unfold roSlotGet
  cases slot with
  | some s₀ =>
    simp only [Call.slotFor] at h
    split_ifs at h with hpid
    exact ⟨_, _, congrArg (·, _) (roSlotCheckpid_other hok.pid hpid), hv, fun h => nomatch h⟩
  | none =>
    simp only [Call.slotFor] at h
    cases halloc : c.allocErr with
    | some e => exact ⟨some e, none, rfl, hv, fun h => (nomatch h)⟩
    | none =>
      rw [if_pos halloc] at h
      exact ⟨none, c.bound, rfl, h ▸ hv, fun _ => h⟩

theorem roSeize_none (hs : k.slot = none) : (roSeize c k).2.slot = none := by
  unfold roSeize
  cases c.tapErr with
  | some e => exact hs
  | none =>
    dsimp only
    rw [hs]
    exact seizeLoop_none 42 0 _

-- a clone whose slot is empty gets ready or gives up
theorem cloneReady_safe_iff {txn : Txn} {slot : Option Slot} (hok : c.Ok)
    (hf : txn.finished = true) (hv : Vacant slot) :
    (cloneReady c ⟨txn, slot⟩).Safe ↔ (c.slotFor slot ≠ none → c.Startable → c.Kept) := by
  rw [cloneReady_eq]
  unfold txnRoClone
  cases hget : c.slotFor slot with
  | none =>
    have ⟨rc, slot', heq, hv', hnone⟩ := roSlotGet_none txn hok hv hget
    refine iff_of_true ?_ fun h => absurd rfl h
    rw [heq]
    cases rc with
    | some e => exact bailout_vacant hok.pid hf hv'
    | none =>
      have hslot : (⟨txn, slot'⟩ : Clone).slot = none := hnone rfl
      have hfill : (fill c ⟨txn, slot'⟩).slot = none := hslot
      dsimp only
      split_ifs
      · exact bailout_none hok.pid hslot
      · exact bailout_none hok.pid hfill
      · exact cloneEnd_none hok.pid (publish_none hfill)
      · exact cloneEnd_none hok.pid (roSeize_none hfill)
  | some s =>
    have hpid := slotFor_own hok hget
    have hvacant : safe64InvalidThreshold ≤ s.txnid := slotFor_vacant hok hv hget
    have hv' : Vacant (some s) := fun _ heq => Option.some.inj heq ▸ hvacant
    rw [roSlotGet_some hget]
    dsimp only
    have hstart : c.Startable ↔ ¬ (c.state.finished = true ∨ c.state.txnid < minTxnid ∨
        maxTxnid < c.state.txnid) := by
      unfold Call.Startable
      rw [not_or, not_or, Bool.not_eq_true, Nat.not_lt, Nat.not_lt]
    by_cases hno : c.state.finished = true ∨ c.state.txnid < minTxnid ∨ maxTxnid < c.state.txnid
    · rw [if_pos hno]
      exact iff_of_true (bailout_vacant hok.pid hf hv') fun _ h => absurd hno (hstart.mp h)
    · rw [if_neg hno]
      have hgo : (some s ≠ none → c.Startable → c.Kept) ↔ c.Kept :=
        ⟨fun h => h (Option.some_ne_none s) (hstart.mpr hno), fun h _ _ => h⟩
      rw [hgo]
      unfold Call.Kept
      by_cases hflat : c.roFlat = true
      · rw [if_pos hflat, if_pos hflat]
        by_cases hover : c.overlapping = true
        · rw [if_pos hover]
          unfold Call.KeptReader
          rw [if_pos hover]
          exact iff_of_true (bailout_vacant hok.pid rfl hv') trivial
        · rw [if_neg hover]
          exact reader_safe_iff hok.pid hpid rfl (Bool.not_eq_true _ ▸ hover)
      · rw [if_neg hflat, if_neg hflat]
        exact writer_safe_iff hok.pid hpid rfl hvacant (hok.writer (Bool.not_eq_true _ ▸ hflat))

-- the cleaning keeps the owner of the slot
theorem roSlotClean_pid {out : Option Err × Clone} (hout : roSlotClean c o k = some out) :
    out.2.slot.map Slot.pid = k.slot.map Slot.pid := by
  unfold roSlotClean at hout
  cases hk : k.slot with
  | none =>
    rw [hk] at hout
    rw [← Option.some.inj hout, hk]
  | some s =>
    have hput := setTxnid_slot safe64Invalid hk
    rw [hk] at hout
    cases hcheck : roSlotCheckpid c s with
    | some e =>
      simp only [hcheck] at hout
      rw [← Option.some.inj hout, hk]
    | none =>
      simp only [hcheck] at hout
      split_ifs at hout
      · rw [← Option.some.inj hout, hk]
      · rw [← Option.some.inj hout]
        rfl
      · rw [← Option.some.inj hout]
        show Option.map Slot.pid (k.setTxnid safe64Invalid).slot = _
        rw [hput]
        rfl

-- and fails for another owner only
theorem roSlotClean_err {out : Option Err × Clone} (hout : roSlotClean c o k = some out)
    (herr : out.1 ≠ none) : c.slotFor k.slot = none := by
  unfold roSlotClean at hout
  cases hk : k.slot with
  | none =>
    rw [hk] at hout
    exact absurd (congrArg Prod.fst (Option.some.inj hout)).symm herr
  | some s =>
    rw [hk] at hout
    by_cases hpid : s.pid = c.registeredPid
    · simp only [roSlotCheckpid_own hpid] at hout
      split_ifs at hout
      all_goals exact absurd (congrArg Prod.fst (Option.some.inj hout)).symm herr
    · exact if_neg hpid

theorem slotFor_congr {slot slot' : Option Slot} (h : slot'.map Slot.pid = slot.map Slot.pid) :
    c.slotFor slot' = none ↔ c.slotFor slot = none := by
  cases slot with
  | none =>
    cases slot' with
    | none => rfl
    | some s' => exact nomatch h
  | some s =>
    cases slot' with
    | none => exact nomatch h
    | some s' =>
      have hpid : s'.pid = s.pid := Option.some.inj h
      simp only [Call.slotFor, hpid]
      split_ifs
      · exact iff_of_false (fun h => nomatch h) (fun h => nomatch h)
      · rfl

theorem Handle.clean {txn : Txn} {slot : Option Slot} (hc : c.registeredPid = c.currentPid)
    (h : Handle c txn slot) (hf : txn.finished = false) :
    (roSlotClean c c.oldestFirst ⟨txn, slot⟩).isSome = true := by
  cases hs : slot with
  | none => exact clean_none rfl
  | some s =>
    by_cases hpid : s.pid = c.registeredPid
    · by_cases hp : txn.parked = true
      · exact clean_parked rfl hpid hf hp
      · have hp := Bool.not_eq_true _ ▸ hp
        exact (clean_active rfl hpid hf hp).mpr (h.oldest hf hp)
    · exact clean_other hc rfl hpid

theorem Handle.reset {txn : Txn} {slot : Option Slot} (hc : c.registeredPid = c.currentPid)
    (h : Handle c txn slot) (hf : txn.finished = false) : ∃ rc txn' slot',
    txnRoReset c c.oldestFirst ⟨txn, slot⟩ = some (rc, ⟨txn', slot'⟩) ∧ txn'.finished = true ∧
      Vacant slot' ∧ (c.slotFor slot' = none ↔ c.slotFor slot = none) ∧
      (rc ≠ none → c.slotFor slot = none) := by
  have ⟨out, hout⟩ := Option.isSome_iff_exists.mp (h.clean hc hf)
  have hreset : txnRoReset c c.oldestFirst ⟨txn, slot⟩ = some (out.1, { out.2 with
      txn := { out.2.txn with finished := true, owner := 0, txnid := invalidTxnid } }) := by
    unfold txnRoReset
    rw [hout]
    rfl
  have howned : Clone.Owned c ⟨txn, slot⟩ := h.pid
  exact ⟨_, _, _, hreset, rfl, roSlotClean_vacant hc howned hout,
    slotFor_congr (roSlotClean_pid hout), roSlotClean_err hout⟩

-- a call that fails before the clone is ready
theorem not_ready (hflat : ∀ txn slot, c.handle = some (txn, slot) → txn.roFlat = true)
    (hno : ¬ (c.Ready ∧ c.slot ≠ none)) : c.Meets :=
  ⟨hflat, fun hr hs => absurd ⟨hr, hs⟩ hno⟩

theorem vacant_none : Vacant none := fun _ hs => nomatch hs

-- the clone is allocated by the call
theorem clone_new (hok : c.Ok) (hh : c.handle = none) : (mdbxTxnClone c).Safe ↔ c.Meets := by
  have hflat : ∀ txn slot, c.handle = some (txn, slot) → txn.roFlat = true := fun _ _ h =>
    nomatch hh.symm.trans h
  have hslot : c.slot = c.slotFor none := by
    unfold Call.slot
    rw [hh]
    rfl
  have hready : c.Ready ↔ c.before = none ∧ c.allocated = true ∧ c.again = none := by
    unfold Call.Ready
    rw [hh]
  unfold mdbxTxnClone
  rw [hh]
  dsimp only
  cases hb : c.before with
  | some e =>
    have hno : ¬ c.before = none := by
      rw [hb]
      exact Option.some_ne_none e
    exact iff_of_true vacant_none (not_ready hflat fun h => hno h.1.1)
  | none =>
    dsimp only
    by_cases halloc : c.allocated = true
    · rw [if_neg (not_not.mpr halloc)]
      cases ha : c.again with
      | some e =>
        have hno : ¬ c.again = none := by
          rw [ha]
          exact Option.some_ne_none e
        exact iff_of_true (bailout_none hok.pid rfl)
          (not_ready hflat fun h => hno (hready.mp h.1).2.2)
      | none =>
        refine (cloneReady_safe_iff hok rfl vacant_none).trans ?_
        rw [← hslot]
        exact ⟨fun h => ⟨hflat, fun _ => h⟩, fun h => h.2 (hready.mpr ⟨hb, halloc, ha⟩)⟩
    · rw [if_pos halloc]
      exact iff_of_true vacant_none (not_ready hflat fun h => halloc (hready.mp h.1).2.1)

-- the clone is a handle of the caller
theorem clone_handle {txn : Txn} {slot : Option Slot} (hok : c.Ok)
    (hh : c.handle = some (txn, slot)) (hroFlat : txn.roFlat = true) :
    (mdbxTxnClone c).Safe ↔ c.Meets := by
  have hflat : ∀ txn slot, c.handle = some (txn, slot) → txn.roFlat = true := by
    intro txn' slot' h
    rw [← (Prod.mk.inj (Option.some.inj (hh.symm.trans h))).1]
    exact hroFlat
  have hslot : c.slot = c.slotFor slot := by
    unfold Call.slot
    rw [hh]
    rfl
  have hready : c.Ready ↔ c.before = none ∧ (txn.finished = false → c.again = none) := by
    unfold Call.Ready
    rw [hh]
  have handle := hok.handle txn slot hh hroFlat
  unfold mdbxTxnClone
  rw [hh]
  dsimp only
  cases hb : c.before with
  | some e =>
    have hno : ¬ c.before = none := by
      rw [hb]
      exact Option.some_ne_none e
    dsimp only
    rw [if_pos hroFlat]
    exact iff_of_true (bailout_handle hok.pid handle) (not_ready hflat fun h => hno h.1.1)
  | none =>
    dsimp only
    rw [if_neg (not_not.mpr hroFlat)]
    by_cases hf : txn.finished = true
    · have hgo : c.Ready := hready.mpr ⟨hb, fun h => absurd (hf.symm.trans h) (by decide)⟩
      rw [if_pos hf]
      refine (cloneReady_safe_iff hok hf (handle.finished hf)).trans ?_
      rw [← hslot]
      exact ⟨fun h => ⟨hflat, fun _ => h⟩, fun h => h.2 hgo⟩
    · have hact := Bool.not_eq_true _ ▸ hf
      have ⟨rc, txn', slot', hreset, hf', hv', hsame, herr⟩ := handle.reset hok.pid hact
      rw [if_neg hf, hreset]
      cases rc with
      | some e =>
        have hnone := herr (Option.some_ne_none e)
        exact iff_of_true (bailout_vacant hok.pid hf' hv')
          (not_ready hflat fun h => h.2 (hslot.trans hnone))
      | none =>
        dsimp only
        cases ha : c.again with
        | some e =>
          have hno : ¬ c.again = none := by
            rw [ha]
            exact Option.some_ne_none e
          exact iff_of_true (bailout_vacant hok.pid hf' hv')
            (not_ready hflat fun h => hno ((hready.mp h.1).2 hact))
        | none =>
          refine (cloneReady_safe_iff hok hf' hv').trans ?_
          rw [ne_eq, hsame, ← hslot]
          exact ⟨fun h => ⟨hflat, fun _ => h⟩, fun h => h.2 (hready.mpr ⟨hb, fun _ => ha⟩)⟩

/-- A clone is safe exactly when `Call.Meets` says so. -/
theorem clone_safe_iff (c : Call) (hok : c.Ok) : (mdbxTxnClone c).Safe ↔ c.Meets := by
  cases hh : c.handle with
  | none => exact clone_new hok hh
  | some p =>
    have ⟨txn, slot⟩ := p
    by_cases hroFlat : txn.roFlat = true
    · exact clone_handle hok hh hroFlat
    · -- a writer's handle goes the way of a reader's
      refine iff_of_false (fun hsafe => ?_) fun h => hroFlat (h.1 txn slot hh)
      unfold mdbxTxnClone at hsafe
      rw [hh] at hsafe
      cases hb : c.before with
      | some e =>
        simp only [hb, if_neg hroFlat] at hsafe
        exact hsafe
      | none =>
        simp only [hb, if_pos hroFlat] at hsafe
        exact hsafe

/-! ## 10. Two clones -/

/-- A reader of the snapshot 40 which nobody disturbs, cloned for the thread 3. -/
def callSample (parked : Bool) : Call :=
  let source : Source := {
    err := none, finished := false, dirty := false, parked := parked, autounpark := false
    txnid := 40 }
  let round : Round := {
    head := 41, err := none, shouldRetry := false, fetchErr := none, fetchAgain := false
    oldest := 39, kicked := false }
  { roFlat := true
    handle := none
    allocated := true
    before := none
    again := none
    oldestFirst := 39
    txnid := 40
    allocErr := none
    bound := some { pid := 7, tid := 3, txnid := safe64Invalid }
    registeredPid := 7
    currentPid := 7
    state := source
    flags := source
    snapshot := source
    overlapping := false
    kicked := false
    oldest := 39
    tapErr := none
    stuckMeta := false
    rounds := fun _ => round
    recheck := source
    last := source
    kickedLate := false
    oldestLate := 39 }

theorem callSample_ok (parked : Bool) : (callSample parked).Ok where
  pid := rfl
  bound := fun _ hs => Option.some.inj hs ▸ ⟨rfl, invalid_ge⟩
  handle := fun _ _ h => nomatch h
  writer := fun h => nomatch h

theorem clone_safe_sample : mdbxTxnClone (callSample false) = .success {
      txn := { newTxn with finished := false, owner := 3, txnid := 40 }
      slot := some { pid := 7, tid := 3, txnid := 40 } } ∧
    (callSample false).Meets :=
  ⟨rfl, (clone_safe_iff _ (callSample_ok false)).mp fun _ hs =>
    Option.some.inj hs ▸ ⟨rfl, by decide, rfl⟩⟩

/-- The snapshot of a parked source goes astray: the mark of a parked slot is stored for it. -/
theorem clone_parked_unprotected : (callSample true).Ok ∧ ∃ k s,
    mdbxTxnClone (callSample true) = .success k ∧ k.txn.txnid = 40 ∧ k.slot = some s ∧
      s.txnid = mdbxTidTxnParked ∧ s.tid = 3 ∧ ¬ (mdbxTxnClone (callSample true)).Safe :=
  ⟨callSample_ok true, _, _, rfl, rfl, rfl, rfl, rfl, fun h =>
    absurd (h _ rfl).1 (by decide : mdbxTidTxnParked ≠ 40)⟩

end Mdbx.Parking
