import Mdbx.Basic

/-!
# Parking.Unpark — unparking a read transaction while its slot is ousted

`txn_ro_unpark` and the reset it falls back to, one atomic load, store or compare-and-swap at a time,
against a writer that ousts the slot or resets it on behalf of the handler of slow readers.  Regular
mode with a reader table and 64-bit compare-and-swap.
-/

namespace Mdbx.Parking

/-! ## 1. State -/

def safe64InvalidThreshold : Nat := 0xffffffff00000000
def safe64Invalid : Nat := uint64Max
def mdbxTidTxnOusted : Nat := uint64Max - 1
def mdbxTidTxnParked : Nat := uint64Max

inductive Code where
  | success
  | ousted
  | badTxn
  | problem
  | badRslot
  deriving DecidableEq

/-- `reader_slot_t` -/
structure Slot where
  pid : Nat
  tid : Nat
  txnid : Nat
  deriving DecidableEq

/-- What `MDBX_txn` holds of a read transaction; the flags one by one. -/
structure Txn where
  finished : Bool
  error : Bool
  hasChild : Bool
  parked : Bool
  autounpark : Bool
  ousted : Bool
  roFlat : Bool
  owner : Nat
  txnid : Nat
  deriving DecidableEq

/-- Where `txn_ro_unpark` is: before the step it names. -/
inductive Pc where
  | entry
  | loadPid
  | loadTid (pid : Nat)
  | loadTxnid (pid tid : Nat)
  | cas
  | againTxnid
  | againTid (txnid : Nat)
  -- `txn_ro_reset` with `ro_slot_clean`
  | checkPid
  | cleanTid
  | cleanTxnid
  | cleanOwner
  | readTxnid
  | readTid
  | endTxnid
  | returned (rc : Code)
  deriving DecidableEq

/-- What the writer still has to do to the slot. -/
inductive Writer where
  | idle
  | ousting (txnid : Nat)
  | killTid
  | killPid
  deriving DecidableEq

structure State where
  slot : Slot
  txn : Txn
  pc : Pc
  writer : Writer
  -- `env->pid`, `env->registered_reader_pid` and `osal_getpid()`
  envPid : Nat
  registeredPid : Nat
  currentPid : Nat
  deriving DecidableEq

def State.goto (s : State) (pc : Pc) : State := { s with pc := pc }

/-! ## 2. The call -/

/-- The end of `txn_ro_reset` and of `txn_ro_unpark`. -/
def resetReturns (s : State) (err : Code) : State :=
  let txn := { s.txn with finished := true, owner := 0, txnid := invalidTxnid }
  { s with
    txn := txn
    pc := .returned (if err = .success ∧ txn.ousted then .ousted else err) }

/-- The checks of one round of the loop on what it has read. -/
def judge (s : State) (pid tid txnid : Nat) : Pc :=
  if pid ≠ s.envPid then .returned .problem
  else if tid = mdbxTidTxnOusted ∨ safe64InvalidThreshold ≤ txnid then .checkPid
  else if tid ≠ mdbxTidTxnParked ∨ txnid ≠ s.txn.txnid then .checkPid
  else if s.txn.error then .checkPid
  else .cas

/-- One step of `txn_ro_unpark`. -/
def own (s : State) : Option State :=
  match s.pc with
  | .entry =>
    if s.txn.finished ∨ s.txn.hasChild ∨ ¬ s.txn.roFlat ∨ ¬ s.txn.parked then
      some (s.goto (.returned (if s.txn.ousted then .ousted else .badTxn)))
    else some (s.goto .loadPid)
  | .loadPid => some (s.goto (.loadTid s.slot.pid))
  | .loadTid pid => some (s.goto (.loadTxnid pid s.slot.tid))
  | .loadTxnid pid tid => some (s.goto (judge s pid tid s.slot.txnid))
  | .cas =>
    if s.slot.tid = mdbxTidTxnParked then
      some { s with slot := { s.slot with tid := s.txn.owner }, pc := .againTxnid }
    else some (s.goto .loadPid)
  | .againTxnid => some (s.goto (.againTid s.slot.txnid))
  | .againTid txnid =>
    if txnid ≠ s.txn.txnid ∨ s.slot.tid ≠ s.txn.owner then some (s.goto .checkPid)
    else some { s with
      txn := { s.txn with parked := false, autounpark := false }
      pc := .returned .success }
  | .checkPid =>
    if s.slot.pid = s.registeredPid then some (s.goto .cleanTid)
    -- `ro_slot_mismatch_pid`
    else if s.currentPid ≠ s.slot.pid then some (resetReturns s .badRslot)
    else some (s.goto .cleanTid)
  -- the transaction is still marked parked whenever the call comes here
  | .cleanTid => some { s with
      txn := { s.txn with
        parked := false
        ousted := s.txn.ousted || decide (s.slot.tid = mdbxTidTxnOusted) }
      pc := .cleanTxnid }
  | .cleanTxnid =>
    some { s with slot := { s.slot with txnid := safe64Invalid }, pc := .cleanOwner }
  | .cleanOwner => some { s with slot := { s.slot with tid := s.txn.owner }, pc := .readTxnid }
  | .readTxnid =>
    if s.slot.txnid < safe64InvalidThreshold then some (s.goto .cleanTxnid)
    else some (s.goto .readTid)
  | .readTid =>
    if s.slot.tid ≠ s.txn.owner then some (s.goto .cleanTxnid) else some (s.goto .endTxnid)
  | .endTxnid =>
    some (resetReturns { s with slot := { s.slot with txnid := safe64Invalid } } .success)
  | .returned _ => none

/-! ## 3. The others -/

/-- `safe64_reset_compare` -/
def resetCompare (slot : Slot) (txnid : Nat) : Slot :=
  if slot.txnid = txnid then { slot with txnid := safe64Invalid } else slot

inductive Event where
  | own
  /-- The writer tries to mark the parked slot ousted. -/
  | oust (txnid : Nat)
  /-- The slot is reset if it holds `txnid`: the handler of slow readers reports its transaction
  aborted, or a scan finds it stuck. -/
  | kick (txnid : Nat)
  /-- The handler reports the process killed. -/
  | kill
  /-- The writer goes on. -/
  | writer

def step (s : State) : Event → Option State
  | .own => own s
  | .oust txnid =>
    if s.writer ≠ .idle then none
    else if s.slot.tid = mdbxTidTxnParked then
      some { s with slot := { s.slot with tid := mdbxTidTxnOusted }, writer := .ousting txnid }
    else some s
  | .kick txnid =>
    if s.writer ≠ .idle then none else some { s with slot := resetCompare s.slot txnid }
  | .kill =>
    if s.writer ≠ .idle then none
    else some { s with slot := { s.slot with txnid := safe64Invalid }, writer := .killTid }
  | .writer => match s.writer with
    | .idle => none
    | .ousting txnid => some { s with slot := resetCompare s.slot txnid, writer := .idle }
    | .killTid =>
      some { s with slot := { s.slot with tid := mdbxTidTxnOusted }, writer := .killPid }
    | .killPid => some { s with slot := { s.slot with pid := 0 }, writer := .idle }

/-! ## 4. What is promised -/

def Active (s : State) : Prop :=
  s.txn.finished = false ∧ s.txn.parked = false ∧ s.slot.txnid = s.txn.txnid ∧
    s.slot.tid = s.txn.owner

def Over (s : State) : Prop := s.txn.finished = true ∧ safe64InvalidThreshold ≤ s.slot.txnid

/-- The code tells what became of the transaction. -/
def Truth (s : State) (rc : Code) : Prop :=
  (rc = .success ↔ Active s) ∧ (rc ≠ .success → Over s)

/-- `txn_ro_unpark` is called for a parked transaction. -/
structure Called (s : State) : Prop where
  pc : s.pc = .entry
  roFlat : s.txn.roFlat = true
  parked : s.txn.parked = true
  finished : s.txn.finished = false
  hasChild : s.txn.hasChild = false
  owner : s.txn.owner < mdbxTidTxnOusted
  txnid : s.txn.txnid < safe64InvalidThreshold
  pid : s.slot.pid = s.envPid
  registered : s.registeredPid = s.envPid

def Quiet (w : Writer) : Prop := w = .idle ∨ ∃ txnid, w = .ousting txnid

/-- The slot bears the mark of the ousting writer. -/
def Marked (s : State) : Prop :=
  s.slot.tid = mdbxTidTxnOusted ∧
    (s.slot.txnid = s.txn.txnid ∨ safe64InvalidThreshold ≤ s.slot.txnid) ∧ Quiet s.writer

/-- The slot is as `txn_ro_park` has left it, or the writer has marked it. -/
def Held (s : State) : Prop :=
  s.slot.tid = mdbxTidTxnParked ∧ s.slot.txnid = s.txn.txnid ∧ s.writer = .idle ∨ Marked s

/-- No reset but the writer's after its mark hits the slot, and the error flag is not what stops the
call. -/
def Calm (s : State) : Event → Prop
  | .own => match s.pc with
    | .loadTxnid _ tid =>
      s.txn.error = false ∨ tid = mdbxTidTxnOusted ∨ safe64InvalidThreshold ≤ s.slot.txnid
    | _ => True
  | .kick txnid => s.slot.txnid ≠ txnid
  | .kill => False
  | .oust _ | .writer => True

/-- Runs whose steps all satisfy `ok`, with the number of steps of the call. -/
inductive Run (ok : State → Event → Prop) (s₀ : State) : Nat → State → Prop where
  | start : Run ok s₀ 0 s₀
  | own {n : Nat} {s s' : State} : Run ok s₀ n s → ok s .own → own s = some s' →
      Run ok s₀ (n + 1) s'
  | other {n : Nat} {s s' : State} (e : Event) : Run ok s₀ n s → e ≠ .own → ok s e →
      step s e = some s' → Run ok s₀ n s'

/-! ## 5. The invariant -/

structure Base (s : State) : Prop where
  pid : s.slot.pid = s.envPid
  registered : s.registeredPid = s.envPid
  owner : s.txn.owner < mdbxTidTxnOusted
  txnid : s.txn.txnid < safe64InvalidThreshold
  finished : s.txn.finished = false

/-- The call has taken the slot back. -/
def Mine (s : State) : Prop :=
  s.slot.tid = s.txn.owner ∧ s.slot.txnid = s.txn.txnid ∧ s.writer = .idle

/-- The slot holds no snapshot, and `tid` is not one that the writer would mark. -/
def Cleared (s : State) : Prop :=
  s.txn.ousted = true ∧ safe64InvalidThreshold ≤ s.slot.txnid ∧ s.slot.tid ≠ mdbxTidTxnParked ∧
    Quiet s.writer

structure Done (s : State) (rc : Code) : Prop where
  truth : rc = .success ∧ Active s ∧ s.writer = .idle ∨ rc = .ousted ∧ Over s
  tid : s.slot.tid < mdbxTidTxnOusted
  quiet : Quiet s.writer

def Stage (s : State) : Prop :=
  match s.pc with
  | .entry => Base s ∧ Held s ∧ s.txn.parked = true ∧ s.txn.hasChild = false ∧ s.txn.roFlat = true
  | .loadPid | .cas => Base s ∧ Held s
  | .loadTid pid => Base s ∧ Held s ∧ pid = s.envPid
  | .loadTxnid pid tid => Base s ∧ Held s ∧ pid = s.envPid ∧
      (tid = mdbxTidTxnParked ∨ tid = mdbxTidTxnOusted ∧ Marked s)
  | .againTxnid => Base s ∧ Mine s
  | .againTid txnid => Base s ∧ Mine s ∧ txnid = s.txn.txnid
  | .checkPid | .cleanTid => Base s ∧ Marked s
  | .cleanTxnid => Base s ∧ Marked s ∧ s.txn.ousted = true
  | .cleanOwner => Base s ∧ Cleared s
  | .readTxnid | .readTid | .endTxnid => Base s ∧ Cleared s ∧ s.slot.tid = s.txn.owner
  | .returned rc => Done s rc

/-- How many steps of its own the call still takes. -/
def weight (s : State) : Nat :=
  match s.pc with
  | .entry => if s.slot.tid = mdbxTidTxnOusted then 11 else 15
  | .loadPid => if s.slot.tid = mdbxTidTxnOusted then 10 else 14
  | .loadTid _ => if s.slot.tid = mdbxTidTxnOusted then 9 else 13
  | .loadTxnid _ tid => if tid = mdbxTidTxnOusted then 8 else 12
  | .cas => 11
  | .againTxnid => 2
  | .againTid _ => 1
  | .checkPid => 7
  | .cleanTid => 6
  | .cleanTxnid => 5
  | .cleanOwner => 4
  | .readTxnid => 3
  | .readTid => 2
  | .endTxnid => 1
  | .returned _ => 0

theorem parked_ne_ousted : mdbxTidTxnParked ≠ mdbxTidTxnOusted := by decide

theorem Held.tid {s : State} (h : Held s) :
    s.slot.tid = mdbxTidTxnParked ∨ s.slot.tid = mdbxTidTxnOusted ∧ Marked s := by
  rcases h with h | h
  · exact Or.inl h.1
  · exact Or.inr ⟨h.1, h⟩

theorem Held.quiet {s : State} (h : Held s) : Quiet s.writer := by
  rcases h with h | h
  · exact Or.inl h.2.2
  · exact h.2.2

-- a slot that is not parked bears the mark
theorem Held.marked {s : State} (h : Held s) (hne : s.slot.tid ≠ mdbxTidTxnParked) : Marked s :=
  h.resolve_left fun hp => hne hp.1

/-! ## 6. Steps of the others -/

-- all that the others do to a slot
theorem other_cases {s s' : State} {e : Event} (he : e ≠ .own) (hq : Quiet s.writer)
    (hcalm : Calm s e) (hs : step s e = some s') :
    s' = s ∨
    (s.slot.tid = mdbxTidTxnParked ∧ ∃ txnid, s' = { s with
      slot := { s.slot with tid := mdbxTidTxnOusted }
      writer := .ousting txnid }) ∨
    ∃ txnid, s.writer = .ousting txnid ∧
      s' = { s with slot := resetCompare s.slot txnid, writer := .idle } := by
  cases e with
  | own => exact absurd rfl he
  | oust txnid =>
    simp only [step] at hs
    split_ifs at hs with hbusy hp
    · exact Or.inr (Or.inl ⟨hp, txnid, (Option.some.inj hs).symm⟩)
    · exact Or.inl (Option.some.inj hs).symm
  | kick txnid =>
    simp only [step] at hs
    split_ifs at hs with hbusy
    have hsame : resetCompare s.slot txnid = s.slot := if_neg hcalm
    rw [hsame] at hs
    exact Or.inl (Option.some.inj hs).symm
  | kill => exact absurd hcalm id
  | writer =>
    rcases hq with hw | ⟨txnid, hw⟩
    · simp only [step, hw] at hs
      exact nomatch hs
    · simp only [step, hw] at hs
      exact Or.inr (Or.inr ⟨txnid, hw, (Option.some.inj hs).symm⟩)

theorem resetCompare_tid (slot : Slot) (txnid : Nat) :
    (resetCompare slot txnid).tid = slot.tid := by
  unfold resetCompare
  split_ifs <;> rfl

theorem resetCompare_pid (slot : Slot) (txnid : Nat) :
    (resetCompare slot txnid).pid = slot.pid := by
  unfold resetCompare
  split_ifs <;> rfl

theorem resetCompare_txnid (slot : Slot) (txnid : Nat) :
    (resetCompare slot txnid).txnid = slot.txnid ∨
      safe64InvalidThreshold ≤ (resetCompare slot txnid).txnid := by
  unfold resetCompare
  split_ifs
  · exact Or.inr (show safe64InvalidThreshold ≤ safe64Invalid by decide)
  · exact Or.inl rfl

theorem Base.other {s s' : State} (h : Base s) (htxn : s'.txn = s.txn)
    (henv : s'.envPid = s.envPid) (hreg : s'.registeredPid = s.registeredPid)
    (hpid : s'.slot.pid = s.slot.pid) : Base s' where
  pid := by rw [hpid, henv]; exact h.pid
  registered := by rw [hreg, henv]; exact h.registered
  owner := by rw [htxn]; exact h.owner
  txnid := by rw [htxn]; exact h.txnid
  finished := by rw [htxn]; exact h.finished

/-- What a step of the writer turns a slot into. -/
structure Touched (s s' : State) : Prop where
  base : Base s → Base s'
  held : Held s → Held s'
  marked : Marked s → Marked s'
  mine : Base s → Mine s → Mine s'
  cleared : Cleared s → Cleared s'
  ended : Over s → Over s'
  quiet : Quiet s.writer → Quiet s'.writer
  active : Active s ∧ s.writer = .idle → s.slot.tid < mdbxTidTxnOusted →
    Active s' ∧ s'.writer = .idle
  tid : s.slot.tid ≠ mdbxTidTxnParked → s'.slot.tid = s.slot.tid
  ousted : s.slot.tid = mdbxTidTxnOusted → s'.slot.tid = mdbxTidTxnOusted
  txn : s'.txn = s.txn
  pc : s'.pc = s.pc
  env : s'.envPid = s.envPid

theorem Touched.refl (s : State) : Touched s s :=
  ⟨id, id, id, fun _ h => h, id, id, id, fun h _ => h, fun _ => rfl, id, rfl, rfl, rfl⟩

theorem ousts_touched {s : State} (hp : s.slot.tid = mdbxTidTxnParked) (txnid : Nat) :
    Touched s { s with
      slot := { s.slot with tid := mdbxTidTxnOusted }
      writer := .ousting txnid } where
  base := fun h => h.other rfl rfl rfl rfl
  held := fun h => Or.inr ⟨rfl, by
    rcases h with h | h
    · exact Or.inl h.2.1
    · exact absurd (hp.symm.trans h.1) parked_ne_ousted, Or.inr ⟨txnid, rfl⟩⟩
  marked := fun h => absurd (hp.symm.trans h.1) parked_ne_ousted
  mine := fun hb h => by
    have hlt := hb.owner
    rw [← h.1, hp] at hlt
    exact absurd hlt (by decide)
  cleared := fun h => absurd hp h.2.2.1
  ended := id
  quiet := fun _ => Or.inr ⟨txnid, rfl⟩
  active := fun _ hlt => by
    rw [hp] at hlt
    exact absurd hlt (by decide)
  tid := fun hne => absurd hp hne
  ousted := fun _ => rfl
  txn := rfl
  pc := rfl
  env := rfl

theorem resets_touched {s : State} {txnid : Nat} (hw : s.writer = .ousting txnid) :
    Touched s { s with slot := resetCompare s.slot txnid, writer := .idle } where
  base := fun h => h.other rfl rfl rfl (resetCompare_pid _ _)
  held := fun h => by
    rcases h with h | h
    · exact nomatch hw.symm.trans h.2.2
    · refine Or.inr ⟨(resetCompare_tid _ _).trans h.1, ?_, Or.inl rfl⟩
      rcases resetCompare_txnid s.slot txnid with heq | hle
      · exact heq.symm ▸ h.2.1
      · exact Or.inr hle
  marked := fun h => by
    refine ⟨(resetCompare_tid _ _).trans h.1, ?_, Or.inl rfl⟩
    rcases resetCompare_txnid s.slot txnid with heq | hle
    · exact heq.symm ▸ h.2.1
    · exact Or.inr hle
  mine := fun _ h => nomatch hw.symm.trans h.2.2
  cleared := fun h => by
    refine ⟨h.1, ?_, fun hp => h.2.2.1 ((resetCompare_tid _ _).symm.trans hp), Or.inl rfl⟩
    rcases resetCompare_txnid s.slot txnid with heq | hle
    · exact heq.symm ▸ h.2.1
    · exact hle
  quiet := fun _ => Or.inl rfl
  ended := fun h => by
    refine ⟨h.1, ?_⟩
    rcases resetCompare_txnid s.slot txnid with heq | hle
    · exact heq.symm ▸ h.2
    · exact hle
  active := fun h _ => nomatch hw.symm.trans h.2
  tid := fun _ => resetCompare_tid _ _
  ousted := fun h => (resetCompare_tid _ _).trans h
  txn := rfl
  pc := rfl
  env := rfl

theorem other_touched {s s' : State} {e : Event} (he : e ≠ .own) (hq : Quiet s.writer)
    (hcalm : Calm s e) (hs : step s e = some s') : Touched s s' := by
  rcases other_cases he hq hcalm hs with h | ⟨hp, txnid, h⟩ | ⟨txnid, hw, h⟩
  · exact h ▸ .refl s
  · exact h ▸ ousts_touched hp txnid
  · exact h ▸ resets_touched hw

theorem Stage.quiet {s : State} (h : Stage s) : Quiet s.writer := by
  unfold Stage at h
  cases hpc : s.pc with
  | entry | loadPid | cas | loadTid _ | loadTxnid _ _ =>
    rw [hpc] at h
    first
    | exact h.2.1.quiet
    | exact h.2.quiet
  | againTxnid =>
    rw [hpc] at h
    exact Or.inl h.2.2.2
  | againTid _ =>
    rw [hpc] at h
    exact Or.inl h.2.1.2.2
  | checkPid | cleanTid =>
    rw [hpc] at h
    exact h.2.2.2
  | cleanTxnid =>
    rw [hpc] at h
    exact h.2.1.2.2
  | cleanOwner =>
    rw [hpc] at h
    exact h.2.2.2.2
  | readTxnid | readTid | endTxnid =>
    rw [hpc] at h
    exact h.2.1.2.2.2
  | returned _ =>
    rw [hpc] at h
    exact h.quiet

theorem Touched.stage {s s' : State} (ht : Touched s s') (h : Stage s) : Stage s' := by
  unfold Stage at h ⊢
  rw [ht.pc]
  cases hpc : s.pc with
  | entry =>
    rw [hpc] at h
    have ⟨hb, hh, hrest⟩ := h
    exact ⟨ht.base hb, ht.held hh, by rw [ht.txn]; exact hrest⟩
  | loadPid | cas =>
    rw [hpc] at h
    exact ⟨ht.base h.1, ht.held h.2⟩
  | loadTid pid =>
    rw [hpc] at h
    have ⟨hb, hh, hpid⟩ := h
    exact ⟨ht.base hb, ht.held hh, by rw [ht.env]; exact hpid⟩
  | loadTxnid pid tid =>
    rw [hpc] at h
    have ⟨hb, hh, hpid, htid⟩ := h
    exact ⟨ht.base hb, ht.held hh, by rw [ht.env]; exact hpid,
      htid.imp_right fun hm => ⟨hm.1, ht.marked hm.2⟩⟩
  | againTxnid =>
    rw [hpc] at h
    exact ⟨ht.base h.1, ht.mine h.1 h.2⟩
  | againTid txnid =>
    rw [hpc] at h
    have ⟨hb, hm, heq⟩ := h
    exact ⟨ht.base hb, ht.mine hb hm, by rw [ht.txn]; exact heq⟩
  | checkPid | cleanTid =>
    rw [hpc] at h
    exact ⟨ht.base h.1, ht.marked h.2⟩
  | cleanTxnid =>
    rw [hpc] at h
    have ⟨hb, hm, ho⟩ := h
    exact ⟨ht.base hb, ht.marked hm, by rw [ht.txn]; exact ho⟩
  | cleanOwner =>
    rw [hpc] at h
    exact ⟨ht.base h.1, ht.cleared h.2⟩
  | readTxnid | readTid | endTxnid =>
    rw [hpc] at h
    have ⟨hb, hc, htid⟩ := h
    exact ⟨ht.base hb, ht.cleared hc, by rw [ht.txn, ht.tid hc.2.2.1]; exact htid⟩
  | returned rc =>
    rw [hpc] at h
    have hlt := h.tid
    have hne : s.slot.tid ≠ mdbxTidTxnParked := fun hp => by
      rw [hp] at hlt
      exact absurd hlt (by decide)
    refine ⟨?_, by rw [ht.tid hne]; exact hlt, ht.quiet h.quiet⟩
    rcases h.truth with ⟨hrc, ha⟩ | ⟨hrc, ho⟩
    · exact Or.inl ⟨hrc, ht.active ha hlt⟩
    · exact Or.inr ⟨hrc, ht.ended ho⟩

theorem Touched.weight {s s' : State} (ht : Touched s s') : weight s' ≤ weight s := by
  unfold Parking.weight
  rw [ht.pc]
  cases hpc : s.pc with
  | entry | loadPid | loadTid _ =>
    by_cases ho : s.slot.tid = mdbxTidTxnOusted
    · simp only [if_pos ho, if_pos (ht.ousted ho), Nat.le_refl]
    · simp only [if_neg ho]
      split_ifs <;> decide
  | loadTxnid pid tid => exact Nat.le_refl _
  | cas | againTxnid | againTid _ | checkPid | cleanTid | cleanTxnid | cleanOwner | readTxnid
  | readTid | endTxnid | returned _ => exact Nat.le_refl _

/-! ## 7. Steps of the call -/

theorem Base.goto {s : State} (h : Base s) (pc : Pc) : Base (s.goto pc) :=
  h.other rfl rfl rfl rfl

/-- A step of the call keeps the invariant and gets nearer to its end. -/
structure Forward (s s' : State) : Prop where
  stage : Stage s'
  weight : weight s' < weight s

theorem entry_forward {s s' : State} (hpc : s.pc = .entry) (h : Stage s)
    (hs : own s = some s') : Forward s s' := by
  unfold Stage at h
  rw [hpc] at h
  have ⟨hb, hh, hp, hc, hf⟩ := h
  simp only [own, hpc, hb.finished, hc, hf, hp] at hs
  rw [← Option.some.inj hs]
  refine ⟨⟨hb.goto _, hh⟩, ?_⟩
  by_cases ho : s.slot.tid = mdbxTidTxnOusted <;> simp [weight, State.goto, hpc, ho]

theorem loadTxnid_forward {s s' : State} {pid tid : Nat} (hpc : s.pc = .loadTxnid pid tid)
    (h : Stage s) (hcalm : Calm s .own) (hs : own s = some s') : Forward s s' := by
  unfold Stage at h
  unfold Calm at hcalm
  rw [hpc] at h hcalm
  have ⟨hb, hh, hpid, htid⟩ := h
  simp only [own, hpc] at hs
  rw [← Option.some.inj hs]
  unfold judge
  rw [if_neg (not_not.mpr hpid)]
  by_cases hstop : tid = mdbxTidTxnOusted ∨ safe64InvalidThreshold ≤ s.slot.txnid
  · rw [if_pos hstop]
    have hm : Marked s := by
      rcases hstop with ho | hi
      · rcases htid with hp | hm
        · exact absurd (hp.symm.trans ho) parked_ne_ousted
        · exact hm.2
      · refine hh.resolve_left fun hp => ?_
        have hlt := hb.txnid
        rw [hp.2.1] at hi
        omega
    refine ⟨⟨hb.goto _, hm⟩, ?_⟩
    by_cases ho : tid = mdbxTidTxnOusted <;> simp [weight, State.goto, hpc, ho]
  · have ⟨hno, hni⟩ := not_or.mp hstop
    have htidp : tid = mdbxTidTxnParked := htid.resolve_right fun hm => hno hm.1
    have heq : s.slot.txnid = s.txn.txnid := by
      rcases hh with hp | hm
      · exact hp.2.1
      · exact hm.2.1.resolve_right hni
    have herr : s.txn.error = false := hcalm.resolve_right hstop
    rw [if_neg hstop, if_neg (by rw [htidp, heq]; simp), if_neg (by rw [herr]; simp)]
    refine ⟨⟨hb.goto _, hh⟩, ?_⟩
    simp only [weight, State.goto, hpc, if_neg hno]
    decide

theorem cas_forward {s s' : State} (hpc : s.pc = .cas) (h : Stage s) (hs : own s = some s') :
    Forward s s' := by
  unfold Stage at h
  rw [hpc] at h
  have ⟨hb, hh⟩ := h
  simp only [own, hpc] at hs
  split_ifs at hs with hp
  · rw [← Option.some.inj hs]
    have hmine := hh.resolve_right fun hm => parked_ne_ousted (hp.symm.trans hm.1)
    refine ⟨⟨hb.other rfl rfl rfl rfl, rfl, hmine.2⟩, ?_⟩
    simp only [weight, hpc]
    decide
  · rw [← Option.some.inj hs]
    have hm := hh.marked hp
    refine ⟨⟨hb.goto _, hh⟩, ?_⟩
    simp [weight, State.goto, hpc, hm.1]

theorem againTid_forward {s s' : State} {txnid : Nat} (hpc : s.pc = .againTid txnid)
    (h : Stage s) (hs : own s = some s') : Forward s s' := by
  unfold Stage at h
  rw [hpc] at h
  have ⟨hb, hm, heq⟩ := h
  simp only [own, hpc] at hs
  rw [if_neg (by rw [heq, hm.1]; simp)] at hs
  rw [← Option.some.inj hs]
  refine ⟨⟨Or.inl ⟨rfl, ⟨hb.finished, rfl, hm.2.1, hm.1⟩, hm.2.2⟩, ?_, Or.inl hm.2.2⟩, ?_⟩
  · exact hm.1 ▸ hb.owner
  · simp only [weight, hpc]
    decide

theorem clean_forward {s s' : State} (hpc : s.pc = .cleanTid ∨ s.pc = .cleanTxnid ∨
    s.pc = .cleanOwner) (h : Stage s) (hs : own s = some s') : Forward s s' := by
  unfold Stage at h
  rcases hpc with hpc | hpc | hpc
  · rw [hpc] at h
    have ⟨hb, hm⟩ := h
    simp only [own, hpc] at hs
    rw [← Option.some.inj hs]
    refine ⟨⟨⟨hb.pid, hb.registered, hb.owner, hb.txnid, hb.finished⟩, hm, ?_⟩, ?_⟩
    · rw [decide_eq_true hm.1]
      exact Bool.or_true _
    · simp only [weight, hpc]
      decide
  · rw [hpc] at h
    have ⟨hb, hm, ho⟩ := h
    simp only [own, hpc] at hs
    rw [← Option.some.inj hs]
    refine ⟨⟨hb.other rfl rfl rfl rfl, ho, (by decide : safe64InvalidThreshold ≤ safe64Invalid),
      fun hp => parked_ne_ousted (hp.symm.trans hm.1), hm.2.2⟩, ?_⟩
    simp only [weight, hpc]
    decide
  · rw [hpc] at h
    have ⟨hb, ho, hi, _, hq⟩ := h
    simp only [own, hpc] at hs
    rw [← Option.some.inj hs]
    refine ⟨⟨hb.other rfl rfl rfl rfl, ⟨ho, hi, fun hp => ?_, hq⟩, rfl⟩, ?_⟩
    · have hlt := hb.owner
      rw [show s.txn.owner = mdbxTidTxnParked from hp] at hlt
      exact absurd hlt (by decide)
    · simp only [weight, hpc]
      decide

theorem cleared_forward {s s' : State} (hpc : s.pc = .readTxnid ∨ s.pc = .readTid ∨
    s.pc = .endTxnid) (h : Stage s) (hs : own s = some s') : Forward s s' := by
  unfold Stage at h
  rcases hpc with hpc | hpc | hpc
  · rw [hpc] at h
    have ⟨hb, hc, htid⟩ := h
    simp only [own, hpc] at hs
    rw [if_neg (Nat.not_lt.mpr hc.2.1)] at hs
    rw [← Option.some.inj hs]
    refine ⟨⟨hb.goto _, hc, htid⟩, ?_⟩
    simp only [weight, State.goto, hpc]
    decide
  · rw [hpc] at h
    have ⟨hb, hc, htid⟩ := h
    simp only [own, hpc] at hs
    rw [if_neg (not_not.mpr htid)] at hs
    rw [← Option.some.inj hs]
    refine ⟨⟨hb.goto _, hc, htid⟩, ?_⟩
    simp only [weight, State.goto, hpc]
    decide
  · rw [hpc] at h
    have ⟨hb, hc, htid⟩ := h
    simp only [own, hpc] at hs
    rw [← Option.some.inj hs]
    refine ⟨⟨Or.inr ⟨if_pos ⟨rfl, hc.1⟩, rfl, (by decide : safe64InvalidThreshold ≤ safe64Invalid)⟩,
      htid ▸ hb.owner, hc.2.2.2⟩, ?_⟩
    simp only [weight, resetReturns, hpc]
    decide

theorem own_forward {s s' : State} (h : Stage s) (hcalm : Calm s .own) (hs : own s = some s') :
    Forward s s' := by
  have hstage := h
  unfold Stage at h
  cases hpc : s.pc with
  | entry => exact entry_forward hpc hstage hs
  | loadPid =>
    rw [hpc] at h
    simp only [own, hpc] at hs
    rw [← Option.some.inj hs]
    refine ⟨⟨h.1.goto _, h.2, h.1.pid⟩, ?_⟩
    by_cases ho : s.slot.tid = mdbxTidTxnOusted <;> simp [weight, State.goto, hpc, ho]
  | loadTid pid =>
    rw [hpc] at h
    have ⟨hb, hh, hpid⟩ := h
    simp only [own, hpc] at hs
    rw [← Option.some.inj hs]
    refine ⟨⟨hb.goto _, hh, hpid, hh.tid⟩, ?_⟩
    by_cases ho : s.slot.tid = mdbxTidTxnOusted <;> simp [weight, State.goto, hpc, ho]
  | loadTxnid pid tid => exact loadTxnid_forward hpc hstage hcalm hs
  | cas => exact cas_forward hpc hstage hs
  | againTxnid =>
    rw [hpc] at h
    simp only [own, hpc] at hs
    rw [← Option.some.inj hs]
    refine ⟨⟨h.1.goto _, h.2, h.2.2.1⟩, ?_⟩
    simp only [weight, State.goto, hpc]
    decide
  | againTid txnid => exact againTid_forward hpc hstage hs
  | checkPid =>
    rw [hpc] at h
    simp only [own, hpc] at hs
    rw [if_pos (h.1.pid.trans h.1.registered.symm)] at hs
    rw [← Option.some.inj hs]
    refine ⟨⟨h.1.goto _, h.2⟩, ?_⟩
    simp only [weight, State.goto, hpc]
    decide
  | cleanTid => exact clean_forward (Or.inl hpc) hstage hs
  | cleanTxnid => exact clean_forward (Or.inr (Or.inl hpc)) hstage hs
  | cleanOwner => exact clean_forward (Or.inr (Or.inr hpc)) hstage hs
  | readTxnid => exact cleared_forward (Or.inl hpc) hstage hs
  | readTid => exact cleared_forward (Or.inr (Or.inl hpc)) hstage hs
  | endTxnid => exact cleared_forward (Or.inr (Or.inr hpc)) hstage hs
  | returned rc =>
    simp only [own, hpc] at hs
    exact nomatch hs

/-! ## 8. Runs -/

theorem Run.stage {s₀ s : State} {n : Nat} (hcall : Called s₀) (hheld : Held s₀)
    (h : Run Calm s₀ n s) : Stage s ∧ n + weight s ≤ 15 := by
  induction h with
  | start =>
    have hpc := hcall.pc
    constructor
    · unfold Stage
      rw [hpc]
      exact ⟨⟨hcall.pid, hcall.registered, hcall.owner, hcall.txnid, hcall.finished⟩, hheld,
        hcall.parked, hcall.hasChild, hcall.roFlat⟩
    · simp only [weight, hpc]
      split_ifs <;> decide
  | own _ hcalm hs ih =>
    have hfwd := own_forward ih.1 hcalm hs
    have hlt := hfwd.weight
    exact ⟨hfwd.stage, by omega⟩
  | other e _ he hcalm hs ih =>
    have ht := other_touched he ih.1.quiet hcalm hs
    have hle := ht.weight
    exact ⟨ht.stage ih.1, by omega⟩

theorem own_isSome (s : State) : (∃ rc, s.pc = .returned rc) ∨ (own s).isSome = true := by
  unfold own
  cases s.pc with
  | returned rc => exact Or.inl ⟨rc, rfl⟩
  | entry | loadPid | loadTid _ | loadTxnid _ _ | cas | againTxnid | againTid _ | checkPid
  | cleanTid | cleanTxnid | cleanOwner | readTxnid | readTid | endTxnid =>
    apply Or.inr
    dsimp only
    repeat' split_ifs
    all_goals rfl

theorem Done.truth_of {s : State} {rc : Code} (h : Done s rc) : Truth s rc := by
  rcases h.truth with ⟨hrc, ha, _⟩ | ⟨hrc, ho⟩
  · exact ⟨iff_of_true hrc ha, fun hne => absurd hrc hne⟩
  · refine ⟨iff_of_false (fun hs => nomatch hrc.symm.trans hs) fun ha => ?_, fun _ => ho⟩
    exact nomatch ha.1.symm.trans ho.1

/-- When nobody but the ousting writer resets the slot and the error flag does not stop the call, it
returns after at most fifteen steps of its own, and its code tells what became of the
transaction. -/
theorem unpark_tells {s₀ s : State} {n : Nat} (hcall : Called s₀) (hheld : Held s₀)
    (h : Run Calm s₀ n s) :
    n ≤ 15 ∧ ((∃ rc, s.pc = .returned rc) ∨ (own s).isSome = true) ∧
      ∀ rc, s.pc = .returned rc → Truth s rc := by
  have ⟨hstage, hle⟩ := h.stage hcall hheld
  refine ⟨by omega, own_isSome s, fun rc hrc => ?_⟩
  unfold Stage at hstage
  rw [hrc] at hstage
  exact hstage.truth_of

def parkedSample (error : Bool) : State where
  slot := ⟨7, mdbxTidTxnParked, 40⟩
  txn := ⟨false, error, false, true, false, false, true, 3, 40⟩
  pc := .entry
  writer := .idle
  envPid := 7
  registeredPid := 7
  currentPid := 7

theorem parkedSample_called (error : Bool) : Called (parkedSample error) :=
  ⟨rfl, rfl, rfl, rfl, rfl, (by decide : 3 < mdbxTidTxnOusted),
    (by decide : 40 < safe64InvalidThreshold), rfl, rfl⟩

theorem parkedSample_held (error : Bool) : Held (parkedSample error) := Or.inl ⟨rfl, rfl, rfl⟩

-- the writer marks the slot between the call's reads and its compare-and-swap
theorem unpark_tells_sample : ∃ s, Run Calm (parkedSample false) 15 s ∧
    s.pc = .returned .ousted ∧ Truth s .ousted := by
  have h : Run Calm (parkedSample false) 0 (parkedSample false) := .start
  have h := h.own trivial rfl
  have h := h.own trivial rfl
  have h := h.own trivial rfl
  have h := h.own (Or.inl rfl) rfl
  have h := h.other (.oust 40) (fun he => nomatch he) trivial rfl
  have h := h.own trivial rfl
  have h := h.other .writer (fun he => nomatch he) trivial rfl
  have h := h.own trivial rfl
  have h := h.own trivial rfl
  have h := h.own (Or.inl rfl) rfl
  have h := h.own trivial rfl
  have h := h.own trivial rfl
  have h := h.own trivial rfl
  have h := h.own trivial rfl
  have h := h.own trivial rfl
  have h := h.own trivial rfl
  have h := h.own trivial rfl
  exact ⟨_, h, rfl, (unpark_tells (parkedSample_called false) (parkedSample_held false) h).2.2 _ rfl⟩

/-- A parked transaction that was broken meanwhile: the call resets it and reports success. -/
theorem unpark_broken_succeeds : ∃ n s, Run (fun _ _ => True) (parkedSample true) n s ∧
    s.pc = .returned .success ∧ s.txn.finished = true ∧ ¬ Truth s .success := by
  have h : Run (fun _ _ => True) (parkedSample true) 0 (parkedSample true) := .start
  have h := h.own trivial rfl
  have h := h.own trivial rfl
  have h := h.own trivial rfl
  have h := h.own trivial rfl
  have h := h.own trivial rfl
  have h := h.own trivial rfl
  have h := h.own trivial rfl
  have h := h.own trivial rfl
  have h := h.own trivial rfl
  have h := h.own trivial rfl
  have h := h.own trivial rfl
  exact ⟨_, _, h, rfl, rfl, fun ht => nomatch (ht.1.mp rfl).1⟩

end Mdbx.Parking
