import Mdbx.Commit.Safe
import Mathlib.Logic.Function.Basic

/-!
# Commit.Wipe — `meta_wipe_steady`

Steady signs are taken off the metas one after another, when nothing that they protect is wanted any
more.  A wipe writes the sign alone; the rest of the meta stays as it is in the file.
-/

namespace Mdbx.Commit

open WriteLog

/-! ## 1. Definitions -/

def resultFalse : Int := 0
def resultTrue : Int := -1
/-- `MDBX_SUCCESS` -/
def success : Int := resultFalse

/-- `MDBX_IS_ERROR` -/
def isError (rc : Int) : Bool := rc ≠ resultTrue ∧ rc ≠ resultFalse

/-- A code that is an error. -/
structure Err where
  code : Int
  isError : isError code = true

/-- `MDBX_EINVAL` -/
def einval : Err := ⟨22, rfl⟩

/-- What the outside gives to one wipe. -/
structure WipeIo where
  -- making the description of the write
  prepare : Option Err
  write : Option Err
  -- a failed write has changed the file nevertheless
  reached : Bool

structure WipesIo where
  wipe : Nat → WipeIo
  sync : Option Err
  tap : Option Err

variable (init : Nat → Meta) (e : Env) (st : State) (inclusiveUpto : Nat) (io : WipesIo)

/-- The log with the sign of the meta page wiped. -/
def wipeSign (pgno : Nat) : Log Cell Content :=
  .write (.slot pgno) (some { metas init st.log pgno with sign := signNone }) e.metaThrough :: st.log

/-- `meta_unsteady` -/
def metaUnsteady (pgno : Nat) : State × Int :=
  if 3 ≤ pgno then (st, einval.code)
  else if ¬(st.shadow pgno).isSteady ∨ inclusiveUpto < (st.shadow pgno).txnid then (st, resultFalse)
  else match (io.wipe pgno).prepare with
  | some err => (st, err.code)
  | none => match (io.wipe pgno).write with
    | some err =>
      (if (io.wipe pgno).reached then { st with log := wipeSign init e st pgno } else st, err.code)
    -- `meta_shadow_copy_write`
    | none => ({ st with
        log := wipeSign init e st pgno
        shadow := Function.update st.shadow pgno
          { st.shadow pgno with sign := signNone } }, resultTrue)

/-- `meta_shadow_tap` -/
def metaShadowTap : State :=
  { st with shadow := metas init st.log, troika := metaTapShadow (metas init st.log) }

/-- A call's end: its state and its code, and whether it has issued the sync. -/
structure Wiped where
  state : State
  rc : Int
  synced : Bool

/-- `dxb_storage_meta_write_uses_data_sync`, and the sync. -/
def wipeSync : Wiped :=
  if e.metaThrough then ⟨st, success, false⟩
  else match io.sync with
  | some err => ⟨st, err.code, true⟩
  | none => ⟨{ st with log := .sync :: st.log }, success, true⟩

/-- A wipe that is made unless an earlier one has failed. -/
def thenUnsteady (r : State × Int) (pgno : Nat) : State × Int :=
  if isError r.2 then r else metaUnsteady init e r.1 inclusiveUpto io pgno

/-- The three wipes. -/
def wipes : State × Int :=
  thenUnsteady init e inclusiveUpto io
    (thenUnsteady init e inclusiveUpto io (metaUnsteady init e st inclusiveUpto io 0) 1) 2

/-- What stands when the metas are read again. -/
def wipeAndSync : Wiped :=
  let r := wipes init e st inclusiveUpto io
  if r.2 = resultTrue then wipeSync e r.1 io else ⟨r.1, r.2, false⟩

/-- `meta_wipe_steady`, without the flag that makes readers look for the oldest snapshot again -/
def metaWipeSteady : Wiped :=
  let w := wipeAndSync init e st inclusiveUpto io
  match io.tap with
  | some err => { w with rc := if isError w.rc then w.rc else err.code }
  | none => { w with state := metaShadowTap init w.state }

/-! ## 2. The three steps -/

/-- What the wipes before `k` have come to. -/
def after : Nat → State × Int
  | 0 => (st, resultFalse)
  | k + 1 => thenUnsteady init e inclusiveUpto io (after k) k

/-- The outcome of the wipe `k`, if it is made. -/
def outcome (k : Nat) : Option Int :=
  if isError (after init e st inclusiveUpto io k).2 then none
  else some (metaUnsteady init e (after init e st inclusiveUpto io k).1 inclusiveUpto io k).2

variable {init e st inclusiveUpto io}

theorem wipes_eq : wipes init e st inclusiveUpto io = after init e st inclusiveUpto io 3 := rfl

theorem after_succ {k : Nat} (h : isError (after init e st inclusiveUpto io k).2 = false) :
    after init e st inclusiveUpto io (k + 1) =
      metaUnsteady init e (after init e st inclusiveUpto io k).1 inclusiveUpto io k := by
  show thenUnsteady init e inclusiveUpto io (after init e st inclusiveUpto io k) k = _
  unfold thenUnsteady
  rw [if_neg (by rw [h]; exact Bool.false_ne_true)]

theorem after_failed {k : Nat} (h : isError (after init e st inclusiveUpto io k).2 = true) :
    after init e st inclusiveUpto io (k + 1) = after init e st inclusiveUpto io k := by
  show thenUnsteady init e inclusiveUpto io (after init e st inclusiveUpto io k) k = _
  unfold thenUnsteady
  rw [if_pos h]

-- an error stays to the end
theorem after_error {j k : Nat} (hjk : j ≤ k)
    (h : isError (after init e st inclusiveUpto io j).2 = true) :
    isError (after init e st inclusiveUpto io k).2 = true := by
  induction hjk with
  | refl => exact h
  | step _ ih =>
    rw [after_failed ih]
    exact ih

theorem outcome_some {k : Nat} {rc : Int} (h : outcome init e st inclusiveUpto io k = some rc) :
    (after init e st inclusiveUpto io (k + 1)).2 = rc := by
  unfold outcome at h
  by_cases hk : isError (after init e st inclusiveUpto io k).2 = true
  · rw [if_pos hk] at h
    cases h
  · rw [if_neg hk] at h
    rw [after_succ (by simpa using hk)]
    exact Option.some.inj h

theorem metas_wipeSign {pgno n : Nat} : metas init (wipeSign init e st pgno) n =
    if n = pgno then { metas init st.log pgno with sign := signNone } else metas init st.log n := by
  unfold metas wipeSign
  by_cases h : n = pgno
  · rw [if_pos h, h, replay_self]
    rfl
  · have hne : Cell.slot n ≠ Cell.slot pgno := fun heq => h (Cell.slot.inj heq)
    rw [if_neg h, replay_of_ne hne]

variable (init e st inclusiveUpto io) in
/-- What a wipe can do. -/
theorem metaUnsteady_cases {pgno : Nat} (hlt : pgno < 3) :
    let r := metaUnsteady init e st inclusiveUpto io pgno
    let wanted := (st.shadow pgno).isSteady = true ∧ (st.shadow pgno).txnid ≤ inclusiveUpto
    (¬wanted ∧ r = (st, resultFalse)) ∨
    (wanted ∧ isError r.2 = true ∧ (r.1 = st ∨ r.1 = { st with log := wipeSign init e st pgno })) ∨
    (wanted ∧ r = ({ st with
      log := wipeSign init e st pgno
      shadow := Function.update st.shadow pgno { st.shadow pgno with sign := signNone } },
      resultTrue)) := by
  have hguard : ¬3 ≤ pgno := Nat.not_le.mpr hlt
  dsimp only
  unfold metaUnsteady
  rw [if_neg hguard]
  by_cases hkeep : ¬(st.shadow pgno).isSteady ∨ inclusiveUpto < (st.shadow pgno).txnid
  · rw [if_pos hkeep]
    refine Or.inl ⟨fun h => ?_, rfl⟩
    rcases hkeep with hweak | habove
    · exact hweak h.1
    · exact Nat.not_lt.mpr h.2 habove
  · have hwanted : (st.shadow pgno).isSteady = true ∧ (st.shadow pgno).txnid ≤ inclusiveUpto := by
      rw [not_or, not_not, Nat.not_lt] at hkeep
      exact hkeep
    rw [if_neg hkeep]
    refine Or.inr ?_
    cases (io.wipe pgno).prepare with
    | some err => exact Or.inl ⟨hwanted, err.isError, Or.inl rfl⟩
    | none =>
      cases (io.wipe pgno).write with
      | none => exact Or.inr ⟨hwanted, rfl⟩
      | some err =>
        refine Or.inl ⟨hwanted, err.isError, ?_⟩
        dsimp only
        cases (io.wipe pgno).reached with
        | true => exact Or.inr rfl
        | false => exact Or.inl rfl

/-! ## 3. What the wipes leave in the file -/

/-- After the wipes before `k`: a meta above the limit is as it was, and unless one has failed the
shadow is that of the file and no meta before `k` is steady below the limit. -/
structure WipedTo (init : Nat → Meta) (st : State) (inclusiveUpto k : Nat) (r : State × Int) :
    Prop where
  kept : ∀ n < 3, inclusiveUpto < (st.shadow n).txnid → metas init r.1.log n = st.shadow n
  txnid : ∀ n < 3, (r.1.shadow n).txnid = (st.shadow n).txnid
  shown : isError r.2 = false → ∀ n < 3, metas init r.1.log n = r.1.shadow n
  gone : isError r.2 = false → ∀ n < k, (r.1.shadow n).isSteady = true →
    inclusiveUpto < (r.1.shadow n).txnid

theorem WipedTo.step {r : State × Int} {k : Nat} (h : WipedTo init st inclusiveUpto k r)
    (hok : isError r.2 = false) (hk : k < 3) :
    WipedTo init st inclusiveUpto (k + 1) (metaUnsteady init e r.1 inclusiveUpto io k) := by
  -- no meta above the limit is overwritten
  have hkept : (r.1.shadow k).txnid ≤ inclusiveUpto → ∀ n < 3,
      inclusiveUpto < (st.shadow n).txnid → metas init (wipeSign init e r.1 k) n = st.shadow n := by
    intro hle n hn habove
    have hne : n ≠ k := by
      intro heq
      rw [← h.txnid n hn, heq] at habove
      exact Nat.not_lt.mpr hle habove
    rw [metas_wipeSign, if_neg hne]
    exact h.kept n hn habove
  rcases metaUnsteady_cases init e r.1 inclusiveUpto io hk with hno | hfail | hwiped
  · rw [hno.2]
    refine ⟨h.kept, h.txnid, fun _ => h.shown hok, fun _ n hn hs => ?_⟩
    rcases Nat.lt_succ_iff_lt_or_eq.mp hn with hlt | heq
    · exact h.gone hok n hlt hs
    · rw [heq] at hs ⊢
      exact Nat.lt_of_not_le fun hle => hno.1 ⟨hs, hle⟩
  · have herr : ∀ {p : Prop}, isError (metaUnsteady init e r.1 inclusiveUpto io k).2 = false → p := by
      intro p hcontra
      rw [hfail.2.1] at hcontra
      cases hcontra
    refine ⟨fun n hn habove => ?_, fun n hn => ?_, fun h => herr h, fun h => herr h⟩
    · rcases hfail.2.2 with heq | heq
      · rw [heq]
        exact h.kept n hn habove
      · rw [heq]
        exact hkept hfail.1.2 n hn habove
    · rcases hfail.2.2 with heq | heq
      · rw [heq]
        exact h.txnid n hn
      · rw [heq]
        exact h.txnid n hn
  · have hshadow : ∀ n, (Function.update r.1.shadow k
        { r.1.shadow k with sign := signNone } n).txnid = (r.1.shadow n).txnid := by
      intro n
      by_cases hn : n = k
      · rw [hn, Function.update_self]
      · rw [Function.update_of_ne hn]
    rw [hwiped.2]
    refine ⟨hkept hwiped.1.2, fun n hn => ?_, fun _ n hn => ?_, fun _ n hn hs => ?_⟩
    · exact (hshadow n).trans (h.txnid n hn)
    · show metas init (wipeSign init e r.1 k) n = Function.update r.1.shadow k _ n
      rw [metas_wipeSign]
      by_cases heq : n = k
      · rw [if_pos heq, heq, Function.update_self, h.shown hok k hk]
      · rw [if_neg heq, Function.update_of_ne heq]
        exact h.shown hok n hn
    · show inclusiveUpto < (Function.update r.1.shadow k _ n).txnid
      rw [hshadow]
      change (Function.update r.1.shadow k _ n).isSteady = true at hs
      by_cases heq : n = k
      · rw [heq, Function.update_self] at hs
        exact absurd hs Bool.false_ne_true
      · rw [Function.update_of_ne heq] at hs
        exact h.gone hok n (by omega) hs

theorem wipedTo_after (hshown : ∀ n < 3, metas init st.log n = st.shadow n) {k : Nat} (hk : k ≤ 3) :
    WipedTo init st inclusiveUpto k (after init e st inclusiveUpto io k) := by
  induction k with
  | zero =>
    exact ⟨fun n hn _ => hshown n hn, fun _ _ => rfl, fun _ => hshown,
      fun _ n hn => absurd hn (Nat.not_lt_zero n)⟩
  | succ k ih =>
    have h := ih (Nat.le_of_succ_le hk)
    cases hfail : isError (after init e st inclusiveUpto io k).2 with
    | true =>
      rw [after_failed hfail]
      refine ⟨h.kept, h.txnid, h.shown, fun hok => ?_⟩
      rw [hfail] at hok
      cases hok
    | false =>
      rw [after_succ hfail]
      exact h.step hfail hk

/-! ## 4. What the call reports -/

theorem metas_wipeSync (n : Nat) : metas init (wipeSync e st io).state.log n = metas init st.log n := by
  unfold wipeSync
  by_cases hthrough : e.metaThrough = true
  · rw [if_pos hthrough]
  · rw [if_neg hthrough]
    cases io.sync with
    | some err => rfl
    | none => rfl

theorem wipeSync_error (hsynced : (wipeSync e st io).synced = true) (h : io.sync ≠ none) :
    isError (wipeSync e st io).rc = true := by
  unfold wipeSync at hsynced ⊢
  by_cases hthrough : e.metaThrough = true
  · rw [if_pos hthrough] at hsynced
    cases hsynced
  · rw [if_neg hthrough]
    cases hsync : io.sync with
    | some err => exact err.isError
    | none => exact absurd hsync h

theorem wipeSync_log (h : isError (wipeSync e st io).rc = false)
    (hsynced : (wipeSync e st io).synced = true) :
    (wipeSync e st io).state.log = .sync :: st.log := by
  unfold wipeSync at h hsynced ⊢
  by_cases hthrough : e.metaThrough = true
  · rw [if_pos hthrough] at hsynced
    cases hsynced
  · rw [if_neg hthrough] at h ⊢
    cases hsync : io.sync with
    | some err =>
      rw [hsync] at h
      exact absurd (h.symm.trans err.isError) Bool.false_ne_true
    | none => rfl

-- reading the metas again changes nothing in the file
theorem metaWipeSteady_log : (metaWipeSteady init e st inclusiveUpto io).state.log =
    (wipeAndSync init e st inclusiveUpto io).state.log := by
  unfold metaWipeSteady
  cases io.tap with
  | some err => rfl
  | none => rfl

theorem metaWipeSteady_synced : (metaWipeSteady init e st inclusiveUpto io).synced =
    (wipeAndSync init e st inclusiveUpto io).synced := by
  unfold metaWipeSteady
  cases io.tap with
  | some err => rfl
  | none => rfl

theorem metaWipeSteady_error (h : isError (wipeAndSync init e st inclusiveUpto io).rc = true) :
    isError (metaWipeSteady init e st inclusiveUpto io).rc = true := by
  unfold metaWipeSteady
  cases io.tap with
  | some err =>
    dsimp only
    rw [if_pos h]
    exact h
  | none => exact h

-- the wipes and the sync have gone well
theorem not_error_of_success (h : (metaWipeSteady init e st inclusiveUpto io).rc = success) :
    isError (wipeAndSync init e st inclusiveUpto io).rc = false := by
  apply Bool.eq_false_of_not_eq_true
  intro herr
  have hrc := metaWipeSteady_error herr
  rw [h] at hrc
  cases hrc

theorem wipeAndSync_of_error (h : isError (wipes init e st inclusiveUpto io).2 = true) :
    wipeAndSync init e st inclusiveUpto io =
      ⟨(wipes init e st inclusiveUpto io).1, (wipes init e st inclusiveUpto io).2, false⟩ := by
  unfold wipeAndSync
  refine if_neg fun heq => ?_
  rw [heq] at h
  cases h

-- a sync that is issued comes after a last wipe that has changed its meta
theorem wipeAndSync_of_synced (h : (wipeAndSync init e st inclusiveUpto io).synced = true) :
    wipeAndSync init e st inclusiveUpto io = wipeSync e (wipes init e st inclusiveUpto io).1 io := by
  unfold wipeAndSync at h ⊢
  by_cases htrue : (wipes init e st inclusiveUpto io).2 = resultTrue
  · exact if_pos htrue
  · rw [if_neg htrue] at h
    cases h

theorem metas_wipeAndSync (n : Nat) :
    metas init (wipeAndSync init e st inclusiveUpto io).state.log n =
      metas init (wipes init e st inclusiveUpto io).1.log n := by
  unfold wipeAndSync
  dsimp only
  split_ifs
  · exact metas_wipeSync n
  · rfl

variable (init e st inclusiveUpto io)

/-- Every wipe is reported and synced, and success means that no meta above the limit is steady. -/
structure WipesReported : Prop where
  synced : (∃ k < 3, outcome init e st inclusiveUpto io k = some resultTrue) →
    (metaWipeSteady init e st inclusiveUpto io).synced = true
  wipeFailed : ∀ k < 3, ∀ rc, outcome init e st inclusiveUpto io k = some rc → isError rc = true →
    isError (metaWipeSteady init e st inclusiveUpto io).rc = true
  syncFailed : (metaWipeSteady init e st inclusiveUpto io).synced = true → io.sync ≠ none →
    isError (metaWipeSteady init e st inclusiveUpto io).rc = true
  gone : (metaWipeSteady init e st inclusiveUpto io).rc = success → ∀ n < 3,
    ¬((metas init (metaWipeSteady init e st inclusiveUpto io).state.log n).isSteady = true ∧
      inclusiveUpto < (metas init (metaWipeSteady init e st inclusiveUpto io).state.log n).txnid)

/-- What the call does for any metas: the limit is the newest txnid that is wiped, and after a
synced success the metas are the same after any crash. -/
structure WipesAccounted : Prop where
  synced : e.metaThrough = false → outcome init e st inclusiveUpto io 2 = some resultTrue →
    (metaWipeSteady init e st inclusiveUpto io).synced = true
  wipeFailed : ∀ k < 3, ∀ rc, outcome init e st inclusiveUpto io k = some rc → isError rc = true →
    isError (metaWipeSteady init e st inclusiveUpto io).rc = true
  syncFailed : (metaWipeSteady init e st inclusiveUpto io).synced = true → io.sync ≠ none →
    isError (metaWipeSteady init e st inclusiveUpto io).rc = true
  gone : (metaWipeSteady init e st inclusiveUpto io).rc = success → ∀ n < 3,
    ¬((metas init (metaWipeSteady init e st inclusiveUpto io).state.log n).isSteady = true ∧
      (metas init (metaWipeSteady init e st inclusiveUpto io).state.log n).txnid ≤ inclusiveUpto)
  kept : ∀ n < 3, inclusiveUpto < (st.shadow n).txnid →
    metas init (metaWipeSteady init e st inclusiveUpto io).state.log n = st.shadow n
  durable : (metaWipeSteady init e st inclusiveUpto io).rc = success →
    (metaWipeSteady init e st inclusiveUpto io).synced = true → ∀ keep n,
    disk (initial init) keep false (metaWipeSteady init e st inclusiveUpto io).state.log (.slot n) =
      replay (initial init) (metaWipeSteady init e st inclusiveUpto io).state.log (.slot n)

theorem meta_wipe_steady_accounted (hshown : ∀ n < 3, metas init st.log n = st.shadow n) :
    WipesAccounted init e st inclusiveUpto io := by
  have hall : WipedTo init st inclusiveUpto 3 (wipes init e st inclusiveUpto io) := by
    rw [wipes_eq]
    exact wipedTo_after hshown le_rfl
  constructor
  · intro hthrough houtcome
    have htrue : (wipes init e st inclusiveUpto io).2 = resultTrue := outcome_some houtcome
    rw [metaWipeSteady_synced]
    unfold wipeAndSync
    rw [if_pos htrue]
    unfold wipeSync
    rw [if_neg (by rw [hthrough]; exact Bool.false_ne_true)]
    cases io.sync with
    | some err => rfl
    | none => rfl
  · intro k hk rc houtcome herr
    have hfail : isError (wipes init e st inclusiveUpto io).2 = true := by
      rw [wipes_eq]
      apply after_error hk
      rw [outcome_some houtcome]
      exact herr
    apply metaWipeSteady_error
    rw [wipeAndSync_of_error hfail]
    exact hfail
  · intro hsynced hsync
    rw [metaWipeSteady_synced] at hsynced
    have heq := wipeAndSync_of_synced hsynced
    apply metaWipeSteady_error
    rw [heq] at hsynced ⊢
    exact wipeSync_error hsynced hsync
  · intro hrc n hn hsteady
    have hok : isError (wipes init e st inclusiveUpto io).2 = false := by
      apply Bool.eq_false_of_not_eq_true
      intro hfail
      have herr := not_error_of_success hrc
      rw [wipeAndSync_of_error hfail] at herr
      rw [hfail] at herr
      cases herr
    rw [metaWipeSteady_log, metas_wipeAndSync, hall.shown hok n hn] at hsteady
    exact Nat.not_lt.mpr hsteady.2 (hall.gone hok n hn hsteady.1)
  · intro n hn habove
    rw [metaWipeSteady_log, metas_wipeAndSync]
    exact hall.kept n hn habove
  · intro hrc hsynced keep n
    have hok := not_error_of_success hrc
    rw [metaWipeSteady_synced] at hsynced
    have hsync := wipeAndSync_of_synced hsynced
    rw [hsync] at hok hsynced
    rw [metaWipeSteady_log, hsync, wipeSync_log hok hsynced]
    exact disk_synced keep _ _

/-- Two steady metas around a weak one. -/
def steadyPair : Nat → Meta :=
  three ⟨5, signSteady, default, default, 0⟩ ⟨6, signWeak, default, default, 0⟩
    ⟨9, signSteady, default, default, 0⟩

def oneDescriptor : Env := ⟨false, false, false, false, 0, 0, 0, 1⟩

def wiper : State := ⟨[], steadyPair, metaTapShadow steadyPair, 0, 0, 0, [], false, false⟩

def wellIo : WipesIo := ⟨fun _ => ⟨none, none, false⟩, none, none⟩

theorem meta_wipe_steady_accounted_pair :
    (metaWipeSteady steadyPair oneDescriptor wiper 9 wellIo).synced = true ∧
      WipesAccounted steadyPair oneDescriptor wiper 9 wellIo :=
  ⟨by decide, meta_wipe_steady_accounted steadyPair oneDescriptor wiper 9 wellIo (by decide)⟩

/-- A steady meta above the limit 5, and one at it. -/
def steadyAbove : Nat → Meta :=
  three ⟨9, signSteady, default, default, 0⟩ ⟨6, signWeak, default, default, 0⟩
    ⟨5, signSteady, default, default, 0⟩

def keeper : State := ⟨[], steadyAbove, metaTapShadow steadyAbove, 0, 0, 0, [], false, false⟩

/-- The meta at the limit is wiped and synced, and the one above it stays steady. -/
theorem above_limit_stays_steady :
    outcome steadyAbove oneDescriptor keeper 5 wellIo 2 = some resultTrue ∧
    (metaWipeSteady steadyAbove oneDescriptor keeper 5 wellIo).synced = true ∧
    (metaWipeSteady steadyAbove oneDescriptor keeper 5 wellIo).rc = success ∧
    ¬WipesReported steadyAbove oneDescriptor keeper 5 wellIo := by
  have hrc : (metaWipeSteady steadyAbove oneDescriptor keeper 5 wellIo).rc = success := by decide
  refine ⟨by decide, by decide, hrc, fun h => h.gone hrc 0 (by decide) ?_⟩
  exact ⟨by decide, by decide⟩

-- the first meta is wiped and nothing is synced, as the other two have nothing to wipe
example : outcome steadyPair oneDescriptor wiper 5 wellIo 0 = some resultTrue ∧
    (metaWipeSteady steadyPair oneDescriptor wiper 5 wellIo).synced = false ∧
    (metaWipeSteady steadyPair oneDescriptor wiper 5 wellIo).rc = success := by
  decide

end Mdbx.Commit
