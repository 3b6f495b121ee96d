import Mdbx.Commit.Sync

/-!
# Commit.Runs — the commit protocol over whole runs

A run is any sequence of spills, commits, syncs and changes of the geometry.  A crash may come after
any event of its log.
-/

namespace Mdbx.Commit

open WriteLog

/-! ## 1. Runs -/

/-- What a transaction promises: it writes no page of the head's snapshot, and its own snapshot has
pages of that and pages that it has written. -/
def Legal (st : State) : Op → Prop
  | .spill pages reached _ => ∀ p ∈ pages ++ reached, p ∉ st.head.trees.pages
  | .commit _ c => st.head.txnid < c.commitTxnid ∧
      (∀ p ∈ c.dirty ++ c.reached, p ∉ st.head.trees.pages) ∧
      ∀ p ∈ c.trees.pages, p ∈ st.head.trees.pages ∨ p ∈ c.dirty ++ st.written
  | _ => True

/-- The state in which `txn_basal_commit` calls `dxb_sync_locked`. -/
def sent (e : Env) (st : State) (c : CommitArgs) : State :=
  txnWrite e (syncPrevMeta e st) c (needFlushForNometasync e st)

/-- No call of the step skips the sync of the data while the newest steady meta waits for one. -/
def CarefulOp (e : Env) (st : State) : Op → Prop
  | .commit io c => Careful e (sent e st c) io { c.flags with shrinkAllowed := true } c.meta
  | .resync io flags => Careful e st io flags st.head
  | .setGeometry io flags geometry => Careful e st io flags
      { st.head with txnid := txnidNext st.head.txnid, geometry := geometry }
  | _ => True

/-- An environment after `env_open`. -/
def start (init : Nat → Meta) (discardedTail : Nat) : State where
  log := []
  shadow := init
  troika := metaTapShadow init
  unsyncedPages := 0
  metaSyncTxnid := (init (metaTapShadow init).recent).txnid % 2 ^ 32
  discardedTail := discardedTail
  written := []
  fatal := false
  panicked := false

/-- The states of the runs whose steps all satisfy `ok`. -/
inductive Run (e : Env) (init : Nat → Meta) (ok : State → Op → Prop) : State → Prop where
  | start (discardedTail : Nat) : Run e init ok (start init discardedTail)
  | step {st : State} (op : Op) : Run e init ok st → Legal st op → ok st op →
      Run e init ok (step e st op)

variable {e : Env} {init : Nat → Meta} {st : State}

theorem start_inv (hlive : ∃ k < 3, minTxnid ≤ (init k).txnid) (discardedTail : Nat) :
    Inv e init (start init discardedTail) where
  shown := fun _ hn => if_pos hn
  troika := rfl
  live := by
    obtain ⟨k, hk, hle⟩ := hlive
    exact Nat.le_trans hle ((metaTapShadow_spec init).newest k hk).1
  clean := fun _ _ _ => rfl
  steadyHead := fun _ _ _ => rfl
  counted := fun _ => Nat.le_refl 0
  through := fun _ => rfl
  newest := fun n rest h => by cases h
  bound := by
    intro k m hw hs
    rcases hw with hw | hw
    · change (if k < 3 then some (init k) else none) = some m at hw
      by_cases hk : k < 3
      · rw [if_pos hk] at hw
        rw [← Option.some.inj hw] at hs ⊢
        exact ⟨k, hk, hs, Nat.le_refl _⟩
      · rw [if_neg hk] at hw
        cases hw
    · obtain ⟨_, hmem⟩ := hw
      cases hmem

theorem start_sound (c : Prop) (discardedTail : Nat) :
    Always (Sound c init) (start init discardedTail).log := by
  refine ⟨trivial, fun _ j m hd hs => ?_⟩
  change (if j < 3 then some (init j) else none) = some m at hd
  by_cases hj : j < 3
  · rw [if_pos hj] at hd
    exact ⟨j, hj, rfl, m, (if_pos hj).trans hd, hs, Nat.le_refl _⟩
  · rw [if_neg hj] at hd
    cases hd

/-! ## 2. One step -/

theorem Outcome.sync {c : Prop} (h : Inv e init st) (hcalm : st.panicked = false)
    (hsound : Always (Sound c init) st.log) : Outcome c e init (metaSync st) where
  sound := ⟨⟨trivial, fun _ => h.bounded.kept⟩, hsound⟩
  calm := hcalm
  inv := by
    intro _
    have hs := h.sync
    exact ⟨hs.shown, hs.troika, hs.live, hs.clean, hs.steadyHead, hs.counted, hs.through, hs.newest,
      hs.bound⟩

theorem Outcome.abandon {c : Prop} (h : Inv e init st) (hcalm : st.panicked = false)
    (hsound : Always (Sound c init) st.log) {reached : List Nat}
    (havoid : ∀ p ∈ reached, p ∉ st.head.trees.pages) : Outcome c e init (abandon st reached) where
  sound := hsound.writePages (fun _ p v through h => h.page p v through) reached false
  calm := hcalm
  inv := fun _ => h.abandon reached havoid

theorem syncPrevMeta_outcome {c : Prop} (h : Inv e init st) (hcalm : st.panicked = false)
    (hsound : Always (Sound c init) st.log) : Outcome c e init (syncPrevMeta e st) := by
  unfold syncPrevMeta
  split
  · exact Outcome.sync h hcalm hsound
  · exact ⟨hsound, hcalm, fun _ => h⟩

theorem syncPrevMeta_same (e : Env) (st : State) :
    (syncPrevMeta e st).head = st.head ∧ (syncPrevMeta e st).written = st.written ∧
      (syncPrevMeta e st).fatal = st.fatal := by
  unfold syncPrevMeta
  split
  · exact ⟨rfl, rfl, rfl⟩
  · exact ⟨rfl, rfl, rfl⟩

theorem Outcome.forget {c : Prop} (h : Outcome c e init st) :
    Outcome c e init { st with written := [] } where
  sound := h.sound
  calm := h.calm
  inv := fun hf => (h.inv hf).forget

theorem commit_outcome {c : Prop} (h : Inv e init st) (hcalm : st.panicked = false)
    (hfine : st.fatal = false) (hsound : Always (Sound c init) st.log) {io : Outside}
    {args : CommitArgs} (hlegal : Legal st (.commit io args)) (hcore : c → e.incore = false)
    (hcare : c → CarefulOp e st (.commit io args)) :
    Outcome c e init (txnBasalCommit e st io args) := by
  have hpre := syncPrevMeta_outcome h hcalm hsound
  obtain ⟨hhead, hwritten, hfatal⟩ := syncPrevMeta_same e st
  have hinv := hpre.inv (hfatal.trans hfine)
  obtain ⟨hnewer, havoid, hpages⟩ := hlegal
  have hdirty : ∀ p ∈ args.dirty, p ∉ (syncPrevMeta e st).head.trees.pages := by
    intro p hp
    rw [hhead]
    exact havoid p (List.mem_append_left _ hp)
  unfold txnBasalCommit
  simp only
  split
  · exact Outcome.forget ⟨hsound, hcalm, fun _ => h⟩
  · split
    · exact hpre.forget
    · split
      · exact hpre.forget
      · split
        · apply Outcome.abandon hinv hpre.calm hpre.sound
          intro p hp
          rw [hhead]
          exact havoid p (List.mem_append_right _ hp)
        · -- the pages are written and counted, then the meta is
          have hsent : Inv e init (sent e st args) := hinv.send args.dirty _ hdirty
          have hok : PendingOk (sent e st args) args.meta := by
            refine ⟨Or.inl ?_, ?_, fun hs => ?_⟩
            · change (syncPrevMeta e st).head.txnid < args.commitTxnid
              rw [hhead]
              exact hnewer
            · intro x hx
              change x ∈ (syncPrevMeta e st).head.trees.pages ∨
                x ∈ args.dirty ++ (syncPrevMeta e st).written
              rw [hhead, hwritten]
              exact hpages x hx
            · exact absurd hs (by simp [Meta.isSteady, CommitArgs.meta, signNone])
          have hdone := dxbSyncLocked_outcome hsent hpre.calm
            (hpre.sound.writePages (fun _ p v through h => h.page p v through) args.dirty _) hok hcore
            hcare
          have hforgot := hdone.forget
          refine ⟨hforgot.sound, hforgot.calm, fun hf => ?_⟩
          have hf' := hforgot.inv (Bool.or_eq_false_iff.mp hf).1
          exact ⟨hf'.shown, hf'.troika, hf'.live, hf'.clean, hf'.steadyHead, hf'.counted, hf'.through,
            hf'.newest, hf'.bound⟩

theorem head_pendingOk (st : State) : PendingOk st st.head :=
  ⟨Or.inr rfl, fun _ hx => Or.inl hx, fun hs => ⟨hs, rfl⟩⟩

theorem step_outcome {c : Prop} (h : Outcome c e init st) {op : Op} (hlegal : Legal st op)
    (hcore : c → e.incore = false) (hcare : c → CarefulOp e st op) :
    Outcome c e init (step e st op) := by
  unfold step
  by_cases hstop : st.fatal = true ∨ st.panicked = true
  · rw [if_pos hstop]
    exact h
  · rw [if_neg hstop]
    simp only [not_or, Bool.not_eq_true] at hstop
    have hinv := h.inv hstop.1
    cases op with
    | spill pages reached ok =>
      simp only
      split
      · refine ⟨h.sound.writePages (fun _ p v through h => h.page p v through) pages false, h.calm,
          fun _ => ?_⟩
        exact hinv.send pages false fun p hp => hlegal p (List.mem_append_left _ hp)
      · exact Outcome.abandon hinv h.calm h.sound fun p hp => hlegal p (List.mem_append_right _ hp)
    | abort => exact h.forget
    | commit io args => exact commit_outcome hinv h.calm hstop.1 h.sound hlegal hcore hcare
    | resync io flags =>
      exact dxbSyncLocked_outcome hinv h.calm h.sound (head_pendingOk st) hcore hcare
    | metaSync ok =>
      simp only
      split
      · exact Outcome.sync hinv h.calm h.sound
      · exact h
    | setGeometry io flags geometry =>
      simp only
      split
      · exact h
      · apply dxbSyncLocked_outcome hinv h.calm h.sound _ hcore hcare
        exact (head_pendingOk st).shrunk rfl rfl (Nat.lt_succ_self _)

theorem run_outcome (c : Prop) (hlive : ∃ k < 3, minTxnid ≤ (init k).txnid)
    {ok : State → Op → Prop} (hcore : c → e.incore = false)
    (hcare : c → ∀ st op, ok st op → CarefulOp e st op) (hrun : Run e init ok st) :
    Outcome c e init st := by
  induction hrun with
  | start d => exact ⟨start_sound c d, rfl, fun _ => start_inv hlive d⟩
  | step op _ hlegal hok ih => exact step_outcome ih hlegal hcore fun hc => hcare hc _ _ hok

/-! ## 3. The protocol -/

/-- The snapshot of a meta has been synced: at the beginning, or before a write of the meta. -/
def WasSynced (init : Nat → Meta) (log : Log Cell Content) (m : Meta) : Prop :=
  (∃ n < 3, init n = m) ∨
    ∃ n through rest, .write (.slot n) (some m) through :: rest <:+ log ∧ SnapshotSynced rest m

theorem wasSynced_of_written {log : Log Cell Content} (h : Always (SafeAt init) log) {k : Nat}
    {m : Meta} (hw : Written (initial init) (.slot k) (some m) log) (hs : m.isSteady = true) :
    WasSynced init log m := by
  induction log with
  | nil =>
    rcases hw with hw | hw
    · change (if k < 3 then some (init k) else none) = some m at hw
      by_cases hk : k < 3
      · rw [if_pos hk] at hw
        exact Or.inl ⟨k, hk, Option.some.inj hw⟩
      · rw [if_neg hk] at hw
        cases hw
    · obtain ⟨_, hmem⟩ := hw
      cases hmem
  | cons ev log ih =>
    have hlater : WasSynced init log m → WasSynced init (ev :: log) m := by
      intro h'
      rcases h' with h' | h'
      · exact Or.inl h'
      · obtain ⟨n, through, rest, hsuf, hsync⟩ := h'
        exact Or.inr ⟨n, through, rest, hsuf.trans (List.suffix_cons _ _), hsync⟩
    cases ev with
    | sync => exact hlater (ih h.2 hw.of_sync)
    | write cell v through =>
      rcases hw.of_write with hold | hnew
      · exact hlater (ih h.2 hold)
      · obtain ⟨rfl, rfl⟩ := hnew
        obtain ⟨m', hm', hok⟩ := h.1
        rw [← Option.some.inj hm'] at hok
        -- a meta that is put back has been written before
        rcases hok.steady hs with hsync | hold
        · exact Or.inr ⟨k, through, log, List.suffix_refl _, hsync⟩
        · exact hlater (ih h.2 hold)

theorem Always.mono {P Q : Log Cell Content → Prop} (hPQ : ∀ log, P log → Q log)
    {log : Log Cell Content} (h : Always P log) : Always Q log := by
  induction log with
  | nil => exact hPQ _ h
  | cons ev log ih => exact ⟨hPQ _ h.1, ih h.2⟩

theorem Always.of_suffix {P : Log Cell Content → Prop} {log log' : Log Cell Content}
    (h : Always P log) (hs : log' <:+ log) : Always P log' := by
  induction log with
  | nil =>
    rw [List.suffix_nil.mp hs]
    exact h
  | cons ev log ih =>
    rcases List.suffix_cons_iff.mp hs with heq | hs
    · rw [heq]
      exact h
    · exact ih h.2 hs

/-- In every run and at every moment of it: no `ENSURE` fails, each write of a meta page is in order,
and each steady meta that a crash leaves is one whose snapshot was synced.  In a run that does not
skip a sync while its newest steady meta waits for one, a crash leaves a steady meta that is at least
as new as any that has been synced. -/
theorem commit_protocol (e : Env) (init : Nat → Meta) (hlive : ∃ k < 3, minTxnid ≤ (init k).txnid) :
    (∀ st, Run e init (fun _ _ => True) st → st.panicked = false ∧ ∀ log, log <:+ st.log →
      (∀ n m through rest, log = .write (.slot n) (some m) through :: rest →
        MetaWrite init rest n m) ∧
      ∀ keep n m, disk (initial init) keep false log (.slot n) = some m → m.isSteady = true →
        WasSynced init log m) ∧
    (e.incore = false → ∀ st, Run e init (CarefulOp e) st → ∀ log, log <:+ st.log →
      ∀ keep j m, Durable (initial init) (.slot j) (some m) log → m.snapSteady = true →
        ∃ k < 3, ∃ m', disk (initial init) keep false log (.slot k) = some m' ∧
          m'.snapSteady = true ∧ m.txnid ≤ m'.txnid) := by
  constructor
  · intro st hrun
    have hout := run_outcome False hlive False.elim False.elim hrun
    refine ⟨hout.calm, fun log hsuf => ?_⟩
    have hsafe : Always (SafeAt init) log :=
      (hout.sound.mono fun _ h => h.1).of_suffix hsuf
    constructor
    · intro n m through rest heq
      subst heq
      obtain ⟨m', hm', hok⟩ := hsafe.now
      rw [← Option.some.inj hm'] at hok
      exact hok
    · intro keep n m hdisk hs
      have hw := @written_disk _ _ (initial init) _ keep false log (.slot n)
      rw [hdisk] at hw
      exact wasSynced_of_written hsafe hw hs
  · intro hcore st hrun log hsuf keep j m hd hs
    have hout := run_outcome True hlive (fun _ => hcore) (fun _ _ _ h => h) hrun
    obtain ⟨k, hb⟩ := (hout.sound.suffix hsuf).2 trivial j m hd hs
    obtain ⟨m', hreplay, hs', hle⟩ := hb.newer
    refine ⟨k, hb.slot, m', ?_, hs', hle⟩
    rw [disk_of_settled keep hb.settled]
    exact hreplay

/-! ## 4. Samples -/

/-- A file after `mdbx_env_open` has created it. -/
def sampleInit (k : Nat) : Meta := ⟨k + 1, signSteady, ⟨3, 100, 100, 3, 0, 0⟩, ⟨0, []⟩, 0⟩

/-- Meta pages are written through the descriptor of the data. -/
def sampleEnv : Env := ⟨false, false, false, true, 2, 0, 1000, 1⟩

def sampleOutside : Outside := ⟨false, 16, true, true, true, true, true, true, true⟩

/-- A commit of two new pages. -/
def sampleCommit (txnid page : Nat) (safeNosync nometasync : Bool) : CommitArgs :=
  ⟨⟨safeNosync, nometasync, true⟩, false, [page, page + 1], 2, txnid, ⟨3, 100, 100, page + 2, 0, 0⟩,
    ⟨1, [page, page + 1]⟩, 0, true, true, true, []⟩

/-- A commit with `MDBX_NOMETASYNC`. -/
def lazyState : State :=
  step sampleEnv (start sampleInit 0) (.commit sampleOutside (sampleCommit 4 3 false true))

/-- Two more, now with `MDBX_SAFE_NOSYNC`. -/
def nosyncState : State :=
  step sampleEnv (step sampleEnv lazyState (.commit sampleOutside (sampleCommit 5 5 true true)))
    (.commit sampleOutside (sampleCommit 6 7 true true))

theorem lazyState_run {ok : State → Op → Prop}
    (h : ok (start sampleInit 0) (.commit sampleOutside (sampleCommit 4 3 false true))) :
    Run sampleEnv sampleInit ok lazyState := by
  refine Run.step _ (Run.start 0) ⟨?_, ?_, ?_⟩ h
  · decide
  · decide
  · decide

theorem nosyncState_run : Run sampleEnv sampleInit (fun _ _ => True) nosyncState := by
  refine Run.step _ (Run.step _ (lazyState_run trivial) ⟨?_, ?_, ?_⟩ trivial) ⟨?_, ?_, ?_⟩ trivial
  all_goals decide

theorem commit_protocol_lazy :
    ∃ k < 3, ∃ m', disk (initial sampleInit) (fun _ => false) false lazyState.log (.slot k) = some m' ∧
      m'.snapSteady = true ∧ 3 ≤ m'.txnid := by
  have hcare : CarefulOp sampleEnv (start sampleInit 0)
      (.commit sampleOutside (sampleCommit 4 3 false true)) := by
    intro f p shrink d hgo hsafe
    injection hgo with hf _ _ _
    rw [← hf] at hsafe
    cases hsafe
  exact (commit_protocol sampleEnv sampleInit ⟨0, by decide, by decide⟩).2 rfl lazyState
    (lazyState_run hcare) lazyState.log (List.suffix_refl _) (fun _ => false) 2 (sampleInit 2)
    (Or.inl (Or.inl rfl)) rfl

/-- The meta of transaction 4 is the fourth event of the log. -/
def dropFourth (i : Nat) : Bool := i ≠ 3

/-- A steady meta that has not been synced is lost in a crash; and after two commits without a sync
a synced one is lost with it. -/
theorem crash_loses_steady :
    (Run sampleEnv sampleInit (fun _ _ => True) lazyState ∧
      (lazyState.shadow 0).snapSteady = true ∧ (lazyState.shadow 0).txnid = 4 ∧
      ∀ k < 3, ∀ m ∈ disk (initial sampleInit) (fun _ => false) false lazyState.log (.slot k),
        m.snapSteady = true → m.txnid < 4) ∧
    Run sampleEnv sampleInit (fun _ _ => True) nosyncState ∧
      (sampleInit 2).snapSteady = true ∧ (sampleInit 2).txnid = 3 ∧
      Durable (initial sampleInit) (.slot 2) (some (sampleInit 2)) nosyncState.log ∧
      ∀ k < 3, ∀ m ∈ disk (initial sampleInit) dropFourth false nosyncState.log (.slot k),
        m.snapSteady = true → m.txnid < 3 := by
  refine ⟨⟨lazyState_run trivial, by decide, by decide, by decide⟩, nosyncState_run, by decide,
    by decide, ?_, by decide⟩
  exact Or.inl (Or.inl (Or.inl (Or.inl (Or.inl (Or.inl (Or.inl (Or.inl rfl)))))))

end Mdbx.Commit
