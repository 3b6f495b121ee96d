import Mdbx.Commit.Invariant

/-!
# Commit.Sync — a call of `dxb_sync_locked`

A call that syncs the data settles every meta page before it writes the next one.  A call that does
not needs a settled steady meta in a slot that it spares.
-/

namespace Mdbx.Commit

open WriteLog

variable {e : Env} {init : Nat → Meta} {st : State} {m : Meta} {n : Nat}

/-! ## 1. A steady meta in another slot -/

/-- The first part holds in any run, the second one where `c` does. -/
def Sound (c : Prop) (init : Nat → Meta) (log : Log Cell Content) : Prop :=
  SafeAt init log ∧ (c → Kept init log)

theorem Sound.page {c : Prop} {log : Log Cell Content} (h : Sound c init log) (p : Nat)
    (v : Content) (through : Bool) : Sound c init (.write (.page p) v through :: log) :=
  ⟨trivial, fun hc => (h.2 hc).page p v through⟩

/-- Every steady meta so far has one at least as new that a reader sees. -/
def Bounded (init : Nat → Meta) (log : Log Cell Content) : Prop :=
  ∀ k m, Written (initial init) (.slot k) (some m) log → m.snapSteady = true →
    ∃ j < 3, ∃ m', replay (initial init) log (.slot j) = some m' ∧ m'.snapSteady = true ∧
      m.txnid ≤ m'.txnid

theorem Bounded.kept {log : Log Cell Content} (h : Bounded init log) :
    Kept init (.sync :: log) := by
  intro k m hd hs
  obtain ⟨j, hj, hnewer⟩ := h k m hd hs
  exact ⟨j, hj, rfl, hnewer⟩

theorem Inv.bounded (h : Inv e init st) : Bounded init st.log := by
  intro k m hw hs
  obtain ⟨j, hj, hjs, hle⟩ := h.bound k m hw hs
  exact ⟨j, hj, st.shadow j, h.shown j hj, hjs, hle⟩

theorem bounded_put (h : Inv e init st) (hp : Place st m n) (through : Bool) :
    Bounded init (.write (.slot n) (some m) through :: st.log) := by
  intro k m' hw hs
  rcases hw.of_write with hold | hnew
  · obtain ⟨j, hj, hjs, hle⟩ := h.bound k m' hold hs
    obtain ⟨i, hi, hin, his, hile⟩ := bound_put h hp hj hjs
    refine ⟨i, hi, st.shadow i, ?_, his, Nat.le_trans hle hile⟩
    rw [replay_of_ne fun heq => hin (Cell.slot.inj heq)]
    exact h.shown i hi
  · have hm : m = m' := Option.some.inj hnew.2
    subst hm
    exact ⟨n, hp.lt h, m, replay_self _ _ _ _, hs, Nat.le_refl _⟩

/-- What has been synced is backed by a slot other than `n`. -/
def Backup (init : Nat → Meta) (log : Log Cell Content) (n : Nat) : Prop :=
  ∀ j m, Durable (initial init) (.slot j) (some m) log → m.snapSteady = true →
    ∃ k, k ≠ n ∧ Backed init log k m

theorem Backed.write_other {log : Log Cell Content} {k : Nat} {v : Content} {through : Bool}
    (h : Backed init log k m) (hk : k ≠ n) :
    Backed init (.write (.slot n) v through :: log) k m := by
  have hne : Cell.slot k ≠ Cell.slot n := fun heq => hk (Cell.slot.inj heq)
  refine ⟨h.slot, ?_, ?_⟩
  · rw [unsettled_of_ne hne]
    exact h.settled
  · rw [replay_of_ne hne]
    exact h.newer

theorem Backup.kept {log : Log Cell Content} (h : Backup init log n) (hn : n < 3) (m : Meta)
    (through : Bool) : Kept init (.write (.slot n) (some m) through :: log) := by
  intro j m' hd hs
  rcases hd with hd | hd
  · obtain ⟨k, hk, hb⟩ := h j m' hd hs
    exact ⟨k, hb.write_other hk⟩
  · obtain ⟨ht, -, hm⟩ := hd
    have hm' : m = m' := Option.some.inj hm
    subst hm'
    refine ⟨n, hn, ?_, m, replay_self _ _ _ _, hs, Nat.le_refl _⟩
    rw [unsettled_self, ht]
    rfl

theorem Backup.again {log : Log Cell Content} (h : Backup init log n) (v : Content) :
    Backup init (.write (.slot n) v false :: log) n := by
  intro j m hd hs
  rcases hd with hd | hd
  · obtain ⟨k, hk, hb⟩ := h j m hd hs
    exact ⟨k, hk, hb.write_other hk⟩
  · cases hd.1

-- the preferred slot does, if it is settled
theorem backup_of_settled (h : Inv e init st) (hp : Place st m n)
    (hset : (st.shadow st.troika.preferSteady).snapSteady = true →
      unsettled (.slot st.troika.preferSteady) st.log = false) : Backup init st.log n := by
  intro j m' hd hs
  obtain ⟨i, hi, his, hile⟩ := h.bound j m' hd.written hs
  obtain ⟨hps, hple⟩ := h.choice.steady i hi his
  have hlt := h.choice.slots.2.1
  refine ⟨st.troika.preferSteady, ?_, hlt, hset hps, st.shadow st.troika.preferSteady,
    h.shown _ hlt, hps, Nat.le_trans hile hple⟩
  intro heq
  rcases hp with hp | hp
  · exact h.choice.tail_ne.2 (hp.1.symm.trans heq.symm)
  · have hno : (st.shadow st.troika.recent).snapSteady = false := hp.2.2.1
    rw [← hp.1, ← heq, hps] at hno
    cases hno

-- With one unsynced meta page only the recent slot is unsettled; of the other two the better one
-- stays.
theorem backup_of_single (h : Inv e init st) (hkept : Kept init st.log) (hp : Place st m n)
    (hone : (pendingSlots st.log).length ≤ 1) : Backup init st.log n := by
  have hother : ∀ k, k ≠ st.troika.recent → unsettled (.slot k) st.log = false := by
    intro k hk
    apply settled_of_not_pendingSlot
    intro hmem
    cases hpend : pendingSlots st.log with
    | nil =>
      rw [hpend] at hmem
      cases hmem
    | cons a rest =>
      rw [hpend, List.length_cons] at hone
      have hrest : rest = [] := List.length_eq_zero_iff.mp (by omega)
      rw [hpend, hrest, List.mem_singleton] at hmem
      exact hk (hmem.trans (h.newest a rest hpend))
  intro j m' hd hs
  obtain ⟨k, hb⟩ := hkept j m' hd hs
  by_cases hk : k = n
  · subst hk
    obtain ⟨m'', hreplay, hs'', hle⟩ := hb.newer
    rw [h.shown k hb.slot] at hreplay
    have hm'' : st.shadow k = m'' := Option.some.inj hreplay
    rw [← hm''] at hs'' hle
    rcases hp with hp | hp
    · obtain ⟨hr, -, hl⟩ := h.choice.slots
      have hne := h.choice.tail_ne.1
      -- the third slot
      have hi : 3 - st.troika.recent - st.troika.tail < 3 := by omega
      have hir : 3 - st.troika.recent - st.troika.tail ≠ st.troika.recent := by omega
      have hit : 3 - st.troika.recent - st.troika.tail ≠ st.troika.tail := by omega
      generalize 3 - st.troika.recent - st.troika.tail = i at hi hir hit
      rw [hp.1] at hs'' hle
      obtain ⟨his, hile⟩ := h.choice.oldest i hi hir hs''
      rw [hp.1]
      exact ⟨i, hit, hi, hother i hir, st.shadow i, h.shown i hi, his, Nat.le_trans hle hile⟩
    · have hno : (st.shadow st.troika.recent).snapSteady = false := hp.2.2.1
      rw [← hp.1, hs''] at hno
      cases hno
  · exact ⟨k, hk, hb⟩

/-! ## 2. Writing the meta page -/

/-- What holds after a call: in any case of the log, and of the state unless it has failed. -/
structure Outcome (c : Prop) (e : Env) (init : Nat → Meta) (st : State) : Prop where
  sound : Always (Sound c init) st.log
  calm : st.panicked = false
  inv : st.fatal = false → Inv e init st

theorem metaWritten_spec (st : State) (io : Outside) (flags : Flags) (m : Meta) (n shrink : Nat) :
    (metaWritten st io flags m n shrink).log = st.log ∧
      (metaWritten st io flags m n shrink).panicked = st.panicked ∧
      ((metaWritten st io flags m n shrink).fatal = false →
        ∃ x, metaWritten st io flags m n shrink = { st with
          shadow := put st n m, troika := metaTapShadow (put st n m), metaSyncTxnid := x }) := by
  unfold metaWritten
  simp only
  by_cases h₁ : ¬ io.coherent = true
  · rw [if_pos h₁]
    exact ⟨rfl, rfl, fun h => Bool.noConfusion h⟩
  · rw [if_neg h₁]
    by_cases h₂ : ¬ io.tap = true
    · rw [if_pos h₂]
      exact ⟨rfl, rfl, fun h => Bool.noConfusion h⟩
    · rw [if_neg h₂]
      by_cases h₃ : shrink ≠ 0 ∧ ¬ io.resize = true
      · rw [if_pos h₃]
        exact ⟨rfl, rfl, fun h => Bool.noConfusion h⟩
      · rw [if_neg h₃]
        exact ⟨rfl, rfl, fun _ => ⟨_, rfl⟩⟩

-- the state before the write, the log and the counter after it
theorem metaWritten_outcome {c : Prop} (h : Inv e init st) (hcalm : st.panicked = false)
    (hr : Ready st m) (hp : Place st m n) {log : Log Cell Content} {u : Nat}
    (hsound : Always (Sound c init) log) (hw : Wrote e init st n m log u) (io : Outside)
    (flags : Flags) (shrink : Nat) :
    Outcome c e init
      (metaWritten { st with log := log, unsyncedPages := u } io flags m n shrink) := by
  obtain ⟨hlog, hpan, hgood⟩ :=
    metaWritten_spec { st with log := log, unsyncedPages := u } io flags m n shrink
  refine ⟨?_, hpan.trans hcalm, ?_⟩
  · rw [hlog]
    exact hsound
  · intro hf
    obtain ⟨x, hx⟩ := hgood hf
    rw [hx]
    have hinv := h.wrote hr hp hw
    exact ⟨hinv.shown, hinv.troika, hinv.live, hinv.clean, hinv.steadyHead, hinv.counted,
      hinv.through, hinv.newest, hinv.bound⟩

theorem replay_put (init : Nat → Meta) (log : Log Cell Content) (n : Nat) (v : Content)
    (through : Bool) (k : Nat) :
    replay (initial init) (.write (.slot n) v through :: log) (.slot k) =
      if k = n then v else replay (initial init) log (.slot k) := by
  by_cases hk : k = n
  · rw [if_pos hk, hk, replay_self]
  · rw [if_neg hk, replay_of_ne fun heq => hk (Cell.slot.inj heq)]

theorem written_put {log : Log Cell Content} {through : Bool} {k : Nat} {m' : Meta}
    (h : Written (initial init) (.slot k) (some m') (.write (.slot n) (some m) through :: log)) :
    Written (initial init) (.slot k) (some m') log ∨ m' = m := by
  rcases h.of_write with h | h
  · exact Or.inl h
  · exact Or.inr (Option.some.inj h.2).symm

theorem updateMeta_outcome {c : Prop} (h : Inv e init st) (hcalm : st.panicked = false)
    (hr : Ready st m) (hp : Place st m n) (hsound : Always (Sound c init) st.log)
    (hb : c → Backup init st.log n) (io : Outside) (flags : Flags) (shrink : Nat) :
    Outcome c e init (updateMeta e st io flags m n shrink) := by
  have hn := hp.lt h
  have hwrite : ∀ through, Always (Sound c init) (.write (.slot n) (some m) through :: st.log) :=
    fun through => ⟨⟨⟨m, rfl, metaWrite_ok h hr hp⟩, fun hc => (hb hc).kept hn m through⟩, hsound⟩
  have hundo : Always (Sound c init)
      (.write (.slot n) (some (st.shadow n)) false :: .write (.slot n) (some m) false :: st.log) :=
    ⟨⟨⟨st.shadow n, rfl, undo_ok h hp⟩,
      fun hc => ((hb hc).again (some m)).kept hn (st.shadow n) false⟩, hwrite false⟩
  unfold updateMeta
  simp only
  by_cases h₁ : ¬ io.metaWrite = true
  · rw [if_pos h₁]
    exact ⟨hundo, hcalm, fun hf => Bool.noConfusion hf⟩
  · rw [if_neg h₁]
    by_cases h₂ : ¬ e.incore = true ∧ ¬ e.metaThrough = true
    · rw [if_pos h₂]
      have hthrough : e.metaThrough = false := by simpa using h₂.2
      have hpend : pendingSlots (.write (.slot n) (some m) e.metaThrough :: st.log) =
          n :: pendingSlots st.log := by
        rw [pendingSlots_slot, hthrough]
        rfl
      by_cases h₃ : flags.nometasync = true
      · rw [if_pos h₃]
        refine metaWritten_outcome h hcalm hr hp (hwrite e.metaThrough)
          ⟨replay_put init st.log n (some m) e.metaThrough, ?_, Or.inr hpend, ?_, ?_, ?_, ?_⟩ io flags shrink
        · intro p hset
          rw [unsettled_page_slot]
          exact hset
        · intro hcore
          have := h.counted hcore
          rw [hpend, List.length_cons]
          omega
        · intro ht
          exact absurd ht h₂.2
        · intro hzero
          omega
        · intro k m' hw
          exact written_put hw
      · rw [if_neg h₃]
        by_cases h₄ : io.metaSync = true
        · rw [if_pos h₄]
          have hsync : Always (Sound c init)
              (.sync :: .write (.slot n) (some m) e.metaThrough :: st.log) :=
            ⟨⟨trivial, fun _ => (bounded_put h hp e.metaThrough).kept⟩, hwrite e.metaThrough⟩
          refine metaWritten_outcome h hcalm hr hp hsync
            ⟨replay_put init st.log n (some m) e.metaThrough, fun _ _ => rfl, Or.inl rfl,
              fun _ => Nat.zero_le _, fun _ => rfl, fun hzero => hzero, ?_⟩ io flags shrink
          intro k m' hw
          exact written_put hw.of_sync
        · rw [if_neg h₄, hthrough]
          exact ⟨hundo, hcalm, fun hf => Bool.noConfusion hf⟩
    · rw [if_neg h₂]
      refine metaWritten_outcome h hcalm hr hp (hwrite e.metaThrough)
        ⟨replay_put init st.log n (some m) e.metaThrough, ?_, ?_, ?_, ?_, fun hzero => hzero, ?_⟩ io flags shrink
      · intro p hset
        rw [unsettled_page_slot]
        exact hset
      · rw [pendingSlots_slot]
        cases ht : e.metaThrough with
        | true => exact Or.inl (h.through ht)
        | false => exact Or.inr rfl
      · intro hcore
        have ht : e.metaThrough = true := by
          rw [hcore] at h₂
          simpa using h₂
        rw [pendingSlots_slot, ht]
        exact h.counted hcore
      · intro ht
        rw [pendingSlots_slot, ht]
        exact h.through ht
      · intro k m' hw
        exact written_put hw

/-! ## 3. The whole call -/

/-- What a caller asks for: a meta that is newer than the head or the head itself, with pages of the
head's snapshot or written since, and signed only if it is a copy of a signed head. -/
structure PendingOk (st : State) (p : Meta) : Prop where
  newer : st.head.txnid < p.txnid ∨ p = st.head
  pages : ∀ x ∈ p.trees.pages, x ∈ st.head.trees.pages ∨ x ∈ st.written
  sign : p.isSteady = true → st.head.isSteady = true ∧ p.trees = st.head.trees

-- a shrunk meta has another geometry and, for the head, the next txnid
theorem PendingOk.shrunk {p p' : Meta} (h : PendingOk st p) (htrees : p'.trees = p.trees)
    (hsign : p'.sign = p.sign) (hnew : st.head.txnid < p'.txnid) : PendingOk st p' where
  newer := Or.inl hnew
  pages := by
    rw [htrees]
    exact h.pages
  sign := by
    unfold Meta.isSteady
    rw [htrees, hsign]
    exact h.sign

theorem shrinkDatafile_ok {io : Outside} {flags f : Flags} {p p' : Meta} {tail shrink d : Nat}
    (h : PendingOk st p) (hgo : shrinkDatafile e st io flags st.head p tail = .go f p' shrink d) :
    PendingOk st p' := by
  unfold shrinkDatafile at hgo
  simp only at hgo
  by_cases hwants : wantsShrink io p ∧ shrinkBottom e io p < p.geometry.now
  · rw [if_pos hwants] at hgo
    by_cases hsame : (st.shadow st.troika.recent).txnid = p.txnid
    · rw [if_pos hsame] at hgo
      by_cases hfull : maxTxnid < txnidNext p.txnid
      · rw [if_pos hfull] at hgo
        cases hgo
      · rw [if_neg hfull] at hgo
        injection hgo with _ hp' _ _
        rw [← hp']
        refine h.shrunk rfl rfl ?_
        exact Nat.lt_succ_of_le (Nat.le_of_eq hsame)
    · rw [if_neg hsame] at hgo
      injection hgo with _ hp' _ _
      rw [← hp']
      refine h.shrunk rfl rfl ?_
      rcases h.newer with hlt | heq
      · exact hlt
      · exact absurd (congrArg Meta.txnid heq.symm) hsame
  · rw [if_neg hwants] at hgo
    injection hgo with _ hp' _ _
    rw [← hp']
    exact h

theorem checkShrink_ok {io : Outside} {flags f : Flags} {p p' : Meta} {shrink d : Nat}
    (h : PendingOk st p) (hgo : checkShrink e st io flags st.head p = .go f p' shrink d) :
    PendingOk st p' := by
  unfold checkShrink at hgo
  simp only at hgo
  split at hgo
  · injection hgo with _ hp' _ _
    rw [← hp']
    exact h
  · split at hgo
    · injection hgo with _ hp' _ _
      rw [← hp']
      exact h
    · split at hgo
      · injection hgo with _ hp' _ _
        rw [← hp']
        exact h
      · split at hgo
        · split at hgo
          · cases hgo
          · exact shrinkDatafile_ok h hgo
        · exact shrinkDatafile_ok h hgo

/-- The call does not skip the sync of the data while the newest steady meta waits for one. -/
def Careful (e : Env) (st : State) (io : Outside) (flags : Flags) (pending : Meta) : Prop :=
  ∀ f p shrink d,
    checkShrink e st io (checkAutosync e st io flags) st.head pending = .go f p shrink d →
    f.safeNosync = true → (st.shadow st.troika.preferSteady).snapSteady = true →
    unsettled (.slot st.troika.preferSteady) st.log = false

/-- The state and the meta between step#1 and step#2. -/
structure Signed (c : Prop) (e : Env) (init : Nat → Meta) (st : State) (m : Meta) : Prop where
  inv : Inv e init st
  sound : Always (Sound c init) st.log
  ready : Ready st m
  backup : c → ∀ n, Place st m n → Backup init st.log n

-- with everything settled the preferred slot backs all
theorem backup_of_no_pending (h : Inv e init st) (hnone : pendingSlots st.log = [])
    (hp : Place st m n) : Backup init st.log n := by
  apply backup_of_settled h hp
  intro _
  apply settled_of_not_pendingSlot
  rw [hnone]
  exact List.not_mem_nil

theorem PendingOk.ready_of_steady {p : Meta} (h : PendingOk st p)
    (hclean : ∀ x, x ∈ st.head.trees.pages ∨ x ∈ st.written → unsettled (.page x) st.log = false)
    (sign : Nat) : Ready { st with unsyncedPages := 0 } { p with sign := sign } where
  newer := by
    rcases h.newer with hlt | heq
    · exact Or.inl hlt
    · subst heq
      exact Or.inr ⟨rfl, rfl, rfl, rfl⟩
  steady := fun _ x hx => hclean x (h.pages x hx)
  clean := fun _ x hx => hclean x (h.pages x hx)

theorem signed_steady {c : Prop} (h : Inv e init st) (hsound : Always (Sound c init) st.log)
    {p : Meta} (hok : PendingOk st p) (hcore : c → e.incore = false)
    (hclean : ∀ x, x ∈ st.head.trees.pages ∨ x ∈ st.written → unsettled (.page x) st.log = false)
    (hnone : e.incore = false → pendingSlots st.log = []) :
    Signed c e init { st with unsyncedPages := 0 } { p with sign := signSteady } where
  inv := h.reset hclean hnone
  sound := hsound
  ready := hok.ready_of_steady hclean signSteady
  backup := fun hc _ hp => backup_of_no_pending (h.reset hclean hnone) (hnone (hcore hc)) hp

theorem signed_weak {c : Prop} (h : Inv e init st) (hsound : Always (Sound c init) st.log) {p : Meta}
    (hok : PendingOk st p) (hpos : st.unsyncedPages ≠ 0)
    (hset : c → (st.shadow st.troika.preferSteady).snapSteady = true →
      unsettled (.slot st.troika.preferSteady) st.log = false) :
    Signed c e init st { p with sign := signWeak } where
  inv := h
  sound := hsound
  ready := by
    refine ⟨?_, fun hs => ?_, fun hzero => absurd hzero hpos⟩
    · rcases hok.newer with hlt | heq
      · exact Or.inl hlt
      · subst heq
        exact Or.inr ⟨rfl, rfl, rfl, rfl⟩
    · exact absurd hs (by simp [Meta.isSteady])
  backup := fun hc _ hp => backup_of_settled h hp (hset hc)

theorem signed_keep {c : Prop} (h : Inv e init st) (hsound : Always (Sound c init) st.log) {p : Meta}
    (hok : PendingOk st p) (hcore : c → e.incore = false) (hone : st.unsyncedPages = 1) :
    Signed c e init st p where
  inv := h
  sound := hsound
  ready := by
    refine ⟨?_, fun hs => ?_, fun hzero => ?_⟩
    · rcases hok.newer with hlt | heq
      · exact Or.inl hlt
      · subst heq
        exact Or.inr ⟨rfl, rfl, rfl, rfl⟩
    · obtain ⟨hhead, htrees⟩ := hok.sign hs
      unfold SnapshotSynced
      rw [htrees]
      exact h.steadyHead hhead
    · rw [hone] at hzero
      cases hzero
  backup := by
    intro hc n hp
    apply backup_of_single h (hsound.now.2 hc) hp
    have := h.counted (hcore hc)
    omega

theorem syncDataPages_signed {c : Prop} (h : Inv e init st) (hsound : Always (Sound c init) st.log)
    {p : Meta} (hok : PendingOk st p) (hcore : c → e.incore = false) {io : Outside} {flags : Flags}
    (hset : c → flags.safeNosync = true → (st.shadow st.troika.preferSteady).snapSteady = true →
      unsettled (.slot st.troika.preferSteady) st.log = false) {synced : State} {carry : Carry}
    (hdata : syncDataPages e st io flags = some (synced, carry)) :
    Signed c e init (signPending synced p carry).1 (signPending synced p carry).2 ∧
      (signPending synced p carry).1.panicked = st.panicked := by
  unfold syncDataPages at hdata
  split at hdata
  · rename_i hzero
    cases hdata
    refine ⟨signed_steady h hsound hok hcore (h.clean hzero) ?_, rfl⟩
    intro hc
    have := h.counted hc
    exact List.length_eq_zero_iff.mp (by omega)
  · rename_i hpos
    split at hdata
    · rename_i hone
      cases hdata
      exact ⟨signed_keep h hsound hok hcore hone.1, rfl⟩
    · split at hdata
      · split at hdata
        · cases hdata
          -- after a sync nothing is left to be synced
          have hok' : PendingOk { st with log := .sync :: st.log } p := ⟨hok.newer, hok.pages, hok.sign⟩
          refine ⟨signed_steady h.sync ?_ hok' hcore (fun _ _ => rfl) (fun _ => rfl), rfl⟩
          exact ⟨⟨trivial, fun _ => h.bounded.kept⟩, hsound⟩
        · cases hdata
      · rename_i hno
        have hsafe : flags.safeNosync = true := not_not.mp hno
        have hweak := signed_weak h hsound hok hpos fun hc => hset hc hsafe
        split at hdata
        · cases hdata
          exact ⟨hweak, rfl⟩
        · split at hdata
          · cases hdata
            exact ⟨hweak, rfl⟩
          · cases hdata

theorem dxbSyncLocked_outcome {c : Prop} (h : Inv e init st) (hcalm : st.panicked = false)
    (hsound : Always (Sound c init) st.log) {pending : Meta} (hok : PendingOk st pending)
    {io : Outside} {flags : Flags} (hcore : c → e.incore = false)
    (hcare : c → Careful e st io flags pending) :
    Outcome c e init (dxbSyncLocked e st io flags pending).1 := by
  unfold dxbSyncLocked
  simp only
  cases hshrink : checkShrink e st io (checkAutosync e st io flags)
      (st.shadow st.troika.recent) pending with
  | refused => exact ⟨hsound, hcalm, fun _ => h⟩
  | failed => exact ⟨hsound, hcalm, fun hf => Bool.noConfusion hf⟩
  | go f p shrink d =>
    simp only
    have hok' : PendingOk { st with discardedTail := d } p := by
      have hp := checkShrink_ok hok hshrink
      exact ⟨hp.newer, hp.pages, hp.sign⟩
    have hinv : Inv e init { st with discardedTail := d } :=
      ⟨h.shown, h.troika, h.live, h.clean, h.steadyHead, h.counted, h.through, h.newest, h.bound⟩
    cases hdata : syncDataPages e { st with discardedTail := d } io f with
    | none => exact ⟨hsound, hcalm, fun hf => Bool.noConfusion hf⟩
    | some out =>
      obtain ⟨synced, carry⟩ := out
      simp only
      obtain ⟨hsigned, hpan⟩ := syncDataPages_signed hinv hsound hok' hcore
        (fun hc hsafe => hcare hc f p shrink d hshrink hsafe) hdata
      have hcalm' := hpan.trans hcalm
      obtain ⟨hnopanic, hplace⟩ := chooseTarget_spec hsigned.inv hsigned.ready
      cases htarget : chooseTarget (signPending synced p carry).1 (signPending synced p carry).2 with
      | panic => exact absurd htarget hnopanic
      | skip => exact ⟨hsigned.sound, hcalm', fun _ => hsigned.inv⟩
      | slot n =>
        have hp := hplace n htarget
        exact updateMeta_outcome hsigned.inv hcalm' hsigned.ready hp hsigned.sound
          (fun hc => hsigned.backup hc n hp) io f shrink

end Mdbx.Commit
