import Mdbx.Commit.Safe

/-!
# Commit.Invariant — the state of a writer

The counter of unsynced pages stands for what the log has still to be synced, and the newest write of
a meta page is to the recent slot.
-/

namespace Mdbx.Commit

open WriteLog

abbrev State.head (st : State) : Meta := st.shadow st.troika.recent

/-- The state of a writer that has not failed. -/
structure Inv (e : Env) (init : Nat → Meta) (st : State) : Prop where
  shown : ∀ n < 3, replay (initial init) st.log (.slot n) = some (st.shadow n)
  troika : st.troika = metaTapShadow st.shadow
  live : minTxnid ≤ st.head.txnid
  clean : st.unsyncedPages = 0 → ∀ p, p ∈ st.head.trees.pages ∨ p ∈ st.written →
    unsettled (.page p) st.log = false
  steadyHead : st.head.isSteady = true → SnapshotSynced st.log st.head
  counted : e.incore = false → (pendingSlots st.log).length ≤ st.unsyncedPages
  through : e.metaThrough = true → pendingSlots st.log = []
  newest : ∀ n rest, pendingSlots st.log = n :: rest → n = st.troika.recent
  bound : ∀ k m, Written (initial init) (.slot k) (some m) st.log → m.snapSteady = true →
    ∃ j < 3, (st.shadow j).snapSteady = true ∧ m.txnid ≤ (st.shadow j).txnid

variable {e : Env} {init : Nat → Meta} {st : State}

theorem Inv.choice (h : Inv e init st) :
    Choice (fun k => (st.shadow k).txnid) (fun k => (st.shadow k).snapSteady) st.troika := by
  rw [h.troika]
  exact metaTapShadow_spec st.shadow

theorem Inv.metas_eq (h : Inv e init st) {n : Nat} (hn : n < 3) :
    metas init st.log n = st.shadow n := by
  unfold metas
  rw [h.shown n hn]
  rfl

theorem Inv.tap_eq (h : Inv e init st) : metaTapShadow (metas init st.log) = st.troika := by
  rw [h.troika]
  unfold metaTapShadow
  rw [h.metas_eq (show 0 < 3 by decide), h.metas_eq (show 1 < 3 by decide),
    h.metas_eq (show 2 < 3 by decide)]

theorem Inv.txnid_le (h : Inv e init st) {n : Nat} (hn : n < 3) :
    (st.shadow n).txnid ≤ st.head.txnid := (h.choice.newest n hn).1

/-! ## 1. Steps that write no meta page -/

theorem Inv.send (h : Inv e init st) (pages : List Nat) (through : Bool)
    (havoid : ∀ p ∈ pages, p ∉ st.head.trees.pages) :
    Inv e init { st with
      log := writePages st.log pages through
      unsyncedPages := st.unsyncedPages + if through then 0 else pages.length
      written := pages ++ st.written } where
  shown := by
    intro n hn
    rw [replay_writePages]
    exact h.shown n hn
  troika := h.troika
  live := h.live
  clean := by
    intro hzero p hp
    simp only at hzero hp ⊢
    have hold : st.unsyncedPages = 0 := by omega
    cases through with
    | true =>
      apply unsettled_writePages_through
      rcases hp with hp | hp
      · exact Or.inr (h.clean hold p (Or.inl hp))
      · rcases List.mem_append.mp hp with hp | hp
        · exact Or.inl hp
        · exact Or.inr (h.clean hold p (Or.inr hp))
    | false =>
      have hnil : pages = [] := List.length_eq_zero_iff.mp (by simpa [hold] using hzero)
      subst hnil
      exact h.clean hold p hp
  steadyHead := by
    intro hs p hp
    rw [unsettled_writePages_of_not_mem fun hmem => havoid p hmem hp]
    exact h.steadyHead hs p hp
  counted := by
    intro hcore
    have := h.counted hcore
    simp only
    rw [pendingSlots_writePages]
    omega
  through := by
    intro ht
    rw [pendingSlots_writePages]
    exact h.through ht
  newest := by
    intro n rest hpend
    rw [pendingSlots_writePages] at hpend
    exact h.newest n rest hpend
  bound := by
    intro k m hw
    exact h.bound k m (written_writePages hw)

-- the transaction ends, and only the head's pages matter
theorem Inv.forget (h : Inv e init st) : Inv e init { st with written := [] } where
  shown := h.shown
  troika := h.troika
  live := h.live
  clean := by
    intro hzero p hp
    rcases hp with hp | hp
    · exact h.clean hzero p (Or.inl hp)
    · exact absurd hp List.not_mem_nil
  steadyHead := h.steadyHead
  counted := h.counted
  through := h.through
  newest := h.newest
  bound := h.bound

theorem Inv.abandon (h : Inv e init st) (reached : List Nat)
    (havoid : ∀ p ∈ reached, p ∉ st.head.trees.pages) : Inv e init (abandon st reached) where
  shown := by
    intro n hn
    change replay _ (writePages st.log reached false) _ = _
    rw [replay_writePages]
    exact h.shown n hn
  troika := h.troika
  live := h.live
  clean := by
    intro hzero p hp
    rcases hp with hp | hp
    · change unsettled _ (writePages st.log reached false) = false
      rw [unsettled_writePages_of_not_mem fun hmem => havoid p hmem hp]
      exact h.clean hzero p (Or.inl hp)
    · exact absurd hp List.not_mem_nil
  steadyHead := by
    intro hs p hp
    change unsettled _ (writePages st.log reached false) = false
    rw [unsettled_writePages_of_not_mem fun hmem => havoid p hmem hp]
    exact h.steadyHead hs p hp
  counted := by
    intro hcore
    change (pendingSlots (writePages st.log reached false)).length ≤ st.unsyncedPages
    rw [pendingSlots_writePages]
    exact h.counted hcore
  through := by
    intro ht
    change pendingSlots (writePages st.log reached false) = []
    rw [pendingSlots_writePages]
    exact h.through ht
  newest := by
    intro n rest hpend
    change pendingSlots (writePages st.log reached false) = _ at hpend
    rw [pendingSlots_writePages] at hpend
    exact h.newest n rest hpend
  bound := by
    intro k m hw
    exact h.bound k m (written_writePages hw)

theorem Inv.sync (h : Inv e init st) : Inv e init { st with log := .sync :: st.log } where
  shown := h.shown
  troika := h.troika
  live := h.live
  clean := fun _ _ _ => rfl
  steadyHead := fun _ _ _ => rfl
  counted := fun _ => Nat.zero_le _
  through := fun _ => rfl
  newest := by
    intro n rest hpend
    cases hpend
  bound := by
    intro k m hw
    exact h.bound k m hw.of_sync

-- nothing that the counter stands for waits for a sync
theorem Inv.reset (h : Inv e init st)
    (hclean : ∀ p, p ∈ st.head.trees.pages ∨ p ∈ st.written → unsettled (.page p) st.log = false)
    (hnone : e.incore = false → pendingSlots st.log = []) :
    Inv e init { st with unsyncedPages := 0 } where
  shown := h.shown
  troika := h.troika
  live := h.live
  clean := fun _ => hclean
  steadyHead := h.steadyHead
  counted := by
    intro hcore
    rw [hnone hcore]
    exact Nat.le_refl _
  through := h.through
  newest := h.newest
  bound := h.bound

/-! ## 2. The write of a meta page -/

/-- The pending meta when its slot is chosen. -/
structure Ready (st : State) (m : Meta) : Prop where
  newer : st.head.txnid < m.txnid ∨ m.txnid = st.head.txnid ∧ st.head.trees = m.trees ∧
    st.head.canary = m.canary ∧ st.head.geometry = m.geometry
  steady : m.isSteady = true → SnapshotSynced st.log m
  clean : st.unsyncedPages = 0 → SnapshotSynced st.log m

/-- The slots that a meta may be written to. -/
def Place (st : State) (m : Meta) (n : Nat) : Prop :=
  n = st.troika.tail ∧ st.head.txnid < m.txnid ∨
    n = st.troika.recent ∧ m.txnid = st.head.txnid ∧ st.head.snapSteady = false ∧ m.isSteady = true

theorem Place.lt (h : Inv e init st) {m : Meta} {n : Nat} (hp : Place st m n) : n < 3 := by
  obtain ⟨hr, -, hl⟩ := h.choice.slots
  rcases hp with hp | hp
  · rw [hp.1]
    exact hl
  · rw [hp.1]
    exact hr

theorem Place.txnid_le {m : Meta} {n : Nat} (hp : Place st m n) : st.head.txnid ≤ m.txnid := by
  rcases hp with hp | hp
  · exact Nat.le_of_lt hp.2
  · exact Nat.le_of_eq hp.2.1.symm

theorem chooseTarget_spec (h : Inv e init st) {m : Meta} (hr : Ready st m) :
    chooseTarget st m ≠ .panic ∧ ∀ n, chooseTarget st m = .slot n → Place st m n := by
  have hc := h.choice
  unfold chooseTarget
  simp only
  by_cases hsame : (st.shadow st.troika.recent).txnid = m.txnid
  · rw [if_pos hsame]
    rcases hr.newer with hlt | hold
    · exact absurd hsame (Nat.ne_of_lt hlt)
    · have hlegal : (st.shadow st.troika.recent).trees = m.trees ∧
          (st.shadow st.troika.recent).canary = m.canary ∧
          (st.shadow st.troika.recent).geometry = m.geometry := hold.2
      rw [if_neg (not_not.mpr hlegal)]
      by_cases hs : ¬ (st.shadow st.troika.recent).snapSteady = true ∧ m.isSteady = true
      · rw [if_pos hs]
        refine ⟨Target.noConfusion, ?_⟩
        intro n hn
        injection hn with hn
        right
        exact ⟨hn.symm, hold.1, by simpa using hs.1, hs.2⟩
      · rw [if_neg hs]
        exact ⟨Target.noConfusion, fun n hn => Target.noConfusion hn⟩
  · rw [if_neg hsame]
    have hlt : st.head.txnid < m.txnid := by
      rcases hr.newer with hlt | hold
      · exact hlt
      · exact absurd hold.1.symm hsame
    have htail := h.txnid_le hc.slots.2.2
    rw [if_neg (not_not.mpr ⟨hc.slots.2.2, hc.tail_ne⟩), if_neg (not_not.mpr (by omega))]
    refine ⟨Target.noConfusion, ?_⟩
    intro n hn
    injection hn with hn
    exact Or.inl ⟨hn.symm, hlt⟩

theorem metaWrite_ok (h : Inv e init st) {m : Meta} {n : Nat} (hr : Ready st m)
    (hp : Place st m n) : MetaWrite init st.log n m where
  slot := hp.lt h
  steady := fun hs => Or.inl (hr.steady hs)
  spared := by
    intro hnew
    rw [h.tap_eq]
    rcases hp with hp | hp
    · rw [hp.1]
      exact h.choice.tail_ne
    · have hlt := hnew st.troika.recent h.choice.slots.1
      rw [h.metas_eq h.choice.slots.1, hp.2.1] at hlt
      exact absurd hlt (Nat.lt_irrefl _)

-- a failed write puts back what was in the slot
theorem undo_ok (h : Inv e init st) {m : Meta} {n : Nat} (hp : Place st m n) :
    MetaWrite init (.write (.slot n) (some m) false :: st.log) n (st.shadow n) where
  slot := hp.lt h
  steady := by
    intro _
    right
    have hw := @written_disk _ _ (initial init) _ (fun _ => true) true st.log (.slot n)
    rw [disk_synced, h.shown n (hp.lt h)] at hw
    exact hw.cons _
  spared := by
    intro hnew
    have hlt := hnew n (hp.lt h)
    have hself : metas init (.write (.slot n) (some m) false :: st.log) n = m := by
      unfold metas
      rw [replay_self]
      rfl
    rw [hself] at hlt
    have h₁ := hp.txnid_le
    have h₂ := h.txnid_le (hp.lt h)
    omega

/-- The shadow after the write. -/
abbrev put (st : State) (n : Nat) (m : Meta) : Nat → Meta :=
  fun k => if k = n then m else st.shadow k

theorem Place.snapSteady (h : Inv e init st) {m : Meta} {n : Nat} (hp : Place st m n)
    (hs : m.isSteady = true) : m.snapSteady = true := by
  unfold Meta.snapSteady
  have h₁ := hp.txnid_le
  have h₂ := h.live
  simp only [hs, true_and, decide_eq_true_eq]
  omega

theorem recent_put (h : Inv e init st) {m : Meta} {n : Nat} (hp : Place st m n) :
    (metaTapShadow (put st n m)).recent = n := by
  by_contra hne
  have hc := metaTapShadow_spec (put st n m)
  have hn := hp.lt h
  obtain ⟨hr', -, -⟩ := hc.slots
  obtain ⟨hle, hsteady⟩ := hc.newest n hn
  simp only [put, if_true, if_neg hne] at hle hsteady
  obtain ⟨hnewest, htie⟩ := h.choice.newest _ hr'
  change (st.shadow _).txnid ≤ st.head.txnid at hnewest
  have hle' := hp.txnid_le
  rcases hp with hp | hp
  · have := hp.2
    omega
  · have hs := hsteady (by omega) (Place.snapSteady h (Or.inr hp) hp.2.2.2)
    have hno : st.head.snapSteady = true := htie (by change st.head.txnid ≤ _; omega) hs
    rw [hp.2.2.1] at hno
    cases hno

-- the newest steady meta stays, or a newer one takes its place
theorem bound_put (h : Inv e init st) {m : Meta} {n : Nat} (hp : Place st m n) {j : Nat}
    (hj : j < 3) (hs : (st.shadow j).snapSteady = true) :
    ∃ k < 3, k ≠ n ∧ (st.shadow k).snapSteady = true ∧
      (st.shadow j).txnid ≤ (st.shadow k).txnid := by
  have hc := h.choice
  obtain ⟨hps, hple⟩ := hc.steady j hj hs
  refine ⟨st.troika.preferSteady, hc.slots.2.1, ?_, hps, hple⟩
  intro heq
  rcases hp with hp | hp
  · exact hc.tail_ne.2 (hp.1.symm.trans heq.symm)
  · have hno := hp.2.2.1
    change (st.shadow st.troika.recent).snapSteady = false at hno
    rw [← hp.1, ← heq, hps] at hno
    cases hno

/-- The log after a write of `m` to slot `n` and, it may be, a sync, and the counter after them. -/
structure Wrote (e : Env) (init : Nat → Meta) (st : State) (n : Nat) (m : Meta)
    (log : Log Cell Content) (u : Nat) : Prop where
  shown : ∀ k, replay (initial init) log (.slot k) =
    if k = n then some m else replay (initial init) st.log (.slot k)
  pages : ∀ p, unsettled (.page p) st.log = false → unsettled (.page p) log = false
  slots : pendingSlots log = [] ∨ pendingSlots log = n :: pendingSlots st.log
  counted : e.incore = false → (pendingSlots log).length ≤ u
  through : e.metaThrough = true → pendingSlots log = []
  zero : u = 0 → st.unsyncedPages = 0
  written : ∀ k m', Written (initial init) (.slot k) (some m') log →
    Written (initial init) (.slot k) (some m') st.log ∨ m' = m

theorem Inv.wrote (h : Inv e init st) {m : Meta} {n : Nat} (hr : Ready st m) (hp : Place st m n)
    {log : Log Cell Content} {u : Nat} (hw : Wrote e init st n m log u) :
    Inv e init { st with
      log := log
      shadow := put st n m
      troika := metaTapShadow (put st n m)
      unsyncedPages := u } := by
  have hn := hp.lt h
  have hrecent := recent_put h hp
  have hself : put st n m n = m := if_pos rfl
  refine ⟨?_, rfl, ?_, ?_, ?_, hw.counted, hw.through, ?_, ?_⟩
  · intro k hk
    rw [hw.shown k]
    simp only [put]
    by_cases hkn : k = n
    · rw [if_pos hkn, if_pos hkn]
    · rw [if_neg hkn, if_neg hkn]
      exact h.shown k hk
  · change minTxnid ≤ (put st n m (metaTapShadow (put st n m)).recent).txnid
    rw [hrecent, hself]
    exact Nat.le_trans h.live hp.txnid_le
  · intro hzero p hmem
    simp only [State.head] at hmem
    rw [hrecent, hself] at hmem
    apply hw.pages
    rcases hmem with hmem | hmem
    · exact hr.clean (hw.zero hzero) p hmem
    · exact h.clean (hw.zero hzero) p (Or.inr hmem)
  · simp only [State.head]
    rw [hrecent, hself]
    intro hs p hmem
    exact hw.pages p (hr.steady hs p hmem)
  · intro k rest hpend
    simp only at hpend ⊢
    rw [hrecent]
    rcases hw.slots with hnil | hcons
    · rw [hnil] at hpend
      cases hpend
    · rw [hcons] at hpend
      injection hpend with hk _
      exact hk.symm
  · intro k m' hwritten hs
    simp only
    rcases hw.written k m' hwritten with hold | hnew
    · obtain ⟨j, hj, hjs, hle⟩ := h.bound k m' hold hs
      obtain ⟨i, hi, hin, his, hile⟩ := bound_put h hp hj hjs
      refine ⟨i, hi, ?_⟩
      simp only [put, if_neg hin]
      exact ⟨his, Nat.le_trans hle hile⟩
    · refine ⟨n, hn, ?_⟩
      rw [hself, ← hnew]
      exact ⟨hs, Nat.le_refl _⟩

end Mdbx.Commit
