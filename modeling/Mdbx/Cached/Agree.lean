import Mdbx.Cached.Model

/-!
# Cached.Agree — cached gets agree with plain gets

A leaf that is in a snapshot was in every snapshot since the one that wrote it.  So from the txnid of
its leaf up to the last snapshot in which it was seen, the key has the value that is in the entry.
-/

namespace Mdbx.Cached

variable {cfg : Config}

/-! ## 1. Bytes -/

theorem writeBytes_other {storage : Nat → UInt8} {writes : List (Nat × UInt8)} {b : Nat}
    (h : ∀ x ∈ writes, x.1 ≠ b) : writeBytes storage writes b = storage b := by
  induction writes with
  | nil => rfl
  | cons x writes ih =>
    unfold writeBytes
    rw [if_neg (h x List.mem_cons_self).symm]
    exact ih fun y hy => h y (List.mem_cons_of_mem x hy)

theorem readBytes_congr {storage storage' : Nat → UInt8} {offset length : Nat}
    (h : ∀ b ∈ List.range' offset length, storage' b = storage b) :
    readBytes storage' offset length = readBytes storage offset length :=
  List.map_congr_left h

-- what is written to other pages does not change an item
theorem readBytes_write {storage : Nat → UInt8} {writes : List (Nat × UInt8)}
    {pages taken : List Nat} {it : Item} (hin : it.inPages cfg pages)
    (hwrites : ∀ x ∈ writes, x.1 / cfg.pageSize ∈ taken) (hapart : ∀ p ∈ taken, p ∉ pages) :
    readBytes (writeBytes storage writes) it.offset it.length =
      readBytes storage it.offset it.length := by
  apply readBytes_congr
  intro b hb
  apply writeBytes_other
  intro x hx heq
  exact hapart _ (hwrites x hx) (heq ▸ hin.2.2 b hb)

/-! ## 2. The invariant -/

/-- The entry was just set up, or tells of the leaf of the key in a snapshot. -/
def EntryOk (st : State) (entry : Entry) : Prop :=
  entry = .init ∨ ∃ s ∈ st.history, ∃ it, s.item = some it ∧
    entry = ⟨it.leafTxnid, s.txnid, it.offset, it.length⟩ ∧ it.dup = false

structure Inv (cfg : Config) (st : State) : Prop where
  pos : ∀ s ∈ st.history, 0 < s.txnid
  newest : ∀ s ∈ st.history, s.txnid ≤ st.recent.txnid
  leaf : ∀ s ∈ st.history, ∀ it ∈ s.item, it.leafTxnid ≤ s.txnid ∧ it.offset ≠ 0 ∧
    (it.dup = true → cfg.dupSort = true)
  -- a leaf was there since it was written
  same : ∀ s ∈ st.history, ∀ s' ∈ st.history, s.txnid ≤ s'.txnid → ∀ it ∈ s'.item,
    it.leafTxnid ≤ s.txnid → s.item = some it
  stored : ∀ s ∈ st.inUse, ∀ it ∈ s.item,
    it.inPages cfg s.pages ∧ readBytes st.storage it.offset it.length = it.value
  readers : ∀ s ∈ st.readers, s ∈ st.history
  writer : ∀ w ∈ st.writer, w.txnid = st.recent.txnid + cfg.txnidStep ∧
    (∀ p ∈ w.taken, ∀ s ∈ st.inUse, p ∉ s.pages) ∧ ∀ d ∈ w.dirty, d.Ok cfg w.txnid
  entry : EntryOk st st.entry

theorem Init.inv {st : State} (h : Init st) : Inv cfg st := by
  have hhist : ∀ s ∈ st.history, s = st.recent := by
    intro s hs
    unfold State.history at hs
    rw [h.older] at hs
    exact List.mem_singleton.mp hs
  have hnone : ∀ s ∈ st.history, ∀ it ∈ s.item, False := by
    intro s hs it hit
    rw [hhist s hs, h.item] at hit
    exact nomatch hit
  refine ⟨?_, ?_, ?_, ?_, ?_, ?_, ?_, ?_⟩
  · exact fun s hs => hhist s hs ▸ h.txnid
  · exact fun s hs => hhist s hs ▸ Nat.le_refl _
  · exact fun s hs it hit => (hnone s hs it hit).elim
  · exact fun _ _ s' hs' _ it hit => (hnone s' hs' it hit).elim
  · intro s hs it hit
    unfold State.inUse at hs
    rw [h.readers] at hs
    have hrecent : s = st.recent := List.mem_singleton.mp hs
    exact (hnone s (hrecent ▸ List.mem_cons_self) it hit).elim
  · rw [h.readers]
    exact fun s hs => absurd hs List.not_mem_nil
  · rw [h.writer]
    exact fun w hw => nomatch hw
  · exact Or.inl h.entry

/-! ## 3. A call -/

-- a transaction is at a snapshot of the history or behind the last one
theorem Inv.txnid {st : State} (hinv : Inv cfg st) {who : Who} {txn : Txn}
    (htxn : st.txn who = some txn) :
    (∃ s ∈ st.history, txn = .reader s) ∨ ∃ w, txn.txnid = st.recent.txnid + cfg.txnidStep ∧
      txn.basis cfg = st.recent.txnid ∧ seek st txn = seekWriter st w ∧ st.writer = some w := by
  cases who with
  | reader i =>
    have ⟨s, hs, htxn⟩ := Option.map_eq_some_iff.mp htxn
    exact Or.inl ⟨s, hinv.readers s (List.mem_of_getElem? hs), htxn.symm⟩
  | writer | nested =>
    have ⟨w, hw, htxn⟩ := Option.map_eq_some_iff.mp htxn
    have htxnid := (hinv.writer w hw).1
    refine Or.inr ⟨w, htxn ▸ htxnid, ?_, htxn ▸ rfl, hw⟩
    rw [← htxn]
    change w.txnid - cfg.txnidStep = st.recent.txnid
    omega

-- what is found in a clean leaf is in the snapshot that the transaction is based on
theorem Inv.seek_clean {st : State} (hinv : Inv cfg st) {who : Who} {txn : Txn}
    (htxn : st.txn who = some txn) {f : Found} (hf : seek st txn = some f)
    (hclean : f.leafTxnid ≤ txn.basis cfg) :
    ∃ s ∈ st.history, s.txnid = txn.basis cfg ∧ ∃ it, s.item = some it ∧
      f = it.found st.storage := by
  cases hinv.txnid htxn with
  | inl h =>
    have ⟨s, hs, hreader⟩ := h
    rw [hreader] at hf
    have ⟨it, hit, hfound⟩ := Option.map_eq_some_iff.mp hf
    exact ⟨s, hs, hreader ▸ rfl, it, hit, hfound.symm⟩
  | inr h =>
    have ⟨w, _, hbasis, hseek, hw⟩ := h
    rw [hseek, seekWriter] at hf
    cases hdirty : w.dirty with
    | none =>
      rw [hdirty] at hf
      have ⟨it, hit, hfound⟩ := Option.map_eq_some_iff.mp hf
      exact ⟨st.recent, List.mem_cons_self, hbasis.symm, it, hit, hfound.symm⟩
    | some d =>
      rw [hdirty] at hf
      have ⟨n, _, hfound⟩ := Option.map_eq_some_iff.mp hf
      have ⟨htxnid, _, hdirtyOk⟩ := hinv.writer w hw
      have hleaf := (hdirtyOk d hdirty).1
      have hsame : f.leafTxnid = d.leafTxnid := hfound ▸ rfl
      have hstep := cfg.step_pos
      omega

/-- The answer is that of a plain get, unless the call failed. -/
def Agrees (st : State) (txn : Txn) (r : Result) : Prop :=
  match r.code with
  | .success => mdbxGet st txn = some r.data
  | .notFound => mdbxGet st txn = none
  | _ => True

/-- The answer is right and so is the entry that is left. -/
structure Right (st : State) (txn : Txn) (r : Result × Entry) : Prop where
  agrees : Agrees st txn r.1
  entry : EntryOk st r.2

theorem right_error {st : State} {txn : Txn} {entry : Entry} (hentry : EntryOk st entry)
    {code : Code} (hcode : code ≠ .success ∧ code ≠ .notFound) :
    Right st txn (cacheError code, entry) := by
  refine ⟨?_, hentry⟩
  cases code with
  | success => exact absurd rfl hcode.1
  | notFound => exact absurd rfl hcode.2
  | invalid | emultival | failed => trivial

theorem mdbxGet_none {st : State} {txn : Txn} (h : seek st txn = none) :
    mdbxGet st txn = none := congrArg (Option.map Found.value) h

theorem mdbxGet_some {st : State} {txn : Txn} {f : Found} (h : seek st txn = some f) :
    mdbxGet st txn = some f.value := congrArg (Option.map Found.value) h

theorem uncached_right {st : State} {txn : Txn} {io : Io} {status : Status} {entry : Entry}
    (hentry : EntryOk st entry) : Right st txn (cacheGetUncached cfg st txn io status, entry) := by
  have herr : ∀ code, code ≠ .success ∧ code ≠ .notFound → Right st txn (cacheError code, entry) :=
    fun code hcode => right_error hentry hcode
  unfold cacheGetUncached
  by_cases hio : io.seek
  · rw [if_pos hio]
    exact herr .failed (by decide)
  · rw [if_neg hio]
    cases hseek : seek st txn with
    | none => exact ⟨mdbxGet_none hseek, hentry⟩
    | some f =>
      dsimp only
      split_ifs
      · exact herr .emultival (by decide)
      · exact herr .failed (by decide)
      · exact ⟨mdbxGet_some hseek, hentry⟩

theorem refreshed_right {st : State} (hinv : Inv cfg st) {who : Who} {txn : Txn}
    (htxn : st.txn who = some txn) {entry : Entry} (hentry : EntryOk st entry) {f : Found}
    (hf : seek st txn = some f) (hdup : f.dup = false) (hclean : f.leafTxnid ≤ txn.basis cfg) :
    Right st txn (refreshed cfg txn entry f) := by
  have hget := mdbxGet_some hf
  have ⟨s, hs, hbasis, it, hit, hfound⟩ := hinv.seek_clean htxn hf hclean
  rw [hfound] at hdup hget ⊢
  unfold refreshed cacheStoreEntryIo
  dsimp only [Item.found]
  split_ifs
  · exact ⟨hget, Or.inr ⟨s, hs, it, hit, by rw [hbasis], hdup⟩⟩
  · exact ⟨hget, hentry⟩

theorem refresh_right {st : State} (hinv : Inv cfg st) {who : Who} {txn : Txn}
    (htxn : st.txn who = some txn) {io : Io} {entry : Entry} (hentry : EntryOk st entry) :
    Right st txn (cacheGetNommapRefresh cfg st txn io entry) := by
  have herr : ∀ code, code ≠ .success ∧ code ≠ .notFound → Right st txn (cacheError code, entry) :=
    fun code hcode => right_error hentry hcode
  unfold cacheGetNommapRefresh refreshBatch refreshCursor
  by_cases hio : io.seek
  · rw [if_pos hio, if_pos hio, ite_self]
    exact herr .failed (by decide)
  · rw [if_neg hio, if_neg hio]
    cases hseek : seek st txn with
    | none =>
      rw [ite_self]
      exact ⟨mdbxGet_none hseek, hentry⟩
    | some f =>
      have hget := mdbxGet_some hseek
      dsimp only
      split_ifs with hbatch hcap hclean hdup hdirty hcap' hfail
      · exact herr .failed (by decide)
      · exact refreshed_right hinv htxn hentry hseek (Bool.eq_false_of_not_eq_true hclean.1)
          hclean.2.1
      · exact ⟨hget, hentry⟩
      · exact herr .emultival (by decide)
      · exact herr .failed (by decide)
      · exact ⟨hget, hentry⟩
      · exact herr .failed (by decide)
      · exact refreshed_right hinv htxn hentry hseek (Bool.eq_false_of_not_eq_true hdup)
          (Nat.le_of_not_lt hdirty)

-- within the interval of the entry the snapshot has the leaf that the entry tells of
theorem hit_agrees {st : State} (hinv : Inv cfg st) {who : Who} {txn : Txn}
    (htxn : st.txn who = some txn) {entry : Entry} (hentry : EntryOk st entry)
    (htrunk : entry.trunkTxnid ≤ txn.txnid) (hlast : txn.txnid ≤ entry.lastConfirmedTxnid) :
    entry.offset ≠ 0 ∧
      mdbxGet st txn = some (readBytes st.storage entry.offset entry.length) := by
  have hstep := cfg.step_pos
  cases hentry with
  | inl hinit =>
    have hpos : 0 < txn.txnid := by
      cases hinv.txnid htxn with
      | inl h =>
        have ⟨s, hs, hreader⟩ := h
        exact hreader ▸ hinv.pos s hs
      | inr h =>
        have ⟨w, htxnid, _⟩ := h
        omega
    rw [hinit] at hlast
    exact absurd hpos (Nat.not_lt.mpr hlast)
  | inr h =>
    have ⟨s₀, hs₀, it, hit, heq, _⟩ := h
    rw [heq] at htrunk hlast ⊢
    refine ⟨(hinv.leaf s₀ hs₀ it hit).2.1, ?_⟩
    cases hinv.txnid htxn with
    | inl h =>
      have ⟨s, hs, hreader⟩ := h
      rw [hreader] at htrunk hlast ⊢
      have hitem := hinv.same s hs s₀ hs₀ hlast it hit htrunk
      change (s.item.map (Item.found st.storage)).map Found.value = _
      rw [hitem]
      rfl
    | inr h =>
      have ⟨w, htxnid, _⟩ := h
      have hnew := hinv.newest s₀ hs₀
      simp only at hlast
      omega

theorem cacheGet_right {st : State} (hinv : Inv cfg st) {who : Who} {txn : Txn}
    (htxn : st.txn who = some txn) (io : Io) {entry : Entry} (hentry : EntryOk st entry) :
    Right st txn (cacheGet cfg st txn io entry) := by
  unfold cacheGet cacheGetNommap
  split_ifs with hinvalid hcheck hbehind hlast hoffset hneg
  · exact right_error hentry (by decide)
  · exact right_error hentry (by decide)
  · exact uncached_right hentry
  · have ⟨_, hget⟩ := hit_agrees hinv htxn hentry (Nat.le_of_not_lt hbehind) hlast
    cases io.materialize with
    | done => exact ⟨hget, hentry⟩
    | fallback => exact uncached_right hentry
    | failed => exact right_error hentry (by decide)
  · have ⟨hne, _⟩ := hit_agrees hinv htxn hentry (Nat.le_of_not_lt hbehind) hlast
    exact absurd hne hoffset
  · exact uncached_right hentry
  · exact refresh_right hinv htxn hentry

theorem cachedGet_right {st : State} (hinv : Inv cfg st) {who : Who} {txn : Txn}
    (htxn : st.txn who = some txn) (io : Io) (single : Bool) :
    Right st txn (cachedGet cfg st txn io single) := by
  have hright := cacheGet_right hinv htxn io hinv.entry
  unfold cachedGet mdbxCacheGetSingleThreaded mdbxCacheGet
  dsimp only
  split_ifs
  · exact hright
  · exact ⟨hright.agrees, hinv.entry⟩
  · exact hright
  · exact ⟨hright.agrees, hinv.entry⟩

/-! ## 4. Runs -/

theorem EntryOk.mono {st st' : State} {entry : Entry} (h : EntryOk st entry)
    (hsub : ∀ s ∈ st.history, s ∈ st'.history) : EntryOk st' entry :=
  h.imp_right fun ⟨s, hs, hrest⟩ => ⟨s, hsub s hs, hrest⟩

-- readers come and go
theorem Inv.setReaders {st : State} (hinv : Inv cfg st) {readers : List Snapshot}
    (hsub : ∀ s ∈ readers, s ∈ st.inUse) : Inv cfg { st with readers := readers } := by
  have huse : ∀ s ∈ st.recent :: readers, s ∈ st.inUse := by
    intro s hs
    cases List.mem_cons.mp hs with
    | inl h => exact h ▸ List.mem_cons_self
    | inr h => exact hsub s h
  have hhist : ∀ s ∈ st.inUse, s ∈ st.history := by
    intro s hs
    cases List.mem_cons.mp hs with
    | inl h => exact h ▸ List.mem_cons_self
    | inr h => exact hinv.readers s h
  refine ⟨hinv.pos, hinv.newest, hinv.leaf, hinv.same, fun s hs => hinv.stored s (huse s hs),
    fun s hs => hhist s (hsub s hs), fun w hw => ?_, hinv.entry⟩
  have ⟨htxnid, htaken, hdirty⟩ := hinv.writer w hw
  exact ⟨htxnid, fun p hp s hs => htaken p hp s (huse s hs), hdirty⟩

theorem Inv.setWriter {st : State} (hinv : Inv cfg st) {writer : Option Writer}
    (h : ∀ w ∈ writer, w.txnid = st.recent.txnid + cfg.txnidStep ∧
      (∀ p ∈ w.taken, ∀ s ∈ st.inUse, p ∉ s.pages) ∧ ∀ d ∈ w.dirty, d.Ok cfg w.txnid) :
    Inv cfg { st with writer := writer } :=
  ⟨hinv.pos, hinv.newest, hinv.leaf, hinv.same, hinv.stored, hinv.readers, h, hinv.entry⟩

theorem Inv.setEntry {st : State} (hinv : Inv cfg st) {entry : Entry} (h : EntryOk st entry) :
    Inv cfg { st with entry := entry } :=
  ⟨hinv.pos, hinv.newest, hinv.leaf, hinv.same, hinv.stored, hinv.readers, hinv.writer, h⟩

-- the node of the key in a new snapshot is that of the one before, or in a leaf of its own
theorem Writer.item_cases {w : Writer} {recent : Option Item} {offset length : Nat} {it : Item}
    (h : w.item recent offset length = some it) : recent = some it ∨
      ∃ d ∈ w.dirty, ∃ n ∈ d.node, it = ⟨w.txnid, n.1, offset, length, n.2⟩ := by
  unfold Writer.item at h
  cases hd : w.dirty with
  | none =>
    rw [hd] at h
    exact Or.inl h
  | some d =>
    rw [hd] at h
    have ⟨n, hn, hit⟩ := Option.map_eq_some_iff.mp h
    exact Or.inr ⟨d, rfl, n, hn, hit.symm⟩

theorem commit_inv {st st' : State} (hinv : Inv cfg st) {w : Writer} (hw : st.writer = some w)
    {retired : List Nat} {writes : List (Nat × UInt8)} {offset length : Nat}
    (hs : commit cfg st w retired writes offset length = some st') : Inv cfg st' := by
  unfold commit at hs
  dsimp only at hs
  split_ifs at hs with hguard
  rw [← Option.some.inj hs]
  have ⟨hwrites, hpages, hbytes⟩ := hguard
  have ⟨htxnid, htaken, hdirty⟩ := hinv.writer w hw
  have hstep := cfg.step_pos
  have hold : ∀ s ∈ st.history, s.txnid < w.txnid := by
    intro s hs
    have hle := hinv.newest s hs
    omega
  have hkept : ∀ s ∈ st.inUse, ∀ it ∈ s.item,
      readBytes (writeBytes st.storage writes) it.offset it.length = it.value := by
    intro s hs it hit
    have ⟨hin, hvalue⟩ := hinv.stored s hs it hit
    rw [readBytes_write hin hwrites fun p hp => htaken p hp s hs]
    exact hvalue
  refine ⟨?_, ?_, ?_, ?_, ?_, ?_, ?_, ?_⟩
  · intro s hs
    cases List.mem_cons.mp hs with
    | inl h =>
      rw [h]
      change 0 < w.txnid
      omega
    | inr h => exact hinv.pos s h
  · intro s hs
    change s.txnid ≤ w.txnid
    cases List.mem_cons.mp hs with
    | inl h => exact h ▸ Nat.le_refl _
    | inr h => exact Nat.le_of_lt (hold s h)
  · intro s hs it hit
    cases List.mem_cons.mp hs with
    | inl h =>
      rw [h] at hit ⊢
      cases Writer.item_cases hit with
      | inl hrecent =>
        have ⟨hle, hrest⟩ := hinv.leaf st.recent List.mem_cons_self it hrecent
        exact ⟨Nat.le_trans hle (Nat.le_of_lt (hold st.recent List.mem_cons_self)), hrest⟩
      | inr hnew =>
        have ⟨d, hd, n, hn, heq⟩ := hnew
        have hpos := (hpages it hit).2.1
        rw [heq] at hpos ⊢
        exact ⟨Nat.le_refl _, Nat.ne_of_gt hpos, (hdirty d hd).2 n hn⟩
    | inr h => exact hinv.leaf s h it hit
  · intro s hs s' hs' hle it hit hleaf
    cases List.mem_cons.mp hs with
    | inl h =>
      cases List.mem_cons.mp hs' with
      | inl h' =>
        rw [h, ← h']
        exact hit
      | inr h' =>
        have hlt := hold s' h'
        rw [h] at hle
        exact absurd hlt (Nat.not_lt.mpr hle)
    | inr h =>
      cases List.mem_cons.mp hs' with
      | inl h' =>
        rw [h'] at hit
        cases Writer.item_cases hit with
        | inl hrecent =>
          exact hinv.same s h st.recent List.mem_cons_self (hinv.newest s h) it hrecent hleaf
        | inr hnew =>
          have ⟨d, hd, n, hn, heq⟩ := hnew
          have hlt := hold s h
          rw [heq] at hleaf
          exact absurd hlt (Nat.not_lt.mpr hleaf)
      | inr h' => exact hinv.same s h s' h' hle it hit hleaf
  · intro s hs it hit
    cases List.mem_cons.mp hs with
    | inl h =>
      rw [h] at hit ⊢
      refine ⟨hpages it hit, ?_⟩
      cases Writer.item_cases hit with
      | inl hrecent => exact hkept st.recent List.mem_cons_self it hrecent
      | inr hnew =>
        have ⟨d, hd, n, hn, heq⟩ := hnew
        rw [heq]
        exact hbytes d hd n hn
    | inr h =>
      have huse : s ∈ st.inUse := List.mem_cons_of_mem _ h
      exact ⟨(hinv.stored s huse it hit).1, hkept s huse it hit⟩
  · exact fun s hs => List.mem_cons_of_mem _ (hinv.readers s hs)
  · exact fun w hw => nomatch hw
  · exact hinv.entry.mono fun s hs => List.mem_cons_of_mem _ hs

theorem step_inv {st st' : State} {e : Event} (hinv : Inv cfg st)
    (hs : step cfg st e = some st') : Inv cfg st' := by
  cases e with
  | beginRead =>
    rw [← Option.some.inj hs]
    exact hinv.setReaders fun s hs => hs
  | clone i =>
    have ⟨s, hget, heq⟩ := Option.map_eq_some_iff.mp hs
    rw [← heq]
    apply hinv.setReaders
    intro r hr
    cases List.mem_cons.mp hr with
    | inl h => exact h ▸ List.mem_cons_of_mem _ (List.mem_of_getElem? hget)
    | inr h => exact List.mem_cons_of_mem _ h
  | endRead i =>
    rw [← Option.some.inj hs]
    exact hinv.setReaders fun s hs => List.mem_cons_of_mem _ (List.mem_of_mem_eraseIdx hs)
  | beginWrite =>
    dsimp only [step] at hs
    split at hs
    · rw [← Option.some.inj hs]
      apply hinv.setWriter
      intro w hw
      rw [← Option.some.inj hw]
      exact ⟨rfl, fun p hp => absurd hp List.not_mem_nil, fun d hd => nomatch hd⟩
    · exact nomatch hs
  | take pgno =>
    dsimp only [step] at hs
    split at hs
    · rename_i w hw
      split_ifs at hs with hfree
      rw [← Option.some.inj hs]
      have ⟨htxnid, htaken, hdirty⟩ := hinv.writer w hw
      apply hinv.setWriter
      intro w' hw'
      rw [← Option.some.inj hw']
      refine ⟨htxnid, fun p hp => ?_, hdirty⟩
      cases List.mem_cons.mp hp with
      | inl h => exact h ▸ hfree
      | inr h => exact htaken p h
    · exact nomatch hs
  | modify dirty =>
    dsimp only [step] at hs
    split at hs
    · rename_i w hw
      split_ifs at hs with hok
      rw [← Option.some.inj hs]
      have ⟨htxnid, htaken, _⟩ := hinv.writer w hw
      apply hinv.setWriter
      intro w' hw'
      rw [← Option.some.inj hw']
      exact ⟨htxnid, htaken, hok⟩
    · exact nomatch hs
  | commit retired writes offset length =>
    dsimp only [step] at hs
    split at hs
    · rename_i w hw
      exact commit_inv hinv hw hs
    · exact nomatch hs
  | abort =>
    rw [← Option.some.inj hs]
    exact hinv.setWriter fun w hw => nomatch hw
  | init =>
    rw [← Option.some.inj hs]
    exact hinv.setEntry (Or.inl rfl)
  | get who io single =>
    have ⟨txn, htxn, heq⟩ := Option.map_eq_some_iff.mp hs
    rw [← heq]
    exact hinv.setEntry (cachedGet_right hinv htxn io single).entry

theorem reachable_inv {st : State} (h : Reachable cfg st) : Inv cfg st := by
  induction h with
  | init h => exact h.inv
  | step _ e hs ih => exact step_inv ih hs

/-! ## 5. Agreement -/

/-- From the trunk to the last confirmed snapshot the key has the value at the offset. -/
def EntryHolds (st : State) : Prop :=
  ∃ v, ∀ s ∈ st.history, st.entry.trunkTxnid ≤ s.txnid → s.txnid ≤ st.entry.lastConfirmedTxnid →
    ∃ it, s.item = some it ∧ it.dup = false ∧ it.offset = st.entry.offset ∧
      it.length = st.entry.length ∧ it.value = v ∧
      (s ∈ st.inUse → readBytes st.storage st.entry.offset st.entry.length = v)

theorem Inv.entryHolds {st : State} (hinv : Inv cfg st) : EntryHolds st := by
  cases hinv.entry with
  | inl hinit =>
    refine ⟨[], fun s hs _ hlast => ?_⟩
    rw [hinit] at hlast
    exact absurd (hinv.pos s hs) (Nat.not_lt.mpr hlast)
  | inr h =>
    have ⟨s₀, hs₀, it, hit, heq, hdup⟩ := h
    refine ⟨it.value, fun s hs htrunk hlast => ?_⟩
    rw [heq] at htrunk hlast ⊢
    have hitem := hinv.same s hs s₀ hs₀ hlast it hit htrunk
    exact ⟨it, hitem, hdup, rfl, rfl, rfl, fun huse => (hinv.stored s huse it hitem).2⟩

theorem cached_gets_agree {st : State} (h : Reachable cfg st) :
    (∀ who txn io single, st.txn who = some txn →
      Agrees st txn (cachedGet cfg st txn io single).1) ∧ EntryHolds st :=
  ⟨fun _ _ io single htxn => (cachedGet_right (reachable_inv h) htxn io single).agrees,
    (reachable_inv h).entryHolds⟩

/-- The steps of a list, one after the other. -/
def run (cfg : Config) (st : State) : List Event → Option State
  | [] => some st
  | e :: es => (step cfg st e).bind fun st' => run cfg st' es

theorem reachable_run {st st' : State} {es : List Event} (h : Reachable cfg st)
    (hrun : run cfg st es = some st') : Reachable cfg st' := by
  induction es generalizing st with
  | nil => exact Option.some.inj hrun ▸ h
  | cons e es ih =>
    have ⟨st₁, hs, hrest⟩ := Option.bind_eq_some_iff.mp hrun
    exact ih (h.step e hs) hrest

def smallPages : Config := ⟨16, 1, Nat.one_pos, false⟩

def emptyTable : State := ⟨fun _ => 0, ⟨1, none, []⟩, [], [], none, .init⟩

/-- No failures. -/
def quiet : Io := ⟨false, false, false, false, false, .done⟩

/-- One byte is put, and read by way of the entry. -/
def putsAndReads : List Event :=
  [.beginWrite, .take 3, .modify (some ⟨2, some (false, [7])⟩), .commit [] [(50, 7)] 50 1,
    .beginRead, .get (.reader 0) quiet false]

def confirmed : State := (run smallPages emptyTable putsAndReads).getD emptyTable

theorem confirmed_reachable : Reachable smallPages confirmed :=
  reachable_run (.init ⟨by decide, rfl, rfl, rfl, rfl, rfl⟩)
    (show run smallPages emptyTable putsAndReads = some confirmed from rfl)

theorem confirmed_agrees : confirmed.entry = ⟨2, 2, 50, 1⟩ ∧
    Agrees confirmed (.reader confirmed.recent)
      (cachedGet smallPages confirmed (.reader confirmed.recent) quiet false).1 ∧
    EntryHolds confirmed :=
  have h := cached_gets_agree confirmed_reachable
  ⟨rfl, h.1 (.reader 0) _ quiet false rfl, h.2⟩

end Mdbx.Cached
