import Mdbx.PageCache.Exact

/-!
# PageCache.Sections — what a critical section can do to the list

Every entry after a critical section was there before it, at the same address, or has been filled.
It does not become reusable again, and its pages change by materialization only.  An entry leaves
the list only when it is freed.
-/

namespace Mdbx.PageCache

/-! ## 1. Updates that leave the addresses alone -/

theorem addrs_updateEntry {a : Nat} {f : Entry → Entry} {es : List Entry}
    (hf : ∀ e, (f e).addr = e.addr) : addrs (updateEntry a f es) = addrs es := by
  unfold addrs updateEntry
  rw [List.map_map]
  apply List.map_congr_left
  intro e _
  simp only [Function.comp_apply]
  split_ifs
  · exact hf e
  · rfl

theorem liveAddrs_congr {s s' : Storage} (he : addrs s'.cache.entries = addrs s.cache.entries)
    (hf : s'.fills = s.fills) (hp : addrs s'.privates = addrs s.privates) :
    liveAddrs s' = liveAddrs s := by
  unfold liveAddrs
  rw [he, hf, hp]

theorem Core.of_addrs {s s' : Storage} (h : Core s) (hc : Counted s'.cache)
    (heq : liveAddrs s' = liveAddrs s) (hnext : s'.nextAddr = s.nextAddr)
    (hfreed : s'.freed = s.freed) : Core s' := by
  apply h.of_subperm hc _ hnext
  · rw [hfreed]
    exact h.freed
  · rw [heq]

theorem Counted.perm {c : Cache} {es : List Entry} (h : Counted c) (hp : es.Perm c.entries) :
    Counted { c with entries := es } where
  entriesCount := by rw [h.entriesCount]; exact hp.length_eq.symm
  reusableCount := by rw [h.reusableCount]; exact (hp.map _).sum_nat.symm
  pages := by rw [h.pages]; exact (hp.map _).sum_nat.symm
  bytes := by rw [h.bytes]; exact (hp.map _).sum_nat.symm
  pinned := by rw [h.pinned]; exact (hp.map _).sum_nat.symm

/-! ## 2. Pins -/

-- one more pin on `e`, in place
theorem Counted.pin {c : Cache} {l₁ l₂ : List Entry} {e : Entry} (h : Counted c)
    (hc : c.entries = l₁ ++ e :: l₂) :
    Counted { c with entries := l₁ ++ { e with pins := e.pins + 1 } :: l₂
                     pinned := c.pinned + 1 } := by
  have hch := h.change { e with pins := e.pins + 1 } hc
  have hpin : c.pinned + (e.pins + 1) - e.pins = c.pinned + 1 := by omega
  simpa [hpin] using hch

theorem Counted.unpin {c : Cache} {l₁ l₂ : List Entry} {e : Entry} (h : Counted c)
    (hc : c.entries = l₁ ++ e :: l₂) (hp : 0 < e.pins) :
    Counted { c with entries := l₁ ++ { e with pins := e.pins - 1 } :: l₂
                     pinned := c.pinned - 1 } := by
  have hch := h.change { e with pins := e.pins - 1 } hc
  have hpin : c.pinned + (e.pins - 1) - e.pins = c.pinned - 1 := by omega
  simpa [hpin] using hch

-- the state after an unpin, before the entry is kept, pruned or freed
theorem Core.unpin {s : Storage} {e : Entry} (h : Core s) (he : e ∈ s.cache.entries)
    (hp : 0 < e.pins) : Core { s with cache := { s.cache with
      entries := updateEntry e.addr (fun e => { e with pins := e.pins - 1 }) s.cache.entries
      pinned := s.cache.pinned - 1 } } := by
  obtain ⟨l₁, l₂, hes, -, hupd⟩ := entry_split h.nodup_entries he
  apply h.of_addrs
  · simp only [hupd]
    exact h.counted.unpin hes hp
  · exact liveAddrs_congr (addrs_updateEntry fun _ => rfl) rfl rfl
  · rfl
  · rfl

theorem fills_perm {a : Nat} {fills : List Fill} {f : Fill}
    (h : (fills.find? fun f => f.entry.addr = a) = some f) :
    f.entry.addr = a ∧ (fills.map fun f => f.entry.addr).Perm
      (a :: (eraseFill a fills).map fun f => f.entry.addr) := by
  obtain ⟨hf, l₁, l₂, rfl, hno⟩ := List.find?_eq_some_iff_append.mp h
  have haddr : f.entry.addr = a := by simpa using hf
  refine ⟨haddr, ?_⟩
  have herase : eraseFill a (l₁ ++ f :: l₂) = l₁ ++ l₂ := by
    unfold eraseFill
    rw [List.eraseP_append_right]
    · simp [haddr]
    · intro x hx
      simpa using hno x hx
  rw [herase, List.map_append, List.map_append, List.map_cons, haddr]
  exact List.perm_middle

-- a new entry takes the next address, which is above every live one
theorem Core.new_addr {s s' : Storage} (h : Core s)
    (hperm : (s.nextAddr :: liveAddrs s).Perm (liveAddrs s'))
    (hnext : s'.nextAddr = s.nextAddr + 1) (hc : Counted s'.cache)
    (hfreed : ∀ x ∈ s'.freed, x.1 = .release → x.2.pins = 0) : Core s' where
  counted := hc
  nodup := by
    have hnew : s.nextAddr ∉ liveAddrs s := by
      intro hmem
      exact Nat.lt_irrefl _ (h.fresh _ hmem)
    exact hperm.nodup_iff.mp (List.nodup_cons.mpr ⟨hnew, h.nodup⟩)
  fresh := by
    intro a ha
    rw [hnext]
    rcases List.mem_cons.mp (hperm.symm.subset ha) with rfl | ha
    · exact Nat.lt_succ_self _
    · exact Nat.lt_succ_of_lt (h.fresh a ha)
  freed := hfreed

/-- What `dxb_storage_make_cache_insert_submit_io` demands of a fill. -/
def Insertable (f : Fill) : Prop :=
  f.read.tracked = true ∧ f.entry.pins = 1 ∧ f.entry.snapshotTxnid = f.read.snapshot ∧
    f.entry.reusable = f.read.reusable ∧ f.entry.io = f.read.pages

theorem insertCachedPage_refused {s : Storage} {f : Fill} (h : ¬ Insertable f) :
    insertCachedPage s f = (.einval, s) := by
  unfold insertCachedPage
  dsimp only
  rw [if_pos]
  by_contra hno
  push Not at hno
  exact h ⟨by simpa using hno.1, hno.2⟩

theorem insertCachedPage_ok {s : Storage} {f : Fill} (h : Insertable f) :
    insertCachedPage s f = (.success, pruneLocked { s with
      fills := eraseFill f.entry.addr s.fills
      cache :=
        { entries := f.entry :: s.cache.entries
          entriesCount := s.cache.entriesCount + 1
          reusableCount := s.cache.reusableCount + if f.entry.reusable then 1 else 0
          pages := s.cache.pages + f.entry.io.npages
          bytes := s.cache.bytes + f.entry.io.bytes
          pinned := s.cache.pinned + 1 } }) := by
  obtain ⟨htracked, hpins, hsnap, hre, hio⟩ := h
  unfold insertCachedPage
  dsimp only
  rw [if_neg]
  simp [htracked, hpins, hsnap, hre, hio]

/-! ## 2. Before and after -/

/-- What an entry was before. -/
structure Origin (e e' : Entry) : Prop where
  addr : e'.addr = e.addr
  reusable : e'.reusable = true → e.reusable = true
  unpinned : e'.pins = 0 → e'.reusable = true ∨ (e.pins = 0 ∧ e'.reusable = e.reusable)

theorem Origin.refl (e : Entry) : Origin e e := ⟨rfl, id, fun h => Or.inr ⟨h, rfl⟩⟩

/-- From one state to another: `grown` tells which pages can come into an entry that is there, and
`filled` which entries are new. -/
structure Passes (s s' : Storage) (grown : PageIo → Prop) (filled : Entry → Prop) : Prop where
  core : Core s'
  origin : ∀ e' ∈ s'.cache.entries,
    (∃ e ∈ s.cache.entries, Origin e e' ∧ (e'.io = e.io ∨ grown e'.io)) ∨ filled e'
  leaves : ∃ gone, s'.freed = gone ++ s.freed ∧ ∀ e ∈ s.cache.entries,
    e.addr ∈ addrs s'.cache.entries ∨ ∃ x ∈ gone, x.2.addr = e.addr ∧ x.1 ≠ .fillDiscard

section Passes

variable {s s' s'' : Storage} {grown : PageIo → Prop} {filled : Entry → Prop}

/-- No pages come into an entry, or no entry is new. -/
def NoPages (_ : PageIo) : Prop := False

def NoEntry (_ : Entry) : Prop := False

theorem Passes.refl (h : Core s) : Passes s s grown filled :=
  ⟨h, fun e he => Or.inl ⟨e, he, Origin.refl e, Or.inl rfl⟩,
    [], rfl, fun _ he => Or.inl (List.mem_map_of_mem he)⟩

/-- Entries are freed after that. -/
theorem Passes.free (h : Passes s s' grown filled) (h' : Passes s' s'' NoPages NoEntry)
    (hsub : s''.cache.entries ⊆ s'.cache.entries) : Passes s s'' grown filled := by
  obtain ⟨gone, hgone, hleft⟩ := h.leaves
  obtain ⟨gone', hgone', hleft'⟩ := h'.leaves
  refine ⟨h'.core, fun e he => h.origin e (hsub he), gone' ++ gone, ?_, fun e he => ?_⟩
  · rw [hgone', hgone, List.append_assoc]
  · rcases hleft e he with hin | ⟨x, hx, haddr, hby⟩
    · obtain ⟨e', he', haddr'⟩ := List.mem_map.mp hin
      rw [← haddr']
      rcases hleft' e' he' with hin' | ⟨x, hx, haddr, hby⟩
      · exact Or.inl hin'
      · exact Or.inr ⟨x, List.mem_append_left _ hx, haddr, hby⟩
    · exact Or.inr ⟨x, List.mem_append_right _ hx, haddr, hby⟩

-- a section that frees nothing
theorem Passes.of_freed (hcore : Core s') (hfreed : s'.freed = s.freed)
    (horigin : ∀ e' ∈ s'.cache.entries,
      (∃ e ∈ s.cache.entries, Origin e e' ∧ (e'.io = e.io ∨ grown e'.io)) ∨ filled e')
    (haddrs : addrs s.cache.entries ⊆ addrs s'.cache.entries) : Passes s s' grown filled :=
  ⟨hcore, horigin, [], hfreed, fun _ he => Or.inl (haddrs (List.mem_map_of_mem he))⟩

theorem Passes.exact (h : Passes s s' grown filled) (hkept : Kept s.cache.entries)
    (hfilled : ∀ e, filled e → e.pins ≠ 0) : Exact s' := by
  refine ⟨h.core, fun e' he' hp => ?_⟩
  rcases h.origin e' he' with ⟨e, he, horigin, -⟩ | hnew
  · rcases horigin.unpinned hp with hr | ⟨hp', heq⟩
    · exact hr
    · rw [heq]
      exact hkept e he hp'
  · exact absurd hp (hfilled e' hnew)

theorem mem_updateEntry {a : Nat} {f : Entry → Entry} {es : List Entry} {e' : Entry}
    (h : e' ∈ updateEntry a f es) : ∃ e ∈ es, e' = f e ∨ e' = e := by
  obtain ⟨e, he, rfl⟩ := List.mem_map.mp h
  refine ⟨e, he, ?_⟩
  split_ifs
  · exact Or.inl rfl
  · exact Or.inr rfl

/-! ## 3. Release and prune -/

theorem Core.release_passes {e : Entry} (h : Core s) (he : e ∈ s.cache.entries)
    (hp : e.pins = 0) : Passes s (releaseEntryLocked s e) NoPages NoEntry := by
  obtain ⟨l₁, l₂, hes⟩ := List.append_of_mem he
  obtain ⟨hcore, hents⟩ := h.release hes hp
  refine ⟨hcore, fun e' he' => ?_, [(.release, e)], rfl, fun x hx => ?_⟩
  · exact Or.inl ⟨e', List.eraseP_subset he', Origin.refl e', Or.inl rfl⟩
  · rw [hents]
    rw [hes] at hx
    rcases List.mem_append.mp hx with hx | hx
    · exact Or.inl (List.mem_map_of_mem (List.mem_append_left _ hx))
    · rcases List.mem_cons.mp hx with rfl | hx
      · exact Or.inr ⟨_, List.mem_cons_self, rfl, FreedBy.noConfusion⟩
      · exact Or.inl (List.mem_map_of_mem (List.mem_append_right _ hx))

theorem releaseEntryLocked_subset (s : Storage) (e : Entry) :
    (releaseEntryLocked s e).cache.entries ⊆ s.cache.entries := List.eraseP_subset

theorem pruneRounds_passes (n : Nat) (h : Core s) :
    Passes s (pruneRounds s n) NoPages NoEntry ∧
      (pruneRounds s n).cache.entries ⊆ s.cache.entries := by
  induction n generalizing s with
  | zero => exact ⟨Passes.refl h, List.Subset.refl _⟩
  | succ n ih =>
    unfold pruneRounds
    split_ifs with hover
    · cases hv : pruneVictim s.cache.entries with
      | none => exact ⟨Passes.refl h, List.Subset.refl _⟩
      | some victim =>
        obtain ⟨hmem, hpins⟩ := pruneVictim_mem hv
        have hrelease := h.release_passes hmem hpins
        obtain ⟨hrest, hsub⟩ := ih hrelease.core
        exact ⟨hrelease.free hrest hsub, List.Subset.trans hsub (releaseEntryLocked_subset s victim)⟩
    · exact ⟨Passes.refl h, List.Subset.refl _⟩

theorem Passes.prune (h : Passes s s' grown filled) : Passes s (pruneLocked s') grown filled :=
  h.free (pruneRounds_passes _ h.core).1 (pruneRounds_passes _ h.core).2

/-! ## 4. Lookups and references -/

theorem lookupCachedPage_passes (read : ReadIo) (h : Core s) :
    Passes s (lookupCachedPage s read).2 NoPages NoEntry := by
  unfold lookupCachedPage
  split_ifs with hre
  · exact Passes.refl h
  · cases hf : s.cache.entries.find? fun e => canReuse e read with
    | none => exact Passes.refl h
    | some e =>
      have hmem := List.mem_of_find?_eq_some hf
      obtain ⟨l₁, l₂, hes, herase, -⟩ := entry_split h.nodup_entries hmem
      have hperm : ({ e with pins := e.pins + 1 } :: (l₁ ++ l₂)).Perm
          (l₁ ++ { e with pins := e.pins + 1 } :: l₂) := List.perm_middle.symm
      have haddrs : (e.addr :: addrs (l₁ ++ l₂)).Perm (addrs s.cache.entries) := by
        have hmid : (e.addr :: (addrs l₁ ++ addrs l₂)).Perm (addrs l₁ ++ e.addr :: addrs l₂) :=
          List.perm_middle.symm
        rw [hes]
        simpa [addrs] using hmid
      refine Passes.of_freed (h.of_subperm ?_ ?_ rfl h.freed) rfl ?_ ?_
      · simp only [herase]
        exact (h.counted.pin hes).perm hperm
      · simp only [liveAddrs, herase]
        exact (haddrs.append_right _).subperm
      · intro e' he'
        left
        rcases List.mem_cons.mp he' with rfl | he'
        · exact ⟨e, hmem, ⟨rfl, id, fun h0 => absurd h0 (Nat.succ_ne_zero _)⟩, Or.inl rfl⟩
        · exact ⟨e', List.eraseP_subset he', Origin.refl e', Or.inl rfl⟩
      · simp only [herase]
        exact haddrs.symm.subset

theorem retainCachedRef_passes (ref : PageRef) (h : Core s) :
    Passes s (retainCachedRef s ref).2 NoPages NoEntry := by
  unfold retainCachedRef
  cases hf : findEntry ref.cache s.cache.entries with
  | some e =>
    obtain ⟨hmem, haddr⟩ := findEntry_mem hf
    obtain ⟨l₁, l₂, hes, -, hupd⟩ := entry_split h.nodup_entries hmem
    rw [haddr] at hupd
    simp only
    split_ifs with hv
    · exact Passes.refl h
    · have hkeep : addrs (updateEntry ref.cache (fun e => { e with pins := e.pins + 1 })
          s.cache.entries) = addrs s.cache.entries := addrs_updateEntry fun _ => rfl
      refine Passes.of_freed (h.of_addrs ?_ (liveAddrs_congr hkeep rfl rfl) rfl rfl) rfl ?_ ?_
      · simp only [hupd]
        exact h.counted.pin hes
      · intro e' he'
        obtain ⟨e, he, rfl | rfl⟩ := mem_updateEntry he'
        · exact Or.inl ⟨e, he, ⟨rfl, id, fun h0 => absurd h0 (Nat.succ_ne_zero _)⟩, Or.inl rfl⟩
        · exact Or.inl ⟨e', he, Origin.refl e', Or.inl rfl⟩
      · show addrs s.cache.entries ⊆ addrs (updateEntry _ _ s.cache.entries)
        rw [hkeep]
        exact List.Subset.refl _
  | none =>
    simp only
    cases hp : findEntry ref.cache s.privates with
    | none => exact Passes.refl h
    | some e =>
      simp only
      split_ifs with hv
      · exact Passes.refl h
      · refine Passes.of_freed (h.of_addrs h.counted
          (liveAddrs_congr rfl rfl (addrs_updateEntry fun _ => rfl)) rfl rfl) rfl ?_
            (List.Subset.refl _)
        exact fun e he => Or.inl ⟨e, he, Origin.refl e, Or.inl rfl⟩

-- the last release of an entry without an owner
theorem erasePrivate_passes {a : Nat} {e : Entry} (h : Core s) (hp : e.pins = 0) :
    Passes s { s with
      privates := s.privates.eraseP fun x => x.addr = a, freed := (.release, e) :: s.freed }
      NoPages NoEntry := by
  refine ⟨h.of_subperm h.counted ?_ rfl ?_,
    fun e he => Or.inl ⟨e, he, Origin.refl e, Or.inl rfl⟩,
    [(.release, e)], rfl, fun _ he => Or.inl (List.mem_map_of_mem he)⟩
  · unfold liveAddrs addrs
    have hsub := (List.eraseP_sublist (p := fun x => decide (x.addr = a))
      (l := s.privates)).map fun e => e.addr
    exact ((List.Sublist.refl _).append ((List.Sublist.refl _).append hsub)).subperm
  · intro x hx hrel
    rcases List.mem_cons.mp hx with rfl | hx
    · exact hp
    · exact h.freed x hx hrel

-- one entry is changed in place
theorem mem_change {l₁ l₂ : List Entry} {e e' x : Entry} (hes : s.cache.entries = l₁ ++ e :: l₂)
    (hx : x ∈ l₁ ++ e' :: l₂) : x ∈ s.cache.entries ∨ x = e' := by
  rw [hes]
  rcases List.mem_append.mp hx with hx | hx
  · exact Or.inl (List.mem_append_left _ hx)
  · rcases List.mem_cons.mp hx with rfl | hx
    · exact Or.inr rfl
    · exact Or.inl (List.mem_append_right _ (List.mem_cons_of_mem _ hx))

theorem releaseCachedRef_passes (ref : PageRef) (h : Core s) :
    Passes s (releaseCachedRef s ref).2 NoPages NoEntry := by
  unfold releaseCachedRef
  cases hf : findEntry ref.cache s.cache.entries with
  | some e =>
    obtain ⟨hmem, haddr⟩ := findEntry_mem hf
    obtain ⟨l₁, l₂, hes, -, hupd⟩ := entry_split h.nodup_entries hmem
    rw [haddr] at hupd
    simp only
    by_cases hv : refValid ref e = true
    · have hpins : 0 < e.pins := by
        simp only [refValid, decide_eq_true_eq] at hv
        omega
      have hcore := h.unpin hmem hpins
      rw [haddr] at hcore
      have hkeep : addrs (updateEntry ref.cache (fun e => { e with pins := e.pins - 1 })
          s.cache.entries) = addrs s.cache.entries := addrs_updateEntry fun _ => rfl
      -- the entry with one pin less, if it may stay without one
      have hunpin : (e.pins - 1 = 0 → e.reusable = true) → Passes s { s with
          cache := { s.cache with
            entries := updateEntry ref.cache (fun e => { e with pins := e.pins - 1 }) s.cache.entries
            pinned := s.cache.pinned - 1 } } NoPages NoEntry := by
        intro hstay
        refine Passes.of_freed hcore rfl (fun e' he' => ?_) ?_
        · left
          simp only [hupd] at he'
          rcases mem_change hes he' with he' | rfl
          · exact ⟨e', he', Origin.refl e', Or.inl rfl⟩
          · exact ⟨e, hmem, ⟨rfl, id, fun h0 => Or.inl (hstay h0)⟩, Or.inl rfl⟩
        · show addrs s.cache.entries ⊆ addrs (updateEntry _ _ s.cache.entries)
          rw [hkeep]
          exact List.Subset.refl _
      simp only [hv, Bool.not_true, Bool.false_eq_true, if_false]
      by_cases hzero : e.pins - 1 = 0
      · rw [if_pos hzero]
        by_cases hre : e.reusable = true
        · rw [if_pos hre]
          exact (hunpin fun _ => hre).prune
        · rw [if_neg hre]
          obtain ⟨hcore', hents⟩ := hcore.release (hupd _) hzero
          refine ⟨hcore', fun e' he' => ?_, [_], rfl, fun x hx => ?_⟩
          · rw [hents] at he'
            have hsub : (l₁ ++ l₂).Sublist s.cache.entries := by
              rw [hes]
              exact (List.Sublist.refl l₁).append (List.sublist_cons_self e l₂)
            exact Or.inl ⟨e', hsub.subset he', Origin.refl e', Or.inl rfl⟩
          · rw [hents]
            rw [hes] at hx
            rcases List.mem_append.mp hx with hx | hx
            · exact Or.inl (List.mem_map_of_mem (List.mem_append_left _ hx))
            · rcases List.mem_cons.mp hx with rfl | hx
              · exact Or.inr ⟨_, List.mem_cons_self, rfl, FreedBy.noConfusion⟩
              · exact Or.inl (List.mem_map_of_mem (List.mem_append_right _ hx))
      · rw [if_neg hzero]
        exact hunpin fun h0 => absurd h0 hzero
    · simp only [hv, Bool.not_false, if_true]
      exact Passes.refl h
  | none =>
    simp only
    cases hp : findEntry ref.cache s.privates with
    | none => exact Passes.refl h
    | some e =>
      simp only
      split_ifs with hv hzero
      · exact Passes.refl h
      · exact erasePrivate_passes h hzero
      · refine Passes.of_freed (h.of_addrs h.counted
          (liveAddrs_congr rfl rfl (addrs_updateEntry fun _ => rfl)) rfl rfl) rfl ?_
            (List.Subset.refl _)
        exact fun e he => Or.inl ⟨e, he, Origin.refl e, Or.inl rfl⟩

/-! ## 5. Fills -/

theorem prepareReadCachedPage_passes (read : ReadIo) (alloc large : Bool) (h : Core s) :
    Passes s (prepareReadCachedPage s read alloc large).2 NoPages NoEntry := by
  unfold prepareReadCachedPage
  split_ifs with ha
  · exact Passes.refl h
  · have hperm : (s.nextAddr :: liveAddrs s).Perm (addrs s.cache.entries ++
        (s.nextAddr :: s.fills.map (fun f => f.entry.addr) ++ addrs s.privates)) :=
      List.perm_middle.symm
    exact Passes.of_freed (h.new_addr hperm rfl h.counted h.freed) rfl
      (fun e he => Or.inl ⟨e, he, Origin.refl e, Or.inl rfl⟩) (List.Subset.refl _)

-- the state in which a filled entry has come to the front of the list and nothing is pruned yet
theorem Core.insert {f : Fill} (h : Core s)
    (hf : (s.fills.find? fun x => x.entry.addr = f.entry.addr) = some f)
    (hpins : f.entry.pins = 1) : Core { s with
      fills := eraseFill f.entry.addr s.fills
      cache :=
        { entries := f.entry :: s.cache.entries
          entriesCount := s.cache.entriesCount + 1
          reusableCount := s.cache.reusableCount + if f.entry.reusable then 1 else 0
          pages := s.cache.pages + f.entry.io.npages
          bytes := s.cache.bytes + f.entry.io.bytes
          pinned := s.cache.pinned + 1 } } := by
  have hperm := (fills_perm hf).2
  refine h.of_subperm ?_ ?_ rfl h.freed
  · have hcons := h.counted.cons f.entry
    rw [hpins] at hcons
    exact hcons
  · apply List.Perm.subperm
    calc f.entry.addr :: addrs s.cache.entries ++
          ((eraseFill f.entry.addr s.fills).map (fun f => f.entry.addr) ++ addrs s.privates)
        |>.Perm (addrs s.cache.entries ++
          (f.entry.addr :: (eraseFill f.entry.addr s.fills).map (fun f => f.entry.addr) ++
            addrs s.privates)) := List.perm_middle.symm
      _ |>.Perm (liveAddrs s) := (hperm.symm.append_right _).append_left _

/-- The entry that a completed fill brings into the list. -/
def filledBy (s : Storage) (addr : Nat) (readOk : Bool) (e : Entry) : Prop :=
  readOk = true ∧ e.pins = 1 ∧ ∃ f ∈ s.fills, f.entry.addr = addr ∧ e = f.entry

theorem completeFill_passes (addr : Nat) (readOk : Bool) (h : Core s) :
    Passes s (completeFill s addr readOk).2 NoPages (filledBy s addr readOk) := by
  unfold completeFill
  cases hf : s.fills.find? fun f => f.entry.addr = addr with
  | none => exact Passes.refl h
  | some f =>
    obtain ⟨haddr, hperm⟩ := fills_perm hf
    have hdiscard : Passes s { s with
        fills := eraseFill addr s.fills, freed := (.fillDiscard, f.entry) :: s.freed } NoPages
        (filledBy s addr readOk) := by
      refine ⟨h.of_subperm h.counted ?_ rfl ?_,
        fun e he => Or.inl ⟨e, he, Origin.refl e, Or.inl rfl⟩,
        [_], rfl, fun _ he => Or.inl (List.mem_map_of_mem he)⟩
      · simp only [liveAddrs]
        have hsub := (List.eraseP_sublist (p := fun x => decide (x.entry.addr = addr))
          (l := s.fills)).map fun x => x.entry.addr
        exact ((List.Sublist.refl _).append (hsub.append (List.Sublist.refl _))).subperm
      · intro x hx hrel
        rcases List.mem_cons.mp hx with rfl | hx
        · exact absurd hrel FreedBy.noConfusion
        · exact h.freed x hx hrel
    simp only
    split_ifs with hread htracked hins
    · exact hdiscard
    · exact hdiscard
    · by_cases hok : Insertable f
      · subst haddr
        rw [insertCachedPage_ok hok]
        refine Passes.prune (Passes.of_freed (h.insert hf hok.2.1) rfl (fun e he => ?_)
          (List.subset_cons_self _ _))
        rcases List.mem_cons.mp he with rfl | he
        · refine Or.inr ⟨?_, hok.2.1, f, List.mem_of_find?_eq_some hf, rfl, rfl⟩
          simpa using hread
        · exact Or.inl ⟨e, he, Origin.refl e, Or.inl rfl⟩
      · rw [insertCachedPage_refused hok]
        exact Passes.refl h
    · refine Passes.of_freed (h.of_subperm h.counted ?_ rfl h.freed) rfl
        (fun e he => Or.inl ⟨e, he, Origin.refl e, Or.inl rfl⟩) (List.Subset.refl _)
      apply List.Perm.subperm
      have hback : ((eraseFill addr s.fills).map (fun f => f.entry.addr) ++
          f.entry.addr :: addrs s.privates).Perm
          (s.fills.map (fun f => f.entry.addr) ++ addrs s.privates) := by
        rw [haddr]
        exact List.perm_middle.trans (hperm.symm.append_right _)
      exact hback.append_left _

/-! ## 6. Materialization and release of everything -/

-- the state with the large page in the entry, before the prune
theorem Core.replace {e : Entry} (h : Core s) (he : e ∈ s.cache.entries) (io : PageIo) :
    Core { s with
      nextPage := s.nextPage + 1
      cache := { s.cache with
        entries := updateEntry e.addr
          (fun e => { e with io := io, page := s.nextPage, large := true }) s.cache.entries
        pages := s.cache.pages + io.npages - e.io.npages
        bytes := s.cache.bytes + io.bytes - e.io.bytes } } := by
  obtain ⟨l₁, l₂, hes, -, hupd⟩ := entry_split h.nodup_entries he
  refine h.of_addrs ?_ (liveAddrs_congr (addrs_updateEntry fun _ => rfl) rfl rfl) rfl rfl
  simp only [hupd]
  simpa using h.counted.change { e with io := io, page := s.nextPage, large := true } hes

theorem replaceMaterialized_passes (ref : PageRef) (io : PageIo) (h : Core s) :
    Passes s (replaceMaterialized s ref io).2 (· = io) NoEntry := by
  unfold replaceMaterialized
  split_ifs with hsmall
  · exact Passes.refl h
  · cases hf : findEntry ref.cache s.cache.entries with
    | some e =>
      obtain ⟨hmem, haddr⟩ := findEntry_mem hf
      obtain ⟨l₁, l₂, hes, -, hupd⟩ := entry_split h.nodup_entries hmem
      simp only
      split_ifs with hbad
      · exact Passes.refl h
      · have hkeep : addrs (updateEntry e.addr
            (fun e => { e with io := io, page := s.nextPage, large := true }) s.cache.entries) =
            addrs s.cache.entries := addrs_updateEntry fun _ => rfl
        rw [← haddr]
        refine Passes.prune (Passes.of_freed (h.replace hmem io) rfl (fun e' he' => ?_) ?_)
        · left
          simp only [hupd] at he'
          rcases mem_change hes he' with he' | rfl
          · exact ⟨e', he', Origin.refl e', Or.inl rfl⟩
          · exact ⟨e, hmem, ⟨rfl, id, fun h0 => Or.inr ⟨h0, rfl⟩⟩, Or.inr rfl⟩
        · show addrs s.cache.entries ⊆ addrs (updateEntry _ _ s.cache.entries)
          rw [hkeep]
          exact List.Subset.refl _
    | none =>
      simp only
      cases hp : findEntry ref.cache s.privates with
      | none => exact Passes.refl h
      | some e =>
        simp only
        split_ifs with hbad
        · exact Passes.refl h
        · refine Passes.of_freed (h.of_addrs h.counted
            (liveAddrs_congr rfl rfl (addrs_updateEntry fun _ => rfl)) rfl rfl) rfl ?_
              (List.Subset.refl _)
          exact fun e he => Or.inl ⟨e, he, Origin.refl e, Or.inl rfl⟩

-- the state with the detached entry, before the old reference is released
theorem Core.addPrivate {e : Entry} (h : Core s) (he : e.addr = s.nextAddr) :
    Core { s with
      privates := e :: s.privates, nextAddr := s.nextAddr + 1, nextPage := s.nextPage + 1 } := by
  have hperm : (s.nextAddr :: liveAddrs s).Perm (addrs s.cache.entries ++
      (s.fills.map (fun f => f.entry.addr) ++ s.nextAddr :: addrs s.privates)) := by
    unfold liveAddrs
    rw [← List.append_assoc, ← List.append_assoc]
    exact List.perm_middle.symm
  rw [← he] at hperm
  exact h.new_addr (by rw [← he]; exact hperm) rfl h.counted h.freed

theorem detachMaterialized_passes (ref : PageRef) (io : PageIo) (alloc : Bool) (h : Core s) :
    Passes s (detachMaterialized s ref io alloc).2 NoPages NoEntry := by
  unfold detachMaterialized
  cases hf : findEntry ref.cache s.cache.entries with
  | none => exact Passes.refl h
  | some e =>
    simp only
    split_ifs with hbad halloc
    · exact Passes.refl h
    · exact Passes.refl h
    · have hrelease := releaseCachedRef_passes ref (h.addPrivate (e :=
        { addr := s.nextAddr, page := s.nextPage, large := true, io := io
          snapshotTxnid := e.snapshotTxnid, pins := 1, reusable := false }) rfl)
      exact ⟨hrelease.core, hrelease.origin, hrelease.leaves⟩

theorem releaseAll_passes (h : Core s) : Passes s (releaseAll s) NoPages NoEntry := by
  refine ⟨h.of_subperm ⟨rfl, rfl, rfl, rfl, rfl⟩ ?_ rfl ?_,
    fun e he => absurd he List.not_mem_nil, _, rfl, fun e he => ?_⟩
  · exact (List.sublist_append_right (addrs s.cache.entries) _).subperm
  · intro x hx hrel
    rcases List.mem_append.mp hx with hx | hx
    · obtain ⟨e, -, rfl⟩ := List.mem_map.mp hx
      exact absurd hrel FreedBy.noConfusion
    · exact h.freed x hx hrel
  · exact Or.inr ⟨_, List.mem_map_of_mem he, rfl, FreedBy.noConfusion⟩

end Passes

end Mdbx.PageCache
