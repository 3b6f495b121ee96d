import Mdbx.PageCache.Granted

/-!
# PageCache.Filled — the two loops of `page_cache_read_batch_materialize`

The first loop ends every fill: in the cache, with its reader, or discarded.  The second gives each
duplicate what its master has got.  `Filling` and `Sharing` are their invariants, both relative to
the batch before the loop.
-/

namespace Mdbx.PageCache

/-! ## 1. The end of one fill -/

theorem find_eraseFill {a b : Nat} {fills : List Fill} (hne : a ≠ b) :
    ((eraseFill b fills).find? fun f => f.entry.addr = a) =
      fills.find? fun f => f.entry.addr = a := by
  unfold eraseFill
  induction fills with
  | nil => rfl
  | cons f fills ih =>
    by_cases hb : f.entry.addr = b
    · rw [List.eraseP_cons_of_pos (by simpa using hb),
        List.find?_cons_of_neg (by simpa using fun h : f.entry.addr = a => hne (h.symm.trans hb))]
    · rw [List.eraseP_cons_of_neg (by simpa using hb), List.find?_cons, List.find?_cons, ih]

theorem pruneLocked_fills (s : Storage) : (pruneLocked s).fills = s.fills := by
  have hrounds : ∀ n (s : Storage), (pruneRounds s n).fills = s.fills := by
    intro n
    induction n with
    | zero => exact fun _ => rfl
    | succ n ih =>
      intro s
      unfold pruneRounds
      split_ifs
      · cases pruneVictim s.cache.entries with
        | none => rfl
        | some victim => exact ih _
      · rfl
  exact hrounds _ s

theorem completeFill_fills {s : Storage} {f : Fill} (readOk : Bool)
    (hf : (s.fills.find? fun x => x.entry.addr = f.entry.addr) = some f) :
    (completeFill s f.entry.addr readOk).2.fills = eraseFill f.entry.addr s.fills := by
  unfold completeFill
  rw [hf]
  dsimp only
  split_ifs with hread ht hins
  · rfl
  · rfl
  · have hok : Insertable f := by
      by_contra hno
      exact hins (by rw [insertCachedPage_refused hno]; simp)
    rw [insertCachedPage_ok hok, pruneLocked_fills]
  · rfl

/-- A prepared fill succeeds exactly when its read does. -/
theorem completeFill_prepared {s : Storage} {f : Fill} {io : Request} (readOk : Bool)
    (hf : (s.fills.find? fun x => x.entry.addr = f.entry.addr) = some f)
    (hp : Call.Prepared f io) :
    (completeFill s f.entry.addr readOk).1 = .success ↔ readOk = true := by
  unfold completeFill
  rw [hf]
  dsimp only
  cases readOk with
  | false => simp
  | true =>
    rw [if_neg (by simp)]
    cases ht : f.read.tracked with
    | true =>
      rw [if_pos rfl, insertCachedPage_ok (hp.insertable ht), if_neg (by simp)]
      exact ⟨fun _ => rfl, fun _ => rfl⟩
    | false =>
      rw [if_neg (by simp)]
      exact ⟨fun _ => rfl, fun _ => rfl⟩

namespace Call

variable {c : Call} {s : Storage}

/-- What a fill that succeeded gives to its reader. -/
def filledResult (c : Call) (f : Fill) (i : Nat) : PageResult :=
  ⟨none, some (makeCachedPgr f.entry), (c.reads i).payload.length, false, true, f.read.tracked,
    (c.reads i).submitted, true⟩

theorem materializeOne_ok {b : Batch} {j : Nat} {f : Fill} {io : Request}
    (hf : (b.storage.fills.find? fun x => x.entry.addr = b.fills j) = some f)
    (hp : Prepared f io) (herr : c.fillErr (b.missIndex j) = none) :
    c.materializeOne b j = { b with
      storage := (completeFill b.storage f.entry.addr true).2
      results := Function.update b.results (b.missIndex j)
        (c.filledResult f (b.missIndex j)) } := by
  have hf' := hf
  rw [← (fills_perm hf).1] at hf'
  have hok := (completeFill_prepared true hf' hp).mpr rfl
  unfold materializeOne
  dsimp only
  rw [hf]
  dsimp only
  rw [herr, Option.isNone_none, if_pos hok]
  rfl

theorem materializeOne_bad {b : Batch} {j : Nat} {f : Fill} {io : Request} {err : Err}
    (hf : (b.storage.fills.find? fun x => x.entry.addr = b.fills j) = some f)
    (hp : Prepared f io) (herr : c.fillErr (b.missIndex j) = some err) :
    c.materializeOne b j = fail { b with
      storage := (completeFill b.storage f.entry.addr false).2 } (b.missIndex j)
        (cachePageSubmittedError err (c.reads (b.missIndex j)).submitted) err := by
  have hf' := hf
  rw [← (fills_perm hf).1] at hf'
  have hno := mt (completeFill_prepared false hf' hp).mp (by simp)
  unfold materializeOne
  dsimp only
  rw [hf]
  dsimp only
  rw [herr, Option.isNone_some, if_neg hno]
  rfl

/-! ## 2. The first loop -/

/-- The result of a leader when its fill has ended. -/
structure FilledResult (c : Call) (bytes : Nat → List UInt8) (i : Nat) (r : PageResult) :
    Prop where
  err : r.err = c.fillErr i
  page : c.fillErr i = none → ∃ ref, r.ref = some ref ∧
    bytes ref.page = (c.reads i).payload ∧ ref.pgno = (c.ios i).read.pages.pgno ∧ ref.npages = 1

/-- The batch `b` after the ends of the fills with numbers below `k` of the batch `b₀`. -/
structure Filling (c : Call) (s : Storage) (b₀ : Batch) (k : Nat) (b : Batch) : Prop where
  misses : b.misses = b₀.misses
  missIndex : b.missIndex = b₀.missIndex
  fills : b.fills = b₀.fills
  duplicateOf : b.duplicateOf = b₀.duplicateOf
  bytes : b.bytes = b₀.bytes
  exact : Exact b.storage
  ahead : ∀ j, k ≤ j → j < b₀.misses → ∃ f,
    (b.storage.fills.find? fun x => x.entry.addr = b₀.fills j) = some f ∧
      Prepared f (c.ios (b₀.missIndex j)) ∧
      b₀.bytes f.entry.page = (c.reads (b₀.missIndex j)).payload
  others : ∀ i, (∀ j < k, b₀.missIndex j ≠ i) → b.results i = b₀.results i
  filled : ∀ j < k, FilledResult c b₀.bytes (b₀.missIndex j) (b.results (b₀.missIndex j))
  firstErr : b.firstErr =
    b₀.firstErr.or ((List.range k).filterMap fun j => c.fillErr (b₀.missIndex j)).head?
  pinned : Pinned s c.count b

theorem Index.missIndex_inj {n : Nat} {b : Batch} (h : c.Index s n b) {j k : Nat}
    (hj : j < b.misses) (hk : k < b.misses) (heq : b.missIndex j = b.missIndex k) : j = k := by
  have hnd : ((List.range b.misses).map b.missIndex).Nodup := by
    rw [h.misses]
    exact List.Nodup.filter _ List.nodup_range
  exact List.inj_on_of_nodup_map hnd (List.mem_range.mpr hj) (List.mem_range.mpr hk) heq

theorem head_filterMap_succ (g : Nat → Option Err) (k : Nat) :
    ((List.range (k + 1)).filterMap g).head? = ((List.range k).filterMap g).head?.or (g k) := by
  rw [List.range_succ, List.filterMap_append, List.head?_append]
  cases h : g k <;> simp [h]

theorem leads_npages {i : Nat} (h : c.leads s i = true) :
    (c.ios i).fill.read.pages.npages = 1 ∧ (c.ios i).fill.read = (c.ios i).read := by
  obtain ⟨hv, -, -, hfill⟩ := validate_none (missed_iff.mp (leads_missed h)).1
  simp only [readIoValid, decide_eq_true_eq] at hv
  rw [hfill]
  exact ⟨hv.1, rfl⟩

theorem Filling.step {b₀ b : Batch} {k : Nat} (hx : c.Index s c.count b₀)
    (hd : ∀ j k, j < b₀.misses → k < b₀.misses → b₀.fills j = b₀.fills k → j = k)
    (hblank : ∀ i, c.leads s i = true → (b₀.results i).err ≠ none)
    (h : Filling c s b₀ k b) (hk : k < b₀.misses) :
    Filling c s b₀ (k + 1) (c.materializeOne b k) := by
  obtain ⟨f, hf, hp, hpay⟩ := h.ahead k (Nat.le_refl k) hk
  have haddr : f.entry.addr = b₀.fills k := (fills_perm hf).1
  have hf' : (b.storage.fills.find? fun x => x.entry.addr = b.fills k) = some f := by
    rw [h.fills]
    exact hf
  have hfind : (b.storage.fills.find? fun x => x.entry.addr = f.entry.addr) = some f := by
    rw [haddr]
    exact hf
  have hp' : Prepared f (c.ios (b.missIndex k)) := by
    rw [h.missIndex]
    exact hp
  obtain ⟨hlt, hlead⟩ := hx.mem.mp ⟨k, hk, rfl⟩
  obtain ⟨hone, hread⟩ := leads_npages hlead
  have hnew : (b.results (b₀.missIndex k)).err ≠ none := by
    rw [h.others]
    · exact hblank _ hlead
    · intro j hj heq
      have := hx.missIndex_inj (by omega) hk heq
      omega
  have hmem := List.mem_of_find?_eq_some hf
  have hnone : held b.storage f.entry.addr = none :=
    held_none (findEntry_none.mpr (h.exact.fill_not_entry hmem))
      (findEntry_none.mpr (h.exact.fill_not_private hmem))
  have hahead : ∀ (ok : Bool) j, k + 1 ≤ j → j < b₀.misses → ∃ g,
      ((completeFill b.storage f.entry.addr ok).2.fills.find? fun x =>
        x.entry.addr = b₀.fills j) = some g ∧ Prepared g (c.ios (b₀.missIndex j)) ∧
        b₀.bytes g.entry.page = (c.reads (b₀.missIndex j)).payload := by
    intro ok j hj hjm
    obtain ⟨g, hg, hgp, hgpay⟩ := h.ahead j (by omega) hjm
    refine ⟨g, ?_, hgp, hgpay⟩
    rw [completeFill_fills ok hfind, find_eraseFill, hg]
    intro heq
    have := hd j k hjm hk (heq.trans haddr)
    omega
  have hpgno : f.entry.io = (c.ios (b₀.missIndex k)).read.pages := by
    rw [hp.2.2.2.2, hp.1, hread]
  cases herr : c.fillErr (b₀.missIndex k) with
  | none =>
    have heq := materializeOne_ok hf' hp' (by rw [h.missIndex]; exact herr)
    rw [h.missIndex] at heq
    have hview : held (completeFill b.storage f.entry.addr true).2 =
        Function.update (held b.storage) f.entry.addr
          (some ⟨1, f.entry.page, f.entry.io, f.read.tracked⟩) := by
      rcases completeFill_held true h.exact hfind hp.2.1 with ⟨hno, -⟩ | ⟨-, hview⟩
      · exact absurd ((completeFill_prepared true hfind hp).mpr rfl) hno
      · exact hview
    rw [heq]
    refine ⟨h.misses, rfl, h.fills, h.duplicateOf, h.bytes,
      completeFill_exact _ _ h.exact, hahead true, ?_, ?_, ?_, ?_⟩
    · intro i hi
      show Function.update b.results (b₀.missIndex k) _ i = _
      rw [Function.update_of_ne fun heq => hi k (Nat.lt_succ_self k) heq.symm]
      exact h.others i fun j hj => hi j (by omega)
    · intro j hj
      show FilledResult c b₀.bytes _ (Function.update b.results (b₀.missIndex k) _ _)
      by_cases hjk : j = k
      · rw [hjk, Function.update_self]
        refine ⟨herr.symm, fun _ => ⟨makeCachedPgr f.entry, rfl, hpay, ?_, ?_⟩⟩
        · show f.entry.io.pgno = _
          rw [hpgno]
        · show f.entry.io.npages = 1
          rw [hpgno, ← hread, hone]
      · have hne : b₀.missIndex j ≠ b₀.missIndex k := fun heq =>
          hjk (hx.missIndex_inj (by omega) hk heq)
        rw [Function.update_of_ne hne]
        exact h.filled j (by omega)
    · show b.firstErr = _
      rw [head_filterMap_succ, herr, Option.or_none]
      exact h.firstErr
    · refine h.pinned.grant (makeCachedPgr f.entry)
        (x := ⟨1, f.entry.page, f.entry.io, f.read.tracked⟩) hlt hnew (by rfl) (by rfl) rfl rfl hview ?_ ?_
        ⟨rfl, rfl, rfl, ?_⟩
      · rw [makeCachedPgr_cache, pinsOf_of_none hnone]
      · intro y hy
        rw [makeCachedPgr_cache, hnone] at hy
        exact absurd hy (by simp)
      · show f.entry.io.npages ≠ 0
        rw [hpgno, ← hread, hone]
        exact Nat.one_ne_zero
  | some err =>
    have heq := materializeOne_bad hf' hp' (by rw [h.missIndex]; exact herr)
    rw [h.missIndex] at heq
    have hview : held (completeFill b.storage f.entry.addr false).2 = held b.storage := by
      rcases completeFill_held false h.exact hfind hp.2.1 with ⟨-, hview⟩ | ⟨hyes, -⟩
      · exact hview
      · exact absurd ((completeFill_prepared false hfind hp).mp hyes) (by simp)
    rw [heq]
    refine ⟨h.misses, rfl, h.fills, h.duplicateOf, h.bytes,
      completeFill_exact _ _ h.exact, hahead false, ?_, ?_, ?_, ?_⟩
    · intro i hi
      show Function.update b.results (b₀.missIndex k) _ i = _
      rw [Function.update_of_ne fun heq => hi k (Nat.lt_succ_self k) heq.symm]
      exact h.others i fun j hj => hi j (by omega)
    · intro j hj
      show FilledResult c b₀.bytes _ (Function.update b.results (b₀.missIndex k) _ _)
      by_cases hjk : j = k
      · rw [hjk, Function.update_self]
        exact ⟨herr.symm, fun hno => absurd (herr.symm.trans hno) (by simp)⟩
      · have hne : b₀.missIndex j ≠ b₀.missIndex k := fun heq =>
          hjk (hx.missIndex_inj (by omega) hk heq)
        rw [Function.update_of_ne hne]
        exact h.filled j (by omega)
    · show b.firstErr.or (some err) = _
      rw [head_filterMap_succ, herr, h.firstErr, Option.or_assoc]
    · exact h.pinned.refuse hlt hnew (by simp [cachePageSubmittedError]) hview rfl

theorem filling_loop {b₀ : Batch} (hx : c.Index s c.count b₀)
    (hd : ∀ j k, j < b₀.misses → k < b₀.misses → b₀.fills j = b₀.fills k → j = k)
    (hblank : ∀ i, c.leads s i = true → (b₀.results i).err ≠ none)
    (h : Filling c s b₀ 0 b₀) {k : Nat} (hk : k ≤ b₀.misses) :
    Filling c s b₀ k ((List.range k).foldl c.materializeOne b₀) := by
  induction k with
  | zero => exact h
  | succ k ih =>
    rw [List.range_succ, List.foldl_append]
    exact (ih (by omega)).step hx hd hblank (by omega)

/-! ## 3. The second loop -/

theorem pgrAt_current {s : Storage} {ref : PageRef} (h : Current s ref) :
    pgrAt s ref.cache = some ref := by
  obtain ⟨x, hx, hpage, hpgno, hn, -⟩ := h
  obtain ⟨htracked, hprivate⟩ := held_tracked hx
  have hmake : ∀ e : Entry, e.addr = ref.cache → e.page = x.page → e.io = x.io →
      makeCachedPgr e = ref := by
    intro e haddr hep hio
    unfold makeCachedPgr
    rw [haddr, hep, hio, ← hpage, ← hpgno, ← hn]
  unfold pgrAt
  cases ht : x.tracked with
  | true =>
    obtain ⟨e, hf, -, hep, hio⟩ := htracked ht
    rw [hf]
    exact congrArg some (hmake e (findEntry_mem hf).2 hep hio)
  | false =>
    obtain ⟨hno, e, hf, -, hep, hio⟩ := hprivate ht
    rw [hno, hf]
    exact congrArg some (hmake e (findEntry_mem hf).2 hep hio)

theorem retainCachedEntry_exact {s : Storage} {ref : PageRef} (h : Exact s)
    (hl : RefLive s ref) : Exact (retainCachedEntry s ref.cache) := by
  have hex := retainCachedRef_exact ref h
  rw [retainCachedRef_live hl] at hex
  exact hex

theorem retainCachedEntry_grows {s : Storage} {a : Nat} {x : Held} (hx : held s a = some x) :
    Grows (held s) (held (retainCachedEntry s a)) := by
  intro a' y hy
  rw [retainCachedEntry_held hx]
  by_cases ha : a' = a
  · subst ha
    rw [hx] at hy
    obtain rfl := Option.some.inj hy
    rw [Function.update_self]
    exact ⟨_, rfl, rfl, rfl⟩
  · rw [Function.update_of_ne ha]
    exact ⟨y, hy, rfl, rfl⟩

/-- A duplicate has the error or the reference of its master. -/
def SharedResult (r r' : PageResult) : Prop := r'.err = r.err ∧ r'.ref = r.ref

/-- The masters of the batch before the loop: they are no duplicates themselves, their duplicates
have no result yet, and their errors have been noted. -/
structure Masters (c : Call) (b : Batch) : Prop where
  alone : ∀ i m, b.duplicateOf i = some m → b.duplicateOf m = none ∧ m < c.count
  blank : ∀ i m, b.duplicateOf i = some m → (b.results i).err ≠ none
  noted : ∀ i m, b.duplicateOf i = some m → (b.results m).err ≠ none → b.firstErr ≠ none

structure Sharing (c : Call) (s : Storage) (b₁ : Batch) (k : Nat) (b : Batch) : Prop where
  misses : b.misses = b₁.misses
  missIndex : b.missIndex = b₁.missIndex
  duplicateOf : b.duplicateOf = b₁.duplicateOf
  bytes : b.bytes = b₁.bytes
  exact : Exact b.storage
  others : ∀ i, k ≤ i ∨ b₁.duplicateOf i = none → b.results i = b₁.results i
  shared : ∀ i < k, ∀ m, b₁.duplicateOf i = some m →
    SharedResult (b₁.results m) (b.results i)
  firstErr : b.firstErr = b₁.firstErr
  pinned : Pinned s c.count b

theorem Sharing.put {b₁ b b' : Batch} {k m : Nat} {r : PageResult}
    (h : Sharing c s b₁ k b) (hdup : b₁.duplicateOf k = some m)
    (hr : SharedResult (b₁.results m) r) (hresults : b'.results = Function.update b.results k r)
    (hmisses : b'.misses = b.misses) (hindex : b'.missIndex = b.missIndex)
    (hof : b'.duplicateOf = b.duplicateOf) (hbytes : b'.bytes = b.bytes)
    (hexact : Exact b'.storage) (herr : b'.firstErr = b.firstErr)
    (hpinned : Pinned s c.count b') : Sharing c s b₁ (k + 1) b' where
  misses := hmisses.trans h.misses
  missIndex := hindex.trans h.missIndex
  duplicateOf := hof.trans h.duplicateOf
  bytes := hbytes.trans h.bytes
  exact := hexact
  others := by
    intro i hi
    have hne : i ≠ k := by
      rintro rfl
      rcases hi with hi | hi
      · omega
      · rw [hdup] at hi
        exact absurd hi (by simp)
    rw [hresults, Function.update_of_ne hne]
    exact h.others i (hi.imp (fun h => by omega) id)
  shared := by
    intro i hi m' hm'
    rw [hresults]
    by_cases hik : i = k
    · subst hik
      rw [hdup] at hm'
      rw [Function.update_self, ← Option.some.inj hm']
      exact hr
    · rw [Function.update_of_ne hik]
      exact h.shared i (by omega) m' hm'
  firstErr := herr.trans h.firstErr
  pinned := hpinned

theorem Sharing.step {b₁ b : Batch} {k : Nat} (hm : Masters c b₁) (h : Sharing c s b₁ k b)
    (hk : k < c.count) : Sharing c s b₁ (k + 1) (shareOne b k) := by
  unfold shareOne
  rw [h.duplicateOf]
  cases hdup : b₁.duplicateOf k with
  | none =>
    refine ⟨h.misses, h.missIndex, h.duplicateOf, h.bytes, h.exact, ?_, ?_, h.firstErr, h.pinned⟩
    · intro i hi
      apply h.others
      rcases hi with hi | hi
      · exact Or.inl (by omega)
      · exact Or.inr hi
    · intro i hi m hm'
      have hne : i ≠ k := by
        rintro rfl
        rw [hdup] at hm'
        exact absurd hm' (by simp)
      exact h.shared i (by omega) m hm'
  | some m =>
    obtain ⟨halone, hmc⟩ := hm.alone k m hdup
    have hmaster : b.results m = b₁.results m := h.others m (Or.inr halone)
    have hblank : (b.results k).err ≠ none := by
      rw [h.others k (Or.inl (Nat.le_refl k))]
      exact hm.blank k m hdup
    dsimp only
    rw [hmaster]
    cases herr : (b₁.results m).err with
    | some err =>
      refine h.put hdup ⟨rfl, rfl⟩ rfl rfl rfl rfl rfl h.exact ?_ ?_
      · have hnoted := hm.noted k m hdup (by simp [herr])
        show b.firstErr.or (some err) = b.firstErr
        rw [h.firstErr]
        cases hfirst : b₁.firstErr with
        | none => exact absurd hfirst hnoted
        | some e => rfl
      · exact h.pinned.refuse hk hblank (by simp [herr]) rfl rfl
    | none =>
      obtain ⟨ref, href, hcur⟩ := h.pinned.live m hmc (by rw [hmaster]; exact herr)
      rw [hmaster] at href
      rw [href]
      obtain ⟨x, hx, hpage, hpgno, hn, hne⟩ := id hcur
      have hview := retainCachedEntry_held hx
      have hcur' : Current (retainCachedEntry b.storage ref.cache) ref :=
        hcur.grows (retainCachedEntry_grows hx)
      dsimp only
      rw [pgrAt_current hcur']
      refine h.put hdup ⟨herr.symm, href.symm⟩ rfl rfl rfl h.duplicateOf.symm rfl
        (retainCachedEntry_exact h.exact hcur.refLive) rfl ?_
      refine h.pinned.grant ref (x := { x with pins := x.pins + 1 }) hk hblank (by rfl)
        (by rfl) rfl rfl hview ?_ ?_ ⟨hpage, hpgno, hn, hne⟩
      · rw [pinsOf_of_held hx]
      · intro y hy
        rw [hx] at hy
        rw [Option.some.inj hy]
        exact ⟨rfl, rfl⟩

theorem sharing_loop {b₁ : Batch} (hm : Masters c b₁) (h : Sharing c s b₁ 0 b₁) {k : Nat}
    (hk : k ≤ c.count) : Sharing c s b₁ k ((List.range k).foldl shareOne b₁) := by
  induction k with
  | zero => exact h
  | succ k ih =>
    rw [List.range_succ, List.foldl_append]
    exact (ih (by omega)).step hm (by omega)

end Call

end Mdbx.PageCache
