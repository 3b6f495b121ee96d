import Mdbx.PageCache.Balance

/-!
# PageCache.Alone — a batch against its requests one by one

With memory at hand a request of a batch gets what it would get alone: the bytes of its page, from
the cache or from storage, or the error of its read.  There is one exception, the first page of a
large page that an earlier request of the batch has pinned: such an entry is not shared, and the
request is read from storage.
-/

namespace Mdbx.PageCache.Call

variable {c : Call} {s : Storage} {bytes : Nat → List UInt8}

/-! ## 1. The cache during the lookups -/

/-- The same entry with more pins. -/
def Repinned (e₀ e : Entry) : Prop := e = { e₀ with pins := e.pins } ∧ e₀.pins ≤ e.pins

theorem Repinned.addr {e₀ e : Entry} (h : Repinned e₀ e) : e.addr = e₀.addr := by
  rw [h.1]

theorem canReuse_iff {e : Entry} {read : ReadIo} : canReuse e read = true ↔
    e.reusable = true ∧ e.io.pgno = read.pages.pgno ∧ e.snapshotTxnid = read.snapshot ∧
      (e.pins = 0 ∨ e.io.npages > 1 ∨ e.large = false) := by
  unfold canReuse
  split_ifs with hno hpins
  · constructor
    · intro h
      exact absurd h (by simp)
    · rintro ⟨hre, hpgno, hsnap, -⟩
      simp [hre, hpgno, hsnap] at hno
  · simp only [Bool.not_eq_true', not_or, Bool.not_eq_false, ne_eq, not_not] at hno
    simp [hno, hpins]
  · simp only [Bool.not_eq_true', not_or, Bool.not_eq_false, ne_eq, not_not] at hno
    simp [hno, hpins]

theorem Repinned.canReuse {e₀ e : Entry} {read : ReadIo} (h : Repinned e₀ e)
    (hc : canReuse e read = true) : canReuse e₀ read = true := by
  obtain ⟨hre, hpgno, hsnap, hfree⟩ := canReuse_iff.mp hc
  obtain ⟨heq, hpins⟩ := h
  rw [heq] at hre hpgno hsnap
  refine canReuse_iff.mpr ⟨hre, hpgno, hsnap, ?_⟩
  rcases hfree with h0 | hfree
  · exact Or.inl (by omega)
  · rw [heq] at hfree
    exact Or.inr hfree

theorem lookedUp_exact (he : Exact s) (n : Nat) : Exact (c.lookedUp s n) := by
  induction n with
  | zero => exact he
  | succ n ih =>
    rw [lookedUp]
    split_ifs
    · exact lookupCachedPage_exact _ ih
    · exact ih

/-- The entries after `n` lookups are those from before; one with more pins has been hit. -/
theorem lookedUp_entries (n : Nat) : ∀ e ∈ (c.lookedUp s n).cache.entries,
    ∃ e₀ ∈ s.cache.entries, Repinned e₀ e ∧
      (e₀.pins < e.pins → ∃ k < n, ∃ x, c.hitOf s k = some x ∧ x.addr = e.addr) := by
  induction n with
  | zero => exact fun e he => ⟨e, he, ⟨rfl, Nat.le_refl _⟩, fun h => absurd h (Nat.lt_irrefl _)⟩
  | succ n ih =>
    have hold : ∀ e ∈ (c.lookedUp s n).cache.entries, ∃ e₀ ∈ s.cache.entries, Repinned e₀ e ∧
        (e₀.pins < e.pins → ∃ k < n + 1, ∃ x, c.hitOf s k = some x ∧ x.addr = e.addr) := by
      intro e he
      obtain ⟨e₀, he₀, hrep, hhit⟩ := ih e he
      refine ⟨e₀, he₀, hrep, fun hlt => ?_⟩
      obtain ⟨k, hk, hx⟩ := hhit hlt
      exact ⟨k, by omega, hx⟩
    intro e he
    cases hhit : c.hitOf s n with
    | none =>
      rw [lookedUp_miss hhit] at he
      exact hold e he
    | some x =>
      have hx : hitEntry (c.lookedUp s n) (c.ios n).lookup.read = some x := by
        unfold hitOf at hhit
        split_ifs at hhit
        exact hhit
      rw [lookedUp_hit hhit, lookupCachedPage_hit hx] at he
      rcases List.mem_cons.mp he with rfl | he
      · obtain ⟨e₀, he₀, hrep, -⟩ := ih x (hitEntry_mem hx).1
        refine ⟨e₀, he₀, ⟨?_, Nat.le_succ_of_le hrep.2⟩, fun _ => ⟨n, Nat.lt_succ_self n, x, hhit, rfl⟩⟩
        rw [hrep.1]
      · exact hold e (List.eraseP_subset he)

/-- No entry goes away. -/
theorem lookedUp_keeps (hex : Exact s) (n : Nat) {e₀ : Entry} (he₀ : e₀ ∈ s.cache.entries) :
    ∃ e ∈ (c.lookedUp s n).cache.entries, e.addr = e₀.addr := by
  induction n with
  | zero => exact ⟨e₀, he₀, rfl⟩
  | succ n ih =>
    obtain ⟨e, he, haddr⟩ := ih
    cases hhit : c.hitOf s n with
    | none =>
      rw [lookedUp_miss hhit]
      exact ⟨e, he, haddr⟩
    | some x =>
      have hx : hitEntry (c.lookedUp s n) (c.ios n).lookup.read = some x := by
        unfold hitOf at hhit
        split_ifs at hhit
        exact hhit
      rw [lookedUp_hit hhit, lookupCachedPage_hit hx]
      by_cases hsame : e.addr = x.addr
      · exact ⟨_, List.mem_cons_self, hsame.symm.trans haddr⟩
      · have hnd := (lookedUp_exact (c := c) hex n).nodup_entries
        obtain ⟨l₁, l₂, hes, herase, -⟩ := entry_split hnd (hitEntry_mem hx).1
        refine ⟨e, List.mem_cons_of_mem _ ?_, haddr⟩
        rw [herase]
        rw [hes] at he
        rcases List.mem_append.mp he with he | he
        · exact List.mem_append_left _ he
        · rcases List.mem_cons.mp he with rfl | he
          · exact absurd rfl hsame
          · exact List.mem_append_right _ he

/-- A hit during the batch is a hit before it. -/
theorem hit_before {i : Nat} {e : Entry} (h : c.hitOf s i = some e) :
    ∃ e₀ ∈ s.cache.entries, Repinned e₀ e ∧ canReuse e₀ (c.ios i).lookup.read = true ∧
      (c.ios i).lookup.read.reusable = true := by
  unfold hitOf at h
  split_ifs at h with hv
  obtain ⟨hmem, hcan⟩ := hitEntry_mem h
  obtain ⟨e₀, he₀, hrep, -⟩ := lookedUp_entries i e hmem
  refine ⟨e₀, he₀, hrep, hrep.canReuse hcan, ?_⟩
  unfold hitEntry at h
  split_ifs at h with hre
  simpa using hre

/-- The entry is the first page of a large page, and an earlier request of the batch has hit it. -/
def PinnedLarge (c : Call) (s : Storage) (i : Nat) : Prop :=
  ∃ e ∈ s.cache.entries, canReuse e (c.ios i).lookup.read = true ∧ e.large = true ∧
    e.io.npages ≤ 1 ∧ ∃ k < i, ∃ x, c.hitOf s k = some x ∧ x.addr = e.addr

/-- Where an entry could be shared before the batch and not any more, an earlier request has pinned
it. -/
theorem pinnedLarge_of_missed (hex : Exact s) {i : Nat} {e₀ : Entry}
    (he₀ : e₀ ∈ s.cache.entries) (hcan : canReuse e₀ (c.ios i).lookup.read = true)
    (hre : (c.ios i).lookup.read.reusable = true) (hm : c.missed s i = true) :
    PinnedLarge c s i := by
  obtain ⟨e, he, haddr⟩ := lookedUp_keeps (c := c) hex i he₀
  obtain ⟨e', he', hrep, hhit⟩ := lookedUp_entries i e he
  have hsame : e' = e₀ :=
    List.inj_on_of_nodup_map hex.nodup_entries he' he₀ (hrep.addr.symm.trans haddr)
  subst hsame
  obtain ⟨hv, hno⟩ := missed_iff.mp hm
  -- the lookup of the batch has refused the entry
  have hnot : canReuse e (c.ios i).lookup.read ≠ true := by
    unfold hitOf hitEntry at hno
    rw [if_pos (valid_iff.mpr hv), if_neg (by simp [hre])] at hno
    exact List.find?_eq_none.mp hno e he
  obtain ⟨hre', hpgno, hsnap, hfree⟩ := canReuse_iff.mp hcan
  have hfields := hrep.1
  rw [Ne, canReuse_iff, hfields] at hnot
  have hbusy : ¬ (e.pins = 0 ∨ e'.io.npages > 1 ∨ e'.large = false) :=
    fun h => hnot ⟨hre', hpgno, hsnap, h⟩
  push Not at hbusy
  have hzero : e'.pins = 0 := by
    rcases hfree with h | h | h
    · exact h
    · omega
    · exact absurd h hbusy.2.2
  obtain ⟨k, hk, x, hx, hxa⟩ := hhit (by omega)
  exact ⟨e', he', hcan, by simpa using hbusy.2.2, hbusy.2.1, k, hk, x, hx, hxa.trans haddr⟩

/-! ## 2. Answers -/

/-- Memory is at hand, and the storage answers each request in its own way, never with
`MDBX_ENOMEM`. -/
structure Plain (c : Call) (disk : Request → BatchRead) : Prop where
  arrays : c.arrays = true
  prepare : ∀ i, c.prepare i = none
  insert : ∀ i, c.insert i = none
  reads : ∀ i, c.reads i = disk (c.ios i)
  memory : ∀ io, (disk io).err ≠ some .enomem
  readBegin : c.readBegin ≠ some .enomem
  readDrive : c.readDrive ≠ some .enomem
  readFinish : c.readFinish ≠ some .enomem

/-- A read brings the stored bytes or an error. -/
structure Answers (disk : Request → BatchRead) (ln : Nat) (stored : Nat → Nat → List UInt8) :
    Prop where
  whole : ∀ io, (disk io).err = none → (disk io).submitted = true ∧ (disk io).completed = true ∧
    (disk io).payload = stored io.read.pages.pgno io.read.snapshot
  length : ∀ pgno snapshot, (stored pgno snapshot).length = 1 <<< ln

/-- Every entry that can be shared begins with the bytes that are stored. -/
def Coherent (s : Storage) (bytes : Nat → List UInt8) (ln : Nat)
    (stored : Nat → Nat → List UInt8) : Prop :=
  ∀ e ∈ s.cache.entries, e.reusable = true →
    (bytes e.page).take (1 <<< ln) = stored e.io.pgno e.snapshotTxnid

/-- The error of a result, or the number of its page with the bytes of that page. -/
def answer (ln : Nat) (out : Outcome) (i : Nat) : Except Err (Option (Nat × List UInt8)) :=
  match (out.results i).err with
  | some err => .error err
  | none => .ok ((out.results i).ref.map fun ref =>
      (ref.pgno, (out.bytes ref.page).take (1 <<< ln)))

/-- What a read of its own gives to a request. -/
def diskAnswer (disk : Request → BatchRead) (stored : Nat → Nat → List UInt8) (io : Request) :
    Except Err (Option (Nat × List UInt8)) :=
  match (disk io).err with
  | some err => .error err
  | none => .ok (some (io.read.pages.pgno, stored io.read.pages.pgno io.read.snapshot))

theorem answer_error {ln : Nat} {out : Outcome} {i : Nat} {err : Err}
    (h : (out.results i).err = some err) : answer ln out i = .error err := by
  unfold answer
  rw [h]

theorem answer_ok {ln : Nat} {out : Outcome} {i : Nat} (ref : PageRef)
    (h : (out.results i).err = none) (href : (out.results i).ref = some ref) :
    answer ln out i = .ok (some (ref.pgno, (out.bytes ref.page).take (1 <<< ln))) := by
  unfold answer
  rw [h, href]
  rfl

section Plain

variable {disk : Request → BatchRead} {stored : Nat → Nat → List UInt8}

theorem missed_request {i : Nat} (h : c.missed s i = true) :
    (c.ios i).fill.read = (c.ios i).read ∧ (c.ios i).lookup.read = (c.ios i).read ∧
      (c.ios i).read.pages.bytes = 1 <<< c.pagesizeLn := by
  obtain ⟨hv, -, hlookup, hfill⟩ := validate_none (missed_iff.mp h).1
  simp only [readIoValid, pageIoValid, decide_eq_true_eq] at hv
  obtain ⟨hone, -, hio⟩ := hv
  refine ⟨by rw [hfill], by rw [hlookup], ?_⟩
  unfold pageIo at hio
  split_ifs at hio
  rw [hone] at hio
  exact (congrArg PageIo.bytes (Option.some.inj hio)).symm

theorem Plain.fillErr (h : Plain c disk) (ha : Answers disk c.pagesizeLn stored) {i : Nat}
    (hm : c.missed s i = true) : c.fillErr i = (disk (c.ios i)).err := by
  obtain ⟨hfill, -, hbytes⟩ := missed_request hm
  unfold Call.fillErr
  rw [h.reads]
  cases herr : (disk (c.ios i)).err with
  | some err => rfl
  | none =>
    obtain ⟨hsub, hcomp, hpay⟩ := ha.whole _ herr
    dsimp only
    rw [hsub, hcomp, hpay, ha.length, hfill, hbytes, h.insert]
    simp

theorem Plain.failures (h : Plain c disk) : (c.failures s).head? ≠ some .enomem := by
  intro hhead
  have hmem := List.mem_of_head? hhead
  unfold Call.failures at hmem
  rcases List.mem_append.mp hmem with hbegin | hrest
  · obtain ⟨i, -, hi⟩ := List.mem_filterMap.mp hbegin
    unfold beginErr at hi
    cases hv : c.validate (c.ios i) with
    | some err =>
      rw [hv, validate_some hv] at hi
      exact absurd hi (by simp)
    | none =>
      rw [hv] at hi
      dsimp only at hi
      split_ifs at hi
      rw [h.prepare] at hi
      exact absurd hi (by simp)
  · rcases List.mem_append.mp hrest with hstorage | hfill
    · have herr := Option.mem_toList.mp hstorage
      unfold storageErr at herr
      split_ifs at herr
      cases hb : c.readBegin with
      | some err =>
        rw [hb] at herr
        exact h.readBegin (by rw [hb]; exact herr)
      | none =>
        rw [hb] at herr
        dsimp only at herr
        cases hd : c.readDrive with
        | some err =>
          rw [hd] at herr
          exact h.readDrive (by rw [hd]; exact herr)
        | none =>
          rw [hd, Option.none_or] at herr
          exact h.readFinish herr
    · obtain ⟨i, -, hi⟩ := List.mem_filterMap.mp hfill
      unfold Call.fillErr at hi
      have hread := h.memory (c.ios i)
      rw [← h.reads] at hread
      cases herr : (c.reads i).err with
      | some err =>
        rw [herr] at hi hread
        exact hread hi
      | none =>
        rw [herr] at hi
        dsimp only at hi
        rw [h.insert] at hi
        split_ifs at hi
        exact absurd hi (by simp)

theorem Plain.outcome (bytes : Nat → List UInt8) (h : Plain c disk) (hex : Exact s) (hf : Fresh s) (hn : c.count ≠ 0) :
    (c.submitReadBatch s bytes).results = (c.completed s bytes).results ∧
      (c.submitReadBatch s bytes).bytes = (c.completed s bytes).bytes := by
  have hspec := completed_spec (c := c) bytes hex hf
  have hout : c.submitReadBatch s bytes = finish (c.completed s bytes) := by
    unfold submitReadBatch
    rw [if_neg hn, if_neg (by simp [h.arrays])]
  rw [hout]
  refine ⟨if_neg ?_, rfl⟩
  rw [hspec.firstErr]
  exact h.failures

/-- What each request of a batch is answered. -/
theorem Plain.answer_cases (h : Plain c disk) (ha : Answers disk c.pagesizeLn stored)
    (hex : Exact s) (hf : Fresh s) (hco : Coherent s bytes c.pagesizeLn stored) {i : Nat}
    (hi : i < c.count) :
    (c.valid i = false ∧
      answer c.pagesizeLn (c.submitReadBatch s bytes) i = .error .einval) ∨
    (∃ e, c.hitOf s i = some e ∧ answer c.pagesizeLn (c.submitReadBatch s bytes) i =
      .ok (some ((c.ios i).read.pages.pgno,
        stored (c.ios i).read.pages.pgno (c.ios i).read.snapshot))) ∨
    (c.missed s i = true ∧ answer c.pagesizeLn (c.submitReadBatch s bytes) i =
      diskAnswer disk stored (c.ios i)) := by
  have hspec := completed_spec (c := c) bytes hex hf
  obtain ⟨hresults, hbytes⟩ := h.outcome bytes hex hf (by omega)
  cases hv : c.valid i with
  | false =>
    left
    refine ⟨rfl, answer_error ?_⟩
    have hno : ¬ (c.missed s i = true ∧ c.tried s i = false) := by
      rintro ⟨hm, -⟩
      rw [valid, (missed_iff.mp hm).1] at hv
      exact absurd hv (by simp)
    rw [hresults, hspec.settled i hi (leads_of_invalid hv) hno, begunResult_invalid hv]
    rfl
  | true =>
    right
    cases hhit : c.hitOf s i with
    | some e =>
      left
      have hno : ¬ (c.missed s i = true ∧ c.tried s i = false) := by
        rintro ⟨hm, -⟩
        rw [missed_hitOf hm] at hhit
        exact absurd hhit (by simp)
      have hres := hspec.settled i hi (leads_of_hit hhit) hno
      rw [begunResult_hit hhit, ← hresults] at hres
      obtain ⟨e₀, he₀, hrep, hcan, -⟩ := hit_before hhit
      obtain ⟨hre, hpgno, hsnap, -⟩ := canReuse_iff.mp hcan
      have hlookup : (c.ios i).lookup.read = (c.ios i).read := by
        rw [(validate_none (valid_iff.mp hv)).2.2.1]
      rw [hlookup] at hpgno hsnap
      -- the buffer is older than the batch, so it has the bytes it had
      have hold := hspec.old e₀.page (hf.entries e₀ he₀).1
      refine ⟨e, rfl, ?_⟩
      rw [answer_ok (makeCachedPgr e) (by rw [hres]; rfl) (by rw [hres]; rfl)]
      show Except.ok (some (e.io.pgno, ((c.submitReadBatch s bytes).bytes e.page).take _)) = _
      rw [hrep.1]
      show Except.ok (some (e₀.io.pgno, ((c.submitReadBatch s bytes).bytes e₀.page).take _)) = _
      rw [hbytes, hold, hco e₀ he₀ hre, hpgno, hsnap]
    | none =>
      right
      have hm : c.missed s i = true := missed_iff.mpr ⟨valid_iff.mp hv, hhit⟩
      refine ⟨hm, ?_⟩
      -- the leader that asks for the same thing has been read
      have hleader : ∃ m < c.count, c.leads s m = true ∧ c.ios m = c.ios i ∧
          SharedResult ((c.completed s bytes).results m) ((c.completed s bytes).results i) := by
        by_cases ht : c.tried s i = true
        · exact ⟨i, hi, leads_iff.mpr ⟨ht, h.prepare i⟩, rfl, rfl, rfl⟩
        · obtain ⟨m, hmi, -, hlead, heq, hshared⟩ := hspec.follower i hi hm (by simpa using ht)
          exact ⟨m, by omega, hlead, heq, hshared⟩
      obtain ⟨m, hmc, hlead, heq, herrs, hrefs⟩ := hleader
      have hfilled := hspec.leader m hmc hlead
      have hfillErr := h.fillErr ha (leads_missed hlead)
      rw [heq] at hfillErr
      unfold diskAnswer
      cases herr : (disk (c.ios i)).err with
      | some err =>
        apply answer_error
        rw [hresults, herrs, hfilled.err, hfillErr, herr]
      | none =>
        obtain ⟨ref, href, hpay, hpgno, -⟩ := hfilled.page (hfillErr.trans herr)
        rw [answer_ok ref (by rw [hresults, herrs, hfilled.err, hfillErr, herr])
          (by rw [hresults, hrefs, href])]
        rw [hbytes, hpay, hpgno, h.reads, heq, (ha.whole _ herr).2.2,
          List.take_of_length_le (Nat.le_of_eq (ha.length _ _))]

/-- A call for one request of the batch alone. -/
structure Lone (c d : Call) (i : Nat) : Prop where
  count : d.count = 1
  ios : d.ios 0 = c.ios i
  pagesizeLn : d.pagesizeLn = c.pagesizeLn
  reusable : d.reusable = c.reusable
  snapshot : d.snapshot = c.snapshot

theorem Lone.valid {d : Call} {i : Nat} (h : Lone c d i) : d.valid 0 = c.valid i := by
  unfold Call.valid validate makeReadSubmitIo
  rw [h.ios, h.pagesizeLn, h.reusable, h.snapshot]

/-- A request is answered as it would be alone; only a request for the pinned first page of a large
page may get the error of a read that it would not need alone. -/
theorem Plain.as_alone {d : Call} (h : Plain c disk) (hd : Plain d disk)
    (ha : Answers disk c.pagesizeLn stored) (hex : Exact s) (hf : Fresh s)
    (hco : Coherent s bytes c.pagesizeLn stored) {i : Nat} (hi : i < c.count)
    (hl : Lone c d i) :
    answer c.pagesizeLn (c.submitReadBatch s bytes) i =
        answer c.pagesizeLn (d.submitReadBatch s bytes) 0 ∨
      (PinnedLarge c s i ∧ ∃ err, (disk (c.ios i)).err = some err ∧
        answer c.pagesizeLn (c.submitReadBatch s bytes) i = .error err) := by
  have ha' : Answers disk d.pagesizeLn stored := by
    rw [hl.pagesizeLn]
    exact ha
  have hco' : Coherent s bytes d.pagesizeLn stored := by
    rw [hl.pagesizeLn]
    exact hco
  have halone := hd.answer_cases ha' hex hf hco' (i := 0) (by rw [hl.count]; exact Nat.one_pos)
  rw [hl.pagesizeLn, hl.ios, hl.valid] at halone
  have hbatch := h.answer_cases ha hex hf hco hi
  rcases hbatch with ⟨hv, hans⟩ | ⟨e, hhit, hans⟩ | ⟨hm, hans⟩
  · rcases halone with ⟨-, hans'⟩ | ⟨x, hx, -⟩ | ⟨hm', -⟩
    · exact Or.inl (hans.trans hans'.symm)
    · rw [hitOf_invalid (by rw [hl.valid]; exact hv)] at hx
      exact absurd hx (by simp)
    · have hno := valid_iff.mpr (missed_iff.mp hm').1
      rw [hl.valid, hv] at hno
      exact absurd hno (by simp)
  · have hv : c.valid i = true := by
      unfold hitOf at hhit
      split_ifs at hhit with hv
      exact hv
    rcases halone with ⟨hno, -⟩ | ⟨x, hx, hans'⟩ | ⟨hm', -⟩
    · rw [hv] at hno
      exact absurd hno (by simp)
    · exact Or.inl (hans.trans hans'.symm)
    · -- what can be shared during the batch can be shared before it
      obtain ⟨e₀, he₀, -, hcan, hre⟩ := hit_before hhit
      obtain ⟨hv', hno⟩ := missed_iff.mp hm'
      unfold hitOf hitEntry at hno
      rw [if_pos (valid_iff.mpr hv'), hl.ios, if_neg (by simp [hre])] at hno
      exact absurd hcan (by simpa using List.find?_eq_none.mp hno e₀ he₀)
  · have hv : c.valid i = true := valid_iff.mpr (missed_iff.mp hm).1
    rcases halone with ⟨hno, -⟩ | ⟨x, hx, hans'⟩ | ⟨-, hans'⟩
    · rw [hv] at hno
      exact absurd hno (by simp)
    · obtain ⟨x₀, hx₀, -, hcan, hre⟩ := hit_before hx
      rw [hl.ios] at hcan hre
      cases herr : (disk (c.ios i)).err with
      | none =>
        left
        rw [hans, hans']
        unfold diskAnswer
        rw [herr]
      | some err =>
        right
        refine ⟨pinnedLarge_of_missed hex hx₀ hcan hre hm, err, rfl, ?_⟩
        rw [hans]
        unfold diskAnswer
        rw [herr]
    · exact Or.inl (hans.trans hans'.symm)

/-- Every miss has one read, its own or that of an equal request. -/
theorem Plain.read_once (bytes : Nat → List UInt8) (h : Plain c disk) (hex : Exact s) (hf : Fresh s) {i : Nat}
    (hi : i < c.count) (hm : c.missed s i = true) :
    ∃ j < (c.completed s bytes).misses,
      c.ios ((c.completed s bytes).missIndex j) = c.ios i ∧
        ∀ k < (c.completed s bytes).misses,
          c.ios ((c.completed s bytes).missIndex k) = c.ios i → k = j := by
  have hspec := completed_spec (c := c) bytes hex hf
  generalize c.completed s bytes = b at hspec
  have hmem : ∀ m, (∃ j < b.misses, b.missIndex j = m) ↔ m < c.count ∧ c.leads s m = true := by
    intro m
    have hlist : m ∈ (List.range b.misses).map b.missIndex ↔
        m ∈ (List.range c.count).filter (c.leads s) := by
      rw [hspec.misses]
    simpa using hlist
  obtain ⟨m, hmi, hlead, heq⟩ := exists_leader hm (h.prepare i)
  obtain ⟨j, hj, rfl⟩ := (hmem m).mpr ⟨by omega, hlead⟩
  refine ⟨j, hj, heq, fun k hk hkeq => ?_⟩
  have hleadk := ((hmem _).mp ⟨k, hk, rfl⟩).2
  have hsame := leads_inj hleadk hlead (hkeq.trans heq.symm)
  have hnd : ((List.range b.misses).map b.missIndex).Nodup := by
    rw [hspec.misses]
    exact List.Nodup.filter _ List.nodup_range
  exact List.inj_on_of_nodup_map hnd (List.mem_range.mpr hk) (List.mem_range.mpr hj) hsame

theorem duplicateOf_equal (hex : Exact s) (hf : Fresh s) {i m : Nat}
    (hdup : (c.completed s bytes).duplicateOf i = some m) : m < i ∧ c.ios m = c.ios i := by
  have hspec := completed_spec (c := c) bytes hex hf
  by_cases hi : i < c.count ∧ c.missed s i = true ∧ c.tried s i = false
  · obtain ⟨m', hmi, hdup', -, heq, -⟩ := hspec.follower i hi.1 hi.2.1 hi.2.2
    rw [hdup] at hdup'
    obtain rfl := Option.some.inj hdup'
    exact ⟨hmi, heq⟩
  · rw [hspec.alone i hi] at hdup
    exact absurd hdup (by simp)

end Plain

/-- From every state that readers can reach whose cache has the stored bytes, with memory at hand
and a storage that answers each request with the stored bytes or an error: every request of a batch
is answered as it would be alone, but for the pinned first page of a large page, where the error of
the read may come instead of the cached page; every distinct missed request is read once; and a
duplicate is linked to an earlier equal request. -/
theorem submitReadBatch_as_alone (ln limit : Nat) (uses : List Use) (c : Call)
    (disk : Request → BatchRead) (stored : Nat → Nat → List UInt8) (hplain : Plain c disk)
    (hdisk : Answers disk c.pagesizeLn stored)
    (hco : Coherent ((World.init limit).run ln uses).storage ((World.init limit).run ln uses).bytes
      c.pagesizeLn stored) :
    (∀ i < c.count, ∀ d, Lone c d i → Plain d disk →
      answer c.pagesizeLn (c.submitReadBatch ((World.init limit).run ln uses).storage
          ((World.init limit).run ln uses).bytes) i =
        answer c.pagesizeLn (d.submitReadBatch ((World.init limit).run ln uses).storage
          ((World.init limit).run ln uses).bytes) 0 ∨
      (PinnedLarge c ((World.init limit).run ln uses).storage i ∧
        ∃ err, (disk (c.ios i)).err = some err ∧
          answer c.pagesizeLn (c.submitReadBatch ((World.init limit).run ln uses).storage
            ((World.init limit).run ln uses).bytes) i = .error err)) ∧
    (∀ i < c.count, c.missed ((World.init limit).run ln uses).storage i = true →
      ∃! j, j < (c.completed ((World.init limit).run ln uses).storage
          ((World.init limit).run ln uses).bytes).misses ∧
        c.ios ((c.completed ((World.init limit).run ln uses).storage
          ((World.init limit).run ln uses).bytes).missIndex j) = c.ios i) ∧
    (∀ i m, (c.completed ((World.init limit).run ln uses).storage
        ((World.init limit).run ln uses).bytes).duplicateOf i = some m →
      m < i ∧ c.ios m = c.ios i) := by
  have hsound := run_sound ln uses (World.init_sound limit)
  refine ⟨?_, ?_, ?_⟩
  · intro i hi d hl hd
    exact hplain.as_alone hd hdisk hsound.exact hsound.fresh hco hi hl
  · intro i hi hm
    obtain ⟨j, hj, heq, huniq⟩ := hplain.read_once
      ((World.init limit).run ln uses).bytes hsound.exact hsound.fresh hi hm
    exact ⟨j, ⟨hj, heq⟩, fun k hk => huniq k hk.1 hk.2⟩
  · intro i m hdup
    exact duplicateOf_equal hsound.exact hsound.fresh hdup

/-! ## 3. Where a batch differs from its requests -/

/-- A request for one page. -/
def requestOf (pgno : Nat) (tracked : Bool) : Request :=
  let read : ReadIo := ⟨⟨pgno, pgno + 1, 1, 256⟩, 1, true, tracked⟩
  ⟨read, ⟨read, false⟩, ⟨read, true⟩⟩

/-- A storage of zeros, or one that answers every read with an error. -/
def zeroDisk (err : Option Err) (_ : Request) : BatchRead :=
  ⟨err, true, true, List.replicate 256 0⟩

def batchOf (ios : List Request) (err : Option Err) : Call where
  pagesizeLn := 8
  reusable := true
  snapshot := 1
  count := ios.length
  ios i := ios.getD i (requestOf 5 true)
  hash _ := 0
  isLarge _ := false
  arrays := true
  prepare _ := none
  readBegin := none
  readDrive := none
  readFinish := none
  reads i := zeroDisk err (ios.getD i (requestOf 5 true))
  insert _ := none

/-- A reader has filled page 5, perhaps the first of a large page, and let it go. -/
def pageFive (large : Bool) : World :=
  (World.init 1024).run 8 [.prepare (requestOf 5 true).read true large (List.replicate 256 0),
    .complete 0 true, .release 0]

theorem batchOf_plain (ios : List Request) {err : Option Err} (h : err ≠ some .enomem) :
    Plain (batchOf ios err) (zeroDisk err) :=
  ⟨rfl, fun _ => rfl, fun _ => rfl, fun _ => rfl, fun _ => h, nofun, nofun, nofun⟩

theorem zeroDisk_answers (err : Option Err) :
    Answers (zeroDisk err) 8 fun _ _ => List.replicate 256 0 :=
  ⟨fun _ _ => ⟨rfl, rfl, rfl⟩, fun _ _ => List.length_replicate⟩

theorem pageFive_coherent (large : Bool) :
    Coherent (pageFive large).storage (pageFive large).bytes 8 fun _ _ =>
      List.replicate 256 0 := by
  unfold Coherent
  cases large <;> decide +kernel

-- page 5 from the cache, page 6 twice from storage
theorem submitReadBatch_as_alone_twins :
    answer 8 ((batchOf [requestOf 5 true, requestOf 6 true, requestOf 6 true] none).submitReadBatch
        (pageFive false).storage (pageFive false).bytes) 2 =
      answer 8 ((batchOf [requestOf 6 true] none).submitReadBatch
        (pageFive false).storage (pageFive false).bytes) 0 := by
  have hmain := submitReadBatch_as_alone 8 1024
    [.prepare (requestOf 5 true).read true false (List.replicate 256 0), .complete 0 true,
      .release 0]
    (batchOf [requestOf 5 true, requestOf 6 true, requestOf 6 true] none) (zeroDisk none)
    (fun _ _ => List.replicate 256 0) (batchOf_plain _ (by decide)) (zeroDisk_answers none)
    (pageFive_coherent false)
  rcases hmain.1 2 (by decide) (batchOf [requestOf 6 true] none) ⟨rfl, rfl, rfl, rfl, rfl⟩
    (batchOf_plain _ (by decide)) with heq | ⟨-, err, herr, -⟩
  · exact heq
  · exact absurd herr nofun

/-- Alone the second request hits; after the first has pinned page 5 it is read from a storage that
fails.  A read without memory spoils the result of the first request.  Requests that differ in
`tracked` are both read. -/
theorem submitReadBatch_not_as_alone :
    (¬ ∀ (ln limit : Nat) (uses : List Use) (c : Call) (disk : Request → BatchRead)
        (stored : Nat → Nat → List UInt8), Plain c disk → Answers disk c.pagesizeLn stored →
      Coherent ((World.init limit).run ln uses).storage ((World.init limit).run ln uses).bytes
        c.pagesizeLn stored →
      ∀ i < c.count, ∀ d, Lone c d i → Plain d disk →
        answer c.pagesizeLn (c.submitReadBatch ((World.init limit).run ln uses).storage
            ((World.init limit).run ln uses).bytes) i =
          answer c.pagesizeLn (d.submitReadBatch ((World.init limit).run ln uses).storage
            ((World.init limit).run ln uses).bytes) 0) ∧
    (¬ ∀ (ios : List Request) (err : Option Err) (i : Nat) (io : Request), ios[i]? = some io →
        answer 8 ((batchOf ios err).submitReadBatch (pageFive false).storage
            (pageFive false).bytes) i =
          answer 8 ((batchOf [io] err).submitReadBatch (pageFive false).storage
            (pageFive false).bytes) 0) ∧
    ¬ ∀ (ios : List Request) (j k : Nat),
        let b := (batchOf ios none).completed (pageFive false).storage (pageFive false).bytes
        j < b.misses → k < b.misses →
          ((batchOf ios none).ios (b.missIndex j)).read.pages =
            ((batchOf ios none).ios (b.missIndex k)).read.pages → j = k := by
  refine ⟨fun hall => ?_, fun hall => ?_, fun hall => ?_⟩
  · have hsame := hall 8 1024
      [.prepare (requestOf 5 true).read true true (List.replicate 256 0), .complete 0 true,
        .release 0]
      (batchOf [requestOf 5 true, requestOf 5 true] (some .eio)) (zeroDisk (some .eio))
      (fun _ _ => List.replicate 256 0) (batchOf_plain _ (by decide)) (zeroDisk_answers _)
      (pageFive_coherent true) 1 (by decide) (batchOf [requestOf 5 true] (some .eio))
      ⟨rfl, rfl, rfl, rfl, rfl⟩ (batchOf_plain _ (by decide))
    exact absurd hsame (by decide +kernel)
  · have hsame := hall [requestOf 5 true, requestOf 6 true] (some .enomem) 0 (requestOf 5 true) rfl
    exact absurd hsame (by decide +kernel)
  · have hsame := hall [requestOf 6 true, requestOf 6 false] 0 1 (by decide +kernel)
      (by decide +kernel) (by decide +kernel)
    exact absurd hsame (by decide)

end Mdbx.PageCache.Call
