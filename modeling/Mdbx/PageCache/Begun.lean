import Mdbx.PageCache.Fates

/-!
# PageCache.Begun — the batch when its reads are to be sent

Four invariants of the loop of `page_cache_read_batch_begin`: what is known of the misses (`Index`),
what is written for each request (`Settled`), the prepared fills (`Stocked`), and the pins that the
results hold (`Pinned`).
-/

namespace Mdbx.PageCache.Call

variable {c : Call} {s : Storage} {bytes : Nat → List UInt8}

/-! ## 1. Misses -/

theorem lookedUp_hit {n : Nat} {e : Entry} (h : c.hitOf s n = some e) :
    c.lookedUp s (n + 1) = (lookupCachedPage (c.lookedUp s n) (c.ios n).lookup.read).2 := by
  unfold hitOf at h
  split_ifs at h with hv
  rw [lookedUp, if_pos hv]

theorem lookedUp_miss {n : Nat} (h : c.hitOf s n = none) :
    c.lookedUp s (n + 1) = c.lookedUp s n := by
  unfold hitOf at h
  rw [lookedUp]
  by_cases hv : c.valid n = true
  · rw [if_pos hv] at h ⊢
    rw [lookupCachedPage_miss h]
  · rw [if_neg hv]

theorem hitOf_invalid {n : Nat} (h : c.valid n = false) : c.hitOf s n = none := by
  unfold hitOf
  rw [if_neg (by simp [h])]

theorem missed_hitOf {n : Nat} (h : c.missed s n = true) : c.hitOf s n = none :=
  (missed_iff.mp h).2

theorem leads_of_hit {n : Nat} {e : Entry} (h : c.hitOf s n = some e) : c.leads s n = false := by
  by_contra hl
  have hm := missed_hitOf (leads_missed (by simpa using hl))
  rw [h] at hm
  exact absurd hm (by simp)

theorem leads_of_invalid {n : Nat} (h : c.valid n = false) : c.leads s n = false := by
  by_contra hl
  have hm := (missed_iff.mp (leads_missed (c := c) (s := s) (by simpa using hl))).1
  rw [valid, hm] at h
  exact absurd h (by simp)

theorem filter_range_succ (p : Nat → Bool) (n : Nat) :
    (List.range (n + 1)).filter p = (List.range n).filter p ++ if p n then [n] else [] := by
  rw [List.range_succ, List.filter_append]
  cases h : p n <;> simp [h]

theorem Index.start : c.Index s 0 (start s bytes) where
  cache := rfl
  misses := rfl
  chained := Chained.empty _

-- a round without a new miss
theorem Index.skip {n : Nat} {b b' : Batch} (h : c.Index s n b) (hlead : c.leads s n = false)
    (hcache : b'.storage.cache = (c.lookedUp s (n + 1)).cache) (hm : b'.misses = b.misses)
    (hi : b'.missIndex = b.missIndex) (hb : b'.duplicateBuckets = b.duplicateBuckets)
    (hn : b'.duplicateNext = b.duplicateNext) : c.Index s (n + 1) b' where
  cache := hcache
  misses := by
    rw [hm, hi, filter_range_succ, hlead, h.misses]
    simp
  chained := by
    rw [hm, hi, hb, hn]
    exact h.chained

theorem Index.addMiss {n : Nat} {b : Batch} (h : c.Index s n b) (hlead : c.leads s n = true) :
    c.Index s (n + 1) (c.addMiss b n) where
  cache := by
    rw [lookedUp_miss (missed_hitOf (leads_missed hlead)), ← h.cache]
    rfl
  misses := by
    show (List.range (b.misses + 1)).map (Function.update b.missIndex b.misses n) = _
    rw [filter_range_succ, hlead, ← h.misses, List.range_succ, List.map_append]
    congr 1
    · apply List.map_congr_left
      intro j hj
      have hlt := List.mem_range.mp hj
      exact Function.update_of_ne (by omega) _ _
    · simp
  chained := by
    show Chained (fun j => c.bucket (c.ios (Function.update b.missIndex b.misses n j)))
      (Function.update b.duplicateBuckets (c.bucket (c.ios n)) (some b.misses))
      (Function.update b.duplicateNext b.misses (b.duplicateBuckets (c.bucket (c.ios n))))
      (b.misses + 1)
    have hold : Chained (fun j => c.bucket (c.ios (Function.update b.missIndex b.misses n j)))
        b.duplicateBuckets b.duplicateNext b.misses := by
      apply h.chained.congr
      intro j hj
      rw [Function.update_of_ne (by omega)]
    have hpush := hold.push
    rw [Function.update_self] at hpush
    exact hpush

theorem beginOne_index {n : Nat} {b : Batch} (h : c.Index s n b) :
    c.Index s (n + 1) (c.beginOne b n) := by
  rcases beginOne_cases h with ⟨hv, heq⟩ | ⟨e, hhit, hhit', heq⟩ | ⟨hm, ht, m, -, -, -, heq⟩ |
    ⟨ht, err, hp, heq⟩ | ⟨hlead, heq⟩
  · rw [heq]
    refine h.skip (leads_of_invalid hv) ?_ rfl rfl rfl rfl
    rw [lookedUp_miss (hitOf_invalid hv)]
    exact h.cache
  · rw [heq]
    refine h.skip (leads_of_hit hhit) ?_ rfl rfl rfl rfl
    rw [lookedUp_hit hhit]
    exact lookup_cache_congr _ h.cache
  · rw [heq]
    refine h.skip ?_ ?_ rfl rfl rfl rfl
    · unfold leads
      rw [ht, Bool.false_and]
    · rw [lookedUp_miss (missed_hitOf hm)]
      exact h.cache
  · rw [heq]
    refine h.skip ?_ ?_ rfl rfl rfl rfl
    · unfold leads
      rw [hp, ht]
      rfl
    · rw [lookedUp_miss (missed_hitOf (tried_iff.mp ht).1)]
      exact h.cache
  · rw [heq]
    exact h.addMiss hlead

theorem beginLoop_index (n : Nat) : c.Index s n (c.beginLoop s bytes n) := by
  induction n with
  | zero => exact Index.start
  | succ n ih => exact beginOne_index ih

/-! ## 2. What is written -/

variable (c s)

/-- The result of a request when the loop is over; nothing yet for a miss with a fill to come. -/
def begunResult (i : Nat) : PageResult :=
  match c.validate (c.ios i) with
  | some err => cachePageError err
  | none =>
    match c.hitOf s i with
    | some e => hitResult e
    | none =>
      if c.tried s i then
        match c.prepare i with
        | some err => cachePageError err
        | none => cachePageError .einval
      else cachePageError .einval

def beginErr (i : Nat) : Option Err :=
  match c.validate (c.ios i) with
  | some err => some err
  | none => if c.tried s i then c.prepare i else none

/-- The failures of the loop in their order. -/
def beginErrs (n : Nat) : List Err := (List.range n).filterMap (c.beginErr s)

structure Settled (n : Nat) (b : Batch) : Prop where
  results : ∀ i, b.results i = if i < n then c.begunResult s i else cachePageError .einval
  alone : ∀ i, ¬ (i < n ∧ c.missed s i = true ∧ c.tried s i = false) → b.duplicateOf i = none
  duplicate : ∀ i < n, c.missed s i = true → c.tried s i = false →
    ∃ m < i, b.duplicateOf i = some m ∧ c.leads s m = true ∧ c.ios m = c.ios i
  firstErr : b.firstErr = (c.beginErrs s n).head?

variable {c s}

theorem begunResult_invalid {i : Nat} (h : c.valid i = false) :
    c.begunResult s i = cachePageError .einval := by
  unfold begunResult
  cases hv : c.validate (c.ios i) with
  | none => rw [valid, hv] at h; exact absurd h (by simp)
  | some err => rw [validate_some hv]

theorem begunResult_hit {i : Nat} {e : Entry} (h : c.hitOf s i = some e) :
    c.begunResult s i = hitResult e := by
  have hv : c.validate (c.ios i) = none := by
    unfold hitOf at h
    split_ifs at h with hv
    exact valid_iff.mp hv
  unfold begunResult
  rw [hv, h]

theorem begunResult_missed {i : Nat} (h : c.missed s i = true) (ht : c.tried s i = false) :
    c.begunResult s i = cachePageError .einval := by
  obtain ⟨hv, hno⟩ := missed_iff.mp h
  unfold begunResult
  rw [hv, hno, ht]
  rfl

theorem begunResult_tried {i : Nat} {err : Err} (h : c.tried s i = true)
    (hp : c.prepare i = some err) : c.begunResult s i = cachePageError err := by
  obtain ⟨hv, hno⟩ := missed_iff.mp (tried_iff.mp h).1
  unfold begunResult
  rw [hv, hno, h, hp]
  rfl

theorem begunResult_leads {i : Nat} (h : c.leads s i = true) :
    c.begunResult s i = cachePageError .einval := by
  obtain ⟨ht, hp⟩ := leads_iff.mp h
  obtain ⟨hv, hno⟩ := missed_iff.mp (tried_iff.mp ht).1
  unfold begunResult
  rw [hv, hno, ht, hp]
  rfl

theorem beginErrs_succ (n : Nat) :
    (c.beginErrs s (n + 1)).head? = (c.beginErrs s n).head?.or (c.beginErr s n) := by
  unfold beginErrs
  rw [List.range_succ, List.filterMap_append, List.head?_append]
  cases h : c.beginErr s n <;> simp [h]

theorem Settled.start : c.Settled s 0 (start s bytes) where
  results := fun _ => rfl
  alone := fun _ _ => rfl
  duplicate := fun _ h => absurd h (Nat.not_lt_zero _)
  firstErr := rfl

-- a result comes to its place, and no duplicate
theorem Settled.put {n : Nat} {b b' : Batch} (h : c.Settled s n b)
    (hno : c.missed s n = true → c.tried s n = true)
    (hres : b'.results = Function.update b.results n (c.begunResult s n))
    (hdup : b'.duplicateOf = b.duplicateOf)
    (herr : b'.firstErr = b.firstErr.or (c.beginErr s n)) : c.Settled s (n + 1) b' where
  results := by
    intro i
    rw [hres]
    by_cases hi : i = n
    · rw [hi, Function.update_self, if_pos (Nat.lt_succ_self n)]
    · rw [Function.update_of_ne hi, h.results]
      by_cases hlt : i < n
      · rw [if_pos hlt, if_pos (by omega)]
      · rw [if_neg hlt, if_neg (by omega)]
  alone := by
    intro i hi
    rw [hdup]
    apply h.alone
    rintro ⟨hlt, hrest⟩
    exact hi ⟨by omega, hrest⟩
  duplicate := by
    intro i hlt hm ht
    rw [hdup]
    have hne : i ≠ n := by
      rintro rfl
      rw [hno hm] at ht
      exact absurd ht (by simp)
    exact h.duplicate i (by omega) hm ht
  firstErr := by rw [herr, beginErrs_succ, h.firstErr]

theorem Settled.share {n m : Nat} {b : Batch} (h : c.Settled s n b) (hm : c.missed s n = true)
    (ht : c.tried s n = false) (hmn : m < n) (hlead : c.leads s m = true)
    (heq : c.ios m = c.ios n) :
    c.Settled s (n + 1) { b with duplicateOf := Function.update b.duplicateOf n (some m) } where
  results := by
    intro i
    show b.results i = _
    rw [h.results]
    by_cases hi : i = n
    · rw [hi, if_neg (Nat.lt_irrefl n), if_pos (Nat.lt_succ_self n), begunResult_missed hm ht]
    · by_cases hlt : i < n
      · rw [if_pos hlt, if_pos (by omega)]
      · rw [if_neg hlt, if_neg (by omega)]
  alone := by
    intro i hi
    have hne : i ≠ n := by
      rintro rfl
      exact hi ⟨Nat.lt_succ_self i, hm, ht⟩
    show Function.update b.duplicateOf n (some m) i = none
    rw [Function.update_of_ne hne]
    apply h.alone
    rintro ⟨hlt, hrest⟩
    exact hi ⟨by omega, hrest⟩
  duplicate := by
    intro i hlt hmi hti
    show ∃ m' < i, Function.update b.duplicateOf n (some m) i = some m' ∧ _
    by_cases hi : i = n
    · rw [hi, Function.update_self]
      exact ⟨m, hmn, rfl, hlead, heq⟩
    · rw [Function.update_of_ne hi]
      exact h.duplicate i (by omega) hmi hti
  firstErr := by
    have hnone : c.beginErr s n = none := by
      unfold beginErr
      rw [(missed_iff.mp hm).1, ht]
      rfl
    rw [beginErrs_succ, hnone, ← h.firstErr, Option.or_none]

theorem beginOne_settled {n : Nat} {b : Batch} (hx : c.Index s n b) (h : c.Settled s n b) :
    c.Settled s (n + 1) (c.beginOne b n) := by
  rcases beginOne_cases hx with ⟨hv, heq⟩ | ⟨e, hhit, hhit', heq⟩ | ⟨hm, ht, m, hmn, hlead, hio, heq⟩ |
    ⟨ht, err, hp, heq⟩ | ⟨hlead, heq⟩
  · rw [heq]
    refine h.put ?_ ?_ rfl ?_
    · intro hm
      rw [valid, (missed_iff.mp hm).1] at hv
      exact absurd hv (by simp)
    · rw [begunResult_invalid hv]
      rfl
    · have herr : c.beginErr s n = some .einval := by
        unfold beginErr
        cases hval : c.validate (c.ios n) with
        | none => rw [valid, hval] at hv; exact absurd hv (by simp)
        | some err => rw [validate_some hval]
      rw [herr]
      rfl
  · have hno : c.missed s n = false := by
      by_contra hm
      have := missed_hitOf (c := c) (s := s) (n := n) (by simpa using hm)
      rw [hhit] at this
      exact absurd this (by simp)
    rw [heq]
    refine h.put (fun hm => absurd hm (by simp [hno])) ?_ rfl ?_
    · rw [begunResult_hit hhit]
    · have hnone : c.beginErr s n = none := by
        have hv : c.validate (c.ios n) = none := by
          unfold hitOf at hhit
          split_ifs at hhit with hv
          exact valid_iff.mp hv
        unfold beginErr
        rw [hv]
        refine if_neg ?_
        intro ht
        rw [(tried_iff.mp ht).1] at hno
        exact absurd hno (by simp)
      rw [hnone, Option.or_none]
  · rw [heq]
    exact h.share hm ht hmn hlead hio
  · have hv := (missed_iff.mp (tried_iff.mp ht).1).1
    rw [heq]
    refine h.put (fun _ => ht) ?_ rfl ?_
    · rw [begunResult_tried ht hp]
      rfl
    · have herr : c.beginErr s n = some err := by
        unfold beginErr
        rw [hv, ht, hp]
        rfl
      rw [herr]
      rfl
  · obtain ⟨ht, hp⟩ := leads_iff.mp hlead
    have hv := (missed_iff.mp (leads_missed hlead)).1
    rw [heq]
    refine h.put (fun _ => ht) ?_ rfl ?_
    · rw [begunResult_leads hlead]
      funext i
      show b.results i = _
      by_cases hi : i = n
      · rw [hi, Function.update_self, h.results, if_neg (Nat.lt_irrefl n)]
      · rw [Function.update_of_ne hi]
    · have hnone : c.beginErr s n = none := by
        unfold beginErr
        rw [hv, ht, hp]
        rfl
      show b.firstErr = _
      rw [hnone, Option.or_none]

theorem beginLoop_settled (n : Nat) : c.Settled s n (c.beginLoop s bytes n) := by
  induction n with
  | zero => exact Settled.start
  | succ n ih => exact beginOne_settled (beginLoop_index n) ih

/-! ## 3. Prepared fills -/

/-- The entry that a request has got. -/
def Prepared (f : Fill) (io : Request) : Prop :=
  f.read = io.fill.read ∧ f.entry.pins = 1 ∧ f.entry.snapshotTxnid = f.read.snapshot ∧
    f.entry.reusable = f.read.reusable ∧ f.entry.io = f.read.pages

theorem Prepared.insertable {f : Fill} {io : Request} (h : Prepared f io)
    (ht : f.read.tracked = true) : Insertable f :=
  ⟨ht, h.2.1, h.2.2.1, h.2.2.2.1, h.2.2.2.2⟩

variable (c s bytes)

structure Stocked (b : Batch) : Prop where
  exact : Exact b.storage
  fresh : Fresh b.storage
  fill : ∀ j < b.misses, ∃ f,
    (b.storage.fills.find? fun x => x.entry.addr = b.fills j) = some f ∧
      Prepared f (c.ios (b.missIndex j)) ∧
      b.bytes f.entry.page = (c.reads (b.missIndex j)).payload
  distinct : ∀ j k, j < b.misses → k < b.misses → b.fills j = b.fills k → j = k
  old : ∀ p < s.nextPage, b.bytes p = bytes p
  next : s.nextPage ≤ b.storage.nextPage

variable {c s bytes}

theorem Stocked.start (he : Exact s) (hf : Fresh s) : c.Stocked s bytes (start s bytes) where
  exact := he
  fresh := hf
  fill := fun _ h => absurd h (Nat.not_lt_zero _)
  distinct := fun _ _ h => absurd h (Nat.not_lt_zero _)
  old := fun _ _ => rfl
  next := Nat.le_refl _

-- the arrays of the fills as they are
theorem Stocked.skip {b b' : Batch} (h : c.Stocked s bytes b) (he : Exact b'.storage)
    (hf : Fresh b'.storage) (hfills : b'.storage.fills = b.storage.fills)
    (hnext : b'.storage.nextPage = b.storage.nextPage) (hbytes : b'.bytes = b.bytes)
    (hm : b'.misses = b.misses) (hi : b'.missIndex = b.missIndex) (hfl : b'.fills = b.fills) :
    c.Stocked s bytes b' where
  exact := he
  fresh := hf
  fill := by
    rw [hm, hi, hfl, hfills, hbytes]
    exact h.fill
  distinct := by
    rw [hm, hfl]
    exact h.distinct
  old := by
    rw [hbytes]
    exact h.old
  next := by
    rw [hnext]
    exact h.next

theorem Stocked.addMiss {b : Batch} {n : Nat} (h : c.Stocked s bytes b)
    (hread : (c.ios n).fill.read.pages.npages ≠ 0) : c.Stocked s bytes (c.addMiss b n) where
  exact := prepareReadCachedPage_exact _ _ _ h.exact
  fresh := h.fresh.prepare _ _ _ hread
  fill := by
    intro j hj
    show ∃ f, (List.find? (fun x => x.entry.addr = Function.update b.fills b.misses
        b.storage.nextAddr j) (_ :: b.storage.fills)) = some f ∧
      Prepared f (c.ios (Function.update b.missIndex b.misses n j)) ∧
      Function.update b.bytes b.storage.nextPage (c.reads n).payload f.entry.page =
        (c.reads (Function.update b.missIndex b.misses n j)).payload
    by_cases hjm : j = b.misses
    · subst hjm
      simp only [Function.update_self]
      rw [List.find?_cons_of_pos (by simp)]
      exact ⟨_, rfl, ⟨rfl, rfl, rfl, rfl, rfl⟩, Function.update_self _ _ _⟩
    · have hlt : j < b.misses := by
        have : j < b.misses + 1 := hj
        omega
      obtain ⟨f, hf, hprep, hpay⟩ := h.fill j hlt
      have hmem := List.mem_of_find?_eq_some hf
      -- the new entry and the new buffer are none of the old ones
      have haddr : b.fills j < b.storage.nextAddr := by
        rw [← (fills_perm hf).1]
        apply h.exact.fresh
        exact List.mem_append_right _ (List.mem_append_left _ (List.mem_map.mpr ⟨f, hmem, rfl⟩))
      have hpage := (h.fresh.fills f hmem).1.1
      simp only [Function.update_of_ne hjm]
      rw [List.find?_cons_of_neg (by simp; omega)]
      refine ⟨f, hf, hprep, ?_⟩
      rw [Function.update_of_ne (by omega)]
      exact hpay
  distinct := by
    have haddr : ∀ j < b.misses, b.fills j < b.storage.nextAddr := by
      intro j hlt
      obtain ⟨f, hf, -⟩ := h.fill j hlt
      rw [← (fills_perm hf).1]
      apply h.exact.fresh
      exact List.mem_append_right _ (List.mem_append_left _
        (List.mem_map.mpr ⟨f, List.mem_of_find?_eq_some hf, rfl⟩))
    intro j k hj hk heq
    change j < b.misses + 1 at hj
    change k < b.misses + 1 at hk
    change Function.update b.fills b.misses b.storage.nextAddr j =
      Function.update b.fills b.misses b.storage.nextAddr k at heq
    by_cases hjm : j = b.misses
    · by_cases hkm : k = b.misses
      · omega
      · rw [hjm, Function.update_self, Function.update_of_ne hkm] at heq
        have := haddr k (by omega)
        omega
    · by_cases hkm : k = b.misses
      · rw [hkm, Function.update_self, Function.update_of_ne hjm] at heq
        have := haddr j (by omega)
        omega
      · rw [Function.update_of_ne hjm, Function.update_of_ne hkm] at heq
        exact h.distinct j k (by omega) (by omega) heq
  old := by
    intro p hp
    have hne : p ≠ b.storage.nextPage := by
      have := h.next
      omega
    show Function.update b.bytes b.storage.nextPage _ p = bytes p
    rw [Function.update_of_ne hne]
    exact h.old p hp
  next := h.next.trans (Nat.le_succ _)

theorem lookup_fills (s : Storage) (read : ReadIo) :
    (lookupCachedPage s read).2.fills = s.fills ∧
      (lookupCachedPage s read).2.nextPage = s.nextPage := by
  cases hhit : hitEntry s read with
  | none =>
    rw [lookupCachedPage_miss hhit]
    exact ⟨rfl, rfl⟩
  | some e =>
    rw [lookupCachedPage_hit hhit]
    exact ⟨rfl, rfl⟩

theorem missed_npages {n : Nat} (h : c.missed s n = true) :
    (c.ios n).fill.read.pages.npages ≠ 0 := by
  obtain ⟨hv, -, -, hfill⟩ := validate_none (missed_iff.mp h).1
  rw [hfill]
  simp only [readIoValid, decide_eq_true_eq] at hv
  show (c.ios n).read.pages.npages ≠ 0
  omega

theorem beginOne_stocked {n : Nat} {b : Batch} (hx : c.Index s n b) (h : c.Stocked s bytes b) :
    c.Stocked s bytes (c.beginOne b n) := by
  rcases beginOne_cases hx with ⟨hv, heq⟩ | ⟨e, hhit, hhit', heq⟩ | ⟨hm, ht, m, -, -, -, heq⟩ |
    ⟨ht, err, hp, heq⟩ | ⟨hlead, heq⟩
  · rw [heq]
    exact h.skip h.exact h.fresh rfl rfl rfl rfl rfl rfl
  · rw [heq]
    obtain ⟨hfills, hnext⟩ := lookup_fills b.storage (c.ios n).lookup.read
    exact h.skip (lookupCachedPage_exact _ h.exact) (h.fresh.lookup _) hfills hnext rfl rfl rfl rfl
  · rw [heq]
    exact h.skip h.exact h.fresh rfl rfl rfl rfl rfl rfl
  · rw [heq]
    exact h.skip h.exact h.fresh rfl rfl rfl rfl rfl rfl
  · rw [heq]
    exact h.addMiss (missed_npages (leads_missed hlead))

theorem beginLoop_stocked (he : Exact s) (hf : Fresh s) (n : Nat) :
    c.Stocked s bytes (c.beginLoop s bytes n) := by
  induction n with
  | zero => exact Stocked.start he hf
  | succ n ih => exact beginOne_stocked (beginLoop_index n) ih

end Mdbx.PageCache.Call
