import Mdbx.PageCache.Filled

/-!
# PageCache.Balance — the pins of a batch against its results

Up to `page_cache_read_batch_finish` every pin that the batch has taken stands in a result.  Only
the rewriting of the results after `MDBX_ENOMEM` can part the two.
-/

namespace Mdbx.PageCache

namespace Call

variable (c : Call) (s : Storage) {bytes : Nat → List UInt8}

/-! ## 1. The completed batch -/

/-- All failures in the order in which the batch meets them. -/
def failures : List Err :=
  c.beginErrs s c.count ++
    ((c.storageErr ((List.range c.count).filter (c.leads s)).length).toList ++
      ((List.range c.count).filter (c.leads s)).filterMap c.fillErr)

structure Completed (bytes : Nat → List UInt8) (b : Batch) : Prop where
  exact : Exact b.storage
  pinned : Pinned s c.count b
  firstErr : b.firstErr = (c.failures s).head?
  misses : (List.range b.misses).map b.missIndex = (List.range c.count).filter (c.leads s)
  settled : ∀ i < c.count, c.leads s i = false →
    ¬ (c.missed s i = true ∧ c.tried s i = false) → b.results i = c.begunResult s i
  leader : ∀ i < c.count, c.leads s i = true → FilledResult c b.bytes i (b.results i)
  follower : ∀ i < c.count, c.missed s i = true → c.tried s i = false →
    ∃ m < i, b.duplicateOf i = some m ∧ c.leads s m = true ∧ c.ios m = c.ios i ∧
      SharedResult (b.results m) (b.results i)
  alone : ∀ i, ¬ (i < c.count ∧ c.missed s i = true ∧ c.tried s i = false) →
    b.duplicateOf i = none
  old : ∀ p < s.nextPage, b.bytes p = bytes p

variable {c s}

theorem leads_of_follower {i : Nat} (ht : c.tried s i = false) : c.leads s i = false := by
  unfold leads
  rw [ht, Bool.false_and]

theorem filling_start {b : Batch} (hk : c.Stocked s bytes b) (hp : Pinned s c.count b) :
    Filling c s b 0 b where
  misses := rfl
  missIndex := rfl
  fills := rfl
  duplicateOf := rfl
  bytes := rfl
  exact := hk.exact
  ahead := fun j _ hj => hk.fill j hj
  others := fun _ _ => rfl
  filled := fun _ h => absurd h (Nat.not_lt_zero _)
  firstErr := by simp
  pinned := hp

theorem masters_filled {b₀ b : Batch} (hx : c.Index s c.count b₀) {err : Option Err}
    (hw : c.Settled s c.count { b₀ with firstErr := err }) (h : Filling c s b₀ b₀.misses b) :
    Masters c b where
  alone := by
    intro i m hdup
    rw [h.duplicateOf] at hdup ⊢
    by_cases hi : i < c.count ∧ c.missed s i = true ∧ c.tried s i = false
    · obtain ⟨m', hm', hdup', hlead, -⟩ := hw.duplicate i hi.1 hi.2.1 hi.2.2
      change b₀.duplicateOf i = some m' at hdup'
      rw [hdup] at hdup'
      obtain rfl := Option.some.inj hdup'
      refine ⟨hw.alone m ?_, by omega⟩
      rintro ⟨-, -, ht⟩
      rw [leads_of_follower ht] at hlead
      exact absurd hlead (by simp)
    · rw [show b₀.duplicateOf i = none from hw.alone i hi] at hdup
      exact absurd hdup (by simp)
  blank := by
    intro i m hdup
    rw [h.duplicateOf] at hdup
    by_cases hi : i < c.count ∧ c.missed s i = true ∧ c.tried s i = false
    · rw [h.others]
      · have hres := hw.results i
        change b₀.results i = _ at hres
        rw [hres, if_pos hi.1, begunResult_missed hi.2.1 hi.2.2]
        simp [cachePageError]
      · intro j hj heq
        have hlead := (hx.mem.mp ⟨j, hj, heq⟩).2
        rw [leads_of_follower hi.2.2] at hlead
        exact absurd hlead (by simp)
    · rw [show b₀.duplicateOf i = none from hw.alone i hi] at hdup
      exact absurd hdup (by simp)
  noted := by
    intro i m hdup herr
    rw [h.duplicateOf] at hdup
    by_cases hi : i < c.count ∧ c.missed s i = true ∧ c.tried s i = false
    · obtain ⟨m', hm', hdup', hlead, -⟩ := hw.duplicate i hi.1 hi.2.1 hi.2.2
      change b₀.duplicateOf i = some m' at hdup'
      rw [hdup] at hdup'
      obtain rfl := Option.some.inj hdup'
      obtain ⟨j, hj, rfl⟩ := hx.mem.mpr ⟨by omega, hlead⟩
      rw [(h.filled j hj).err] at herr
      rw [h.firstErr]
      cases hfirst : b₀.firstErr with
      | some e => simp
      | none =>
        rw [Option.none_or]
        intro hnil
        rw [List.head?_eq_none_iff, List.filterMap_eq_nil_iff] at hnil
        exact herr (hnil j (List.mem_range.mpr hj))
    · rw [show b₀.duplicateOf i = none from hw.alone i hi] at hdup
      exact absurd hdup (by simp)

theorem sharing_start {b : Batch} (he : Exact b.storage) (hp : Pinned s c.count b) :
    Sharing c s b 0 b where
  misses := rfl
  missIndex := rfl
  duplicateOf := rfl
  bytes := rfl
  exact := he
  others := fun _ _ => rfl
  shared := fun _ h => absurd h (Nat.not_lt_zero _)
  firstErr := rfl
  pinned := hp

theorem misses_eq {n : Nat} {b : Batch} (h : c.Index s n b) :
    b.misses = ((List.range n).filter (c.leads s)).length := by
  rw [← h.misses, List.length_map, List.length_range]

theorem filterMap_misses {n : Nat} {b : Batch} (h : c.Index s n b) :
    ((List.range b.misses).filterMap fun j => c.fillErr (b.missIndex j)) =
      ((List.range n).filter (c.leads s)).filterMap c.fillErr := by
  rw [← h.misses, List.filterMap_map]
  rfl

/-- The batch before `page_cache_read_batch_finish`. -/
theorem completed_spec (bytes : Nat → List UInt8) (he : Exact s) (hf : Fresh s) :
    Completed c s bytes (c.completed s bytes) := by
  have hx : c.Index s c.count (c.beginLoop s bytes c.count) := beginLoop_index c.count
  have hw : c.Settled s c.count (c.beginLoop s bytes c.count) := beginLoop_settled c.count
  have hk : c.Stocked s bytes (c.beginLoop s bytes c.count) := beginLoop_stocked he hf c.count
  have hp : Pinned s c.count (c.beginLoop s bytes c.count) :=
    beginLoop_pinned he hf (Nat.le_refl c.count)
  unfold completed
  dsimp only
  generalize c.beginLoop s bytes c.count = b₀ at hx hw hk hp
  have hblank : ∀ i, c.leads s i = true → (b₀.results i).err ≠ none := by
    intro i hlead
    rw [hw.results]
    split_ifs
    · rw [begunResult_leads hlead]
      simp [cachePageError]
    · simp [cachePageError]
  -- the error of the storage batch comes between the two loops
  generalize hread : { b₀ with firstErr := b₀.firstErr.or (c.storageErr b₀.misses) } = read
  have hx' : c.Index s c.count read := by
    rw [← hread]
    exact ⟨hx.cache, hx.misses, hx.chained⟩
  have hk' : c.Stocked s bytes read := by
    rw [← hread]
    exact ⟨hk.exact, hk.fresh, hk.fill, hk.distinct, hk.old, hk.next⟩
  have hp' : Pinned s c.count read := by
    rw [← hread]
    exact ⟨hp.pins, hp.live⟩
  have hw' : c.Settled s c.count { read with firstErr := b₀.firstErr } := by
    rw [← hread]
    exact hw
  have hblank' : ∀ i, c.leads s i = true → (read.results i).err ≠ none := by
    rw [← hread]
    exact hblank
  have hm : b₀.misses = read.misses := by rw [← hread]
  have hfill := filling_loop hx' hk'.distinct hblank' (filling_start hk' hp')
    (Nat.le_refl read.misses)
  rw [hm]
  generalize (List.range read.misses).foldl c.materializeOne read = b₁ at hfill
  have hmasters := masters_filled hx' hw' hfill
  have hshare := sharing_loop hmasters (sharing_start hfill.exact hfill.pinned)
    (Nat.le_refl c.count)
  generalize (List.range c.count).foldl shareOne b₁ = b at hshare
  have hresults : ∀ i, read.results i = if i < c.count then c.begunResult s i
      else cachePageError .einval := hw'.results
  have halone : ∀ i, ¬ (i < c.count ∧ c.missed s i = true ∧ c.tried s i = false) →
      b₁.duplicateOf i = none := by
    intro i hi
    rw [hfill.duplicateOf]
    exact hw'.alone i hi
  refine ⟨hshare.exact, hshare.pinned, ?_, ?_, ?_, ?_, ?_, ?_, ?_⟩
  · rw [hshare.firstErr, hfill.firstErr, filterMap_misses hx', ← hread]
    show (b₀.firstErr.or (c.storageErr b₀.misses)).or _ = _
    unfold failures
    rw [hw.firstErr, misses_eq hx, List.head?_append, List.head?_append, Option.or_assoc]
    cases c.storageErr ((List.range c.count).filter (c.leads s)).length <;> rfl
  · rw [hshare.misses, hshare.missIndex, hfill.misses, hfill.missIndex]
    exact hx'.misses
  · intro i hi hlead hno
    rw [hshare.others i (Or.inr (halone i fun h => hno h.2)), hfill.others, hresults, if_pos hi]
    intro j hj heq
    rw [(hx'.mem.mp ⟨j, hj, heq⟩).2] at hlead
    exact absurd hlead (by simp)
  · intro i hi hlead
    have hno : ¬ (i < c.count ∧ c.missed s i = true ∧ c.tried s i = false) := by
      rintro ⟨-, -, ht⟩
      rw [leads_of_follower ht] at hlead
      exact absurd hlead (by simp)
    obtain ⟨j, hj, rfl⟩ := hx'.mem.mpr ⟨hi, hlead⟩
    rw [hshare.others _ (Or.inr (halone _ hno)), hshare.bytes, hfill.bytes]
    exact hfill.filled j hj
  · intro i hi hmiss ht
    obtain ⟨m, hmi, hdup, hlead, heq⟩ := hw'.duplicate i hi hmiss ht
    have hdup' : b₁.duplicateOf i = some m := by
      rw [hfill.duplicateOf]
      exact hdup
    have hshared := hshare.shared i hi m hdup'
    rw [← hshare.others m (Or.inr (hmasters.alone i m hdup').1)] at hshared
    exact ⟨m, hmi, by rw [hshare.duplicateOf, hdup'], hlead, heq, hshared⟩
  · intro i hi
    rw [hshare.duplicateOf]
    exact halone i hi
  · intro p hp
    rw [hshare.bytes, hfill.bytes]
    exact hk'.old p hp

/-! ## 2. Which results are successes -/

variable (c s)

/-- A request that gets a page: a hit, or a leader whose fill succeeds. -/
def Served (i : Nat) : Prop :=
  c.hitOf s i ≠ none ∨ c.leads s i = true ∧ c.fillErr i = none

variable {c s}

theorem begunResult_err {i : Nat} (h : c.hitOf s i = none) :
    (c.begunResult s i).err ≠ none := by
  unfold begunResult
  cases c.validate (c.ios i) with
  | some err => simp [cachePageError]
  | none =>
    rw [h]
    dsimp only
    split_ifs
    · cases c.prepare i <;> simp [cachePageError]
    · simp [cachePageError]

theorem Completed.served {b : Batch} (h : Completed c s bytes b) :
    (∃ i < c.count, (b.results i).err = none) ↔ ∃ i < c.count, Served c s i := by
  constructor
  · rintro ⟨i, hi, herr⟩
    by_cases hlead : c.leads s i = true
    · rw [(h.leader i hi hlead).err] at herr
      exact ⟨i, hi, Or.inr ⟨hlead, herr⟩⟩
    · by_cases hfollow : c.missed s i = true ∧ c.tried s i = false
      · obtain ⟨m, hmi, -, hm, -, hshared⟩ := h.follower i hi hfollow.1 hfollow.2
        rw [hshared.1, (h.leader m (by omega) hm).err] at herr
        exact ⟨m, by omega, Or.inr ⟨hm, herr⟩⟩
      · rw [h.settled i hi (by simpa using hlead) hfollow] at herr
        refine ⟨i, hi, Or.inl fun hno => ?_⟩
        exact begunResult_err hno herr
  · rintro ⟨i, hi, hhit | ⟨hlead, herr⟩⟩
    · obtain ⟨e, he⟩ := Option.ne_none_iff_exists'.mp hhit
      have hmiss : ¬ (c.missed s i = true ∧ c.tried s i = false) := by
        rintro ⟨hm, -⟩
        exact hhit (missed_hitOf hm)
      refine ⟨i, hi, ?_⟩
      rw [h.settled i hi (leads_of_hit he) hmiss, begunResult_hit he]
      rfl
    · exact ⟨i, hi, by rw [(h.leader i hi hlead).err, herr]⟩

end Call

/-! ## 3. Releasing the results -/

/-- The caller releases every result that is a success. -/
def releaseOne (results : Nat → PageResult) (s : Storage) (i : Nat) : Storage :=
  match (results i).err, (results i).ref with
  | none, some ref => (releaseCachedRef s ref).2
  | _, _ => s

def releaseResults (results : Nat → PageResult) (s : Storage) (n : Nat) : Storage :=
  (List.range n).foldl (releaseOne results) s

def Held.unpinBy (h : Held) (k : Nat) : Option Held :=
  if h.pins ≤ k then none else some { h with pins := h.pins - k }

theorem resultsTo_succ (results : Nat → PageResult) (n a : Nat) :
    resultsTo results (n + 1) a =
      resultsTo results n a + if (results n).grants a = true then 1 else 0 := by
  unfold resultsTo
  rw [List.range_succ, List.countP_append, List.countP_singleton]

theorem resultsTo_mono (results : Nat → PageResult) {m n : Nat} (h : m ≤ n) (a : Nat) :
    resultsTo results m a ≤ resultsTo results n a := by
  induction h with
  | refl => exact Nat.le_refl _
  | step _ ih =>
    rw [Nat.succ_eq_add_one, resultsTo_succ]
    omega

theorem grants_err {r : PageResult} {a : Nat} (h : r.err ≠ none) : r.grants a = false := by
  unfold PageResult.grants
  cases he : r.err with
  | none => exact absurd he h
  | some err => rfl

/-- After `n` releases every entry has that many pins fewer as results among them refer to it. -/
theorem releaseResults_held {results : Nat → PageResult} {s : Storage} {n : Nat} (he : Exact s)
    (hlive : ∀ i < n, (results i).err = none →
      ∃ ref, (results i).ref = some ref ∧ Current s ref)
    (hpins : ∀ a, resultsTo results n a ≤ pinsOf s a) :
    Exact (releaseResults results s n) ∧ ∀ a, held (releaseResults results s n) a =
      (held s a).bind fun h => h.unpinBy (resultsTo results n a) := by
  induction n with
  | zero =>
    refine ⟨he, fun a => ?_⟩
    show held s a = _
    cases hh : held s a with
    | none => rfl
    | some h =>
      have hp := held_pins hh
      rw [Option.bind_some, Held.unpinBy, if_neg (by simp [resultsTo]; omega)]
      rfl
  | succ n ih =>
    have hle := fun a => (resultsTo_mono results (Nat.le_succ n) a).trans (hpins a)
    obtain ⟨hex, hview⟩ := ih (fun i hi => hlive i (by omega)) hle
    have hstep : releaseResults results s (n + 1) =
        releaseOne results (releaseResults results s n) n := by
      unfold releaseResults
      rw [List.range_succ, List.foldl_append]
      rfl
    rw [hstep]
    generalize releaseResults results s n = t at hex hview
    cases herr : (results n).err with
    | some err =>
      have hsame : releaseOne results t n = t := by
        unfold releaseOne
        rw [herr]
      rw [hsame]
      refine ⟨hex, fun a => ?_⟩
      rw [hview, resultsTo_succ, grants_err (by simp [herr])]
      rfl
    | none =>
      obtain ⟨ref, href, x, hx, hpage, hpgno, hn, hne⟩ := hlive n (Nat.lt_succ_self n) herr
      have hrel : releaseOne results t n = (releaseCachedRef t ref).2 := by
        unfold releaseOne
        rw [herr, href]
      have hgrants : ∀ a, (results n).grants a = decide (ref.cache = a) := by
        intro a
        unfold PageResult.grants
        rw [herr, href]
        rfl
      -- the entry still has the pin of this result
      have hroom : resultsTo results n ref.cache < x.pins := by
        have := hpins ref.cache
        rw [resultsTo_succ, hgrants, pinsOf_of_held hx] at this
        simp at this
        omega
      have hy : held t ref.cache =
          some { x with pins := x.pins - resultsTo results n ref.cache } := by
        rw [hview, hx, Option.bind_some, Held.unpinBy, if_neg (by omega)]
      have hl : RefLive t ref :=
        ⟨_, hy, hpage.symm, hpgno.symm, by rw [hn]; exact hne⟩
      rw [hrel]
      refine ⟨releaseCachedRef_exact ref hex, fun a => ?_⟩
      rw [(releaseCachedRef_live hex hl hy).2, resultsTo_succ, hgrants]
      by_cases ha : a = ref.cache
      · subst ha
        rw [Function.update_self, hx, Option.bind_some, if_pos (by simp)]
        unfold Held.unpin Held.unpinBy
        by_cases hlast : x.pins - resultsTo results n ref.cache = 1
        · rw [if_pos hlast, if_pos (by omega)]
        · rw [if_neg hlast, if_neg (by omega)]
          rfl
      · rw [Function.update_of_ne ha, hview, if_neg (by simpa using fun h => ha h.symm)]
        rfl

theorem releaseResults_pins {results : Nat → PageResult} {s : Storage} {n : Nat} (he : Exact s)
    (hlive : ∀ i < n, (results i).err = none →
      ∃ ref, (results i).ref = some ref ∧ Current s ref)
    (hpins : ∀ a, resultsTo results n a ≤ pinsOf s a) (a : Nat) :
    pinsOf (releaseResults results s n) a = pinsOf s a - resultsTo results n a := by
  have hview := (releaseResults_held he hlive hpins).2 a
  cases hh : held s a with
  | none =>
    rw [hh] at hview
    rw [pinsOf_of_none hview, pinsOf_of_none hh, Nat.zero_sub]
  | some h =>
    rw [hh, Option.bind_some, Held.unpinBy] at hview
    rw [pinsOf_of_held hh]
    by_cases hle : h.pins ≤ resultsTo results n a
    · rw [if_pos hle] at hview
      rw [pinsOf_of_none hview]
      omega
    · rw [if_neg hle] at hview
      rw [pinsOf_of_held hview]

/-! ## 4. The call -/

namespace Call

variable {c : Call} {s : Storage} {bytes : Nat → List UInt8}

theorem discardLeft_keeps {b : Batch} {s : Storage} (h : Exact s) (j : Nat) :
    Exact (discardLeft b s j) ∧ held (discardLeft b s j) = held s := by
  unfold discardLeft
  cases hf : s.fills.find? fun f => f.entry.addr = b.fills j with
  | none => exact ⟨h, rfl⟩
  | some f =>
    have hfind : (s.fills.find? fun x => x.entry.addr = f.entry.addr) = some f := by
      rw [(fills_perm hf).1]
      exact hf
    have hdiscard : discardFill s f = (completeFill s f.entry.addr false).2 := by
      unfold completeFill
      rw [hfind]
      rfl
    dsimp only
    rw [hdiscard]
    refine ⟨completeFill_exact _ _ h, ?_⟩
    rw [← hdiscard, discardFill_held]

theorem finish_keeps {b : Batch} (h : Exact b.storage) :
    Exact (finish b).storage ∧ held (finish b).storage = held b.storage := by
  have hloop : ∀ (js : List Nat) (s : Storage), Exact s →
      Exact (js.foldl (discardLeft b) s) ∧ held (js.foldl (discardLeft b) s) = held s := by
    intro js
    induction js with
    | nil => exact fun s hs => ⟨hs, rfl⟩
    | cons j js ih =>
      intro s hs
      obtain ⟨hex, hheld⟩ := discardLeft_keeps (b := b) hs j
      obtain ⟨hex', hheld'⟩ := ih _ hex
      exact ⟨hex', hheld'.trans hheld⟩
  exact hloop _ _ h

/-- The pins of every entry have risen by the number of successful results that refer to it, and
releasing these results brings all pins back. -/
structure PinsExact (c : Call) (s : Storage) (bytes : Nat → List UInt8) : Prop where
  risen : ∀ a, pinsOf (c.submitReadBatch s bytes).storage a =
    pinsOf s a + resultsTo (c.submitReadBatch s bytes).results c.count a
  restored : ∀ a, pinsOf (releaseResults (c.submitReadBatch s bytes).results
    (c.submitReadBatch s bytes).storage c.count) a = pinsOf s a

/-- The arrays have been allocated, the first failure is `MDBX_ENOMEM`, and some request has been
served nevertheless. -/
def LosesPins (c : Call) (s : Storage) : Prop :=
  (c.count ≤ 4 ∨ c.arrays = true) ∧ (c.failures s).head? = some .enomem ∧
    ∃ i < c.count, Served c s i

theorem pinsExact_of_pinned {results : Nat → PageResult} {t : Storage} {n : Nat} (he : Exact t)
    (hrisen : ∀ a, pinsOf t a = pinsOf s a + resultsTo results n a)
    (hlive : ∀ i < n, (results i).err = none →
      ∃ ref, (results i).ref = some ref ∧ Current t ref) (a : Nat) :
    pinsOf (releaseResults results t n) a = pinsOf s a := by
  rw [releaseResults_pins he hlive (fun a => by rw [hrisen a]; omega), hrisen a]
  omega

-- a call that gives errors only and takes no pin
theorem pinsExact_of_errors {out : Outcome} (he : Exact out.storage)
    (hout : c.submitReadBatch s bytes = out) (hpins : ∀ a, pinsOf out.storage a = pinsOf s a)
    (herr : ∀ i < c.count, (out.results i).err ≠ none) : PinsExact c s bytes := by
  have hrisen : ∀ a, pinsOf out.storage a = pinsOf s a + resultsTo out.results c.count a := by
    intro a
    rw [resultsTo_none herr, hpins a]
    rfl
  refine ⟨?_, ?_⟩
  · rw [hout]
    exact hrisen
  · rw [hout]
    exact pinsExact_of_pinned he hrisen fun i hi hno => absurd hno (herr i hi)

theorem pinsExact_iff (he : Exact s) (hf : Fresh s) :
    PinsExact c s bytes ↔ ¬ LosesPins c s := by
  by_cases hzero : c.count = 0
  · have hout : c.submitReadBatch s bytes =
        ⟨some .einval, s, bytes, fun _ => cachePageError .einval⟩ := if_pos hzero
    refine ⟨?_, fun _ => pinsExact_of_errors he hout (fun _ => rfl) fun i hi => by omega⟩
    rintro - ⟨-, -, i, hi, -⟩
    omega
  · by_cases harrays : c.count > 4 ∧ (!c.arrays) = true
    · have hout : c.submitReadBatch s bytes =
          ⟨some .enomem, s, bytes, fun _ => cachePageError .enomem⟩ := by
        unfold submitReadBatch
        rw [if_neg hzero, if_pos harrays]
      refine ⟨?_, fun _ => pinsExact_of_errors he hout (fun _ => rfl) fun i _ => ?_⟩
      · rintro - ⟨hle | hyes, -⟩
        · omega
        · rw [hyes] at harrays
          exact absurd harrays.2 (by simp)
      · simp [cachePageError]
    · have hout : c.submitReadBatch s bytes = finish (c.completed s bytes) := by
        unfold submitReadBatch
        rw [if_neg hzero, if_neg harrays]
      have hgot : c.count ≤ 4 ∨ c.arrays = true := by
        by_contra hno
        push Not at hno
        exact harrays ⟨by omega, by simpa using hno.2⟩
      have hspec := completed_spec (c := c) bytes he hf
      obtain ⟨hex, hheld⟩ := finish_keeps hspec.exact
      have hpins : ∀ a, pinsOf (finish (c.completed s bytes)).storage a =
          pinsOf s a + resultsTo (c.completed s bytes).results c.count a := by
        intro a
        rw [pinsOf_congr hheld]
        exact hspec.pinned.pins a
      by_cases hfirst : (c.failures s).head? = some .enomem
      · have hresults : (finish (c.completed s bytes)).results = fun _ => cachePageError .enomem :=
          if_pos (hspec.firstErr.trans hfirst)
        have herr : ∀ i < c.count, ((finish (c.completed s bytes)).results i).err ≠ none := by
          intro i _
          rw [hresults]
          simp [cachePageError]
        constructor
        · -- a served request has a pin, and no result has its reference
          rintro ⟨hrisen, -⟩ ⟨-, -, hserved⟩
          obtain ⟨i, hi, hnone⟩ := hspec.served.mpr hserved
          obtain ⟨ref, href, -⟩ := hspec.pinned.live i hi hnone
          have hpos : 0 < resultsTo (c.completed s bytes).results c.count ref.cache := by
            apply List.countP_pos_iff.mpr
            refine ⟨i, List.mem_range.mpr hi, ?_⟩
            unfold PageResult.grants
            rw [hnone, href]
            simp
          have hrisen' := hrisen ref.cache
          rw [hout, resultsTo_none herr, hpins ref.cache] at hrisen'
          omega
        · intro hno
          refine pinsExact_of_errors hex hout ?_ herr
          intro a
          rw [hpins a, resultsTo_none, Nat.add_zero]
          intro i hi hnone
          exact hno ⟨hgot, hfirst, hspec.served.mp ⟨i, hi, hnone⟩⟩
      · have hresults : (finish (c.completed s bytes)).results = (c.completed s bytes).results :=
          if_neg fun h => hfirst (hspec.firstErr.symm.trans h)
        constructor
        · rintro - ⟨-, hyes, -⟩
          exact hfirst hyes
        · intro _
          have hrisen : ∀ a, pinsOf (finish (c.completed s bytes)).storage a = pinsOf s a +
              resultsTo (finish (c.completed s bytes)).results c.count a := by
            rw [hresults]
            exact hpins
          refine ⟨by rw [hout]; exact hrisen, ?_⟩
          rw [hout]
          refine pinsExact_of_pinned hex hrisen ?_
          rw [hresults]
          intro i hi hnone
          obtain ⟨ref, href, hcur⟩ := hspec.pinned.live i hi hnone
          exact ⟨ref, href, hcur.grows (by rw [hheld]; exact Grows.refl _)⟩

/-- From every state of the cache that readers can reach, for every batch and whatever the
allocator and the storage answer: the pins and the results of the call agree unless the first
failure is `MDBX_ENOMEM` and some request has been served. -/
theorem submitReadBatch_pins_iff (ln limit : Nat) (uses : List Use) (c : Call)
    (bytes : Nat → List UInt8) :
    PinsExact c ((World.init limit).run ln uses).storage bytes ↔
      ¬ LosesPins c ((World.init limit).run ln uses).storage := by
  have hsound := run_sound ln uses (World.init_sound limit)
  exact pinsExact_iff hsound.exact hsound.fresh

/-- A batch for the pages 5 and 6, of which the second finds no memory for its entry. -/
def hitThenEnomem : Call where
  pagesizeLn := 8
  reusable := true
  snapshot := 1
  count := 2
  ios i :=
    let read : ReadIo := ⟨⟨5 + i, 6 + i, 1, 256⟩, 1, true, true⟩
    ⟨read, ⟨read, false⟩, ⟨read, true⟩⟩
  hash _ := 0
  isLarge _ := false
  arrays := true
  prepare i := if i = 1 then some .enomem else none
  readBegin := none
  readDrive := none
  readFinish := none
  reads _ := ⟨none, true, true, List.replicate 256 0⟩
  insert _ := none

-- Page 5 is in the cache; it gets a pin, and both results say `MDBX_ENOMEM`.
theorem submitReadBatch_loses_pin :
    ¬ ∀ (ln limit : Nat) (uses : List Use) (c : Call) (bytes : Nat → List UInt8),
      PinsExact c ((World.init limit).run ln uses).storage bytes := by
  intro hall
  have hrisen := (hall 8 1024 [.prepare ⟨⟨5, 6, 1, 256⟩, 1, true, true⟩ true false
    (List.replicate 256 0), .complete 0 true, .release 0] hitThenEnomem fun _ => []).risen 0
  exact absurd hrisen (by decide +kernel)

end Call

end Mdbx.PageCache
