import Mdbx.PageCache.Batch
import Mdbx.PageCache.Refs

/-!
# PageCache.Fates — what becomes of each request of a batch

Told from the requests, the cache before the call and the answers of the allocator: a request is
refused, or hits when its turn comes, or misses.  The first of equal misses whose fill can be
prepared leads the others.
-/

namespace Mdbx.PageCache.Call

variable (c : Call) (s : Storage)

/-! ## 1. Fates -/

def valid (i : Nat) : Bool := (c.validate (c.ios i)).isNone

/-- The storage after the lookups of the first `n` requests. -/
def lookedUp : Nat → Storage
  | 0 => s
  | n + 1 =>
    if c.valid n then (lookupCachedPage (lookedUp n) (c.ios n).lookup.read).2 else lookedUp n

def hitOf (i : Nat) : Option Entry :=
  if c.valid i then hitEntry (c.lookedUp s i) (c.ios i).lookup.read else none

def missed (i : Nat) : Bool := c.valid i && (c.hitOf s i).isNone

/-- No equal miss before it has got a fill. -/
def tried (i : Nat) : Bool :=
  c.missed s i && (List.range i).all fun k =>
    !(c.missed s k && c.ios k = c.ios i && (c.prepare k).isNone)

def leads (i : Nat) : Bool := c.tried s i && (c.prepare i).isNone

variable {c s}

theorem validate_none {io : Request} (h : c.validate io = none) :
    readIoValid c.pagesizeLn io.read = true ∧ io.read.reusable = c.reusable ∧
      io.lookup = ⟨io.read, false⟩ ∧ io.fill = ⟨io.read, true⟩ := by
  unfold validate makeReadSubmitIo at h
  dsimp only at h
  by_cases hv : readIoValid c.pagesizeLn io.read = true
  · rw [if_neg (by simp [hv])] at h
    by_cases hs : io.read.reusable ≠ c.reusable ∨
        io.read.snapshot ≠ if c.reusable = true then c.snapshot else 0
    · rw [if_pos hs] at h
      exact absurd h (by simp)
    · rw [if_neg hs] at h
      push Not at hs
      by_cases heq : Request.mk io.read ⟨io.read, false⟩ ⟨io.read, true⟩ = io
      · exact ⟨hv, hs.1, by rw [← heq], by rw [← heq]⟩
      · simp [heq] at h
  · rw [if_pos (by simpa using hv)] at h
    exact absurd h (by simp)

theorem validate_some {io : Request} {err : Err} (h : c.validate io = some err) :
    err = .einval := by
  unfold validate makeReadSubmitIo at h
  dsimp only at h
  by_cases hv : (!readIoValid c.pagesizeLn io.read) = true
  · rw [if_pos hv] at h
    exact (Option.some.inj h).symm
  · rw [if_neg hv] at h
    by_cases hs : io.read.reusable ≠ c.reusable ∨
        io.read.snapshot ≠ if c.reusable = true then c.snapshot else 0
    · rw [if_pos hs] at h
      exact (Option.some.inj h).symm
    · rw [if_neg hs] at h
      dsimp only at h
      split_ifs at h
      exact (Option.some.inj h).symm

theorem valid_iff {i : Nat} : c.valid i = true ↔ c.validate (c.ios i) = none := by
  unfold valid
  rw [Option.isNone_iff_eq_none]

theorem missed_iff {i : Nat} :
    c.missed s i = true ↔ c.validate (c.ios i) = none ∧ c.hitOf s i = none := by
  unfold missed
  rw [Bool.and_eq_true, valid_iff, Option.isNone_iff_eq_none]

theorem tried_iff {i : Nat} : c.tried s i = true ↔ c.missed s i = true ∧
    ∀ k < i, c.missed s k = true → c.ios k = c.ios i → c.prepare k ≠ none := by
  unfold tried
  rw [Bool.and_eq_true, List.all_eq_true]
  apply and_congr_right
  intro _
  constructor
  · intro h k hk hm heq hp
    have := h k (List.mem_range.mpr hk)
    simp [hm, heq, hp] at this
  · intro h k hk
    have hno := h k (List.mem_range.mp hk)
    cases hm : c.missed s k with
    | false => rfl
    | true =>
      by_cases heq : c.ios k = c.ios i
      · cases hp : c.prepare k with
        | none => exact absurd hp (hno hm heq)
        | some err => simp
      · simp [heq]

theorem leads_iff {i : Nat} :
    c.leads s i = true ↔ c.tried s i = true ∧ c.prepare i = none := by
  unfold leads
  rw [Bool.and_eq_true, Option.isNone_iff_eq_none]

/-- A miss that could be prepared has a leader at or before it. -/
theorem exists_leader {k : Nat} (hm : c.missed s k = true) (hp : c.prepare k = none) :
    ∃ m ≤ k, c.leads s m = true ∧ c.ios m = c.ios k := by
  induction k using Nat.strong_induction_on with
  | h k ih =>
    by_cases ht : c.tried s k = true
    · exact ⟨k, Nat.le_refl k, leads_iff.mpr ⟨ht, hp⟩, rfl⟩
    · have hno := mt tried_iff.mpr ht
      push Not at hno
      obtain ⟨j, hj, hmj, heq, hpj⟩ := hno hm
      obtain ⟨m, hmle, hlead, heq'⟩ := ih j hj hmj hpj
      exact ⟨m, by omega, hlead, heq'.trans heq⟩

/-- The misses that are not tried are those with a leader before them. -/
theorem tried_iff_leads {i : Nat} : c.tried s i = true ↔ c.missed s i = true ∧
    ∀ m < i, c.leads s m = true → c.ios m ≠ c.ios i := by
  rw [tried_iff]
  apply and_congr_right
  intro _
  constructor
  · intro h m hm hlead heq
    obtain ⟨ht, hp⟩ := leads_iff.mp hlead
    exact h m hm (tried_iff.mp ht).1 heq hp
  · intro h k hk hmk heq hp
    obtain ⟨m, hmle, hlead, heq'⟩ := exists_leader hmk hp
    exact h m (by omega) hlead (heq'.trans heq)

theorem leads_missed {i : Nat} (h : c.leads s i = true) : c.missed s i = true :=
  (tried_iff.mp (leads_iff.mp h).1).1

/-- Leaders ask for different things. -/
theorem leads_inj {i j : Nat} (hi : c.leads s i = true) (hj : c.leads s j = true)
    (heq : c.ios i = c.ios j) : i = j := by
  by_contra hne
  rcases Nat.lt_or_gt_of_ne hne with hlt | hlt
  · exact (tried_iff_leads.mp (leads_iff.mp hj).1).2 i hlt hi heq
  · exact (tried_iff_leads.mp (leads_iff.mp hi).1).2 j hlt hj heq.symm

/-! ## 2. The lookups see the cache only -/

theorem hitEntry_congr {s s' : Storage} (read : ReadIo) (h : s'.cache = s.cache) :
    hitEntry s' read = hitEntry s read := by
  unfold hitEntry
  rw [h]

theorem lookup_cache_congr {s s' : Storage} (read : ReadIo) (h : s'.cache = s.cache) :
    (lookupCachedPage s' read).2.cache = (lookupCachedPage s read).2.cache := by
  cases hhit : hitEntry s read with
  | none =>
    rw [lookupCachedPage_miss hhit, lookupCachedPage_miss ((hitEntry_congr read h).trans hhit)]
    exact h
  | some e =>
    rw [lookupCachedPage_hit hhit, lookupCachedPage_hit ((hitEntry_congr read h).trans hhit)]
    rw [h]

/-! ## 3. One round of the first loop -/

variable (c s)

/-- What the loop has found of the misses after `n` rounds. -/
structure Index (n : Nat) (b : Batch) : Prop where
  cache : b.storage.cache = (c.lookedUp s n).cache
  misses : (List.range b.misses).map b.missIndex = (List.range n).filter (c.leads s)
  chained : Chained (fun j => c.bucket (c.ios (b.missIndex j))) b.duplicateBuckets
    b.duplicateNext b.misses

variable {c s}

theorem Index.mem {n : Nat} {b : Batch} (h : c.Index s n b) {m : Nat} :
    (∃ j < b.misses, b.missIndex j = m) ↔ m < n ∧ c.leads s m = true := by
  have hmem : m ∈ (List.range b.misses).map b.missIndex ↔
      m ∈ (List.range n).filter (c.leads s) := by
    rw [h.misses]
  simpa using hmem

theorem Index.findMaster_some {n : Nat} {b : Batch} (h : c.Index s n b) {m : Nat}
    (hf : c.findMaster b n = some m) : m < n ∧ c.leads s m = true ∧ c.ios m = c.ios n := by
  obtain ⟨j, hj, rfl⟩ := Option.map_eq_some_iff.mp hf
  obtain ⟨hlt, -, heq⟩ := h.chained.find_some hj
  obtain ⟨hm, hlead⟩ := h.mem.mp ⟨j, hlt, rfl⟩
  exact ⟨hm, hlead, (of_decide_eq_true heq).symm⟩

theorem Index.findMaster_none {n : Nat} {b : Batch} (h : c.Index s n b)
    (hf : c.findMaster b n = none) : ∀ m < n, c.leads s m = true → c.ios m ≠ c.ios n := by
  intro m hm hlead heq
  obtain ⟨j, hj, hjm⟩ := h.mem.mpr ⟨hm, hlead⟩
  have hno := h.chained.find_none (Option.map_eq_none_iff.mp hf) hj (by
    show c.bucket (c.ios (b.missIndex j)) = _
    rw [hjm, heq])
  rw [hjm, heq] at hno
  exact absurd hno (by simp)

/-- The five ways of a round. -/
theorem beginOne_cases {n : Nat} {b : Batch} (h : c.Index s n b) :
    (c.valid n = false ∧ c.beginOne b n = fail b n (cachePageError .einval) .einval) ∨
    (∃ e, c.hitOf s n = some e ∧ hitEntry b.storage (c.ios n).lookup.read = some e ∧
      c.beginOne b n = { b with
        storage := (lookupCachedPage b.storage (c.ios n).lookup.read).2
        results := Function.update b.results n (hitResult e) }) ∨
    (c.missed s n = true ∧ c.tried s n = false ∧
      ∃ m < n, c.leads s m = true ∧ c.ios m = c.ios n ∧
        c.beginOne b n = { b with duplicateOf := Function.update b.duplicateOf n (some m) }) ∨
    (c.tried s n = true ∧ ∃ err, c.prepare n = some err ∧
      c.beginOne b n = fail b n (cachePageError err) err) ∨
    (c.leads s n = true ∧ c.beginOne b n = c.addMiss b n) := by
  unfold beginOne
  cases hv : c.validate (c.ios n) with
  | some err =>
    left
    rw [validate_some hv]
    refine ⟨?_, rfl⟩
    unfold valid
    rw [hv]
    rfl
  | none =>
    right
    have hhitOf : c.hitOf s n = hitEntry b.storage (c.ios n).lookup.read := by
      unfold hitOf
      rw [if_pos (valid_iff.mpr hv), hitEntry_congr _ h.cache]
    cases hhit : hitEntry b.storage (c.ios n).lookup.read with
    | some e => exact Or.inl ⟨e, hhitOf.trans hhit, rfl, rfl⟩
    | none =>
      right
      have hmissed : c.missed s n = true := missed_iff.mpr ⟨hv, hhitOf.trans hhit⟩
      dsimp only
      cases hf : c.findMaster b n with
      | some m =>
        obtain ⟨hm, hlead, heq⟩ := h.findMaster_some hf
        refine Or.inl ⟨hmissed, ?_, m, hm, hlead, heq, rfl⟩
        by_contra ht
        exact (tried_iff_leads.mp (by simpa using ht)).2 m hm hlead heq
      | none =>
        right
        have ht : c.tried s n = true := tried_iff_leads.mpr ⟨hmissed, h.findMaster_none hf⟩
        dsimp only
        cases hp : c.prepare n with
        | some err => exact Or.inl ⟨ht, err, rfl, rfl⟩
        | none => exact Or.inr ⟨leads_iff.mpr ⟨ht, hp⟩, rfl⟩

end Mdbx.PageCache.Call
