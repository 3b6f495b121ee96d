import Mdbx.PageCache.Begun

/-!
# PageCache.Granted — each successful result has one pin

The invariant of all three loops: the pins of every entry are those from before the call and one for
each successful result that refers to it.  A round either writes a result with a new pin or one
without a reference.
-/

namespace Mdbx.PageCache

def PageResult.grants (r : PageResult) (a : Nat) : Bool :=
  r.err.isNone && r.ref.any fun q => q.cache == a

/-- How many of the first `n` results refer to an entry. -/
def resultsTo (results : Nat → PageResult) (n a : Nat) : Nat :=
  (List.range n).countP fun i => (results i).grants a

theorem countP_range_update {p q : Nat → Bool} {n i : Nat} (hi : i < n) (hp : p i = false)
    (hne : ∀ k, k ≠ i → q k = p k) :
    (List.range n).countP q = (List.range n).countP p + if q i = true then 1 else 0 := by
  induction n with
  | zero => omega
  | succ n ih =>
    rw [List.range_succ, List.countP_append, List.countP_append, List.countP_singleton,
      List.countP_singleton]
    by_cases hin : i = n
    · have hsame : (List.range n).countP q = (List.range n).countP p := by
        apply List.countP_congr
        intro k hk
        have := List.mem_range.mp hk
        rw [hne k (by omega)]
      rw [hsame, ← hin, hp]
      simp
    · rw [ih (by omega), hne n fun h => hin h.symm]
      omega

theorem resultsTo_update {results : Nat → PageResult} {n i : Nat} (r : PageResult) (hi : i < n)
    (hblank : (results i).err ≠ none) (a : Nat) :
    resultsTo (Function.update results i r) n a =
      resultsTo results n a + if r.grants a = true then 1 else 0 := by
  unfold resultsTo
  have hno : (results i).grants a = false := by
    unfold PageResult.grants
    cases he : (results i).err with
    | none => exact absurd he hblank
    | some err => rfl
  rw [countP_range_update (p := fun k => (results k).grants a) hi hno]
  · rw [Function.update_self]
  · intro k hk
    rw [Function.update_of_ne hk]

theorem resultsTo_none {results : Nat → PageResult} {n : Nat}
    (h : ∀ i < n, (results i).err ≠ none) (a : Nat) : resultsTo results n a = 0 := by
  unfold resultsTo
  apply List.countP_eq_zero.mpr
  intro i hi
  unfold PageResult.grants
  cases he : (results i).err with
  | none => exact absurd he (h i (List.mem_range.mp hi))
  | some err => simp

/-- Pins only go up, and buffers stay. -/
def Grows (v v' : Nat → Option Held) : Prop :=
  ∀ a h, v a = some h → ∃ h', v' a = some h' ∧ h'.page = h.page ∧ h'.io = h.io

theorem Grows.refl (v : Nat → Option Held) : Grows v v := fun _ h hh => ⟨h, hh, rfl, rfl⟩

/-- A reference as `dxb_storage_make_cached_pgr` makes it now. -/
def Current (s : Storage) (ref : PageRef) : Prop :=
  ∃ h, held s ref.cache = some h ∧ ref.page = h.page ∧ ref.pgno = h.io.pgno ∧
    ref.npages = h.io.npages ∧ h.io.npages ≠ 0

theorem Current.refLive {s : Storage} {ref : PageRef} (h : Current s ref) : RefLive s ref := by
  obtain ⟨x, hx, hpage, hpgno, hn, hne⟩ := h
  exact ⟨x, hx, hpage.symm, hpgno.symm, by rw [hn]; exact hne⟩

theorem Current.grows {s s' : Storage} {ref : PageRef} (h : Current s ref)
    (hg : Grows (held s) (held s')) : Current s' ref := by
  obtain ⟨x, hx, hpage, hpgno, hn, hne⟩ := h
  obtain ⟨y, hy, hpage', hio'⟩ := hg _ x hx
  refine ⟨y, hy, hpage.trans hpage'.symm, ?_, ?_, ?_⟩
  · rw [hio', hpgno]
  · rw [hio', hn]
  · rw [hio']
    exact hne

structure Pinned (s : Storage) (n : Nat) (b : Batch) : Prop where
  pins : ∀ a, pinsOf b.storage a = pinsOf s a + resultsTo b.results n a
  live : ∀ i < n, (b.results i).err = none →
    ∃ ref, (b.results i).ref = some ref ∧ Current b.storage ref

/-- A new pin for a new result. -/
theorem Pinned.grant {s t : Storage} {n i : Nat} {b b' : Batch} {r : PageResult} (ref : PageRef)
    {x : Held} (h : Pinned s n b) (hi : i < n) (hblank : (b.results i).err ≠ none)
    (hr : r.err = none) (href : r.ref = some ref) (hstorage : b'.storage = t)
    (hresults : b'.results = Function.update b.results i r)
    (hview : held t = Function.update (held b.storage) ref.cache (some x))
    (hpins : x.pins = pinsOf b.storage ref.cache + 1)
    (hold : ∀ y, held b.storage ref.cache = some y → x.page = y.page ∧ x.io = y.io)
    (hlive : ref.page = x.page ∧ ref.pgno = x.io.pgno ∧ ref.npages = x.io.npages ∧
      x.io.npages ≠ 0) : Pinned s n b' where
  pins := by
    intro a
    rw [hstorage, hresults, resultsTo_update r hi hblank, pinsOf_update hview, h.pins a]
    have hg : r.grants a = decide (ref.cache = a) := by
      unfold PageResult.grants
      rw [hr, href]
      rfl
    rw [hg]
    by_cases ha : a = ref.cache
    · subst ha
      rw [if_pos rfl, if_pos (by simp)]
      show x.pins = _
      rw [hpins, h.pins ref.cache]
      omega
    · rw [if_neg ha, if_neg (by simpa using fun h : ref.cache = a => ha h.symm)]
      rfl
  live := by
    have hgrows : Grows (held b.storage) (held t) := by
      intro a y hy
      rw [hview]
      by_cases ha : a = ref.cache
      · subst ha
        rw [Function.update_self]
        exact ⟨x, rfl, (hold y hy).1, (hold y hy).2⟩
      · rw [Function.update_of_ne ha]
        exact ⟨y, hy, rfl, rfl⟩
    intro k hk
    rw [hstorage, hresults]
    by_cases hki : k = i
    · rw [hki, Function.update_self]
      intro _
      refine ⟨ref, href, x, ?_, hlive⟩
      rw [hview, Function.update_self]
    · rw [Function.update_of_ne hki]
      intro herr
      obtain ⟨q, hq, hql⟩ := h.live k hk herr
      exact ⟨q, hq, hql.grows hgrows⟩

/-- No pin for a result that is an error. -/
theorem Pinned.refuse {s : Storage} {n i : Nat} {b b' : Batch} {r : PageResult}
    (h : Pinned s n b) (hi : i < n) (hblank : (b.results i).err ≠ none) (hr : r.err ≠ none)
    (hheld : held b'.storage = held b.storage)
    (hresults : b'.results = Function.update b.results i r) : Pinned s n b' where
  pins := by
    intro a
    have hg : r.grants a = false := by
      unfold PageResult.grants
      cases he : r.err with
      | none => exact absurd he hr
      | some err => rfl
    rw [pinsOf_congr hheld, hresults, resultsTo_update r hi hblank, h.pins a, hg]
    rfl
  live := by
    intro k hk
    rw [hresults]
    by_cases hki : k = i
    · rw [hki, Function.update_self]
      exact fun herr => absurd herr hr
    · rw [Function.update_of_ne hki]
      intro herr
      obtain ⟨q, hq, hql⟩ := h.live k hk herr
      exact ⟨q, hq, hql.grows (by rw [hheld]; exact Grows.refl _)⟩

-- nothing that counts has changed
theorem Pinned.keep {s : Storage} {n : Nat} {b b' : Batch} (h : Pinned s n b)
    (hheld : held b'.storage = held b.storage) (hresults : b'.results = b.results) :
    Pinned s n b' where
  pins := by
    intro a
    rw [pinsOf_congr hheld, hresults, h.pins a]
  live := by
    intro k hk
    rw [hresults]
    intro herr
    obtain ⟨q, hq, hql⟩ := h.live k hk herr
    exact ⟨q, hq, hql.grows (by rw [hheld]; exact Grows.refl _)⟩

namespace Call

variable {c : Call} {s : Storage} {bytes : Nat → List UInt8}

/-! ## 1. The first loop -/

theorem hit_npages {b : Batch} {read : ReadIo} {e : Entry} (h : c.Stocked s bytes b)
    (hhit : hitEntry b.storage read = some e) : e.io.npages ≠ 0 :=
  (h.fresh.entries e (hitEntry_mem hhit).1).2

theorem beginOne_pinned {n : Nat} {b : Batch} (hn : n < c.count) (hx : c.Index s n b)
    (hw : c.Settled s n b) (hk : c.Stocked s bytes b) (h : Pinned s c.count b) :
    Pinned s c.count (c.beginOne b n) := by
  have hblank : (b.results n).err ≠ none := by
    rw [hw.results, if_neg (Nat.lt_irrefl n)]
    simp [cachePageError]
  rcases beginOne_cases hx with ⟨hv, heq⟩ | ⟨e, hhit, hhit', heq⟩ | ⟨hm, ht, m, -, -, -, heq⟩ |
    ⟨ht, err, hp, heq⟩ | ⟨hlead, heq⟩
  · rw [heq]
    exact h.refuse hn hblank (by simp [cachePageError]) rfl rfl
  · rw [heq]
    have hmem := (hitEntry_mem hhit').1
    refine h.grant (makeCachedPgr e) (x := ⟨e.pins + 1, e.page, e.io, true⟩) hn hblank
      (by rfl) (by rfl) rfl rfl (lookupCachedPage_held hk.exact.toCore hhit') ?_ ?_
      ⟨rfl, rfl, rfl, hit_npages hk hhit'⟩
    · rw [makeCachedPgr_cache, hk.exact.pinsOf_mem hmem]
    · intro y hy
      rw [makeCachedPgr_cache, hk.exact.held_mem hmem] at hy
      simp only [heldEntry, Option.ite_none_left_eq_some, Option.some.injEq] at hy
      obtain ⟨-, rfl⟩ := hy
      exact ⟨rfl, rfl⟩
  · rw [heq]
    exact h.keep rfl rfl
  · rw [heq]
    exact h.refuse hn hblank (by simp [cachePageError]) rfl rfl
  · rw [heq]
    exact h.keep (prepareReadCachedPage_held _ _ _ _) rfl

theorem start_pinned (n : Nat) : Pinned s n (start s bytes) where
  pins := by
    intro a
    show pinsOf s a = _
    rw [resultsTo_none (by intro i _; simp [start, cachePageError])]
    rfl
  live := fun _ _ h => absurd h (by simp [start, cachePageError])

theorem beginLoop_pinned (he : Exact s) (hf : Fresh s) {n : Nat} (hn : n ≤ c.count) :
    Pinned s c.count (c.beginLoop s bytes n) := by
  induction n with
  | zero => exact start_pinned c.count
  | succ n ih =>
    exact beginOne_pinned (by omega) (beginLoop_index n) (beginLoop_settled n)
      (beginLoop_stocked he hf n) (ih (by omega))

end Call

end Mdbx.PageCache
