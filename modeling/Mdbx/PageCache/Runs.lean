import Mdbx.PageCache.Invalidation

/-!
# PageCache.Runs — every interleaving of critical sections keeps the counters exact

One lemma for each operation of the cache, then a run is a sequence of them in any order.
-/

namespace Mdbx.PageCache

variable {s : Storage}

/-! ## 1. Operations -/

theorem lookupCachedPage_exact (read : ReadIo) (h : Exact s) :
    Exact (lookupCachedPage s read).2 :=
  (lookupCachedPage_passes read h.toCore).exact h.kept fun _ hno => absurd hno id

theorem retainCachedRef_exact (ref : PageRef) (h : Exact s) : Exact (retainCachedRef s ref).2 :=
  (retainCachedRef_passes ref h.toCore).exact h.kept fun _ hno => absurd hno id

theorem releaseCachedRef_exact (ref : PageRef) (h : Exact s) : Exact (releaseCachedRef s ref).2 :=
  (releaseCachedRef_passes ref h.toCore).exact h.kept fun _ hno => absurd hno id

theorem prepareReadCachedPage_exact (read : ReadIo) (alloc large : Bool) (h : Exact s) :
    Exact (prepareReadCachedPage s read alloc large).2 :=
  (prepareReadCachedPage_passes read alloc large h.toCore).exact h.kept fun _ hno => absurd hno id

theorem filledBy_pins {addr : Nat} {readOk : Bool} {e : Entry} (h : filledBy s addr readOk e) :
    e.pins ≠ 0 := by
  rw [h.2.1]
  exact Nat.one_ne_zero

theorem completeFill_exact (addr : Nat) (readOk : Bool) (h : Exact s) :
    Exact (completeFill s addr readOk).2 :=
  (completeFill_passes addr readOk h.toCore).exact h.kept fun _ hnew => filledBy_pins hnew

theorem invalidateCachedIo_exact (pages : PageIo) (incl : Bool) (h : Exact s) :
    Exact (invalidateCachedIo s pages incl).1 :=
  (invalidateCachedIo_passes pages incl h.toCore).exact h.kept fun _ hno => absurd hno id

theorem replaceMaterialized_exact (ref : PageRef) (io : PageIo) (h : Exact s) :
    Exact (replaceMaterialized s ref io).2 :=
  (replaceMaterialized_passes ref io h.toCore).exact h.kept fun _ hno => absurd hno id

theorem detachMaterialized_exact (ref : PageRef) (io : PageIo) (alloc : Bool) (h : Exact s) :
    Exact (detachMaterialized s ref io alloc).2 :=
  (detachMaterialized_passes ref io alloc h.toCore).exact h.kept fun _ hno => absurd hno id

theorem Exact.addPrivate {e : Entry} (h : Exact s) (he : e.addr = s.nextAddr) :
    Exact { s with
      privates := e :: s.privates, nextAddr := s.nextAddr + 1, nextPage := s.nextPage + 1 } :=
  ⟨h.toCore.addPrivate he, h.kept⟩

/-! ## 2. Runs -/

theorem step_exact (op : Op) (h : Exact s) : Exact (step s op) := by
  refine (step_passes op h.toCore).exact h.kept fun e hnew => ?_
  cases op with
  | complete addr readOk => exact filledBy_pins hnew
  | _ => exact absurd hnew id

theorem pruneLocked_exact (h : Exact s) : Exact (pruneLocked s) := step_exact .prune h

theorem init_exact (limit : Nat) : Exact (init limit) where
  counted := ⟨rfl, rfl, rfl, rfl, rfl⟩
  nodup := List.nodup_nil
  fresh := fun _ ha => absurd ha List.not_mem_nil
  freed := fun _ hx => absurd hx List.not_mem_nil
  kept := fun _ he => absurd he List.not_mem_nil

theorem run_exact (ops : List Op) (h : Exact s) : Exact (run s ops) := by
  induction ops generalizing s with
  | nil => exact h
  | cons op ops ih => exact ih (step_exact op h)

/-- In every state that any interleaving of the operations reaches the five counters are exact and
no unpinned entry stays that has lost its reusability.  A pinned entry is freed by
`page_cache_release_all` only, or with a failed fill, and a fill is never in the list. -/
theorem run_counters_exact (limit : Nat) (ops : List Op) :
    Counted (run (init limit) ops).cache ∧ Kept (run (init limit) ops).cache.entries ∧
      (∀ x ∈ (run (init limit) ops).freed, 0 < x.2.pins →
        x.1 = .releaseAll ∨ x.1 = .fillDiscard) ∧
      ∀ f ∈ (run (init limit) ops).fills,
        f.entry.addr ∉ addrs (run (init limit) ops).cache.entries := by
  have h := run_exact ops (init_exact limit)
  refine ⟨h.counted, h.kept, ?_, ?_⟩
  · intro x hx hpins
    cases hby : x.1 with
    | release =>
      have hzero := h.freed x hx hby
      omega
    | releaseAll => exact Or.inl rfl
    | fillDiscard => exact Or.inr rfl
  · intro f hf hmem
    have hdisj := (List.nodup_append.mp h.nodup).2.2
    have hin : f.entry.addr ∈ (run (init limit) ops).fills.map fun f => f.entry.addr :=
      List.mem_map.mpr ⟨f, hf, rfl⟩
    exact hdisj _ hmem _ (List.mem_append_left _ hin) rfl

-- A reader fills page 5 and keeps its reference, and the storage is closed.
theorem releaseAll_frees_pinned :
    ¬ ∀ (limit : Nat) (ops : List Op),
      Counted (run (init limit) ops).cache ∧ Kept (run (init limit) ops).cache.entries ∧
        ∀ x ∈ (run (init limit) ops).freed, x.2.pins = 0 := by
  intro hall
  have hfreed := (hall 0 [.prepare ⟨⟨5, 6, 1, 4096⟩, 1, true, true⟩ true false, .complete 0 true,
    .releaseAll]).2.2
  exact absurd hfreed (by decide)

end Mdbx.PageCache
