import Mdbx.PageCache.Held

/-!
# PageCache.Materialize — a large page in place of its first page

The first page of a large page is read alone; when its reader needs the rest, the whole span is read
into a buffer of its own.  The buffer goes into the entry of the first page, or into a new entry
when others hold the first page.
-/

namespace Mdbx.PageCache

/-! ## 1. Checks of a request -/

def maxPageno : Nat := 0x7fffffff

/-- `dxb_storage_page_io` with `pagesize_ln`. -/
def pageIo (pagesizeLn pgno npages : Nat) : Option PageIo :=
  if pgno > maxPageno + 1 ∨ npages > maxPageno + 1 - pgno ∨ npages > (2 ^ 64 - 1) >>> pagesizeLn then
    none
  else some ⟨pgno, pgno + npages, npages, npages <<< pagesizeLn⟩

/-- `dxb_storage_page_io_validate` -/
def pageIoValid (pagesizeLn : Nat) (io : PageIo) : Bool :=
  pageIo pagesizeLn io.pgno io.npages = some io

/-- `dxb_storage_cache_read_io_validate` -/
def readIoValid (pagesizeLn : Nat) (read : ReadIo) : Bool :=
  read.pages.npages = 1 ∧ (read.reusable ∨ read.snapshot = 0) ∧ pageIoValid pagesizeLn read.pages

/-- `dxb_storage_cache_materialize_io_validate` -/
def materializeIoValid (pagesizeLn : Nat) (io : PageIo) : Bool :=
  io.npages > 1 ∧ pageIoValid pagesizeLn io

/-! ## 2. The function -/

/-- `dxb_read_result_t` with what the storage has put into the buffer. -/
structure ReadResult where
  err : Rc
  submitted : Bool
  completed : Bool
  payload : List UInt8
  deriving DecidableEq, Repr

/-- `dxb_storage_make_cached_pgr` -/
def makeCachedPgr (e : Entry) : PageRef := ⟨e.addr, e.page, e.io.pgno, e.io.npages⟩

@[simp] theorem makeCachedPgr_cache (e : Entry) : (makeCachedPgr e).cache = e.addr := rfl

/-- The checks of `read_result`. -/
def readFailure (io : PageIo) (read : ReadResult) : Option Rc :=
  if read.err ≠ .success then some read.err
  else if !read.submitted ∨ !read.completed ∨ read.payload.length ≠ io.bytes then some .eio
  else none

/-- `dxb_storage_complete_materialize_cached_large_page`: the result, the storage and the reference
as the call leaves it; `s.nextPage` is the buffer `large` and `alloc` the luck of `osal_calloc`. -/
def completeMaterialize (pagesizeLn : Nat) (s : Storage) (ref : PageRef) (io : PageIo)
    (read : ReadResult) (alloc : Bool) : Rc × Storage × PageRef :=
  if !materializeIoValid pagesizeLn io then (.einval, s, ref)
  else
    match readFailure io read with
    | some err => (err, s, ref)
    | none =>
      match findEntry ref.cache s.cache.entries with
      | some e =>
        if e.pins > 1 then
          let detached := detachMaterialized s ref io alloc
          if detached.1 = .success then
            (.success, detached.2, ⟨s.nextAddr, s.nextPage, ref.pgno, io.npages⟩)
          else (detached.1, s, ref)
        else
          let replaced := replaceMaterialized s ref io
          if replaced.1 = .success then
            (.success, replaced.2, { ref with page := s.nextPage, npages := io.npages })
          else (replaced.1, s, ref)
      | none =>
        let replaced := replaceMaterialized s ref io
        if replaced.1 = .success then
          (.success, replaced.2, { ref with page := s.nextPage, npages := io.npages })
        else (replaced.1, s, ref)

/-! ## 3. Its three outcomes -/

theorem completeMaterialize_refused {ln : Nat} {s : Storage} {ref : PageRef} {io : PageIo}
    {read : ReadResult} (alloc : Bool)
    (h : materializeIoValid ln io = false ∨ readFailure io read ≠ none) :
    (completeMaterialize ln s ref io read alloc).1 ≠ .success ∧
      (completeMaterialize ln s ref io read alloc).2 = (s, ref) := by
  unfold completeMaterialize
  by_cases hv : materializeIoValid ln io = true
  · simp only [hv, Bool.not_true, Bool.false_eq_true, if_false]
    cases hr : readFailure io read with
    | none => exact absurd h (by simp [hv, hr])
    | some err =>
      refine ⟨?_, rfl⟩
      unfold readFailure at hr
      dsimp only
      split_ifs at hr with he hs
      · rw [← Option.some.inj hr]
        exact he
      · rw [← Option.some.inj hr]
        simp
  · simp [hv]

/-- Untracked, or tracked with one pin: the buffer goes into the entry. -/
theorem completeMaterialize_replace {ln : Nat} {s : Storage} {ref : PageRef} {io : PageIo}
    {read : ReadResult} {h : Held} (alloc : Bool) (hs : Exact s)
    (hv : materializeIoValid ln io = true) (hr : readFailure io read = none)
    (hh : held s ref.cache = some h) (hpage : h.page = ref.page)
    (hone : h.tracked = true → h.pins = 1) :
    completeMaterialize ln s ref io read alloc = (.success, (replaceMaterialized s ref io).2,
      { ref with page := s.nextPage, npages := io.npages }) := by
  have hio : 1 < io.npages := by
    simp only [materializeIoValid, decide_eq_true_eq] at hv
    exact hv.1
  have hok := (replaceMaterialized_held hs hh hpage hio hone).1
  unfold completeMaterialize
  simp only [hv, Bool.not_true, Bool.false_eq_true, if_false, hr, hok, if_true]
  cases hf : findEntry ref.cache s.cache.entries with
  | none => rfl
  | some e =>
    have hp : ¬ e.pins > 1 := by
      cases ht : h.tracked with
      | true =>
        obtain ⟨e', hf', hep, -⟩ := (held_tracked hh).1 ht
        rw [hf] at hf'
        obtain rfl := Option.some.inj hf'
        have := hone ht
        omega
      | false =>
        have hno := ((held_tracked hh).2 ht).1
        rw [hf] at hno
        exact absurd hno (by simp)
    exact if_neg hp

/-- Tracked with more than one pin: the buffer goes into an entry of its own. -/
theorem completeMaterialize_detach {ln : Nat} {s : Storage} {ref : PageRef} {io : PageIo}
    {read : ReadResult} {h : Held} (alloc : Bool) (hs : Exact s)
    (hv : materializeIoValid ln io = true) (hr : readFailure io read = none)
    (hh : held s ref.cache = some h) (hpage : h.page = ref.page) (ht : h.tracked = true)
    (hpins : 1 < h.pins) :
    completeMaterialize ln s ref io read alloc =
      if alloc then (.success, (detachMaterialized s ref io true).2,
        ⟨s.nextAddr, s.nextPage, ref.pgno, io.npages⟩)
      else (.enomem, s, ref) := by
  have hio : 1 < io.npages := by
    simp only [materializeIoValid, decide_eq_true_eq] at hv
    exact hv.1
  obtain ⟨e, hf, hep, hepage, -⟩ := (held_tracked hh).1 ht
  unfold completeMaterialize
  simp only [hv, Bool.not_true, Bool.false_eq_true, if_false, hr, hf]
  rw [if_pos (by omega)]
  cases alloc with
  | true =>
    have hok := (detachMaterialized_held hs hh hpage ht hio).1
    simp only [hok, if_true]
  | false =>
    have hno : detachMaterialized s ref io false = (.enomem, s) := by
      unfold detachMaterialized
      rw [hf]
      dsimp only
      rw [if_neg (by rw [hepage, hpage]; simp; omega), if_pos (by simp)]
    rw [hno]
    simp

/-- A reference whose buffer is gone is refused. -/
theorem completeMaterialize_dead {ln : Nat} {s : Storage} {ref : PageRef} {io : PageIo}
    {read : ReadResult} (alloc : Bool)
    (hdead : ∀ h, held s ref.cache = some h → h.page ≠ ref.page) :
    (completeMaterialize ln s ref io read alloc).1 ≠ .success ∧
      (completeMaterialize ln s ref io read alloc).2 = (s, ref) := by
  by_cases hgo : materializeIoValid ln io = false ∨ readFailure io read ≠ none
  · exact completeMaterialize_refused alloc hgo
  · push Not at hgo
    have hv : materializeIoValid ln io = true := by simpa using hgo.1
    have hio : ¬ io.npages ≤ 1 := by
      simp only [materializeIoValid, decide_eq_true_eq] at hv
      omega
    have hreplace : replaceMaterialized s ref io = (.einval, s) := by
      unfold replaceMaterialized
      rw [if_neg hio]
      cases hf : findEntry ref.cache s.cache.entries with
      | some e =>
        refine if_pos ?_
        by_contra hno
        push Not at hno
        exact hdead _ ((held_entry hf).trans (heldEntry_pinned (by omega))) hno.1
      | none =>
        cases hp : findEntry ref.cache s.privates with
        | some e =>
          refine if_pos ?_
          by_contra hno
          push Not at hno
          exact hdead _ ((held_private hf hp).trans (heldEntry_pinned hno.2)) hno.1
        | none => rfl
    unfold completeMaterialize
    simp only [hv, Bool.not_true, Bool.false_eq_true, if_false, hgo.2, hreplace]
    cases hf : findEntry ref.cache s.cache.entries with
    | none => exact ⟨by simp, rfl⟩
    | some e =>
      dsimp only
      by_cases hp : e.pins > 1
      · have hpage : e.page ≠ ref.page :=
          hdead _ ((held_entry hf).trans (heldEntry_pinned (by omega)))
        have hdetach : detachMaterialized s ref io alloc = (.einval, s) := by
          unfold detachMaterialized
          rw [hf]
          exact if_pos (Or.inr hpage)
        rw [if_pos hp, hdetach]
        exact ⟨by simp, rfl⟩
      · rw [if_neg hp]
        exact ⟨by simp, rfl⟩

/-- What one materialization does: nothing, or the new buffer comes into the entry, or into a new
entry of which the reader has the only pin. -/
theorem completeMaterialize_cases (ln : Nat) {s : Storage} (ref : PageRef) (io : PageIo)
    (read : ReadResult) (alloc : Bool) (hs : Exact s) :
    ((completeMaterialize ln s ref io read alloc).1 ≠ .success ∧
      (completeMaterialize ln s ref io read alloc).2 = (s, ref)) ∨
    (∃ h, held s ref.cache = some h ∧ h.page = ref.page ∧ (h.tracked = true → h.pins = 1) ∧
      materializeIoValid ln io = true ∧ readFailure io read = none ∧
      held (replaceMaterialized s ref io).2 =
        Function.update (held s) ref.cache (some { h with page := s.nextPage, io := io }) ∧
      completeMaterialize ln s ref io read alloc = (.success, (replaceMaterialized s ref io).2,
        { ref with page := s.nextPage, npages := io.npages })) ∨
    (∃ h, held s ref.cache = some h ∧ h.page = ref.page ∧ h.tracked = true ∧ 1 < h.pins ∧
      ref.cache ≠ s.nextAddr ∧
      (∃ v, (v = h.unpin ∨ v = some h) ∧ held (detachMaterialized s ref io true).2 =
        Function.update (Function.update (held s) s.nextAddr (some ⟨1, s.nextPage, io, false⟩))
          ref.cache v) ∧
      completeMaterialize ln s ref io read alloc = (.success, (detachMaterialized s ref io true).2,
        ⟨s.nextAddr, s.nextPage, ref.pgno, io.npages⟩)) := by
  by_cases hlive : ∃ h, held s ref.cache = some h ∧ h.page = ref.page
  · obtain ⟨h, hh, hpage⟩ := hlive
    by_cases hgo : materializeIoValid ln io = false ∨ readFailure io read ≠ none
    · exact Or.inl (completeMaterialize_refused alloc hgo)
    · push Not at hgo
      have hv : materializeIoValid ln io = true := by simpa using hgo.1
      have hio : 1 < io.npages := by
        simp only [materializeIoValid, decide_eq_true_eq] at hv
        exact hv.1
      have hpins := held_pins hh
      by_cases hone : h.tracked = true → h.pins = 1
      · have hview := (replaceMaterialized_held hs hh hpage hio hone).2
        exact Or.inr <| Or.inl ⟨h, hh, hpage, hone, hv, hgo.2, hview,
          completeMaterialize_replace alloc hs hv hgo.2 hh hpage hone⟩
      · push Not at hone
        obtain ⟨ht, hne⟩ := hone
        have hmany : 1 < h.pins := by omega
        have heq := completeMaterialize_detach alloc hs hv hgo.2 hh hpage ht hmany
        cases alloc with
        | false =>
          left
          rw [heq]
          exact ⟨by simp, rfl⟩
        | true =>
          obtain ⟨-, hnext, hview⟩ := detachMaterialized_held hs hh hpage ht hio
          exact Or.inr <| Or.inr ⟨h, hh, hpage, ht, hmany, hnext, hview, heq⟩
  · push Not at hlive
    exact Or.inl (completeMaterialize_dead alloc hlive)

end Mdbx.PageCache
