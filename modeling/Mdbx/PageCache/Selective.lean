import Mdbx.PageCache.Materialize

/-!
# PageCache.Selective — an invalidation takes what overlaps the range and nothing else

With reusable entries no lookup returns a page of the range until the page is filled again; without
them only entries that no lookup could return are dropped.  An entry that is pinned stays for those
who hold it, and the last of them frees it.
-/

namespace Mdbx.PageCache

variable {s t : Storage} {pages : PageIo} {incl : Bool}

/-! ## 1. The request -/

/-- `dxb_storage_submit_invalidate_cached_io`, with its checks and the number of entries. -/
def submitInvalidateCachedIo (pagesizeLn : Nat) (s : Storage) (pages : PageIo)
    (includeReusable : Bool) : Rc × Storage × Nat :=
  if !pageIoValid pagesizeLn pages then (.einval, s, 0)
  else
    let result := invalidateCachedIo s pages includeReusable
    (.success, result.1, result.2)

/-- Two ranges share a page. -/
def Overlaps (io pages : PageIo) : Prop :=
  max io.pgno pages.pgno < min io.endPgno pages.endPgno

instance (io pages : PageIo) : Decidable (Overlaps io pages) :=
  inferInstanceAs (Decidable (max io.pgno pages.pgno < min io.endPgno pages.endPgno))

/-- The entries that an invalidation is meant for. -/
def affected (pages : PageIo) (incl : Bool) (e : Entry) : Bool :=
  decide (Overlaps e.io pages) && (incl || !e.reusable)

/-- An entry is of at least one page. -/
def Spans (es : List Entry) : Prop := ∀ e ∈ es, e.io.pgno < e.io.endPgno

theorem pageIoValid_end {ln : Nat} {io : PageIo} (h : pageIoValid ln io = true) :
    io.endPgno = io.pgno + io.npages := by
  unfold pageIoValid pageIo at h
  rw [decide_eq_true_eq] at h
  split_ifs at h with hbad
  exact (congrArg PageIo.endPgno (Option.some.inj h)).symm

theorem invalidates_eq {ln : Nat} {e : Entry} (hv : pageIoValid ln pages = true)
    (he : e.io.pgno < e.io.endPgno) : invalidates pages incl e = affected pages incl e := by
  have hend := pageIoValid_end hv
  unfold invalidates tested affected
  rw [← Bool.and_assoc]
  congr 1
  by_cases hzero : pages.npages = 0
  · have hno : ¬ Overlaps e.io pages := by
      unfold Overlaps
      omega
    rw [hzero, decide_eq_false hno]
    rfl
  · have hiff : (e.io.pgno < pages.endPgno ∧ pages.pgno < e.io.endPgno) ↔
        Overlaps e.io pages := by
      unfold Overlaps
      omega
    rw [bne_iff_ne.mpr hzero, Bool.true_and, decide_eq_decide]
    exact hiff

theorem Decided.congr {hit hit' : Entry → Bool} {done es ahead : List Entry}
    (h : Decided hit done es ahead s t) (heq : ∀ e ∈ es, hit e = hit' e) :
    Decided hit' done es ahead s t := by
  refine ⟨h.core, ?_, ?_, h.privates, h.fills⟩
  · rw [h.entries]
    congr 2
    refine List.filterMap_congr fun e he => ?_
    unfold fate
    rw [heq e he]
  · rw [h.freed]
    unfold dropped
    rw [List.filter_congr fun e he => by rw [heq e he]]

/-- What is decided for each entry, and how many entries it is meant for. -/
theorem submitInvalidateCachedIo_spec {ln : Nat} (incl : Bool) (h : Core s)
    (hspans : Spans s.cache.entries) (hv : pageIoValid ln pages = true) :
    ∃ t, submitInvalidateCachedIo ln s pages incl =
        (.success, t, (s.cache.entries.filter (affected pages incl)).length) ∧
      Decided (affected pages incl) [] s.cache.entries [] s t := by
  obtain ⟨hdecided, hcount⟩ := invalidateCachedIo_spec pages incl h
  have heq : ∀ e ∈ s.cache.entries, invalidates pages incl e = affected pages incl e :=
    fun e he => invalidates_eq hv (hspans e he)
  refine ⟨_, ?_, hdecided.congr heq⟩
  unfold submitInvalidateCachedIo
  rw [hv, Bool.not_true, if_neg Bool.false_ne_true, ← List.filter_congr heq, ← hcount]

-- the entries outside of the range, as they stand in the list
theorem filter_outside (es : List Entry) :
    (es.filterMap (fate (affected pages incl))).filter (fun e => !decide (Overlaps e.io pages)) =
      es.filter fun e => !decide (Overlaps e.io pages) := by
  induction es with
  | nil => rfl
  | cons e es ih =>
    rw [List.filterMap_cons, List.filter_cons]
    by_cases hover : Overlaps e.io pages
    · rw [decide_eq_true hover, Bool.not_true, if_neg Bool.false_ne_true]
      cases hfate : fate (affected pages incl) e with
      | none => exact ih
      | some e' =>
        have hio : e'.io = e.io := by
          unfold fate at hfate
          split_ifs at hfate <;> rw [← Option.some.inj hfate]
        show List.filter _ (e' :: es.filterMap (fate (affected pages incl))) = _
        rw [List.filter_cons, hio, decide_eq_true hover, Bool.not_true,
          if_neg Bool.false_ne_true, ih]
    · have hfate : fate (affected pages incl) e = some e := by
        refine fate_of_not_hit ?_
        unfold affected
        rw [decide_eq_false hover, Bool.false_and]
      rw [hfate, decide_eq_false hover, Bool.not_false, if_pos rfl]
      show List.filter _ (e :: es.filterMap (fate (affected pages incl))) = _
      rw [List.filter_cons, decide_eq_false hover, Bool.not_false, if_pos rfl, ih]

/-! ## 2. No lookup until a fill -/

/-- No lookup can return a page of the range. -/
def Shut (pages : PageIo) (s : Storage) : Prop :=
  ∀ e ∈ s.cache.entries, Overlaps e.io pages → e.reusable = false

/-- A critical section brings a page of the range into the cache. -/
def Op.fills (pages : PageIo) (s : Storage) (op : Op) : Prop :=
  (∃ e, op.filled s e ∧ Overlaps e.io pages) ∨ ∃ io, op.grown io ∧ Overlaps io pages

def Unfilled (pages : PageIo) : Storage → List Op → Prop
  | _, [] => True
  | s, op :: ops => ¬ op.fills pages s ∧ Unfilled pages (step s op) ops

theorem Decided.shut (h : Decided (affected pages true) [] s.cache.entries [] s t) :
    Shut pages t := by
  intro e' he' hover
  rw [h.entries, List.nil_append, List.append_nil] at he'
  obtain ⟨e, he, hfate⟩ := List.mem_filterMap.mp he'
  unfold fate at hfate
  split_ifs at hfate with hhit hp
  · rw [← Option.some.inj hfate]
  · rw [← Option.some.inj hfate] at hover
    refine absurd ?_ hhit
    unfold affected
    rw [decide_eq_true hover]
    rfl

theorem step_shut {op : Op} (h : Core s) (hshut : Shut pages s) (hop : ¬ op.fills pages s) :
    Shut pages (step s op) := by
  intro e' he' hover
  rcases (step_passes op h).origin e' he' with ⟨e, he, horigin, hio | hgrown⟩ | hnew
  · rw [hio] at hover
    by_contra hre
    rw [Bool.not_eq_false] at hre
    exact Bool.false_ne_true ((hshut e he hover).symm.trans (horigin.reusable hre))
  · exact absurd (Or.inr ⟨e'.io, hgrown, hover⟩) hop
  · exact absurd (Or.inl ⟨e', hnew, hover⟩) hop

theorem run_shut (ops : List Op) (h : Core s) (hshut : Shut pages s)
    (hops : Unfilled pages s ops) : Shut pages (run s ops) := by
  induction ops generalizing s with
  | nil => exact hshut
  | cons op ops ih => exact ih (step_passes op h).core (step_shut h hshut hops.1) hops.2

theorem hitEntry_reusable {read : ReadIo} {e : Entry} (h : hitEntry s read = some e) :
    e.reusable = true := by
  have hreuse := (hitEntry_mem h).2
  unfold canReuse at hreuse
  split_ifs at hreuse with hbad
  all_goals
    rw [not_or, Bool.not_eq_true', Bool.not_eq_false] at hbad
    exact hbad.1

theorem Shut.no_hit {read : ReadIo} {e : Entry} (h : Shut pages s)
    (hhit : hitEntry s read = some e) : ¬ Overlaps e.io pages := by
  intro hover
  have hre := hitEntry_reusable hhit
  rw [h e (hitEntry_mem hhit).1 hover] at hre
  exact Bool.false_ne_true hre

/-! ## 3. Pinned entries -/

/-- An entry that is there for those who hold it only. -/
def Disabled (s : Storage) (a : Nat) : Prop :=
  ∃ e ∈ s.cache.entries, e.addr = a ∧ e.reusable = false ∧ 0 < e.pins

/-- Freed by its last release, or with the whole cache. -/
def FreedIn (gone : List (FreedBy × Entry)) (a : Nat) : Prop :=
  ∃ x ∈ gone, x.2.addr = a ∧ ((x.1 = .release ∧ x.2.pins = 0) ∨ x.1 = .releaseAll)

theorem Core.entry_eq {e e' : Entry} (h : Core s) (he : e ∈ s.cache.entries)
    (he' : e' ∈ s.cache.entries) (haddr : e'.addr = e.addr) : e' = e :=
  List.inj_on_of_nodup_map h.nodup_entries he' he haddr

theorem Disabled.no_hit {a : Nat} {read : ReadIo} {e : Entry} (h : Disabled s a) (hs : Core s)
    (hhit : hitEntry s read = some e) : e.addr ≠ a := by
  obtain ⟨x, hx, rfl, hre, -⟩ := h
  intro haddr
  have hreuse := hitEntry_reusable hhit
  rw [hs.entry_eq hx (hitEntry_mem hhit).1 haddr, hre] at hreuse
  exact Bool.false_ne_true hreuse

theorem Op.filled_addr {op : Op} {e : Entry} (h : Core s) (hnew : op.filled s e) :
    e.addr ∉ addrs s.cache.entries := by
  cases op with
  | complete addr readOk =>
    obtain ⟨-, -, f, hf, -, rfl⟩ := hnew
    exact h.fill_not_entry hf
  | _ => exact absurd hnew id

theorem step_disabled (op : Op) {a : Nat} (h : Core s) (hdis : Disabled s a) :
    ∃ gone, (step s op).freed = gone ++ s.freed ∧ (Disabled (step s op) a ∨ FreedIn gone a) := by
  obtain ⟨e, he, rfl, hre, hpins⟩ := hdis
  have hpasses := step_passes op h
  obtain ⟨gone, hgone, hleft⟩ := hpasses.leaves
  refine ⟨gone, hgone, ?_⟩
  rcases hleft e he with hin | ⟨x, hx, haddr, hby⟩
  · obtain ⟨e', he', haddr⟩ := List.mem_map.mp hin
    rcases hpasses.origin e' he' with ⟨e₀, he₀, horigin, -⟩ | hnew
    · have heq : e₀ = e := h.entry_eq he he₀ (horigin.addr.symm.trans haddr)
      rw [heq] at horigin
      have hre' : e'.reusable = false := by
        by_contra hno
        rw [Bool.not_eq_false] at hno
        exact Bool.false_ne_true (hre.symm.trans (horigin.reusable hno))
      refine Or.inl ⟨e', he', haddr, hre', Nat.pos_of_ne_zero fun hzero => ?_⟩
      rcases horigin.unpinned hzero with hno | ⟨hno, -⟩
      · exact Bool.false_ne_true (hre'.symm.trans hno)
      · omega
    · refine absurd ?_ (Op.filled_addr h hnew)
      rw [haddr]
      exact List.mem_map_of_mem he
  · refine Or.inr ⟨x, hx, haddr, ?_⟩
    cases hcase : x.1 with
    | release =>
      have hmem : x ∈ (step s op).freed := by
        rw [hgone]
        exact List.mem_append_left _ hx
      exact Or.inl ⟨rfl, hpasses.core.freed x hmem hcase⟩
    | releaseAll => exact Or.inr rfl
    | fillDiscard => exact absurd hcase hby

theorem step_freed (op : Op) (h : Core s) : ∃ gone, (step s op).freed = gone ++ s.freed := by
  obtain ⟨gone, hgone, -⟩ := (step_passes op h).leaves
  exact ⟨gone, hgone⟩

theorem run_freed (ops : List Op) (h : Core s) : ∃ gone, (run s ops).freed = gone ++ s.freed := by
  induction ops generalizing s with
  | nil => exact ⟨[], rfl⟩
  | cons op ops ih =>
    obtain ⟨gone, hgone⟩ := step_freed op h
    obtain ⟨gone', hgone'⟩ := ih (step_passes op h).core
    refine ⟨gone' ++ gone, ?_⟩
    show (run (step s op) ops).freed = _
    rw [hgone', hgone, List.append_assoc]

/-- Until it is freed, nobody gets a disabled entry from a lookup. -/
theorem run_disabled (ops : List Op) {a : Nat} (h : Core s) (hdis : Disabled s a) :
    ∃ gone, (run s ops).freed = gone ++ s.freed ∧ (Disabled (run s ops) a ∨ FreedIn gone a) := by
  induction ops generalizing s with
  | nil => exact ⟨[], rfl, Or.inl hdis⟩
  | cons op ops ih =>
    have hcore := (step_passes op h).core
    obtain ⟨gone, hgone, hstay | ⟨x, hx, hfreed⟩⟩ := step_disabled op h hdis
    · obtain ⟨gone', hgone', hrest⟩ := ih hcore hstay
      refine ⟨gone' ++ gone, ?_, hrest.imp id fun ⟨x, hx, hfreed⟩ =>
        ⟨x, List.mem_append_left _ hx, hfreed⟩⟩
      show (run (step s op) ops).freed = _
      rw [hgone', hgone, List.append_assoc]
    · obtain ⟨gone', hgone'⟩ := run_freed ops hcore
      refine ⟨gone' ++ gone, ?_, Or.inr ⟨x, List.mem_append_right _ hx, hfreed⟩⟩
      show (run (step s op) ops).freed = _
      rw [hgone', hgone, List.append_assoc]

/-- The last release of an entry that cannot be reused frees it. -/
theorem releaseCachedRef_last {ref : PageRef} {e : Entry} (h : Core s)
    (he : e ∈ s.cache.entries) (hre : e.reusable = false) (hone : e.pins = 1)
    (haddr : ref.cache = e.addr) (hv : refValid ref e = true) :
    e.addr ∉ addrs (releaseCachedRef s ref).2.cache.entries ∧
      (releaseCachedRef s ref).2.freed = (.release, { e with pins := 0 }) :: s.freed := by
  obtain ⟨l₁, l₂, hes, -, hupd⟩ := entry_split h.nodup_entries he
  have hzero : e.pins - 1 = 0 := by omega
  have hcore := h.unpin he (by omega)
  obtain ⟨-, hents⟩ := hcore.release (hupd _) hzero
  have hnd := h.nodup_entries
  rw [hes] at hnd
  obtain ⟨h₁, h₂⟩ := not_mem_of_nodup_split hnd
  unfold releaseCachedRef
  rw [haddr, findEntry_of_mem h.nodup_entries he]
  simp only [hv, Bool.not_true, Bool.false_eq_true, if_false]
  rw [if_pos hzero, if_neg (by rw [hre]; exact Bool.false_ne_true), hents]
  refine ⟨?_, ?_⟩
  · show e.addr ∉ addrs (l₁ ++ l₂)
    unfold addrs
    rw [List.map_append, List.mem_append]
    exact fun hin => hin.elim h₁ h₂
  · show (FreedBy.release, { e with pins := e.pins - 1 }) :: s.freed = _
    rw [hzero]

theorem Decided.disabled {e : Entry} {hit : Entry → Bool}
    (h : Decided hit [] s.cache.entries [] s t) (he : e ∈ s.cache.entries) (hhit : hit e = true)
    (hp : e.pins ≠ 0) : Disabled t e.addr := by
  refine ⟨{ e with reusable := false }, ?_, rfl, rfl, Nat.pos_of_ne_zero hp⟩
  rw [h.entries, List.nil_append, List.append_nil]
  exact List.mem_filterMap.mpr ⟨e, he, (if_pos hhit).trans (if_neg hp)⟩

/-! ## 4. Complete and selective -/

/-- The whole of what an invalidation does, at once and in any run after it. -/
theorem submitInvalidateCachedIo_selective {ln : Nat} (incl : Bool) (h : Core s)
    (hspans : Spans s.cache.entries) (hv : pageIoValid ln pages = true) :
    ∃ t, submitInvalidateCachedIo ln s pages incl =
        (.success, t, (s.cache.entries.filter (affected pages incl)).length) ∧
      Core t ∧
      -- what overlaps is dropped, or stays for those who hold it
      t.cache.entries = s.cache.entries.filterMap (fate (affected pages incl)) ∧
      t.freed = dropped (affected pages incl) s.cache.entries ++ s.freed ∧
      (t.cache.entries.filter fun e => !decide (Overlaps e.io pages)) =
        (s.cache.entries.filter fun e => !decide (Overlaps e.io pages)) ∧
      held t = held s ∧
      -- no lookup until a fill of the range
      (incl = true → ∀ ops, Unfilled pages t ops →
        ∀ read e, hitEntry (run t ops) read = some e → ¬ Overlaps e.io pages) ∧
      -- a pinned entry, until the last release
      (∀ e ∈ s.cache.entries, affected pages incl e = true → e.pins ≠ 0 → ∀ ops,
        ∃ gone, (run t ops).freed = gone ++ t.freed ∧
          ((Disabled (run t ops) e.addr ∧
              ∀ read e', hitEntry (run t ops) read = some e' → e'.addr ≠ e.addr) ∨
            FreedIn gone e.addr)) ∧
      (∀ ops, ∀ e ∈ (run t ops).cache.entries, e.reusable = false → e.pins = 1 →
        ∀ ref, ref.cache = e.addr → refValid ref e = true →
          e.addr ∉ addrs (step (run t ops) (.release ref)).cache.entries ∧
            (step (run t ops) (.release ref)).freed =
              (.release, { e with pins := 0 }) :: (run t ops).freed) := by
  obtain ⟨t, hsubmit, hdecided⟩ := submitInvalidateCachedIo_spec incl h hspans hv
  have hentries : t.cache.entries = s.cache.entries.filterMap (fate (affected pages incl)) := by
    rw [hdecided.entries, List.nil_append, List.append_nil]
  refine ⟨t, hsubmit, hdecided.core, hentries, hdecided.freed, ?_, hdecided.held_eq h, ?_, ?_, ?_⟩
  · rw [hentries]
    exact filter_outside s.cache.entries
  · rintro rfl ops hops read e hhit
    exact (run_shut ops hdecided.core hdecided.shut hops).no_hit hhit
  · intro e he haff hp ops
    obtain ⟨gone, hgone, hstay | hfreed⟩ :=
      run_disabled ops hdecided.core (hdecided.disabled he haff hp)
    · have hcore := run_core ops hdecided.core
      exact ⟨gone, hgone, Or.inl ⟨hstay, fun read e' hhit => hstay.no_hit hcore hhit⟩⟩
    · exact ⟨gone, hgone, Or.inr hfreed⟩
  · intro ops e he hre hone ref haddr hvalid
    exact releaseCachedRef_last (run_core ops hdecided.core) he hre hone haddr hvalid

/-- The first of three pages is in the cache and held, and the other two are discarded. -/
def headOps : List Op :=
  [.prepare ⟨⟨4, 5, 1, 4096⟩, 1, true, true⟩ true true, .complete 0 true]

/-- The reader of the first page has the others brought in: no fill, but the next lookup returns
all three. -/
theorem materialized_overlaps :
    Core (run (init 65536) headOps) ∧ Spans (run (init 65536) headOps).cache.entries ∧
      pageIoValid 12 ⟨5, 7, 2, 8192⟩ = true ∧
      ∃ t, submitInvalidateCachedIo 12 (run (init 65536) headOps) ⟨5, 7, 2, 8192⟩ true =
          (.success, t, 0) ∧
        (∀ e, ¬ (Op.replace ⟨0, 0, 4, 1⟩ ⟨4, 7, 3, 12288⟩).filled t e) ∧
        ∃ e, hitEntry (step t (.replace ⟨0, 0, 4, 1⟩ ⟨4, 7, 3, 12288⟩))
            ⟨⟨4, 5, 1, 4096⟩, 1, true, true⟩ = some e ∧ Overlaps e.io ⟨5, 7, 2, 8192⟩ := by
  refine ⟨run_core headOps (init_exact 65536).toCore, ?_, by decide, _, rfl, fun _ h => h, ?_⟩
  · show ∀ e ∈ (run (init 65536) headOps).cache.entries, e.io.pgno < e.io.endPgno
    decide
  · exact ⟨_, rfl, by decide⟩

-- a reader holds page 5, page 9 is not held, and page 5 is discarded
theorem submitInvalidateCachedIo_selective_pinned :
    ∃ s pages, Core s ∧ Spans s.cache.entries ∧ pageIoValid 12 pages = true ∧
      ∃ t, submitInvalidateCachedIo 12 s pages true = (.success, t, 1) ∧
        t.cache.entries.length = 2 := by
  let ops : List Op :=
    [.prepare ⟨⟨5, 6, 1, 4096⟩, 1, true, true⟩ true false, .complete 0 true,
      .prepare ⟨⟨9, 10, 1, 4096⟩, 1, true, true⟩ true false, .complete 1 true,
      .release ⟨1, 1, 9, 1⟩]
  have hcore : Core (run (init 65536) ops) := run_core ops (init_exact 65536).toCore
  have hspans : Spans (run (init 65536) ops).cache.entries := by
    show ∀ e ∈ (run (init 65536) ops).cache.entries, e.io.pgno < e.io.endPgno
    decide
  have hvalid : pageIoValid 12 ⟨5, 6, 1, 4096⟩ = true := by decide
  refine ⟨run (init 65536) ops, ⟨5, 6, 1, 4096⟩, hcore, hspans, hvalid, ?_⟩
  obtain ⟨t, hsubmit, -, hentries, -⟩ :=
    submitInvalidateCachedIo_selective true hcore hspans hvalid
  refine ⟨t, hsubmit.trans ?_, ?_⟩
  · have hone : ((run (init 65536) ops).cache.entries.filter
        (affected ⟨5, 6, 1, 4096⟩ true)).length = 1 := by decide
    rw [hone]
  · rw [hentries]
    decide

end Mdbx.PageCache
