import Mdbx.PageCache.Sections

/-!
# PageCache.Invalidation — what an invalidation does to each entry

The loop stops early when the counters say that no entry without reusability is left, and it changes
an entry while the list is walked.  It comes to one decision for each entry of the list.
-/

namespace Mdbx.PageCache

variable {s s' : Storage} {pages : PageIo} {incl : Bool} {e : Entry} {hit : Entry → Bool}

/-! ## 1. The decision -/

/-- An entry that is hit stays for those who hold it. -/
def fate (hit : Entry → Bool) (e : Entry) : Option Entry :=
  if hit e then if e.pins = 0 then none else some { e with reusable := false } else some e

/-- What is freed at once, the last entry first. -/
def dropped (hit : Entry → Bool) (es : List Entry) : List (FreedBy × Entry) :=
  ((es.filter fun e => hit e && e.pins == 0).map fun e =>
    (FreedBy.release, { e with reusable := false })).reverse

theorem fate_of_not_hit (h : hit e = false) : fate hit e = some e :=
  if_neg (by rw [h]; exact Bool.false_ne_true)

theorem filterMap_fate {es : List Entry} (h : ∀ e ∈ es, hit e = false) :
    es.filterMap (fate hit) = es := by
  rw [List.filterMap_congr fun e he => fate_of_not_hit (h e he), List.filterMap_some]

theorem dropped_none {es : List Entry} (h : ∀ e ∈ es, hit e = false) : dropped hit es = [] := by
  unfold dropped
  rw [List.filter_eq_nil_iff.mpr fun e he => by
    rw [h e he, Bool.false_and]
    exact Bool.false_ne_true]
  rfl

/-! ## 2. One entry -/

/-- Some entries of the list have got what is decided for them. -/
structure Decided (hit : Entry → Bool) (done es ahead : List Entry) (s s' : Storage) : Prop where
  core : Core s'
  entries : s'.cache.entries = done ++ es.filterMap (fate hit) ++ ahead
  freed : s'.freed = dropped hit es ++ s.freed
  privates : s'.privates = s.privates
  fills : s'.fills = s.fills

theorem dropped_cons (hit : Entry → Bool) (e : Entry) (es : List Entry) :
    dropped hit (e :: es) = dropped hit es ++ dropped hit [e] := by
  unfold dropped
  rw [← List.reverse_append, ← List.map_append, ← List.filter_append]
  rfl

theorem Decided.refl {done es ahead : List Entry} (h : Core s)
    (hes : s.cache.entries = done ++ es ++ ahead) (hno : ∀ e ∈ es, hit e = false) :
    Decided hit done es ahead s s := by
  refine ⟨h, ?_, ?_, rfl, rfl⟩
  · rw [filterMap_fate hno, hes]
  · rw [dropped_none hno, List.nil_append]

theorem Decided.cons {done es ahead : List Entry} {t : Storage}
    (h : Decided hit done [e] (es ++ ahead) s s')
    (h' : Decided hit (done ++ [e].filterMap (fate hit)) es ahead s' t) :
    Decided hit done (e :: es) ahead s t := by
  refine ⟨h'.core, ?_, ?_, h'.privates.trans h.privates, h'.fills.trans h.fills⟩
  · rw [h'.entries, show e :: es = [e] ++ es from rfl, List.filterMap_append, List.append_assoc done]
  · rw [h'.freed, h.freed, dropped_cons hit e es, List.append_assoc]

/-- The entry between those before it and those ahead. -/
theorem invalidateEntry_spec {done ahead : List Entry} (h : Core s)
    (hes : s.cache.entries = done ++ e :: ahead) (hhit : hit e = true) :
    Decided hit done [e] ahead s (invalidateEntry s e) := by
  have hmem : e ∈ s.cache.entries := by
    rw [hes]
    exact List.mem_append_right _ List.mem_cons_self
  have hnd := h.nodup_entries
  rw [hes] at hnd
  have hupd : updateEntry e.addr (fun e => { e with reusable := false }) s.cache.entries =
      done ++ { e with reusable := false } :: ahead := by
    obtain ⟨h₁, h₂⟩ := not_mem_of_nodup_split hnd
    have hself : updateEntry e.addr (fun e => { e with reusable := false }) (e :: ahead) =
        { e with reusable := false } ::
          updateEntry e.addr (fun e => { e with reusable := false }) ahead := by
      unfold updateEntry
      rw [List.map_cons, if_pos rfl]
    rw [hes, updateEntry, List.map_append, ← updateEntry, ← updateEntry, hself,
      updateEntry_of_not_mem _ h₁, updateEntry_of_not_mem _ h₂]
  have hcore : Core { s with cache := { s.cache with
      reusableCount := s.cache.reusableCount - if e.reusable then 1 else 0
      entries := updateEntry e.addr (fun e => { e with reusable := false }) s.cache.entries } } := by
    refine h.of_addrs ?_ (liveAddrs_congr (addrs_updateEntry fun _ => rfl) rfl rfl) rfl rfl
    simp only [hupd]
    simpa using h.counted.change { e with reusable := false } hes
  unfold invalidateEntry
  simp only
  by_cases hp : e.pins = 0
  · obtain ⟨hcore', hents⟩ := hcore.release hupd hp
    have hfate : fate hit e = none := (if_pos hhit).trans (if_pos hp)
    have hdropped : dropped hit [e] = [(.release, { e with reusable := false })] := by
      unfold dropped
      rw [List.filter_cons, if_pos (by rw [hhit, hp]; rfl)]
      rfl
    rw [if_pos hp]
    refine ⟨hcore', ?_, ?_, rfl, rfl⟩
    · rw [hents, List.filterMap_cons, hfate, List.filterMap_nil, List.append_nil]
    · rw [hdropped]
      rfl
  · have hfate : fate hit e = some { e with reusable := false } :=
      (if_pos hhit).trans (if_neg hp)
    have hdropped : dropped hit [e] = [] := by
      unfold dropped
      rw [List.filter_cons, hhit, Bool.true_and, if_neg (by rw [beq_iff_eq]; exact hp)]
      rfl
    rw [if_neg hp]
    refine ⟨hcore, ?_, ?_, rfl, rfl⟩
    · show updateEntry e.addr _ s.cache.entries = _
      rw [hupd, List.filterMap_cons, hfate, List.filterMap_nil, List.append_assoc]
      rfl
    · rw [hdropped]
      rfl

/-! ## 3. The loop -/

/-- How many entries cannot be reused. -/
def nonreusable (es : List Entry) : Nat := (es.filter fun e => !e.reusable).length

/-- The test of the loop, with what it does not look at. -/
def tested (pages : PageIo) (incl : Bool) (e : Entry) : Bool :=
  decide (e.io.pgno < pages.endPgno ∧ pages.pgno < e.io.endPgno) && (incl || !e.reusable)

variable (pages) in
theorem tested_skip (h : incl = false) (hre : e.reusable = true) : tested pages incl e = false := by
  unfold tested
  rw [h, hre]
  exact Bool.and_false _

variable (pages) in
theorem tested_look (h : incl = true ∨ e.reusable = false) : tested pages incl e =
    decide (e.io.pgno < pages.endPgno ∧ pages.pgno < e.io.endPgno) := by
  unfold tested
  rcases h with h | h
  · rw [h, Bool.true_or, Bool.and_true]
  · rw [h, Bool.not_false, Bool.or_true, Bool.and_true]

variable (pages) in
-- where nothing that cannot be reused is left, nothing is hit
theorem tested_none {es : List Entry} (h : incl = false) (hes : nonreusable es = 0) :
    ∀ e ∈ es, tested pages incl e = false := by
  intro x hx
  refine tested_skip pages h ?_
  have hnil := List.length_eq_zero_iff.mp hes
  have hnot := List.filter_eq_nil_iff.mp hnil x hx
  rwa [Bool.not_eq_true', Bool.not_eq_false] at hnot

theorem nonreusable_cons (e : Entry) (es : List Entry) :
    nonreusable (e :: es) = (if e.reusable then 0 else 1) + nonreusable es := by
  unfold nonreusable
  rw [List.filter_cons]
  cases e.reusable with
  | true => exact (Nat.zero_add _).symm
  | false => exact Nat.add_comm _ _

variable (pages) in
theorem invalidateLoop_spec :
    ∀ {es done : List Entry} {s : Storage} {left n : Nat}, Core s → s.cache.entries = done ++ es →
      (incl = false → left = nonreusable es) →
      Decided (tested pages incl) done es [] s (invalidateLoop pages incl es s left n).1 ∧
        (invalidateLoop pages incl es s left n).2 =
          n + (es.filter (tested pages incl)).length
  | [], done, s, left, n, h, hes, _ => by
    refine ⟨Decided.refl h ?_ fun e he => absurd he List.not_mem_nil, rfl⟩
    rw [hes, List.append_nil, List.append_nil]
  | e :: es, done, s, left, n, h, hes, hleft => by
    have hes' : s.cache.entries = (done ++ [e]) ++ es := by
      rw [hes, List.append_assoc]
      rfl
    rw [nonreusable_cons] at hleft
    unfold invalidateLoop
    by_cases hskip : (!incl) = true ∧ e.reusable = true
    · -- an entry that is not looked at
      have hincl : incl = false := by
        rw [← Bool.not_eq_true']
        exact hskip.1
      have hre := hskip.2
      have hno := tested_skip pages hincl hre
      have hone : ∀ x ∈ [e], tested pages incl x = false := fun x hx => by
        rw [List.mem_singleton.mp hx]
        exact hno
      rw [hre, if_pos rfl, Nat.zero_add] at hleft
      obtain ⟨hdecided, hcount⟩ := invalidateLoop_spec (n := n) h hes' hleft
      rw [if_pos hskip, List.filter_cons, hno, if_neg Bool.false_ne_true, hcount]
      have hfirst : Decided (tested pages incl) done [e] (es ++ []) s s :=
        Decided.refl h (by rw [List.append_nil, hes']) hone
      refine ⟨hfirst.cons ?_, rfl⟩
      rw [filterMap_fate hone]
      exact hdecided
    · have hmay : incl = true ∨ e.reusable = false := by
        cases hi : incl with
        | true => exact Or.inl rfl
        | false =>
          cases hr : e.reusable with
          | false => exact Or.inr rfl
          | true =>
            rw [hi, hr] at hskip
            exact absurd ⟨rfl, rfl⟩ hskip
      have hlook := tested_look pages hmay
      rw [if_neg hskip]
      simp only
      rw [← hlook, List.filter_cons]
      -- the entry after its turn, and the counter of those ahead
      have hdecided : Decided (tested pages incl) done [e] es s
          (if tested pages incl e = true then invalidateEntry s e else s) := by
        by_cases hhit : tested pages incl e = true
        · rw [if_pos hhit]
          exact invalidateEntry_spec h hes hhit
        · rw [if_neg hhit]
          refine Decided.refl h hes' fun x hx => ?_
          rw [List.mem_singleton.mp hx]
          exact Bool.not_eq_true _ ▸ hhit
      have hn : ∀ l : List Entry, (if tested pages incl e = true then n + 1 else n) + l.length =
          n + (if tested pages incl e = true then e :: l else l).length := by
        intro l
        split_ifs
        · rw [List.length_cons]
          omega
        · rfl
      have hleft' : incl = false →
          (if incl = true then left else left - 1) = nonreusable es := by
        intro hincl
        have hre : e.reusable = false := hmay.resolve_left (by rw [hincl]; exact Bool.false_ne_true)
        have heq := hleft hincl
        rw [hre, if_neg Bool.false_ne_true] at heq
        rw [hincl, if_neg Bool.false_ne_true]
        omega
      generalize (if tested pages incl e = true then invalidateEntry s e else s) = s' at *
      by_cases hstop : (!incl) = true ∧ (if incl = true then left else left - 1) = 0
      · have hincl := hstop.1
        rw [Bool.not_eq_true'] at hincl
        have hnone := tested_none pages hincl ((hleft' hincl).symm.trans hstop.2)
        have hempty : es.filter (tested pages incl) = [] :=
          List.filter_eq_nil_iff.mpr fun x hx => by
            rw [hnone x hx]
            exact Bool.false_ne_true
        rw [if_pos hstop, hempty]
        refine ⟨Decided.cons (by rw [List.append_nil]; exact hdecided)
          (Decided.refl hdecided.core ?_ hnone), ?_⟩
        · rw [hdecided.entries, List.append_nil]
        · exact hn []
      · rw [if_neg hstop]
        obtain ⟨hrest, hcount⟩ := invalidateLoop_spec
          (n := if tested pages incl e = true then n + 1 else n) hdecided.core hdecided.entries
            hleft'
        refine ⟨Decided.cons (by rw [List.append_nil]; exact hdecided) hrest, ?_⟩
        rw [hcount]
        exact hn _

/-! ## 4. The function -/

/-- What the function hits: nothing where the range has no page. -/
def invalidates (pages : PageIo) (incl : Bool) (e : Entry) : Bool :=
  pages.npages != 0 && tested pages incl e

theorem nonreusable_counted {c : Cache} (h : Counted c) :
    c.entriesCount - c.reusableCount = nonreusable c.entries := by
  have hsum : ∀ es : List Entry,
      es.length = (es.map fun e => if e.reusable then 1 else 0).sum + nonreusable es := by
    intro es
    induction es with
    | nil => rfl
    | cons e es ih =>
      rw [nonreusable_cons, List.length_cons, List.map_cons, List.sum_cons, ih]
      split_ifs <;> omega
  rw [h.entriesCount, h.reusableCount, hsum c.entries, Nat.add_sub_cancel_left]

/-- Whichever exit is taken, each entry of the list gets what is decided for it. -/
theorem invalidateCachedIo_spec (pages : PageIo) (incl : Bool) (h : Core s) :
    Decided (invalidates pages incl) [] s.cache.entries [] s (invalidateCachedIo s pages incl).1 ∧
      (invalidateCachedIo s pages incl).2 =
        (s.cache.entries.filter (invalidates pages incl)).length := by
  have hkeep : (∀ e ∈ s.cache.entries, invalidates pages incl e = false) →
      Decided (invalidates pages incl) [] s.cache.entries [] s s ∧
        0 = (s.cache.entries.filter (invalidates pages incl)).length := by
    intro hno
    refine ⟨Decided.refl h (by rw [List.nil_append, List.append_nil]) hno, ?_⟩
    rw [List.filter_eq_nil_iff.mpr fun x hx => by
      rw [hno x hx]
      exact Bool.false_ne_true]
    rfl
  unfold invalidateCachedIo
  by_cases hzero : pages.npages = 0
  · rw [if_pos hzero]
    refine hkeep fun e _ => ?_
    unfold invalidates
    rw [hzero]
    rfl
  · have heq : invalidates pages incl = tested pages incl := by
      funext e
      unfold invalidates
      rw [bne_iff_ne.mpr hzero, Bool.true_and]
    have hcounted := nonreusable_counted h.counted
    rw [if_neg hzero]
    by_cases hnone : (!incl) = true ∧ s.cache.entriesCount = s.cache.reusableCount
    · rw [if_pos hnone]
      refine hkeep fun e he => ?_
      have hincl : incl = false := by
        rw [← Bool.not_eq_true']
        exact hnone.1
      rw [heq]
      exact tested_none pages hincl (by omega) e he
    · rw [if_neg hnone, heq]
      have hleft : incl = false → (if incl = true then 0
          else s.cache.entriesCount - s.cache.reusableCount) = nonreusable s.cache.entries := by
        intro hincl
        rw [hincl, if_neg Bool.false_ne_true, hcounted]
      obtain ⟨hdecided, hcount⟩ := invalidateLoop_spec pages (n := 0) h
        (List.nil_append _).symm hleft
      exact ⟨hdecided, hcount.trans (Nat.zero_add _)⟩

theorem invalidateCachedIo_passes (pages : PageIo) (incl : Bool) (h : Core s) :
    Passes s (invalidateCachedIo s pages incl).1 NoPages NoEntry := by
  have hdecided := (invalidateCachedIo_spec pages incl h).1
  refine ⟨hdecided.core, fun e' he' => ?_, _, hdecided.freed, fun e he => ?_⟩
  · rw [hdecided.entries, List.nil_append, List.append_nil] at he'
    obtain ⟨e, he, hfate⟩ := List.mem_filterMap.mp he'
    refine Or.inl ⟨e, he, ?_⟩
    unfold fate at hfate
    split_ifs at hfate with hhit hp
    · rw [← Option.some.inj hfate]
      exact ⟨⟨rfl, fun h => absurd h Bool.false_ne_true, fun h0 => absurd h0 hp⟩, Or.inl rfl⟩
    · rw [← Option.some.inj hfate]
      exact ⟨Origin.refl e, Or.inl rfl⟩
  · rw [hdecided.entries, List.nil_append, List.append_nil]
    by_cases hfree : invalidates pages incl e = true ∧ e.pins = 0
    · right
      refine ⟨(.release, { e with reusable := false }), ?_, rfl, FreedBy.noConfusion⟩
      unfold dropped
      rw [List.mem_reverse]
      refine List.mem_map.mpr ⟨e, List.mem_filter.mpr ⟨he, ?_⟩, rfl⟩
      rw [hfree.1, hfree.2]
      rfl
    · left
      have hstay : ∃ e', fate (invalidates pages incl) e = some e' ∧ e'.addr = e.addr := by
        unfold fate
        split_ifs with hhit hp
        · exact absurd ⟨hhit, hp⟩ hfree
        · exact ⟨_, rfl, rfl⟩
        · exact ⟨_, rfl, rfl⟩
      obtain ⟨e', hfate, haddr⟩ := hstay
      rw [← haddr]
      exact List.mem_map_of_mem (List.mem_filterMap.mpr ⟨e, he, hfate⟩)

/-! ## 5. Steps and runs -/

/-- The pages that a critical section brings into an entry that is there. -/
def Op.grown : Op → PageIo → Prop
  | .replace _ io => (· = io)
  | _ => NoPages

/-- The entries that it adds. -/
def Op.filled (s : Storage) : Op → Entry → Prop
  | .complete addr readOk => filledBy s addr readOk
  | _ => NoEntry

theorem step_passes (op : Op) (h : Core s) : Passes s (step s op) op.grown (op.filled s) := by
  cases op with
  | lookup read => exact lookupCachedPage_passes read h
  | prepare read alloc large => exact prepareReadCachedPage_passes read alloc large h
  | complete addr readOk => exact completeFill_passes addr readOk h
  | retain ref => exact retainCachedRef_passes ref h
  | release ref => exact releaseCachedRef_passes ref h
  | invalidate pages incl => exact invalidateCachedIo_passes pages incl h
  | replace ref io => exact replaceMaterialized_passes ref io h
  | detach ref io alloc => exact detachMaterialized_passes ref io alloc h
  | prune => exact (Passes.refl h).prune
  | releaseAll => exact releaseAll_passes h

theorem run_core (ops : List Op) (h : Core s) : Core (run s ops) := by
  induction ops generalizing s with
  | nil => exact h
  | cons op ops ih => exact ih (step_passes op h).core

end Mdbx.PageCache
