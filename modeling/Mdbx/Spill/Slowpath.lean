import Mdbx.Spill.Upheld

/-!
# Spill.Slowpath — every call of `spill_slowpath`

The transaction keeps its pages exactly if each call for a page queues it.  A call that fails marks the
transaction, unless it leaves pages in the queue that are then written.
-/

namespace Mdbx.Spill

open Buffer
open Nested (Spilled)

variable {t t' prepared : Txn} {m0 : Option Cursor} {moved lost : List Item} {o : Options}
  {answers : Answers} {v : Watch} {wanted : Amount} {sp : Spilled} {words : List Nat}
  {asked : List Answer} {written : Rc}

/-- What a call comes to, after the answers `asked`. -/
structure Settled (t : Txn) (m0 : Option Cursor) (t' : Txn) (asked : List Answer) (written : Rc) :
    Prop where
  upheld : (∃ moved, Upheld t m0 t' moved) ↔ ∀ a ∈ asked, a = .queued
  marked : t'.error = true ∨ (∃ moved, Upheld t m0 t' moved) ↔
    ¬ (written = .success ∧ ∃ a ∈ asked, a ≠ .queued ∧ a.pending = true)
  ready : t'.error = false → (∃ moved, Upheld t m0 t' moved) → Ready t'
  listed : t'.error = false → ∀ sp, t'.spilled = some sp → Listed sp

theorem Settled.of_upheld (hready : Ready t) (hup : Upheld t m0 t' moved)
    (hall : ∀ a ∈ asked, a = .queued) (hparents : t'.parents = t.parents)
    (hlisted : t'.error = false → ∀ sp, t'.spilled = some sp → Listed sp) :
    Settled t m0 t' asked written := by
  constructor
  · exact iff_of_true ⟨moved, hup⟩ hall
  · exact iff_of_true (.inr ⟨moved, hup⟩) fun ⟨_, a, hin, hfailed, _⟩ => hfailed (hall a hin)
  · exact fun hfine _ => hup.ready hready hparents (hlisted hfine)
  · exact hlisted

theorem Settled.of_lost {before : List Answer} {last : Answer} (hnot : ∀ moved, ¬ Upheld t m0 t' moved)
    (hall : ∀ a ∈ before, a = .queued) (hlast : last ≠ .queued)
    (herror : t'.error = true ↔ ¬ (written = .success ∧ last.pending = true))
    (hlisted : t'.error = false → ∀ sp, t'.spilled = some sp → Listed sp) :
    Settled t m0 t' (before ++ [last]) written := by
  have hin : last ∈ before ++ [last] := List.mem_append_right _ List.mem_cons_self
  have hnone : ¬ ∃ moved, Upheld t m0 t' moved := fun ⟨moved, hup⟩ => hnot moved hup
  constructor
  · exact iff_of_false hnone fun hqueued => hlast (hqueued last hin)
  · rw [or_iff_left hnone, herror, not_iff_not]
    refine and_congr_right fun _ => ⟨fun hpending => ⟨last, hin, hlast, hpending⟩, ?_⟩
    rintro ⟨a, ha, hfailed, hpending⟩
    rcases List.mem_append.mp ha with hbefore | hself
    · exact absurd (hall a hbefore) hfailed
    · exact List.mem_singleton.mp hself ▸ hpending
  · exact fun _ hup => absurd hup hnone
  · exact hlisted

/-! ## 1. The pages that were chosen -/

/-- Nothing keeps the item from being spilled. -/
structure Free (t : Txn) (m0 : Option Cursor) (x : Item) : Prop where
  loose : x.loose = false
  kept : ∀ mc ∈ keptCursors t m0, ∀ ref ∈ refsOf mc, ref.modifable → x.pgno ≠ ref.pgno
  parents : ∀ p ∈ pagesOf x, ∀ parent ∈ t.parents, ¬ parent.Holds p

theorem Prepared.free (hready : Ready t) (h : Prepared t m0 sp prepared)
    (hlru : v.dirtylru = prepared.dirtylru) (hparents : v.parents = prepared.parents) {x : Item}
    (hin : x ∈ prepared.dirty) (hprio : spillPrio v x < 256) : Free t m0 x := by
  have hsame : v.parents = t.parents := hparents.trans h.parents
  obtain ⟨hage, hloose, hapart⟩ := spillPrio_free (hsame ▸ hready.parents) hprio
  constructor
  · exact hloose
  · intro mc hmc ref href hmod hpgno
    rw [hlru] at hage
    exact hage (h.young mc hmc ref href hmod x hin hpgno)
  · intro p hp
    obtain ⟨hlo, hhi⟩ := List.mem_range'_1.mp hp
    rw [← hsame]
    exact hapart p hlo hhi

theorem Divided.upheld (hready : Ready t) (h : Divided t t' words moved [])
    (hroom : t'.dirtyroom = t.dirtyroom + moved.length)
    (hpages : t'.pagesIncludingLoose = t.pagesIncludingLoose - (moved.map Item.npages).sum)
    (hfree : ∀ x ∈ moved, Free t m0 x) : Upheld t m0 t' moved := by
  have hdirty := h.dirty
  rw [List.append_nil] at hdirty
  have hall := h.all
  have hsum := sum_of_core hdirty
  have hlength := hdirty.length_eq
  rw [List.map_append, List.sum_append] at hsum
  rw [List.length_map, List.length_map, List.length_append] at hlength
  constructor
  · exact hdirty
  · rw [h.pages]
    exact h.words
  · exact hall
  · rw [hroom]
    omega
  · rw [hpages, hready.counted]
    omega
  · exact fun x hx => (hfree x hx).loose
  · exact fun mc hmc ref href hmod x hx => (hfree x hx).kept mc hmc ref href hmod
  · exact fun x hx => (hfree x hx).parents

/-! ## 2. The loop in the transaction -/

/-- The transaction after the label `failed`. -/
def afterLoop (t : Txn) (s : Scan) : Txn :=
  { t with
    dirty := slice (moveDown s.items (s.w + 1) (s.r + 1) (t.dirty.length - s.r)) 1
      (s.w + (t.dirty.length - s.r))
    dirtyroom := t.dirtyroom + s.out.entries
    pagesIncludingLoose := t.pagesIncludingLoose - s.out.npages
    spilled := some ⟨Pnl.ofList s.out.words, Nested.intMax⟩ }

theorem Prepared.divided (h : Prepared t m0 sp prepared) {items : Nat → Item} {s : Scan}
    (hitems : slice items 1 prepared.dirty.length = prepared.dirty)
    (hscanned : Scanned v items prepared.dirty.length s moved lost)
    (hwords : s.out.words = sp.list.list ++ moved.flatMap wordsOf) (hperm : words.Perm s.out.words)
    (ht' : t'.dirty = (afterLoop prepared s).dirty)
    (hspilled : t'.spilled = some ⟨Pnl.ofList words, Nested.intMax⟩) :
    Divided t t' words moved lost := by
  constructor
  · have hwhole := hscanned.whole.1
    rw [hitems] at hwhole
    rw [ht']
    exact (hwhole.map Spill.core).trans h.same
  · exact hspilled
  · intro word hword
    have hin := hperm.subset hword
    rw [hwords] at hin
    rcases List.mem_append.mp hin with hold | hnew
    · exact h.opened.even word hold
    · exact wordsOf_even moved word hnew
  · refine (hperm.map _).trans ?_
    rw [hwords, List.map_append, h.opened.pages]
    exact (wordsOf_pages moved).append_left _

/-- The queue is written, where it is not empty. -/
def finalRc (written : Rc) (s : Scan) : Rc := if s.out.pending then written else s.out.rc

/-- From the label `failed` to the end of the branch. -/
def finish (written : Rc) (t : Txn) (s : Scan) : Txn :=
  if finalRc written s ≠ .success then
    { afterLoop t s with error := true }
  else
    { afterLoop t s with
      spilled := some ⟨Pnl.ofList (s.out.words.insertionSort fun p q => q ≤ p), Nested.intMax⟩
      spills := true }

/-- The words of the list at the end. -/
def finalWords (written : Rc) (s : Scan) : List Nat :=
  if finalRc written s ≠ .success then s.out.words
  else s.out.words.insertionSort fun p q => q ≤ p

theorem finish_spec (written : Rc) (t : Txn) (s : Scan) :
    (finish written t s).dirty = (afterLoop t s).dirty ∧
    (finish written t s).dirtyroom = t.dirtyroom + s.out.entries ∧
    (finish written t s).pagesIncludingLoose = t.pagesIncludingLoose - s.out.npages ∧
    (finish written t s).parents = t.parents ∧
    (finish written t s).spilled = some ⟨Pnl.ofList (finalWords written s), Nested.intMax⟩ ∧
    (finalWords written s).Perm s.out.words := by
  unfold finish finalWords
  split
  · exact ⟨rfl, rfl, rfl, rfl, rfl, List.Perm.refl _⟩
  · exact ⟨rfl, rfl, rfl, rfl, rfl, List.perm_insertionSort _ _⟩

theorem finish_error {s : Scan} (hfresh : t.error = false) :
    ((finish written t s).error = true ↔ finalRc written s ≠ .success) ∧
    ((finish written t s).error = false → (finalWords written s).Pairwise fun p q => q ≤ p) := by
  unfold finish finalWords
  split
  · rename_i hfailed
    exact ⟨iff_of_true rfl hfailed, fun hfine => nomatch hfine⟩
  · rename_i hfine
    refine ⟨iff_of_false ?_ hfine, fun _ => List.pairwise_insertionSort _ _⟩
    change ¬ t.error = true
    rw [hfresh]
    exact Bool.false_ne_true

/-- What the loop ends with comes to the transaction. -/
theorem finish_settled (hready : Ready t) (hfresh : t.error = false)
    (h : Prepared t m0 sp prepared) (hlru : v.dirtylru = prepared.dirtylru)
    (hparents : v.parents = prepared.parents) {items : Nat → Item} {s : Scan} {first : Out}
    (hitems : slice items 1 prepared.dirty.length = prepared.dirty)
    (hfirst : first.words = sp.list.list ∧ first.entries = 0 ∧ first.npages = 0)
    (hended : Ended v items prepared.dirty.length first s) :
    ∃ asked, first.answers = asked ++ s.out.answers ∧
      Settled t m0 (finish written prepared s) asked written := by
  obtain ⟨hdirty, hroom, hpages, hsame, hspilled, hperm⟩ := finish_spec written prepared s
  obtain ⟨herror, hsorted⟩ := finish_error (s := s) (h.error.trans hfresh)
  have hlisted : ∀ {moved lost : List Item}, Divided t (finish written prepared s)
      (finalWords written s) moved lost → (finish written prepared s).error = false →
      ∀ sp, (finish written prepared s).spilled = some sp → Listed sp := by
    intro moved lost hdivided hfine sp hsome
    rw [hspilled] at hsome
    cases hsome
    exact hdivided.listed hready (hsorted hfine)
  cases hended with
  | all moved hscanned hrun =>
      obtain ⟨asked, hasked, hall⟩ := hrun.asked
      have hwords := hrun.words
      rw [hfirst.1] at hwords
      have hdivided := h.divided hitems hscanned hwords hperm hdirty hspilled
      refine ⟨asked, hasked, .of_upheld hready (hdivided.upheld hready ?_ ?_ fun x hx => ?_) hall
        (hsame.trans h.parents) (hlisted hdivided)⟩
      · rw [hroom, hrun.entries, hfirst.2.1, h.dirtyroom, Nat.zero_add]
      · rw [hpages, hrun.npages, hfirst.2.2, h.pages, Nat.zero_add]
      · refine h.free hready hlru hparents ?_ (hscanned.chosen x hx)
        rw [← hitems]
        exact hscanned.whole.1.subset (List.mem_append_right _ (List.mem_append_left _ hx))
  | failed moved x lost hscanned hbroken =>
      obtain ⟨asked, last, hasked, hall, hlast, hpending⟩ := hbroken.asked
      have hwords := hbroken.words
      rw [hfirst.1] at hwords
      have hdivided := h.divided hitems hscanned hwords hperm hdirty hspilled
      refine ⟨asked ++ [last], by rw [hasked, List.append_assoc]; rfl, .of_lost
        (fun other => hdivided.not_upheld hready other) hall hlast ?_ (hlisted hdivided)⟩
      unfold finalRc at herror
      rw [herror, hpending, not_iff_not]
      cases last.pending with
      | false => exact iff_of_false hbroken.rc fun hboth => Bool.false_ne_true hboth.2
      | true => exact ⟨fun hwritten => ⟨hwritten, rfl⟩, And.left⟩

/-! ## 3. The call -/

theorem spillChosen_settled (hready : Ready t) (hfresh : t.error = false)
    (h : Prepared t m0 sp prepared) (hlru : v.dirtylru = prepared.dirtylru)
    (hparents : v.parents = prepared.parents) :
    ∃ asked, answers.pages = asked ++ (spillChosen answers wanted sp v prepared).2.2 ∧
      Settled t m0 (spillChosen answers wanted sp v prepared).2.1 asked answers.written := by
  have hmark := h.mark v
  have hlisted : ∀ sp', some sp = some sp' → Listed sp' := by
    intro sp' hsome
    cases hsome
    exact h.opened.listed
  unfold spillChosen
  dsimp only
  split
  · exact ⟨[], rfl, .of_upheld hready (hready.upheld_of_same hmark.same
      (h.opened.spilledPages rfl) h.dirtyroom h.pages) (fun _ hin => absurd hin List.not_mem_nil)
      h.parents fun _ => hlisted⟩
  · split
    · exact ⟨[], rfl, .of_upheld hready (hready.upheld_of_same hmark.same
        (h.opened.spilledPages rfl) h.dirtyroom h.pages) (fun _ hin => absurd hin List.not_mem_nil)
        h.parents fun _ => hlisted⟩
    · generalize hlevels : levelsOf v (prepared.dirty.map (spillMark v)) wanted _ = levels
      have hbounds := hlevels ▸ levelsOf_bounds v (prepared.dirty.map (spillMark v)) wanted _
      have hended := scanLoop_spec (v := v) wanted
        (prepared.dirty.map (spillMark v)).length hbounds
        (prepared.dirty.map (spillMark v)).length
        ⟨store (fun _ => default) 1 (prepared.dirty.map (spillMark v)), 0, 0, 0,
          ⟨0, 0, sp.list.list, .success, false, answers.pages⟩⟩ []
        ⟨Nat.le_refl _, Nat.zero_le _, fun _ _ => rfl, List.Sublist.refl _, List.Perm.refl _,
          fun _ hin => absurd hin List.not_mem_nil, rfl⟩
        ⟨⟨[], rfl, fun _ hin => absurd hin List.not_mem_nil⟩, (List.append_nil _).symm, rfl, rfl, rfl⟩
      generalize scanLoop v levels wanted _ _ _ = s at hended ⊢
      obtain ⟨asked, hasked, hsettled⟩ := finish_settled hready hfresh
        hmark hlru hparents (slice_store _ 1 _) ⟨rfl, rfl, rfl⟩ hended
      change answers.pages = asked ++ s.out.answers at hasked
      unfold finish finalRc at hsettled
      by_cases hfailed : (if s.out.pending then answers.written else s.out.rc) ≠ .success
      · rw [if_pos hfailed] at hsettled ⊢
        exact ⟨asked, hasked, hsettled⟩
      · rw [if_neg hfailed] at hsettled ⊢
        exact ⟨asked, hasked, hsettled⟩

/-- What priorities are asked of. -/
def watchOf (o : Options) (t : Txn) : Watch :=
  ⟨o.build, t.dirtylru, t.parents,
    255 * 2 ^ 24 / ((t.dirty.map (txnDplAge t.dirtylru)).foldl max 0 + 1)⟩

theorem spillDirty_out (o : Options) (answers : Answers) (m0 : Option Cursor) (wanted : Amount)
    (need : Nat) (sp : Spilled) (t : Txn) :
    (spillDirty o answers m0 wanted need sp t).2 = (keptTxn t m0 sp, answers.pages) ∨
    (spillDirty o answers m0 wanted need sp t).2 =
      (spillChosen answers wanted sp (watchOf o (keptTxn t m0 sp)) (keptTxn t m0 sp)).2 := by
  unfold spillDirty watchOf keptTxn
  dsimp only
  split
  · exact .inl rfl
  · refine .inr ?_
    split
    · rename_i heq
      rw [heq]
    · rfl

/-- The pages of a transaction stay in its lists if and only if each of the calls queues its page, and
a call that fails goes unmarked if and only if its queue is written. -/
theorem spillSlowpath_upheld_iff (o : Options) (answers : Answers) (t : Txn) (m0 : Option Cursor)
    (wannaSpillEntries wannaSpillNpages : Int) (need : Nat) (hready : Ready t)
    (hfresh : t.error = false) :
    (∃ asked, answers.pages = asked ++
        (spillSlowpath o answers t m0 wannaSpillEntries wannaSpillNpages need).2.2 ∧
      Settled t m0 (spillSlowpath o answers t m0 wannaSpillEntries wannaSpillNpages need).2.1 asked
        answers.written) ∧
    ∀ sp, (spillSlowpath o answers t m0 wannaSpillEntries wannaSpillNpages need).2.1.error = false →
      (spillSlowpath o answers t m0 wannaSpillEntries wannaSpillNpages need).2.1.spilled = some sp →
      ∀ ops, Removes sp ops := by
  have hempty : ∀ a ∈ ([] : List Answer), a = .queued := fun _ hin => absurd hin List.not_mem_nil
  have hstays : Settled t m0 t [] answers.written :=
    .of_upheld hready (hready.upheld_of_same (List.Perm.refl _) rfl rfl rfl) hempty rfl
      fun _ => hready.listed
  have hcall : ∃ asked, answers.pages = asked ++
        (spillSlowpath o answers t m0 wannaSpillEntries wannaSpillNpages need).2.2 ∧
      Settled t m0 (spillSlowpath o answers t m0 wannaSpillEntries wannaSpillNpages need).2.1 asked
        answers.written := by
    unfold spillSlowpath
    dsimp only
    split
    · exact ⟨[], rfl, hstays⟩
    split
    · exact ⟨[], rfl, hstays⟩
    cases hopen : openList answers t with
    | none =>
        exact ⟨[], rfl, .of_upheld hready (hready.upheld_of_same (List.Perm.refl _) rfl rfl rfl)
          hempty rfl fun _ => hready.listed⟩
    | some sp =>
        dsimp only
        have hprepared := keptTxn_prepared m0 (openList_spec hready hopen)
        rcases spillDirty_out o answers m0 _ need sp t with hout | hout
        · rw [hout]
          refine ⟨[], rfl, .of_upheld hready (hready.upheld_of_same hprepared.same
            (hprepared.opened.spilledPages rfl) hprepared.dirtyroom hprepared.pages) hempty
            hprepared.parents fun _ sp' hsome => ?_⟩
          cases hsome
          exact hprepared.opened.listed
        · rw [hout]
          exact spillChosen_settled hready hfresh hprepared rfl rfl
  refine ⟨hcall, fun sp hfine hsome ops => ?_⟩
  obtain ⟨asked, -, hsettled⟩ := hcall
  exact run_removes ops (hsettled.listed hfine sp hsome)

def smallOptions : Options := ⟨⟨false, true⟩, 8, 8, 32⟩

/-- Page 11 is on the stack of a cursor, 30 is loose and 50 is in the list of the parent. -/
def mixedTxn : Txn where
  dirtylru := 9
  dirty := [⟨20, 4, 3, false, false⟩, ⟨11, 1, 6, false, false⟩, ⟨10, 1, 5, false, false⟩,
    ⟨30, 1, 2, true, false⟩, ⟨12, 1, 1, false, false⟩, ⟨50, 1, 1, false, false⟩]
  pagesIncludingLoose := 9
  looseCount := 1
  dirtyroom := 0
  spilled := some ⟨Pnl.ofList [17, 14], 1⟩
  parents := [⟨true, some (Pnl.ofList [100])⟩]
  tables := [⟨true, true, [⟨1, [⟨11, true⟩], []⟩]⟩]
  spills := false
  error := false

theorem mixedTxn_ready : Ready mixedTxn := by
  constructor
  · decide
  · decide
  · decide
  · decide
  · intro sp hsome
    cases hsome
    constructor
    · intro i j hi hij hj
      change j ≤ 2 at hj
      have hboth : i = 1 ∧ j = 2 := by omega
      rw [hboth.1, hboth.2]
      decide
    · intro i hi hlt
      change i < 1 at hlt
      omega
    · decide
    · decide
    · decide
  · constructor
    · intro parent hin pnl hsome
      rw [List.mem_singleton.mp hin] at hsome
      cases hsome
      decide
    · intro parent _ p _ first hfirst
      cases hfirst
      rfl

theorem spillSlowpath_upheld_mixed :
    let out := spillSlowpath smallOptions ⟨true, .success, [], .success⟩ mixedTxn none 3 3 5
    out.2.1.dirty.map core = [(11, 1, false), (30, 1, true), (50, 1, false)] ∧
    spilledPages out.2.1 = [23, 22, 21, 20, 12, 10, 7] ∧ ∃ moved, Upheld mixedTxn none out.2.1 moved := by
  dsimp only
  obtain ⟨⟨asked, hasked, hsettled⟩, -⟩ := spillSlowpath_upheld_iff smallOptions
    ⟨true, .success, [], .success⟩ mixedTxn none 3 3 5 mixedTxn_ready rfl
  have hempty : asked = [] := (List.append_eq_nil_iff.mp hasked.symm).1
  have hall : ∀ a ∈ asked, a = .queued := fun a ha => absurd (hempty ▸ ha) List.not_mem_nil
  exact ⟨by decide +kernel, by decide +kernel, hsettled.upheld.mpr hall⟩

/-- A spill list for 251 pages has no room for the 2000 of a large page. -/
def largeTxn : Txn :=
  { mixedTxn with
    dirty := [⟨10, 1, 5, false, false⟩, ⟨20, 2000, 3, false, false⟩]
    pagesIncludingLoose := 2001
    looseCount := 0
    spilled := none
    parents := []
    tables := [] }

theorem largeTxn_pages :
    dirtyPages largeTxn ++ spilledPages largeTxn = 10 :: List.range' 20 2000 := by
  have hone : List.range' 10 1 = [10] := rfl
  unfold dirtyPages spilledPages largeTxn
  dsimp only
  rw [List.flatMap_cons, List.flatMap_cons, List.flatMap_nil, List.append_nil, List.append_nil]
  unfold pagesOf
  dsimp only
  rw [hone, List.singleton_append]

theorem largeTxn_ready : Ready largeTxn := by
  constructor
  · decide
  · rw [largeTxn_pages]
    refine List.nodup_cons.mpr ⟨fun hin => ?_, List.nodup_range'⟩
    have hlo := (List.mem_range'_1.mp hin).1
    omega
  · rw [largeTxn_pages, List.length_cons, List.length_range']
    decide
  · decide
  · exact fun sp hsome => nomatch hsome
  · exact ⟨fun parent hin => absurd hin List.not_mem_nil, fun parent hin => absurd hin List.not_mem_nil⟩

/-- The large page is in neither list, and the transaction goes on. -/
theorem unnoticed_page_is_lost :
    let out := spillSlowpath smallOptions
      ⟨true, .success, [.noRoom ⟨.enomem, by decide⟩], .success⟩ largeTxn none 1 1 0
    Ready largeTxn ∧ out.1 = .success ∧ out.2.1.error = false ∧ 20 ∈ dirtyPages largeTxn ∧
    20 ∉ dirtyPages out.2.1 ∧ 20 ∉ spilledPages out.2.1 ∧
    ∀ moved, ¬ Upheld largeTxn none out.2.1 moved := by
  intro out
  have hdirty : out.2.1.dirty.map core = [(10, 1, false)] := by decide +kernel
  have hspilled : spilledPages out.2.1 = [] := by decide +kernel
  have hpages : dirtyPages out.2.1 = [10] := by
    decide +kernel
  refine ⟨largeTxn_ready, by decide +kernel, by decide +kernel, ?_, ?_, ?_, fun moved hup => ?_⟩
  · refine List.mem_flatMap.mpr ⟨⟨20, 2000, 3, false, false⟩,
      List.mem_cons_of_mem _ List.mem_cons_self, ?_⟩
    unfold pagesOf
    exact List.mem_range'_1.mpr ⟨Nat.le_refl _, by decide⟩
  · rw [hpages]
    decide
  · rw [hspilled]
    exact List.not_mem_nil
  · have hlength := hup.same.length_eq
    rw [hpages, hspilled, largeTxn_pages, List.length_cons, List.length_range'] at hlength
    exact absurd hlength (by decide)

end Mdbx.Spill
