import Mdbx.Pages.Take

/-!
# Pages.Reclaim — `gc_alloc_ex` keeps the partition

The pages of the GC records that have not been reclaimed are those in hand: a pass takes a record's
pages out of them and into `repnl`.
-/

namespace Mdbx.Pages

variable {t t' : Txn} {own own' : List Nat} {e : Env} {a : Call}

/-! ## 1. The pages of the GC -/

def openRecords (t : Txn) : List Record := t.gc.filter fun r => !gcIsReclaimed t r.id

def gcPages (t : Txn) : List Nat := (openRecords t).flatMap Record.pages

theorem Moved.openRecords (h : Moved t t') : openRecords t' = openRecords t := by
  have hgarbage := h.garbage
  simp only [Txn.garbage, Prod.mk.injEq] at hgarbage
  obtain ⟨hgc, hreclaimed, hcomeback⟩ := hgarbage
  unfold Pages.openRecords gcIsReclaimed
  rw [hgc, hreclaimed, hcomeback]

theorem Moved.gcPages (h : Moved t t') : gcPages t' = gcPages t := by
  unfold Pages.gcPages
  rw [h.openRecords]

/-- The records but one. -/
theorem without_perm {l : List Record} (hids : (l.map Record.id).Nodup) {r : Record} (hr : r ∈ l) :
    l.Perm (r :: l.filter fun x => x.id ≠ r.id) := by
  induction l with
  | nil => cases hr
  | cons x l ih =>
      rw [List.map_cons, List.nodup_cons] at hids
      rcases List.mem_cons.mp hr with rfl | hmem
      · have hrest : (l.filter fun x => x.id ≠ r.id) = l := by
          refine List.filter_eq_self.mpr fun y hy => ?_
          have hne : y.id ≠ r.id := fun heq => hids.1 (heq ▸ List.mem_map_of_mem hy)
          simpa using hne
        rw [List.filter_cons_of_neg (by simp), hrest]
      · have hne : x.id ≠ r.id := fun heq => hids.1 (heq.symm ▸ List.mem_map_of_mem hmem)
        rw [List.filter_cons_of_pos (by simpa using hne)]
        exact ((ih hids.2 hmem).cons x).trans (List.Perm.swap r x _)

theorem gcPages_split (hids : ((openRecords t).map Record.id).Nodup) {r : Record}
    (hr : r ∈ openRecords t) (p : Nat) : (gcPages t).count p =
      (r.pages ++ ((openRecords t).filter fun x => x.id ≠ r.id).flatMap Record.pages).count p :=
  ((without_perm hids hr).flatMap_right Record.pages).count_eq p

/-! ## 2. Early cleaning -/

/-- The outcome of a step whose failure makes the transaction erroneous. -/
structure Tried (t : Txn) (own : List Nat) (out : Rc × Txn) : Prop where
  moved : Moved t out.2
  ok : out.1 = .success → Inv out.2 own
  some : ∃ own', Inv out.2 own'

theorem Spec.tried {out : Rc × Txn} (h : Spec t own out) : Tried t own out :=
  ⟨h.moved, fun hok => h.inv (hok ▸ rfl), h.some⟩

theorem Ended.tried {ret : Ret} (h : Ended t own ret) : Tried t own (ret.err, ret.txn) :=
  ⟨h.moved, h.ok, h.some⟩

theorem Tried.after {out : Rc × Txn} (hmoved : Moved t t') (h : Tried t' own out) :
    Tried t own out :=
  ⟨hmoved.trans h.moved, h.ok, h.some⟩

theorem step_spec (h : Inv t own) (i : Inner) : Tried t own (step e t i) := by
  unfold step
  cases i with
  | retire ask s =>
      dsimp only
      split
      next hlegal => exact (pageRetireEx_spec h hlegal.1 hlegal.2 e.dpLooseLimit).tried
      next => exact (Spec.of_inv (Moved.refl t) h).tried
  | alloc resize =>
      rcases allocSingleOr_cases
        (fun t => finish (gcCall resize) (noGc e (gcCall resize) t)) h with hspec | hother
      · exact hspec.tried
      · obtain ⟨t', hmoved, hinv, heq⟩ := hother
        obtain ⟨hmoved', hready⟩ := noGc_spec e (gcCall resize) hinv
        have hend := (finish_spec (fun _ => Nat.one_pos) hready).tried
        dsimp only
        rw [heq]
        exact (hend.after hmoved').after hmoved

theorem steps_spec (l : List Inner) (h : Inv t own) : Tried t own (steps e l t) ∧
    ((steps e l t).1 = .success ∨ (steps e l t).2.error = true) := by
  induction l generalizing t with
  | nil => exact ⟨(Spec.of_inv (Moved.refl t) h).tried, .inl rfl⟩
  | cons i l ih =>
      have hstep : Tried t own (step e t i) := step_spec h i
      unfold steps
      split
      next t' heq =>
        rw [heq] at hstep
        obtain ⟨htried, hend⟩ := ih (hstep.ok rfl)
        exact ⟨htried.after hstep.moved, hend⟩
      next rc t' hne heq =>
        rw [heq] at hstep
        obtain ⟨own', hinv⟩ := hstep.some
        exact ⟨⟨hstep.moved.trans (Moved.of_eq rfl rfl rfl rfl), fun hok => absurd hok hne,
          own', hinv.same rfl rfl rfl rfl⟩, .inr rfl⟩

/-- What an early cleaning leaves of the record. -/
structure Cleaned (t : Txn) (own : List Nat) (r : Record) (out : (Rc × Bool) × Txn) : Prop where
  kept : Kept t out.2
  done : out.1 = (.success, true) → Inv out.2 own ∧
    openRecords out.2 = (openRecords t).filter fun x => x.id ≠ r.id
  left : out.1 = (.success, false) → Inv out.2 own ∧ Moved t out.2
  failed : out.1.1 ≠ .success → out.2.error = true
  some : ∃ own', Inv out.2 own'

theorem openRecords_clean (t : Txn) (r : Record) {gcHeight gcBranchPages : Nat} :
    openRecords { t with
      gc := t.gc.filter fun x => x.id ≠ r.id
      gcHeight := gcHeight
      gcBranchPages := gcBranchPages } = (openRecords t).filter fun x => x.id ≠ r.id := by
  show List.filter _ (List.filter _ t.gc) = List.filter _ (List.filter _ t.gc)
  rw [List.filter_filter, List.filter_filter]
  exact List.filter_congr fun x _ => Bool.and_comm _ _

theorem earlyClean_spec (h : Inv t own) (clean : Clean) (r : Record) :
    Cleaned t own r (earlyClean e clean r t) := by
  have hsteps : Tried t own (steps e clean.inner t) ∧ _ := steps_spec clean.inner h
  obtain ⟨htried, hend⟩ := hsteps
  unfold earlyClean
  split
  next t' heq =>
    rw [heq] at htried
    have hinv := htried.ok rfl
    have hopen := htried.moved.openRecords
    split_ifs with hrc herror
    · refine ⟨⟨htried.moved.fixed, htried.moved.retired, htried.moved.frozen⟩, fun _ => ⟨?_, ?_⟩,
        fun hleft => Bool.noConfusion (congrArg Prod.snd hleft), fun hne => absurd rfl hne, own, ?_⟩
      · exact hinv.same rfl rfl rfl rfl
      · exact (openRecords_clean t' r).trans (by rw [hopen])
      · exact hinv.same rfl rfl rfl rfl
    · exact ⟨⟨htried.moved.fixed, htried.moved.retired, htried.moved.frozen⟩,
        fun hdone => absurd (congrArg Prod.fst hdone) hrc,
        fun hleft => absurd (congrArg Prod.fst hleft) hrc, fun _ => rfl,
        own, hinv.same rfl rfl rfl rfl⟩
    · exact ⟨htried.moved.toKept, fun hdone => (Bool.noConfusion (congrArg Prod.snd hdone)),
        fun _ => ⟨hinv, htried.moved⟩, fun hne => absurd rfl hne, own, hinv⟩
  next rc t' hne heq =>
    rw [heq] at htried hend
    exact ⟨htried.moved.toKept, fun hdone => absurd (congrArg Prod.fst hdone) hne,
      fun hleft => absurd (congrArg Prod.fst hleft) hne, fun _ => hend.resolve_left hne,
      htried.some⟩

/-! ## 3. A record is taken -/

theorem Inv.merged {l : List Nat} (h : Inv t (l ++ own)) (hdesc : l.Pairwise fun p q => q ≤ p) :
    Inv { t with repnl := pnlMerge t.repnl l } own :=
  { h with
    tiles := by
      refine h.tiles.congr fun p => ?_
      simp only [Txn.pages, List.count_append]
      rw [count_pnlMerge]
      omega
    desc := pnlMerge_desc h.desc hdesc
    clean := h.clean }

theorem openRecords_reclaim (t : Txn) (r : Record) :
    openRecords { t with reclaimed := r.id :: t.reclaimed } =
      (openRecords t).filter fun x => x.id ≠ r.id := by
  unfold openRecords gcIsReclaimed
  rw [List.filter_filter]
  refine List.filter_congr fun x _ => ?_
  by_cases hx : x.id = r.id
  · simp [hx]
  · simp [hx]

/-- What is left of a record when its pages have been taken. -/
structure Taken (t : Txn) (own : List Nat) (r : Record) (out : Rc × Txn) : Prop where
  kept : Kept t out.2
  ok : out.1 = .success → Inv out.2 own ∧
    openRecords out.2 = (openRecords t).filter fun x => x.id ≠ r.id
  failed : out.1 ≠ .success → lossy out.1 = true ∨ out.2.error = true
  some : ∃ own', Inv out.2 own'

theorem Taken.of_lossy {r : Record} {rc : Rc} (hrc : lossy rc = true) (hkept : Kept t t')
    (h : Inv t' own') : Taken t own r (rc, t') where
  kept := hkept
  ok := by
    intro hok
    dsimp only at hok
    rw [hok] at hrc
    cases hrc
  failed := fun _ => .inl hrc
  some := ⟨own', h⟩

theorem pushRecord_spec {r : Record} {done : Bool} (hkept : Kept t t') (h : Inv t' own)
    (hdone : done = true → openRecords t' = (openRecords t).filter fun x => x.id ≠ r.id)
    (hleft : done = false → openRecords t' = openRecords t) :
    Taken t own r (pushRecord r done t') := by
  obtain ⟨a, t'', hneed, h''⟩ := need_answered h
  have hkept' := hkept.trans h''.moved.toKept
  have hopen := h''.moved.openRecords
  unfold pushRecord
  rw [hneed]
  cases a with
  | room =>
      cases done with
      | true =>
          refine ⟨⟨hkept'.fixed, hkept'.retired, hkept'.frozen⟩, fun _ => ⟨?_, ?_⟩,
            fun hne => absurd rfl hne, own, ?_⟩
          · exact h''.inv.same rfl rfl rfl rfl
          · exact hopen.trans (hdone rfl)
          · exact h''.inv.same rfl rfl rfl rfl
      | false =>
          refine ⟨⟨hkept'.fixed, hkept'.retired, hkept'.frozen⟩, fun _ => ⟨?_, ?_⟩,
            fun hne => absurd rfl hne, own, ?_⟩
          · exact h''.inv.same rfl rfl rfl rfl
          · exact (openRecords_reclaim t'' r).trans (by rw [hopen, hleft rfl])
          · exact h''.inv.same rfl rfl rfl rfl
  | noMemory => exact Taken.of_lossy rfl hkept' h''.inv
  | full => exact Taken.of_lossy rfl hkept' h''.inv

theorem mergeRecord_spec {r : Record} (h : Inv t (r.pages ++ own))
    (hdesc : r.pages.Pairwise fun p q => q ≤ p) :
    Inv (mergeRecord r t) own ∧ Moved t (mergeRecord r t) := by
  have hmoved : Moved t { t with repnl := pnlMerge t.repnl r.pages } :=
    Moved.of_eq rfl rfl rfl rfl
  exact ⟨(h.merged hdesc).refundAtTail, hmoved.trans (Moved.refundAtTail _)⟩

theorem cleanRecord_spec (h : Inv t own) (clean : Clean) (r : Record) :
    Cleaned t own r (cleanRecord e a clean r t) := by
  unfold cleanRecord
  split
  · exact earlyClean_spec h clean r
  · exact ⟨Kept.refl t, fun hdone => Bool.noConfusion (congrArg Prod.snd hdone),
      fun _ => ⟨h, Moved.refl t⟩, fun hne => absurd rfl hne, own, h⟩

theorem takeRecord_spec {r : Record} (h : Inv t (r.pages ++ own))
    (hdesc : r.pages.Pairwise fun p q => q ≤ p) (clean : Clean) :
    Taken t own r (takeRecord e a clean r t) := by
  obtain ⟨answer, t', hneed, h'⟩ := need_answered h
  unfold takeRecord
  rw [hneed]
  cases answer with
  | room =>
      obtain ⟨hmerged, hmoved⟩ := mergeRecord_spec h'.inv hdesc
      have hbefore := h'.moved.trans hmoved
      have hopen := hbefore.openRecords
      have hclean : Cleaned (mergeRecord r t') own r (cleanRecord e a clean r (mergeRecord r t')) :=
        cleanRecord_spec hmerged clean r
      dsimp only
      split
      next done t'' heq =>
        rw [heq] at hclean
        have hkept := hbefore.toKept.trans hclean.kept
        cases done with
        | true =>
            obtain ⟨hinv, hrecords⟩ := hclean.done rfl
            exact pushRecord_spec hkept hinv (fun _ => hrecords.trans (by rw [hopen]))
              (fun hno => Bool.noConfusion hno)
        | false =>
            obtain ⟨hinv, hstill⟩ := hclean.left rfl
            exact pushRecord_spec hkept hinv (fun hno => Bool.noConfusion hno)
              (fun _ => hstill.openRecords.trans hopen)
      next rc done t'' hne heq =>
        rw [heq] at hclean
        exact ⟨hbefore.toKept.trans hclean.kept, fun hok => absurd hok hne,
          fun hrc => .inr (hclean.failed hrc), hclean.some⟩
  | noMemory => exact Taken.of_lossy rfl h'.moved.toKept h'.inv
  | full => exact Taken.of_lossy rfl h'.moved.toKept h'.inv

/-! ## 4. Passes over the GC -/

def Ids (t : Txn) : Prop := ((openRecords t).map Record.id).Nodup

/-- A failure after which the transaction is to be aborted. -/
def Fatal (o : Outcome) (t : Txn) : Prop :=
  ∃ rc, o = .failed rc ∧ (lossy rc = true ∨ t.error = true)

/-- The outcome of a pass. -/
structure Passed (a : Call) (t : Txn) (p : Pass) : Prop where
  kept : Kept t p.txn
  ready : ∀ o, p.outcome = some o →
    Ready a (gcPages p.txn) o p.txn ∧ (Fatal o p.txn ∨ Ids p.txn)
  depleted : p.outcome = none → Inv p.txn (gcPages p.txn) ∧ Ids p.txn

theorem Passed.after {p : Pass} (hkept : Kept t t') (h : Passed a t' p) : Passed a t p :=
  ⟨hkept.trans h.kept, h.ready, h.depleted⟩

theorem Moved.ids (h : Moved t t') (hids : Ids t) : Ids t' := by
  unfold Ids
  rw [h.openRecords]
  exact hids

theorem Passed.of_outcome (hids : Ids t) (hmoved : Moved t t') {o : Outcome}
    (hready : Ready a (gcPages t) o t') (coalesce : Bool) :
    Passed a t ⟨some o, coalesce, t'⟩ where
  kept := hmoved.toKept
  ready := by
    intro o' ho
    rw [hmoved.gcPages, ← Option.some.inj ho]
    exact ⟨hready, .inr (hmoved.ids hids)⟩
  depleted := fun hno => nomatch hno

theorem Passed.of_depleted (h : Inv t (gcPages t)) (hids : Ids t) (coalesce : Bool) :
    Passed a t ⟨none, coalesce, t⟩ :=
  ⟨Kept.refl t, fun _ ho => (nomatch ho), fun _ => ⟨h, hids⟩⟩

theorem Ready.of_failed {rc : Rc} (hrc : rc ≠ .success) (h : Inv t own) :
    Ready a own (.failed rc) t :=
  ⟨hrc, fun _ _ => h, own, h⟩

theorem repnlTake_ready (hnum : a.reserve = false → 0 < a.num) (h : Inv t own) {pgno : Nat}
    (hout : repnlTake a t = some (pgno, t')) : Moved t t' ∧ Ready a own (.found pgno) t' := by
  obtain ⟨hmoved, hreserve, htaken⟩ := repnlTake_spec h hnum hout
  refine ⟨hmoved, fun hr => ?_, htaken⟩
  rw [hreserve hr]
  exact h

theorem scan_spec (hnum : a.reserve = false → 0 < a.num) (h : Inv t (gcPages t)) (hids : Ids t)
    (coalesce : Bool) : Passed a t ⟨(scan a t).1, coalesce, (scan a t).2⟩ := by
  unfold scan
  split
  · exact Passed.of_outcome hids (Moved.refl t) (show Ready a _ (.reserved .success) t from h)
      coalesce
  · split
    next pgno t' htake =>
      obtain ⟨hmoved, hready⟩ := repnlTake_ready hnum h htake
      exact Passed.of_outcome hids hmoved hready coalesce
    next => exact Passed.of_depleted h hids coalesce

theorem depletedGc_spec (hnum : a.reserve = false → 0 < a.num) (h : Inv t (gcPages t))
    (hids : Ids t) (coalesce shouldScan : Bool) :
    Passed a t (depletedGc a coalesce shouldScan t) := by
  have h' : Inv { t with drained := true } (gcPages t) := h.same rfl rfl rfl rfl
  have hmoved : Moved t { t with drained := true } := Moved.of_eq rfl rfl rfl rfl
  unfold depletedGc
  cases shouldScan with
  | true => exact (scan_spec hnum h' hids coalesce).after hmoved.toKept
  | false => exact (Passed.of_depleted h' hids coalesce).after hmoved.toKept

theorem desc_of_pnlCheck {l : List Nat} {limit : Nat} (h : pnlCheck e l limit = true) :
    l.Pairwise fun p q => q ≤ p := by
  unfold pnlCheck at h
  exact (of_decide_eq_true h).2.2.imp fun hlt => Nat.le_of_lt hlt

/-- The pages of a record come into `repnl`, and the record is no more among the open ones. -/
theorem takeRecord_gcPages {r : Record} (h : Inv t (gcPages t)) (hids : Ids t)
    (hr : r ∈ openRecords t) (hdesc : r.pages.Pairwise fun p q => q ≤ p) (clean : Clean) :
    Taken t (((openRecords t).filter fun x => x.id ≠ r.id).flatMap Record.pages) r
      (takeRecord e a clean r t) :=
  takeRecord_spec (h.own_congr fun p => (gcPages_split hids hr p).symm) hdesc clean

/-- The outcome of a visit. -/
def Visited (a : Call) (r : Record) (t : Txn) : Visit → Prop
  | .stop p => Passed a t p
  | .next _ _ t' => Kept t t' ∧ Inv t' (gcPages t') ∧
      openRecords t' = (openRecords t).filter fun x => x.id ≠ r.id

theorem Ids.filter (hids : Ids t) {q : Record → Bool}
    (hopen : openRecords t' = (openRecords t).filter q) : Ids t' := by
  unfold Ids
  rw [hopen]
  exact hids.sublist (List.filter_sublist.map Record.id)

theorem collect_spec (hnum : a.reserve = false → 0 < a.num) {r : Record} (h : Inv t (gcPages t))
    (hids : Ids t) (hr : r ∈ openRecords t) (hdesc : r.pages.Pairwise fun p q => q ≤ p)
    (clean : Clean) (coalesce : Bool) : Visited a r t (collect e a clean r coalesce t) := by
  have htaken : Taken t _ r (takeRecord e a clean r t) := takeRecord_gcPages h hids hr hdesc clean
  unfold collect
  split
  next t' heq =>
    rw [heq] at htaken
    obtain ⟨hinv, hopen⟩ := htaken.ok rfl
    have hinv' : Inv t' (gcPages t') := by
      unfold gcPages
      rw [hopen]
      exact hinv
    have hids' := hids.filter hopen
    dsimp only
    split
    · exact ⟨htaken.kept, hinv', hopen⟩
    · have hscan := scan_spec hnum hinv' hids' false
      split
      next outcome t'' hfound =>
        rw [hfound] at hscan
        exact hscan.after htaken.kept
      next t'' hnone =>
        rw [hnone] at hscan
        have hsame : t'' = t' := by
          unfold scan at hnone
          split at hnone
          · cases hnone
          · split at hnone
            · cases hnone
            · exact (Prod.mk.inj hnone).2.symm
        split
        · obtain ⟨hd, hdids⟩ := hscan.depleted rfl
          exact (depletedGc_spec hnum hd hdids false false).after
            (htaken.kept.trans hscan.kept)
        · rw [hsame]
          exact ⟨htaken.kept, hinv', hopen⟩
  next rc t' hne heq =>
    rw [heq] at htaken
    refine ⟨htaken.kept, fun o ho => ?_, fun hno => (nomatch hno)⟩
    have hfatal := htaken.failed hne
    rw [← Option.some.inj ho]
    refine ⟨⟨hne, fun hrc herror => ?_, htaken.some⟩, .inl ⟨rc, rfl, hfatal⟩⟩
    rcases hfatal with hlossy | hset
    · exact absurd (hlossy.symm.trans hrc) (by decide)
    · exact absurd (hset.symm.trans herror) (by decide)

theorem visitRecord_spec (hnum : a.reserve = false → 0 < a.num) {r : Record}
    (h : Inv t (gcPages t)) (hids : Ids t) (hr : r ∈ openRecords t)
    (hdesc : r.pages.Pairwise fun p q => q ≤ p) (row : Row) (coalesce shouldScan : Bool) :
    Visited a r t (visitRecord e a row r coalesce shouldScan t) := by
  unfold visitRecord
  split
  next pgno t' htake =>
    split at htake
    · obtain ⟨hmoved, hready⟩ := repnlTake_ready hnum h htake
      exact Passed.of_outcome hids hmoved hready coalesce
    · cases htake
  next =>
    dsimp only
    split
    · exact depletedGc_spec hnum h hids _ false
    · exact collect_spec hnum h hids hr hdesc row.clean _

theorem Visited.after {r : Record} {v : Visit} (hmoved : Moved t t') (h : Visited a r t' v) :
    Visited a r t v := by
  cases v with
  | stop p => exact Passed.after hmoved.toKept h
  | next coalesce shouldScan t'' =>
      exact ⟨hmoved.toKept.trans h.1, h.2.1, h.2.2.trans (by rw [hmoved.openRecords])⟩

theorem visit_spec (hnum : a.reserve = false → 0 < a.num) {r : Record} (h : Inv t (gcPages t))
    (hids : Ids t) (hr : r ∈ openRecords t) (row : Row) (coalesce shouldScan : Bool) :
    Visited a r t (visit e a row r coalesce shouldScan t) := by
  have h' : Inv { t with drained := false } (gcPages t) := h.same rfl rfl rfl rfl
  have hmoved : Moved t { t with drained := false } := Moved.of_eq rfl rfl rfl rfl
  unfold visit
  dsimp only
  split
  next hseek => exact Passed.of_outcome hids (Moved.refl t) (Ready.of_failed hseek h) coalesce
  next =>
    split
    next hread => exact Passed.of_outcome hids hmoved (Ready.of_failed hread h') coalesce
    next =>
      split
      next => exact Passed.of_outcome hids hmoved (Ready.of_failed (by decide) h') coalesce
      next hcheck =>
        split
        next =>
          exact Passed.of_outcome hids hmoved (show Ready a _ (.reserved .notFound) _ from h')
            coalesce
        next =>
          have hdesc := desc_of_pnlCheck (by simpa using hcheck)
          exact Visited.after hmoved (visitRecord_spec hnum h' hids hr hdesc row _ _)

theorem pass_spec (hnum : a.reserve = false → 0 < a.num) (rows : Nat → Row) (rs : List Record)
    (hrs : ∀ r ∈ rs, r ∈ openRecords t) (hdistinct : (rs.map Record.id).Nodup)
    (h : Inv t (gcPages t)) (hids : Ids t) (coalesce shouldScan : Bool) :
    Passed a t (pass e a rows rs coalesce shouldScan t) := by
  induction rs generalizing t coalesce shouldScan with
  | nil => exact depletedGc_spec hnum h hids coalesce shouldScan
  | cons r rest ih =>
      rw [List.map_cons, List.nodup_cons] at hdistinct
      have hvisit : Visited a r t (visit e a (rows r.id) r coalesce shouldScan t) :=
        visit_spec hnum h hids (hrs r List.mem_cons_self) (rows r.id) coalesce shouldScan
      unfold pass
      split
      next p heq =>
        rw [heq] at hvisit
        exact hvisit
      next coalesce' shouldScan' t' heq =>
        rw [heq] at hvisit
        obtain ⟨hkept, hinv, hopen⟩ := hvisit
        refine (ih (fun x hx => ?_) hdistinct.2 hinv (hids.filter hopen) _ _).after hkept
        have hne : x.id ≠ r.id := fun heq => hdistinct.1 (heq ▸ List.mem_map_of_mem hx)
        rw [hopen]
        exact List.mem_filter.mpr ⟨hrs x (List.mem_cons_of_mem r hx), by simpa using hne⟩

/-! ## 5. `gc_alloc_ex` and `gc_alloc_single` -/

theorem candidates_open (e : Env) (t : Txn) (detent : Nat) (hids : Ids t) :
    (∀ r ∈ candidates e t detent, r ∈ openRecords t) ∧
      ((candidates e t detent).map Record.id).Nodup := by
  have hopen : (t.gc.filter fun r => decide (r.id ≤ detent ∧ (!gcIsReclaimed t r.id) = true)) =
      (openRecords t).filter fun r => r.id ≤ detent := by
    unfold openRecords
    rw [List.filter_filter]
    exact List.filter_congr fun r _ => by simp [Bool.decide_and]
  have hsub : ∀ l : List Record, l.Sublist (openRecords t) →
      (∀ r ∈ l, r ∈ openRecords t) ∧ (l.map Record.id).Nodup := fun l hl =>
    ⟨fun _ hr => hl.subset hr, hids.sublist (hl.map Record.id)⟩
  unfold candidates
  dsimp only
  rw [hopen]
  split
  · obtain ⟨hmem, hnodup⟩ := hsub _ List.filter_sublist
    refine ⟨fun r hr => hmem r (List.mem_reverse.mp hr), ?_⟩
    rw [List.map_reverse]
    exact List.nodup_reverse.mpr hnodup
  · exact hsub _ (List.filter_sublist.trans List.filter_sublist)

theorem round_spec (hnum : a.reserve = false → 0 < a.num) (r : Round) (h : Inv t (gcPages t))
    (hids : Ids t) (coalesce : Bool) : Passed a t (round e a r coalesce t) := by
  obtain ⟨hopen, hdistinct⟩ := candidates_open e t r.detent hids
  unfold round
  split
  · exact Passed.of_outcome hids (Moved.refl t) (Ready.of_failed (by decide) h) coalesce
  · exact pass_spec hnum r.rows _ hopen hdistinct h hids coalesce false

/-- The outcome of the search of the GC. -/
structure Searched (a : Call) (t : Txn) (out : Outcome × Txn) : Prop where
  kept : Kept t out.2
  ready : Ready a (gcPages out.2) out.1 out.2
  ids : Fatal out.1 out.2 ∨ Ids out.2

theorem Searched.after {out : Outcome × Txn} (hkept : Kept t t') (h : Searched a t' out) :
    Searched a t out :=
  ⟨hkept.trans h.kept, h.ready, h.ids⟩

theorem noGc_searched (h : Inv t (gcPages t)) (hids : Ids t) : Searched a t (noGc e a t) := by
  obtain ⟨hmoved, hready⟩ := noGc_spec e a h
  exact ⟨hmoved.toKept, hmoved.gcPages ▸ hready, .inr (hmoved.ids hids)⟩

theorem afterGc_spec (r : Round) (h : Inv t (gcPages t)) (hids : Ids t) :
    Searched a t (afterGc e a r t) := by
  unfold afterGc
  split_ifs with hsteady
  · exact ⟨Kept.refl t, Ready.of_failed (by simpa using hsteady.2) h, .inr hids⟩
  · exact ⟨Kept.refl t, h, .inr hids⟩
  · exact noGc_searched h hids

theorem Passed.searched {p : Pass} {o : Outcome} (h : Passed a t p) (ho : p.outcome = some o) :
    Searched a t (o, p.txn) :=
  ⟨h.kept, (h.ready o ho).1, (h.ready o ho).2⟩

theorem rounds_spec (hnum : a.reserve = false → 0 < a.num) (rs : Rounds) (h : Inv t (gcPages t))
    (hids : Ids t) (coalesce : Bool) : Searched a t (rounds e a rs coalesce t) := by
  induction rs generalizing t coalesce with
  | last r =>
      have hround : Passed a t (round e a r coalesce t) := round_spec hnum r h hids coalesce
      unfold rounds
      split
      next heq =>
        rw [heq] at hround
        exact hround.searched rfl
      next heq =>
        rw [heq] at hround
        obtain ⟨hinv, hids'⟩ := hround.depleted rfl
        exact (afterGc_spec r hinv hids').after hround.kept
  | again r why rest ih =>
      have hround : Passed a t (round e a r coalesce t) := round_spec hnum r h hids coalesce
      unfold rounds
      split
      next heq =>
        rw [heq] at hround
        exact hround.searched rfl
      next heq =>
        rw [heq] at hround
        obtain ⟨hinv, hids'⟩ := hround.depleted rfl
        split
        · exact (ih hinv hids' _).after hround.kept
        · exact (afterGc_spec r hinv hids').after hround.kept

/-- The outcome of an operation on the page sets. -/
structure Result (t : Txn) (rc : Rc) (t' : Txn) : Prop where
  kept : Kept t t'
  ok : lossy rc = false → t'.error = false → Inv t' (gcPages t') ∧ Ids t'
  some : ∃ own, Inv t' own

theorem Ended.result {ret : Ret} (hids : Ids t) (h : Ended t (gcPages t) ret) :
    Result t ret.err ret.txn :=
  ⟨h.moved.toKept, fun hrc herror => ⟨h.moved.gcPages ▸ h.inv hrc herror, h.moved.ids hids⟩,
    h.some⟩

theorem Spec.result {out : Rc × Txn} (hids : Ids t) (h : Spec t (gcPages t) out) :
    Result t out.1 out.2 :=
  ⟨h.moved.toKept, fun hrc _ => ⟨h.moved.gcPages ▸ h.inv hrc, h.moved.ids hids⟩, h.some⟩

theorem Result.after {rc : Rc} {t'' : Txn} (hkept : Kept t t') (h : Result t' rc t'') :
    Result t rc t'' :=
  ⟨hkept.trans h.kept, h.ok, h.some⟩

theorem allocFail_error {rc : Rc} (herror : t.error = true) : (allocFail a rc t).txn.error = true := by
  unfold allocFail
  dsimp only
  rw [if_pos herror]
  split
  · exact herror
  · rfl

theorem Searched.finish {out : Outcome × Txn} (hnum : a.reserve = false → 0 < a.num)
    (h : Searched a t out) : Result t (finish a out).err (finish a out).txn := by
  have hend := finish_spec hnum h.ready
  refine Result.after h.kept ?_
  rcases h.ids with hfatal | hids
  · obtain ⟨rc, ho, hfatal⟩ := hfatal
    refine ⟨hend.moved.toKept, fun hrc herror => ?_, hend.some⟩
    obtain ⟨o, t'⟩ := out
    dsimp only at ho hfatal
    subst ho
    rcases hfatal with hlossy | hset
    · exact absurd (hlossy.symm.trans hrc) (by decide)
    · exact absurd ((allocFail_error hset).symm.trans herror) (by decide)
  · exact hend.result hids

theorem gcAllocEx_spec (hnum : a.reserve = false → 0 < a.num) (h : Inv t (gcPages t))
    (hids : Ids t) : Result t (gcAllocEx e a t).err (gcAllocEx e a t).txn := by
  unfold gcAllocEx
  split
  next pgno t' htake =>
    split at htake
    · obtain ⟨hmoved, hready⟩ := repnlTake_ready hnum h htake
      have hend := finish_spec hnum hready
      exact Result.after hmoved.toKept ((hmoved.gcPages ▸ hend).result (hmoved.ids hids))
    · cases htake
  next =>
    have hreclaimable : Inv (isReclaimable a t).2 (gcPages (isReclaimable a t).2) ∧
        Moved t (isReclaimable a t).2 := by
      unfold isReclaimable
      split_ifs
      · exact ⟨h, Moved.refl t⟩
      · exact ⟨h.same rfl rfl rfl rfl, Moved.of_eq rfl rfl rfl rfl⟩
      · exact ⟨h, Moved.refl t⟩
    split
    next t' heq =>
      rw [heq] at hreclaimable
      obtain ⟨hinv, hmoved⟩ := hreclaimable
      exact ((noGc_searched hinv (hmoved.ids hids)).finish hnum).after hmoved.toKept
    next t' heq =>
      rw [heq] at hreclaimable
      obtain ⟨hinv, hmoved⟩ := hreclaimable
      exact ((rounds_spec hnum a.rounds hinv (hmoved.ids hids) _).finish hnum).after hmoved.toKept

theorem gcAllocSingle_spec (h : Inv t (gcPages t)) (hids : Ids t) :
    Result t (gcAllocSingle e a t).err (gcAllocSingle e a t).txn := by
  unfold gcAllocSingle
  rcases allocSingleOr_cases
    (gcAllocEx e { a with num := 1, reserve := false, unimportant := false }) h with hspec | hother
  · exact hspec.result hids
  · obtain ⟨t', hmoved, hinv, heq⟩ := hother
    rw [heq]
    exact (gcAllocEx_spec (fun _ => Nat.one_pos) (hmoved.gcPages ▸ hinv)
      (hmoved.ids hids)).after hmoved.toKept

end Mdbx.Pages
