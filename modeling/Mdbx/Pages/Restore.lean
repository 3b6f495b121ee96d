import Mdbx.Pages.Nested

/-!
# Pages.Restore — an aborted nested transaction leaves its parent as it was

What a nested transaction does to the list of retired pages is to append to it, so that the former
length is enough to give the list back.  The steps of `nested_start` move loose pages of the parent to
`repnl` and change nothing else of its lists, up to whatever allocation fails.
-/

namespace Mdbx.Pages

variable {e : Env} {t t' t'' : Txn}

/-! ## 1. The retired pages only grow -/

def Grows (t t' : Txn) : Prop := t.retired <+: t'.retired

theorem Grows.refl (t : Txn) : Grows t t := List.prefix_rfl

theorem Grows.of_eq (h : t'.retired = t.retired) : Grows t t' := by
  unfold Grows
  rw [h]

theorem Grows.trans (h : Grows t t') (h' : Grows t' t'') : Grows t t'' :=
  List.IsPrefix.trans h h'

@[simp] theorem need_retired (t : Txn) : (need t).2.retired = t.retired := by
  unfold need
  split <;> rfl

@[simp] theorem txnDplSort_retired (t : Txn) : (txnDplSort t).retired = t.retired := by
  unfold txnDplSort
  split <;> rfl

@[simp] theorem txnDplSearch_retired (t : Txn) : (txnDplSearch t).retired = t.retired := by
  unfold txnDplSearch
  split
  · rfl
  · exact txnDplSort_retired t

@[simp] theorem refundSuitable_retired (t : Txn) : (refundSuitable t).retired = t.retired := by
  unfold refundSuitable
  simp only
  split <;> rfl

@[simp] theorem refundSorted_retired (t : Txn) : (refundSorted t).retired = t.retired := by
  unfold refundSorted
  simp only
  split
  · exact txnDplSort_retired t
  · exact txnDplSort_retired t

@[simp] theorem suitableRoom_retired (t : Txn) : (suitableRoom t).2.retired = t.retired := by
  unfold suitableRoom
  split
  · exact need_retired t
  · rfl

@[simp] theorem refundLoose_retired (t : Txn) : (refundLoose t).retired = t.retired := by
  unfold refundLoose
  split
  · simp only
    split
    · exact (refundSuitable_retired _).trans (suitableRoom_retired t)
    · exact suitableRoom_retired t
  · exact refundSorted_retired t

@[simp] theorem refundLoop_retired (fuel : Nat) (t : Txn) :
    (refundLoop fuel t).retired = t.retired := by
  induction fuel generalizing t with
  | zero => rfl
  | succ fuel ih =>
    unfold refundLoop
    by_cases htail : atTail t
    · rw [if_pos htail]
      simp only
      by_cases hwaits : looseWaits (refundReclaimed t)
      · rw [if_pos hwaits]
        split
        · exact refundLoose_retired _
        · exact (ih _).trans (refundLoose_retired _)
      · rw [if_neg hwaits]
        rfl
    · rw [if_neg htail]

@[simp] theorem txnRefund_retired (t : Txn) : (txnRefund t).retired = t.retired := by
  unfold txnRefund
  simp only [refundLoop_retired]
  split
  · exact refundLoose_retired t
  · rfl

@[simp] theorem refundAtTail_retired (t : Txn) : (refundAtTail t).retired = t.retired := by
  unfold refundAtTail
  split
  · exact txnRefund_retired t
  · rfl

theorem need_cases (t : Txn) : ∃ a t', need t = (a, t') ∧ t'.retired = t.retired :=
  ⟨(need t).1, (need t).2, rfl, need_retired t⟩

theorem retire_grows (t : Txn) (s : Span) : Grows t (retire t s).2 := by
  obtain ⟨a, t', hneed, heq⟩ := need_cases t
  unfold retire
  rw [hneed]
  unfold Grows
  cases a with
  | room => exact ⟨_, congrArg (· ++ _) heq.symm⟩
  | noMemory => exact Grows.of_eq heq
  | full => exact Grows.of_eq heq

theorem reclaim_retired (t : Txn) (s : Span) : (reclaim t s).2.retired = t.retired := by
  obtain ⟨a, t', hneed, heq⟩ := need_cases t
  unfold reclaim
  rw [hneed]
  cases a with
  | room => exact (refundAtTail_retired _).trans heq
  | noMemory => exact (refundAtTail_retired _).trans heq
  | full => exact (refundAtTail_retired _).trans heq

theorem refundPage_retired (t : Txn) (status : Status) (si : Bool) (s : Span) :
    (refundPage t status si s).retired = t.retired := by
  unfold refundPage
  simp only [txnRefund_retired]
  split_ifs <;> rfl

theorem retireOwn_grows (t : Txn) (dpLooseLimit : Nat) (status : Status) (si : Bool) (s : Span) :
    Grows t (retireOwn t dpLooseLimit status si s).2 := by
  unfold retireOwn
  simp only
  split_ifs
  · exact Grows.of_eq rfl
  · exact Grows.of_eq (reclaim_retired _ s)
  · exact retire_grows { t with spilled := spillRemove t.spilled s.pgno s.npages } s
  · exact Grows.of_eq (reclaim_retired _ s)
  · exact Grows.of_eq (reclaim_retired t s)
  · exact retire_grows t s

theorem retireBy_grows (t : Txn) (dpLooseLimit : Nat) (status : Status) (s : Span) :
    Grows t (retireBy t dpLooseLimit status s).2 := by
  unfold retireBy
  simp only
  split_ifs
  · exact retire_grows t s
  · exact Grows.of_eq (refundPage_retired t status _ s)
  · exact retireOwn_grows t dpLooseLimit status _ s

theorem pageRetireEx_grows (dpLooseLimit : Nat) (t : Txn) (ask : Ask) (s : Span) :
    Grows t (pageRetireEx dpLooseLimit t ask s).2 := by
  have hfound : ∀ status,
      Grows t (retireBy (if searchesDirty t s ask then txnDplSearch t else t) dpLooseLimit status
        s).2 := by
    intro status
    apply Grows.trans _ (retireBy_grows _ dpLooseLimit status s)
    split
    · exact Grows.of_eq (txnDplSearch_retired t)
    · exact Grows.refl t
  unfold pageRetireEx
  split
  · exact hfound _
  · exact hfound _
  · exact hfound _
  · exact hfound _
  · exact Grows.refl t

theorem txnDplAppend_retired (t : Txn) (x : Item) : (txnDplAppend t x).2.retired = t.retired := by
  obtain ⟨a, t', hneed, heq⟩ := need_cases t
  unfold txnDplAppend
  rw [hneed]
  cases a with
  | room =>
    simp only
    split_ifs <;> exact heq
  | noMemory => exact heq
  | full => exact heq

theorem dirtyAppend_retired (t : Txn) (pgno npages : Nat) :
    (dirtyAppend t pgno npages).2.retired = t.retired := by
  have happend := txnDplAppend_retired t ⟨pgno, npages, false⟩
  unfold dirtyAppend
  generalize txnDplAppend t ⟨pgno, npages, false⟩ = out at happend
  obtain ⟨rc, t'⟩ := out
  cases rc <;> exact happend

theorem purgeLoose_retired (t : Txn) (lp : Nat) (rest : List Nat) :
    (purgeLoose t lp rest).2.retired = t.retired := by
  obtain ⟨a, t', hneed, heq⟩ := need_cases t
  unfold purgeLoose
  rw [hneed]
  cases a with
  | room =>
    show (refundAtTail (purged (txnDplSearch t') lp rest)).retired = _
    rw [refundAtTail_retired]
    exact (txnDplSearch_retired t').trans heq
  | noMemory => exact heq
  | full => exact heq

theorem pageDirty_retired (t : Txn) (pgno npages : Nat) :
    (pageDirty t pgno npages).2.retired = t.retired := by
  unfold pageDirty
  split
  · split
    · rfl
    · rename_i lp rest _
      have hpurge := purgeLoose_retired t lp rest
      generalize purgeLoose t lp rest = out at hpurge
      obtain ⟨rc, t'⟩ := out
      cases rc <;> first
        | exact (dirtyAppend_retired t' pgno npages).trans hpurge
        | exact hpurge
  · exact dirtyAppend_retired t pgno npages

theorem gcMergeLoose_grows (t : Txn) (gcDirty : Bool) : Grows t (gcMergeLoose t gcDirty).2 := by
  obtain ⟨a, t', hneed, heq⟩ := need_cases t
  unfold gcMergeLoose
  rw [hneed]
  cases a with
  | room =>
    simp only
    split
    · exact ⟨t'.loose, congrArg (· ++ _) heq.symm⟩
    · exact Grows.of_eq heq
  | noMemory => exact Grows.of_eq heq
  | full => exact Grows.of_eq heq

/-! ## 2. Allocations -/

theorem pageAllocFinalize_retired (t : Txn) (pgno num : Nat) :
    (pageAllocFinalize t pgno num).2.retired = t.retired := by
  obtain ⟨a, t', hneed, heq⟩ := need_cases t
  unfold pageAllocFinalize
  rw [hneed]
  cases a with
  | room =>
    have hdirty := pageDirty_retired t' pgno num
    simp only
    generalize pageDirty t' pgno num = out at hdirty
    obtain ⟨rc, t''⟩ := out
    cases rc <;> exact hdirty.trans heq
  | noMemory => exact heq
  | full => exact heq

theorem allocFail_retired (a : Call) (rc : Rc) (t : Txn) :
    (allocFail a rc t).txn.retired = t.retired := by
  unfold allocFail
  simp only
  split_ifs <;> first
    | rfl
    | exact refundAtTail_retired t

theorem finalize_retired (a : Call) (page : Nat) {u : Txn} (hu : u.retired = t.retired) :
    (match pageAllocFinalize u page a.num with
      | (.success, u) => (⟨.success, some page, u⟩ : Ret)
      | (rc, u) => allocFail a rc u).txn.retired = t.retired := by
  have hout := (pageAllocFinalize_retired u page a.num).trans hu
  generalize pageAllocFinalize u page a.num = out at hout
  obtain ⟨rc, u'⟩ := out
  cases rc <;> first
    | exact hout
    | exact (allocFail_retired a _ u').trans hout

theorem allocDone_retired (a : Call) (pgno : Option Nat) (t : Txn) :
    (allocDone a pgno t).txn.retired = t.retired := by
  unfold allocDone
  split
  · rfl
  · simp only
    apply finalize_retired
    split <;> rfl

theorem finish_retired (a : Call) (out : Outcome × Txn) :
    (finish a out).txn.retired = out.2.retired := by
  obtain ⟨o, t⟩ := out
  cases o with
  | found pgno => exact allocDone_retired a (some pgno) t
  | extend => exact allocDone_retired a none t
  | reserved rc => rfl
  | failed rc => exact allocFail_retired a rc t

theorem noGc_retired (e : Env) (a : Call) (t : Txn) : (noGc e a t).2.retired = t.retired := by
  unfold noGc
  simp only
  split_ifs <;> rfl

theorem repnlGetSingle_retired {pgno : Nat} (h : repnlGetSingle t = some (pgno, t')) :
    t'.retired = t.retired := by
  obtain ⟨p, _, hp⟩ := Option.map_eq_some_iff.1 h
  cases hp
  rfl

theorem repnlTake_retired {a : Call} {pgno : Nat} (h : repnlTake a t = some (pgno, t')) :
    t'.retired = t.retired := by
  unfold repnlTake at h
  split_ifs at h
  · cases h
    rfl
  · exact repnlGetSingle_retired h
  · obtain ⟨out, _, hout⟩ := Option.map_eq_some_iff.1 h
    cases hout
    split <;> rfl

theorem single_grows {ex : Txn → Ret} (hex : ∀ t, Grows t (ex t).txn) (u : Txn) :
    Grows u (match u.loose with
      | lp :: rest => (⟨.success, some lp, popLoose u lp rest⟩ : Ret)
      | [] =>
          match repnlGetSingle u with
          | some (pgno, u) =>
              match pageAllocFinalize u pgno 1 with
              | (.success, u) => ⟨.success, some pgno, u⟩
              | (rc, u) => ⟨rc, none, u⟩
          | none => ex u).txn := by
  split
  · exact Grows.of_eq rfl
  · split
    next pgno u' hget =>
      apply Grows.of_eq
      have hout := (pageAllocFinalize_retired u' pgno 1).trans (repnlGetSingle_retired hget)
      generalize pageAllocFinalize u' pgno 1 = out at hout
      obtain ⟨rc, u''⟩ := out
      cases rc <;> exact hout
    next => exact hex u

theorem allocSingleOr_grows {ex : Txn → Ret} (hex : ∀ t, Grows t (ex t).txn) (t : Txn) :
    Grows t (allocSingleOr ex t).txn := by
  apply Grows.trans _ (single_grows hex _)
  split
  · exact Grows.of_eq (txnRefund_retired t)
  · exact Grows.refl t

theorem step_grows (e : Env) (t : Txn) (i : Inner) : Grows t (step e t i).2 := by
  cases i with
  | retire ask s =>
    show Grows t (if s ∈ t.used ∧ (ask = .frozen → s.txnid < t.txnid) then
      pageRetireEx e.dpLooseLimit t ask s else (.success, t)).2
    split
    · exact pageRetireEx_grows e.dpLooseLimit t ask s
    · exact Grows.refl t
  | alloc resize =>
    apply allocSingleOr_grows
    exact fun u => Grows.of_eq ((finish_retired _ _).trans (noGc_retired e _ u))

theorem steps_grows (e : Env) (l : List Inner) (t : Txn) : Grows t (steps e l t).2 := by
  induction l generalizing t with
  | nil => exact Grows.refl t
  | cons i rest ih =>
    have hstep := step_grows e t i
    unfold steps
    generalize step e t i = out at hstep
    obtain ⟨rc, t'⟩ := out
    cases rc <;> first
      | exact hstep.trans (ih t')
      | exact hstep

theorem earlyClean_grows (e : Env) (clean : Clean) (r : Record) (t : Txn) :
    Grows t (earlyClean e clean r t).2 := by
  have hsteps := steps_grows e clean.inner t
  unfold earlyClean
  generalize steps e clean.inner t = out at hsteps
  obtain ⟨rc, t'⟩ := out
  cases rc <;> first
    | exact hsteps
    | (simp only
       split_ifs <;> exact hsteps)

theorem cleanRecord_grows (e : Env) (a : Call) (clean : Clean) (r : Record) (t : Txn) :
    Grows t (cleanRecord e a clean r t).2 := by
  unfold cleanRecord
  split
  · exact earlyClean_grows e clean r t
  · exact Grows.refl t

theorem pushRecord_retired (r : Record) (done : Bool) (t : Txn) :
    (pushRecord r done t).2.retired = t.retired := by
  obtain ⟨a, t', hneed, heq⟩ := need_cases t
  unfold pushRecord
  rw [hneed]
  cases a with
  | room =>
    simp only
    split <;> exact heq
  | noMemory => exact heq
  | full => exact heq

theorem takeRecord_grows (e : Env) (a : Call) (clean : Clean) (r : Record) (t : Txn) :
    Grows t (takeRecord e a clean r t).2 := by
  obtain ⟨answer, t', hneed, heq⟩ := need_cases t
  unfold takeRecord
  rw [hneed]
  cases answer with
  | room =>
    have hmerge : Grows t (mergeRecord r t') := Grows.of_eq ((refundAtTail_retired _).trans heq)
    have hclean := hmerge.trans (cleanRecord_grows e a clean r (mergeRecord r t'))
    simp only
    generalize cleanRecord e a clean r (mergeRecord r t') = out at hclean
    obtain ⟨⟨rc, done⟩, t''⟩ := out
    cases rc <;> first
      | exact hclean
      | exact hclean.trans (Grows.of_eq (pushRecord_retired r done t''))
  | noMemory => exact Grows.of_eq heq
  | full => exact Grows.of_eq heq

theorem scan_retired (a : Call) (t : Txn) : (scan a t).2.retired = t.retired := by
  unfold scan
  split
  · rfl
  · split
    next hget => exact repnlTake_retired hget
    next => rfl

theorem depletedGc_retired (a : Call) (coalesce shouldScan : Bool) (t : Txn) :
    (depletedGc a coalesce shouldScan t).txn.retired = t.retired := by
  unfold depletedGc
  simp only
  split
  · exact scan_retired a _
  · rfl

def Visit.txn : Visit → Txn
  | .stop p => p.txn
  | .next _ _ t => t

theorem collect_grows (e : Env) (a : Call) (clean : Clean) (r : Record) (coalesce : Bool)
    (t : Txn) : Grows t (collect e a clean r coalesce t).txn := by
  have htake := takeRecord_grows e a clean r t
  unfold collect
  generalize takeRecord e a clean r t = out at htake
  obtain ⟨rc, t'⟩ := out
  cases rc <;> first
    | exact htake
    | skip
  have hscan := scan_retired a t'
  simp only
  split
  · exact htake
  · generalize scan a t' = found at hscan
    obtain ⟨o, t''⟩ := found
    cases o with
    | some outcome => exact htake.trans (Grows.of_eq hscan)
    | none =>
      simp only
      split
      · exact htake.trans (Grows.of_eq ((depletedGc_retired a false false t'').trans hscan))
      · exact htake.trans (Grows.of_eq hscan)

theorem visitRecord_grows (e : Env) (a : Call) (row : Row) (r : Record)
    (coalesce shouldScan : Bool) (t : Txn) :
    Grows t (visitRecord e a row r coalesce shouldScan t).txn := by
  unfold visitRecord
  split
  next pgno t' hget =>
    split at hget
    · exact Grows.of_eq (repnlTake_retired hget)
    · cases hget
  next =>
    simp only
    split
    · exact Grows.of_eq (depletedGc_retired a _ false t)
    · exact collect_grows e a row.clean r _ t

theorem visit_grows (e : Env) (a : Call) (row : Row) (r : Record) (coalesce shouldScan : Bool)
    (t : Txn) : Grows t (visit e a row r coalesce shouldScan t).txn := by
  unfold visit
  simp only
  split_ifs <;> first
    | exact Grows.of_eq rfl
    | exact visitRecord_grows e a row r coalesce shouldScan { t with drained := false }

theorem pass_grows (e : Env) (a : Call) (rows : Nat → Row) (rs : List Record)
    (coalesce shouldScan : Bool) (t : Txn) :
    Grows t (pass e a rows rs coalesce shouldScan t).txn := by
  induction rs generalizing coalesce shouldScan t with
  | nil => exact Grows.of_eq (depletedGc_retired a coalesce shouldScan t)
  | cons r rest ih =>
    have hvisit := visit_grows e a (rows r.id) r coalesce shouldScan t
    unfold pass
    generalize visit e a (rows r.id) r coalesce shouldScan t = v at hvisit
    cases v with
    | stop p => exact hvisit
    | next coalesce' shouldScan' t' => exact hvisit.trans (ih coalesce' shouldScan' t')

theorem round_grows (e : Env) (a : Call) (r : Round) (coalesce : Bool) (t : Txn) :
    Grows t (round e a r coalesce t).txn := by
  unfold round
  split
  · exact Grows.refl t
  · exact pass_grows e a r.rows _ coalesce false t

theorem afterGc_retired (e : Env) (a : Call) (r : Round) (t : Txn) :
    (afterGc e a r t).2.retired = t.retired := by
  unfold afterGc
  split_ifs
  · rfl
  · rfl
  · exact noGc_retired e a t

theorem rounds_grows (e : Env) (a : Call) (rs : Rounds) (coalesce : Bool) (t : Txn) :
    Grows t (rounds e a rs coalesce t).2 := by
  induction rs generalizing coalesce t with
  | last r =>
    have hround := round_grows e a r coalesce t
    unfold rounds
    generalize round e a r coalesce t = p at hround
    obtain ⟨o, c, t'⟩ := p
    cases o with
    | some outcome => exact hround
    | none => exact hround.trans (Grows.of_eq (afterGc_retired e a r t'))
  | again r why rest ih =>
    have hround := round_grows e a r coalesce t
    unfold rounds
    generalize round e a r coalesce t = p at hround
    obtain ⟨o, c, t'⟩ := p
    cases o with
    | some outcome => exact hround
    | none =>
      simp only
      split
      · exact hround.trans (ih c t')
      · exact hround.trans (Grows.of_eq (afterGc_retired e a r t'))

theorem gcAllocEx_grows (e : Env) (a : Call) (t : Txn) : Grows t (gcAllocEx e a t).txn := by
  unfold gcAllocEx
  split
  next pgno t' hget =>
    apply Grows.of_eq
    apply (allocDone_retired a (some pgno) t').trans
    split at hget
    · exact repnlTake_retired hget
    · cases hget
  next =>
    have hready : ∀ out, isReclaimable a t = out → out.2.retired = t.retired := by
      intro out hout
      rw [← hout]
      unfold isReclaimable
      split_ifs <;> rfl
    split
    next t' hout =>
      have heq := hready _ hout
      exact Grows.of_eq ((finish_retired a _).trans ((noGc_retired e a t').trans heq))
    next t' hout =>
      apply Grows.trans _ (Grows.of_eq (finish_retired a _))
      exact (Grows.of_eq (hready _ hout)).trans (rounds_grows e a a.rounds _ t')

theorem apply_grows (e : Env) (t : Txn) (op : Op) : Grows t (apply e t op).2 := by
  cases op with
  | retire ask s => exact pageRetireEx_grows e.dpLooseLimit t ask s
  | allocSingle a => exact allocSingleOr_grows (gcAllocEx_grows e _) t
  | allocEx a => exact gcAllocEx_grows e a t
  | refund => exact Grows.of_eq (txnRefund_retired t)
  | mergeLoose gcDirty => exact gcMergeLoose_grows t gcDirty

theorem txnSpill_retired (t : Txn) (s : Spill) : (txnSpill t s).2.retired = t.retired := by
  cases s with
  | needless => rfl
  | written picked => exact txnDplSort_retired t
  | failed rc => rfl

theorem nestedStep_grows (e : Env) (t : Txn) (op : NestedOp) : Grows t (nestedStep e t op).2 := by
  obtain ⟨a, t', hneed, heq⟩ := need_cases t
  cases op with
  | pages op => exact apply_grows e t op
  | clone pgno =>
    apply Grows.of_eq
    show (shadowPage t pgno 1).2.retired = _
    unfold shadowPage
    rw [hneed]
    cases a with
    | room => exact (pageDirty_retired t' pgno 1).trans heq
    | noMemory => exact heq
    | full => exact heq
  | unspill pgno npages =>
    apply Grows.of_eq
    show (pageUnspill t pgno npages).2.retired = _
    unfold pageUnspill
    rw [hneed]
    cases a with
    | room => exact (pageDirty_retired _ pgno npages).trans heq
    | noMemory => exact heq
    | full => exact heq
  | spill s => exact Grows.of_eq (txnSpill_retired t s)
  | geometry endPgno upper growStep => exact Grows.refl t

theorem nestedRun_grows (e : Env) (ops : List NestedOp) (t : Txn) : Grows t (nestedRun e ops t) := by
  induction ops generalizing t with
  | nil => exact Grows.refl t
  | cons op ops ih => exact (nestedStep_grows e t op).trans (ih (nestedStep e t op).2)

/-! ## 3. The parent -/

/-- What `txn_dpl_check` asserts of a parent, and that every loose page is in the dirty list. -/
structure Sound (limit : Nat) (t : Txn) : Prop where
  counted : t.looseCount = t.loose.length
  nodup : t.loose.Nodup
  listed : ∀ p ∈ t.loose, ∃ x ∈ t.dirty, x.pgno = p ∧ x.loose = true
  distinct : (t.dirty.map Item.pgno).Nodup
  room : t.dirtyroom + t.dirty.length = limit

/-- `geo` -/
def Txn.geo (t : Txn) : Nat × Nat × Nat × Nat :=
  (t.firstUnallocated, t.endPgno, t.upper, t.growStep)

/-- Some loose pages, from the head of the chain on, have gone to `repnl` and have left the dirty
list; nothing else has changed but the order of the dirty list. -/
structure Moves (limit : Nat) (before after : Txn) (moved : List Nat) : Prop where
  loose : before.loose = moved ++ after.loose
  repnl : after.repnl.Perm (moved ++ before.repnl)
  dirty : after.dirty.Perm (before.dirty.filter fun x => x.pgno ∉ moved)
  retired : after.retired = before.retired
  spilled : after.spilled = before.spilled
  geo : after.geo = before.geo
  room : after.dirtyroom + after.dirty.length = limit

variable {limit : Nat} {before : Txn} {moved : List Nat}

theorem Moves.refl (h : Sound limit before) : Moves limit before before [] where
  loose := rfl
  repnl := List.Perm.refl _
  dirty := by
    rw [List.filter_eq_self.2]
    exact fun x _ => by simp
  retired := rfl
  spilled := rfl
  geo := rfl
  room := h.room

-- what `need` and the sorting of the dirty list leave
theorem Moves.same (h : Moves limit before t moved) (hloose : t'.loose = t.loose)
    (hrepnl : t'.repnl = t.repnl) (hdirty : t'.dirty.Perm t.dirty)
    (hretired : t'.retired = t.retired) (hspilled : t'.spilled = t.spilled)
    (hgeo : t'.geo = t.geo) (hroom : t'.dirtyroom = t.dirtyroom) : Moves limit before t' moved where
  loose := by
    rw [hloose]
    exact h.loose
  repnl := by
    rw [hrepnl]
    exact h.repnl
  dirty := hdirty.trans h.dirty
  retired := hretired.trans h.retired
  spilled := hspilled.trans h.spilled
  geo := hgeo.trans h.geo
  room := by
    rw [hroom, hdirty.length_eq]
    exact h.room

theorem Moves.need (h : Moves limit before t moved) : Moves limit before (need t).2 moved := by
  unfold Mdbx.Pages.need
  split
  · exact h
  · exact h.same rfl rfl (List.Perm.refl _) rfl rfl rfl rfl

theorem Moves.txnDplSort (h : Moves limit before t moved) :
    Moves limit before (txnDplSort t) moved := by
  have hperm := txnDplSort_dirty t
  unfold Mdbx.Pages.txnDplSort at hperm ⊢
  split
  · exact h
  · rename_i hne
    rw [if_neg hne] at hperm
    exact h.same rfl rfl hperm rfl rfl rfl rfl

theorem Moves.txnDplSearch (h : Moves limit before t moved) :
    Moves limit before (txnDplSearch t) moved := by
  unfold Mdbx.Pages.txnDplSearch
  split
  · exact h
  · exact h.txnDplSort

-- the item of a page is the only one with its number
theorem eraseIdx_pgno {l : List Item} (hdistinct : (l.map Item.pgno).Nodup) (p : Nat) :
    l.eraseIdx (l.findIdx fun x => x.pgno = p) = l.filter fun x => x.pgno ≠ p := by
  induction l with
  | nil => rfl
  | cons x l ih =>
    obtain ⟨hnotin, hrest⟩ := List.nodup_cons.1 hdistinct
    by_cases hx : x.pgno = p
    · rw [List.findIdx_cons]
      simp only [hx, decide_true, cond_true, List.eraseIdx_cons_zero]
      rw [List.filter_cons_of_neg (by simp [hx])]
      refine (List.filter_eq_self.2 fun y hy => ?_).symm
      have hne : y.pgno ≠ p := fun heq => hnotin (by
        rw [hx, ← heq]
        exact List.mem_map_of_mem hy)
      exact decide_eq_true hne
    · rw [List.findIdx_cons, List.filter_cons_of_pos (by simpa using hx)]
      simp only [hx, decide_false, cond_false, List.eraseIdx_cons_succ]
      rw [ih hrest]

theorem insertSpan_one (l : List Nat) (p : Nat) : (insertSpan l p 1).Perm (p :: l) := by
  rw [List.perm_iff_count]
  intro q
  have hcount := count_insertSpan l p 1 q
  rw [hcount, List.count_cons]
  by_cases hq : q = p
  · subst hq
    rw [if_pos ⟨Nat.le_refl q, Nat.lt_succ_self q⟩, if_pos (beq_self_eq_true q), Nat.add_comm]
  · rw [if_neg (by omega), if_neg (by simp; omega), Nat.add_comm]

theorem Moves.looseToRepnl (hs : Sound limit before) (h : Moves limit before t moved) {lp : Nat}
    {rest : List Nat} (hloose : t.loose = lp :: rest) :
    Moves limit before (looseToRepnl t lp rest) (moved ++ [lp]) := by
  have hsearch := h.txnDplSearch
  have hsame : (Mdbx.Pages.txnDplSearch t).repnl = t.repnl := by
    unfold Mdbx.Pages.txnDplSearch Mdbx.Pages.txnDplSort
    split_ifs <;> rfl
  unfold Mdbx.Pages.looseToRepnl
  generalize Mdbx.Pages.txnDplSearch t = u at hsearch hsame
  have hdistinct : (u.dirty.map Item.pgno).Nodup := by
    have hsub := (List.filter_sublist (p := fun x : Item => decide (x.pgno ∉ moved))
      (l := before.dirty)).map Item.pgno
    exact (hsearch.dirty.map Item.pgno).nodup_iff.2 (hs.distinct.sublist hsub)
  have hfresh : lp ∉ moved := by
    have hnodup := hs.nodup
    rw [h.loose, hloose] at hnodup
    exact fun hin => (List.nodup_append.1 hnodup).2.2 lp hin lp List.mem_cons_self rfl
  obtain ⟨x, hx, hpgno, _⟩ := hs.listed lp (by
    rw [h.loose, hloose]
    exact List.mem_append_right moved List.mem_cons_self)
  have hxu : x ∈ u.dirty := by
    refine hsearch.dirty.mem_iff.2 (List.mem_filter.2 ⟨hx, ?_⟩)
    rw [hpgno]
    exact decide_eq_true hfresh
  have herase := eraseIdx_pgno hdistinct lp
  have hidx : u.dirty.findIdx (fun x => x.pgno = lp) < u.dirty.length :=
    List.findIdx_lt_length.2 ⟨x, hxu, by simpa using hpgno⟩
  exact
    { loose := by
        rw [h.loose, hloose, List.append_assoc]
        rfl
      repnl := by
        show (insertSpan t.repnl lp 1).Perm _
        rw [List.append_assoc]
        apply (insertSpan_one t.repnl lp).trans
        rw [← hsame]
        exact (hsearch.repnl.cons lp).trans List.perm_middle.symm
      dirty := by
        show (u.dirty.eraseIdx _).Perm _
        rw [herase]
        apply (hsearch.dirty.filter _).trans
        rw [List.filter_filter]
        apply List.Perm.of_eq
        apply List.filter_congr
        intro y _
        simp only [List.mem_append, List.mem_singleton, not_or, ne_eq]
        by_cases hy : y.pgno = lp <;> by_cases hm : y.pgno ∈ moved <;> simp [hy, hm]
      retired := hsearch.retired
      spilled := hsearch.spilled
      geo := hsearch.geo
      room := by
        show u.dirtyroom + 1 + (u.dirty.eraseIdx _).length = limit
        rw [List.length_eraseIdx_of_lt hidx, ← hsearch.room]
        omega }

/-- The loop ends with an empty chain, or with the page for which there is no room at the head. -/
theorem moveLooseLoop_moves (hs : Sound limit before) (l : List Nat) :
    ∀ (t : Txn) (moved : List Nat), t.loose = l → Moves limit before t moved →
      ∃ all, Moves limit before (moveLooseLoop l t).2 all ∧
        (moveLooseLoop l t).2.looseCount = t.looseCount ∧
        ((moveLooseLoop l t).1 = .success ↔ (moveLooseLoop l t).2.loose = []) := by
  induction l with
  | nil => exact fun t moved hl h => ⟨moved, h, rfl, iff_of_true rfl hl⟩
  | cons lp rest ih =>
    intro t moved hl h
    have hroom := h.need
    have hkept : (need t).2.loose = lp :: rest := (need_loose t).trans hl
    have hcount : (need t).2.looseCount = t.looseCount := by
      unfold need
      split <;> rfl
    unfold moveLooseLoop
    generalize need t = answer at hroom hkept hcount
    obtain ⟨a, u⟩ := answer
    cases a with
    | room =>
      obtain ⟨all, hall, hc, hiff⟩ :=
        ih (looseToRepnl u lp rest) (moved ++ [lp]) rfl (hroom.looseToRepnl hs hkept)
      refine ⟨all, hall, hc.trans ?_, hiff⟩
      apply Eq.trans _ hcount
      unfold looseToRepnl txnDplSearch txnDplSort
      simp only
      split_ifs <;> rfl
    | noMemory =>
      refine ⟨moved, hroom, hcount, iff_of_false (fun hc => nomatch hc) ?_⟩
      intro hnil
      cases hkept.symm.trans hnil
    | full =>
      refine ⟨moved, hroom, hcount, iff_of_false (fun hc => nomatch hc) ?_⟩
      intro hnil
      cases hkept.symm.trans hnil

/-! ## 4. The steps of `nested_start` -/

/-- The count is right unless some loose pages have been moved and some have not. -/
def Counted (before t : Txn) : Prop :=
  (t.loose = before.loose ∨ t.loose = []) → t.looseCount = t.loose.length

/-- Before the loose pages are moved. -/
structure Fresh (limit : Nat) (before : Txn) (s : Family) : Prop where
  lent : s.lent = none
  moves : Moves limit before s.parent.txn []
  count : s.parent.txn.looseCount = before.looseCount

/-- Before the list of retired pages is handed over. -/
structure Own (limit : Nat) (before : Txn) (s : Family) : Prop where
  lent : s.lent = none
  moves : ∃ moved, Moves limit before s.parent.txn moved
  counted : Counted before s.parent.txn

/-- The lists of the parent, with the retired pages it is to have back. -/
structure Held (limit : Nat) (before : Txn) (s : Family) : Prop where
  moves : ∃ moved, Moves limit before (returnRetired s).parent.txn moved
  counted : Counted before s.parent.txn
  within : ∀ n, s.lent = some n → n ≤ s.nested.retired.length

variable {s : Family}

theorem Fresh.own (hs : Sound limit before) (h : Fresh limit before s) : Own limit before s where
  lent := h.lent
  moves := ⟨[], h.moves⟩
  counted := fun _ => by
    have hl : before.loose = s.parent.txn.loose := h.moves.loose
    rw [h.count, hs.counted, hl]

theorem Own.held (h : Own limit before s) : Held limit before s where
  moves := by
    have hback : returnRetired s = s := by
      unfold returnRetired
      rw [h.lent]
    rw [hback]
    exact h.moves
  counted := h.counted
  within := fun n hn => by
    rw [h.lent] at hn
    cases hn

theorem andThen_elim {P Q : Family → Prop} {out : Rc × Family} {next : Family → Rc × Family}
    (hdone : out.1 = .success → P out.2) (hfail : out.1 ≠ .success → Q out.2)
    (hnext : ∀ s, P s → Q (next s).2) : Q (andThen out next).2 := by
  obtain ⟨rc, s⟩ := out
  cases rc <;> first
    | exact hnext s (hdone rfl)
    | exact hfail (fun hc => nomatch hc)

-- an allocation leaves the parent as it is, whether there is room or not
theorem alloc_elim {P Q : Family → Prop} {f : Family → Family}
    (hdone : P (f (s.setParent (need s.parent.txn).2)))
    (hfail : Q (s.setParent (need s.parent.txn).2)) :
    ((alloc s f).1 = .success → P (alloc s f).2) ∧
      ((alloc s f).1 ≠ .success → Q (alloc s f).2) := by
  unfold alloc
  generalize need s.parent.txn = answer at hdone hfail
  obtain ⟨a, t⟩ := answer
  cases a with
  | room => exact ⟨fun _ => hdone, fun hne => absurd rfl hne⟩
  | noMemory => exact ⟨(fun hc => nomatch hc), fun _ => hfail⟩
  | full => exact ⟨(fun hc => nomatch hc), fun _ => hfail⟩

theorem need_answers (t : Txn) : (need t).2 = { t with answers := t.answers.tail } := by
  unfold need
  split
  next hnil =>
    rw [hnil]
    show t = { t with answers := [] }
    rw [← hnil]
  next hcons => rw [hcons]; rfl

theorem need_looseCount (t : Txn) : (need t).2.looseCount = t.looseCount := by
  unfold need
  split <;> rfl

theorem Fresh.need (h : Fresh limit before s) :
    Fresh limit before (s.setParent (need s.parent.txn).2) :=
  ⟨h.lent, h.moves.need, (need_looseCount _).trans h.count⟩

theorem Own.need (h : Own limit before s) :
    Own limit before (s.setParent (need s.parent.txn).2) where
  lent := h.lent
  moves := h.moves.imp fun _ hm => hm.need
  counted := by
    intro hends
    have hl := need_loose s.parent.txn
    have hc := need_looseCount s.parent.txn
    show (Mdbx.Pages.need s.parent.txn).2.looseCount = (Mdbx.Pages.need s.parent.txn).2.loose.length
    rw [hl, hc]
    exact h.counted (hl ▸ hends)

theorem moveLooseOf_own (hs : Sound limit before) (h : Fresh limit before s) :
    Own limit before (moveLooseOf s).2 := by
  have hl : before.loose = s.parent.txn.loose := h.moves.loose
  by_cases hzero : s.parent.txn.looseCount = 0
  · have hsame : (moveLooseOf s).2 = s.setParent s.parent.txn := by
      unfold moveLooseOf moveLoose
      rw [if_neg (not_not.2 hzero)]
    rw [hsame]
    exact h.own hs
  · obtain ⟨all, hall, hcount, hiff⟩ := moveLooseLoop_moves hs _ s.parent.txn [] rfl h.moves
    unfold moveLooseOf moveLoose
    rw [if_pos hzero]
    generalize moveLooseLoop s.parent.txn.loose s.parent.txn = out at hall hcount hiff
    obtain ⟨rc, t⟩ := out
    have hopen : rc ≠ .success → Counted before t := by
      intro hne hends
      cases hends with
      | inl hwhole =>
        have hc : t.looseCount = _ := hcount
        rw [hc, h.count, hs.counted, hwhole]
      | inr hnil => exact absurd (hiff.2 hnil) hne
    cases rc <;> first
      | exact ⟨h.lent, ⟨all, hall⟩, hopen (by decide)⟩
      | skip
    have hnil : t.loose = [] := hiff.1 rfl
    refine ⟨h.lent, ⟨all, hall.same rfl rfl (List.Perm.refl _) rfl rfl rfl rfl⟩, fun _ => ?_⟩
    show 0 = t.loose.length
    rw [hnil]
    rfl

theorem copyLists_own (h : Own limit before s) : Own limit before (copyLists s) where
  lent := h.lent
  moves := h.moves.imp fun _ hm => hm.txnDplSort
  counted := by
    have hl : (txnDplSort s.parent.txn).loose = s.parent.txn.loose := by
      unfold txnDplSort
      split <;> rfl
    have hc : (txnDplSort s.parent.txn).looseCount = s.parent.txn.looseCount := by
      unfold txnDplSort
      split <;> rfl
    intro hends
    show (txnDplSort s.parent.txn).looseCount = (txnDplSort s.parent.txn).loose.length
    rw [hl, hc]
    exact h.counted (hl ▸ hends)

theorem lendRetired_held (h : Own limit before s) : Held limit before (lendRetired s) where
  moves := h.moves.imp fun _ hm =>
    hm.same rfl rfl (List.Perm.refl _) (List.take_length) rfl rfl rfl
  counted := h.counted
  within := fun n hn => by
    cases hn
    exact Nat.le_refl _

theorem Held.need (h : Held limit before s) :
    Held limit before (s.setParent (need s.parent.txn).2) where
  moves := by
    obtain ⟨moved, hm⟩ := h.moves
    refine ⟨moved, ?_⟩
    have hfields : (returnRetired (s.setParent (Mdbx.Pages.need s.parent.txn).2)).parent.txn =
        { (returnRetired s).parent.txn with answers := s.parent.txn.answers.tail } := by
      rw [need_answers]
      unfold returnRetired
      cases hlent : s.lent <;> simp [Family.setParent, Host.setTxn, hlent]
    rw [hfields]
    exact hm.same rfl rfl (List.Perm.refl _) rfl rfl rfl rfl
  counted := by
    intro hends
    have hl := need_loose s.parent.txn
    have hc := need_looseCount s.parent.txn
    show (Mdbx.Pages.need s.parent.txn).2.looseCount = (Mdbx.Pages.need s.parent.txn).2.loose.length
    rw [hl, hc]
    exact h.counted (hl ▸ hends)
  within := h.within

-- the nested transaction appends to the list of retired pages at most
theorem Held.nested (h : Held limit before s) {t : Txn} (hgrows : Grows s.nested t) :
    Held limit before { s with nested := t } where
  moves := by
    have hback : (returnRetired { s with nested := t }).parent = (returnRetired s).parent := by
      unfold returnRetired
      cases hlent : s.lent with
      | none => rfl
      | some n =>
        obtain ⟨more, hmore⟩ := hgrows
        simp only
        rw [← hmore, List.take_append_of_le_length (h.within n hlent)]
    rw [hback]
    exact h.moves
  counted := h.counted
  within := fun n hn => Nat.le_trans (h.within n hn) hgrows.length_le

theorem txnShadowCursors_held (n : Nat) (h : Held limit before s) :
    Held limit before (txnShadowCursors n s).2 := by
  induction n generalizing s with
  | zero => exact h
  | succ n ih =>
    obtain ⟨hdone, hfail⟩ := alloc_elim (s := s) (f := id) (P := Held limit before)
      (Q := Held limit before) h.need h.need
    unfold txnShadowCursors
    generalize alloc s id = out at hdone hfail
    obtain ⟨rc, u⟩ := out
    cases rc <;> first
      | exact ih (hdone rfl)
      | exact (hfail (fun hc => nomatch hc)).nested (Grows.of_eq rfl)

/-- Whatever allocation of `nested_start` fails, the lists of the parent are held. -/
theorem nestedStart_held (hs : Sound limit before) (cursors : Nat) (h : Fresh limit before s) :
    Held limit before (nestedStart cursors s).2 := by
  have hfresh : Fresh limit before (attach s) := ⟨h.lent, h.moves, h.count⟩
  have hgeo := alloc_elim (s := attach s) (f := copyGeo) (P := Fresh limit before)
    (Q := Held limit before) ⟨hfresh.need.lent, hfresh.need.moves, hfresh.need.count⟩ (hfresh.need.own hs).held
  unfold nestedStart
  apply andThen_elim hgeo.1 hgeo.2
  intro s₁ h₁
  have hdpl := alloc_elim (f := id) (P := Fresh limit before) (Q := Held limit before) h₁.need
    (h₁.need.own hs).held
  apply andThen_elim hdpl.1 hdpl.2
  intro s₂ h₂
  have hloose := moveLooseOf_own hs h₂
  apply andThen_elim (P := Own limit before) (fun _ => hloose) (fun _ => hloose.held)
  intro s₃ h₃
  have hcopy : Own limit before (copyReclaimed (copyLists s₃)).2 := by
    have hfirst := copyLists_own h₃
    have hreclaimed := alloc_elim (s := copyLists s₃) (f := takeReclaimed)
      (P := Own limit before) (Q := Own limit before)
      ⟨hfirst.need.lent, hfirst.need.moves, hfirst.need.counted⟩ hfirst.need
    apply andThen_elim hreclaimed.1 hreclaimed.2
    intro s₄ h₄
    have hready := alloc_elim (s := s₄) (f := takeReady) (P := Own limit before)
      (Q := Own limit before) ⟨h₄.need.lent, h₄.need.moves, h₄.need.counted⟩ h₄.need
    by_cases hrc : (alloc s₄ takeReady).1 = .success
    · exact hready.1 hrc
    · exact hready.2 hrc
  apply andThen_elim (P := Own limit before) (fun _ => hcopy) (fun _ => hcopy.held)
  exact fun s₅ h₅ => txnShadowCursors_held cursors (lendRetired_held h₅)

/-! ## 5. The parent after an abort -/

/-- The parent after an abort.  Its free pages are the same ones, and its dirty list is the former one
less the pages that have gone from the loose chain to `repnl`. -/
structure Restored (limit : Nat) (resize : Resized) (before : Txn) (after : Host) : Prop where
  moved : ∃ moved, before.loose = moved ++ after.txn.loose ∧
    after.txn.repnl.Perm (moved ++ before.repnl) ∧
      after.txn.dirty.Perm (before.dirty.filter fun x => x.pgno ∉ moved)
  retired : after.txn.retired = before.retired
  spilled : after.txn.spilled = before.spilled
  counted : Counted before after.txn
  room : after.txn.dirtyroom + after.txn.dirty.length = limit
  firstUnallocated : after.txn.firstUnallocated = before.firstUnallocated
  upper : after.txn.upper = before.upper
  growStep : after.txn.growStep = before.growStep
  -- the size of the file is another one only where it cannot be set back
  endPgno : after.txn.endPgno = before.endPgno ∨ resize = .notPermitted ∧ after.dirtied = true

theorem returnRetired_looseCount (s : Family) :
    (returnRetired s).parent.txn.looseCount = s.parent.txn.looseCount := by
  unfold returnRetired
  split <;> rfl

theorem returnRetired_loose (s : Family) :
    (returnRetired s).parent.txn.loose = s.parent.txn.loose := by
  unfold returnRetired
  split <;> rfl

theorem txnNestedAbort_restored (resize : Resized) (h : Held limit before s) :
    Restored limit resize before (txnNestedAbort resize s) := by
  obtain ⟨moved, hm⟩ := h.moves
  have hcounted : Counted before (returnRetired s).parent.txn := by
    unfold Counted
    rw [returnRetired_loose, returnRetired_looseCount]
    exact h.counted
  have hfirst := congrArg (fun g => g.1) hm.geo
  have hend := congrArg (fun g => g.2.1) hm.geo
  have hupper := congrArg (fun g => g.2.2.1) hm.geo
  have hgrow := congrArg (fun g => g.2.2.2) hm.geo
  have hmoved := And.intro hm.loose (And.intro hm.repnl hm.dirty)
  unfold txnNestedAbort nestedUndo nestedFree undoResize
  split
  · cases resize with
    | done =>
      exact ⟨⟨moved, hmoved⟩, hm.retired, hm.spilled, hcounted, hm.room, hfirst, hupper, hgrow,
        Or.inl hend⟩
    | notPermitted =>
      exact ⟨⟨moved, hmoved⟩, hm.retired, hm.spilled, hcounted, hm.room, hfirst, hupper, hgrow,
        Or.inr ⟨rfl, rfl⟩⟩
    | failed =>
      exact ⟨⟨moved, hmoved⟩, hm.retired, hm.spilled, hcounted, hm.room, hfirst, hupper, hgrow,
        Or.inl hend⟩
  · exact ⟨⟨moved, hmoved⟩, hm.retired, hm.spilled, hcounted, hm.room, hfirst, hupper, hgrow,
      Or.inl hend⟩

/-- What the spilling before a nested transaction changes: some items that are not loose go from the
dirty list to the spill list. -/
structure Spilt (before after : Txn) : Prop where
  picked : ∃ picked, after.dirty.Perm (before.dirty.filter fun x => !spills picked x) ∧
    after.spilled.Perm
      (before.spilled ++ (before.dirty.filter (spills picked)).flatMap Item.pages)
  repnl : after.repnl = before.repnl
  loose : after.loose = before.loose
  retired : after.retired = before.retired
  geo : after.geo = before.geo

theorem Spilt.none (hspilled : t'.spilled = t.spilled) (hdirty : t'.dirty = t.dirty)
    (hrepnl : t'.repnl = t.repnl) (hloose : t'.loose = t.loose)
    (hretired : t'.retired = t.retired) (hgeo : t'.geo = t.geo) : Spilt t t' where
  picked := by
    refine ⟨[], ?_, ?_⟩
    · rw [hdirty, List.filter_eq_self.2]
      exact fun x _ => by simp [spills]
    · rw [hspilled, List.filter_eq_nil_iff.2]
      · simp
      · exact fun x _ => by simp [spills]
  repnl := hrepnl
  loose := hloose
  retired := hretired
  geo := hgeo

theorem length_filter_not (l : List Item) (q : Item → Bool) :
    (l.filter q).length + (l.filter fun x => !q x).length = l.length := by
  induction l with
  | nil => rfl
  | cons x l ih =>
    cases hx : q x <;> simp only [List.filter_cons, hx, Bool.not_true, Bool.not_false, if_true,
      Bool.false_eq_true, if_false, List.length_cons] <;> omega

theorem txnDplSort_eq (t : Txn) :
    txnDplSort t = { t with dirty := (txnDplSort t).dirty, sorted := t.dirty.length } := by
  unfold txnDplSort
  split
  next heq => rw [← heq]
  next => rfl

theorem txnSpill_spilt (hs : Sound limit t) (plan : Spill) :
    Spilt t (txnSpill t plan).2 ∧ Sound limit (txnSpill t plan).2 := by
  cases plan with
  | needless => exact ⟨Spilt.none rfl rfl rfl rfl rfl rfl, hs⟩
  | failed rc => exact ⟨Spilt.none rfl rfl rfl rfl rfl rfl, hs.counted, hs.nodup, hs.listed,
      hs.distinct, hs.room⟩
  | written picked =>
    have hperm := txnDplSort_dirty t
    have hfields := txnDplSort_eq t
    unfold txnSpill
    simp only
    rw [hfields]
    generalize (txnDplSort t).dirty = dirty at hperm
    have hleft : (dirty.filter fun x => !spills picked x).Sublist dirty := List.filter_sublist
    refine ⟨⟨⟨picked, hperm.filter _, ?_⟩, rfl, rfl, rfl, rfl⟩,
      ⟨hs.counted, hs.nodup, ?_, ?_, ?_⟩⟩
    · apply (List.perm_insertionSort _ _).trans
      exact List.Perm.append_left _ ((hperm.filter _).flatMap_right _)
    · intro p hp
      obtain ⟨x, hx, hpgno, hloose⟩ := hs.listed p hp
      refine ⟨x, List.mem_filter.2 ⟨hperm.mem_iff.2 hx, ?_⟩, hpgno, hloose⟩
      simp [spills, hloose]
    · exact ((hperm.map Item.pgno).nodup_iff.2 hs.distinct).sublist (hleft.map Item.pgno)
    · have hlen := length_filter_not dirty (spills picked)
      have hroom := hs.room
      rw [← hperm.length_eq] at hroom
      show t.dirtyroom + (dirty.filter (spills picked)).length +
        (dirty.filter fun x => !spills picked x).length = limit
      omega

theorem createNested_restored (hs : Sound limit before) (c : Create) (h : Host)
    (htxn : h.txn = before) :
    match createNested c h with
    | .refused _ after => Restored limit c.resize before after
    | .begun s => Held limit before s := by
  have hneed := (Moves.refl hs).need
  have hcount := (need_looseCount before)
  unfold createNested
  rw [htxn]
  generalize need before = answer at hneed hcount
  obtain ⟨a, t⟩ := answer
  have hfresh : Fresh limit before ⟨h.setTxn t, { blank with answers := c.answers }, none⟩ :=
    ⟨rfl, hneed, hcount⟩
  have hkept : Restored limit c.resize before (h.setTxn t) :=
    ⟨⟨[], hneed.loose, hneed.repnl, hneed.dirty⟩, hneed.retired, hneed.spilled,
      (hfresh.own hs).counted, hneed.room, congrArg (fun g => g.1) hneed.geo,
      congrArg (fun g => g.2.2.1) hneed.geo, congrArg (fun g => g.2.2.2) hneed.geo,
      Or.inl (congrArg (fun g => g.2.1) hneed.geo)⟩
  cases a with
  | room =>
    have hheld := nestedStart_held hs c.cursors hfresh
    simp only
    generalize nestedStart c.cursors _ = out at hheld ⊢
    obtain ⟨rc, s⟩ := out
    cases rc <;> first
      | exact hheld
      | exact txnNestedAbort_restored c.resize hheld
  | noMemory => exact hkept
  | full => exact hkept

/-- Whatever allocation fails in the creation of a nested transaction, and whatever steps it has taken
when it is aborted, its parent is restored to what it was after the optional spilling. -/
theorem txnNested_restores (e : Env) (c : Create) (h : Host) (hs : Sound limit h.txn) :
    Spilt h.txn (spillParent c h.txn).2 ∧
      (c.spillDenominator = 0 ∨ c.readonly = true → (spillParent c h.txn).2 = h.txn) ∧
        match txnNestedCreate c h with
        | .refused _ after => Restored limit c.resize (spillParent c h.txn).2 after
        | .begun s => ∀ ops resize, Restored limit resize (spillParent c h.txn).2
            (txnNestedAbort resize { s with nested := nestedRun e ops s.nested }) := by
  have hspill : Spilt h.txn (spillParent c h.txn).2 ∧ Sound limit (spillParent c h.txn).2 := by
    unfold spillParent
    split
    · exact txnSpill_spilt hs c.spill
    · exact ⟨Spilt.none rfl rfl rfl rfl rfl rfl, hs⟩
  refine ⟨hspill.1, ?_, ?_⟩
  · intro hoff
    unfold spillParent
    rw [if_neg]
    intro hon
    cases hoff with
    | inl hzero => exact hon.1 hzero
    | inr hro => simp [hro] at hon
  · unfold txnNestedCreate
    have hsound := hspill.2
    generalize spillParent c h.txn = out at hsound
    obtain ⟨rc, t⟩ := out
    cases rc <;> first
      | exact
          { moved := ⟨[], rfl, List.Perm.refl _, (Moves.refl hsound).dirty⟩
            retired := rfl
            spilled := rfl
            counted := fun _ => hsound.counted
            room := hsound.room
            firstUnallocated := rfl
            upper := rfl
            growStep := rfl
            endPgno := Or.inl rfl }
      | skip
    have hcreated := createNested_restored hsound c (h.setTxn t) rfl
    simp only
    generalize createNested c (h.setTxn t) = created at hcreated
    cases created with
    | refused rc after => exact hcreated
    | begun s =>
      exact fun ops resize =>
        txnNestedAbort_restored resize (hcreated.nested (nestedRun_grows e ops s.nested))

/-- The loose pages 5 and 7; there is room for the first of them only. -/
def sampleParent : Host where
  txn := { sampleTxn with
    loose := [5, 7]
    looseCount := 2
    dirty := [⟨5, 1, true⟩, ⟨7, 1, true⟩]
    pagesIncludingLoose := 2
    answers := [.room, .room, .room, .room, .noMemory] }
  hasChild := false
  dirtied := true
  fatal := false

def sampleCreate : Create where
  readonly := false
  spillDenominator := 8
  spill := .needless
  cursors := 1
  resize := .done
  answers := []

theorem sampleParent_sound : Sound 12 sampleParent.txn :=
  ⟨rfl, by decide, by decide, by decide, rfl⟩

theorem txnNested_restores_sample :
    Spilt sampleParent.txn (spillParent sampleCreate sampleParent.txn).2 ∧
      (sampleCreate.spillDenominator = 0 ∨ sampleCreate.readonly = true →
        (spillParent sampleCreate sampleParent.txn).2 = sampleParent.txn) ∧
        match txnNestedCreate sampleCreate sampleParent with
        | .refused _ after =>
            Restored 12 .done (spillParent sampleCreate sampleParent.txn).2 after
        | .begun s => ∀ ops resize,
            Restored 12 resize (spillParent sampleCreate sampleParent.txn).2
              (txnNestedAbort resize { s with nested := nestedRun sampleEnv ops s.nested }) :=
  txnNested_restores sampleEnv sampleCreate sampleParent sampleParent_sound

/-- A parent for which there is always room. -/
def roomyParent : Host := sampleParent.setTxn { sampleParent.txn with answers := [] }

/-- Twenty pages from behind the end of the file. -/
def growingOp : NestedOp := .pages (.allocEx { gcCall .success with num := 20 })

/-- The size of a file that has grown for the nested transaction stays with the parent where the file
may not be shrunk. -/
theorem abort_keeps_size :
    Sound 12 roomyParent.txn ∧
      ∃ s, txnNestedCreate sampleCreate roomyParent = .begun s ∧
        (txnNestedAbort .notPermitted
          { s with nested := nestedRun sampleEnv [growingOp] s.nested }).txn.geo ≠
            roomyParent.txn.geo :=
  ⟨⟨rfl, by decide, by decide, by decide, rfl⟩, _, rfl, by decide⟩

end Mdbx.Pages
