import Mdbx.Pages.Refund
import Mathlib.Data.List.TakeWhile

/-!
# Pages.Retire — the routes of a page that is given back, and of one that becomes dirty

A step of this module keeps the partition unless it fails for lack of memory or of room; then there
are pages in no place.
-/

namespace Mdbx.Pages

variable {t t' : Txn} {own own' : List Nat} {s : Span}

/-- The result codes with which a step may lose pages. -/
def lossy (rc : Rc) : Bool := rc = .enomem ∨ rc = .txnFull

/-- The outcome of a step that ends with the pages `own` in hand. -/
structure Spec (t : Txn) (own : List Nat) (out : Rc × Txn) : Prop where
  moved : Moved t out.2
  inv : lossy out.1 = false → Inv out.2 own
  some : ∃ own', Inv out.2 own'

theorem Spec.of_inv {rc : Rc} (hmoved : Moved t t') (h : Inv t' own) : Spec t own (rc, t') :=
  ⟨hmoved, fun _ => h, own, h⟩

theorem Spec.of_lossy {rc : Rc} (hrc : lossy rc = true) (hmoved : Moved t t') (h : Inv t' own') :
    Spec t own (rc, t') :=
  ⟨hmoved, fun hok => absurd (hrc.symm.trans hok) (by decide), own', h⟩

theorem Spec.after {out : Rc × Txn} (hmoved : Moved t t') (h : Spec t' own out) : Spec t own out :=
  ⟨hmoved.trans h.moved, h.inv, h.some⟩

/-! ## 1. Lists -/

theorem count_spanDown (pgno n p : Nat) :
    (spanDown pgno n).count p = if pgno ≤ p ∧ p < pgno + n then 1 else 0 := by
  unfold spanDown
  rw [List.count_reverse]
  exact count_interval pgno n p

theorem count_insertSpan (l : List Nat) (pgno n p : Nat) :
    (insertSpan l pgno n).count p =
      (if pgno ≤ p ∧ p < pgno + n then 1 else 0) + l.count p := by
  have hsplit : l.count p = (l.takeWhile fun q => pgno < q).count p +
      (l.dropWhile fun q => pgno < q).count p := by
    rw [← List.count_append, List.takeWhile_append_dropWhile]
  unfold insertSpan
  rw [List.count_append, List.count_append, count_spanDown, hsplit]
  omega

theorem mem_spanDown {pgno n p : Nat} : p ∈ spanDown pgno n ↔ pgno ≤ p ∧ p < pgno + n := by
  unfold spanDown
  rw [List.mem_reverse, List.mem_range'_1]

theorem spanDown_desc (pgno n : Nat) : (spanDown pgno n).Pairwise fun p q => q ≤ p := by
  unfold spanDown
  rw [List.pairwise_reverse]
  exact List.pairwise_le_range'

theorem dropWhile_le {l : List Nat} (h : l.Pairwise fun p q => q ≤ p) (pgno : Nat) :
    ∀ q ∈ l.dropWhile (fun q => pgno < q), q ≤ pgno := by
  induction l with
  | nil => exact fun q hq => by cases hq
  | cons r l ih =>
      intro q hq
      rw [List.pairwise_cons] at h
      by_cases hr : pgno < r
      · rw [List.dropWhile_cons_of_pos (by simpa using hr)] at hq
        exact ih h.2 q hq
      · rw [List.dropWhile_cons_of_neg (by simpa using hr)] at hq
        rcases List.mem_cons.mp hq with rfl | hq
        · exact Nat.le_of_not_lt hr
        · exact Nat.le_trans (h.1 q hq) (Nat.le_of_not_lt hr)

/-- A span goes into a descending list that has none of its pages. -/
theorem insertSpan_desc {l : List Nat} (h : l.Pairwise fun p q => q ≤ p) {pgno n : Nat}
    (hfree : ∀ q ∈ l, ¬ (pgno ≤ q ∧ q < pgno + n)) :
    (insertSpan l pgno n).Pairwise fun p q => q ≤ p := by
  have htake := h.sublist (List.takeWhile_sublist fun q => pgno < q)
  have hdrop := h.sublist (List.dropWhile_sublist fun q => pgno < q)
  unfold insertSpan
  rw [List.append_assoc, List.pairwise_append, List.pairwise_append]
  refine ⟨htake, ⟨spanDown_desc pgno n, hdrop, ?_⟩, ?_⟩
  · intro p hp q hq
    exact Nat.le_trans (dropWhile_le h pgno q hq) (mem_spanDown.mp hp).1
  · intro p hp q hq
    have habove : pgno < p := by simpa using List.mem_takeWhile_imp hp
    have hout := hfree p ((List.takeWhile_sublist _).subset hp)
    rcases List.mem_append.mp hq with hq | hq
    · have hin := mem_spanDown.mp hq
      omega
    · exact Nat.le_trans (dropWhile_le h pgno q hq) (Nat.le_of_lt habove)

/-! ## 2. A page leaves the dirty list -/

/-- No item of the dirty list is that of the page. -/
def Absent (t : Txn) (pgno : Nat) : Prop := ∀ x ∈ t.dirty, x.pgno ≠ pgno

theorem Absent.eraseIdx (h : Inv t own) (pgno : Nat) :
    ∀ x ∈ t.dirty.eraseIdx (t.dirty.findIdx fun x => x.pgno = pgno), x.pgno ≠ pgno := by
  have hdistinct := h.distinct
  generalize t.dirty = l at hdistinct
  induction l with
  | nil => exact fun x hx => by cases hx
  | cons y l ih =>
      rw [List.map_cons, List.nodup_cons] at hdistinct
      intro x hx
      by_cases hy : y.pgno = pgno
      · rw [List.findIdx_cons, decide_eq_true hy] at hx
        exact fun hpgno => hdistinct.1 (hy.trans hpgno.symm ▸ List.mem_map_of_mem hx)
      · rw [List.findIdx_cons, decide_eq_false hy] at hx
        rcases List.mem_cons.mp hx with rfl | hx
        · exact hy
        · exact ih hdistinct.2 x hx

theorem Absent.wash (h : Inv t own) (pgno npages : Nat) : Absent (pageWash t pgno npages) pgno :=
  Absent.eraseIdx h pgno

theorem Inv.pageWash (h : Inv t own) (pgno npages : Nat) : Inv (pageWash t pgno npages) own := by
  have hsub := List.eraseIdx_sublist t.dirty (t.dirty.findIdx fun x => x.pgno = pgno)
  exact { h with
    tiles := h.tiles
    flagged := fun x hx => h.flagged x (hsub.subset hx)
    owned := fun x hx => h.owned x (hsub.subset hx)
    distinct := h.distinct.sublist (hsub.map Item.pgno)
    clean := h.clean }

theorem Moved.pageWash (t : Txn) (pgno npages : Nat) : Moved t (pageWash t pgno npages) :=
  Moved.of_eq rfl rfl rfl rfl

theorem spillRemove_subset (l : List Nat) (pgno n : Nat) : ∀ p ∈ spillRemove l pgno n, p ∈ l := by
  induction n generalizing l pgno with
  | zero => exact fun p hp => hp
  | succ n ih =>
      intro p hp
      unfold spillRemove at hp
      split at hp
      · exact List.mem_of_mem_erase (ih _ _ p hp)
      · exact hp

theorem Inv.spillRemove (h : Inv t own) (pgno n : Nat) :
    Inv { t with spilled := spillRemove t.spilled pgno n } own :=
  { h with
    tiles := h.tiles
    clean := fun s hs hfrozen =>
      ⟨fun hp => (h.clean s hs hfrozen).1 (spillRemove_subset _ _ _ _ hp),
        (h.clean s hs hfrozen).2⟩ }

/-! ## 3. A page goes out of use -/

theorem Inv.owned_erase (h : Inv t own) (habsent : Absent t s.pgno) :
    ∀ x ∈ t.dirty, x.loose = false →
      ∃ s' ∈ t.used.erase s, s'.pgno = x.pgno ∧ s'.txnid = t.frontTxnid := by
  intro x hx hloose
  obtain ⟨s', hs', hpgno, hfront⟩ := h.owned x hx hloose
  have hne : s' ≠ s := fun heq => habsent x hx (heq ▸ hpgno.symm)
  exact ⟨s', (List.mem_erase_of_ne hne).mpr hs', hpgno, hfront⟩

/-- A page without an item goes to one of the other places. -/
theorem Inv.release (h : Inv t own) (habsent : Absent t s.pgno) {retired repnl : List Nat}
    {first : Nat}
    (htiles : Tiles numMetas first
      (usedPages (t.used.erase s) ++ (own ++ (retired ++ (repnl ++ t.loose)))))
    (hlow : numMetas ≤ first) (hdesc : repnl.Pairwise fun p q => q ≤ p) :
    Inv { t with
      used := t.used.erase s, retired := retired, repnl := repnl, firstUnallocated := first } own :=
  { h with
    tiles := htiles
    low := hlow
    desc := hdesc
    owned := h.owned_erase habsent
    spans := fun s' hs' => h.spans s' (List.mem_of_mem_erase hs')
    clean := fun s' hs' => h.clean s' (List.mem_of_mem_erase hs') }

theorem Inv.toRetired (h : Inv t own) (hs : s ∈ t.used) (habsent : Absent t s.pgno) :
    Inv { t with
      used := t.used.erase s, retired := t.retired ++ spanDown s.pgno s.npages } own := by
  refine h.release habsent (h.tiles.congr fun p => ?_) h.low h.desc
  simp only [Txn.pages, List.count_append]
  rw [usedPages_erase hs p, count_pages, count_spanDown]
  omega

theorem Inv.toRepnl (h : Inv t own) (hs : s ∈ t.used) (habsent : Absent t s.pgno) :
    Inv { t with
      used := t.used.erase s, repnl := insertSpan t.repnl s.pgno s.npages } own := by
  refine h.release habsent (h.tiles.congr fun p => ?_) h.low ?_
  · simp only [Txn.pages, List.count_append]
    rw [usedPages_erase hs p, count_pages, count_insertSpan]
    omega
  · exact insertSpan_desc h.desc fun q hq hin => (h.elsewhere hs (mem_pages.mpr hin)).2.2.1 hq

theorem Inv.toTail (h : Inv t own) (hs : s ∈ t.used) (habsent : Absent t s.pgno)
    (hend : s.pgno + s.npages = t.firstUnallocated) :
    Inv { t with used := t.used.erase s, firstUnallocated := s.pgno } own := by
  have hle : s.pgno ≤ t.firstUnallocated := Nat.le.intro hend
  have hcount : ∀ p, (t.pages own).count p =
      (usedPages (t.used.erase s) ++ (own ++ (t.retired ++ (t.repnl ++ t.loose)))).count p +
        if s.pgno ≤ p ∧ p < t.firstUnallocated then 1 else 0 := by
    intro p
    simp only [Txn.pages, List.count_append]
    rw [usedPages_erase hs p, count_pages, hend]
    omega
  exact h.release habsent (h.tiles.lower hcount hle) (h.tiles.le_of_lower hcount h.low hle) h.desc

theorem Inv.toLoose (h : Inv t own) (hs : s ∈ t.used) (hone : s.npages = 1) :
    Inv (loosen t s) own := by
  have hpages : ∀ p, s.pages.count p = if s.pgno = p then 1 else 0 := by
    intro p
    rw [count_pages, hone]
    split <;> split <;> omega
  exact { h with
    tiles := by
      refine h.tiles.congr fun p => ?_
      simp only [loosen, Txn.pages, List.count_append, List.count_cons, beq_iff_eq]
      rw [usedPages_erase hs p, hpages p]
      omega
    flagged := by
      intro y hy hloose
      obtain ⟨x, hx, rfl⟩ := List.mem_map.mp hy
      by_cases hpgno : x.pgno = s.pgno
      · rw [if_pos hpgno]
        exact hpgno ▸ List.mem_cons_self
      · rw [if_neg hpgno] at hloose ⊢
        exact List.mem_cons_of_mem _ (h.flagged x hx hloose)
    owned := by
      intro y hy hloose
      obtain ⟨x, hx, rfl⟩ := List.mem_map.mp hy
      by_cases hpgno : x.pgno = s.pgno
      · rw [if_pos hpgno] at hloose
        cases hloose
      · rw [if_neg hpgno] at hloose ⊢
        obtain ⟨s', hs', heq, hfront⟩ := h.owned x hx hloose
        have hne : s' ≠ s := fun hsame => hpgno (hsame ▸ heq.symm)
        exact ⟨s', (List.mem_erase_of_ne hne).mpr hs', heq, hfront⟩
    distinct := by
      have hmap : (t.dirty.map fun x => if x.pgno = s.pgno then { x with loose := true } else x).map
          Item.pgno = t.dirty.map Item.pgno := by
        rw [List.map_map]
        exact List.map_congr_left fun x _ => by
          simp only [Function.comp_apply]
          split <;> rfl
      show List.Nodup _
      rw [loosen, hmap]
      exact h.distinct
    counted := congrArg (fun n => n + 1) h.counted
    spans := fun s' hs' => h.spans s' (List.mem_of_mem_erase hs')
    clean := fun s' hs' => h.clean s' (List.mem_of_mem_erase hs') }

/-- A page that is not frozen goes out of use. -/
theorem Moved.release (hlive : ¬ s.txnid < t.txnid) (hfixed : t'.fixed = t.fixed)
    (hgarbage : t'.garbage = t.garbage) (hused : t'.used = t.used.erase s)
    (hretired : t'.retired = t.retired) : Moved t t' where
  fixed := hfixed
  retired := fun p hp => by rw [hretired]; exact hp
  frozen := by
    intro s' hs' hfrozen
    have hne : s' ≠ s := fun heq => hlive (heq ▸ hfrozen)
    rw [hused]
    exact .inl ((List.mem_erase_of_ne hne).mpr hs')
  garbage := hgarbage

/-- Any page may be retired. -/
theorem Moved.toRetired (t : Txn) (s : Span) :
    Moved t { t with
      used := t.used.erase s, retired := t.retired ++ spanDown s.pgno s.npages } where
  fixed := rfl
  retired := fun p hp => List.mem_append_left _ hp
  frozen := by
    intro s' hs' _
    by_cases heq : s' = s
    · refine .inr fun p hp => List.mem_append_right _ ?_
      rw [heq] at hp
      exact mem_spanDown.mpr (mem_pages.mp hp)
    · exact .inl ((List.mem_erase_of_ne heq).mpr hs')
  garbage := rfl

/-! ## 4. `page_retire_ex` -/

/-- The state when an allocation has been asked for. -/
structure Answered (t t' : Txn) (own : List Nat) : Prop where
  inv : Inv t' own
  moved : Moved t t'
  txnid : t'.txnid = t.txnid
  used : t'.used = t.used
  dirty : t'.dirty = t.dirty
  loose : t'.loose = t.loose

theorem need_answered (h : Inv t own) : ∃ a t', need t = (a, t') ∧ Answered t t' own := by
  refine ⟨(need t).1, (need t).2, rfl, h.need, Moved.need t, ?_, ?_, ?_, ?_⟩ <;>
    (unfold need; split <;> rfl)

theorem retire_spec (h : Inv t own) (hs : s ∈ t.used) (habsent : Absent t s.pgno) :
    Spec t own (retire t s) := by
  obtain ⟨a, t', hneed, h'⟩ := need_answered h
  have habsent' : Absent t' s.pgno := by
    unfold Absent
    rw [h'.dirty]
    exact habsent
  unfold retire
  rw [hneed]
  cases a with
  | room =>
      exact Spec.of_inv (h'.moved.trans (Moved.toRetired t' s))
        (h'.inv.toRetired (h'.used ▸ hs) habsent')
  | noMemory => exact Spec.of_inv h'.moved h'.inv
  | full => exact Spec.of_inv h'.moved h'.inv

theorem reclaim_spec (h : Inv t own) (hs : s ∈ t.used) (habsent : Absent t s.pgno)
    (hlive : ¬ s.txnid < t.txnid) : Spec t own (reclaim t s) := by
  obtain ⟨a, t', hneed, h'⟩ := need_answered h
  have habsent' : Absent t' s.pgno := by
    unfold Absent
    rw [h'.dirty]
    exact habsent
  have hfailed := h'.moved.trans (Moved.refundAtTail t')
  unfold reclaim
  rw [hneed]
  cases a with
  | room =>
      have hmoved : Moved t' { t' with
          used := t'.used.erase s, repnl := insertSpan t'.repnl s.pgno s.npages } :=
        Moved.release (h'.txnid ▸ hlive) rfl rfl rfl rfl
      exact Spec.of_inv ((h'.moved.trans hmoved).trans (Moved.refundAtTail _))
        (h'.inv.toRepnl (h'.used ▸ hs) habsent').refundAtTail
  | noMemory => exact Spec.of_inv hfailed h'.inv.refundAtTail
  | full => exact Spec.of_inv hfailed h'.inv.refundAtTail

theorem refundPage_spec (h : Inv t own) (hs : s ∈ t.used) (hlive : ¬ s.txnid < t.txnid)
    {status : Status} (habsent : status ≠ .modifable → Absent t s.pgno)
    (hend : s.pgno + s.npages = t.firstUnallocated) (si : Bool) :
    Inv (refundPage t status si s) own ∧ Moved t (refundPage t status si s) := by
  -- what is left is the same for each of the three ways to take the page from its list
  have hrest : ∀ t' : Txn, Inv t' own → Absent t' s.pgno → t'.used = t.used →
      t'.firstUnallocated = t.firstUnallocated → Moved t t' →
      Inv (txnRefund { t' with used := t'.used.erase s, firstUnallocated := s.pgno }) own ∧
        Moved t (txnRefund { t' with used := t'.used.erase s, firstUnallocated := s.pgno }) := by
    intro t' h' habsent' hused hfirst hmoved
    have hlive' : ¬ s.txnid < t'.txnid := hmoved.txnid ▸ hlive
    have hmoved' : Moved t' { t' with used := t'.used.erase s, firstUnallocated := s.pgno } :=
      Moved.release hlive' rfl rfl rfl rfl
    exact ⟨(h'.toTail (hused ▸ hs) habsent' (hfirst ▸ hend)).txnRefund,
      (hmoved.trans hmoved').trans (Moved.txnRefund _)⟩
  unfold refundPage
  by_cases hmod : status = .modifable
  · simp only [if_pos hmod]
    exact hrest _ (h.pageWash s.pgno s.npages) (Absent.wash h s.pgno s.npages) rfl rfl
      (Moved.pageWash t s.pgno s.npages)
  · simp only [if_neg hmod]
    cases si with
    | true =>
        exact hrest _ (h.spillRemove s.pgno s.npages) (habsent hmod) rfl rfl
          (Moved.of_eq rfl rfl rfl rfl)
    | false => exact hrest t h (habsent hmod) rfl rfl (Moved.refl t)

theorem retireOwn_spec (h : Inv t own) (hs : s ∈ t.used) (hlive : ¬ s.txnid < t.txnid)
    {status : Status} (habsent : status ≠ .modifable → Absent t s.pgno) (dpLooseLimit : Nat)
    (si : Bool) : Spec t own (retireOwn t dpLooseLimit status si s) := by
  unfold retireOwn
  by_cases hmod : status = .modifable
  · rw [if_pos hmod]
    split
    next hloose =>
      exact Spec.of_inv (Moved.release hlive rfl rfl rfl rfl) (h.toLoose hs hloose.1)
    next =>
      exact (reclaim_spec (h.pageWash s.pgno s.npages) hs (Absent.wash h s.pgno s.npages)
        hlive).after (Moved.pageWash t s.pgno s.npages)
  · rw [if_neg hmod]
    have hremoved := h.spillRemove s.pgno s.npages
    have hmoved : Moved t { t with spilled := spillRemove t.spilled s.pgno s.npages } :=
      Moved.of_eq rfl rfl rfl rfl
    cases si with
    | true =>
        simp only [if_true]
        split
        · exact (retire_spec hremoved hs (habsent hmod)).after hmoved
        · exact (reclaim_spec hremoved hs (habsent hmod) hlive).after hmoved
    | false =>
        simp only [Bool.false_eq_true, if_false]
        split
        · exact reclaim_spec h hs (habsent hmod) hlive
        · exact retire_spec h hs (habsent hmod)

theorem retireBy_spec (h : Inv t own) (hs : s ∈ t.used) {status : Status}
    (hfrozen : s.txnid < t.txnid → status = .frozen)
    (habsent : status ≠ .modifable → Absent t s.pgno) (dpLooseLimit : Nat) :
    Spec t own (retireBy t dpLooseLimit status s) := by
  unfold retireBy
  by_cases hstatus : status = .frozen
  · simp only [if_pos hstatus]
    exact retire_spec h hs (habsent (by rw [hstatus]; decide))
  · simp only [if_neg hstatus]
    have hlive : ¬ s.txnid < t.txnid := fun hlt => hstatus (hfrozen hlt)
    split
    next hend =>
      obtain ⟨hinv, hmoved⟩ := refundPage_spec h hs hlive habsent hend
        (status = .spilled ∧ s.pgno ∈ t.spilled)
      exact Spec.of_inv hmoved hinv
    next => exact retireOwn_spec h hs hlive habsent dpLooseLimit _

/-- What the caller says of the page is true. -/
def Truthful (t : Txn) (ask : Ask) (s : Span) : Prop := ask = .frozen → s.txnid < t.txnid

theorem absent_of_txnid (h : Inv t own) (hs : s ∈ t.used) (hne : s.txnid ≠ t.frontTxnid) :
    Absent t s.pgno :=
  fun _ hx heq => hne (h.item_of_used hs hx heq).2

/-- A frozen page is found to be so, whatever the caller knows. -/
theorem pageStatus_frozen (h : Inv t own) (hs : s ∈ t.used) (ask : Ask)
    (hlt : s.txnid < t.txnid) : pageStatus t s ask = .frozen := by
  have hbylists : statusByLists t s.pgno = .frozen := by
    have habsent := absent_of_txnid h hs (Nat.ne_of_lt (Nat.lt_of_lt_of_le hlt h.front))
    have hexist : txnDplExist t s.pgno = false := by
      unfold txnDplExist
      rw [List.any_eq_false]
      exact fun x hx => by simpa using habsent x hx
    obtain ⟨hspilled, hparents⟩ := h.clean s hs hlt
    have hnone : ∀ l : List Parent, (∀ par ∈ l, s.pgno ∉ par.dirty ∧ s.pgno ∉ par.spilled) →
        statusByParents s.pgno l = .frozen := by
      intro l
      induction l with
      | nil => exact fun _ => rfl
      | cons par l ih =>
          intro hl
          have hpar := hl par List.mem_cons_self
          rw [statusByParents, if_neg hpar.1, if_neg hpar.2]
          exact ih fun q hq => hl q (List.mem_cons_of_mem par hq)
    rw [statusByLists, hexist, if_neg (by decide), if_neg hspilled]
    exact hnone t.parents hparents
  cases ask with
  | given => exact if_pos hlt
  | fetch rc => exact if_pos hlt
  | frozen => rfl
  | typed => exact hbylists

theorem pageStatus_absent (h : Inv t own) (hs : s ∈ t.used) {ask : Ask}
    (htrue : Truthful t ask s) (hne : pageStatus t s ask ≠ .modifable) : Absent t s.pgno := by
  have hbyheader : statusByHeader t s ≠ .modifable → Absent t s.pgno := by
    intro hstatus
    refine absent_of_txnid h hs fun hfront => hstatus ?_
    have hlive : ¬ s.txnid < t.txnid := Nat.not_lt.mpr (hfront ▸ h.front)
    rw [statusByHeader, if_neg hlive, if_pos hfront]
  cases ask with
  | given => exact hbyheader hne
  | fetch rc => exact hbyheader hne
  | frozen =>
      exact absent_of_txnid h hs (Nat.ne_of_lt (Nat.lt_of_lt_of_le (htrue rfl) h.front))
  | typed =>
      intro x hx heq
      refine hne ?_
      have hexist : txnDplExist t s.pgno = true :=
        List.any_eq_true.mpr ⟨x, hx, by simpa using heq⟩
      exact if_pos hexist

theorem pageRetireEx_spec (h : Inv t own) (hs : s ∈ t.used) {ask : Ask}
    (htrue : Truthful t ask s) (dpLooseLimit : Nat) :
    Spec t own (pageRetireEx dpLooseLimit t ask s) := by
  have hfound : ∀ t' : Txn, Inv t' own → Moved t t' → t'.used = t.used →
      Spec t own (retireBy t' dpLooseLimit (pageStatus t' s ask) s) := by
    intro t' h' hmoved hused
    have hs' : s ∈ t'.used := hused ▸ hs
    have htrue' : Truthful t' ask s := fun hask => hmoved.txnid ▸ htrue hask
    exact (retireBy_spec h' hs' (pageStatus_frozen h' hs' ask) (pageStatus_absent h' hs' htrue')
      dpLooseLimit).after hmoved
  have hused : (txnDplSearch t).used = t.used := by
    unfold txnDplSearch txnDplSort
    split
    · rfl
    · split <;> rfl
  unfold pageRetireEx
  split
  iterate 4
    · dsimp only
      split
      · exact hfound _ h.txnDplSearch (Moved.txnDplSearch t) hused
      · exact hfound t h (Moved.refl t) rfl
  · exact Spec.of_inv (Moved.refl t) h

/-! ## 5. `gc_merge_loose` -/

theorem count_pnlMerge (dst src : List Nat) (p : Nat) :
    (pnlMerge dst src).count p = dst.count p + src.count p := by
  unfold pnlMerge
  rw [(List.merge_perm_append _).count_eq, List.count_append]

theorem count_pnlSort (l : List Nat) (p : Nat) : (pnlSort l).count p = l.count p :=
  (List.perm_insertionSort _ l).count_eq p

theorem pnlMerge_desc {dst src : List Nat} (hdst : dst.Pairwise fun p q => q ≤ p)
    (hsrc : src.Pairwise fun p q => q ≤ p) : (pnlMerge dst src).Pairwise fun p q => q ≤ p := by
  have hmerged := @List.pairwise_merge Nat (fun p q => decide (q ≤ p))
    (fun a b c hab hbc => by simp only [decide_eq_true_eq] at *; omega)
    (fun a b => by simp only [Bool.or_eq_true, decide_eq_true_eq]; omega) dst src
    (by simpa using hdst) (by simpa using hsrc)
  simpa [pnlMerge] using hmerged

theorem pnlSort_desc (l : List Nat) : (pnlSort l).Pairwise fun p q => q ≤ p := by
  have : Std.Total (fun p q : Nat => q ≤ p) := ⟨fun a b => Nat.le_total b a⟩
  have : IsTrans Nat (fun p q => q ≤ p) := ⟨fun a b c hab hbc => Nat.le_trans hbc hab⟩
  exact List.pairwise_insertionSort _ l

/-- The loose pages go to one of the other lists. -/
theorem Inv.dropLoose (h : Inv t own) {retired repnl : List Nat}
    (hcount : ∀ p, retired.count p + repnl.count p =
      t.retired.count p + (t.repnl.count p + t.loose.count p))
    (hdesc : repnl.Pairwise fun p q => q ≤ p) :
    Inv (dropLoose { t with retired := retired, repnl := repnl }) own :=
  { h with
    tiles := by
      refine h.tiles.congr fun p => ?_
      have hp := hcount p
      simp only [Pages.dropLoose, Txn.pages, List.count_append, List.count_nil]
      omega
    desc := hdesc
    flagged := by
      intro x hx hloose
      have hkept := (List.mem_filter.mp hx).2
      rw [hloose] at hkept
      cases hkept
    owned := fun x hx => h.owned x (List.mem_filter.mp hx).1
    distinct := h.distinct.sublist (List.filter_sublist.map Item.pgno)
    counted := rfl
    clean := h.clean }

theorem gcMergeLoose_spec (h : Inv t own) (gcDirty : Bool) :
    Spec t own (gcMergeLoose t gcDirty) := by
  obtain ⟨a, t', hneed, h'⟩ := need_answered h
  unfold gcMergeLoose
  rw [hneed]
  cases a with
  | room =>
      dsimp only
      split
      · refine Spec.of_inv (h'.moved.trans ⟨⟨rfl, ?_, fun s hs _ => .inl hs⟩, rfl⟩)
          (h'.inv.dropLoose (fun p => ?_) h'.inv.desc)
        · exact fun p hp => List.mem_append_left _ hp
        · rw [List.count_append]
          omega
      · refine Spec.of_inv (h'.moved.trans (Moved.of_eq rfl rfl rfl rfl))
          (h'.inv.dropLoose (fun p => ?_) (pnlMerge_desc h'.inv.desc (pnlSort_desc _)))
        rw [count_pnlMerge, count_pnlSort]
  | noMemory => exact Spec.of_inv h'.moved h'.inv
  | full => exact Spec.of_inv h'.moved h'.inv

end Mdbx.Pages
