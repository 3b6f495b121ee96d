import Mdbx.Pages.Retire

/-!
# Pages.Take — pages that are taken for use

A page is in hand from when it leaves `repnl` or the unallocated tail until it is in the dirty list.
A failure in between leaves it in no place.
-/

namespace Mdbx.Pages

variable {t t' : Txn} {own own' : List Nat} {pgno n : Nat}

/-! ## 1. `page_dirty` -/

theorem Inv.purged (h : Inv t own) {lp : Nat} {rest : List Nat} (hloose : t.loose = lp :: rest) :
    Inv (purged t lp rest) own := by
  have hsub := List.eraseIdx_sublist t.dirty (t.dirty.findIdx fun x => x.pgno = lp)
  have hfree : lp ∉ t.repnl := by
    have hsum := h.sum_le_one lp
    rw [hloose, List.count_cons_self] at hsum
    rw [← List.count_pos_iff]
    omega
  exact { h with
    tiles := by
      refine h.tiles.congr fun p => ?_
      simp only [Pages.purged, txnDplRemoveEx, Txn.pages, List.count_append]
      rw [count_insertSpan, hloose, List.count_cons]
      simp only [beq_iff_eq]
      split <;> split <;> omega
    desc := insertSpan_desc h.desc fun q hq hin => by
      have heq : q = lp := by omega
      exact hfree (heq ▸ hq)
    flagged := by
      intro x hx hflag
      have hmem := h.flagged x (hsub.subset hx) hflag
      rw [hloose] at hmem
      rcases List.mem_cons.mp hmem with heq | hrest
      · exact absurd heq (Absent.eraseIdx h lp x hx)
      · exact hrest
    owned := fun x hx => h.owned x (hsub.subset hx)
    distinct := h.distinct.sublist (hsub.map Item.pgno)
    counted := by
      show t.looseCount - 1 = rest.length
      rw [h.counted, hloose, List.length_cons, Nat.add_sub_cancel]
    clean := h.clean }

theorem txnDplSearch_loose (t : Txn) : (txnDplSearch t).loose = t.loose := by
  unfold txnDplSearch txnDplSort
  split
  · rfl
  · split <;> rfl

theorem purgeLoose_spec (h : Inv t own) {lp : Nat} {rest : List Nat} (hloose : t.loose = lp :: rest) :
    Moved t (purgeLoose t lp rest).2 ∧ Inv (purgeLoose t lp rest).2 own ∧
      ((purgeLoose t lp rest).1 = .success ∨ lossy (purgeLoose t lp rest).1 = true) := by
  obtain ⟨a, t', hneed, h'⟩ := need_answered h
  have hfailed : Moved t { t' with error := true } ∧ Inv { t' with error := true } own :=
    ⟨h'.moved.trans (Moved.of_eq rfl rfl rfl rfl), h'.inv.same rfl rfl rfl rfl⟩
  unfold purgeLoose
  rw [hneed]
  cases a with
  | room =>
      have hhead : (txnDplSearch t').loose = lp :: rest :=
        (txnDplSearch_loose t').trans (h'.loose.trans hloose)
      have hmoved : Moved (txnDplSearch t') (purged (txnDplSearch t') lp rest) :=
        Moved.of_eq rfl rfl rfl rfl
      exact ⟨((h'.moved.trans (Moved.txnDplSearch t')).trans hmoved).trans (Moved.refundAtTail _),
        (h'.inv.txnDplSearch.purged hhead).refundAtTail, .inl rfl⟩
  | noMemory => exact ⟨hfailed.1, hfailed.2, .inr rfl⟩
  | full => exact ⟨hfailed.1, hfailed.2, .inr rfl⟩

/-- The item of a new page is the only one with its page number. -/
theorem Inv.fresh (h : Inv t (List.range' pgno n ++ own)) (hn : 0 < n) :
    ∀ x ∈ t.dirty, x.pgno ≠ pgno := by
  intro x hx heq
  have hsum := h.sum_le_one pgno
  rw [List.count_append, count_interval, if_pos (by omega)] at hsum
  cases hloose : x.loose with
  | true =>
      have hpos := List.count_pos_iff.mpr (h.flagged x hx hloose)
      rw [heq] at hpos
      omega
  | false =>
      obtain ⟨s, hs, hpgno, _⟩ := h.owned x hx hloose
      have hpos := mem_usedPages hs (h.head_mem hs)
      rw [hpgno, heq] at hpos
      omega

/-- Pages in hand become those of a dirty page in use. -/
theorem Inv.dirtied (h : Inv t (List.range' pgno n ++ own)) (hn : 0 < n) {dirty : List Item}
    (hperm : dirty.Perm (⟨pgno, n, false⟩ :: t.dirty))
    {sorted pagesIncludingLoose dirtyroom : Nat} : Inv { t with
      dirty := dirty
      sorted := sorted
      pagesIncludingLoose := pagesIncludingLoose
      dirtyroom := dirtyroom
      used := ⟨pgno, n, t.frontTxnid⟩ :: t.used } own :=
  { h with
    tiles := by
      refine h.tiles.congr fun p => ?_
      have hnew : (usedPages (⟨pgno, n, t.frontTxnid⟩ :: t.used)).count p =
          (List.range' pgno n).count p + (usedPages t.used).count p := List.count_append
      simp only [Txn.pages, List.count_append]
      rw [hnew]
      omega
    flagged := by
      intro x hx hloose
      rcases List.mem_cons.mp (hperm.mem_iff.mp hx) with rfl | hold
      · cases hloose
      · exact h.flagged x hold hloose
    owned := by
      intro x hx hloose
      rcases List.mem_cons.mp (hperm.mem_iff.mp hx) with rfl | hold
      · exact ⟨_, List.mem_cons_self, rfl, rfl⟩
      · obtain ⟨s, hs, hrest⟩ := h.owned x hold hloose
        exact ⟨s, List.mem_cons_of_mem _ hs, hrest⟩
    distinct := by
      refine (hperm.map Item.pgno).nodup_iff.mpr (List.nodup_cons.mpr ⟨?_, h.distinct⟩)
      intro hmem
      obtain ⟨x, hx, heq⟩ := List.mem_map.mp hmem
      exact h.fresh hn x hx heq
    spans := by
      intro s hs
      rcases List.mem_cons.mp hs with rfl | hs
      · exact hn
      · exact h.spans s hs
    clean := by
      intro s hs hfrozen
      rcases List.mem_cons.mp hs with rfl | hs
      · exact absurd hfrozen (Nat.not_lt.mpr h.front)
      · exact h.clean s hs hfrozen }

theorem Moved.use (t : Txn) (s : Span) : Moved t { t with used := s :: t.used } where
  fixed := rfl
  retired := fun _ hp => hp
  frozen := fun _ hs _ => .inl (List.mem_cons_of_mem s hs)
  garbage := rfl

/-- The outcome of a step that makes the pages in hand those of a dirty page. -/
structure Dirtied (t : Txn) (own : List Nat) (pgno n : Nat) (out : Rc × Txn) : Prop where
  moved : Moved t out.2
  ok : out.1 = .success →
    Inv { out.2 with used := ⟨pgno, n, out.2.frontTxnid⟩ :: out.2.used } own
  failed : out.1 ≠ .success → lossy out.1 = true ∧ Inv out.2 (List.range' pgno n ++ own)

theorem insert_perm (l : List Item) (k : Nat) (x : Item) (q : Item → Bool) :
    ((l.take k).takeWhile q ++ x :: ((l.take k).dropWhile q ++ l.drop k)).Perm (x :: l) := by
  have hl : (l.take k).takeWhile q ++ ((l.take k).dropWhile q ++ l.drop k) = l := by
    rw [← List.append_assoc, List.takeWhile_append_dropWhile, List.take_append_drop]
  exact List.perm_middle.trans (List.Perm.of_eq (congrArg (fun m => x :: m) hl))

theorem dirtyAppend_spec (h : Inv t (List.range' pgno n ++ own)) (hn : 0 < n) :
    Dirtied t own pgno n (dirtyAppend t pgno n) := by
  obtain ⟨a, t', hneed, h'⟩ := need_answered h
  have hfailed : ∀ rc, rc ≠ .success → lossy rc = true →
      Dirtied t own pgno n (rc, { t' with error := true }) := fun rc hne hrc =>
    ⟨h'.moved.trans (Moved.of_eq rfl rfl rfl rfl), fun hok => absurd hok hne,
      fun _ => ⟨hrc, h'.inv.same rfl rfl rfl rfl⟩⟩
  unfold dirtyAppend txnDplAppend
  rw [hneed]
  cases a with
  | room =>
      dsimp only
      split_ifs
      · exact ⟨h'.moved.trans (Moved.of_eq rfl rfl rfl rfl),
          fun _ => h'.inv.dirtied hn (insert_perm _ _ _ _), fun hne => absurd rfl hne⟩
      · exact ⟨h'.moved.trans (Moved.of_eq rfl rfl rfl rfl),
          fun _ => h'.inv.dirtied hn (List.perm_append_singleton _ _), fun hne => absurd rfl hne⟩
  | noMemory => exact hfailed .enomem (by decide) rfl
  | full => exact hfailed .txnFull (by decide) rfl

theorem Dirtied.after {out : Rc × Txn} (hmoved : Moved t t') (h : Dirtied t' own pgno n out) :
    Dirtied t own pgno n out :=
  ⟨hmoved.trans h.moved, h.ok, h.failed⟩

theorem pageDirty_spec (h : Inv t (List.range' pgno n ++ own)) (hn : 0 < n) :
    Dirtied t own pgno n (pageDirty t pgno n) := by
  unfold pageDirty
  split
  · split
    next => exact ⟨Moved.refl t, fun hok => Rc.noConfusion hok, fun _ => ⟨rfl, h⟩⟩
    next lp rest hloose =>
      obtain ⟨hmoved, hinv, hrc⟩ := purgeLoose_spec h hloose
      split
      next t' heq =>
        rw [heq] at hmoved hinv
        exact (dirtyAppend_spec hinv hn).after hmoved
      next hne =>
        rcases hrc with hok | hlossy
        · exact (hne _ (Prod.ext hok rfl)).elim
        · refine ⟨hmoved, fun hok => ?_, fun _ => ⟨hlossy, hinv⟩⟩
          rw [hok] at hlossy
          cases hlossy
  · exact dirtyAppend_spec h hn

theorem pageAllocFinalize_spec (h : Inv t (List.range' pgno n ++ own)) (hn : 0 < n) :
    Spec t own (pageAllocFinalize t pgno n) ∧
      ((pageAllocFinalize t pgno n).1 = .success ∨
        lossy (pageAllocFinalize t pgno n).1 = true) := by
  obtain ⟨a, t', hneed, h'⟩ := need_answered h
  have hfailed : Spec t own (.enomem, { t' with error := true }) := by
    have hinv : Inv { t' with error := true } (List.range' pgno n ++ own) :=
      h'.inv.same rfl rfl rfl rfl
    exact Spec.of_lossy rfl (h'.moved.trans (Moved.of_eq rfl rfl rfl rfl)) hinv
  unfold pageAllocFinalize
  rw [hneed]
  cases a with
  | room =>
      have hdirty := pageDirty_spec h'.inv hn
      dsimp only
      split
      next t'' heq =>
        rw [heq] at hdirty
        exact ⟨Spec.of_inv ((h'.moved.trans hdirty.moved).trans (Moved.use _ _)) (hdirty.ok rfl),
          .inl rfl⟩
      next hne =>
        have hrc : (pageDirty t' pgno n).1 ≠ .success := fun hok => hne _ (Prod.ext hok rfl)
        obtain ⟨hlossy, hinv⟩ := hdirty.failed hrc
        exact ⟨Spec.of_lossy hlossy (h'.moved.trans hdirty.moved) hinv, .inr hlossy⟩
  | noMemory => exact ⟨hfailed, .inr rfl⟩
  | full => exact ⟨hfailed, .inr rfl⟩

/-! ## 2. Pages of `repnl` -/

/-- Pages leave `repnl` and are in hand. -/
theorem Inv.fromRepnl (h : Inv t own) {repnl : List Nat} (hsub : repnl.Sublist t.repnl)
    (hcount : ∀ p, t.repnl.count p = repnl.count p + (List.range' pgno n).count p) :
    Inv { t with repnl := repnl } (List.range' pgno n ++ own) :=
  { h with
    tiles := by
      refine h.tiles.congr fun p => ?_
      have hp := hcount p
      simp only [Txn.pages, List.count_append]
      omega
    desc := h.desc.sublist hsub
    clean := h.clean }

theorem repnlGetSingle_spec (h : Inv t own) (hout : repnlGetSingle t = some (pgno, t')) :
    Moved t t' ∧ Inv t' (List.range' pgno 1 ++ own) := by
  unfold repnlGetSingle at hout
  obtain ⟨p, hlast, heq⟩ := Option.map_eq_some_iff.mp hout
  obtain ⟨rfl, rfl⟩ := Prod.mk.inj heq
  have hsplit : t.repnl.dropLast ++ [p] = t.repnl :=
    List.dropLast_append_getLast? p hlast
  refine ⟨Moved.of_eq rfl rfl rfl rfl, h.fromRepnl (List.dropLast_sublist _) fun q => ?_⟩
  rw [← List.count_append]
  exact congrArg (List.count q) hsplit.symm

theorem ascending_ge {q v k : Nat} {l : List Nat} (h : (q :: l).Pairwise (· < ·))
    (hk : (q :: l)[k]? = some v) : q + k ≤ v := by
  induction k generalizing q l with
  | zero =>
      rw [List.getElem?_cons_zero] at hk
      exact Nat.le_of_eq (Option.some.inj hk)
  | succ k ih =>
      rw [List.getElem?_cons_succ] at hk
      cases l with
      | nil => cases hk
      | cons r l =>
          rw [List.pairwise_cons] at h
          have hqr := h.1 r List.mem_cons_self
          have hr := ih h.2 hk
          omega

/-- An ascending list that reaches `p + k` at place `k` has no gap up to there. -/
theorem ascending_run {p k : Nat} {l : List Nat} (h : (p :: l).Pairwise (· < ·))
    (hk : (p :: l)[k]? = some (p + k)) : (p :: l).take (k + 1) = List.range' p (k + 1) := by
  induction k generalizing p l with
  | zero => rfl
  | succ k ih =>
      rw [List.getElem?_cons_succ] at hk
      cases l with
      | nil => cases hk
      | cons q l =>
          rw [List.pairwise_cons] at h
          have hpq := h.1 q List.mem_cons_self
          have hq := ascending_ge h.2 hk
          obtain rfl : q = p + 1 := by omega
          have hrest := ih h.2 (hk.trans (congrArg some (by omega)))
          rw [List.take_succ_cons, hrest]
          rfl

theorem cutSequence_spec {l rest : List Nat} (h : l.Pairwise (· < ·)) (hn : 0 < n)
    (hout : cutSequence n l = some (pgno, rest)) : rest.Sublist l ∧
      ∀ p, l.count p = rest.count p + (List.range' pgno n).count p := by
  induction l generalizing rest with
  | nil => cases hout
  | cons q l ih =>
      unfold cutSequence at hout
      split at hout
      next hrun =>
        obtain ⟨rfl, rfl⟩ := Prod.mk.inj (Option.some.inj hout)
        have htake := ascending_run h hrun
        rw [Nat.sub_add_cancel hn] at htake
        refine ⟨List.drop_sublist n _, fun p => ?_⟩
        rw [← htake, Nat.add_comm, ← List.count_append, List.take_append_drop]
      next =>
        obtain ⟨⟨first, left⟩, hcut, heq⟩ := Option.map_eq_some_iff.mp hout
        simp only [Prod.mk.injEq] at heq
        obtain ⟨rfl, rfl⟩ := heq
        obtain ⟨hsub, hcount⟩ := ih (List.pairwise_cons.mp h).2 hcut
        refine ⟨hsub.cons_cons q, fun p => ?_⟩
        rw [List.count_cons, List.count_cons, hcount p]
        omega

theorem Inv.repnl_ascending (h : Inv t own) : t.repnl.reverse.Pairwise (· < ·) := by
  rw [List.pairwise_reverse]
  have hnodup : t.repnl.Nodup := List.nodup_iff_count.mpr fun p => by
    have hsum := h.sum_le_one p
    omega
  exact (h.desc.and hnodup).imp fun hpq => Nat.lt_of_le_of_ne hpq.1 (Ne.symm hpq.2)

theorem repnlGetSequence_spec (h : Inv t own) (hn : 0 < n)
    (hout : repnlGetSequence t n false = some (pgno, t')) :
    Moved t t' ∧ Inv t' (List.range' pgno n ++ own) := by
  unfold repnlGetSequence at hout
  obtain ⟨⟨p, rest⟩, hcut, heq⟩ := Option.map_eq_some_iff.mp hout
  obtain ⟨rfl, rfl⟩ := Prod.mk.inj heq
  obtain ⟨hsub, hcount⟩ := cutSequence_spec h.repnl_ascending hn hcut
  refine ⟨Moved.of_eq rfl rfl rfl rfl, h.fromRepnl ?_ fun q => ?_⟩
  · have hreverse := hsub.reverse
    rwa [List.reverse_reverse] at hreverse
  · have hq := hcount q
    rw [List.count_reverse] at hq ⊢
    exact hq

/-- What `repnlTake` leaves: nothing changes where pages are only reserved. -/
theorem repnlTake_spec (h : Inv t own) {a : Call} (hnum : a.reserve = false → 0 < a.num)
    (hout : repnlTake a t = some (pgno, t')) : Moved t t' ∧ (a.reserve = true → t' = t) ∧
      (a.reserve = false → Inv t' (List.range' pgno a.num ++ own)) := by
  unfold repnlTake at hout
  split at hout
  · cases hout
  · cases hreserve : a.reserve with
    | true =>
        have hsame : t' = t := by
          rw [hreserve] at hout
          split at hout
          · exact (Prod.mk.inj (Option.some.inj hout)).2.symm
          · obtain ⟨_, _, heq⟩ := Option.map_eq_some_iff.mp hout
            exact (Prod.mk.inj heq).2.symm
        exact ⟨hsame ▸ Moved.refl t, fun _ => hsame, fun hno => Bool.noConfusion hno⟩
    | false =>
        rw [hreserve] at hout
        split at hout
        next hone =>
          obtain ⟨hmoved, hinv⟩ := repnlGetSingle_spec h hout
          exact ⟨hmoved, fun hno => Bool.noConfusion hno, fun _ => hone.symm ▸ hinv⟩
        next =>
          obtain ⟨hmoved, hinv⟩ := repnlGetSequence_spec h (hnum hreserve) hout
          exact ⟨hmoved, fun hno => Bool.noConfusion hno, fun _ => hinv⟩

/-! ## 3. The end of an allocation -/

/-- The outcome of an allocation: it keeps the partition unless it fails for lack of memory or of
room, or makes the transaction erroneous. -/
structure Ended (t : Txn) (own : List Nat) (ret : Ret) : Prop where
  moved : Moved t ret.txn
  ok : ret.err = .success → Inv ret.txn own
  inv : lossy ret.err = false → ret.txn.error = false → Inv ret.txn own
  some : ∃ own', Inv ret.txn own'

theorem Spec.ended {ret : Ret} (h : Spec t own (ret.err, ret.txn)) : Ended t own ret :=
  ⟨h.moved, fun hok => h.inv (hok ▸ rfl), fun hrc _ => h.inv hrc, h.some⟩

theorem Ended.after {ret : Ret} (hmoved : Moved t t') (h : Ended t' own ret) : Ended t own ret :=
  ⟨hmoved.trans h.moved, h.ok, h.inv, h.some⟩

/-- What holds where `gc_alloc_ex` comes to its end. -/
def Ready (a : Call) (own : List Nat) : Outcome → Txn → Prop
  | .found pgno, t => (a.reserve = true → Inv t own) ∧
      (a.reserve = false → Inv t (List.range' pgno a.num ++ own))
  | .failed rc, t => rc ≠ .success ∧ (lossy rc = false → t.error = false → Inv t own) ∧
      ∃ own', Inv t own'
  | _, t => Inv t own

theorem allocFail_spec (a : Call) {rc : Rc} (hne : rc ≠ .success)
    (h : lossy rc = false → t.error = false → Inv t own) (hsome : ∃ own', Inv t own') :
    Ended t own (allocFail a rc t) := by
  obtain ⟨own', hown'⟩ := hsome
  have hrefund : Ended t own ⟨rc, none, if t.error then t else refundAtTail t⟩ := by
    cases herror : t.error with
    | true => exact ⟨Moved.refl t, fun hok => absurd hok hne,
        fun _ hno => absurd (herror.symm.trans hno) (by decide), own', hown'⟩
    | false => exact ⟨Moved.refundAtTail t, fun hok => absurd hok hne,
        fun hrc _ => (h hrc herror).refundAtTail, own', hown'.refundAtTail⟩
  unfold allocFail
  dsimp only
  generalize (if t.error then t else refundAtTail t) = t' at hrefund
  obtain ⟨own'', hown''⟩ := hrefund.some
  split
  · exact hrefund
  · exact ⟨hrefund.moved.trans (Moved.of_eq rfl rfl rfl rfl), fun hok => absurd hok hne,
      fun _ hno => Bool.noConfusion hno, own'', hown''.same rfl rfl rfl rfl⟩

/-- The tail gives pages. -/
theorem Inv.fromTail (h : Inv t own) (n : Nat) :
    Inv { t with firstUnallocated := t.firstUnallocated + n }
      (List.range' t.firstUnallocated n ++ own) :=
  { h with
    tiles := by
      refine h.tiles.extend (fun p => ?_) h.low (Nat.le_add_right _ n)
      simp only [Txn.pages, List.count_append]
      rw [count_interval]
      omega
    low := Nat.le_trans h.low (Nat.le_add_right _ n)
    clean := h.clean }

theorem finalized_spec {a : Call} (h : Inv t (List.range' pgno a.num ++ own)) (hn : 0 < a.num)
    {ret : Ret} (hret : ret = match pageAllocFinalize t pgno a.num with
      | (.success, t) => ⟨.success, some pgno, t⟩
      | (rc, t) => allocFail a rc t) : Ended t own ret := by
  have hfinal := (pageAllocFinalize_spec h hn).1
  rw [hret]
  split
  next heq =>
    rw [heq] at hfinal
    exact Spec.ended hfinal
  next hne heq =>
    rw [heq] at hfinal
    exact (allocFail_spec a (fun hok => hne hok) (fun hrc _ => hfinal.inv hrc) hfinal.some).after hfinal.moved

theorem finish_spec {a : Call} (hnum : a.reserve = false → 0 < a.num) {o : Outcome}
    (h : Ready a own o t) : Ended t own (finish a (o, t)) := by
  cases o with
  | found pgno =>
      unfold finish allocDone
      cases hreserve : a.reserve with
      | true => exact Spec.ended (Spec.of_inv (Moved.refl t) (h.1 hreserve))
      | false => exact finalized_spec (h.2 hreserve) (hnum hreserve) rfl
  | extend =>
      unfold finish allocDone
      cases hreserve : a.reserve with
      | true => exact Spec.ended (Spec.of_inv (Moved.refl t) h)
      | false =>
          have hmoved : Moved t { t with firstUnallocated := t.firstUnallocated + a.num } :=
            Moved.of_eq rfl rfl rfl rfl
          exact (finalized_spec (Inv.fromTail h a.num) (hnum hreserve) rfl).after hmoved
  | reserved rc => exact Spec.ended (Spec.of_inv (Moved.refl t) h)
  | failed rc => exact allocFail_spec a h.1 h.2.1 h.2.2

theorem noGc_spec (e : Env) (a : Call) (h : Inv t own) :
    Moved t (noGc e a t).2 ∧ Ready a own (noGc e a t).1 (noGc e a t).2 := by
  have hfailed : ∀ rc, rc ≠ .success → Ready a own (.failed rc) t :=
    fun _ hne => ⟨hne, fun _ _ => h, own, h⟩
  unfold noGc
  split
  · exact ⟨Moved.refl t, hfailed _ (by decide)⟩
  · dsimp only
    split_ifs with _ _ hresize
    · exact ⟨Moved.refl t, h⟩
    · exact ⟨Moved.refl t, hfailed _ (by decide)⟩
    · exact ⟨Moved.of_eq rfl rfl rfl rfl, h.same rfl rfl rfl rfl⟩
    · exact ⟨Moved.refl t, hfailed _ hresize⟩

/-! ## 4. `gc_alloc_single` -/

/-- The head of the loose list is in use again. -/
theorem Inv.popLoose (h : Inv t own) {lp : Nat} {rest : List Nat} (hloose : t.loose = lp :: rest) :
    Inv (popLoose t lp rest) own := by
  have honce : lp ∉ rest := by
    have hsum := h.sum_le_one lp
    rw [hloose, List.count_cons_self] at hsum
    rw [← List.count_pos_iff]
    omega
  exact { h with
    tiles := by
      refine h.tiles.congr fun p => ?_
      have hnew : (usedPages (⟨lp, 1, t.frontTxnid⟩ :: t.used)).count p =
          [lp].count p + (usedPages t.used).count p := List.count_append
      simp only [Pages.popLoose, Txn.pages, List.count_append]
      rw [hnew, hloose, List.count_cons, List.count_cons, List.count_nil]
      omega
    flagged := by
      intro y hy hflag
      obtain ⟨x, hx, rfl⟩ := List.mem_map.mp hy
      by_cases hpgno : x.pgno = lp
      · rw [if_pos hpgno] at hflag
        cases hflag
      · rw [if_neg hpgno] at hflag ⊢
        have hmem := h.flagged x hx hflag
        rw [hloose] at hmem
        exact (List.mem_cons.mp hmem).resolve_left hpgno
    owned := by
      intro y hy hflag
      obtain ⟨x, hx, rfl⟩ := List.mem_map.mp hy
      by_cases hpgno : x.pgno = lp
      · rw [if_pos hpgno]
        exact ⟨_, List.mem_cons_self, hpgno.symm, rfl⟩
      · rw [if_neg hpgno] at hflag ⊢
        obtain ⟨s, hs, hrest⟩ := h.owned x hx hflag
        exact ⟨s, List.mem_cons_of_mem _ hs, hrest⟩
    distinct := by
      have hmap : (t.dirty.map fun x => if x.pgno = lp then { x with loose := false } else x).map
          Item.pgno = t.dirty.map Item.pgno := by
        rw [List.map_map]
        exact List.map_congr_left fun x _ => by
          simp only [Function.comp_apply]
          split <;> rfl
      show List.Nodup _
      rw [Pages.popLoose, hmap]
      exact h.distinct
    counted := by
      show t.looseCount - 1 = rest.length
      rw [h.counted, hloose, List.length_cons, Nat.add_sub_cancel]
    spans := by
      intro s hs
      rcases List.mem_cons.mp hs with rfl | hs
      · exact Nat.one_pos
      · exact h.spans s hs
    clean := by
      intro s hs hfrozen
      rcases List.mem_cons.mp hs with rfl | hs
      · exact absurd hfrozen (Nat.not_lt.mpr h.front)
      · exact h.clean s hs hfrozen }

/-- Either the page comes from the loose list or from `repnl`, or the search of the GC decides. -/
theorem allocSingleOr_cases (ex : Txn → Ret) (h : Inv t own) :
    Spec t own ((allocSingleOr ex t).err, (allocSingleOr ex t).txn) ∨
      ∃ t', Moved t t' ∧ Inv t' own ∧ allocSingleOr ex t = ex t' := by
  have hwaits : Inv (if looseWaits t then txnRefund t else t) own ∧
      Moved t (if looseWaits t then txnRefund t else t) := by
    split
    · exact ⟨h.txnRefund, Moved.txnRefund t⟩
    · exact ⟨h, Moved.refl t⟩
  unfold allocSingleOr
  dsimp only
  generalize (if looseWaits t then txnRefund t else t) = t' at hwaits
  obtain ⟨hinv, hmoved⟩ := hwaits
  split
  next lp rest hloose =>
    have huse : Moved t' (popLoose t' lp rest) :=
      ⟨⟨rfl, fun _ hp => hp, fun _ hs _ => .inl (List.mem_cons_of_mem _ hs)⟩, rfl⟩
    exact .inl (Spec.of_inv (hmoved.trans huse) (hinv.popLoose hloose))
  next =>
    split
    next pgno t'' hsingle =>
      obtain ⟨hmoved', hinv'⟩ := repnlGetSingle_spec hinv hsingle
      obtain ⟨hfinal, _⟩ := pageAllocFinalize_spec hinv' Nat.one_pos
      refine .inl (Spec.after (hmoved.trans hmoved') ?_)
      split
      next heq =>
        rw [heq] at hfinal
        exact hfinal
      next heq =>
        rw [heq] at hfinal
        exact hfinal
    next => exact .inr ⟨t', hmoved, hinv, rfl⟩

end Mdbx.Pages
