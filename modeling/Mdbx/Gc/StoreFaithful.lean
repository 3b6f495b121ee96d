import Mdbx.Gc.StoreRuns

/-!
# Gc.StoreFaithful — `gc_store_retired` as a whole

The passes are put together: exactly the openings tell whether the records under `txnid … bigfoot`
are the retired list, and the function returns whatever the calls append.
-/

namespace Mdbx.Gc

/-! ## 1. The pass from its opening -/

/-- The first put of a pass appends nothing, or more than its chunk has room for, or, in LIFO mode,
what continues the order of the list. -/
def Harmless (u : Gcu) (o : Opening) : Prop :=
  o.appended = [] ∨
    chunkHi u o.list.length u.txnid < o.list.length + o.appended.length ∨
    (u.lifo = true ∧ (o.list ++ o.appended).Pairwise (· > ·))

def Broken (u : Gcu) (o : Outcome) : Prop :=
  (∃ s, o = .fault s) ∨
    ∃ s, o = .done false s ∧ s.retiredStored = s.retired.length ∧ ¬ Faithful u s

theorem Sliced.start {u : Gcu} {s : State} (hstored : s.retiredStored = 0)
    (hfoot : s.bigfoot = u.txnid) : Sliced u s.retired s where
  retired := rfl
  stored := by omega
  foot := by omega
  records := by
    intro id hlo hhi
    omega
  pages := by
    rw [hfoot, hstored, Nat.sub_self]
    unfold storedPart
    simp [gcPages]

theorem openingsAfter_of_zero {u : Gcu} {s : State} (h : s.retiredStored = 0) :
    openingsAfter u s = ⟨s.retired, (u.script s.calls).appended⟩ :: s.openings := if_pos h

inductive PassEnd (u : Gcu) (ops : List Opening) (o : Outcome) : Prop where
  | unopened (h : Fine u ops o)
  | fine (op : Opening) (hop : Harmless u op) (h : Fine u (op :: ops) o)
  | broken (op : Opening) (hop : ¬ Harmless u op) (ho : o.state.openings = op :: ops)
      (h : Broken u o)

theorem putSlices_open {u : Gcu} (hgood : 0 < u.goodchunk) (fuel : Nat) {s : State}
    (hsound : Sound u s) (hdesc : s.retired.Pairwise (· > ·)) (hstored : s.retiredStored = 0)
    (hfoot : s.bigfoot = u.txnid) :
    PassEnd u s.openings (putSlices u s.retired.length fuel s) := by
  cases fuel with
  | zero => exact .unopened (Fine.of_running hsound)
  | succ fuel =>
    have hsub : sizeSub s.retired.length s.retiredStored = s.retired.length := by
      rw [hstored]
      exact sizeSub_of_le (Nat.zero_le _)
    have hhi := chunkHi_pos u s.retired.length s.bigfoot hgood
    unfold putSlices
    simp only
    rw [if_neg (not_not.mpr hstored), if_neg (by simp)]
    by_cases hput : (u.script s.calls).rc = .success
    · rw [putSlice_eq _ hput, hsub]
      generalize hhidef : chunkHi u s.retired.length s.bigfoot = hi at *
      by_cases hnil : (u.script s.calls).appended = []
      · -- nothing appended: the first slice
        obtain ⟨s', hs', hsound', hop', hret', hmore, hin', hsl'⟩ :=
          storeSlice_quiet hhi hsound hdesc (Sliced.start hstored hfoot) hnil
        rw [openingsAfter_of_zero hstored] at hop'
        rw [hstored, Nat.sub_zero] at hs'
        rw [hs']
        simp only
        apply PassEnd.fine ⟨s.retired, (u.script s.calls).appended⟩ (Or.inl hnil)
        rw [← hop']
        by_cases hmore' : s'.retiredStored < s'.retired.length
        · rw [if_pos hmore']
          rw [hret'] at hmore'
          exact @putSlices_sliced u s.retired hgood hdesc fuel
            { s' with bigfoot := s'.bigfoot + 1 } (hsound'.of_perm (List.Perm.refl _) rfl) hsl'
            (by change 0 < s'.retiredStored; omega) hmore'
        · rw [if_neg hmore']
          refine ⟨rfl, hsound', fun _ h' => Outcome.noConfusion h', ?_⟩
          intro t ht
          injection ht with _ ht
          subst ht
          rw [hret'] at hmore' ⊢
          have hall : s'.retiredStored = s.retired.length := by omega
          exact ⟨hall, hsl'.faithful hall⟩
      · have hapos := List.length_pos_of_ne_nil hnil
        have hlen : s.retired.length < (s.retired ++ (u.script s.calls).appended).length := by
          rw [List.length_append]
          omega
        by_cases hfit : s.retired.length + (u.script s.calls).appended.length ≤ hi
        · have hharm : Harmless u ⟨s.retired, (u.script s.calls).appended⟩ ↔
              u.lifo = true ∧ (s.retired ++ (u.script s.calls).appended).Pairwise (· > ·) := by
            unfold Harmless
            simp only
            rw [← hfoot, hhidef]
            constructor
            · rintro (h | h | h)
              · exact absurd h hnil
              · omega
              · exact h
            · exact fun h => Or.inr (Or.inr h)
          rcases storeSlice_fits hsound rfl hstored hfoot rfl hnil hfit with
            ⟨s', hs', hop', hlifo⟩ | ⟨s', hs', hsound', hop', hall, hiff⟩
          · rw [openingsAfter_of_zero hstored] at hop'
            rw [hs']
            refine .broken ⟨s.retired, (u.script s.calls).appended⟩ ?_ hop' (Or.inl ⟨s', rfl⟩)
            rw [hharm, hlifo]
            simp
          · rw [openingsAfter_of_zero hstored] at hop'
            rw [hs']
            simp only
            rw [if_neg (by omega)]
            by_cases hh : Harmless u ⟨s.retired, (u.script s.calls).appended⟩
            · apply PassEnd.fine _ hh
              rw [← hop']
              refine ⟨rfl, hsound', fun _ h' => Outcome.noConfusion h', ?_⟩
              intro t ht
              injection ht with _ ht
              subst ht
              exact ⟨hall, hiff.mpr (hharm.mp hh)⟩
            · exact .broken _ hh hop'
                (Or.inr ⟨s', rfl, hall, fun hf => hh (hharm.mpr (hiff.mp hf))⟩)
        · -- too many for the chunk: the pass is repeated
          have hnofit : hi < (s.retired ++ (u.script s.calls).appended).length := by
            rw [List.length_append]
            omega
          obtain ⟨s', hs', hsound', hop', hret', hmore, -⟩ := storeSlice_retry s.retired.length
            hhi hsound hlen (by omega) (Or.inr hnofit)
          rw [openingsAfter_of_zero hstored] at hop'
          rw [hs']
          simp only
          apply PassEnd.fine ⟨s.retired, (u.script s.calls).appended⟩
          · refine Or.inr (Or.inl ?_)
            rw [← hfoot, hhidef]
            simp only
            omega
          rw [← hop']
          by_cases hmore' : s'.retiredStored < s'.retired.length
          · rw [if_pos hmore']
            exact @putSlices_grown u s.retired.length hgood fuel
              { s' with bigfoot := s'.bigfoot + 1 } (hsound'.of_perm (List.Perm.refl _) rfl)
              (by change _ < s'.retired.length; rw [hret']; exact hlen)
              (by change 0 < s'.retiredStored; omega) hmore'
          · rw [if_neg hmore']
            exact Fine.of_retry hsound'
    · rw [putSlice_failed _ hput]
      exact .unopened (Fine.of_failed _ (call_sound hsound))

/-! ## 2. All passes -/

theorem pnlSort_perm (l : List Nat) : (pnlSort l).Perm l := List.perm_insertionSort _ l

theorem pnlSort_descending {l : List Nat} (h : l.Nodup) : (pnlSort l).Pairwise (· > ·) := by
  have hge : (pnlSort l).Pairwise (· ≥ ·) := List.pairwise_insertionSort _ l
  have hnd : (pnlSort l).Pairwise (· ≠ ·) := (pnlSort_perm l).nodup_iff.mpr h
  exact hge.imp₂ (fun _ _ h₁ h₂ => Nat.lt_of_le_of_ne h₁ (Ne.symm h₂)) hnd

/-- What is asked of the function: no access outside of the list and, where it returns with the
whole list stored, records that hold it. -/
def StoresFaithfully (u : Gcu) (o : Outcome) : Prop :=
  (∀ s, o ≠ .fault s) ∧
    ∀ s, o = .done false s → s.retiredStored = s.retired.length → Faithful u s

theorem Fine.storesFaithfully {u : Gcu} {ops : List Opening} {o : Outcome} (h : Fine u ops o) :
    StoresFaithfully u o := ⟨h.noFault, fun s hs _ => (h.faithful s hs).2⟩

theorem Broken.not_storesFaithfully {u : Gcu} {o : Outcome} (h : Broken u o) :
    ¬ StoresFaithfully u o := by
  rintro ⟨hno, hall⟩
  rcases h with ⟨s, rfl⟩ | ⟨s, rfl, hstored, hnot⟩
  · exact hno s rfl
  · exact hnot (hall s rfl hstored)

-- an outcome that is fine with harmless openings satisfies both sides
theorem Fine.both {u : Gcu} {ops : List Opening} {o : Outcome} (h : Fine u ops o)
    (hall : ∀ x ∈ ops, Harmless u x) :
    StoresFaithfully u o ↔ ∀ x ∈ o.state.openings, Harmless u x := by
  refine iff_of_true h.storesFaithfully ?_
  rw [h.openings]
  exact hall

-- a fine pass either is the last one or is followed by another
theorem fine_next {u : Gcu} {fuel : Nat} {ops : List Opening} {o : Outcome}
    (hall : ∀ x ∈ ops, Harmless u x)
    (ih : ∀ {s : State}, Sound u s → (∀ x ∈ s.openings, Harmless u x) →
      (StoresFaithfully u (gcStoreRetired u fuel s) ↔
        ∀ x ∈ (gcStoreRetired u fuel s).state.openings, Harmless u x)) :
    Fine u ops o → (StoresFaithfully u (match o with
      | .done true s' => gcStoreRetired u fuel s'
      | o => o) ↔ ∀ x ∈ (match o with
      | .done true s' => gcStoreRetired u fuel s'
      | o => o).state.openings, Harmless u x) := by
  intro h
  cases o with
  | running t => exact h.both hall
  | failed rc t => exact h.both hall
  | fault t => exact h.both hall
  | done retry t =>
    cases retry with
    | false => exact h.both hall
    | true =>
      apply ih h.sound
      intro x hx
      have hx' : x ∈ (Outcome.done true t).state.openings := hx
      rw [h.openings] at hx'
      exact hall x hx'

theorem gcStoreRetired_iff {u : Gcu} (hgood : 0 < u.goodchunk) (fuel : Nat) {s : State}
    (hsound : Sound u s) (hops : ∀ o ∈ s.openings, Harmless u o) :
    StoresFaithfully u (gcStoreRetired u fuel s) ↔
      ∀ o ∈ (gcStoreRetired u fuel s).state.openings, Harmless u o := by
  induction fuel generalizing s with
  | zero => exact (Fine.of_running hsound).both hops
  | succ fuel ih =>
    have hclean : Sound u (if u.txnid < s.bigfoot then gcCleanStoredRetired u s
        else (.success, s)).2 ∧ (if u.txnid < s.bigfoot then gcCleanStoredRetired u s
        else (.success, s)).2.openings = s.openings := by
      split_ifs
      · exact gcCleanStoredRetired_spec hsound
      · exact ⟨hsound, rfl⟩
    unfold gcStoreRetired
    simp only
    generalize hcl : (if u.txnid < s.bigfoot then gcCleanStoredRetired u s else (.success, s)) =
      cleaned at *
    obtain ⟨hsc, hoc⟩ := hclean
    by_cases hrc : cleaned.1 = .success
    · rw [if_neg (not_not.mpr hrc)]
      by_cases hprc : (call u cleaned.2).1 = .success
      · rw [if_neg (not_not.mpr hprc)]
        have hsp := call_sound hsc
        have hop : (call u cleaned.2).2.openings = s.openings := hoc
        generalize hsd : ({ (call u cleaned.2).2 with
          retired := pnlSort (call u cleaned.2).2.retired, retiredStored := 0, bigfoot := u.txnid } :
          State) = sorted
        have hss : Sound u sorted := by
          rw [← hsd]
          exact hsp.of_perm (pnlSort_perm _) rfl
        have hos : sorted.openings = s.openings := by
          rw [← hsd]
          exact hop
        have hdesc : sorted.retired.Pairwise (· > ·) := by
          rw [← hsd]
          exact pnlSort_descending hsp.pageList.nodup
        have hend := putSlices_open hgood fuel hss hdesc (by rw [← hsd]) (by rw [← hsd])
        have hlen : (pnlSort (call u cleaned.2).2.retired).length = sorted.retired.length := by
          rw [← hsd]
        rw [hos] at hend
        rw [hlen]
        have hcons : ∀ {op : Opening}, Harmless u op → ∀ x ∈ op :: s.openings, Harmless u x := by
          intro op hop x hx
          rcases List.mem_cons.mp hx with rfl | hx
          · exact hop
          · exact hops x hx
        cases hend with
        | unopened h => exact fine_next hops ih h
        | fine op hop h => exact fine_next (hcons hop) ih h
        | broken op hop ho h =>
          have hmem : ∃ x ∈ (putSlices u sorted.retired.length fuel sorted).state.openings,
              ¬ Harmless u x := by
            rw [ho]
            exact ⟨op, List.mem_cons_self, hop⟩
          have hfalse : ¬ ∀ x ∈ (putSlices u sorted.retired.length fuel sorted).state.openings,
              Harmless u x := by
            intro hall
            obtain ⟨x, hx, hnot⟩ := hmem
            exact hnot (hall x hx)
          have hnot := h.not_storesFaithfully
          generalize putSlices u sorted.retired.length fuel sorted = o at *
          rcases h with ⟨t, rfl⟩ | ⟨t, rfl, -, -⟩
          · exact iff_of_false hnot hfalse
          · exact iff_of_false hnot hfalse
      · rw [if_pos hprc]
        exact (hoc ▸ Fine.of_failed _ (call_sound hsc)).both hops
    · rw [if_pos hrc]
      exact (hoc ▸ Fine.of_failed _ hsc).both hops

/-- Whatever the calls append, the records under `txnid … bigfoot` are valid and hold the retired
list exactly if every pass of the run opens harmlessly. -/
theorem gcStoreRetired_faithful_iff (u : Gcu) (fuel : Nat) (s : State) (hgood : 0 < u.goodchunk)
    (hsound : Sound u s) (hnew : s.openings = []) :
    StoresFaithfully u (gcStoreRetired u fuel s) ↔
      ∀ o ∈ (gcStoreRetired u fuel s).state.openings, Harmless u o := by
  apply gcStoreRetired_iff hgood fuel hsound
  intro o ho
  rw [hnew] at ho
  exact absurd ho List.not_mem_nil

/-- Three slices and nobody appends. -/
def quietSample : Gcu := ⟨100, false, 4, fun _ => ⟨.success, []⟩, fun _ => 0⟩

def freshState (l : List Nat) : State := ⟨l, fun _ => none, 0, 100, 0, []⟩

theorem quietSample_sound : Sound quietSample (freshState [21, 28, 25, 22, 23, 27, 24, 26, 20]) := by
  intro n
  have hnil : appendedBy quietSample 0 n = [] := by
    simp [appendedBy, quietSample]
  change PageList (_ ++ appendedBy quietSample 0 n)
  rw [hnil]
  exact ⟨by decide, by decide, by decide⟩

theorem gcStoreRetired_faithful_iff_quiet :
    StoresFaithfully quietSample
        (gcStoreRetired quietSample 5 (freshState [21, 28, 25, 22, 23, 27, 24, 26, 20])) ↔
      ∀ o ∈ (gcStoreRetired quietSample 5
          (freshState [21, 28, 25, 22, 23, 27, 24, 26, 20])).state.openings,
        Harmless quietSample o :=
  gcStoreRetired_faithful_iff _ _ _ (by decide) quietSample_sound rfl

/-- The second call, which is the first put, retires page 14. -/
def growingSample : Gcu :=
  ⟨100, false, 10, fun n => ⟨.success, if n = 1 then [14] else []⟩, fun _ => 0⟩

theorem growingSample_sound : Sound growingSample (freshState [10, 13, 11, 12]) := by
  intro n
  change PageList (_ ++ appendedBy growingSample 0 n)
  match n with
  | 0 => exact ⟨by decide, by decide, by decide⟩
  | 1 => exact ⟨by decide, by decide, by decide⟩
  | n + 2 =>
    have hone : appendedBy growingSample 0 (n + 2) = [14] := by
      unfold appendedBy
      rw [List.range'_succ, List.range'_succ, List.flatMap_cons, List.flatMap_cons]
      have hrest : ((List.range' (0 + 1 + 1) n).flatMap fun i => (growingSample.script i).appended) =
          [] := by
        apply List.flatMap_eq_nil_iff.mpr
        intro i hi
        have hlo := (List.mem_range'_1.mp hi).1
        exact if_neg (by omega)
      rw [hrest]
      rfl
    rw [hone]
    exact ⟨by decide, by decide, by decide⟩

/-- The record under the id 100 then is `5, 5, 13, 12, 11, 10`: the length word stands in it as a
page number and page 14 is lost. -/
theorem gcStoreRetired_stores_length_word :
    ¬ ∀ (u : Gcu) (fuel : Nat) (s : State), 0 < u.goodchunk → Sound u s → s.openings = [] →
      StoresFaithfully u (gcStoreRetired u fuel s) := by
  intro hall
  have hfaithful := (hall growingSample 3 (freshState [10, 13, 11, 12]) (by decide)
    growingSample_sound rfl).2 _ rfl rfl
  have hmem : 14 ∈ gcPages growingSample
      (gcStoreRetired growingSample 3 (freshState [10, 13, 11, 12])).state.gc 1 :=
    hfaithful.pages.mem_iff.mpr (by decide)
  revert hmem
  decide

/-! ## 3. It returns -/

theorem storeSlice_progress {u : Gcu} {n left hi : Nat} {s s' : State} {retry : Bool}
    (hhi : 0 < hi) (hin : s.retiredStored ≤ s.retired.length)
    (h : storeSlice u n left hi s = .done retry s') :
    s'.retired = s.retired ++ (u.script s.calls).appended ∧ s'.calls = s.calls + 1 ∧
      s'.retiredStored ≤ s'.retired.length ∧
      (s'.retiredStored < s'.retired.length → s.retiredStored < s'.retiredStored) ∧
      (retry = true → n ≠ s'.retired.length) := by
  have hafter : (reserveRecord u hi s).retired = s.retired ++ (u.script s.calls).appended := rfl
  have hle : s.retiredStored ≤ (s.retired ++ (u.script s.calls).appended).length := by
    rw [List.length_append]
    omega
  unfold storeSlice at h
  simp only at h
  rw [hafter, sizeSub_of_le hle] at h
  generalize hchunk : (if (s.retired ++ (u.script s.calls).appended).length - s.retiredStored < hi
    then (s.retired ++ (u.script s.calls).appended).length - s.retiredStored else hi) = chunk at h
  have hbounds : s.retiredStored + chunk ≤ (s.retired ++ (u.script s.calls).appended).length ∧
      (s.retiredStored + chunk < (s.retired ++ (u.script s.calls).appended).length →
        s.retiredStored < s.retiredStored + chunk) := by
    rw [← hchunk]
    split_ifs <;> omega
  by_cases hretry : n ≠ (s.retired ++ (u.script s.calls).appended).length ∧
      chunk < (s.retired ++ (u.script s.calls).appended).length
  · rw [if_pos hretry] at h
    injection h with hb hs
    subst hs
    exact ⟨rfl, rfl, hbounds.1, hbounds.2, fun _ => hretry.1⟩
  · rw [if_neg hretry] at h
    generalize sliceWords u (s.retired ++ (u.script s.calls).appended) _ chunk hi = w at h
    cases w with
    | none => exact Outcome.noConfusion h
    | some words =>
      injection h with hb hs
      subst hs
      refine ⟨rfl, rfl, hbounds.1, hbounds.2, ?_⟩
      rw [← hb]
      exact fun hf => absurd hf (by decide)

theorem storeSlice_not_running {u : Gcu} (n left hi : Nat) (s t : State) :
    storeSlice u n left hi s ≠ .running t := by
  unfold storeSlice
  simp only
  generalize (if sizeSub (reserveRecord u hi s).retired.length s.retiredStored < hi then
    sizeSub (reserveRecord u hi s).retired.length s.retiredStored else hi) = chunk
  by_cases hretry : n ≠ (reserveRecord u hi s).retired.length ∧
      chunk < (reserveRecord u hi s).retired.length
  · rw [if_pos hretry]
    exact fun h => Outcome.noConfusion h
  · rw [if_neg hretry]
    generalize sliceWords u (reserveRecord u hi s).retired _ chunk hi = w
    cases w with
    | none => exact fun h => Outcome.noConfusion h
    | some words => exact fun h => Outcome.noConfusion h

/-- A pass ends, since every put but the last stores something of a list within the limit, and it is
repeated only if the list has grown. -/
theorem putSlices_returns {u : Gcu} {n : Nat} (hgood : 0 < u.goodchunk) (fuel : Nat) {s : State}
    (hsound : Sound u s) (hn : n ≤ s.retired.length) (hin : s.retiredStored ≤ s.retired.length)
    (hfuel : pagelistLimit < s.retiredStored + fuel) :
    (∀ t, putSlices u n fuel s ≠ .running t) ∧
      ∀ t, putSlices u n fuel s = .done true t → Sound u t ∧ n < t.retired.length := by
  induction fuel generalizing s with
  | zero =>
    have := hsound.pageList.short
    omega
  | succ fuel ih =>
    have hprep : Sound u (if s.retiredStored ≠ 0 then call u s else (.success, s)).2 ∧
        s.retired.length ≤
          (if s.retiredStored ≠ 0 then call u s else (.success, s)).2.retired.length ∧
        (if s.retiredStored ≠ 0 then call u s else (.success, s)).2.retiredStored =
          s.retiredStored := by
      split_ifs
      · exact ⟨call_sound hsound, by simp [call], rfl⟩
      · exact ⟨hsound, Nat.le_refl _, rfl⟩
    unfold putSlices
    simp only
    generalize (if s.retiredStored ≠ 0 then call u s else (.success, s)) = prepared at *
    obtain ⟨hsp, hgrow, hst⟩ := hprep
    by_cases hrc : prepared.1 = .success
    · rw [if_neg (not_not.mpr hrc)]
      by_cases hput : (u.script prepared.2.calls).rc = .success
      · rw [putSlice_eq n hput]
        cases hss : storeSlice u n (sizeSub n prepared.2.retiredStored)
            (chunkHi u (sizeSub n prepared.2.retiredStored) prepared.2.bigfoot) prepared.2 with
        | running t => exact absurd hss (storeSlice_not_running _ _ _ _ t)
        | failed rc t => exact ⟨fun _ h => Outcome.noConfusion h, fun _ h => Outcome.noConfusion h⟩
        | fault t => exact ⟨fun _ h => Outcome.noConfusion h, fun _ h => Outcome.noConfusion h⟩
        | done retry t =>
          obtain ⟨hret, hcalls, hin', hmore, hretry⟩ :=
            storeSlice_progress (chunkHi_pos u _ _ hgood) (by omega) hss
          have hst' : Sound u t := hsp.appended hret hcalls
          have hlen : n ≤ t.retired.length := by
            rw [hret, List.length_append]
            omega
          simp only
          by_cases hmore' : t.retiredStored < t.retired.length
          · rw [if_pos hmore']
            have hstep := hmore hmore'
            exact @ih { t with bigfoot := t.bigfoot + 1 }
              (hst'.of_perm (List.Perm.refl _) rfl) hlen hin'
              (by change pagelistLimit < t.retiredStored + fuel; omega)
          · rw [if_neg hmore']
            refine ⟨fun _ h => Outcome.noConfusion h, ?_⟩
            intro t' ht'
            injection ht' with hb ht'
            subst ht'
            exact ⟨hst', Nat.lt_of_le_of_ne hlen (hretry hb)⟩
      · rw [putSlice_failed n hput]
        exact ⟨fun _ h => Outcome.noConfusion h, fun _ h => Outcome.noConfusion h⟩
    · rw [if_pos hrc]
      exact ⟨fun _ h => Outcome.noConfusion h, fun _ h => Outcome.noConfusion h⟩

-- cleaning only appends
theorem cleanRecord_length (u : Gcu) (s : State) :
    s.retired.length ≤ (cleanRecord u s).2.retired.length := by
  unfold cleanRecord
  simp only
  split_ifs <;> simp [call]

theorem cleanRounds_length (u : Gcu) (n : Nat) (s : State) :
    s.retired.length ≤ (cleanRounds u n s).2.retired.length := by
  induction n generalizing s with
  | zero => exact Nat.le_refl _
  | succ n ih =>
    have hone := cleanRecord_length u s
    unfold cleanRounds
    simp only
    split_ifs
    · exact hone
    · exact Nat.le_trans hone
        (ih { (cleanRecord u s).2 with bigfoot := (cleanRecord u s).2.bigfoot - 1 })
    · exact hone

/-- The limit of `pnl_reserve` bounds the passes, so the function returns. -/
theorem gcStoreRetired_returns {u : Gcu} (hgood : 0 < u.goodchunk) (fuel : Nat) {s : State}
    (hsound : Sound u s) (hfuel : 2 * pagelistLimit + 2 ≤ s.retired.length + fuel) (t : State) :
    gcStoreRetired u fuel s ≠ .running t := by
  induction fuel generalizing s with
  | zero =>
    have := hsound.pageList.short
    omega
  | succ fuel ih =>
    have hclean : Sound u (if u.txnid < s.bigfoot then gcCleanStoredRetired u s
        else (.success, s)).2 ∧ s.retired.length ≤ (if u.txnid < s.bigfoot then
        gcCleanStoredRetired u s else (.success, s)).2.retired.length := by
      split_ifs
      · refine ⟨(gcCleanStoredRetired_spec hsound).1, ?_⟩
        unfold gcCleanStoredRetired
        split_ifs
        · exact cleanRounds_length u _ s
        · exact Nat.le_refl _
      · exact ⟨hsound, Nat.le_refl _⟩
    unfold gcStoreRetired
    simp only
    generalize (if u.txnid < s.bigfoot then gcCleanStoredRetired u s else (.success, s)) =
      cleaned at *
    obtain ⟨hsc, hlc⟩ := hclean
    by_cases hrc : cleaned.1 = .success
    · rw [if_neg (not_not.mpr hrc)]
      by_cases hprc : (call u cleaned.2).1 = .success
      · rw [if_neg (not_not.mpr hprc)]
        have hsp := call_sound hsc
        have hlp : cleaned.2.retired.length ≤ (call u cleaned.2).2.retired.length := by
          simp [call]
        generalize (call u cleaned.2).2 = prepared at *
        have hlen : (pnlSort prepared.retired).length = prepared.retired.length :=
          (pnlSort_perm _).length_eq
        have hshort := hsp.pageList.short
        obtain ⟨hrun, hretry⟩ := putSlices_returns hgood fuel
          (s := { prepared with
            retired := pnlSort prepared.retired, retiredStored := 0, bigfoot := u.txnid })
          (hsp.of_perm (pnlSort_perm _) rfl) (Nat.le_refl (pnlSort prepared.retired).length)
          (Nat.zero_le _) (by change pagelistLimit < 0 + fuel; omega)
        generalize putSlices u _ fuel _ = o at *
        cases o with
        | running t' => exact absurd rfl (hrun t')
        | failed rc t' => exact fun h => Outcome.noConfusion h
        | fault t' => exact fun h => Outcome.noConfusion h
        | done retry t' =>
          cases retry with
          | false => exact fun h => Outcome.noConfusion h
          | true =>
            obtain ⟨hst, hlt⟩ := hretry t' rfl
            exact ih hst (by omega)
      · rw [if_pos hprc]
        exact fun h => Outcome.noConfusion h
    · rw [if_pos hrc]
      exact fun h => Outcome.noConfusion h

end Mdbx.Gc
