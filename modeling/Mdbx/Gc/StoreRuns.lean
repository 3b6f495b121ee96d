import Mdbx.Gc.Slices

/-!
# Gc.StoreRuns — when the records are the retired list

A pass that sees its list grow is thrown away and repeated, with one exception: the first put of a
pass may append so few pages that the longer list still fits in the chunk reserved for the shorter
one.  Such a list is neither sorted again nor are the offsets computed before the put corrected.
-/

namespace Mdbx.Gc

/-! ## 1. What the calls may append -/

structure PageList (l : List Nat) : Prop where
  nodup : l.Nodup
  min : ∀ p ∈ l, numMetas ≤ p
  short : l.length ≤ pagelistLimit

theorem PageList.perm {l l' : List Nat} (h : PageList l) (hp : l'.Perm l) : PageList l' where
  nodup := hp.nodup_iff.mpr h.nodup
  min := fun p hmem => h.min p (hp.subset hmem)
  short := by
    rw [hp.length_eq]
    exact h.short

theorem PageList.left {l l' : List Nat} (h : PageList (l ++ l')) : PageList l where
  nodup := (List.nodup_append.mp h.nodup).1
  min := fun p hmem => h.min p (List.mem_append_left _ hmem)
  short := by
    have hs := h.short
    rw [List.length_append] at hs
    omega

/-- What the `n` calls from the `k`-th one on append. -/
def appendedBy (u : Gcu) (k n : Nat) : List Nat :=
  (List.range' k n).flatMap fun i => (u.script i).appended

/-- Whatever the calls still to come append, the retired list stays one of distinct page numbers
and within the limit of `pnl_reserve`. -/
def Sound (u : Gcu) (s : State) : Prop := ∀ n, PageList (s.retired ++ appendedBy u s.calls n)

theorem Sound.pageList {u : Gcu} {s : State} (h : Sound u s) : PageList s.retired := (h 0).left

theorem Sound.of_perm {u : Gcu} {s s' : State} (h : Sound u s) (hr : s'.retired.Perm s.retired)
    (hc : s'.calls = s.calls) : Sound u s' := by
  intro n
  rw [hc]
  exact (h n).perm (hr.append_right _)

-- the state after any successful call, as far as the retired list goes
theorem Sound.appended {u : Gcu} {s s' : State} (h : Sound u s)
    (hr : s'.retired = s.retired ++ (u.script s.calls).appended) (hc : s'.calls = s.calls + 1) :
    Sound u s' := by
  intro n
  have hcat : s'.retired ++ appendedBy u s'.calls n =
      s.retired ++ appendedBy u s.calls (n + 1) := by
    unfold appendedBy
    rw [hr, hc, List.range'_succ, List.flatMap_cons, List.append_assoc]
  rw [hcat]
  exact h (n + 1)

theorem call_sound {u : Gcu} {s : State} (h : Sound u s) : Sound u (call u s).2 :=
  h.appended rfl rfl

/-! ## 2. `gc_clean_stored_retired` leaves the record of openings alone -/

theorem cleanRecord_spec {u : Gcu} {s : State} (h : Sound u s) :
    Sound u (cleanRecord u s).2 ∧ (cleanRecord u s).2.openings = s.openings := by
  have hsought := call_sound h
  have hdel : Sound u (call u { (call u s).2 with retiredStored := 0 }).2 :=
    call_sound (hsought.of_perm (List.Perm.refl _) rfl)
  unfold cleanRecord
  simp only
  split_ifs
  · exact ⟨hdel.of_perm (List.Perm.refl _) rfl, rfl⟩
  · exact ⟨hdel, rfl⟩
  · exact ⟨hsought, rfl⟩
  · exact ⟨hsought, rfl⟩

theorem cleanRounds_spec {u : Gcu} (n : Nat) {s : State} (h : Sound u s) :
    Sound u (cleanRounds u n s).2 ∧ (cleanRounds u n s).2.openings = s.openings := by
  induction n generalizing s with
  | zero => exact ⟨h, rfl⟩
  | succ n ih =>
    obtain ⟨hsound, hopen⟩ := cleanRecord_spec h
    have hlower : Sound u { (cleanRecord u s).2 with bigfoot := (cleanRecord u s).2.bigfoot - 1 } :=
      hsound.of_perm (List.Perm.refl _) rfl
    unfold cleanRounds
    simp only
    split_ifs with hbad hmore
    · exact ⟨hsound, hopen⟩
    · obtain ⟨hs, ho⟩ := ih hlower
      exact ⟨hs, ho.trans hopen⟩
    · exact ⟨hlower, hopen⟩

theorem gcCleanStoredRetired_spec {u : Gcu} {s : State} (h : Sound u s) :
    Sound u (gcCleanStoredRetired u s).2 ∧
      (gcCleanStoredRetired u s).2.openings = s.openings := by
  unfold gcCleanStoredRetired
  split_ifs
  · exact cleanRounds_spec _ h
  · exact ⟨h, rfl⟩

/-! ## 3. One put -/

theorem sizeSub_of_le {a b : Nat} (h : b ≤ a) : sizeSub a b = a - b := if_pos h

theorem chunkHi_pos (u : Gcu) (left bigfoot : Nat) (hgood : 0 < u.goodchunk) :
    0 < chunkHi u left bigfoot := by
  have hor : 3 ≤ (left ||| 3) := Nat.right_le_or
  unfold chunkHi
  split_ifs
  · exact hgood
  · omega

theorem reserveRecord_sound {u : Gcu} {s : State} (hi : Nat) (h : Sound u s) :
    Sound u (reserveRecord u hi s) := h.appended rfl rfl

/-- The openings after a put. -/
def openingsAfter (u : Gcu) (s : State) : List Opening :=
  if s.retiredStored = 0 then ⟨s.retired, (u.script s.calls).appended⟩ :: s.openings
  else s.openings

theorem putSlice_failed {u : Gcu} (n : Nat) {s : State} (hrc : (u.script s.calls).rc ≠ .success) :
    putSlice u n s = .failed (u.script s.calls).rc (call u s).2 := if_pos hrc

theorem putSlice_eq {u : Gcu} (n : Nat) {s : State} (hrc : (u.script s.calls).rc = .success) :
    putSlice u n s = storeSlice u n (sizeSub n s.retiredStored)
      (chunkHi u (sizeSub n s.retiredStored) s.bigfoot) s := if_neg (not_not.mpr hrc)

/-- A put that meets a list longer than the sorted one asks for another pass. -/
theorem storeSlice_retry {u : Gcu} {n hi : Nat} (left : Nat) {s : State} (hhi : 0 < hi)
    (hsound : Sound u s) (hlen : n < (s.retired ++ (u.script s.calls).appended).length)
    (hin : s.retiredStored < (s.retired ++ (u.script s.calls).appended).length)
    (hnofit : 0 < s.retiredStored ∨ hi < (s.retired ++ (u.script s.calls).appended).length) :
    ∃ s', storeSlice u n left hi s = .done true s' ∧ Sound u s' ∧
      s'.openings = openingsAfter u s ∧
      s'.retired = s.retired ++ (u.script s.calls).appended ∧
      s.retiredStored < s'.retiredStored ∧ s'.retiredStored ≤ s'.retired.length := by
  have hafter : (reserveRecord u hi s).retired = s.retired ++ (u.script s.calls).appended := rfl
  unfold storeSlice
  simp only
  rw [hafter, sizeSub_of_le (Nat.le_of_lt hin)]
  generalize hA : (s.retired ++ (u.script s.calls).appended).length = after at *
  generalize hchunk : (if after - s.retiredStored < hi then after - s.retiredStored else hi) = chunk
  have hbounds : 0 < chunk ∧ chunk ≤ hi ∧ chunk ≤ after - s.retiredStored := by
    rw [← hchunk]
    split_ifs <;> omega
  have hretry : n ≠ after ∧ chunk < after := by omega
  rw [if_pos hretry]
  refine ⟨_, rfl, (reserveRecord_sound hi hsound).of_perm (List.Perm.refl _) rfl, rfl, rfl, ?_, ?_⟩
  · change s.retiredStored < s.retiredStored + chunk
    omega
  · change s.retiredStored + chunk ≤ (s.retired ++ (u.script s.calls).appended).length
    omega

/-- A put on an unchanged list stores the next slice of it. -/
theorem storeSlice_quiet {u : Gcu} {l : List Nat} {s : State} {hi : Nat} (hhi : 0 < hi)
    (hsound : Sound u s) (hdesc : l.Pairwise (· > ·)) (hsl : Sliced u l s)
    (hquiet : (u.script s.calls).appended = []) :
    ∃ s', storeSlice u l.length (l.length - s.retiredStored) hi s = .done false s' ∧ Sound u s' ∧
      s'.openings = openingsAfter u s ∧ s'.retired = l ∧
      (s.retiredStored < s'.retiredStored ∨ s.retiredStored = l.length) ∧
      s'.retiredStored ≤ l.length ∧ Sliced u l { s' with bigfoot := s'.bigfoot + 1 } := by
  have hle := hsl.stored
  have hafter : (reserveRecord u hi s).retired = l := by
    change s.retired ++ (u.script s.calls).appended = l
    rw [hquiet, List.append_nil]
    exact hsl.retired
  unfold storeSlice
  simp only
  rw [hafter, if_neg (by simp), sizeSub_of_le hle]
  generalize hchunk : (if l.length - s.retiredStored < hi then l.length - s.retiredStored else hi) =
    chunk
  have hbounds : chunk ≤ hi ∧ s.retiredStored + chunk ≤ l.length ∧
      (0 < chunk ∨ s.retiredStored = l.length) := by
    rw [← hchunk]
    split_ifs <;> omega
  obtain ⟨hchi, hfit, hsome⟩ := hbounds
  have hstart : (if u.lifo = true then (s.retiredStored : Int)
      else ((l.length - s.retiredStored : Nat) : Int) - chunk) =
      (sliceStart u l s.retiredStored chunk : Int) := by
    unfold sliceStart
    split_ifs <;> omega
  have hroom : sliceStart u l s.retiredStored chunk + chunk ≤ l.length := by
    unfold sliceStart
    split_ifs <;> omega
  have hshort : l.length ≤ pagelistLimit := by
    have hs := hsound.pageList.short
    rw [hsl.retired] at hs
    exact hs
  obtain ⟨words, hwords, hlen, hpages⟩ := sliceWords_eq u hchi hroom hshort
  rw [hstart, hwords]
  have hsound' := reserveRecord_sound hi hsound
  refine ⟨_, rfl, hsound'.of_perm (by rw [hafter]) rfl, rfl, rfl, ?_, hfit, ?_⟩
  · change s.retiredStored < s.retiredStored + chunk ∨ _
    omega
  · refine hsl.put hdesc hfit hlen hpages rfl rfl rfl (setRecord_self _ _ _) ?_
    intro id hid
    change setRecord (setRecord s.gc s.bigfoot _) s.bigfoot _ id = s.gc id
    rw [setRecord_of_ne _ _ hid, setRecord_of_ne _ _ hid]

/-! ## 4. The opening put that appends a little -/

theorem faithful_single {u : Gcu} {s : State} {words : List Nat} (hb : s.bigfoot = u.txnid)
    (hw : s.gc u.txnid = some words) :
    Faithful u s ↔ ValidRecord words ∧ (recordPages words).Perm s.retired := by
  have hpages : gcPages u s.gc (s.bigfoot + 1 - u.txnid) = recordPages words := by
    rw [hb, Nat.add_sub_cancel_left]
    simp [gcPages, hw]
  constructor
  · intro h
    obtain ⟨words', hw', hvalid⟩ := h.records u.txnid (Nat.le_refl _) (Nat.le_of_eq hb.symm)
    have heq : words' = words := Option.some.inj (hw'.symm.trans hw)
    refine ⟨heq ▸ hvalid, ?_⟩
    rw [← hpages]
    exact h.pages
  · rintro ⟨hvalid, hperm⟩
    refine ⟨?_, ?_⟩
    · intro id hlo hhi
      have hid : id = u.txnid := by omega
      subst hid
      exact ⟨words, hw, hvalid⟩
    · rw [hpages]
      exact hperm

theorem length_of_descending {l : List Nat} {x : Nat} (hdesc : l.Pairwise (· > ·))
    (hmin : ∀ p ∈ l, numMetas ≤ p) (hmax : ∀ p ∈ l, p < x) : l.length ≤ x - numMetas := by
  induction l generalizing x with
  | nil => exact Nat.zero_le _
  | cons y l ih =>
    obtain ⟨hy, hdesc'⟩ := List.pairwise_cons.mp hdesc
    have hrest := ih hdesc' (fun p hp => hmin p (List.mem_cons_of_mem _ hp)) hy
    have hlo := hmin y List.mem_cons_self
    have hhi := hmax y List.mem_cons_self
    rw [List.length_cons]
    omega

-- The word that stands before the first page number is the length of the list.
theorem sliceWords_below (u : Gcu) {l : List Nat} {p hi : Nat} (hhi : l.length + 1 ≤ hi)
    (hshort : l.length + 1 ≤ pagelistLimit) :
    ∃ words, sliceWords u (l ++ [p]) (-1) (l.length + 1) hi = some words ∧
      recordPages words = (l.length + 1) :: l := by
  have hword : (l.length + 1) % 2 ^ 32 = l.length + 1 := by
    apply Nat.mod_eq_of_lt
    unfold pagelistLimit at hshort
    omega
  refine ⟨_, if_neg (by decide), ?_⟩
  unfold recordPages
  simp only [List.headD_cons, List.tail_cons, hword]
  apply List.ext_getElem
  · simp only [List.length_take, List.length_map, List.length_range, List.length_cons]
    omega
  · intro i h₁ h₂
    simp only [List.getElem_take, List.getElem_map, List.getElem_range]
    have hidx : ((-1 : Int) + 1 + (i : Int)).toNat = i := by omega
    rw [hidx]
    cases i with
    | zero => simp [pnlWord]
    | succ i =>
      have hi' : i < l.length := by simpa using h₂
      simp [pnlWord, List.getElem?_append_left hi', List.getElem?_eq_getElem hi']

/-- The longer list fits in the chunk: FIFO takes it from before its beginning, LIFO takes it
unsorted. -/
theorem storeSlice_fits {u : Gcu} {l a : List Nat} {hi : Nat} {s : State} (hsound : Sound u s)
    (hl : s.retired = l) (hstored : s.retiredStored = 0) (hfoot : s.bigfoot = u.txnid)
    (ha : (u.script s.calls).appended = a) (hne : a ≠ []) (hfit : l.length + a.length ≤ hi) :
    (∃ s', storeSlice u l.length l.length hi s = .fault s' ∧ s'.openings = openingsAfter u s ∧
      u.lifo = false) ∨
    ∃ s', storeSlice u l.length l.length hi s = .done false s' ∧ Sound u s' ∧
      s'.openings = openingsAfter u s ∧ s'.retiredStored = s'.retired.length ∧
      (Faithful u s' ↔ u.lifo = true ∧ (l ++ a).Pairwise (· > ·)) := by
  have hafter : (reserveRecord u hi s).retired = l ++ a := by
    rw [← hl, ← ha]
    rfl
  have hsound' := reserveRecord_sound hi hsound
  have hpl : PageList (l ++ a) := hafter ▸ hsound'.pageList
  have hshort : l.length + a.length ≤ pagelistLimit := by
    have hs := hpl.short
    rw [List.length_append] at hs
    exact hs
  have hapos : 0 < a.length := List.length_pos_of_ne_nil hne
  unfold storeSlice
  simp only
  have hchunk : (if (l ++ a).length < hi then (l ++ a).length else hi) = l.length + a.length := by
    rw [List.length_append]
    split_ifs <;> omega
  rw [hafter, hstored, sizeSub_of_le (Nat.zero_le _), Nat.sub_zero, hchunk, List.length_append,
    if_neg (by omega)]
  by_cases hlifo : u.lifo = true
  · right
    rw [if_pos hlifo]
    have hroom : 0 + (l.length + a.length) ≤ (l ++ a).length := by
      rw [List.length_append]
      omega
    obtain ⟨words, hwords, hlen, hpages⟩ := sliceWords_eq u hfit hroom hpl.short
    rw [List.drop_zero, List.take_of_length_le (by rw [List.length_append])] at hpages
    rw [hwords]
    refine ⟨_, rfl, hsound'.of_perm (by rw [hafter]) rfl, rfl, ?_, ?_⟩
    · simp
    · refine Iff.trans (@faithful_single u _ words ?_ ?_) ?_
      · exact hfoot
      · rw [← hfoot]
        exact setRecord_self _ _ _
      constructor
      · rintro ⟨hvalid, -⟩
        exact ⟨hlifo, hpages ▸ hvalid.descending⟩
      · rintro ⟨-, hdesc⟩
        exact ⟨⟨hlen, hpages ▸ hdesc⟩, by rw [hpages]⟩
  · rw [if_neg hlifo]
    have hstart : (l.length : Int) - ((l.length + a.length : Nat) : Int) = -(a.length : Int) := by
      omega
    rw [hstart]
    by_cases hone : a.length = 1
    · right
      obtain ⟨p, rfl⟩ := List.length_eq_one_iff.mp hone
      obtain ⟨words, hwords, hpages⟩ := sliceWords_below u (p := p) hfit hshort
      have hwords' : sliceWords u (l ++ [p]) (-([p].length : Int)) (l.length + [p].length) hi =
          some words := hwords
      rw [hwords']
      refine ⟨_, rfl, hsound'.of_perm (by rw [hafter]) rfl, rfl, by simp, ?_⟩
      refine Iff.trans (@faithful_single u _ words ?_ ?_) ?_
      · exact hfoot
      · rw [← hfoot]
        exact setRecord_self _ _ _
      rw [hpages]
      constructor
      · rintro ⟨hvalid, hperm⟩
        -- that many distinct page numbers do not fit between the metas and the length
        have hdesc := hvalid.descending
        rw [hpages] at hdesc
        have hcount := length_of_descending (x := l.length + 2) hdesc
          (fun q hq => hpl.min q (hperm.subset hq)) (by
            intro q hq
            rcases List.mem_cons.mp hq with rfl | hq
            · omega
            · have := (List.pairwise_cons.mp hdesc).1 q hq
              omega)
        rw [List.length_cons] at hcount
        unfold numMetas at hcount
        omega
      · rintro ⟨hlifo', -⟩
        exact absurd hlifo' hlifo
    · left
      have hout : sliceWords u (l ++ a) (-(a.length : Int)) (l.length + a.length) hi = none := by
        unfold sliceWords
        rw [if_pos (by omega)]
      rw [hout]
      exact ⟨_, rfl, rfl, by simpa using hlifo⟩

/-! ## 5. A pass -/

/-- The end of a pass that does what it should. -/
structure Fine (u : Gcu) (ops : List Opening) (o : Outcome) : Prop where
  openings : o.state.openings = ops
  sound : Sound u o.state
  noFault : ∀ s, o ≠ .fault s
  faithful : ∀ s, o = .done false s → s.retiredStored = s.retired.length ∧ Faithful u s

theorem Fine.of_retry {u : Gcu} {s : State} (h : Sound u s) : Fine u s.openings (.done true s) :=
  ⟨rfl, h, fun _ h' => Outcome.noConfusion h', by
    intro t ht
    injection ht with hb
    exact absurd hb (by decide)⟩

theorem Fine.of_failed {u : Gcu} {s : State} (rc : Rc) (h : Sound u s) :
    Fine u s.openings (.failed rc s) :=
  ⟨rfl, h, fun _ h' => Outcome.noConfusion h', fun _ h' => Outcome.noConfusion h'⟩

theorem Fine.of_running {u : Gcu} {s : State} (h : Sound u s) : Fine u s.openings (.running s) :=
  ⟨rfl, h, fun _ h' => Outcome.noConfusion h', fun _ h' => Outcome.noConfusion h'⟩

theorem openingsAfter_of_pos {u : Gcu} {s : State} (h : 0 < s.retiredStored) :
    openingsAfter u s = s.openings := if_neg (by omega)

-- Once the list has grown the rest of the pass only counts.
theorem putSlices_grown {u : Gcu} {n : Nat} (hgood : 0 < u.goodchunk) (fuel : Nat) {s : State}
    (hsound : Sound u s) (hlen : n < s.retired.length) (hpos : 0 < s.retiredStored)
    (hlt : s.retiredStored < s.retired.length) :
    Fine u s.openings (putSlices u n fuel s) := by
  induction fuel generalizing s with
  | zero => exact Fine.of_running hsound
  | succ fuel ih =>
    have hprep : Sound u (call u s).2 := call_sound hsound
    have hgrow : s.retired.length ≤ (call u s).2.retired.length := by
      simp [call]
    unfold putSlices
    simp only
    rw [if_pos (by omega : s.retiredStored ≠ 0)]
    by_cases hrc : (call u s).1 = .success
    · rw [if_neg (not_not.mpr hrc)]
      generalize hs₁ : (call u s).2 = s₁ at *
      have hkeep : s₁.retiredStored = s.retiredStored ∧ s₁.openings = s.openings := by
        rw [← hs₁]
        exact ⟨rfl, rfl⟩
      obtain ⟨hst, hop⟩ := hkeep
      by_cases hput : (u.script s₁.calls).rc = .success
      · have hle : s₁.retired.length ≤ (s₁.retired ++ (u.script s₁.calls).appended).length := by
          simp
        have hn : n < (s₁.retired ++ (u.script s₁.calls).appended).length := by omega
        obtain ⟨s', hs', hsound', hop', hret', hmore, hin'⟩ := storeSlice_retry
          (sizeSub n s₁.retiredStored) (chunkHi_pos u _ s₁.bigfoot hgood) hprep hn (by omega)
          (Or.inl (by omega))
        rw [openingsAfter_of_pos (by omega), hop] at hop'
        rw [putSlice_eq n hput, hs']
        simp only
        have hlen' : n < s'.retired.length := by
          rw [hret']
          omega
        by_cases hmore' : s'.retiredStored < s'.retired.length
        · rw [if_pos hmore', ← hop']
          exact @ih { s' with bigfoot := s'.bigfoot + 1 } (hsound'.of_perm (List.Perm.refl _) rfl)
            hlen' (by change 0 < s'.retiredStored; omega) hmore'
        · rw [if_neg hmore', ← hop']
          exact Fine.of_retry hsound'
      · rw [putSlice_failed n hput, ← hop]
        exact Fine.of_failed _ (call_sound hprep)
    · rw [if_pos hrc]
      exact Fine.of_failed _ hprep

theorem Sliced.of_fields {u : Gcu} {l : List Nat} {s s' : State} (h : Sliced u l s)
    (hr : s'.retired = s.retired) (hs : s'.retiredStored = s.retiredStored)
    (hb : s'.bigfoot = s.bigfoot) (hg : s'.gc = s.gc) : Sliced u l s' where
  retired := hr.trans h.retired
  stored := hs ▸ h.stored
  foot := hb ▸ h.foot
  records := by
    rw [hb, hg]
    exact h.records
  pages := by
    rw [hb, hg, hs]
    exact h.pages

theorem putSlices_sliced {u : Gcu} {l : List Nat} (hgood : 0 < u.goodchunk)
    (hdesc : l.Pairwise (· > ·)) (fuel : Nat) {s : State} (hsound : Sound u s)
    (hsl : Sliced u l s) (hpos : 0 < s.retiredStored) (hlt : s.retiredStored < l.length) :
    Fine u s.openings (putSlices u l.length fuel s) := by
  induction fuel generalizing s with
  | zero => exact Fine.of_running hsound
  | succ fuel ih =>
    have hprep : Sound u (call u s).2 := call_sound hsound
    have hret₁ : (call u s).2.retired = l ++ (u.script s.calls).appended := by
      rw [← hsl.retired]
      rfl
    unfold putSlices
    simp only
    rw [if_pos (by omega : s.retiredStored ≠ 0)]
    by_cases hrc : (call u s).1 = .success
    · rw [if_neg (not_not.mpr hrc)]
      have hkeep : (call u s).2.retiredStored = s.retiredStored ∧
          (call u s).2.openings = s.openings ∧ (call u s).2.bigfoot = s.bigfoot ∧
          (call u s).2.gc = s.gc := ⟨rfl, rfl, rfl, rfl⟩
      generalize hs₁ : (call u s).2 = s₁ at *
      obtain ⟨hst, hop, hbf, hgc⟩ := hkeep
      by_cases hput : (u.script s₁.calls).rc = .success
      · rw [putSlice_eq _ hput]
        have hle : l.length ≤ s₁.retired.length := by
          rw [hret₁]
          simp
        have hle' : s₁.retired.length ≤ (s₁.retired ++ (u.script s₁.calls).appended).length := by
          simp
        by_cases hgrow : l.length < (s₁.retired ++ (u.script s₁.calls).appended).length
        · -- the preparation or the put itself has appended something
          obtain ⟨s', hs', hsound', hop', hret', hmore, -⟩ := storeSlice_retry
            (sizeSub l.length s₁.retiredStored) (chunkHi_pos u _ s₁.bigfoot hgood) hprep hgrow
            (by omega) (Or.inl (by omega))
          rw [openingsAfter_of_pos (by omega), hop] at hop'
          rw [hs']
          simp only
          by_cases hmore' : s'.retiredStored < s'.retired.length
          · rw [if_pos hmore', ← hop']
            exact @putSlices_grown u l.length hgood fuel { s' with bigfoot := s'.bigfoot + 1 }
              (hsound'.of_perm (List.Perm.refl _) rfl) (by rw [← hret'] at hgrow; exact hgrow)
              (by change 0 < s'.retiredStored; omega) hmore'
          · rw [if_neg hmore', ← hop']
            exact Fine.of_retry hsound'
        · have hsame : s₁.retired = s.retired := by
            have hnil : (u.script s.calls).appended = [] := by
              apply List.length_eq_zero_iff.mp
              have := congrArg List.length hret₁
              rw [List.length_append] at this
              omega
            rw [hret₁, hnil, List.append_nil, hsl.retired]
          have hquiet : (u.script s₁.calls).appended = [] := by
            apply List.length_eq_zero_iff.mp
            rw [List.length_append] at hgrow
            omega
          have hsl₁ : Sliced u l s₁ := hsl.of_fields hsame hst hbf hgc
          obtain ⟨s', hs', hsound', hop', hret', hmore, hin', hsl'⟩ :=
            storeSlice_quiet (chunkHi_pos u (sizeSub l.length s₁.retiredStored) s₁.bigfoot hgood)
              hprep hdesc hsl₁ hquiet
          rw [openingsAfter_of_pos (by omega), hop] at hop'
          rw [sizeSub_of_le hsl₁.stored] at hs' ⊢
          rw [hs']
          simp only
          by_cases hmore' : s'.retiredStored < s'.retired.length
          · rw [if_pos hmore', ← hop']
            exact @ih { s' with bigfoot := s'.bigfoot + 1 }
              (hsound'.of_perm (List.Perm.refl _) rfl) hsl'
              (by change 0 < s'.retiredStored; omega) (by rw [hret'] at hmore'; exact hmore')
          · rw [if_neg hmore', ← hop']
            refine ⟨rfl, hsound', fun _ h' => Outcome.noConfusion h', ?_⟩
            intro t ht
            injection ht with _ ht
            subst ht
            rw [hret'] at hmore' ⊢
            have hall : s'.retiredStored = l.length := by omega
            exact ⟨hall, hsl'.faithful hall⟩
      · rw [putSlice_failed _ hput, ← hop]
        exact Fine.of_failed _ (call_sound hprep)
    · rw [if_pos hrc]
      exact Fine.of_failed _ hprep

end Mdbx.Gc
