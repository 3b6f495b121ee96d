import Mdbx.Uring.Drives

/-!
# Uring.Progress — repeated drives complete their batch

A run without an end: whatever the kernel has taken it completes some day, and the batch is driven
again as long as it is incomplete.
-/

namespace Mdbx.Uring

/-! ## 1. What a step leaves in place -/

structure Kept (t t' : Batch) : Prop where
  ios : t'.ios = t.ios
  submitted : t.submitted ≤ t'.submitted

theorem Kept.refl (t : Batch) : Kept t t := ⟨rfl, Nat.le_refl _⟩

theorem Kept.trans {t u v : Batch} (h : Kept t u) (h' : Kept u v) : Kept t v :=
  ⟨h'.ios.trans h.ios, Nat.le_trans h.submitted h'.submitted⟩

theorem Kept.fail (t : Batch) (err : Int) : Kept t (t.fail err) :=
  ⟨Batch.fail_ios t err, Nat.le_of_eq (Batch.fail_submitted t err).symm⟩

theorem Kept.settle (t : Batch) (d : Drive) : Kept t (t.settle d) := by
  unfold Batch.settle
  split_ifs
  · exact .fail t _
  · exact .refl t

theorem Kept.take (t : Batch) (i : Nat) (res : Int) : Kept t (t.take i res) :=
  ⟨(Batch.take_taken t i res).ios, Nat.le_of_eq (Batch.take_submitted t i res).symm⟩

theorem Kept.writeOff (err : Int) (n i : Nat) (t : Batch) : Kept t (writeOff err t i n) := by
  induction n generalizing i t with
  | zero => exact .refl t
  | succ n ih =>
    have hrest := ih (i + 1)
      { t.setResult i (dxbReadSubmittedError err) with completed := t.completed + 1 }
    exact ⟨hrest.ios, hrest.submitted⟩

/-- Nothing moves, a batch may. -/
structure Quiet (s s' : State) : Prop where
  inflight : s'.inflight = s.inflight
  cq : s'.cq = s.cq
  live : s'.live = s.live
  nextOp : s'.nextOp = s.nextOp
  batch : ∀ b, Kept (s.batches b) (s'.batches b)

theorem Quiet.trans {s u v : State} (h : Quiet s u) (h' : Quiet u v) : Quiet s v :=
  ⟨h'.inflight.trans h.inflight, h'.cq.trans h.cq, h'.live.trans h.live,
    h'.nextOp.trans h.nextOp, fun b => (h.batch b).trans (h'.batch b)⟩

theorem Quiet.go (s : State) (pc : Pc) : Quiet s { s with pc := pc } :=
  ⟨rfl, rfl, rfl, rfl, fun _ => .refl _⟩

theorem Quiet.setBatch (s : State) {b : Nat} {t : Batch} (h : Kept (s.batches b) t) :
    Quiet s (s.setBatch b t) where
  inflight := rfl
  cq := rfl
  live := rfl
  nextOp := rfl
  batch := fun k => by
    change Kept _ (Function.update s.batches b t k)
    by_cases hkb : k = b
    · rw [hkb, Function.update_self]
      exact h
    · rw [Function.update_of_ne hkb]
      exact .refl _

theorem Quiet.driveEnd (s : State) (d : Drive) : Quiet s (driveEnd s d) :=
  (Quiet.setBatch s (t := ((s.batches d.batch).settle d).copy)
    ⟨(Kept.settle _ d).ios, (Kept.settle _ d).submitted⟩).trans (.go _ _)

theorem Quiet.afterSubmit (s : State) (d : Drive) : Quiet s (afterSubmit s d) := by
  unfold Uring.afterSubmit
  split_ifs
  · exact .go s _
  · exact .driveEnd s d

theorem Quiet.polled (s : State) (d : Drive) (before : Nat) : Quiet s (polled s d before) := by
  unfold Uring.polled
  split_ifs
  · exact .go s _
  · exact .driveEnd s d

theorem Quiet.creditItem (s : State) (c : Cqe) : Quiet s (creditItem s c) := by
  unfold Uring.creditItem
  cases c.entry.userData with
  | buf addr => exact ⟨rfl, rfl, rfl, rfl, fun _ => .refl _⟩
  | item b i =>
    by_cases hb : b ∈ s.live
    · simp only [if_pos hb]
      exact (Quiet.setBatch s (.take _ i c.res)).trans ⟨rfl, rfl, rfl, rfl, fun _ => .refl _⟩
    · simp only [if_neg hb]
      exact ⟨rfl, rfl, rfl, rfl, fun _ => .refl _⟩

theorem Quiet.foldl (l : List Cqe) (s : State) : Quiet s (l.foldl Uring.creditItem s) := by
  induction l generalizing s with
  | nil => exact ⟨rfl, rfl, rfl, rfl, fun _ => .refl _⟩
  | cons c rest ih => exact (Quiet.creditItem s c).trans (ih _)

theorem Quiet.consumeAll (s : State) : Quiet { s with cq := [] } (consumeAll s) := .foldl s.cq _

/-- What a step does with entries and batches; `more` are the requests it counts. -/
structure Frame (s s' : State) (more : List (Nat × Nat)) : Prop where
  inflight : ∀ e ∈ s.inflight, e ∈ s'.inflight ∨ e ∈ s'.cq.map Cqe.entry
  cq : ∀ e ∈ s.cq.map Cqe.entry, e.op ∈ s.live → e ∈ s'.cq.map Cqe.entry ∨ e.request ∈ more
  batch : ∀ b ∈ s.live, Kept (s.batches b) (s'.batches b)
  nextOp : s.nextOp ≤ s'.nextOp
  live : ∀ b ∈ s'.live, b ∈ s.live ∨ s.nextOp ≤ b
  gone : ∀ b ∈ s.live, b ∈ s'.live ∨ s'.batches = s.batches

theorem Quiet.frame {s s' : State} (h : Quiet s s') (more : List (Nat × Nat)) :
    Frame s s' more where
  inflight := fun e he => Or.inl (h.inflight ▸ he)
  cq := fun e he _ => Or.inl (by rw [h.cq]; exact he)
  batch := fun b _ => h.batch b
  nextOp := Nat.le_of_eq h.nextOp.symm
  live := fun b hb => Or.inl (h.live ▸ hb)
  gone := fun b hb => Or.inl (h.live ▸ hb)

-- the kernel takes entries, then the call goes on
theorem Quiet.accepted {s s' : State} {n : Nat} (h : Quiet (accept s n) s')
    (more : List (Nat × Nat)) : Frame s s' more where
  inflight := fun _ he => Or.inl (by
    rw [h.inflight]
    exact List.mem_append_left _ he)
  cq := fun _ he _ => Or.inl (by rw [h.cq]; exact he)
  batch := fun b _ => h.batch b
  nextOp := Nat.le_of_eq h.nextOp.symm
  live := fun _ hb => Or.inl (h.live ▸ hb)
  gone := fun _ hb => Or.inl (h.live ▸ hb)

theorem mem_credited {s : State} {e : Entry} (hinv : Inv s) (he : e ∈ s.cq.map Cqe.entry)
    (hop : e.op ∈ s.live) : e.request ∈ s.cq.filterMap (credited s.live) := by
  have ⟨c, hc, hce⟩ := List.mem_map.mp he
  have hpend : e ∈ pending s := List.mem_append_right _ he
  have hdata := ((hinv.ledger.batch e.op hop).range e hpend rfl).2.1
  refine List.mem_filterMap.mpr ⟨c, hc, ?_⟩
  unfold credited
  rw [hce, hdata]
  exact if_pos hop

-- all completions are consumed, then the call goes on
theorem Quiet.consumed {s s' : State} (h : Quiet { s with cq := [] } s') (hinv : Inv s) :
    Frame s s' (s.cq.filterMap (credited s.live)) where
  inflight := fun _ he => Or.inl (h.inflight ▸ he)
  cq := fun _ he hop => Or.inr (mem_credited hinv he hop)
  batch := fun b _ => h.batch b
  nextOp := Nat.le_of_eq h.nextOp.symm
  live := fun _ hb => Or.inl (h.live ▸ hb)
  gone := fun _ hb => Or.inl (h.live ▸ hb)

theorem Quiet.refl (s : State) : Quiet s s := ⟨rfl, rfl, rfl, rfl, fun _ => .refl _⟩

theorem single_frame {entries : Nat} {s s' : State} {kind : Kind} {addr bytes : Nat}
    (hs : single entries s kind addr bytes = some s') (more : List (Nat × Nat)) :
    Frame s s' more := by
  have hnext : ∀ {u : State}, u.inflight = s.inflight → u.cq = s.cq → u.live = s.live →
      u.nextOp = s.nextOp + 1 → u.batches = s.batches → Frame s u more :=
    fun hin hcq hlive hnext hbatches => {
      inflight := fun e he => Or.inl (hin ▸ he)
      cq := fun e he _ => Or.inl (by rw [hcq]; exact he)
      batch := fun b _ => by rw [hbatches]; exact .refl _
      nextOp := by omega
      live := fun b hb => Or.inl (hlive ▸ hb)
      gone := fun b hb => Or.inl (hlive ▸ hb) }
  unfold single at hs
  split_ifs at hs
  · exact Option.some.inj hs ▸ hnext rfl rfl rfl rfl rfl
  · exact Option.some.inj hs ▸ hnext rfl rfl rfl rfl rfl
  · exact Option.some.inj hs ▸ hnext rfl rfl rfl rfl rfl

theorem begin_frame {s s' : State} {thread : Nat} {ios : List Nat} (hinv : Inv s)
    (hs : begin s thread ios = some s') (more : List (Nat × Nat)) : Frame s s' more := by
  unfold begin at hs
  split_ifs at hs with hbad hbusy hmax
  · exact Option.some.inj hs ▸ (Quiet.refl s).frame more
  · exact Option.some.inj hs ▸ (Quiet.refl s).frame more
  · rw [← Option.some.inj hs]
    exact {
      inflight := fun e he => Or.inl he
      cq := fun e he _ => Or.inl he
      batch := fun b hb => by
        change Kept _ (Function.update s.batches s.nextOp _ b)
        rw [Function.update_of_ne (Nat.ne_of_lt (hinv.ledger.boundLive b hb))]
        exact .refl _
      nextOp := Nat.le_succ _
      live := fun b hb => (List.mem_cons.mp hb).symm.imp_right fun heq => Nat.le_of_eq heq.symm
      gone := fun b hb => Or.inl (List.mem_cons_of_mem _ hb) }

theorem finish_frame {s s' : State} {b : Nat} (hs : finish s b = some s')
    (more : List (Nat × Nat)) : Frame s s' more := by
  unfold finish at hs
  split_ifs at hs
  rw [← Option.some.inj hs]
  exact {
    inflight := fun e he => Or.inl he
    cq := fun e he _ => Or.inl he
    batch := fun _ _ => .refl _
    nextOp := Nat.le_refl _
    live := fun k hk => Or.inl (List.mem_of_mem_erase hk)
    gone := fun _ _ => Or.inr rfl }

theorem completes_frame {s s' : State} {i : Nat} {res : Int}
    (hs : kernelCompletes s i res = some s') (more : List (Nat × Nat)) : Frame s s' more := by
  have ⟨e, hi, he⟩ := Option.map_eq_some_iff.mp hs
  rw [← he]
  exact {
    inflight := fun k hk => by
      rcases List.mem_cons.mp ((perm_pick hi).mem_iff.mp hk) with rfl | hk
      · exact Or.inr (List.mem_map.mpr ⟨_, List.mem_append_right _ (List.mem_singleton_self _), rfl⟩)
      · exact Or.inl hk
    cq := fun k hk _ => Or.inl (by
      change k ∈ (s.cq ++ [(⟨e, res⟩ : Cqe)]).map Cqe.entry
      rw [List.map_append]
      exact List.mem_append_left _ hk)
    batch := fun _ _ => .refl _
    nextOp := Nat.le_refl _
    live := fun _ hb => Or.inl hb
    gone := fun _ hb => Or.inl hb }

theorem drive_quiet {entries : Nat} {s s' : State} {b : Nat} {wait : Bool} (hinv : Inv s)
    (hs : drive entries s b wait = some s') : Quiet s s' := by
  unfold drive at hs
  split_ifs at hs with hbad hfin hcomp
  · exact Option.some.inj hs ▸ .refl s
  · exact Option.some.inj hs ▸ .setBatch s ⟨rfl, Nat.le_refl _⟩
  · rw [← Option.some.inj hs]
    have hok := hinv.ledger.batch b (not_not.mp (not_or.mp hbad).2)
    have ⟨_, _, hp, _⟩ := prepare_spec b _ (entries - s.sq.length) (s.batches b) [] rfl hok.le
    have hset : Quiet s (s.setBatch b (prepareBatch entries s b).1) :=
      .setBatch s ⟨hp.ios, hp.le⟩
    unfold driveFrom
    split_ifs
    · exact hset.trans (.afterSubmit _ _)
    · exact hset.trans ⟨rfl, rfl, rfl, rfl, fun _ => .refl _⟩

theorem enter_frame {s s' : State} {res : Int} (hs : enter s res = some s')
    (more : List (Nat × Nat)) : Frame s s' more := by
  have hfinish : ∀ (x : Single) (rc : Int), Quiet s (x.finish s rc) := fun x rc =>
    ⟨rfl, rfl, rfl, rfl, fun _ => .refl _⟩
  unfold enter at hs
  cases hpc : s.pc with
  | idle | look x | drivePoll d | driveLook d | driveAgain d =>
    rw [hpc] at hs
    exact nomatch hs
  | submit x =>
    rw [hpc] at hs
    change (if res ≤ 0 then some (x.finish s (submitError res)) else
      if res = 1 then some { accept s 1 with pc := .look x } else none) = some s' at hs
    split_ifs at hs
    · exact Option.some.inj hs ▸ (hfinish x _).frame more
    · exact Option.some.inj hs ▸ (Quiet.go (accept s 1) (.look x)).accepted more
  | await x =>
    rw [hpc] at hs
    change (if res < 0 then some (x.finish s (-res)) else some { s with pc := .look x }) =
      some s' at hs
    split_ifs at hs
    · exact Option.some.inj hs ▸ (hfinish x _).frame more
    · exact Option.some.inj hs ▸ (Quiet.go s (.look x)).frame more
  | driveSubmit d prepared got =>
    rw [hpc] at hs
    change (if res ≤ 0 then some (driveSubmitFails s d prepared got (submitError res)) else
      if res.toNat ≤ prepared - got then
        some (driveSubmitted (accept s res.toNat) d prepared (got + res.toNat)) else none) =
      some s' at hs
    split_ifs at hs
    · rw [← Option.some.inj hs]
      exact ((Quiet.setBatch s ((Kept.fail _ _).trans (.writeOff _ _ _ _))).trans
        (.afterSubmit _ _)).frame more
    · rw [← Option.some.inj hs]
      unfold driveSubmitted
      split_ifs
      · exact (Quiet.afterSubmit _ d).accepted more
      · exact (Quiet.go _ _).accepted more
  | driveAwait d =>
    rw [hpc] at hs
    change (if res < 0 then some (driveEnd (s.setBatch d.batch ((s.batches d.batch).fail (-res))) d)
      else some { s with pc := .driveAgain d }) = some s' at hs
    split_ifs at hs
    · rw [← Option.some.inj hs]
      exact ((Quiet.setBatch s (.fail _ _)).trans (.driveEnd _ d)).frame more
    · exact Option.some.inj hs ▸ (Quiet.go s _).frame more

theorem load_frame {entries : Nat} {s s' : State} (hinv : Inv s) (hs : load s = some s') :
    Frame s s' (counted entries s .load) := by
  have hp := hinv.placed
  unfold Placed at hp
  unfold load at hs
  simp only [counted]
  cases hpc : s.pc with
  | idle | submit x | await x | driveSubmit d prepared got | driveAwait d =>
    rw [hpc] at hs
    cases hs
  | look x =>
    rw [hpc] at hp hs
    cases hcq : s.cq with
    | nil =>
      rw [hcq] at hs
      rw [← Option.some.inj hs, ← hcq]
      exact (Quiet.go s _).frame _
    | cons c rest =>
      rw [hcq] at hs
      rw [← Option.some.inj hs]
      exact {
        inflight := fun e he => Or.inl he
        cq := fun e _ hop => by
          rw [hp.1] at hop
          cases hop
        batch := fun _ _ => .refl _
        nextOp := Nat.le_refl _
        live := fun _ hb => Or.inl hb
        gone := fun _ hb => Or.inl hb }
  | drivePoll d =>
    rw [hpc] at hs
    rw [← Option.some.inj hs]
    exact ((Quiet.consumeAll s).trans (.polled _ d _)).consumed hinv
  | driveLook d =>
    rw [hpc] at hs
    change (if s.cq = [] then some { s with pc := .driveAwait d }
      else some (driveEnd (consumeAll s) d)) = some s' at hs
    split_ifs at hs
    · exact Option.some.inj hs ▸ (Quiet.go s _).frame _
    · rw [← Option.some.inj hs]
      exact ((Quiet.consumeAll s).trans (.driveEnd _ d)).consumed hinv
  | driveAgain d =>
    rw [hpc] at hs
    rw [← Option.some.inj hs]
    exact ((Quiet.consumeAll s).trans (.driveEnd _ d)).consumed hinv

theorem step_frame {entries : Nat} {s s' : State} {e : Event} (hinv : Inv s)
    (hs : step entries s e = some s') : Frame s s' (counted entries s e) := by
  cases e with
  | single kind addr bytes => exact single_frame hs _
  | begin thread ios => exact begin_frame hinv hs _
  | drive b wait => exact (drive_quiet hinv hs).frame _
  | finish b => exact finish_frame hs _
  | enter res => exact enter_frame hs _
  | load => exact load_frame hinv hs
  | completes i res => exact completes_frame hs _

/-! ## 2. A drive consumes what has arrived -/

theorem Inv.drive_live {s : State} {d : Drive} (h : Inv s) (hd : s.pc.drive = some d) :
    d.batch ∈ s.live := by
  have hp := h.placed
  unfold Placed at hp
  cases hpc : s.pc with
  | idle | submit x | look x | await x =>
    rw [hpc] at hd
    exact nomatch hd
  | driveSubmit e prepared got =>
    rw [hpc] at hp hd
    exact Option.some.inj hd ▸ hp.1
  | drivePoll e | driveLook e | driveAwait e | driveAgain e =>
    rw [hpc] at hp hd
    exact Option.some.inj hd ▸ hp.1

-- an entry in the rings keeps its batch incomplete
theorem BatchOk.owes {p : List Entry} {credits : List Credit} {b : Nat} {t : Batch}
    (h : BatchOk p credits b t) {e : Entry} (he : e ∈ p) (hop : e.op = b) :
    t.completed < t.submitted := by
  have hcount := h.counted
  have hpos : 0 < p.countP fun e => e.op = b := List.countP_pos_iff.mpr ⟨e, he, by simpa using hop⟩
  omega

theorem afterSubmit_drive {s : State} {d : Drive}
    (h : (s.batches d.batch).completed < (s.batches d.batch).submitted) :
    (afterSubmit s d).pc.drive = some d := by
  unfold afterSubmit
  rw [if_pos h]
  rfl

theorem drive_holds {entries : Nat} {s s' : State} {done : List (Nat × Nat)} {e : Entry}
    {wait : Bool} (h : Driving s done) (hs : drive entries s e.op wait = some s')
    (hcomp : (s.batches e.op).completed < (s.batches e.op).ios.length)
    (he : e ∈ s.cq.map Cqe.entry) : ∃ d, s'.pc.drive = some d ∧ d.batch = e.op := by
  unfold drive at hs
  split_ifs at hs with hbad hfin hcomp'
  · have hb := not_not.mp (not_or.mp hbad).2
    have hle := (h.tallied.tally.batch e.op hb).behind
    omega
  · omega
  · have hb := not_not.mp (not_or.mp hbad).2
    have hok := h.inv.ledger.batch e.op hb
    rw [← Option.some.inj hs]
    have ⟨new, _, hprep, hend⟩ := prepare_spec e.op _ (entries - s.sq.length) (s.batches e.op) []
      rfl hok.le
    have howes := (hok.prepared hprep hend).owes
      (List.mem_append_left _ (List.mem_append_right _ he)) rfl
    unfold driveFrom
    split_ifs with hnil
    · refine ⟨_, afterSubmit_drive ?_, rfl⟩
      change (Function.update s.batches e.op _ e.op).completed <
        (Function.update s.batches e.op _ e.op).submitted
      rw [Function.update_self]
      exact howes
    · exact ⟨_, rfl, rfl⟩

-- the call goes on until the completion is consumed
theorem step_holds {entries : Nat} {s s' : State} {ev : Event} {d : Drive} {e : Entry}
    (h : Inv s) (hsteady : Steady s ev) (hs : step entries s ev = some s')
    (hd : s.pc.drive = some d) (hop : e.op = d.batch) (he : e ∈ s.cq.map Cqe.entry) :
    s'.pc.drive = some d ∨ e.request ∈ counted entries s ev := by
  have hbusy : s.pc ≠ .idle := fun hpc => by
    rw [hpc] at hd
    cases hd
  have hlive := h.drive_live hd
  have howes := (h.ledger.batch _ hlive).owes (List.mem_append_right _ he) hop
  have hmem : e.request ∈ s.cq.filterMap (credited s.live) := mem_credited h he (hop ▸ hlive)
  cases ev with
  | single kind addr bytes =>
    change single entries s kind addr bytes = some s' at hs
    unfold single at hs
    split_ifs at hs with hbig hstop hfull
    · exact Or.inl (Option.some.inj hs ▸ hd)
    · exact absurd (Or.inl hbusy) hstop
    · exact absurd (Or.inl hbusy) hstop
  | begin thread ios =>
    change begin s thread ios = some s' at hs
    unfold begin at hs
    split_ifs at hs with hbad hstop hmax
    · exact Or.inl (Option.some.inj hs ▸ hd)
    · exact absurd (Or.inl hbusy) hstop
    · exact absurd (Or.inl hbusy) hstop
  | drive b wait =>
    change drive entries s b wait = some s' at hs
    unfold drive at hs
    rw [if_pos (Or.inl hbusy)] at hs
    cases hs
  | finish b =>
    change finish s b = some s' at hs
    unfold finish at hs
    rw [if_pos (Or.inl hbusy)] at hs
    cases hs
  | enter res =>
    have hsmooth := hsteady.1
    have hwait := hsteady.2
    change enter s res = some s' at hs
    unfold Smooth at hsmooth
    unfold enter at hs
    cases hpc : s.pc with
    | idle => exact absurd hpc hbusy
    | submit x | look x | await x =>
      rw [hpc] at hd
      cases hd
    | drivePoll f | driveLook f | driveAgain f =>
      rw [hpc] at hs
      cases hs
    | driveSubmit f prepared got =>
      rw [hpc] at hs hsmooth hd
      have hdf : f = d := Option.some.inj hd
      subst hdf
      change (if res ≤ 0 then _ else if res.toNat ≤ prepared - got then
        some (driveSubmitted (accept s res.toNat) f prepared (got + res.toNat)) else none) =
        some s' at hs
      change 0 < res at hsmooth
      rw [if_neg (by omega)] at hs
      split_ifs at hs with hle
      rw [← Option.some.inj hs]
      apply Or.inl
      unfold driveSubmitted
      split_ifs
      · exact afterSubmit_drive howes
      · rfl
    | driveAwait f =>
      rw [hpc] at hs hwait hd
      change (if res < 0 then _ else some { s with pc := .driveAgain f }) = some s' at hs
      change 0 ≤ res at hwait
      rw [if_neg (by omega)] at hs
      rw [← Option.some.inj hs]
      exact Or.inl hd
  | load =>
    change load s = some s' at hs
    unfold load at hs
    simp only [counted]
    cases hpc : s.pc with
    | idle => exact absurd hpc hbusy
    | submit x | await x | driveSubmit f prepared got | driveAwait f =>
      rw [hpc] at hs
      cases hs
    | look x =>
      rw [hpc] at hd
      cases hd
    | drivePoll f | driveLook f | driveAgain f => exact Or.inr hmem
  | completes i res =>
    obtain ⟨k, _, hk⟩ := Option.map_eq_some_iff.mp hs
    rw [← hk]
    exact Or.inl hd

/-! ## 3. Runs without an end -/

structure Endless (entries : Nat) (σ : Nat → State) (ev : Nat → Event) : Prop where
  start : σ 0 = Uring.start
  steady : ∀ n, Steady (σ n) (ev n)
  step : ∀ n, step entries (σ n) (ev n) = some (σ (n + 1))

def countedBefore (entries : Nat) (σ : Nat → State) (ev : Nat → Event) : Nat → List (Nat × Nat)
  | 0 => []
  | n + 1 => countedBefore entries σ ev n ++ counted entries (σ n) (ev n)

-- what holds goes on holding, or something else happens first
theorem holds_or {P Q : Nat → Prop} (hstep : ∀ n, P n → P (n + 1) ∨ Q (n + 1)) {m k : Nat}
    (hmk : m ≤ k) (hm : P m) : P k ∨ ∃ j, m ≤ j ∧ j ≤ k ∧ Q j := by
  induction hmk with
  | refl => exact Or.inl hm
  | step hle ih =>
    rcases ih with hp | ⟨j, hmj, hjk, hq⟩
    · rcases hstep _ hp with hp | hq
      · exact Or.inl hp
      · exact Or.inr ⟨_, Nat.le_succ_of_le hle, Nat.le_refl _, hq⟩
    · exact Or.inr ⟨j, hmj, Nat.le_succ_of_le hjk, hq⟩

section
variable {entries : Nat} {σ : Nat → State} {ev : Nat → Event}

theorem Endless.driving (hrun : Endless entries σ ev) (hcap : 0 < entries) (n : Nat) :
    Driving (σ n) (countedBefore entries σ ev n) := by
  induction n with
  | zero =>
    rw [hrun.start]
    exact start_driving
  | succ n ih => exact step_driving hcap ih (hrun.steady n) (hrun.step n)

theorem Endless.frame (hrun : Endless entries σ ev) (hcap : 0 < entries) (n : Nat) :
    Frame (σ n) (σ (n + 1)) (counted entries (σ n) (ev n)) :=
  step_frame (hrun.driving hcap n).inv (hrun.step n)

theorem countedBefore_mono {m k : Nat} (hmk : m ≤ k) {r : Nat × Nat}
    (hr : r ∈ countedBefore entries σ ev m) : r ∈ countedBefore entries σ ev k := by
  induction hmk with
  | refl => exact hr
  | step _ ih => exact List.mem_append_left _ ih

-- a batch that is live later, and has begun, is live now
theorem Endless.live_of_later (hrun : Endless entries σ ev) (hcap : 0 < entries) {m k b : Nat}
    (hmk : m ≤ k) (hb : b < (σ m).nextOp) (hlive : b ∈ (σ k).live) : b ∈ (σ m).live := by
  induction hmk with
  | refl => exact hlive
  | @step k hle ih =>
    have hnext : ∀ j, m ≤ j → (σ m).nextOp ≤ (σ j).nextOp := fun j hj => by
      induction hj with
      | refl => exact Nat.le_refl _
      | step _ ih => exact Nat.le_trans ih (hrun.frame hcap _).nextOp
    have hle' := hnext k hle
    exact ih (((hrun.frame hcap k).live b hlive).resolve_right fun h => by omega)

theorem Endless.drive_idle (hrun : Endless entries σ ev) {k b : Nat} {wait : Bool}
    (hk : ev k = .drive b wait) : (σ k).pc = .idle ∧ b ∈ (σ k).live := by
  have hs := hrun.step k
  rw [hk] at hs
  change drive entries (σ k) b wait = some _ at hs
  unfold drive at hs
  split_ifs at hs with hbad
  · exact ⟨not_not.mp (not_or.mp hbad).1, not_not.mp (not_or.mp hbad).2⟩
  · exact ⟨not_not.mp (not_or.mp hbad).1, not_not.mp (not_or.mp hbad).2⟩
  · exact ⟨not_not.mp (not_or.mp hbad).1, not_not.mp (not_or.mp hbad).2⟩

/-- From `n` on batch `b` stays incomplete although it is driven again and again. -/
structure Stuck (entries : Nat) (σ : Nat → State) (ev : Nat → Event) (b n : Nat) : Prop where
  live : ∀ m, n ≤ m → b ∈ (σ m).live
  short : ∀ m, n ≤ m → ((σ m).batches b).completed < ((σ m).batches b).ios.length
  driven : ∀ m, n ≤ m → ∃ k, m ≤ k ∧ ∃ wait, ev k = .drive b wait

variable {b n : Nat}

theorem Stuck.ios (h : Stuck entries σ ev b n) (hrun : Endless entries σ ev) (hcap : 0 < entries)
    {m k : Nat} (hm : n ≤ m) (hmk : m ≤ k) : Kept ((σ m).batches b) ((σ k).batches b) := by
  induction hmk with
  | refl => exact .refl _
  | step hle ih =>
    exact ih.trans ((hrun.frame hcap _).batch b (h.live _ (Nat.le_trans hm hle)))

-- a completion in the ring is consumed by the next drive
theorem Stuck.consumed (h : Stuck entries σ ev b n) (hrun : Endless entries σ ev)
    (hcap : 0 < entries) {m : Nat} (hm : n ≤ m) {e : Entry} (hop : e.op = b)
    (he : e ∈ (σ m).cq.map Cqe.entry) : ∃ k, e.request ∈ countedBefore entries σ ev k := by
  have hcq : ∀ j, (n ≤ j ∧ e ∈ (σ j).cq.map Cqe.entry) →
      (n ≤ j + 1 ∧ e ∈ (σ (j + 1)).cq.map Cqe.entry) ∨
        e.request ∈ countedBefore entries σ ev (j + 1) := fun j hj => by
    have hlive : e.op ∈ (σ j).live := by
      rw [hop]
      exact h.live j hj.1
    rcases (hrun.frame hcap j).cq e hj.2 hlive with hc | hc
    · exact Or.inl ⟨Nat.le_succ_of_le hj.1, hc⟩
    · exact Or.inr (List.mem_append_right _ hc)
  have ⟨k, hmk, wait, hk⟩ := h.driven m hm
  rcases holds_or (P := fun j => n ≤ j ∧ e ∈ (σ j).cq.map Cqe.entry)
      (Q := fun j => e.request ∈ countedBefore entries σ ev j) hcq hmk ⟨hm, he⟩ with ⟨hnk, hek⟩ | ⟨j, _, _, hj⟩
  · have hstep := hrun.step k
    rw [hk, ← hop] at hstep
    have ⟨d, hd, hdb⟩ := drive_holds (hrun.driving hcap k) hstep (hop ▸ h.short k hnk) hek
    rcases hcq k ⟨hnk, hek⟩ with ⟨hnk', hek'⟩ | hdone
    · have ⟨q, hkq, wait', hq⟩ := h.driven (k + 1) hnk'
      have hhold : ∀ j, (n ≤ j ∧ e ∈ (σ j).cq.map Cqe.entry ∧ (σ j).pc.drive = some d) →
          (n ≤ j + 1 ∧ e ∈ (σ (j + 1)).cq.map Cqe.entry ∧ (σ (j + 1)).pc.drive = some d) ∨
            e.request ∈ countedBefore entries σ ev (j + 1) := fun j ⟨hnj, hej, hdj⟩ => by
        rcases hcq j ⟨hnj, hej⟩ with ⟨hnj', hej'⟩ | hdone
        · have hinv := (hrun.driving hcap j).inv
          rcases step_holds hinv (hrun.steady j) (hrun.step j) hdj hdb.symm hej with hd' | hc
          · exact Or.inl ⟨hnj', hej', hd'⟩
          · exact Or.inr (List.mem_append_right _ hc)
        · exact Or.inr hdone
      rcases holds_or
          (P := fun j => n ≤ j ∧ e ∈ (σ j).cq.map Cqe.entry ∧ (σ j).pc.drive = some d)
          (Q := fun j => e.request ∈ countedBefore entries σ ev j) hhold hkq
          ⟨hnk', hek', hd⟩ with ⟨_, _, hdq⟩ | ⟨j, _, _, hj⟩
      · rw [(hrun.drive_idle hq).1] at hdq
        exact nomatch hdq
      · exact ⟨j, hj⟩
    · exact ⟨k + 1, hdone⟩
  · exact ⟨j, hj⟩

theorem Stuck.counted (h : Stuck entries σ ev b n) (hrun : Endless entries σ ev)
    (hcap : 0 < entries)
    (hkernel : ∀ m, ∀ e ∈ (σ m).inflight, ∃ k, m ≤ k ∧ e ∉ (σ k).inflight)
    {m i : Nat} (hm : n ≤ m) (hi : i < ((σ m).batches b).submitted) :
    ∃ k, (b, i) ∈ countedBefore entries σ ev k := by
  have ⟨k, hmk, wait, hk⟩ := h.driven m hm
  have hnk := Nat.le_trans hm hmk
  have hik : i < ((σ k).batches b).submitted :=
    Nat.lt_of_lt_of_le hi (h.ios hrun hcap hm hmk).submitted
  have hinv := hrun.driving hcap k
  by_cases hdone : (b, i) ∈ countedBefore entries σ ev k
  · exact ⟨k, hdone⟩
  have hsplit := (hinv.tallied.tally.batch b (h.live k hnk)).split i
  have hpend : ∃ e ∈ pending (σ k), e.request = (b, i) := by
    by_contra hnone
    exact hdone (hsplit.mpr ⟨hik, fun e he hreq => hnone ⟨e, he, hreq⟩⟩)
  have ⟨e, he, hreq⟩ := hpend
  have hop : e.op = b := congrArg Prod.fst hreq
  unfold pending at he
  rw [(hinv.inv.idle (hrun.drive_idle hk).1).1, List.nil_append] at he
  rw [← hreq]
  rcases List.mem_append.mp he with he | he
  · have ⟨q, hkq, hq⟩ := hkernel k e he
    rcases holds_or (P := fun j => e ∈ (σ j).inflight) (Q := fun j => e ∈ (σ j).cq.map Cqe.entry)
        (fun j hj => (hrun.frame hcap j).inflight e hj) hkq he with hin | ⟨j, hkj, _, hj⟩
    · exact absurd hin hq
    · exact h.consumed hrun hcap (Nat.le_trans hnk hkj) hop hj
  · exact h.consumed hrun hcap hnk hop he

theorem drive_advances {s s' : State} {wait : Bool} {done : List (Nat × Nat)} (hcap : 0 < entries)
    (h : Driving s done) (hs : drive entries s b wait = some s')
    (hcomp : (s.batches b).completed < (s.batches b).ios.length)
    (hsub : (s.batches b).submitted < (s.batches b).ios.length) :
    (s.batches b).submitted < (s'.batches b).submitted := by
  unfold drive at hs
  split_ifs at hs with hbad hfin hcomp'
  · have hle := (h.tallied.tally.batch b (not_not.mp (not_or.mp hbad).2)).behind
    omega
  · omega
  · have ⟨hpc, hb⟩ := not_or.mp hbad
    have hmore := prepare_advances (b := b) (s.batches b) [] rfl hsub
      (show 0 < entries - s.sq.length by rw [(h.inv.idle (not_not.mp hpc)).1]; exact hcap)
    have hset : ((s.setBatch b (prepareBatch entries s b).1).batches b).submitted =
        (prepareBatch entries s b).1.submitted := by
      change (Function.update s.batches b _ b).submitted = _
      rw [Function.update_self]
    rw [← Option.some.inj hs]
    refine Nat.lt_of_lt_of_le hmore ?_
    unfold driveFrom
    split_ifs
    · have hle := ((Quiet.afterSubmit (s.setBatch b (prepareBatch entries s b).1)
        ⟨b, wait, (s.batches b).submitted, (s.batches b).completed⟩).batch b).submitted
      rw [hset] at hle
      exact hle
    · exact Nat.le_of_eq hset.symm

theorem Stuck.submitted (h : Stuck entries σ ev b n) (hrun : Endless entries σ ev)
    (hcap : 0 < entries) {k : Nat} (hk : k ≤ ((σ n).batches b).ios.length) :
    ∃ m, n ≤ m ∧ k ≤ ((σ m).batches b).submitted := by
  induction k with
  | zero => exact ⟨n, Nat.le_refl n, Nat.zero_le _⟩
  | succ k ih =>
    have ⟨m, hm, hkm⟩ := ih (Nat.le_of_succ_le hk)
    have ⟨q, hmq, wait, hq⟩ := h.driven m hm
    have hnq := Nat.le_trans hm hmq
    have hkq := Nat.le_trans hkm (h.ios hrun hcap hm hmq).submitted
    by_cases hlt : k < ((σ q).batches b).submitted
    · exact ⟨q, hnq, hlt⟩
    · have hstep := hrun.step q
      rw [hq] at hstep
      have hios := (h.ios hrun hcap (Nat.le_refl n) hnq).ios
      have hmore := drive_advances hcap (hrun.driving hcap q) hstep (h.short q hnq)
        (by rw [hios]; omega)
      exact ⟨q + 1, Nat.le_succ_of_le hnq, by omega⟩

-- a batch is not stuck for ever
theorem Stuck.false (h : Stuck entries σ ev b n) (hrun : Endless entries σ ev) (hcap : 0 < entries)
    (hkernel : ∀ m, ∀ e ∈ (σ m).inflight, ∃ k, m ≤ k ∧ e ∉ (σ k).inflight) : False := by
  have ⟨m, hm, hsub⟩ := h.submitted hrun hcap (Nat.le_refl _)
  have hall : ∀ i ≤ ((σ n).batches b).ios.length, ∃ k, m ≤ k ∧
      ∀ j < i, (b, j) ∈ countedBefore entries σ ev k := fun i hi => by
    induction i with
    | zero => exact ⟨m, Nat.le_refl m, fun j hj => absurd hj (Nat.not_lt_zero j)⟩
    | succ i ih =>
      have ⟨k, hmk, hk⟩ := ih (Nat.le_of_succ_le hi)
      have ⟨q, hq⟩ := h.counted hrun hcap hkernel hm (Nat.lt_of_lt_of_le hi hsub)
      refine ⟨max k q, Nat.le_trans hmk (Nat.le_max_left k q), fun j hj => ?_⟩
      rcases Nat.lt_succ_iff_lt_or_eq.mp hj with hj | hj
      · exact countedBefore_mono (Nat.le_max_left k q) (hk j hj)
      · exact hj ▸ countedBefore_mono (Nat.le_max_right k q) hq
  have ⟨k, hmk, hk⟩ := hall _ (Nat.le_refl _)
  have hnk := Nat.le_trans hm hmk
  have hd := hrun.driving hcap k
  have hc := hd.tallied.tally.batch b (h.live k hnk)
  have hok := hd.inv.ledger.batch b (h.live k hnk)
  have hios := (h.ios hrun hcap (Nat.le_refl n) hnk).ios
  have hle := (h.ios hrun hcap hm hmk).submitted
  have hshort := h.short k hnk
  -- nothing of the batch is left in the rings
  have hnone : (pending (σ k)).countP (fun e => e.op = b) = 0 := by
    apply List.countP_eq_zero.mpr
    intro e he hop
    have hop : e.op = b := by simpa using hop
    have hlt := hc.range e he hop
    have hlen := hok.le
    have hdone := hk e.index (by rw [← hios]; omega)
    exact ((hc.split e.index).mp hdone).2 e he (by rw [← hop]; rfl)
  have hcount := hok.counted
  rw [hios] at hshort
  omega

end

/-! ## 4. Main result -/

/-- The states of the runs whose steps all satisfy `ok`, with the requests counted on the way. -/
inductive Counting (entries : Nat) (ok : State → Event → Prop) :
    State → List (Nat × Nat) → Prop where
  | start : Counting entries ok Uring.start []
  | step {s s' : State} {done : List (Nat × Nat)} (e : Event) : Counting entries ok s done →
      ok s e → step entries s e = some s' → Counting entries ok s' (done ++ counted entries s e)

theorem Counting.driving {entries : Nat} {s : State} {done : List (Nat × Nat)}
    (h : Counting entries Steady s done) (hcap : 0 < entries) : Driving s done := by
  induction h with
  | start => exact start_driving
  | step e _ hok hs ih => exact step_driving hcap ih hok hs

/-- In every steady run each request is counted once and a final code tells the truth; and in every
endless one whose submitted requests are all completed some day, a batch that is driven as long as it
is incomplete gets complete. -/
theorem drives_complete {entries : Nat} (hcap : 0 < entries) :
    (∀ s done, Counting entries Steady s done → Sound s done) ∧
    ∀ σ ev, Endless entries σ ev →
      (∀ m, ∀ e ∈ (σ m).inflight, ∃ k, m ≤ k ∧ e ∉ (σ k).inflight) →
      ∀ b n, b ∈ (σ n).live →
        (∀ m, n ≤ m → ((σ m).batches b).completed < ((σ m).batches b).ios.length →
          ∃ k, m ≤ k ∧ ∃ wait, ev k = .drive b wait) →
        ∃ m, n ≤ m ∧ b ∈ (σ m).live ∧
          ((σ m).batches b).completed = ((σ m).batches b).ios.length := by
  refine ⟨fun s done h => (h.driving hcap).sound, fun σ ev hrun hkernel b n hb hdriven => ?_⟩
  by_contra hnever
  have hshort : ∀ m, n ≤ m → b ∈ (σ m).live →
      ((σ m).batches b).completed < ((σ m).batches b).ios.length := fun m hm hlive => by
    have hbounds := (hrun.driving hcap m).sound.bounds b hlive
    have hne : ((σ m).batches b).completed ≠ ((σ m).batches b).ios.length := fun heq =>
      hnever ⟨m, hm, hlive, heq⟩
    omega
  have hlive : ∀ m, n ≤ m → b ∈ (σ m).live := fun m hm => by
    induction hm with
    | refl => exact hb
    | @step m hm ih =>
      rcases (hrun.frame hcap m).gone b ih with hlive | hsame
      · exact hlive
      -- a caller that gives the batch up does not drive it again
      · have hlt := hshort m hm ih
        rw [← hsame] at hlt
        have ⟨k, hmk, wait, hk⟩ := hdriven (m + 1) (Nat.le_succ_of_le hm) hlt
        have hbound := (hrun.driving hcap m).inv.ledger.boundLive b ih
        exact hrun.live_of_later hcap hmk
          (Nat.lt_of_lt_of_le hbound (hrun.frame hcap m).nextOp) (hrun.drive_idle hk).2
  exact Stuck.false ⟨hlive, fun m hm => hshort m hm (hlive m hm),
    fun m hm => hdriven m hm (hshort m hm (hlive m hm))⟩ hrun hcap hkernel

/-- A read and one that is too large; once they are over, the batch is driven on. -/
def sampleEvent : Nat → Event
  | 0 => .begin 1 [64, 2 ^ 32]
  | 1 => .drive 0 true
  | 2 => .enter 1
  | 3 => .completes 0 64
  | 4 => .load
  | _ + 5 => .drive 0 true

def sampleState : Nat → State
  | 0 => start
  | n + 1 => (step 2 (sampleState n) (sampleEvent n)).getD (sampleState n)

theorem sampleState_rest (n : Nat) : sampleState (n + 5) = sampleState 5 := by
  induction n with
  | zero => rfl
  | succ n ih =>
    change (step 2 (sampleState (n + 5)) (.drive 0 true)).getD (sampleState (n + 5)) = _
    rw [ih]
    rfl

theorem sampleState_endless : Endless 2 sampleState sampleEvent where
  start := rfl
  steady := fun n => by
    match n with
    | 0 | 1 | 3 | 4 => exact ⟨trivial, trivial⟩
    | 2 => exact ⟨Int.one_pos, trivial⟩
    | n + 5 => exact ⟨trivial, trivial⟩
  step := fun n => by
    match n with
    | 0 | 1 | 2 | 3 | 4 => rfl
    | n + 5 =>
      rw [sampleState_rest n, show n + 5 + 1 = n + 1 + 5 from rfl, sampleState_rest (n + 1)]
      rfl

theorem drives_complete_sample :
    (∃ s, Counting 2 Steady s [(0, 1), (0, 0)] ∧ Sound s [(0, 1), (0, 0)] ∧
      (s.batches 0).completed = 2) ∧
    ∃ m, 1 ≤ m ∧ 0 ∈ (sampleState m).live ∧
      ((sampleState m).batches 0).completed = ((sampleState m).batches 0).ios.length := by
  have ⟨hsound, hends⟩ := drives_complete (show 0 < 2 by decide)
  have h : Counting 2 Steady start [] := .start
  have h := h.step (.begin 1 [64, 2 ^ 32]) ⟨trivial, trivial⟩ rfl
  have h := h.step (.drive 0 true) ⟨trivial, trivial⟩ rfl
  have h := h.step (.enter 1) ⟨Int.one_pos, trivial⟩ rfl
  have h := h.step (.completes 0 64) ⟨trivial, trivial⟩ rfl
  have h := h.step .load ⟨trivial, trivial⟩ rfl
  refine ⟨⟨_, h, hsound _ _ h, rfl⟩, ?_⟩
  refine hends sampleState sampleEvent sampleState_endless (fun m e _ => ?_) 0 1
    List.mem_cons_self fun m _ _ => ⟨m + 5, Nat.le_add_right m 5, true, rfl⟩
  refine ⟨m + 5, Nat.le_add_right m 5, fun he => ?_⟩
  rw [sampleState_rest] at he
  exact nomatch he

/-- One `io_uring_enter` fails after the kernel has taken the first of two reads.  The second is
written off and left in the ring, the next drive submits it in place of the third, and it is counted
again: the drive reports the end although the third read was never submitted. -/
theorem written_off_counted_twice :
    ∃ s done, Counting 2 (fun _ _ => True) s done ∧ done = [(0, 1), (0, 0), (0, 1)] ∧
      (s.batches 0).finished = 3 ∧ (s.batches 0).completed = 3 ∧
      (s.batches 0).results 2 = ⟨mdbxSuccess, 0, true, false⟩ ∧ s.inflight = [] ∧
      ¬ Sound s done := by
  have h : Counting 2 (fun _ _ => True) start [] := .start
  have h := h.step (.begin 1 [64, 64, 64]) trivial rfl
  have h := h.step (.drive 0 true) trivial rfl
  have h := h.step (.enter 1) trivial rfl
  have h := h.step (.enter (-11)) trivial rfl
  have h := h.step (.completes 0 64) trivial rfl
  have h := h.step .load trivial rfl
  have h := h.step (.drive 0 true) trivial rfl
  have h := h.step (.enter 1) trivial rfl
  have h := h.step (.completes 0 64) trivial rfl
  have h := h.step .load trivial rfl
  refine ⟨_, _, h, rfl, rfl, rfl, rfl, rfl, fun hsound => ?_⟩
  have hnodup := hsound.once
  exact absurd hnodup (by decide)

end Mdbx.Uring
