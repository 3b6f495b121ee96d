import Mdbx.Uring.Tally

/-!
# Uring.Drives — driving a read batch makes progress and ends

Every request is counted once, and as long as the kernel takes what is submitted, each drive that
finds its batch incomplete submits something or waits for something the kernel still owes.
-/

namespace Mdbx.Uring

/-! ## 1. What is promised -/

/-- The batches when the requests in `done` were counted as completed. -/
structure Sound (s : State) (done : List (Nat × Nat)) : Prop where
  bounds : ∀ b ∈ s.live, (s.batches b).completed ≤ (s.batches b).submitted ∧
    (s.batches b).submitted ≤ (s.batches b).ios.length
  /-- No request is counted twice, and `completed` counts nothing else. -/
  once : done.Nodup
  tally : ∀ b ∈ s.live, (s.batches b).completed = done.countP fun r => r.1 = b
  /-- Once a drive has returned its final code, each request has its payload or an error. -/
  final : ∀ b ∈ s.live, (s.batches b).finished = (s.batches b).ios.length →
    ∀ i < (s.batches b).ios.length,
      ((s.batches b).results i).Settled ((s.batches b).ios.getD i 0)
  reported : ∀ b ∈ s.live, (s.batches b).finished = (s.batches b).ios.length →
    ((s.batches b).reported ≠ mdbxSuccess ↔
      ∃ i < (s.batches b).ios.length, ((s.batches b).results i).err ≠ mdbxSuccess)

/-- The kernel takes what is submitted, no wait fails, and batches are finished when they are
complete. -/
def Steady (s : State) (e : Event) : Prop :=
  Smooth s e ∧
    match e, s.pc with
    | .enter res, .driveAwait _ => 0 ≤ res
    | _, _ => True

/-! ## 2. The invariant -/

structure Tally (p : List Entry) (done : List (Nat × Nat)) (batches : Nat → Batch)
    (live : List Nat) (nextOp : Nat) : Prop where
  nodup : done.Nodup
  bound : ∀ r ∈ done, r.1 < nextOp
  batch : ∀ b ∈ live, Counted p done b (batches b)

/-- The drive got on since it started, or found something outstanding. -/
def Ahead (d : Drive) (t : Batch) : Prop :=
  d.submittedBefore < t.submitted ∨ d.completedBefore < t.submitted

def Pc.drive : Pc → Option Drive
  | .driveSubmit d _ _ | .drivePoll d | .driveLook d | .driveAwait d | .driveAgain d => some d
  | _ => none

structure Tallied (s : State) (done : List (Nat × Nat)) : Prop where
  tally : Tally (pending s) done s.batches s.live s.nextOp
  ahead : ∀ d, s.pc.drive = some d → Ahead d (s.batches d.batch)

variable {p p' : List Entry} {batches : Nat → Batch} {live : List Nat} {nextOp : Nat}
  {credits : List Credit} {returned : List Return} {done : List (Nat × Nat)}

theorem Tally.perm (h : Tally p done batches live nextOp) (hp : p.Perm p') :
    Tally p' done batches live nextOp :=
  ⟨h.nodup, h.bound, fun b hb => (h.batch b hb).perm hp⟩

theorem Tally.setBatch {b : Nat} {t : Batch} (h : Tally p done batches live nextOp)
    (hb : b ∈ live → Counted p done b t) :
    Tally p done (Function.update batches b t) live nextOp where
  nodup := h.nodup
  bound := h.bound
  batch := fun k hk => by
    by_cases hkb : k = b
    · rw [hkb, Function.update_self]
      exact hb (hkb ▸ hk)
    · rw [Function.update_of_ne hkb]
      exact h.batch k hk

theorem BatchOk.completed_le {b : Nat} {t : Batch} (h : BatchOk p credits b t) :
    t.completed ≤ t.submitted := by
  have hcount := h.counted
  omega

-- an entry of another batch goes
theorem Counted.erase_other {e : Entry} {b : Nat} {t : Batch} (h : Counted (e :: p) done b t)
    (hne : e.op ≠ b) : Counted p (done ++ [e.request]) b t := by
  have hdrop : Counted p done b t := {
    tally := h.tally
    range := fun k hk => h.range k (List.mem_cons_of_mem e hk)
    split := fun i => (h.split i).trans (and_congr_right fun _ =>
      ⟨fun hall k hk => hall k (List.mem_cons_of_mem e hk), fun hall k hk => by
        rcases List.mem_cons.mp hk with rfl | hk
        · exact fun hreq => hne (congrArg Prod.fst hreq)
        · exact hall k hk⟩)
    waiting := fun k hk => h.waiting k (List.mem_cons_of_mem e hk)
    settled := h.settled
    firstErr := h.firstErr
    behind := h.behind
    copied := h.copied }
  have hall : Counted (p ++ []) (done ++ [e.request]) b t :=
    hdrop.append (fun _ hk => nomatch hk) fun r hr => by
      rw [List.mem_singleton.mp hr]
      exact hne
  rw [List.append_nil] at hall
  exact hall

theorem Tally.take {e : Entry} (hl : Ledger (e :: p) batches live nextOp credits returned)
    (h : Tally (e :: p) done batches live nextOp) (hlive : e.op ∈ live) (res : Int) :
    Tally p (done ++ [e.request])
      (Function.update batches e.op ((batches e.op).take e.index res)) live nextOp where
  nodup := by
    refine List.nodup_append.mpr ⟨h.nodup, List.nodup_singleton _, fun a ha k hk heq => ?_⟩
    rw [List.mem_singleton.mp hk] at heq
    rw [heq] at ha
    exact (((h.batch e.op hlive).split e.index).mp ha).2 e List.mem_cons_self rfl
  bound := fun r hr => by
    rcases List.mem_append.mp hr with hr | hr
    · exact h.bound r hr
    · rw [List.mem_singleton.mp hr]
      exact hl.boundEntry e List.mem_cons_self
  batch := fun b hb => by
    by_cases hbe : b = e.op
    · rw [hbe, Function.update_self]
      have hok := hl.batch e.op hlive
      have hcount := hok.counted
      have hle := hok.le
      rw [List.countP_cons_of_pos (by simp)] at hcount
      exact (h.batch e.op hlive).take rfl (List.nodup_append.mp hl.nodup).1 (by omega)
        (Batch.take_taken _ _ _) (Batch.take_answered _ _ _)
    · rw [Function.update_of_ne hbe]
      exact (h.batch b hb).erase_other (Ne.symm hbe)

theorem Counted.copy {b : Nat} {t : Batch} (h : Counted p done b t)
    (hok : BatchOk p credits b t) : Counted p done b t.copy where
  tally := h.tally
  range := h.range
  split := h.split
  waiting := h.waiting
  settled := h.settled
  firstErr := h.firstErr
  behind := Nat.le_refl _
  copied := fun hlen => by
    change t.completed = t.ios.length at hlen
    have hle := hok.le
    have hcomp := hok.completed_le
    change t.submitted = t.ios.length ∧ t.completed = t.ios.length ∧ t.firstErr = t.firstErr
    exact ⟨by omega, hlen, rfl⟩

/-! ## 3. The stages of a drive -/

structure Staged (s : State) (d : Drive) (done : List (Nat × Nat)) : Prop where
  tally : Tally (pending s) done s.batches s.live s.nextOp
  ahead : Ahead d (s.batches d.batch)
  ok : BatchOk (pending s) s.credits d.batch (s.batches d.batch)
  live : d.batch ∈ s.live

-- a drive that is ahead did not get nowhere
theorem Ahead.settle {d : Drive} {t : Batch} (h : Ahead d t) : t.settle d = t := by
  unfold Batch.settle
  apply if_neg
  intro ⟨hsub, hcomp, heq, _⟩
  rcases h with h | h
  · omega
  · omega

theorem Staged.driveEnd {s : State} {d : Drive} (h : Staged s d done) :
    Tallied (driveEnd s d) done where
  tally := by
    apply h.tally.setBatch
    intro hb
    rw [h.ahead.settle]
    exact (h.tally.batch d.batch hb).copy h.ok
  ahead := fun _ hd => nomatch hd

theorem Staged.go {s : State} {d : Drive} (h : Staged s d done) {pc : Pc}
    (hpc : pc.drive = some d) : Tallied { s with pc := pc } done where
  tally := h.tally
  ahead := fun e he => by
    have hed : d = e := Option.some.inj (hpc.symm.trans he)
    exact hed ▸ h.ahead

theorem Staged.afterSubmit {s : State} {d : Drive} (h : Staged s d done) :
    Tallied (afterSubmit s d) done := by
  unfold Uring.afterSubmit
  split_ifs
  · exact h.go rfl
  · exact h.driveEnd

theorem Staged.polled {s : State} {d : Drive} (h : Staged s d done) (before : Nat) :
    Tallied (polled s d before) done := by
  unfold Uring.polled
  split_ifs
  · exact h.go rfl
  · exact h.driveEnd

theorem Driven.staged {s : State} {d : Drive} (h : Driven s d.batch)
    (ht : Tally (pending s) done s.batches s.live s.nextOp) (ha : Ahead d (s.batches d.batch)) :
    Staged s d done := ⟨ht, ha, h.ledger.batch _ h.live, h.live⟩

/-! ## 4. Completions -/

theorem creditItem_live (s : State) (c : Cqe) : (creditItem s c).live = s.live := by
  unfold creditItem
  cases c.entry.userData with
  | buf addr => rfl
  | item b i =>
    by_cases hb : b ∈ s.live
    · simp only [if_pos hb, State.setBatch]
    · simp only [if_neg hb]

theorem Batch.take_submitted (t : Batch) (i : Nat) (res : Int) :
    (t.take i res).submitted = t.submitted := (Batch.take_taken t i res).submitted

theorem creditItem_tally {s : State} {d : Drive} {c : Cqe} {rest : List Cqe}
    (hd : Driven { s with cq := c :: rest } d.batch)
    (ht : Tally (pending { s with cq := c :: rest }) done s.batches s.live s.nextOp)
    (ha : Ahead d (s.batches d.batch)) :
    credited s.live c = some c.entry.request ∧
    Tally (pending { creditItem s c with cq := rest }) (done ++ [c.entry.request])
      (creditItem s c).batches (creditItem s c).live (creditItem s c).nextOp ∧
    Ahead d ((creditItem s c).batches d.batch) := by
  have hperm : (pending { s with cq := c :: rest }).Perm
      (c.entry :: pending { s with cq := rest }) := List.perm_middle
  have hled := hd.ledger.perm hperm
  have hlive : c.entry.op ∈ s.live := hd.items c.entry (hperm.mem_iff.mpr List.mem_cons_self)
  have hdata := ((hled.batch c.entry.op hlive).range c.entry List.mem_cons_self rfl).2.1
  have hcredit : creditItem s c = { s.setBatch c.entry.op
      ((s.batches c.entry.op).take c.entry.index c.res) with
      credits := ⟨some c.entry.request, c⟩ :: s.credits } := by
    unfold creditItem
    rw [hdata]
    exact if_pos hlive
  rw [hcredit]
  refine ⟨?_, (ht.perm hperm).take hled hlive c.res, ?_⟩
  · unfold credited
    rw [hdata]
    exact if_pos hlive
  · change Ahead d (Function.update s.batches c.entry.op _ d.batch)
    by_cases hdc : d.batch = c.entry.op
    · rw [hdc, Function.update_self]
      rw [hdc] at ha
      unfold Ahead
      rw [Batch.take_submitted]
      exact ha
    · rw [Function.update_of_ne hdc]
      exact ha

theorem foldl_creditItem_tally (l : List Cqe) {s : State} {d : Drive} {done : List (Nat × Nat)}
    (hd : Driven { s with cq := l } d.batch)
    (ht : Tally (pending { s with cq := l }) done s.batches s.live s.nextOp)
    (ha : Ahead d (s.batches d.batch)) :
    Staged (l.foldl creditItem { s with cq := [] }) d (done ++ l.filterMap (credited s.live)) := by
  induction l generalizing s done with
  | nil =>
    rw [List.filterMap_nil, List.append_nil]
    exact hd.staged ht ha
  | cons c rest ih =>
    have ⟨hcred, htally, hahead⟩ := creditItem_tally hd ht ha
    have hrest := ih (creditItem_driven hd) htally hahead
    have hlive : credited (creditItem s c).live = credited s.live := by rw [creditItem_live]
    rw [List.foldl_cons, creditItem_cq, List.filterMap_cons_some hcred]
    rw [hlive, List.append_assoc] at hrest
    exact hrest

theorem consumeAll_staged {s : State} {d : Drive} (hd : Driven s d.batch)
    (ht : Tally (pending s) done s.batches s.live s.nextOp) (ha : Ahead d (s.batches d.batch)) :
    Staged (consumeAll s) d (done ++ s.cq.filterMap (credited s.live)) :=
  foldl_creditItem_tally s.cq hd ht ha

/-! ## 5. Steps -/

/-- What the drives keep: the rings hold the requests of the live batches, and each request is
counted once. -/
structure Driving (s : State) (done : List (Nat × Nat)) : Prop where
  inv : Inv s
  tallied : Tallied s done

theorem Tallied.nothing {s : State} (h : Tallied s done) : Tallied s (done ++ []) := by
  rw [List.append_nil]
  exact h

theorem Tally.skip (h : Tally p done batches live nextOp) :
    Tally p done batches live (nextOp + 1) :=
  ⟨h.nodup, fun r hr => Nat.lt_succ_of_lt (h.bound r hr), h.batch⟩

theorem single_tallied {entries : Nat} {s s' : State} {kind : Kind} {addr bytes : Nat}
    (h : Driving s done) (hs : single entries s kind addr bytes = some s') : Tallied s' done := by
  unfold single at hs
  split_ifs at hs with hbig hbusy hfull
  · exact Option.some.inj hs ▸ ⟨h.tallied.tally.skip, h.tallied.ahead⟩
  · exact Option.some.inj hs ▸ ⟨h.tallied.tally.skip, h.tallied.ahead⟩
  · rw [← Option.some.inj hs]
    have ⟨hpc, hholds⟩ := not_or.mp hbusy
    have hlive := (h.inv.empty (not_not.mp hpc) (not_not.mp hholds)).1
    refine ⟨⟨h.tallied.tally.nodup, h.tallied.tally.skip.bound, fun b hb => ?_⟩,
      fun d hd => nomatch hd⟩
    change b ∈ s.live at hb
    rw [hlive] at hb
    exact nomatch hb

theorem begin_tallied {s s' : State} {thread : Nat} {ios : List Nat} (h : Driving s done)
    (hs : begin s thread ios = some s') : Tallied s' done := by
  unfold begin at hs
  split_ifs at hs with hbad hbusy hmax
  · exact Option.some.inj hs ▸ h.tallied
  · exact Option.some.inj hs ▸ h.tallied
  · rw [← Option.some.inj hs]
    have hpc : s.pc = .idle := not_not.mp (not_or.mp hbusy).1
    refine ⟨⟨h.tallied.tally.nodup, h.tallied.tally.skip.bound, fun b hb => ?_⟩, fun d hd => ?_⟩
    · change Counted (pending s) done b (Function.update s.batches s.nextOp _ b)
      by_cases hbn : b = s.nextOp
      · rw [hbn, Function.update_self]
        exact Counted.fresh (fun e he => Nat.ne_of_lt (h.inv.ledger.boundEntry e he))
          (fun r hr => Nat.ne_of_lt (h.tallied.tally.bound r hr)) (not_or.mp hbad).1
      · rw [Function.update_of_ne hbn]
        exact h.tallied.tally.batch b ((List.mem_cons.mp hb).resolve_left hbn)
    · change s.pc.drive = some d at hd
      rw [hpc] at hd
      exact nomatch hd

theorem finish_tallied {s s' : State} {b : Nat} (h : Driving s done)
    (hs : finish s b = some s') : Tallied s' done := by
  unfold finish at hs
  split_ifs at hs with hbad
  rw [← Option.some.inj hs]
  exact ⟨⟨h.tallied.tally.nodup, h.tallied.tally.bound,
    fun k hk => h.tallied.tally.batch k (List.mem_of_mem_erase hk)⟩, h.tallied.ahead⟩

theorem completes_tallied {s s' : State} {i : Nat} {res : Int} (h : Tallied s done)
    (hs : kernelCompletes s i res = some s') : Tallied s' done := by
  have ⟨e, hi, he⟩ := Option.map_eq_some_iff.mp hs
  rw [← he]
  refine ⟨h.tally.perm ?_, h.ahead⟩
  unfold pending
  change (s.sq ++ s.inflight ++ s.cq.map Cqe.entry).Perm
    (s.sq ++ s.inflight.eraseIdx i ++ (s.cq ++ [(⟨e, res⟩ : Cqe)]).map Cqe.entry)
  rw [List.map_append, List.append_assoc, List.append_assoc]
  apply List.Perm.append_left
  rw [← List.append_assoc]
  exact ((perm_pick hi).append_right _).trans (List.perm_append_singleton e _).symm

-- the preparing loop of a drive that starts with an empty submission ring
theorem Tally.prepared {b : Nat} (h : Tally p done batches live nextOp)
    (hl : Ledger p batches live nextOp credits returned) (hb : b ∈ live) (space : Nat) :
    Tally (p ++ (prepare b ((batches b).ios.drop (batches b).submitted) space (batches b) []).2)
      (done ++ refused b ((batches b).ios.drop (batches b).submitted) space (batches b).submitted)
      (Function.update batches b
        (prepare b ((batches b).ios.drop (batches b).submitted) space (batches b) []).1)
      live nextOp where
  nodup := by
    refine List.nodup_append.mpr ⟨h.nodup, refused_nodup _ _ _, fun a ha k hk heq => ?_⟩
    have ⟨hkb, hle⟩ := refused_batch _ _ _ k hk
    have hkeq : a = (b, k.2) := heq.trans (Prod.ext hkb rfl)
    rw [hkeq] at ha
    have hlt := (((h.batch b hb).split k.2).mp ha).1
    omega
  bound := fun r hr => by
    rcases List.mem_append.mp hr with hr | hr
    · exact h.bound r hr
    · rw [(refused_batch _ _ _ r hr).1]
      exact hl.boundLive b hb
  batch := fun k hk => by
    have hle := (hl.batch b hb).le
    by_cases hkb : k = b
    · rw [hkb, Function.update_self]
      apply prepare_counted
      · rw [List.length_drop]
        omega
      · rw [List.append_nil]
        exact h.batch b hb
    · rw [Function.update_of_ne hkb]
      have ⟨new, hnew, hprep, _⟩ := prepare_spec b _ space (batches b) [] rfl hle
      rw [hnew]
      refine (h.batch k hk).append (fun e he => ?_) fun r hr => ?_
      · rw [(hprep.range e he).1]
        exact Ne.symm hkb
      · rw [(refused_batch _ _ _ r hr).1]
        exact Ne.symm hkb

theorem drive_tallied {entries : Nat} (hcap : 0 < entries) {s s' : State} {b : Nat} {wait : Bool}
    (h : Driving s done) (hs : drive entries s b wait = some s') :
    Tallied s' (done ++ counted entries s (.drive b wait)) := by
  unfold drive at hs
  simp only [counted]
  split_ifs at hs with hbad hfin hcomp
  · rw [if_pos (Or.inl hfin)]
    exact Option.some.inj hs ▸ h.tallied.nothing
  · rw [if_pos (Or.inr hcomp), ← Option.some.inj hs]
    have hb := not_not.mp (not_or.mp hbad).2
    have htally := h.tallied.tally.setBatch fun _ =>
      (h.tallied.tally.batch b hb).copy (h.inv.ledger.batch b hb)
    refine Tallied.nothing ⟨htally, fun d hd => ?_⟩
    rw [show (s.setBatch b (s.batches b).copy).pc = .idle from not_not.mp (not_or.mp hbad).1] at hd
    exact nomatch hd
  · have ⟨hpc, hb⟩ := not_or.mp hbad
    have hd := h.inv.driven (not_not.mp hpc) (not_not.mp hb)
    have hok := h.inv.ledger.batch b hd.live
    rw [if_neg (not_or.mpr ⟨hfin, hcomp⟩), ← Option.some.inj hs]
    have htally := h.tallied.tally.prepared h.inv.ledger hd.live (entries - s.sq.length)
    have ⟨new, hnew, hprep, hend⟩ := prepare_spec b _ (entries - s.sq.length) (s.batches b) [] rfl
      hok.le
    have hnew' : (prepareBatch entries s b).2 = new := hnew
    have hok' := hok.prepared hprep hend
    have hahead : Ahead ⟨b, wait, (s.batches b).submitted, (s.batches b).completed⟩
        (prepareBatch entries s b).1 := by
      rcases Nat.eq_or_lt_of_le hok.le with heq | hlt
      · apply Or.inr
        have hle : (s.batches b).submitted ≤ (prepareBatch entries s b).1.submitted := hprep.le
        change (s.batches b).completed < _
        omega
      · apply Or.inl
        apply prepare_advances (s.batches b) [] rfl hlt
        rw [hd.sq]
        exact hcap
    unfold driveFrom
    split_ifs with hnil
    · apply Staged.afterSubmit
      change Tally (pending s ++ (prepareBatch entries s b).2) _ _ _ _ at htally
      rw [hnil, List.append_nil] at htally
      rw [← hnew', hnil, List.append_nil] at hok'
      refine ⟨htally, ?_, ?_, hd.live⟩
      · change Ahead _ (Function.update s.batches b _ b)
        rw [Function.update_self]
        exact hahead
      · change BatchOk (pending s) s.credits b (Function.update s.batches b _ b)
        rw [Function.update_self]
        exact hok'
    · have hperm : (pending s ++ (prepareBatch entries s b).2).Perm
          (s.sq ++ (prepareBatch entries s b).2 ++ s.inflight ++ s.cq.map Cqe.entry) := by
        unfold pending
        rw [List.append_assoc s.sq, List.append_assoc s.sq, List.append_assoc s.sq,
          List.append_assoc s.sq, List.append_assoc (prepareBatch entries s b).2]
        exact List.perm_append_comm.append_left _
      refine ⟨htally.perm hperm, fun d hdd => ?_⟩
      rw [← Option.some.inj hdd]
      change Ahead _ (Function.update s.batches b _ b)
      rw [Function.update_self]
      exact hahead

theorem enter_tallied {entries : Nat} {s s' : State} {res : Int} (h : Driving s done)
    (hsteady : Steady s (.enter res)) (hs : enter s res = some s') :
    Tallied s' (done ++ counted entries s (.enter res)) := by
  have hp := h.inv.placed
  have hahead := h.tallied.ahead
  unfold Placed at hp
  have hsmooth := hsteady.1
  have hwait := hsteady.2
  unfold Smooth at hsmooth
  unfold enter at hs
  simp only [counted]
  cases hpc : s.pc with
  | idle | look x | drivePoll d | driveLook d | driveAgain d =>
    rw [hpc] at hs
    exact nomatch hs
  | submit x =>
    rw [hpc] at hs hsmooth
    change (if res ≤ 0 then _ else if res = 1 then some { accept s 1 with pc := .look x }
      else none) = some s' at hs
    change 0 < res at hsmooth
    rw [if_neg (by omega)] at hs
    split_ifs at hs
    rw [← Option.some.inj hs]
    exact Tallied.nothing ⟨h.tallied.tally.perm (pending_accept s 1), fun d hd => nomatch hd⟩
  | await x =>
    rw [hpc] at hs hsmooth
    change (if res < 0 then _ else some { s with pc := .look x }) = some s' at hs
    change 0 ≤ res at hsmooth
    rw [if_neg (by omega)] at hs
    rw [← Option.some.inj hs]
    exact Tallied.nothing ⟨h.tallied.tally, fun d hd => nomatch hd⟩
  | driveSubmit d prepared got =>
    rw [hpc] at hp hs hsmooth hahead
    change (if res ≤ 0 then _ else if res.toNat ≤ prepared - got then
      some (driveSubmitted (accept s res.toNat) d prepared (got + res.toNat)) else none) =
      some s' at hs
    change 0 < res at hsmooth
    rw [if_neg (by omega)] at hs
    change Tallied s' (done ++ if res ≤ 0 then _ else [])
    rw [if_neg (by omega)]
    split_ifs at hs with hle
    rw [← Option.some.inj hs]
    apply Tallied.nothing
    have hperm := pending_accept s res.toNat
    have hstaged : Staged (accept s res.toNat) d done :=
      ⟨h.tallied.tally.perm hperm, hahead d rfl, (h.inv.ledger.batch _ hp.1).perm hperm, hp.1⟩
    unfold driveSubmitted
    split_ifs
    · exact hstaged.afterSubmit
    · exact hstaged.go rfl
  | driveAwait d =>
    rw [hpc] at hp hs hwait hahead
    change (if res < 0 then _ else some { s with pc := .driveAgain d }) = some s' at hs
    change 0 ≤ res at hwait
    rw [if_neg (by omega)] at hs
    rw [← Option.some.inj hs]
    have hstaged : Staged s d done :=
      ⟨h.tallied.tally, hahead d rfl, h.inv.ledger.batch _ hp.1, hp.1⟩
    exact (hstaged.go rfl).nothing

theorem load_tallied {entries : Nat} {s s' : State} (h : Driving s done)
    (hs : load s = some s') : Tallied s' (done ++ counted entries s .load) := by
  have hp := h.inv.placed
  have hahead := h.tallied.ahead
  unfold Placed at hp
  unfold load at hs
  simp only [counted]
  have hstage : ∀ d, d.batch ∈ s.live ∧ s.sq = [] ∧ Items s → Ahead d (s.batches d.batch) →
      Staged (consumeAll s) d (done ++ s.cq.filterMap (credited s.live)) := fun d hd ha =>
    consumeAll_staged ⟨h.inv.ledger, hd.1, hd.2.1, hd.2.2, h.inv.holds⟩ h.tallied.tally ha
  cases hpc : s.pc with
  | idle | submit x | await x | driveSubmit d prepared got | driveAwait d =>
    rw [hpc] at hs
    exact nomatch hs
  | look x =>
    rw [hpc] at hp hs
    apply Tallied.nothing
    cases hcq : s.cq with
    | nil =>
      rw [hcq] at hs
      rw [← Option.some.inj hs, ← hcq]
      exact ⟨h.tallied.tally, fun d hd => nomatch hd⟩
    | cons c rest =>
      rw [hcq] at hs
      rw [← Option.some.inj hs]
      refine ⟨⟨h.tallied.tally.nodup, h.tallied.tally.bound, fun b hb => ?_⟩,
        fun d hd => nomatch hd⟩
      change b ∈ s.live at hb
      rw [hp.1] at hb
      exact nomatch hb
  | drivePoll d =>
    rw [hpc] at hp hs hahead
    rw [← Option.some.inj hs]
    exact (hstage d hp (hahead d rfl)).polled _
  | driveLook d =>
    rw [hpc] at hp hs hahead
    change (if s.cq = [] then some { s with pc := .driveAwait d }
      else some (driveEnd (consumeAll s) d)) = some s' at hs
    split_ifs at hs with hnil
    · rw [← Option.some.inj hs]
      have hstaged : Staged s d done :=
        ⟨h.tallied.tally, hahead d rfl, h.inv.ledger.batch _ hp.1, hp.1⟩
      have hnone : s.cq.filterMap (credited s.live) = [] := by rw [hnil]; rfl
      change Tallied _ (done ++ s.cq.filterMap (credited s.live))
      rw [hnone]
      exact (hstaged.go rfl).nothing
    · rw [← Option.some.inj hs]
      exact (hstage d hp (hahead d rfl)).driveEnd
  | driveAgain d =>
    rw [hpc] at hp hs hahead
    rw [← Option.some.inj hs]
    exact (hstage d hp (hahead d rfl)).driveEnd

theorem step_driving {entries : Nat} (hcap : 0 < entries) {s s' : State} {e : Event}
    (h : Driving s done) (hsteady : Steady s e) (hs : step entries s e = some s') :
    Driving s' (done ++ counted entries s e) := by
  refine ⟨step_inv h.inv hsteady.1 hs, ?_⟩
  cases e with
  | single kind addr bytes => exact (single_tallied h hs).nothing
  | begin thread ios => exact (begin_tallied h hs).nothing
  | drive b wait => exact drive_tallied hcap h hs
  | finish b => exact (finish_tallied h hs).nothing
  | enter res => exact enter_tallied h hsteady hs
  | load => exact load_tallied h hs
  | completes i res => exact (completes_tallied h.tallied hs).nothing

theorem start_driving : Driving start [] where
  inv := start_inv
  tallied := ⟨⟨List.nodup_nil, (fun _ hr => nomatch hr), fun _ hb => nomatch hb⟩,
    fun _ hd => nomatch hd⟩

theorem Driving.sound {s : State} (h : Driving s done) : Sound s done where
  bounds := fun b hb => ⟨(h.inv.ledger.batch b hb).completed_le, (h.inv.ledger.batch b hb).le⟩
  once := h.tallied.tally.nodup
  tally := fun b hb => (h.tallied.tally.batch b hb).tally
  final := fun b hb hlen i hi => by
    have hc := h.tallied.tally.batch b hb
    have ⟨hsub, hcomp, _⟩ := hc.copied hlen
    have hcount := (h.inv.ledger.batch b hb).counted
    have hnone := List.countP_eq_zero.mp
      (show (pending s).countP (fun e => e.op = b) = 0 by omega)
    refine hc.settled i ((hc.split i).mpr ⟨hsub ▸ hi, fun e he hreq => ?_⟩)
    have hop : e.op = b := congrArg Prod.fst hreq
    exact hnone e he (by simpa using hop)
  reported := fun b hb hlen => by
    have hc := h.tallied.tally.batch b hb
    have ⟨hsub, _, hrep⟩ := hc.copied hlen
    rw [hrep, hc.firstErr, hsub]

end Mdbx.Uring
