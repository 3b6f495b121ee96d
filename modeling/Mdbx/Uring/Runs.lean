import Mdbx.Uring.Ledger

/-!
# Uring.Runs — whose completion an operation takes, over every interleaving with the kernel

As long as the kernel takes what it is given, the rings hold nothing but the requests of the calls
that are not over, and a single operation runs alone.
-/

namespace Mdbx.Uring

/-! ## 1. What is promised -/

structure Good (s : State) : Prop where
  /-- No entry refers to the buffers of an operation that came back. -/
  released : ∀ r ∈ s.returned, ∀ e ∈ s.sq ++ s.inflight, e.op ≠ r.op
  /-- Success means that each request was completed with exactly its own result. -/
  honest : ∀ r ∈ s.returned, r.rc = mdbxSuccess →
    ∀ i < r.lens.length, Exact s.credits r.op i (r.lens.getD i 0)
  /-- So does the result of a single request of a batch. -/
  results : ∀ b i, ((s.batches b).results i).completed = true →
    Exact s.credits b i ((s.batches b).ios.getD i 0)
  /-- A consumed completion was taken for the request it belongs to, and only once. -/
  credited : ∀ c ∈ s.credits, c.taken = some c.cqe.entry.request
  once : (s.credits.map fun c => c.cqe.entry.request).Nodup

/-- Submissions are taken, a single operation's wait does not fail, and a batch is finished only
when nothing of it is outstanding. -/
def Smooth (s : State) : Event → Prop
  | .enter res => match s.pc with
    | .submit _ | .driveSubmit _ _ _ => 0 < res
    | .await _ => 0 ≤ res
    | _ => True
  | .finish b => (s.batches b).completed = (s.batches b).submitted
  | _ => True

/-! ## 2. The invariant -/

def pending (s : State) : List Entry := s.sq ++ s.inflight ++ s.cq.map Cqe.entry

/-- Every entry is an item of a batch that is not finished. -/
def Items (s : State) : Prop := ∀ e ∈ pending s, e.op ∈ s.live

def Placed (s : State) : Prop :=
  match s.pc with
  | .idle => s.sq = [] ∧ Items s
  | .submit x => s.live = [] ∧ s.sq = [x.entry] ∧ s.inflight = [] ∧ s.cq = []
  | .look x | .await x => s.live = [] ∧ s.sq = [] ∧ pending s = [x.entry]
  | .driveSubmit d prepared got => d.batch ∈ s.live ∧ s.sq.length + got = prepared ∧ Items s
  | .drivePoll d | .driveLook d | .driveAwait d | .driveAgain d =>
    d.batch ∈ s.live ∧ s.sq = [] ∧ Items s

structure Inv (s : State) : Prop where
  ledger : Ledger (pending s) s.batches s.live s.nextOp s.credits s.returned
  placed : Placed s
  holds : s.holds = s.live.length

theorem Inv.good {s : State} (h : Inv s) : Good s where
  released := fun r hr e he => (h.ledger.gone r hr).1 e (List.mem_append_left _ he)
  honest := h.ledger.done
  results := h.ledger.results
  credited := h.ledger.own
  once := (List.nodup_append.mp h.ledger.nodup).2.1

theorem Placed.idle {s : State} (hpc : s.pc = .idle) (hsq : s.sq = []) (hitems : Items s) :
    Placed s := by
  unfold Placed
  rw [hpc]
  exact ⟨hsq, hitems⟩

theorem Inv.idle {s : State} (h : Inv s) (hpc : s.pc = .idle) : s.sq = [] ∧ Items s := by
  have hp := h.placed
  unfold Placed at hp
  rw [hpc] at hp
  exact hp

-- with no batch and no call there is no entry
theorem Inv.empty {s : State} (h : Inv s) (hpc : s.pc = .idle) (hholds : s.holds = 0) :
    s.live = [] ∧ pending s = [] := by
  have hlive := List.length_eq_zero_iff.mp (h.holds.symm.trans hholds)
  refine ⟨hlive, List.eq_nil_iff_forall_not_mem.mpr fun e he => ?_⟩
  have hm := (h.idle hpc).2 e he
  rw [hlive] at hm
  exact nomatch hm

/-! ## 3. The kernel -/

theorem perm_pick {α : Type} {l : List α} {i : Nat} {a : α} (hi : l[i]? = some a) :
    l.Perm (a :: l.eraseIdx i) := by
  have ⟨hlt, hget⟩ := List.getElem?_eq_some_iff.mp hi
  rw [← hget]
  exact (List.getElem_cons_eraseIdx_perm hlt).symm

-- entries only change rings
theorem Inv.moved {s s' : State} (h : Inv s) (hp : (pending s).Perm (pending s'))
    (hbatches : s'.batches = s.batches) (hlive : s'.live = s.live) (hnext : s'.nextOp = s.nextOp)
    (hcredits : s'.credits = s.credits) (hreturned : s'.returned = s.returned)
    (hholds : s'.holds = s.holds) (hplaced : Placed s') : Inv s' where
  ledger := by
    rw [hbatches, hlive, hnext, hcredits, hreturned]
    exact h.ledger.perm hp
  placed := hplaced
  holds := by rw [hholds, hlive]; exact h.holds

theorem Items.perm {s s' : State} (h : Items s) (hp : (pending s).Perm (pending s'))
    (hlive : s'.live = s.live) : Items s' := fun e he => hlive ▸ h e (hp.mem_iff.mpr he)

theorem Placed.moved {s s' : State} (h : Placed s) (hpc : s'.pc = s.pc) (hlive : s'.live = s.live)
    (hsq : s'.sq = s.sq) (hperm : (pending s).Perm (pending s')) (hsome : s.inflight ≠ []) :
    Placed s' := by
  unfold Placed at h ⊢
  rw [hpc, hlive, hsq]
  cases hp : s.pc with
  | idle =>
    rw [hp] at h
    exact ⟨h.1, h.2.perm hperm hlive⟩
  | submit x =>
    rw [hp] at h
    exact absurd h.2.2.1 hsome
  | look x | await x =>
    rw [hp] at h
    exact ⟨h.1, h.2.1, List.perm_singleton.mp (h.2.2 ▸ hperm).symm⟩
  | driveSubmit d prepared got =>
    rw [hp] at h
    exact ⟨h.1, h.2.1, h.2.2.perm hperm hlive⟩
  | drivePoll d | driveLook d | driveAwait d | driveAgain d =>
    rw [hp] at h
    exact ⟨h.1, h.2.1, h.2.2.perm hperm hlive⟩

theorem kernelCompletes_inv {s s' : State} {i : Nat} {res : Int} (h : Inv s)
    (hs : kernelCompletes s i res = some s') : Inv s' := by
  have ⟨e, hi, he⟩ := Option.map_eq_some_iff.mp hs
  rw [← he]
  have hperm : (pending s).Perm (pending { s with
      inflight := s.inflight.eraseIdx i, cq := s.cq ++ [⟨e, res⟩] }) := by
    unfold pending
    change (s.sq ++ s.inflight ++ s.cq.map Cqe.entry).Perm
      (s.sq ++ s.inflight.eraseIdx i ++ (s.cq ++ [(⟨e, res⟩ : Cqe)]).map Cqe.entry)
    rw [List.map_append, List.append_assoc, List.append_assoc]
    apply List.Perm.append_left
    rw [← List.append_assoc]
    apply ((perm_pick hi).append_right _).trans
    exact (List.perm_append_singleton e _).symm
  refine h.moved hperm rfl rfl rfl rfl rfl rfl (h.placed.moved rfl rfl rfl hperm fun hnil => ?_)
  rw [hnil] at hi
  exact nomatch hi

theorem pending_accept (s : State) (n : Nat) : (pending s).Perm (pending (accept s n)) := by
  apply List.Perm.append_right
  change (s.sq ++ s.inflight).Perm (s.sq.drop n ++ (s.inflight ++ s.sq.take n))
  have hsplit : (s.sq ++ s.inflight).Perm (s.sq.take n ++ (s.sq.drop n ++ s.inflight)) := by
    rw [← List.append_assoc, List.take_append_drop]
  rw [← List.append_assoc]
  exact hsplit.trans List.perm_append_comm

/-! ## 4. The end of a drive -/

/-- What every stage of a drive keeps: the entries are items and the submission ring is empty. -/
structure Driven (s : State) (b : Nat) : Prop where
  ledger : Ledger (pending s) s.batches s.live s.nextOp s.credits s.returned
  live : b ∈ s.live
  sq : s.sq = []
  items : Items s
  holds : s.holds = s.live.length

theorem Driven.setBatch {s : State} {b : Nat} {t' : Batch} (h : Driven s b)
    (hok : BatchOk (pending s) s.credits b t') (hios : t'.ios = (s.batches b).ios)
    (hres : t'.results = (s.batches b).results) : Driven (s.setBatch b t') b where
  ledger := h.ledger.setBatch (fun _ => hok) hios hres
  live := h.live
  sq := h.sq
  items := h.items
  holds := h.holds

theorem Driven.placed {s : State} {d : Drive} (h : Driven s d.batch) {pc : Pc}
    (hpc : pc = .drivePoll d ∨ pc = .driveLook d ∨ pc = .driveAwait d ∨ pc = .driveAgain d) :
    Inv { s with pc := pc } where
  ledger := h.ledger
  placed := by
    rcases hpc with rfl | rfl | rfl | rfl
    · exact ⟨h.live, h.sq, h.items⟩
    · exact ⟨h.live, h.sq, h.items⟩
    · exact ⟨h.live, h.sq, h.items⟩
    · exact ⟨h.live, h.sq, h.items⟩
  holds := h.holds

theorem Driven.idle {s : State} {b : Nat} (h : Driven s b) : Inv { s with pc := .idle } where
  ledger := h.ledger
  placed := ⟨h.sq, h.items⟩
  holds := h.holds

theorem Batch.settle_ios (t : Batch) (d : Drive) : (t.settle d).ios = t.ios := by
  unfold Batch.settle
  split_ifs
  · exact Batch.fail_ios t _
  · rfl

theorem Batch.settle_results (t : Batch) (d : Drive) : (t.settle d).results = t.results := by
  unfold Batch.settle
  split_ifs
  · exact Batch.fail_results t _
  · rfl

theorem BatchOk.settle {p : List Entry} {credits : List Credit} {b : Nat} {t : Batch}
    (h : BatchOk p credits b t) (d : Drive) : BatchOk p credits b (t.settle d) := by
  unfold Batch.settle
  split_ifs
  · exact h.fail (by decide)
  · exact h

theorem driveEnd_inv {s : State} {d : Drive} (h : Driven s d.batch) : Inv (driveEnd s d) :=
  (h.setBatch ((h.ledger.batch d.batch h.live).settle d).copy (Batch.settle_ios _ d)
    (Batch.settle_results _ d)).idle

theorem afterSubmit_inv {s : State} {d : Drive} (h : Driven s d.batch) :
    Inv (afterSubmit s d) := by
  unfold afterSubmit
  split_ifs
  · exact h.placed (Or.inl rfl)
  · exact driveEnd_inv h

/-! ## 5. Completions of a batch -/

theorem creditItem_driven {s : State} {b : Nat} {c : Cqe} {rest : List Cqe}
    (h : Driven { s with cq := c :: rest } b) : Driven { creditItem s c with cq := rest } b := by
  have hperm : (pending { s with cq := c :: rest }).Perm (c.entry :: pending { s with cq := rest }) :=
    List.perm_middle
  have hled := h.ledger.perm hperm
  have hlive : c.entry.op ∈ s.live := h.items c.entry (hperm.mem_iff.mpr List.mem_cons_self)
  have hdata := ((hled.batch c.entry.op hlive).range c.entry List.mem_cons_self rfl).2.1
  have hcredit : creditItem s c = { s.setBatch c.entry.op
      ((s.batches c.entry.op).take c.entry.index c.res) with
      credits := ⟨some c.entry.request, c⟩ :: s.credits } := by
    unfold creditItem
    rw [hdata]
    exact if_pos hlive
  rw [hcredit]
  exact ⟨hled.takeItem hlive c.res, h.live, h.sq,
    fun e he => h.items e (hperm.mem_iff.mpr (List.mem_cons_of_mem _ he)), h.holds⟩

theorem creditItem_cq (s : State) (c : Cqe) (l : List Cqe) :
    creditItem { s with cq := l } c = { creditItem s c with cq := l } := by
  unfold creditItem
  cases c.entry.userData with
  | buf addr => rfl
  | item b i =>
    by_cases hb : b ∈ s.live
    · simp only [if_pos hb, State.setBatch]
    · simp only [if_neg hb]

theorem foldl_creditItem_driven (l : List Cqe) {s : State} {b : Nat}
    (h : Driven { s with cq := l } b) : Driven (l.foldl creditItem { s with cq := [] }) b := by
  induction l generalizing s with
  | nil => exact h
  | cons c rest ih =>
    rw [List.foldl_cons, creditItem_cq]
    exact ih (creditItem_driven h)

theorem consumeAll_driven {s : State} {b : Nat} (h : Driven s b) : Driven (consumeAll s) b :=
  foldl_creditItem_driven s.cq h

/-! ## 6. Steps -/

theorem answer_inv {s : State} (h : Inv s) (kind : Kind) (addr bytes : Nat) {rc : Int}
    (hrc : rc ≠ mdbxSuccess) : Inv (answer s ⟨s.nextOp, kind, addr, bytes⟩ rc) where
  ledger := h.ledger.skip.return (Nat.lt_succ_self _)
    (fun e he => Nat.ne_of_lt (h.ledger.boundEntry e he))
    (fun hm => Nat.lt_irrefl _ (h.ledger.boundLive _ hm)) (fun h0 => absurd h0 hrc)
  placed := h.placed
  holds := h.holds

theorem single_inv {entries : Nat} {s s' : State} {kind : Kind} {addr bytes : Nat} (h : Inv s)
    (hs : single entries s kind addr bytes = some s') : Inv s' := by
  unfold single at hs
  split_ifs at hs with hbig hbusy hfull
  · exact Option.some.inj hs ▸ answer_inv h kind addr bytes (by decide)
  · exact Option.some.inj hs ▸ answer_inv h kind addr bytes (by decide)
  · rw [← Option.some.inj hs]
    have ⟨hpc, hholds⟩ := not_or.mp hbusy
    have ⟨hlive, hnil⟩ := h.empty (not_not.mp hpc) (not_not.mp hholds)
    have hled := h.ledger
    rw [hlive, hnil] at hled
    have ⟨hrings, hcq⟩ := List.append_eq_nil_iff.mp hnil
    have ⟨hsq, hinflight⟩ := List.append_eq_nil_iff.mp hrings
    refine ⟨?_, ⟨hlive, ?_, hinflight, List.map_eq_nil_iff.mp hcq⟩, h.holds⟩
    · unfold pending put
      change Ledger (s.sq ++ [_] ++ s.inflight ++ s.cq.map Cqe.entry) s.batches s.live _ _ _
      rw [hsq, hinflight, hcq, hlive]
      exact hled.place rfl
    · unfold put
      change s.sq ++ _ = _
      rw [hsq]
      rfl

theorem begin_inv {s s' : State} {thread : Nat} {ios : List Nat} (h : Inv s)
    (hs : begin s thread ios = some s') : Inv s' := by
  unfold begin at hs
  split_ifs at hs with hbad hbusy hmax
  · exact Option.some.inj hs ▸ h
  · exact Option.some.inj hs ▸ h
  · rw [← Option.some.inj hs]
    have hpc : s.pc = .idle := not_not.mp (not_or.mp hbusy).1
    have ⟨hsq, hitems⟩ := h.idle hpc
    refine ⟨h.ledger.begin (not_or.mp hbad).1, ?_, ?_⟩
    · exact Placed.idle hpc hsq fun e he => List.mem_cons_of_mem _ (hitems e he)
    · change s.holds + 1 = _
      rw [List.length_cons, h.holds]

-- an idle state in which a live batch may be driven
theorem Inv.driven {s : State} (h : Inv s) (hpc : s.pc = .idle) {b : Nat} (hb : b ∈ s.live) :
    Driven s b :=
  ⟨h.ledger, hb, (h.idle hpc).1, (h.idle hpc).2, h.holds⟩

theorem drive_inv {entries : Nat} {s s' : State} {b : Nat} {wait : Bool} (h : Inv s)
    (hs : drive entries s b wait = some s') : Inv s' := by
  unfold drive at hs
  split_ifs at hs with hbad hfin hcomp
  · exact Option.some.inj hs ▸ h
  · have ⟨hpc, hb⟩ := not_or.mp hbad
    have hd := h.driven (not_not.mp hpc) (not_not.mp hb)
    have hok := h.ledger.batch b hd.live
    rw [← Option.some.inj hs]
    have hnew := hd.setBatch hok.copy rfl rfl
    exact ⟨hnew.ledger, Placed.idle (not_not.mp hpc) hnew.sq hnew.items, hnew.holds⟩
  · have ⟨hpc, hb⟩ := not_or.mp hbad
    have hd := h.driven (not_not.mp hpc) (not_not.mp hb)
    have hok := h.ledger.batch b hd.live
    rw [← Option.some.inj hs]
    have ⟨new, hnew, hprep, hend⟩ := prepare_spec b _ (entries - s.sq.length) (s.batches b) [] rfl
      hok.le
    have hled := h.ledger.prepared hd.live hprep hend
    have hnew' : (prepareBatch entries s b).2 = new := hnew
    unfold driveFrom
    split_ifs with hnil
    · rw [hnew'] at hnil
      rw [hnil, List.append_nil] at hled
      exact afterSubmit_inv ⟨hled, hd.live, hd.sq, hd.items, hd.holds⟩
    · rw [hnew']
      have hperm : (pending s ++ new).Perm (s.sq ++ new ++ s.inflight ++ s.cq.map Cqe.entry) := by
        unfold pending
        rw [List.append_assoc s.sq, List.append_assoc s.sq, List.append_assoc s.sq,
          List.append_assoc s.sq, List.append_assoc new]
        exact List.perm_append_comm.append_left _
      refine ⟨hled.perm hperm, ⟨hd.live, ?_, fun e he => ?_⟩, hd.holds⟩
      · change (s.sq ++ new).length + 0 = new.length
        rw [hd.sq]
        rfl
      · rcases List.mem_append.mp (hperm.mem_iff.mpr he) with he | he
        · exact hd.items e he
        · change e.op ∈ s.live
          rw [(hprep.range e he).1]
          exact hd.live

theorem enter_inv {s s' : State} {res : Int} (h : Inv s) (hsmooth : Smooth s (.enter res))
    (hs : enter s res = some s') : Inv s' := by
  have hp := h.placed
  unfold Placed at hp
  unfold Smooth at hsmooth
  unfold enter at hs
  cases hpc : s.pc with
  | idle =>
    rw [hpc] at hs
    exact nomatch hs
  | look x | drivePoll d | driveLook d | driveAgain d =>
    rw [hpc] at hs
    exact nomatch hs
  | submit x =>
    rw [hpc] at hp hs hsmooth
    change (if res ≤ 0 then _ else if res = 1 then some { accept s 1 with pc := .look x }
      else none) = some s' at hs
    change 0 < res at hsmooth
    rw [if_neg (by omega)] at hs
    split_ifs at hs
    rw [← Option.some.inj hs]
    have hperm := pending_accept s 1
    have hall : pending s = [x.entry] := by
      unfold pending
      rw [hp.2.1, hp.2.2.1, hp.2.2.2]
      rfl
    refine ⟨h.ledger.perm hperm, ⟨hp.1, ?_, ?_⟩, h.holds⟩
    · change s.sq.drop 1 = []
      rw [hp.2.1]
      rfl
    · exact List.perm_singleton.mp (hall ▸ hperm).symm
  | await x =>
    rw [hpc] at hp hs hsmooth
    change (if res < 0 then _ else some { s with pc := .look x }) = some s' at hs
    change 0 ≤ res at hsmooth
    rw [if_neg (by omega)] at hs
    rw [← Option.some.inj hs]
    exact ⟨h.ledger, hp, h.holds⟩
  | driveSubmit d prepared got =>
    rw [hpc] at hp hs hsmooth
    change (if res ≤ 0 then _ else if res.toNat ≤ prepared - got then
      some (driveSubmitted (accept s res.toNat) d prepared (got + res.toNat)) else none) =
      some s' at hs
    change 0 < res at hsmooth
    rw [if_neg (by omega)] at hs
    split_ifs at hs with hle
    rw [← Option.some.inj hs]
    have hperm := pending_accept s res.toNat
    have hitems := hp.2.2.perm hperm rfl
    have hlen := hp.2.1
    have hled := h.ledger.perm hperm
    unfold driveSubmitted
    split_ifs with hall
    · refine afterSubmit_inv ⟨hled, hp.1, ?_, hitems, h.holds⟩
      change s.sq.drop res.toNat = []
      exact List.drop_eq_nil_of_le (by omega)
    · refine ⟨hled, ⟨hp.1, ?_, hitems⟩, h.holds⟩
      change (s.sq.drop res.toNat).length + (got + res.toNat) = prepared
      rw [List.length_drop]
      omega
  | driveAwait d =>
    rw [hpc] at hp hs
    have hd : Driven s d.batch := ⟨h.ledger, hp.1, hp.2.1, hp.2.2, h.holds⟩
    change (if res < 0 then some (driveEnd (s.setBatch d.batch ((s.batches d.batch).fail (-res))) d)
      else some { s with pc := .driveAgain d }) = some s' at hs
    split_ifs at hs with hneg
    · rw [← Option.some.inj hs]
      have herr : -res ≠ mdbxSuccess := by
        change -res ≠ 0
        omega
      exact driveEnd_inv (hd.setBatch ((h.ledger.batch _ hp.1).fail herr) (Batch.fail_ios _ _)
        (Batch.fail_results _ _))
    · rw [← Option.some.inj hs]
      exact hd.placed (Or.inr (Or.inr (Or.inr rfl)))

theorem polled_inv {s : State} {d : Drive} (h : Driven s d.batch) (before : Nat) :
    Inv (polled s d before) := by
  unfold polled
  split_ifs
  · exact h.placed (Or.inr (Or.inl rfl))
  · exact driveEnd_inv h

-- a single operation finds the completion of its own entry
theorem look_inv {s : State} {x : Single} {c : Cqe} {rest : List Cqe} (h : Inv s)
    (hlive : s.live = []) (hone : pending s = [x.entry]) (hcq : s.cq = c :: rest) :
    Inv (x.finish { s with cq := rest, credits := x.credit c :: s.credits } (x.result c)) := by
  have hsplit := hone
  unfold pending at hsplit
  rw [hcq, List.map_cons] at hsplit
  have ⟨hpre, hc, hrest⟩ : s.sq ++ s.inflight = [] ∧ c.entry = x.entry ∧ rest.map Cqe.entry = [] := by
    cases hpre : s.sq ++ s.inflight with
    | nil =>
      rw [hpre] at hsplit
      have ⟨hc, hrest⟩ := List.cons.inj hsplit
      exact ⟨rfl, hc, hrest⟩
    | cons a l =>
      rw [hpre] at hsplit
      exact absurd (List.cons.inj hsplit).2 (List.append_ne_nil_of_right_ne_nil _ (List.cons_ne_nil _ _))
  have hmatch : ¬ (x.kind.checksUserData = true ∧ c.entry.userData ≠ .buf x.addr) := by
    rw [hc]
    exact fun hne => hne.2 rfl
  have hcredit : x.credit c = ⟨some x.entry.request, x.entry, c.res⟩ := by
    have hcqe : c = ⟨x.entry, c.res⟩ := by
      rw [← hc]
    unfold Single.credit
    rw [if_neg hmatch]
    exact congrArg (Credit.mk _) hcqe
  have hled := h.ledger
  rw [hone, hlive] at hled
  have htaken := hled.take c.res
  have hlt := hled.boundEntry x.entry List.mem_cons_self
  have hexact : x.result c = mdbxSuccess →
      Exact (⟨some x.entry.request, x.entry, c.res⟩ :: s.credits) x.op 0 x.want := by
    intro h0
    refine ⟨_, List.mem_cons_self, rfl, ?_⟩
    unfold Single.result at h0
    rw [if_neg hmatch] at h0
    split_ifs at h0 with hneg hne
    · change -c.res = 0 at h0
      omega
    · cases hk : x.kind <;> rw [hk] at h0 <;> exact absurd h0 (by decide)
    · exact not_not.mp hne
  have hnil : pending (x.finish { s with cq := rest, credits := x.credit c :: s.credits }
      (x.result c)) = [] := by
    change s.sq ++ s.inflight ++ rest.map Cqe.entry = []
    rw [hpre, hrest]
    rfl
  refine ⟨?_, Placed.idle rfl (List.append_eq_nil_iff.mp hpre).1 fun e he => ?_, h.holds⟩
  · rw [hnil]
    change Ledger [] s.batches s.live s.nextOp (x.credit c :: s.credits) _
    rw [hcredit, hlive]
    refine htaken.return hlt (fun e he => nomatch he) List.not_mem_nil fun h0 i hi => ?_
    have hzero : i = 0 := Nat.lt_one_iff.mp hi
    rw [hzero]
    exact hexact h0
  · rw [hnil] at he
    exact nomatch he

theorem load_inv {s s' : State} (h : Inv s) (hs : load s = some s') : Inv s' := by
  have hp := h.placed
  unfold Placed at hp
  unfold load at hs
  cases hpc : s.pc with
  | idle =>
    rw [hpc] at hs
    exact nomatch hs
  | submit x | await x | driveSubmit d prepared got | driveAwait d =>
    rw [hpc] at hs
    exact nomatch hs
  | look x =>
    rw [hpc] at hp hs
    cases hcq : s.cq with
    | nil =>
      rw [hcq] at hs
      rw [← Option.some.inj hs, ← hcq]
      exact ⟨h.ledger, hp, h.holds⟩
    | cons c rest =>
      rw [hcq] at hs
      rw [← Option.some.inj hs]
      exact look_inv h hp.1 hp.2.2 hcq
  | drivePoll d =>
    rw [hpc] at hp hs
    have hd : Driven s d.batch := ⟨h.ledger, hp.1, hp.2.1, hp.2.2, h.holds⟩
    rw [← Option.some.inj hs]
    exact polled_inv (consumeAll_driven hd) _
  | driveLook d =>
    rw [hpc] at hp hs
    have hd : Driven s d.batch := ⟨h.ledger, hp.1, hp.2.1, hp.2.2, h.holds⟩
    change (if s.cq = [] then some { s with pc := .driveAwait d }
      else some (driveEnd (consumeAll s) d)) = some s' at hs
    split_ifs at hs
    · rw [← Option.some.inj hs]
      exact hd.placed (Or.inr (Or.inr (Or.inl rfl)))
    · rw [← Option.some.inj hs]
      exact driveEnd_inv (consumeAll_driven hd)
  | driveAgain d =>
    rw [hpc] at hp hs
    have hd : Driven s d.batch := ⟨h.ledger, hp.1, hp.2.1, hp.2.2, h.holds⟩
    rw [← Option.some.inj hs]
    exact driveEnd_inv (consumeAll_driven hd)

theorem finishCode_success {t : Batch} (h : t.finishCode = mdbxSuccess) :
    t.finished = t.ios.length ∧ t.reported = mdbxSuccess := by
  unfold Batch.finishCode at h
  split_ifs at h with hc
  · exact ⟨hc.resolve_right fun hne => hne h, h⟩
  · exact absurd h (by decide)

theorem finish_inv {s s' : State} {b : Nat} (h : Inv s) (hsmooth : Smooth s (.finish b))
    (hs : finish s b = some s') : Inv s' := by
  unfold finish at hs
  split_ifs at hs with hbad
  have ⟨hpc, hb⟩ := not_or.mp hbad
  have hpc := not_not.mp hpc
  have hb := not_not.mp hb
  have ⟨hsq, hitems⟩ := h.idle hpc
  have hok := h.ledger.batch b hb
  -- nothing of the batch is left in the rings
  have hcount := hok.counted
  change (s.batches b).completed = (s.batches b).submitted at hsmooth
  have hnone := List.countP_eq_zero.mp
    (show (pending s).countP (fun e => e.op = b) = 0 by omega)
  have hfree : ∀ e ∈ pending s, e.op ≠ b := fun e he => by simpa using hnone e he
  rw [← Option.some.inj hs]
  refine ⟨?_, Placed.idle hpc hsq fun e he => ?_, ?_⟩
  · refine (h.ledger.forget b).return (h.ledger.boundLive b hb) hfree
      h.ledger.liveNodup.not_mem_erase fun h0 i hi => ?_
    have ⟨hf, hr⟩ := finishCode_success h0
    exact hok.copied hf hr i hi
  · exact (List.mem_erase_of_ne (hfree e he)).mpr (hitems e he)
  · change s.holds - 1 = (s.live.erase b).length
    rw [List.length_erase_of_mem hb, h.holds]

theorem step_inv {entries : Nat} {s s' : State} {e : Event} (h : Inv s) (hsmooth : Smooth s e)
    (hs : step entries s e = some s') : Inv s' := by
  cases e with
  | single kind addr bytes => exact single_inv h hs
  | begin thread ios => exact begin_inv h hs
  | drive b wait => exact drive_inv h hs
  | finish b => exact finish_inv h hsmooth hs
  | enter res => exact enter_inv h hsmooth hs
  | load => exact load_inv h hs
  | completes i res => exact kernelCompletes_inv h hs

/-! ## 7. Runs -/

/-- The states of the runs whose steps all satisfy `ok`. -/
inductive Run (entries : Nat) (ok : State → Event → Prop) : State → Prop where
  | start : Run entries ok start
  | step {s s' : State} (e : Event) : Run entries ok s → ok s e → step entries s e = some s' →
      Run entries ok s'

theorem start_inv : Inv start where
  ledger := {
    nodup := List.nodup_nil
    own := fun _ hc => nomatch hc
    boundEntry := fun _ he => nomatch he
    boundCredit := fun _ hc => nomatch hc
    boundReturn := fun _ hr => nomatch hr
    boundLive := fun _ hb => nomatch hb
    liveNodup := List.nodup_nil
    batch := fun _ hb => nomatch hb
    results := fun _ _ hc => nomatch hc
    gone := fun _ hr => nomatch hr
    done := fun _ hr => nomatch hr }
  placed := ⟨rfl, fun _ he => nomatch he⟩
  holds := rfl

theorem Run.inv {entries : Nat} {s : State} (h : Run entries Smooth s) : Inv s := by
  induction h with
  | start => exact start_inv
  | step e _ hok hs ih => exact step_inv ih hok hs

/-- In every run, whatever the kernel does otherwise, that takes what is submitted, lets the single
operations wait and finishes its batches when they are complete, completions are attributed to their
own requests and nothing stays behind an operation. -/
theorem completions_attributed {entries : Nat} {s : State} (h : Run entries Smooth s) : Good s :=
  h.inv.good

-- two reads of one batch, taken one after the other and completed in the other order
theorem completions_attributed_batch :
    ∃ s, exec 8 start [.begin 1 [64, 32], .drive 0 false, .enter 1, .enter 1, .completes 1 32, .load,
        .completes 0 64, .drive 0 true, .load, .finish 0] = some s ∧
      s.returned = [⟨0, [64, 32], mdbxSuccess⟩] ∧ Good s := by
  have h : Run 8 Smooth start := .start
  have h := h.step (.begin 1 [64, 32]) trivial rfl
  have h := h.step (.drive 0 false) trivial rfl
  have h := h.step (.enter 1) Int.one_pos rfl
  have h := h.step (.enter 1) Int.one_pos rfl
  have h := h.step (.completes 1 32) trivial rfl
  have h := h.step .load trivial rfl
  have h := h.step (.completes 0 64) trivial rfl
  have h := h.step (.drive 0 true) trivial rfl
  have h := h.step .load trivial rfl
  have h := h.step (.finish 0) rfl rfl
  exact ⟨_, rfl, rfl, completions_attributed h⟩

-- one `io_uring_enter` fails: the next read reports success for the read that failed before it
theorem failed_submit_misattributed :
    ∃ s, exec 8 start [.single .read 4096 64, .enter (-11), .single .read 8192 64, .enter 1,
        .completes 0 64, .load] = some s ∧
      s.returned = [⟨1, [64], mdbxSuccess⟩, ⟨0, [64], 11⟩] ∧
      s.credits = [⟨some (1, 0), ⟨0, 0, .buf 4096, 64⟩, 64⟩] ∧ ¬ Good s :=
  ⟨_, rfl, rfl, rfl, fun h => h.released _ List.mem_cons_self _ List.mem_cons_self rfl⟩

end Mdbx.Uring
