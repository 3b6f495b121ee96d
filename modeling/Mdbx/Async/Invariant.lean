import Mdbx.Async.Model

/-!
# Async.Invariant — what the mutex protects

The operations that are not done yet stand in the order of their numbers, behind `completed_seq`;
the three counters describe the threads that entered a wait and did not leave it.
-/

namespace Mdbx.Async

/-! ## 1. The three counters -/

structure Counted (c : Counts) (ws : List Waiter) : Prop where
  waiters : c.waiters = ws.length
  untargeted : c.untargetedWaiters = ws.countP (fun w => w.target = 0)
  least : ∀ w ∈ ws, w.target ≠ 0 → c.minWaitSeq ≠ 0 ∧ c.minWaitSeq ≤ w.target

theorem Counted.perm {c : Counts} {ws ws' : List Waiter} (h : Counted c ws) (hp : ws.Perm ws') :
    Counted c ws' where
  waiters := h.waiters.trans hp.length_eq
  untargeted := h.untargeted.trans (hp.countP_eq _)
  least := fun w hw => h.least w (hp.mem_iff.mpr hw)

theorem Counted.enter {c : Counts} {ws : List Waiter} (h : Counted c ws) (w : Waiter) :
    Counted (asyncWaitEnter c w.target) (w :: ws) := by
  have hw := h.waiters
  have hu := h.untargeted
  unfold asyncWaitEnter
  split_ifs with h0 hmin
  · refine ⟨by simp [hw], by simp [hu, h0], fun v hv hne => ?_⟩
    rcases List.mem_cons.mp hv with rfl | hv
    · exact absurd h0 hne
    · exact h.least v hv hne
  · refine ⟨by simp [hw], by simp [hu, h0], fun v hv hne => ⟨h0, ?_⟩⟩
    rcases List.mem_cons.mp hv with rfl | hv
    · exact Nat.le_refl _
    · have hle := h.least v hv hne
      change w.target ≤ v.target
      omega
  · refine ⟨by simp [hw], by simp [hu, h0], fun v hv hne => ?_⟩
    rcases List.mem_cons.mp hv with rfl | hv
    · change c.minWaitSeq ≠ 0 ∧ c.minWaitSeq ≤ v.target
      omega
    · exact h.least v hv hne

theorem Counted.leaveLast {c : Counts} {ws : List Waiter} (hw : c.waiters = ws.length + 1)
    (hu : c.untargetedWaiters = ws.countP (fun w => w.target = 0))
    (hl : ∀ w ∈ ws, w.target ≠ 0 → c.minWaitSeq ≠ 0 ∧ c.minWaitSeq ≤ w.target) :
    Counted (leaveLast c) ws := by
  unfold Async.leaveLast
  split_ifs with h0
  · have hnil : ws = [] := List.length_eq_zero_iff.mp (by omega)
    subst hnil
    exact ⟨rfl, rfl, fun w hw => nomatch hw⟩
  · exact ⟨by change c.waiters - 1 = _; omega, hu, hl⟩

theorem Counted.leave {c : Counts} {w : Waiter} {ws : List Waiter} (h : Counted c (w :: ws)) :
    Counted (asyncWaitLeave c w.target) ws := by
  have hw := h.waiters
  have hu := h.untargeted
  have hl := fun v hv => h.least v (List.mem_cons_of_mem w hv)
  rw [List.length_cons] at hw
  rw [List.countP_cons] at hu
  unfold asyncWaitLeave
  split_ifs with h0
  · exact Counted.leaveLast hw (by simpa [h0] using hu) hl
  · refine Counted.leaveLast hw ?_ hl
    rw [not_not] at h0
    simp only [h0, decide_true, if_true] at hu
    change c.untargetedWaiters - 1 = _
    omega

-- once its target is reached, a thread in the wait is enough for a signal at the end of a snapshot
theorem Counted.wants {c : Counts} {ws : List Waiter} (h : Counted c ws) {n : Nat} {w : Waiter}
    (hw : w ∈ ws) (hle : w.target ≤ n) : wantsSignal c n true := by
  have hpos := List.length_pos_of_mem hw
  have hwait := h.waiters
  refine ⟨by omega, ?_⟩
  by_cases h0 : w.target = 0
  · refine Or.inl ⟨rfl, ?_⟩
    rw [h.untargeted]
    exact Nat.pos_iff_ne_zero.mp (List.countP_pos_iff.mpr ⟨w, hw, by simpa using h0⟩)
  · have hmin := h.least w hw h0
    exact Or.inr ⟨hmin.1, by omega⟩

/-! ## 2. The operations -/

def Worker.rest : Worker → List Nat
  | .running rest => rest
  | _ => []

/-- What the worker or the chain still holds, oldest first. -/
def undone (s : State) : List Nat := s.worker.rest ++ s.queue

structure Ordered (s : State) : Prop where
  sorted : (undone s).Pairwise fun h k => (s.ops h).seq < (s.ops k).seq
  range : ∀ h ∈ undone s, h < s.fresh ∧ s.completedSeq < (s.ops h).seq
  numbered : ∀ h < s.fresh, 0 < (s.ops h).seq ∧ (s.ops h).seq ≤ s.nextSeq
  flagged : ∀ h < s.fresh, (s.ops h).done = true ↔ (s.ops h).seq ≤ s.completedSeq
  kept : ∀ h < s.fresh, h ∈ undone s ∨ (s.ops h).seq ≤ s.completedSeq
  signed : ∀ h, (s.ops h).signature = true → h < s.fresh
  reached : s.completedSeq ≤ s.nextSeq

/-- The target of a thread in the wait is the number of an operation that was submitted. -/
def Caller (s : State) (w : Waiter) : Prop :=
  match w.call with
  | .wait op => op < s.fresh ∧ (s.ops op).seq = w.target
  | .waitAll _ | .waitReleaseAll _ => ∃ h < s.fresh, (s.ops h).seq = w.target
  | .drain => w.target = 0

theorem Caller.mono {s s' : State} {w : Waiter} (h : Caller s w) (hf : s.fresh ≤ s'.fresh)
    (hseq : ∀ h < s.fresh, (s'.ops h).seq = (s.ops h).seq) : Caller s' w := by
  unfold Caller at h ⊢
  cases hc : w.call with
  | wait op =>
    rw [hc] at h
    exact ⟨Nat.lt_of_lt_of_le h.1 hf, (hseq op h.1).trans h.2⟩
  | waitAll ops =>
    rw [hc] at h
    have ⟨k, hk, hs⟩ := h
    exact ⟨k, Nat.lt_of_lt_of_le hk hf, (hseq k hk).trans hs⟩
  | waitReleaseAll ops =>
    rw [hc] at h
    have ⟨k, hk, hs⟩ := h
    exact ⟨k, Nat.lt_of_lt_of_le hk hf, (hseq k hk).trans hs⟩
  | drain =>
    rw [hc] at h
    exact h

theorem maxSeq_mem (s : State) {ops : List Nat} (hne : ops ≠ []) :
    ∃ h ∈ ops, (s.ops h).seq = maxSeq s ops := by
  induction ops with
  | nil => exact absurd rfl hne
  | cons k rest ih =>
    change ∃ h ∈ k :: rest, (s.ops h).seq = max (s.ops k).seq (maxSeq s rest)
    by_cases hr : rest = []
    · subst hr
      exact ⟨k, List.mem_cons_self, (Nat.max_eq_left (Nat.zero_le _)).symm⟩
    · have ⟨h, hm, hs⟩ := ih hr
      rcases Nat.le_total (maxSeq s rest) (s.ops k).seq with hle | hle
      · exact ⟨k, List.mem_cons_self, (Nat.max_eq_left hle).symm⟩
      · exact ⟨h, List.mem_cons_of_mem _ hm, hs.trans (Nat.max_eq_right hle).symm⟩

/-! ## 3. The invariant -/

structure Inv (s : State) : Prop where
  ordered : Ordered s
  counted : Counted s.counts (s.blocked ++ s.woken)
  callers : ∀ w ∈ s.blocked ++ s.woken, Caller s w
  busy : s.active = true ↔ s.worker.rest ≠ []
  full : s.worker ≠ .running []

/-- What a step keeps that neither submits nor takes nor completes an operation. -/
structure Frame (s s' : State) : Prop where
  seq : ∀ k, (s'.ops k).seq = (s.ops k).seq
  done : ∀ k, (s'.ops k).done = (s.ops k).done
  signature : ∀ k, (s'.ops k).signature = true → (s.ops k).signature = true
  fresh : s'.fresh = s.fresh
  queue : s'.queue = s.queue
  nextSeq : s.nextSeq ≤ s'.nextSeq
  completedSeq : s'.completedSeq = s.completedSeq
  active : s'.active = s.active
  rest : s'.worker.rest = s.worker.rest
  full : s.worker ≠ .running [] → s'.worker ≠ .running []

theorem Frame.undone {s s' : State} (h : Frame s s') : undone s' = undone s := by
  unfold Async.undone
  rw [h.rest, h.queue]

theorem Frame.ordered {s s' : State} (h : Frame s s') (ho : Ordered s) : Ordered s' where
  sorted := by
    rw [h.undone]
    exact ho.sorted.imp fun hlt => by rw [h.seq, h.seq]; exact hlt
  range := by
    rw [h.undone, h.fresh, h.completedSeq]
    exact fun k hk => by rw [h.seq]; exact ho.range k hk
  numbered := by
    rw [h.fresh]
    intro k hk
    rw [h.seq]
    exact ⟨(ho.numbered k hk).1, Nat.le_trans (ho.numbered k hk).2 h.nextSeq⟩
  flagged := by
    rw [h.fresh, h.completedSeq]
    exact fun k hk => by rw [h.seq, h.done]; exact ho.flagged k hk
  kept := by
    rw [h.fresh, h.undone, h.completedSeq]
    exact fun k hk => by rw [h.seq]; exact ho.kept k hk
  signed := fun k hk => by rw [h.fresh]; exact ho.signed k (h.signature k hk)
  reached := by rw [h.completedSeq]; exact Nat.le_trans ho.reached h.nextSeq

theorem Frame.caller {s s' : State} (h : Frame s s') {w : Waiter} (hc : Caller s w) :
    Caller s' w := hc.mono (Nat.le_of_eq h.fresh.symm) fun k _ => h.seq k

theorem Inv.frame {s s' : State} (h : Inv s) (hf : Frame s s')
    (hcounted : Counted s'.counts (s'.blocked ++ s'.woken))
    (hcallers : ∀ w ∈ s'.blocked ++ s'.woken, Caller s w) : Inv s' where
  ordered := hf.ordered h.ordered
  counted := hcounted
  callers := fun w hw => hf.caller (hcallers w hw)
  busy := by rw [hf.active, hf.rest]; exact h.busy
  full := hf.full h.full

-- threads only change places between blocked and woken
theorem Inv.moved {s s' : State} (h : Inv s) (hf : Frame s s') (hcounts : s'.counts = s.counts)
    (hp : (s.blocked ++ s.woken).Perm (s'.blocked ++ s'.woken)) : Inv s' := by
  apply h.frame hf
  · rw [hcounts]
    exact h.counted.perm hp
  · exact fun w hw => h.callers w (hp.mem_iff.mpr hw)

/-! ## 4. Who is asleep -/

def Idle (s : State) : Prop := s.queue = [] ∧ s.active = false

/-- What the thread waits for has come, as soon as the worker is idle. -/
def Served (s : State) (w : Waiter) : Prop := w.call = .drain ∨ w.target ≤ s.completedSeq

/-- With the worker idle, no thread is blocked behind a wait that has been served. -/
def Awake (s : State) : Prop := Idle s → ∀ w ∈ s.blocked, ¬ Served s w

theorem Awake.keep {s s' : State} (h : Awake s) (hf : Frame s s')
    (hb : ∀ w ∈ s'.blocked, w ∈ s.blocked ∨ (Idle s → ¬ Served s w)) : Awake s' := by
  intro hidle w hw hserved
  have hidle' : Idle s := ⟨hf.queue.symm.trans hidle.1, hf.active.symm.trans hidle.2⟩
  have hserved' : Served s w := hserved.imp_right fun hle => hf.completedSeq ▸ hle
  rcases hb w hw with hw | hw
  · exact h hidle' w hw hserved'
  · exact hw hidle' hserved'

-- a thread that finds its loop condition true has not been served
theorem Caller.not_served {s : State} (ho : Ordered s) {w : Waiter} (hc : Caller s w)
    (hp : w.pending s = true) (hidle : Idle s) : ¬ Served s w := by
  have ⟨hq, ha⟩ := hidle
  unfold Caller at hc
  unfold Waiter.pending at hp
  intro hserved
  rcases hserved with hd | hle
  · rw [hd] at hp
    simp [hq, ha] at hp
  · cases hcall : w.call with
    | wait op =>
      rw [hcall] at hc hp
      change (!(s.ops op).done) = true at hp
      rw [(ho.flagged op hc.1).mpr (hc.2.symm ▸ hle)] at hp
      exact nomatch hp
    | waitAll ops =>
      rw [hcall] at hp
      exact absurd hle (Nat.not_le.mpr (of_decide_eq_true hp))
    | waitReleaseAll ops =>
      rw [hcall] at hp
      exact absurd hle (Nat.not_le.mpr (of_decide_eq_true hp))
    | drain =>
      rw [hcall] at hp
      simp [hq, ha] at hp

-- once everything submitted is done, every thread in the wait is served
theorem Caller.served {s : State} (ho : Ordered s) {w : Waiter} (hc : Caller s w)
    (hnone : undone s = []) : Served s w := by
  have hreach : ∀ h < s.fresh, (s.ops h).seq = w.target → Served s w := by
    intro h hlt hs
    rcases ho.kept h hlt with hm | hle
    · rw [hnone] at hm
      exact nomatch hm
    · exact Or.inr (hs ▸ hle)
  unfold Caller at hc
  cases hcall : w.call with
  | wait op =>
    rw [hcall] at hc
    exact hreach op hc.1 hc.2
  | waitAll ops =>
    rw [hcall] at hc
    have ⟨h, hlt, hs⟩ := hc
    exact hreach h hlt hs
  | waitReleaseAll ops =>
    rw [hcall] at hc
    have ⟨h, hlt, hs⟩ := hc
    exact hreach h hlt hs
  | drain => exact Or.inl hcall

end Mdbx.Async
