import Mdbx.Async.Invariant
import Mathlib.Data.List.Perm.Basic

/-!
# Async.Runs — who is left asleep, over every interleaving

Each step keeps the invariant.  Only the completion that leaves the worker idle can leave a thread
asleep, and it does so exactly when more than one thread is blocked at that moment.
-/

namespace Mdbx.Async

/-! ## 1. Callers -/

/-- The step touches neither the waiting threads nor their counters. -/
structure Still (s s' : State) : Prop extends Frame s s' where
  counts : s'.counts = s.counts
  blocked : s'.blocked = s.blocked
  woken : s'.woken = s.woken

structure Keeps (s s' : State) : Prop where
  inv : Inv s'
  awake : Awake s → Awake s'

theorem Frame.refl (s : State) : Frame s s :=
  ⟨fun _ => rfl, fun _ => rfl, fun _ h => h, rfl, rfl, Nat.le_refl _, rfl, rfl, rfl, fun h => h⟩

theorem Still.refl (s : State) : Still s s := ⟨Frame.refl s, rfl, rfl, rfl⟩

theorem Inv.still {s s' : State} (h : Inv s) (hs : Still s s') : Keeps s s' where
  inv := by
    apply h.moved hs.toFrame hs.counts
    rw [hs.blocked, hs.woken]
  awake := fun ha => ha.keep hs.toFrame fun w hw => Or.inl (hs.blocked ▸ hw)

theorem signalWorker_still (s : State) : Still s (signalWorker s) := by
  unfold signalWorker
  split_ifs with hw
  · refine ⟨⟨fun _ => rfl, fun _ => rfl, fun _ h => h, rfl, rfl, Nat.le_refl _, rfl, rfl, ?_, ?_⟩,
      rfl, rfl, rfl⟩
    · rw [hw]
      rfl
    · exact fun _ h => nomatch h
  · exact Still.refl s

theorem asyncOpsReleaseLocked_still (s : State) (ops : List Nat) :
    Still s (asyncOpsReleaseLocked s ops) := by
  unfold asyncOpsReleaseLocked
  split_ifs
  · refine ⟨⟨fun k => ?_, fun k => ?_, fun k => ?_, rfl, rfl, Nat.le_refl _, rfl, rfl, rfl,
      fun h => h⟩, rfl, rfl, rfl⟩
    · change (if k ∈ ops then _ else _ : Op).seq = _
      split_ifs <;> rfl
    · change (if k ∈ ops then _ else _ : Op).done = _
      split_ifs <;> rfl
    · change (if k ∈ ops then _ else _ : Op).signature = true → _
      split_ifs
      · exact fun h => nomatch h
      · exact fun h => h
  · exact Still.refl s

theorem destroyTail_still (s : State) : Still s (destroyTail s) := by
  unfold destroyTail
  split_ifs
  · exact Still.refl s
  · have h := signalWorker_still { s with stop := true, joining := true }
    exact ⟨⟨h.seq, h.done, h.signature, h.fresh, h.queue, h.nextSeq, h.completedSeq, h.active,
      h.rest, h.full⟩, h.counts, h.blocked, h.woken⟩

theorem finish_still (s : State) (w : Waiter) : Still s (finish s w) := by
  unfold finish
  cases w.call with
  | wait op => exact Still.refl s
  | waitAll ops => exact Still.refl s
  | waitReleaseAll ops => exact asyncOpsReleaseLocked_still s ops
  | drain => exact destroyTail_still s

-- only the counters and the two lists of threads differ
theorem frame_waiting (s : State) (c : Counts) (blocked woken : List Waiter) :
    Frame s { s with counts := c, blocked := blocked, woken := woken } :=
  ⟨fun _ => rfl, fun _ => rfl, fun _ h => h, rfl, rfl, Nat.le_refl _, rfl, rfl, rfl, fun h => h⟩

theorem await_keeps {s : State} {w : Waiter} (h : Inv s) (hc : Caller s w) :
    Keeps s (await s w) := by
  unfold await
  split_ifs with hp
  · have hf := frame_waiting s (asyncWaitEnter s.counts w.target) (s.blocked ++ [w]) s.woken
    have hperm : (w :: (s.blocked ++ s.woken)).Perm (s.blocked ++ [w] ++ s.woken) := by
      rw [List.append_assoc]
      exact List.perm_middle.symm
    refine ⟨h.frame hf ((h.counted.enter w).perm hperm) fun v hv => ?_, fun ha => ha.keep hf ?_⟩
    · rcases List.mem_cons.mp (hperm.mem_iff.mpr hv) with rfl | hv
      · exact hc
      · exact h.callers v hv
    · intro v hv
      rcases List.mem_append.mp hv with hv | hv
      · exact Or.inl hv
      · rw [List.mem_singleton.mp hv]
        exact Or.inr (hc.not_served h.ordered hp)
  · exact h.still (finish_still s w)

theorem perm_eraseIdx {ws : List Waiter} {i : Nat} {w : Waiter} (hi : ws[i]? = some w) :
    ws.Perm (w :: ws.eraseIdx i) := by
  have ⟨hlt, hget⟩ := List.getElem?_eq_some_iff.mp hi
  rw [← hget]
  exact (List.getElem_cons_eraseIdx_perm hlt).symm

theorem leave_inv {s : State} (h : Inv s) {i : Nat} {w : Waiter} (hi : s.woken[i]? = some w) :
    Keeps s (leave { s with woken := s.woken.eraseIdx i } w) := by
  have hf := frame_waiting s (asyncWaitLeave s.counts w.target) s.blocked (s.woken.eraseIdx i)
  have hperm : (s.blocked ++ s.woken).Perm (w :: (s.blocked ++ s.woken.eraseIdx i)) :=
    ((perm_eraseIdx hi).append_left s.blocked).trans List.perm_middle
  refine ⟨h.frame hf (h.counted.perm hperm).leave fun v hv => ?_, fun ha => ha.keep hf ?_⟩
  · exact h.callers v (hperm.mem_iff.mpr (List.mem_cons_of_mem w hv))
  · exact fun v hv => Or.inl hv

theorem Keeps.trans {s s' s'' : State} (h : Keeps s s') (h' : Inv s' → Keeps s' s'') :
    Keeps s s'' := ⟨(h' h.inv).inv, fun ha => (h' h.inv).awake (h.awake ha)⟩

theorem resume_keeps {s s' : State} {i : Nat} {ok : Bool} (h : Inv s)
    (hs : resume s i ok = some s') : Keeps s s' := by
  unfold resume at hs
  have ⟨w, hi, hw⟩ := Option.map_eq_some_iff.mp hs
  have hleave := leave_inv h hi
  split_ifs at hw with hok hp
  · rw [← hw]
    exact hleave
  · rw [← hw]
    have hf := frame_waiting s s.counts (s.blocked ++ [w]) (s.woken.eraseIdx i)
    have hperm : (s.blocked ++ s.woken).Perm (s.blocked ++ [w] ++ s.woken.eraseIdx i) := by
      rw [List.append_assoc]
      exact (perm_eraseIdx hi).append_left s.blocked
    have hc := h.callers w (List.mem_append_right _ (List.mem_of_getElem? hi))
    refine ⟨h.moved hf rfl hperm, fun ha => ha.keep hf fun v hv => ?_⟩
    rcases List.mem_append.mp hv with hv | hv
    · exact Or.inl hv
    · rw [List.mem_singleton.mp hv]
      exact Or.inr (hc.not_served h.ordered hp)
  · rw [← hw]
    exact hleave.trans fun hinv => hinv.still (finish_still _ w)

/-! ## 2. Signals -/

theorem signalCaller_cases {s s' : State} {pick : Nat} (hs : signalCaller s pick = some s') :
    (∃ w, s.blocked[pick]? = some w ∧
      s' = { s with blocked := s.blocked.eraseIdx pick, woken := s.woken ++ [w] }) ∨
    (s.blocked = [] ∧ s' = s) := by
  unfold signalCaller at hs
  cases hb : s.blocked[pick]? with
  | some w =>
    rw [hb] at hs
    exact Or.inl ⟨w, rfl, (Option.some.inj hs).symm⟩
  | none =>
    rw [hb] at hs
    change (if s.blocked = [] then some s else none) = some s' at hs
    split_ifs at hs with hnil
    exact Or.inr ⟨hnil, (Option.some.inj hs).symm⟩

theorem signalCaller_keeps {s s' : State} {pick : Nat} (h : Inv s)
    (hs : signalCaller s pick = some s') : Keeps s s' := by
  rcases signalCaller_cases hs with ⟨w, hb, rfl⟩ | ⟨-, rfl⟩
  · have hf := frame_waiting s s.counts (s.blocked.eraseIdx pick) (s.woken ++ [w])
    have hperm : (s.blocked ++ s.woken).Perm (s.blocked.eraseIdx pick ++ (s.woken ++ [w])) := by
      apply ((perm_eraseIdx hb).append_right s.woken).trans
      rw [← List.append_assoc]
      exact (List.perm_append_singleton w _).symm
    exact ⟨h.moved hf rfl hperm,
      fun ha => ha.keep hf fun v hv => Or.inl (List.mem_of_mem_eraseIdx hv)⟩
  · exact h.still (Still.refl s')

theorem asyncSignalWaiters_cases {s s' : State} {b : Bool} {pick : Nat}
    (hs : asyncSignalWaiters s b pick = some s') :
    (wantsSignal s.counts s.completedSeq b ∧ signalCaller s pick = some s') ∨
    (¬ wantsSignal s.counts s.completedSeq b ∧ s' = s) := by
  unfold asyncSignalWaiters at hs
  split_ifs at hs with hw
  · exact Or.inl ⟨hw, hs⟩
  · exact Or.inr ⟨hw, (Option.some.inj hs).symm⟩

-- a signal leaves the executor itself alone
theorem asyncSignalWaiters_same {s s' : State} {b : Bool} {pick : Nat}
    (hs : asyncSignalWaiters s b pick = some s') :
    s'.queue = s.queue ∧ s'.active = s.active ∧ s'.completedSeq = s.completedSeq ∧
      s'.worker = s.worker := by
  rcases asyncSignalWaiters_cases hs with ⟨-, hs⟩ | ⟨-, rfl⟩
  · rcases signalCaller_cases hs with ⟨w, -, rfl⟩ | ⟨-, rfl⟩
    · exact ⟨rfl, rfl, rfl, rfl⟩
    · exact ⟨rfl, rfl, rfl, rfl⟩
  · exact ⟨rfl, rfl, rfl, rfl⟩

theorem asyncSignalWaiters_keeps {s s' : State} {b : Bool} {pick : Nat} (h : Inv s)
    (hs : asyncSignalWaiters s b pick = some s') : Keeps s s' := by
  rcases asyncSignalWaiters_cases hs with ⟨-, hs⟩ | ⟨-, rfl⟩
  · exact signalCaller_keeps h hs
  · exact h.still (Still.refl s')

/-! ## 3. Submission -/

theorem enqueue_seq (s : State) (count : Nat) {h : Nat} (hlt : h < s.fresh) :
    (enqueue s count).ops h = s.ops h := if_neg fun hr => absurd hr.1 (Nat.not_le.mpr hlt)

theorem enqueue_new (s : State) (count : Nat) {h : Nat} (hle : s.fresh ≤ h)
    (hlt : h < s.fresh + count) :
    (enqueue s count).ops h = ⟨s.nextSeq + (h - s.fresh) + 1, false, true⟩ := if_pos ⟨hle, hlt⟩

theorem undone_enqueue (s : State) (count : Nat) :
    undone (enqueue s count) = undone s ++ List.range' s.fresh count :=
  (List.append_assoc _ _ _).symm

theorem enqueue_ordered {s : State} (ho : Ordered s) (count : Nat) :
    Ordered (enqueue s count) := by
  have hnew : ∀ h ∈ List.range' s.fresh count, s.fresh ≤ h ∧ h < s.fresh + count := by
    intro h hm
    have ⟨i, hi, he⟩ := List.mem_range'.mp hm
    omega
  have hreach := ho.reached
  -- a handle is old or one of the fresh ones
  have hside : ∀ h < s.fresh + count, h < s.fresh ∨ s.fresh ≤ h := fun h _ => Nat.lt_or_ge h s.fresh
  refine ⟨?_, fun h hm => ?_, fun h hlt => ?_, fun h hlt => ?_, fun h hlt => ?_, fun h hs => ?_, ?_⟩
  · rw [undone_enqueue]
    apply List.pairwise_append.mpr
    refine ⟨?_, ?_, ?_⟩
    · apply ho.sorted.imp_of_mem
      intro h k hh hk hlt
      rw [enqueue_seq s count (ho.range h hh).1, enqueue_seq s count (ho.range k hk).1]
      exact hlt
    · apply (List.pairwise_lt_range' (s := s.fresh) (n := count)).imp_of_mem
      intro h k hh hk hlt
      have hh := hnew h hh
      have hk := hnew k hk
      rw [enqueue_new s count hh.1 hh.2, enqueue_new s count hk.1 hk.2]
      change s.nextSeq + (h - s.fresh) + 1 < s.nextSeq + (k - s.fresh) + 1
      omega
    · intro h hh k hk
      have hk := hnew k hk
      have hold := (ho.range h hh).1
      have hnum := (ho.numbered h hold).2
      rw [enqueue_seq s count hold, enqueue_new s count hk.1 hk.2]
      change (s.ops h).seq < s.nextSeq + (k - s.fresh) + 1
      omega
  · rw [undone_enqueue] at hm
    change h < s.fresh + count ∧ s.completedSeq < _
    rcases List.mem_append.mp hm with hm | hm
    · have hr := ho.range h hm
      rw [enqueue_seq s count hr.1]
      exact ⟨by omega, hr.2⟩
    · have hh := hnew h hm
      rw [enqueue_new s count hh.1 hh.2]
      change h < s.fresh + count ∧ s.completedSeq < s.nextSeq + (h - s.fresh) + 1
      omega
  · change 0 < _ ∧ _ ≤ s.nextSeq + count
    rcases hside h hlt with hold | hnew
    · rw [enqueue_seq s count hold]
      have hn := ho.numbered h hold
      omega
    · rw [enqueue_new s count hnew hlt]
      change h < s.fresh + count at hlt
      change 0 < s.nextSeq + (h - s.fresh) + 1 ∧ s.nextSeq + (h - s.fresh) + 1 ≤ s.nextSeq + count
      omega
  · change _ ↔ _ ≤ s.completedSeq
    rcases hside h hlt with hold | hnew
    · rw [enqueue_seq s count hold]
      exact ho.flagged h hold
    · rw [enqueue_new s count hnew hlt]
      change false = true ↔ s.nextSeq + (h - s.fresh) + 1 ≤ s.completedSeq
      refine ⟨(nomatch ·), fun hle => ?_⟩
      omega
  · change _ ∨ _ ≤ s.completedSeq
    rw [undone_enqueue]
    rcases hside h hlt with hold | hnew
    · rw [enqueue_seq s count hold]
      exact (ho.kept h hold).imp_left (List.mem_append_left _)
    · refine Or.inl (List.mem_append_right _ (List.mem_range'.mpr ⟨h - s.fresh, ?_, ?_⟩))
      · change h < s.fresh + count at hlt
        omega
      · omega
  · change h < s.fresh + count
    by_cases hr : s.fresh ≤ h ∧ h < s.fresh + count
    · exact hr.2
    · have he : (enqueue s count).ops h = s.ops h := if_neg hr
      rw [he] at hs
      have hlt := ho.signed h hs
      omega
  · change s.completedSeq ≤ s.nextSeq + count
    omega

theorem enqueue_keeps {s : State} (h : Inv s) {count : Nat} (hpos : count ≠ 0) :
    Keeps s (enqueue s count) where
  inv := {
    ordered := enqueue_ordered h.ordered count
    counted := h.counted
    callers := fun w hw => (h.callers w hw).mono (Nat.le_add_right _ _) fun k hk => by
      rw [enqueue_seq s count hk]
    busy := h.busy
    full := h.full }
  awake := by
    intro _ hidle
    have hnil : s.queue ++ List.range' s.fresh count = [] := hidle.1
    have hrange := congrArg List.length (List.append_eq_nil_iff.mp hnil).2
    rw [List.length_range'] at hrange
    exact absurd hrange hpos

theorem asyncOpEnqueue_keeps {s : State} (h : Inv s) (signalled : Bool) :
    Keeps s (asyncOpEnqueue s signalled) := by
  unfold asyncOpEnqueue
  split_ifs
  · exact h.still (Still.refl s)
  · exact (enqueue_keeps h (by decide)).trans fun hinv => hinv.still (signalWorker_still _)
  · exact h.still ⟨⟨fun _ => rfl, fun _ => rfl, fun _ h => h, rfl, rfl, Nat.le_succ _, rfl, rfl,
      rfl, fun h => h⟩, rfl, rfl, rfl⟩
  · exact enqueue_keeps h (by decide)

theorem asyncOpsEnqueue_keeps {s : State} (h : Inv s) (count : Nat) (signalled : Bool) :
    Keeps s (asyncOpsEnqueue s count signalled) := by
  unfold asyncOpsEnqueue
  split_ifs with h0
  · exact h.still (Still.refl s)
  · have hpos : count ≠ 0 := fun hc => h0 (Or.inr hc)
    exact (enqueue_keeps h hpos).trans fun hinv => hinv.still (signalWorker_still _)
  · exact h.still (Still.refl s)
  · exact enqueue_keeps h fun hc => h0 (Or.inr hc)

/-! ## 4. The worker -/

-- the worker, awake, holds no operation
theorem loopTop_keeps {s : State} (h : Inv s) (hw : s.worker.rest = []) :
    Keeps s (loopTop s) := by
  have hact : s.active = false := by
    cases ha : s.active with
    | false => rfl
    | true => exact absurd hw (h.busy.mp ha)
  have hsame : ∀ w : Worker, w.rest = [] → w ≠ .running [] → Keeps s { s with worker := w } :=
    fun w hr hf => h.still ⟨⟨fun _ => rfl, fun _ => rfl, fun _ h => h, rfl, rfl, Nat.le_refl _, rfl,
      rfl, hr.trans hw.symm, fun _ => hf⟩, rfl, rfl, rfl⟩
  unfold loopTop
  split_ifs with hq
  · have hun : undone { s with worker := .running s.queue, queue := [], active := true } =
        undone s := by
      unfold undone
      rw [hw]
      exact List.append_nil _
    have ho := h.ordered
    refine ⟨⟨⟨?_, ?_, ho.numbered, ho.flagged, ?_, ho.signed, ho.reached⟩, h.counted, h.callers,
      ⟨fun _ => hq, fun _ => rfl⟩, fun he => hq (Worker.running.inj he)⟩,
      fun _ hidle => nomatch hidle.2⟩
    · rw [hun]
      exact ho.sorted
    · rw [hun]
      exact ho.range
    · rw [hun]
      exact ho.kept
  · exact hsame .exited rfl (fun he => nomatch he)
  · exact hsame .waiting rfl (fun he => nomatch he)

theorem workerWakes_keeps {s s' : State} {ok : Bool} (h : Inv s)
    (hs : workerWakes s ok = some s') : Keeps s s' := by
  unfold workerWakes at hs
  split_ifs at hs with hw hok
  · rw [← Option.some.inj hs]
    exact loopTop_keeps h (by rw [hw]; rfl)
  · rw [← Option.some.inj hs]
    have hstop : Keeps s { s with stop := true } :=
      h.still ⟨⟨fun _ => rfl, fun _ => rfl, fun _ h => h, rfl, rfl, Nat.le_refl _, rfl, rfl, rfl,
        fun h => h⟩, rfl, rfl, rfl⟩
    refine hstop.trans fun hinv => loopTop_keeps hinv ?_
    change s.worker.rest = []
    rw [hw]
    rfl

-- the operations up to `last` are done, and `last` gives `completed_seq`
theorem Ordered.pass {s s' : State} {init later : List Nat} {last : Nat} (ho : Ordered s)
    (hun : undone s = init ++ [last] ++ later) (hun' : undone s' = later)
    (hops : ∀ k, s'.ops k = if k ∈ init ++ [last] then { s.ops k with done := true } else s.ops k)
    (hfresh : s'.fresh = s.fresh) (hcomp : s'.completedSeq = (s.ops last).seq)
    (hnext : s'.nextSeq = s.nextSeq) : Ordered s' := by
  have hseq : ∀ k, (s'.ops k).seq = (s.ops k).seq := by
    intro k
    rw [hops]
    split_ifs <;> rfl
  have hsig : ∀ k, (s'.ops k).signature = (s.ops k).signature := by
    intro k
    rw [hops]
    split_ifs <;> rfl
  have hsorted := ho.sorted
  rw [hun] at hsorted
  have ⟨hchunk, hlater, hcross⟩ := List.pairwise_append.mp hsorted
  have hinit := (List.pairwise_append.mp hchunk).2.2
  have hmem : ∀ k ∈ init ++ [last], k ∈ undone s := fun k hk => hun ▸ List.mem_append_left later hk
  have hmem' : ∀ k ∈ later, k ∈ undone s := fun k hk => hun ▸ List.mem_append_right _ hk
  have hlast : last ∈ init ++ [last] := List.mem_append_right _ List.mem_cons_self
  have hrange := ho.range last (hmem last hlast)
  -- a chunk's numbers go up to the number of `last`, later ones lie above
  have hdone : ∀ k ∈ init ++ [last], (s.ops k).seq ≤ (s.ops last).seq := by
    intro k hk
    rcases List.mem_append.mp hk with hk | hk
    · exact Nat.le_of_lt (hinit k hk last List.mem_cons_self)
    · exact Nat.le_of_eq (congrArg (fun j => (s.ops j).seq) (List.mem_singleton.mp hk))
  have habove : ∀ k ∈ later, (s.ops last).seq < (s.ops k).seq := fun k hk => hcross last hlast k hk
  -- an operation is in the chunk, behind it, or done before
  have hwhere : ∀ k < s.fresh, k ∈ init ++ [last] ∨ k ∈ later ∨ (s.ops k).seq ≤ s.completedSeq := by
    intro k hk
    rcases ho.kept k hk with hu | hle
    · rw [hun] at hu
      rcases List.mem_append.mp hu with hc | hl
      · exact Or.inl hc
      · exact Or.inr (Or.inl hl)
    · exact Or.inr (Or.inr hle)
  refine ⟨?_, fun k hk => ?_, fun k hk => ?_, fun k hk => ?_, fun k hk => ?_, fun k hk => ?_, ?_⟩
  · rw [hun']
    exact hlater.imp fun hlt => by rw [hseq, hseq]; exact hlt
  · rw [hun'] at hk
    rw [hfresh, hcomp, hseq]
    exact ⟨(ho.range k (hmem' k hk)).1, habove k hk⟩
  · rw [hfresh] at hk
    rw [hseq, hnext]
    exact ho.numbered k hk
  · rw [hfresh] at hk
    rw [hseq, hcomp, hops]
    split_ifs with hc
    · exact ⟨fun _ => hdone k hc, fun _ => rfl⟩
    · have hflag := ho.flagged k hk
      rcases hwhere k hk with h | hl | hle
      · exact absurd h hc
      · have hlt := (ho.range k (hmem' k hl)).2
        have hab := habove k hl
        rw [hflag]
        omega
      · rw [hflag]
        omega
  · rw [hfresh] at hk
    rw [hun', hseq, hcomp]
    rcases hwhere k hk with hc | hl | hle
    · exact Or.inr (hdone k hc)
    · exact Or.inl hl
    · exact Or.inr (by omega)
  · rw [hfresh]
    exact ho.signed k (hsig k ▸ hk)
  · rw [hcomp, hnext]
    exact (ho.numbered last hrange.1).2

/-- The first `n` operations of the snapshot are done. -/
def passed (s : State) (rest : List Nat) (n : Nat) (active : Bool) (worker : Worker) : State :=
  { markDone s (rest.take n) with active := active, worker := worker }

theorem passed_completedSeq {s : State} {rest : List Nat} {n last : Nat} (active : Bool)
    (worker : Worker) (h : (rest.take n).getLast? = some last) :
    (passed s rest n active worker).completedSeq = (s.ops last).seq := by
  simp only [passed, markDone, h]

theorem passed_inv {s : State} {rest : List Nat} {n : Nat} {active : Bool} {worker : Worker}
    (h : Inv s) (hw : s.worker = .running rest) (hpos : 0 < n) (hle : n ≤ rest.length)
    (hrest : worker.rest = rest.drop n) (hbusy : active = true ↔ rest.drop n ≠ [])
    (hfull : worker ≠ .running []) : Inv (passed s rest n active worker) := by
  have hne : rest.take n ≠ [] := fun h => by
    have hl := congrArg List.length h
    rw [List.length_take, List.length_nil] at hl
    omega
  have hchunk := List.dropLast_append_getLast hne
  generalize (rest.take n).dropLast = init, (rest.take n).getLast hne = last at hchunk
  have hun : undone s = init ++ [last] ++ (rest.drop n ++ s.queue) := by
    unfold undone
    rw [hw, hchunk, ← List.append_assoc, List.take_append_drop]
    rfl
  have hops : ∀ k, (passed s rest n active worker).ops k =
      if k ∈ init ++ [last] then { s.ops k with done := true } else s.ops k := by
    intro k
    change (if k ∈ rest.take n then _ else _) = _
    rw [← hchunk]
  have hcomp : (passed s rest n active worker).completedSeq = (s.ops last).seq := by
    refine passed_completedSeq active worker ?_
    rw [← hchunk, List.getLast?_concat]
  refine ⟨h.ordered.pass hun ?_ hops rfl hcomp rfl, h.counted, fun w hw => ?_, ?_, hfull⟩
  · exact congrArg (· ++ s.queue) hrest
  · refine (h.callers w hw).mono (Nat.le_refl _) fun k _ => ?_
    rw [hops]
    split_ifs <;> rfl
  · change active = true ↔ worker.rest ≠ []
    rw [hrest]
    exact hbusy

/-! ## 5. The last chunk -/

/-- When the worker completes its snapshot and nothing new was submitted, at most one thread is
blocked on the condition. -/
def Lone (s : State) : Event → Prop
  | .complete n _ => s.worker.rest.drop n = [] → s.queue = [] → s.blocked.length ≤ 1
  | _ => True

-- a signal takes one blocked thread away, or there was none
theorem signalCaller_blocked {s s' : State} {pick : Nat} (hs : signalCaller s pick = some s') :
    s'.blocked.length = s.blocked.length - 1 ∧ ∀ w ∈ s'.blocked, w ∈ s.blocked := by
  rcases signalCaller_cases hs with ⟨w, hb, rfl⟩ | ⟨hnil, rfl⟩
  · have hlt := (List.getElem?_eq_some_iff.mp hb).1
    exact ⟨List.length_eraseIdx_of_lt hlt, fun v hv => List.mem_of_mem_eraseIdx hv⟩
  · rw [hnil]
    exact ⟨rfl, fun v hv => nomatch hv⟩

theorem loopTop_blocked (s : State) : (loopTop s).blocked = s.blocked := by
  unfold loopTop
  split_ifs <;> rfl

theorem loopTop_completedSeq (s : State) : (loopTop s).completedSeq = s.completedSeq := by
  unfold loopTop
  split_ifs <;> rfl

theorem loopTop_idle {s : State} (hact : s.active = false) : Idle (loopTop s) ↔ s.queue = [] := by
  unfold loopTop
  split_ifs with hq
  · exact ⟨fun h => absurd h.2.symm Bool.false_ne_true, fun h => absurd h hq⟩
  · exact ⟨fun h => h.1, fun h => ⟨h, hact⟩⟩
  · exact ⟨fun h => h.1, fun h => ⟨h, hact⟩⟩

-- everything is done, so one signal is sent and every other blocked thread sleeps on
theorem lastSignal_awake {s s' : State} {pick : Nat} (h : Inv s) (hnone : undone s = [])
    (hact : s.active = false) (hs : asyncSignalWaiters s true pick = some s') :
    Awake (loopTop s') ↔ s.blocked.length ≤ 1 := by
  have hserved : ∀ w ∈ s.blocked, Served s w := fun w hw =>
    (h.callers w (List.mem_append_left _ hw)).served h.ordered hnone
  have ⟨hqueue, hactive, hcomp, _⟩ := asyncSignalWaiters_same hs
  have hlen : s'.blocked.length = s.blocked.length - 1 ∧ ∀ w ∈ s'.blocked, w ∈ s.blocked := by
    rcases asyncSignalWaiters_cases hs with ⟨-, hs⟩ | ⟨hno, rfl⟩
    · exact signalCaller_blocked hs
    · cases hb : s'.blocked with
      | nil => exact ⟨rfl, fun v hv => nomatch hv⟩
      | cons w ws =>
        have hw : w ∈ s'.blocked := hb ▸ List.mem_cons_self
        have hle : w.target ≤ s'.completedSeq := by
          rcases hserved w hw with hd | hle
          · have hc := h.callers w (List.mem_append_left _ hw)
            unfold Caller at hc
            rw [hd] at hc
            exact hc ▸ Nat.zero_le _
          · exact hle
        exact absurd (h.counted.wants (List.mem_append_left _ hw) hle) hno
  have hidle : Idle (loopTop s') := by
    refine (loopTop_idle (hactive.trans hact)).mpr (hqueue.trans ?_)
    exact (List.append_eq_nil_iff.mp hnone).2
  constructor
  · intro hawake
    cases hb : s'.blocked with
    | nil =>
      have hl := hlen.1
      rw [hb, List.length_nil] at hl
      omega
    | cons w ws =>
      have hw : w ∈ s'.blocked := hb ▸ List.mem_cons_self
      have hw' : w ∈ (loopTop s').blocked := (loopTop_blocked s').symm ▸ hw
      refine absurd ?_ (hawake hidle w hw')
      apply (hserved w (hlen.2 w hw)).imp_right
      rw [loopTop_completedSeq, hcomp]
      exact fun hle => hle
  · intro hone _ w hw
    rw [loopTop_blocked] at hw
    have hpos := List.length_pos_of_mem hw
    omega

theorem complete_outcome {s s' : State} {n pick : Nat} (h : Inv s)
    (hs : complete s n pick = some s') :
    Inv s' ∧ (Awake s' ↔ Lone s (.complete n pick)) := by
  unfold complete at hs
  cases hw : s.worker with
  | running rest =>
    rw [hw] at hs
    change (if 0 < n ∧ n ≤ rest.length ∧ n ≤ completeChunk then completeFrom s rest n pick
      else none) = some s' at hs
    split_ifs at hs with hn
    have hlone : Lone s (.complete n pick) ↔
        (rest.drop n = [] → s.queue = [] → s.blocked.length ≤ 1) := by
      unfold Lone
      rw [hw]
      rfl
    rw [hlone]
    have hbusy : s.active = true := by
      refine h.busy.mpr fun hnil => ?_
      rw [hw] at hnil
      have hlen := congrArg List.length hnil
      change rest.length = 0 at hlen
      omega
    unfold completeFrom at hs
    split_ifs at hs with hdrop
    · have ⟨t, ht, hs'⟩ := Option.map_eq_some_iff.mp hs
      have hinv : Inv (passed s rest n false .awake) :=
        passed_inv h hw hn.1 hn.2.1 hdrop.symm (by simp [hdrop]) (fun he => nomatch he)
      have ht' : asyncSignalWaiters (passed s rest n false .awake) true pick = some t := ht
      have hkeep := asyncSignalWaiters_keeps hinv ht'
      have ⟨hqueue, hactive, _, hworker⟩ := asyncSignalWaiters_same ht'
      have hrest : t.worker.rest = [] := by rw [hworker]; rfl
      rw [← hs']
      refine ⟨(loopTop_keeps hkeep.inv hrest).inv, ?_⟩
      by_cases hq : s.queue = []
      · rw [lastSignal_awake hinv hq rfl ht']
        exact ⟨fun hle _ _ => hle, fun himp => himp hdrop hq⟩
      · refine ⟨fun _ _ hnil => absurd hnil hq, fun _ hidle => ?_⟩
        exact absurd (hqueue.symm.trans ((loopTop_idle hactive).mp hidle)) hq
    · have hinv : Inv (passed s rest n s.active (.running (rest.drop n))) := by
        refine passed_inv h hw hn.1 hn.2.1 rfl ?_ fun he => hdrop (Worker.running.inj he)
        exact ⟨fun _ => hdrop, fun _ => hbusy⟩
      have hkeep := asyncSignalWaiters_keeps hinv hs
      refine ⟨hkeep.inv, fun _ hd => absurd hd hdrop, fun _ hidle => ?_⟩
      have hactive := (asyncSignalWaiters_same hs).2.1
      exact nomatch (hactive.trans hbusy).symm.trans hidle.2
  | waiting => rw [hw] at hs; exact nomatch hs
  | awake => rw [hw] at hs; exact nomatch hs
  | exited => rw [hw] at hs; exact nomatch hs

theorem freed_still (s : State) : Still s { s with signature := false } :=
  ⟨⟨fun _ => rfl, fun _ => rfl, fun _ h => h, rfl, rfl, Nat.le_refl _, rfl, rfl, rfl, fun h => h⟩,
    rfl, rfl, rfl⟩

theorem checked_caller {s : State} (ho : Ordered s) {ops : List Nat} (hc : checked s ops)
    (hne : ops ≠ []) : ∃ h < s.fresh, (s.ops h).seq = maxSeq s ops := by
  have ⟨h, hm, hs⟩ := maxSeq_mem s hne
  exact ⟨h, ho.signed h (hc h hm), hs⟩

theorem mdbxAsyncWait_keeps {s : State} (h : Inv s) (thread op : Nat) :
    Keeps s (mdbxAsyncWait s thread op) := by
  unfold mdbxAsyncWait
  split_ifs with hsig
  · exact await_keeps h ⟨h.ordered.signed op hsig, rfl⟩
  · exact h.still (Still.refl s)

theorem mdbxAsyncWaitAll_keeps {s : State} (h : Inv s) (thread : Nat) (ops : List Nat) :
    Keeps s (mdbxAsyncWaitAll s thread ops) := by
  unfold mdbxAsyncWaitAll
  split_ifs with hc
  · exact await_keeps h (checked_caller h.ordered hc.1 hc.2)
  · exact h.still (Still.refl s)

theorem mdbxAsyncWaitReleaseAll_keeps {s : State} (h : Inv s) (thread : Nat) (ops : List Nat) :
    Keeps s (mdbxAsyncWaitReleaseAll s thread ops) := by
  unfold mdbxAsyncWaitReleaseAll
  split_ifs with hc
  · exact await_keeps h (checked_caller h.ordered hc.1 hc.2)
  · exact h.still (Still.refl s)

theorem mdbxAsyncDestroy_keeps {s : State} (h : Inv s) (thread : Nat) (drain : Bool) :
    Keeps s (mdbxAsyncDestroy s thread drain) := by
  unfold mdbxAsyncDestroy
  split_ifs
  · exact await_keeps h rfl
  · exact h.still (Still.refl s)
  · exact h.still (destroyTail_still s)

theorem of_guarded {p : Prop} [Decidable p] {s s' t : State}
    (hs : (if p then some t else none) = some s') (hk : Keeps s t) : Keeps s s' := by
  split_ifs at hs
  exact Option.some.inj hs ▸ hk

/-! ## 6. Steps and runs -/

theorem step_outcome {s s' : State} {e : Event} (h : Inv s) (ha : Awake s)
    (hs : step s e = some s') : Inv s' ∧ (Awake s' ↔ Lone s e) := by
  unfold step at hs
  by_cases hsig : s.signature = false
  · rw [if_pos hsig] at hs
    exact nomatch hs
  rw [if_neg hsig] at hs
  -- only the completion may leave a thread asleep
  have hcalm : Keeps s s' → Lone s e → Inv s' ∧ (Awake s' ↔ Lone s e) := fun hk hl =>
    ⟨hk.inv, fun _ => hl, fun _ => hk.awake ha⟩
  cases e with
  | submit signalled => exact hcalm (Option.some.inj hs ▸ asyncOpEnqueue_keeps h signalled) trivial
  | submitMany count signalled =>
    exact hcalm (Option.some.inj hs ▸ asyncOpsEnqueue_keeps h count signalled) trivial
  | wait thread op => exact hcalm (of_guarded hs (mdbxAsyncWait_keeps h thread op)) trivial
  | waitAll thread ops => exact hcalm (of_guarded hs (mdbxAsyncWaitAll_keeps h thread ops)) trivial
  | waitReleaseAll thread ops =>
    exact hcalm (of_guarded hs (mdbxAsyncWaitReleaseAll_keeps h thread ops)) trivial
  | release ops =>
    exact hcalm (Option.some.inj hs ▸ h.still (asyncOpsReleaseLocked_still s ops)) trivial
  | destroy thread drain =>
    exact hcalm (of_guarded hs (mdbxAsyncDestroy_keeps h thread drain)) trivial
  | free => exact hcalm (of_guarded hs (h.still (freed_still s))) trivial
  | spurious pick =>
    change (if s.blocked[pick]?.isSome then signalCaller s pick else none) = some s' at hs
    split_ifs at hs
    exact hcalm (signalCaller_keeps h hs) trivial
  | spuriousWorker => exact hcalm (Option.some.inj hs ▸ h.still (signalWorker_still s)) trivial
  | resume i ok => exact hcalm (resume_keeps h hs) trivial
  | workerWakes ok => exact hcalm (workerWakes_keeps h hs) trivial
  | complete n pick => exact complete_outcome h hs

theorem create_inv : Inv create where
  ordered := ⟨List.Pairwise.nil, fun _ h => (nomatch h), fun _ h => absurd h (Nat.not_lt_zero _),
    fun _ h => absurd h (Nat.not_lt_zero _), fun _ h => absurd h (Nat.not_lt_zero _),
    fun _ h => (nomatch h), Nat.le_refl _⟩
  counted := ⟨rfl, rfl, fun _ h => nomatch h⟩
  callers := fun _ h => nomatch h
  busy := ⟨fun h => (nomatch h), fun h => absurd rfl h⟩
  full := fun h => nomatch h

theorem create_awake : Awake create := fun _ _ h => nomatch h

/-- In every state along the events from `s`, no served thread sleeps beside an idle worker. -/
def AllAwake (s : State) : List Event → Prop
  | [] => Awake s
  | e :: es => Awake s ∧ ∀ s', step s e = some s' → AllAwake s' es

/-- Every event meets the condition in the state it comes to. -/
def AllLone (s : State) : List Event → Prop
  | [] => True
  | e :: es => ∀ s', step s e = some s' → Lone s e ∧ AllLone s' es

theorem allAwake_iff {s : State} (h : Inv s) (ha : Awake s) (es : List Event) :
    AllAwake s es ↔ AllLone s es := by
  induction es generalizing s with
  | nil => exact ⟨fun _ => trivial, fun _ => ha⟩
  | cons e es ih =>
    constructor
    · intro hall s' hs
      have ⟨hinv, hiff⟩ := step_outcome h ha hs
      have hall' := hall.2 s' hs
      have ha' : Awake s' := by
        cases es with
        | nil => exact hall'
        | cons _ _ => exact hall'.1
      exact ⟨hiff.mp ha', (ih hinv ha').mp hall'⟩
    · intro hall
      refine ⟨ha, fun s' hs => ?_⟩
      have ⟨hinv, hiff⟩ := step_outcome h ha hs
      have ⟨hl, hrest⟩ := hall s' hs
      exact (ih hinv (hiff.mpr hl)).mpr hrest

/-- Over every interleaving of the calls with the worker: no served thread is ever left asleep
beside an idle worker if and only if, each time the worker completes its snapshot with nothing new
in the queue, at most one thread is blocked. -/
theorem waiters_awake_iff (es : List Event) : AllAwake create es ↔ AllLone create es :=
  allAwake_iff create_inv create_awake es

-- two threads wait for one operation: the worker signals once, is idle, and one of them sleeps on
theorem two_waiters_one_asleep :
    ∃ s, exec create
        [.submit true, .wait 1 0, .wait 2 0, .workerWakes true, .complete 1 0] = some s ∧
      Idle s ∧ ∃ w ∈ s.blocked, Served s w :=
  ⟨_, rfl, ⟨rfl, rfl⟩, ⟨2, .wait 0, 1⟩, List.mem_cons_self, Or.inr (Nat.le_refl 1)⟩

end Mdbx.Async
