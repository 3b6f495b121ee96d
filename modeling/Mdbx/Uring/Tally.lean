import Mdbx.Uring.Runs
import Mathlib.Data.List.Count

/-!
# Uring.Tally — which requests of a read batch were counted as completed

A step counts the requests it refuses for their size, the ones it writes off after a failed
submission, and the ones whose completions it consumes.
-/

namespace Mdbx.Uring

/-! ## 1. Counted requests -/

/-- The requests from `i` on that the preparing loop refuses. -/
def refused (b : Nat) : List Nat → Nat → Nat → List (Nat × Nat)
  | [], _, _ => []
  | _ :: _, 0, _ => []
  | bytes :: rest, space + 1, i =>
    if uint32Max < bytes then (b, i) :: refused b rest (space + 1) (i + 1)
    else refused b rest space (i + 1)

/-- The request a consumed completion is counted for. -/
def credited (live : List Nat) (c : Cqe) : Option (Nat × Nat) :=
  match c.entry.userData with
  | .item b i => if b ∈ live then some (b, i) else none
  | .buf _ => none

/-- The requests that a step counts as completed, in the order in which it does. -/
def counted (entries : Nat) (s : State) : Event → List (Nat × Nat)
  | .drive b _ =>
    if (s.batches b).ios.length ≤ (s.batches b).finished ∨
      (s.batches b).ios.length ≤ (s.batches b).completed then []
    else refused b ((s.batches b).ios.drop (s.batches b).submitted) (entries - s.sq.length)
      (s.batches b).submitted
  | .enter res =>
    match s.pc with
    | .driveSubmit d prepared got =>
      if res ≤ 0 then
        (List.range' ((s.batches d.batch).submitted - prepared + got) (prepared - got)).map
          fun i => (d.batch, i)
      else []
    | _ => []
  | .load =>
    match s.pc with
    | .drivePoll _ | .driveLook _ | .driveAgain _ => s.cq.filterMap (credited s.live)
    | _ => []
  | _ => []

/-- The request is answered in full or its result carries an error. -/
def ReadResult.Settled (r : ReadResult) (bytes : Nat) : Prop :=
  r = dxbReadCompleted bytes ∨ r.err ≠ mdbxSuccess

/-! ## 2. One batch -/

/-- Batch `b` with the entries `p` in the rings when the requests in `done` were counted. -/
structure Counted (p : List Entry) (done : List (Nat × Nat)) (b : Nat) (t : Batch) : Prop where
  tally : t.completed = done.countP fun r => r.1 = b
  range : ∀ e ∈ p, e.op = b → e.index < t.submitted
  split : ∀ i, (b, i) ∈ done ↔ i < t.submitted ∧ ∀ e ∈ p, e.request ≠ (b, i)
  waiting : ∀ e ∈ p, e.op = b → (t.results e.index).err = mdbxSuccess
  settled : ∀ i, (b, i) ∈ done → (t.results i).Settled (t.ios.getD i 0)
  firstErr : t.firstErr ≠ mdbxSuccess ↔ ∃ i < t.submitted, (t.results i).err ≠ mdbxSuccess
  behind : t.finished ≤ t.completed
  copied : t.finished = t.ios.length →
    t.submitted = t.ios.length ∧ t.completed = t.ios.length ∧ t.reported = t.firstErr

variable {p p' : List Entry} {done : List (Nat × Nat)} {b : Nat} {t : Batch}

theorem Counted.perm (h : Counted p done b t) (hp : p.Perm p') : Counted p' done b t where
  tally := h.tally
  range := fun e he => h.range e (hp.mem_iff.mpr he)
  split := fun i => (h.split i).trans (and_congr_right fun _ =>
    ⟨fun hall e he => hall e (hp.mem_iff.mpr he), fun hall e he => hall e (hp.mem_iff.mp he)⟩)
  waiting := fun e he => h.waiting e (hp.mem_iff.mpr he)
  settled := h.settled
  firstErr := h.firstErr
  behind := h.behind
  copied := h.copied

-- entries and requests of other batches are no concern of this one
theorem Counted.append {new : List Entry} {more : List (Nat × Nat)} (h : Counted p done b t)
    (hnew : ∀ e ∈ new, e.op ≠ b) (hmore : ∀ r ∈ more, r.1 ≠ b) :
    Counted (p ++ new) (done ++ more) b t where
  tally := by
    have hnone : more.countP (fun r => r.1 = b) = 0 :=
      List.countP_eq_zero.mpr fun r hr => by simpa using hmore r hr
    rw [List.countP_append, hnone]
    exact h.tally
  range := fun e he hop => by
    rcases List.mem_append.mp he with he | he
    · exact h.range e he hop
    · exact absurd hop (hnew e he)
  split := fun i => by
    have hleft : (b, i) ∈ done ++ more ↔ (b, i) ∈ done :=
      ⟨fun hm => (List.mem_append.mp hm).resolve_right fun hr => hmore _ hr rfl,
        List.mem_append_left _⟩
    rw [hleft, h.split i]
    refine and_congr_right fun _ => ⟨fun hall e he => ?_,
      fun hall e he => hall e (List.mem_append_left _ he)⟩
    rcases List.mem_append.mp he with he | he
    · exact hall e he
    · exact fun hreq => hnew e he (congrArg Prod.fst hreq)
  waiting := fun e he hop => by
    rcases List.mem_append.mp he with he | he
    · exact h.waiting e he hop
    · exact absurd hop (hnew e he)
  settled := fun i hi =>
    h.settled i ((List.mem_append.mp hi).resolve_right fun hr => hmore _ hr rfl)
  firstErr := h.firstErr
  behind := h.behind
  copied := h.copied

theorem Counted.fresh (hp : ∀ e ∈ p, e.op ≠ b) (hdone : ∀ r ∈ done, r.1 ≠ b) {ios : List Nat}
    (hios : ios ≠ []) : Counted p done b { noBatch with ios := ios } where
  tally := by
    have hnone : done.countP (fun r => r.1 = b) = 0 :=
      List.countP_eq_zero.mpr fun r hr => by simpa using hdone r hr
    rw [hnone]
    rfl
  range := fun e he hop => absurd hop (hp e he)
  split := fun i =>
    ⟨fun hm => absurd rfl (hdone _ hm), fun hm => absurd hm.1 (Nat.not_lt_zero i)⟩
  waiting := fun e he hop => absurd hop (hp e he)
  settled := fun i hi => absurd rfl (hdone _ hi)
  firstErr := ⟨fun hne => absurd rfl hne, fun ⟨i, hi, _⟩ => absurd hi (Nat.not_lt_zero i)⟩
  behind := Nat.le_refl 0
  copied := fun hlen => absurd (List.length_eq_zero_iff.mp hlen.symm) hios

/-! ## 3. The preparing loop -/

theorem countP_snoc (done : List (Nat × Nat)) (b i : Nat) :
    (done ++ [(b, i)]).countP (fun r => r.1 = b) = (done.countP fun r => r.1 = b) + 1 := by
  rw [List.countP_append, List.countP_singleton]
  simp

theorem mem_snoc {done : List (Nat × Nat)} {b i k : Nat} :
    (b, k) ∈ done ++ [(b, i)] ↔ (b, k) ∈ done ∨ k = i := by
  rw [List.mem_append, List.mem_singleton, Prod.mk.injEq]
  simp

theorem Batch.refuse_finished (t : Batch) : t.refuse.finished = t.finished :=
  Batch.fail_finished _ _

theorem Batch.refuse_results (t : Batch) :
    t.refuse.results = Function.update t.results t.submitted (dxbReadError mdbxEinval) :=
  Batch.fail_results _ _

theorem Batch.refuse_firstErr (t : Batch) : t.refuse.firstErr ≠ mdbxSuccess :=
  Batch.fail_firstErr _ (by decide)

theorem Counted.refuse (h : Counted p done b t) (hlt : t.submitted < t.ios.length) :
    Counted p (done ++ [(b, t.submitted)]) b t.refuse where
  tally := by rw [Batch.refuse_completed, countP_snoc, h.tally]
  range := fun e he hop => by
    rw [Batch.refuse_submitted]
    exact Nat.lt_succ_of_lt (h.range e he hop)
  split := fun i => by
    rw [mem_snoc, h.split i, Batch.refuse_submitted]
    constructor
    · intro hm
      rcases hm with ⟨hi, hall⟩ | rfl
      · exact ⟨Nat.lt_succ_of_lt hi, hall⟩
      · refine ⟨Nat.lt_succ_self _, fun e he hreq => ?_⟩
        have hidx : e.index = t.submitted := congrArg Prod.snd hreq
        have := h.range e he (congrArg Prod.fst hreq)
        omega
    · intro ⟨hi, hall⟩
      rcases Nat.lt_succ_iff_lt_or_eq.mp hi with hi | hi
      · exact Or.inl ⟨hi, hall⟩
      · exact Or.inr hi
  waiting := fun e he hop => by
    have hne : e.index ≠ t.submitted := Nat.ne_of_lt (h.range e he hop)
    rw [Batch.refuse_results, Function.update_of_ne hne]
    exact h.waiting e he hop
  settled := fun i hi => by
    rw [Batch.refuse_results, Batch.refuse_ios]
    by_cases hit : i = t.submitted
    · rw [hit, Function.update_self]
      exact Or.inr (by decide)
    · rw [Function.update_of_ne hit]
      exact h.settled i ((mem_snoc.mp hi).resolve_right hit)
  firstErr := by
    refine iff_of_true t.refuse_firstErr ⟨t.submitted, ?_, ?_⟩
    · rw [Batch.refuse_submitted]
      omega
    · rw [Batch.refuse_results, Function.update_self]
      decide
  behind := by
    have hle := h.behind
    rw [Batch.refuse_finished, Batch.refuse_completed]
    omega
  copied := fun hlen => by
    rw [Batch.refuse_ios, Batch.refuse_finished] at hlen
    have hsub := (h.copied hlen).1
    omega

theorem Counted.queue (h : Counted p done b t) (hlt : t.submitted < t.ios.length) (len : Nat) :
    Counted (p ++ [⟨b, t.submitted, .item b t.submitted, len⟩]) done b t.queue where
  tally := h.tally
  range := fun e he hop => by
    change e.index < t.submitted + 1
    rcases List.mem_append.mp he with he | he
    · exact Nat.lt_succ_of_lt (h.range e he hop)
    · rw [List.mem_singleton.mp he]
      exact Nat.lt_succ_self _
  split := fun i => by
    change _ ↔ i < t.submitted + 1 ∧ _
    rw [h.split i]
    constructor
    · intro ⟨hi, hall⟩
      refine ⟨Nat.lt_succ_of_lt hi, fun e he => ?_⟩
      rcases List.mem_append.mp he with he | he
      · exact hall e he
      · rw [List.mem_singleton.mp he]
        intro hreq
        have hidx : t.submitted = i := congrArg Prod.snd hreq
        omega
    · intro ⟨hi, hall⟩
      have hne := hall _ (List.mem_append_right p (List.mem_singleton_self _))
      refine ⟨Nat.lt_of_le_of_ne (Nat.lt_succ_iff.mp hi) fun heq => hne ?_,
        fun e he => hall e (List.mem_append_left _ he)⟩
      rw [heq]
      rfl
  waiting := fun e he hop => by
    change (Function.update t.results t.submitted _ e.index).err = mdbxSuccess
    rcases List.mem_append.mp he with he | he
    · rw [Function.update_of_ne (Nat.ne_of_lt (h.range e he hop))]
      exact h.waiting e he hop
    · rw [List.mem_singleton.mp he, Function.update_self]
  settled := fun i hi => by
    have hne : i ≠ t.submitted := Nat.ne_of_lt ((h.split i).mp hi).1
    change (Function.update t.results t.submitted _ i).Settled (t.ios.getD i 0)
    rw [Function.update_of_ne hne]
    exact h.settled i hi
  firstErr := by
    change _ ↔ ∃ i < t.submitted + 1, (Function.update t.results t.submitted _ i).err ≠ mdbxSuccess
    rw [show t.queue.firstErr = t.firstErr from rfl, h.firstErr]
    constructor
    · intro ⟨i, hi, herr⟩
      exact ⟨i, Nat.lt_succ_of_lt hi, by rw [Function.update_of_ne (Nat.ne_of_lt hi)]; exact herr⟩
    · intro ⟨i, hi, herr⟩
      rcases Nat.lt_succ_iff_lt_or_eq.mp hi with hi | hi
      · rw [Function.update_of_ne (Nat.ne_of_lt hi)] at herr
        exact ⟨i, hi, herr⟩
      · rw [hi, Function.update_self] at herr
        exact absurd rfl herr
  behind := h.behind
  copied := fun hlen => by
    have hsub := (h.copied hlen).1
    omega

theorem prepare_counted (rest : List Nat) (space : Nat) (t : Batch) (acc : List Entry)
    (done : List (Nat × Nat)) (hrest : rest.length + t.submitted = t.ios.length)
    (h : Counted (p ++ acc) done b t) :
    Counted (p ++ (prepare b rest space t acc).2) (done ++ refused b rest space t.submitted) b
      (prepare b rest space t acc).1 := by
  induction rest generalizing space t acc done with
  | nil =>
    unfold prepare refused
    rw [List.append_nil]
    exact h
  | cons bytes rest ih =>
    have hlen : rest.length + (t.submitted + 1) = t.ios.length := by
      rw [List.length_cons] at hrest
      omega
    have hlt : t.submitted < t.ios.length := by omega
    cases space with
    | zero =>
      unfold prepare refused
      rw [List.append_nil]
      exact h
    | succ space =>
      unfold prepare refused
      split_ifs with hbig
      · have hnext := ih (space + 1) t.refuse acc (done ++ [(b, t.submitted)])
          (by rw [Batch.refuse_submitted, Batch.refuse_ios]; exact hlen) (h.refuse hlt)
        rw [Batch.refuse_submitted, List.append_assoc] at hnext
        exact hnext
      · have hqueue := h.queue hlt bytes
        rw [List.append_assoc] at hqueue
        exact ih space t.queue _ done hlen hqueue

theorem refused_batch (rest : List Nat) (space i : Nat) :
    ∀ r ∈ refused b rest space i, r.1 = b ∧ i ≤ r.2 := by
  induction rest generalizing space i with
  | nil => exact fun r hr => nomatch hr
  | cons bytes rest ih =>
    cases space with
    | zero => exact fun r hr => nomatch hr
    | succ space =>
      intro r hr
      unfold refused at hr
      split_ifs at hr with hbig
      · rcases List.mem_cons.mp hr with rfl | hr
        · exact ⟨rfl, Nat.le_refl _⟩
        · have hnext := ih (space + 1) (i + 1) r hr
          exact ⟨hnext.1, by omega⟩
      · have hnext := ih space (i + 1) r hr
        exact ⟨hnext.1, by omega⟩

theorem refused_nodup (rest : List Nat) (space i : Nat) : (refused b rest space i).Nodup := by
  induction rest generalizing space i with
  | nil => exact List.nodup_nil
  | cons bytes rest ih =>
    cases space with
    | zero => exact List.nodup_nil
    | succ space =>
      unfold refused
      split_ifs with hbig
      · refine List.nodup_cons.mpr ⟨fun hm => ?_, ih (space + 1) (i + 1)⟩
        have hle := (refused_batch rest (space + 1) (i + 1) _ hm).2
        change i + 1 ≤ i at hle
        omega
      · exact ih space (i + 1)

-- with a free slot and a request left, the loop gets on
theorem prepare_advances {rest : List Nat} {space : Nat} (t : Batch) (acc : List Entry)
    (hrest : rest = t.ios.drop t.submitted) (hsome : t.submitted < t.ios.length)
    (hspace : 0 < space) : t.submitted < (prepare b rest space t acc).1.submitted := by
  have hsplit := List.drop_eq_getElem_cons hsome
  rw [← hrest] at hsplit
  cases space with
  | zero => exact absurd hspace (Nat.lt_irrefl 0)
  | succ space =>
    rw [hsplit]
    unfold prepare
    split_ifs with hbig
    · obtain ⟨_, _, hp, _⟩ := prepare_spec b (t.ios.drop (t.submitted + 1)) (space + 1) t.refuse acc
        (by rw [Batch.refuse_ios, Batch.refuse_submitted])
        (by rw [Batch.refuse_ios, Batch.refuse_submitted]; exact hsome)
      have hle := hp.le
      rw [Batch.refuse_submitted] at hle
      exact hle
    · obtain ⟨_, _, hp, _⟩ := prepare_spec b (t.ios.drop (t.submitted + 1)) space t.queue
        (acc ++ [⟨b, t.submitted, .item b t.submitted, t.ios[t.submitted]⟩]) rfl hsome
      exact hp.le

/-! ## 4. Completions -/

structure Answered (t t' : Batch) (i : Nat) : Prop where
  firstErr : t'.firstErr ≠ mdbxSuccess ↔
    t.firstErr ≠ mdbxSuccess ∨ (t'.results i).err ≠ mdbxSuccess
  self : (t'.results i).Settled (t.ios.getD i 0)
  other : ∀ k, k ≠ i → t'.results k = t.results k

theorem Batch.itemResult_err (t : Batch) (i : Nat) (res : Int) :
    (t.itemResult i res).err = t.itemErr i res := by
  unfold Batch.itemResult
  split_ifs with h0
  · exact h0.symm
  · rfl

theorem Batch.itemResult_settled (t : Batch) (i : Nat) (res : Int) :
    (t.itemResult i res).Settled (t.ios.getD i 0) := by
  by_cases h0 : t.itemErr i res = mdbxSuccess
  · apply Or.inl
    unfold Batch.itemResult
    rw [if_pos h0, Batch.itemErr_success h0]
    rfl
  · exact Or.inr (by rw [Batch.itemResult_err]; exact h0)

theorem Batch.take_answered (t : Batch) (i : Nat) (res : Int) : Answered t (t.take i res) i := by
  have hres : (t.take i res).results = Function.update t.results i (t.itemResult i res) := by
    unfold Batch.take
    split_ifs
    · exact Batch.fail_results _ _
    · rfl
  refine ⟨?_, ?_, fun k hk => ?_⟩
  · rw [hres, Function.update_self, Batch.itemResult_err]
    unfold Batch.take
    split_ifs with herr
    · exact iff_of_true (Batch.fail_firstErr _ herr) (Or.inr herr)
    · exact ⟨Or.inl, fun h => h.resolve_right herr⟩
  · rw [hres, Function.update_self]
    exact t.itemResult_settled i res
  · rw [hres, Function.update_of_ne hk]

theorem Counted.take {e : Entry} {t' : Batch} {res : Int} (h : Counted (e :: p) done b t)
    (he : e.op = b) (hnodup : ((e :: p).map Entry.request).Nodup)
    (hlt : t.completed < t.ios.length) (ht : Taken t t' e.index res)
    (ha : Answered t t' e.index) : Counted p (done ++ [(b, e.index)]) b t' where
  tally := by rw [ht.completed, countP_snoc, h.tally]
  range := fun k hk hop => by
    rw [ht.submitted]
    exact h.range k (List.mem_cons_of_mem e hk) hop
  split := fun i => by
    have hreq : e.request = (b, e.index) := by rw [← he]; rfl
    rw [mem_snoc, h.split i, ht.submitted]
    constructor
    · intro hm
      rcases hm with ⟨hi, hall⟩ | rfl
      · exact ⟨hi, fun k hk => hall k (List.mem_cons_of_mem e hk)⟩
      · refine ⟨h.range e List.mem_cons_self he, fun k hk heq => ?_⟩
        exact (List.nodup_cons.mp hnodup).1
          (List.mem_map.mpr ⟨k, hk, heq.trans hreq.symm⟩)
    · intro ⟨hi, hall⟩
      by_cases hie : i = e.index
      · exact Or.inr hie
      · refine Or.inl ⟨hi, fun k hk heq => ?_⟩
        rcases List.mem_cons.mp hk with rfl | hk
        · exact hie (congrArg Prod.snd heq).symm
        · exact hall k hk heq
  waiting := fun k hk hop => by
    have hne : k.index ≠ e.index := fun hidx =>
      (List.nodup_cons.mp hnodup).1 (List.mem_map.mpr ⟨k, hk,
        Prod.ext (hop.trans he.symm) hidx⟩)
    rw [ha.other _ hne]
    exact h.waiting k (List.mem_cons_of_mem e hk) hop
  settled := fun i hi => by
    rw [ht.ios]
    by_cases hie : i = e.index
    · rw [hie]
      exact ha.self
    · rw [ha.other i hie]
      exact h.settled i ((mem_snoc.mp hi).resolve_right hie)
  firstErr := by
    have hin := h.range e List.mem_cons_self he
    rw [ha.firstErr, h.firstErr, ht.submitted]
    constructor
    · intro hm
      rcases hm with ⟨i, hi, herr⟩ | herr
      · have hne : i ≠ e.index := fun hie => herr (hie ▸ h.waiting e List.mem_cons_self he)
        exact ⟨i, hi, by rw [ha.other i hne]; exact herr⟩
      · exact ⟨e.index, hin, herr⟩
    · intro ⟨i, hi, herr⟩
      by_cases hie : i = e.index
      · exact Or.inr (hie ▸ herr)
      · rw [ha.other i hie] at herr
        exact Or.inl ⟨i, hi, herr⟩
  behind := by
    have hle := h.behind
    rw [ht.finished, ht.completed]
    omega
  copied := fun hlen => by
    rw [ht.finished, ht.ios] at hlen
    have hcomp := (h.copied hlen).2.1
    omega

end Mdbx.Uring
