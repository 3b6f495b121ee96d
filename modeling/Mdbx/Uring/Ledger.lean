import Mdbx.Uring.Model
import Mathlib.Data.List.Nodup
import Mathlib.Data.List.Perm.Basic
import Mathlib.Logic.Function.Basic

/-!
# Uring.Ledger — what is outstanding and what was credited

The entries in the three rings are one collection; operations only add to it, move entries inside it
and take completions out of it.
-/

namespace Mdbx.Uring

/-! ## 1. The ledger -/

/-- The request was credited with the result it asks for. -/
def Exact (credits : List Credit) (op i len : Nat) : Prop :=
  ∃ c ∈ credits, c.cqe.entry.request = (op, i) ∧ c.cqe.res = len

theorem Exact.cons {credits : List Credit} {op i len : Nat} (h : Exact credits op i len)
    (c : Credit) : Exact (c :: credits) op i len := by
  have ⟨k, hk, heq⟩ := h
  exact ⟨k, List.mem_cons_of_mem c hk, heq⟩

structure BatchOk (p : List Entry) (credits : List Credit) (b : Nat) (t : Batch) : Prop where
  nonempty : t.ios ≠ []
  counted : t.completed + p.countP (fun e => e.op = b) = t.submitted
  le : t.submitted ≤ t.ios.length
  range : ∀ e ∈ p, e.op = b →
    e.index < t.submitted ∧ e.userData = .item b e.index ∧ e.len = t.ios.getD e.index 0
  past : ∀ c ∈ credits, c.cqe.entry.op = b → c.cqe.entry.index < t.submitted
  honest : t.firstErr = mdbxSuccess → ∀ i < t.submitted,
    (∃ e ∈ p, e.request = (b, i)) ∨ Exact credits b i (t.ios.getD i 0)
  copied : t.finished = t.ios.length → t.reported = mdbxSuccess →
    ∀ i < t.ios.length, Exact credits b i (t.ios.getD i 0)

/-- The state of the requests when the entries `p` are in the rings, in whatever order. -/
structure Ledger (p : List Entry) (batches : Nat → Batch) (live : List Nat) (nextOp : Nat)
    (credits : List Credit) (returned : List Return) : Prop where
  nodup : (p.map Entry.request ++ credits.map fun c => c.cqe.entry.request).Nodup
  own : ∀ c ∈ credits, c.taken = some c.cqe.entry.request
  boundEntry : ∀ e ∈ p, e.op < nextOp
  boundCredit : ∀ c ∈ credits, c.cqe.entry.op < nextOp
  boundReturn : ∀ r ∈ returned, r.op < nextOp
  boundLive : ∀ b ∈ live, b < nextOp
  liveNodup : live.Nodup
  batch : ∀ b ∈ live, BatchOk p credits b (batches b)
  results : ∀ b i, ((batches b).results i).completed = true →
    Exact credits b i ((batches b).ios.getD i 0)
  gone : ∀ r ∈ returned, (∀ e ∈ p, e.op ≠ r.op) ∧ r.op ∉ live
  done : ∀ r ∈ returned, r.rc = mdbxSuccess →
    ∀ i < r.lens.length, Exact credits r.op i (r.lens.getD i 0)

variable {p p' : List Entry} {batches : Nat → Batch} {live : List Nat} {nextOp : Nat}
  {credits : List Credit} {returned : List Return}

theorem BatchOk.perm {b : Nat} {t : Batch} (h : BatchOk p credits b t) (hp : p.Perm p') :
    BatchOk p' credits b t where
  nonempty := h.nonempty
  counted := hp.countP_eq _ ▸ h.counted
  le := h.le
  range := fun e he => h.range e (hp.mem_iff.mpr he)
  past := h.past
  honest := fun h0 i hi => (h.honest h0 i hi).imp_left fun ⟨e, he, heq⟩ =>
    ⟨e, hp.mem_iff.mp he, heq⟩
  copied := h.copied

theorem Ledger.perm (h : Ledger p batches live nextOp credits returned) (hp : p.Perm p') :
    Ledger p' batches live nextOp credits returned where
  nodup := ((hp.map _).append_right _).nodup_iff.mp h.nodup
  own := h.own
  boundEntry := fun e he => h.boundEntry e (hp.mem_iff.mpr he)
  boundCredit := h.boundCredit
  boundReturn := h.boundReturn
  boundLive := h.boundLive
  liveNodup := h.liveNodup
  batch := fun b hb => (h.batch b hb).perm hp
  results := h.results
  gone := fun r hr => ⟨fun e he => (h.gone r hr).1 e (hp.mem_iff.mpr he), (h.gone r hr).2⟩
  done := h.done

/-! ## 2. Single operations -/

theorem Ledger.place (h : Ledger [] batches [] nextOp credits returned) {e : Entry}
    (he : e.op = nextOp) : Ledger [e] batches [] (nextOp + 1) credits returned where
  nodup := by
    apply List.nodup_append.mpr
    refine ⟨List.nodup_singleton _, (List.nodup_append.mp h.nodup).2.1, fun a ha b hb heq => ?_⟩
    have ⟨c, hc, hcb⟩ := List.mem_map.mp hb
    have hlt := h.boundCredit c hc
    have hreq : e.request = c.cqe.entry.request := by
      rw [hcb, ← heq]
      exact (List.mem_singleton.mp ha).symm
    have hop := congrArg Prod.fst hreq
    change e.op = c.cqe.entry.op at hop
    omega
  own := h.own
  boundEntry := fun k hk => by rw [List.mem_singleton.mp hk, he]; omega
  boundCredit := fun c hc => Nat.lt_succ_of_lt (h.boundCredit c hc)
  boundReturn := fun r hr => Nat.lt_succ_of_lt (h.boundReturn r hr)
  boundLive := fun b hb => nomatch hb
  liveNodup := List.nodup_nil
  batch := fun b hb => nomatch hb
  results := h.results
  gone := fun r hr => ⟨fun k hk => by
    rw [List.mem_singleton.mp hk, he]
    exact Nat.ne_of_gt (h.boundReturn r hr), List.not_mem_nil⟩
  done := h.done

-- a completion is taken for the request it belongs to
theorem Ledger.nodup_credit {e : Entry} {res : Int}
    (h : ((e :: p).map Entry.request ++ credits.map fun c => c.cqe.entry.request).Nodup) :
    (p.map Entry.request ++
      ((⟨some e.request, e, res⟩ :: credits : List Credit).map fun c => c.cqe.entry.request)).Nodup :=
  (List.perm_middle (a := e.request)).nodup_iff.mpr h

theorem Ledger.take {e : Entry} (h : Ledger [e] batches [] nextOp credits returned) (res : Int) :
    Ledger [] batches [] nextOp (⟨some e.request, e, res⟩ :: credits) returned where
  nodup := Ledger.nodup_credit h.nodup
  own := fun c hc => by
    rcases List.mem_cons.mp hc with rfl | hc
    · rfl
    · exact h.own c hc
  boundEntry := fun k hk => nomatch hk
  boundCredit := fun c hc => by
    rcases List.mem_cons.mp hc with rfl | hc
    · exact h.boundEntry e List.mem_cons_self
    · exact h.boundCredit c hc
  boundReturn := h.boundReturn
  boundLive := h.boundLive
  liveNodup := h.liveNodup
  batch := fun b hb => nomatch hb
  results := fun b i hc => (h.results b i hc).cons _
  gone := fun r hr => ⟨fun k hk => (nomatch hk), (h.gone r hr).2⟩
  done := fun r hr h0 i hi => (h.done r hr h0 i hi).cons _

theorem Ledger.return (h : Ledger p batches live nextOp credits returned) {r : Return}
    (hlt : r.op < nextOp) (hp : ∀ e ∈ p, e.op ≠ r.op) (hlive : r.op ∉ live)
    (hdone : r.rc = mdbxSuccess → ∀ i < r.lens.length, Exact credits r.op i (r.lens.getD i 0)) :
    Ledger p batches live nextOp credits (r :: returned) where
  nodup := h.nodup
  own := h.own
  boundEntry := h.boundEntry
  boundCredit := h.boundCredit
  boundReturn := fun k hk => by
    rcases List.mem_cons.mp hk with rfl | hk
    · exact hlt
    · exact h.boundReturn k hk
  boundLive := h.boundLive
  liveNodup := h.liveNodup
  batch := h.batch
  results := h.results
  gone := fun k hk => by
    rcases List.mem_cons.mp hk with rfl | hk
    · exact ⟨hp, hlive⟩
    · exact h.gone k hk
  done := fun k hk => by
    rcases List.mem_cons.mp hk with rfl | hk
    · exact hdone
    · exact h.done k hk

-- an operation number is used up
theorem Ledger.skip (h : Ledger p batches live nextOp credits returned) :
    Ledger p batches live (nextOp + 1) credits returned where
  nodup := h.nodup
  own := h.own
  boundEntry := fun e he => Nat.lt_succ_of_lt (h.boundEntry e he)
  boundCredit := fun c hc => Nat.lt_succ_of_lt (h.boundCredit c hc)
  boundReturn := fun r hr => Nat.lt_succ_of_lt (h.boundReturn r hr)
  boundLive := fun b hb => Nat.lt_succ_of_lt (h.boundLive b hb)
  liveNodup := h.liveNodup
  batch := h.batch
  results := h.results
  gone := h.gone
  done := h.done

/-! ## 3. Fields of a batch -/

@[simp] theorem Batch.fail_ios (t : Batch) (err : Int) : (t.fail err).ios = t.ios := by
  unfold Batch.fail; split <;> rfl

@[simp] theorem Batch.fail_results (t : Batch) (err : Int) : (t.fail err).results = t.results := by
  unfold Batch.fail; split <;> rfl

@[simp] theorem Batch.fail_submitted (t : Batch) (err : Int) :
    (t.fail err).submitted = t.submitted := by
  unfold Batch.fail; split <;> rfl

@[simp] theorem Batch.fail_completed (t : Batch) (err : Int) :
    (t.fail err).completed = t.completed := by
  unfold Batch.fail; split <;> rfl

@[simp] theorem Batch.fail_finished (t : Batch) (err : Int) :
    (t.fail err).finished = t.finished := by
  unfold Batch.fail; split <;> rfl

@[simp] theorem Batch.fail_reported (t : Batch) (err : Int) :
    (t.fail err).reported = t.reported := by
  unfold Batch.fail; split <;> rfl

-- a recorded error stays
theorem Batch.fail_firstErr (t : Batch) {err : Int} (herr : err ≠ mdbxSuccess) :
    (t.fail err).firstErr ≠ mdbxSuccess := by
  unfold Batch.fail
  split_ifs with h
  · exact herr
  · exact h

theorem Batch.itemErr_success {t : Batch} {i : Nat} {res : Int}
    (h : t.itemErr i res = mdbxSuccess) : res = t.ios.getD i 0 := by
  unfold Batch.itemErr at h
  split_ifs at h with hneg hne
  · change -res = 0 at h
    omega
  · exact absurd h (by decide)
  · exact not_not.mp hne

structure Taken (t t' : Batch) (i : Nat) (res : Int) : Prop where
  ios : t'.ios = t.ios
  submitted : t'.submitted = t.submitted
  completed : t'.completed = t.completed + 1
  finished : t'.finished = t.finished
  reported : t'.reported = t.reported
  firstErr : t'.firstErr = mdbxSuccess → t.firstErr = mdbxSuccess ∧ res = t.ios.getD i 0
  results : ∀ k, (t'.results k).completed = true →
    (t.results k).completed = true ∨ (k = i ∧ res = t.ios.getD i 0)

theorem Batch.take_taken (t : Batch) (i : Nat) (res : Int) : Taken t (t.take i res) i res := by
  have hresult : ∀ k, (Function.update t.results i (t.itemResult i res) k).completed = true →
      (t.results k).completed = true ∨ (k = i ∧ res = t.ios.getD i 0) := by
    intro k hk
    by_cases hki : k = i
    · subst hki
      rw [Function.update_self] at hk
      unfold Batch.itemResult at hk
      split_ifs at hk with h0
      · exact Or.inr ⟨rfl, Batch.itemErr_success h0⟩
      · exact nomatch hk
    · rw [Function.update_of_ne hki] at hk
      exact Or.inl hk
  unfold Batch.take
  split_ifs with herr
  · exact ⟨Batch.fail_ios _ _, Batch.fail_submitted _ _, Batch.fail_completed _ _,
      Batch.fail_finished _ _, Batch.fail_reported _ _,
      fun h => absurd h (Batch.fail_firstErr _ herr),
      fun k hk => hresult k (by rw [Batch.fail_results] at hk; exact hk)⟩
  · exact ⟨rfl, rfl, rfl, rfl, rfl, fun h => ⟨h, Batch.itemErr_success (not_not.mp herr)⟩, hresult⟩

/-! ## 4. Completions of batches -/

theorem BatchOk.other {e : Entry} {b : Nat} {t : Batch} (h : BatchOk (e :: p) credits b t)
    (hne : e.op ≠ b) {c : Credit} (hc : c.cqe.entry = e) : BatchOk p (c :: credits) b t where
  nonempty := h.nonempty
  counted := by
    have hcount := h.counted
    rw [List.countP_cons_of_neg (by simpa using hne)] at hcount
    exact hcount
  le := h.le
  range := fun k hk => h.range k (List.mem_cons_of_mem e hk)
  past := fun k hk hop => by
    rcases List.mem_cons.mp hk with rfl | hk
    · exact absurd (hc ▸ hop) hne
    · exact h.past k hk hop
  honest := fun h0 i hi => by
    rcases h.honest h0 i hi with ⟨k, hk, hreq⟩ | hex
    · rcases List.mem_cons.mp hk with rfl | hk
      · exact absurd (congrArg Prod.fst hreq) hne
      · exact Or.inl ⟨k, hk, hreq⟩
    · exact Or.inr (hex.cons c)
  copied := fun hf hr i hi => (h.copied hf hr i hi).cons c

theorem BatchOk.take {e : Entry} {b : Nat} {t t' : Batch} {res : Int}
    (h : BatchOk (e :: p) credits b t) (he : e.op = b) (ht : Taken t t' e.index res) :
    BatchOk p (⟨some e.request, e, res⟩ :: credits) b t' where
  nonempty := by rw [ht.ios]; exact h.nonempty
  counted := by
    have hcount := h.counted
    rw [List.countP_cons_of_pos (by simpa using he)] at hcount
    rw [ht.completed, ht.submitted]
    omega
  le := by rw [ht.ios, ht.submitted]; exact h.le
  range := fun k hk hop => by
    rw [ht.ios, ht.submitted]
    exact h.range k (List.mem_cons_of_mem e hk) hop
  past := fun k hk hop => by
    rw [ht.submitted]
    rcases List.mem_cons.mp hk with rfl | hk
    · exact (h.range e List.mem_cons_self he).1
    · exact h.past k hk hop
  honest := fun h0 i hi => by
    rw [ht.submitted] at hi
    rw [ht.ios]
    have ⟨h0', hres⟩ := ht.firstErr h0
    rcases h.honest h0' i hi with ⟨k, hk, hreq⟩ | hex
    · rcases List.mem_cons.mp hk with rfl | hk
      · have hidx : k.index = i := congrArg Prod.snd hreq
        rw [hidx] at hres
        exact Or.inr ⟨_, List.mem_cons_self, hreq, hres⟩
      · exact Or.inl ⟨k, hk, hreq⟩
    · exact Or.inr (hex.cons _)
  copied := fun hf hr i hi => by
    rw [ht.ios] at hf hi ⊢
    rw [ht.finished] at hf
    rw [ht.reported] at hr
    exact (h.copied hf hr i hi).cons _

theorem Ledger.takeItem {e : Entry} (h : Ledger (e :: p) batches live nextOp credits returned)
    (hlive : e.op ∈ live) (res : Int) :
    Ledger p (Function.update batches e.op ((batches e.op).take e.index res)) live nextOp
      (⟨some e.request, e, res⟩ :: credits) returned where
  nodup := Ledger.nodup_credit h.nodup
  own := fun c hc => by
    rcases List.mem_cons.mp hc with rfl | hc
    · rfl
    · exact h.own c hc
  boundEntry := fun k hk => h.boundEntry k (List.mem_cons_of_mem e hk)
  boundCredit := fun c hc => by
    rcases List.mem_cons.mp hc with rfl | hc
    · exact h.boundEntry e List.mem_cons_self
    · exact h.boundCredit c hc
  boundReturn := h.boundReturn
  boundLive := h.boundLive
  liveNodup := h.liveNodup
  batch := fun b hb => by
    by_cases hbe : b = e.op
    · rw [hbe, Function.update_self]
      exact (h.batch e.op hlive).take rfl (Batch.take_taken _ _ _)
    · rw [Function.update_of_ne hbe]
      exact (h.batch b hb).other (Ne.symm hbe) rfl
  results := fun b i hc => by
    by_cases hbe : b = e.op
    · rw [hbe, Function.update_self] at hc ⊢
      have ht := Batch.take_taken (batches e.op) e.index res
      rw [ht.ios]
      rcases ht.results i hc with hold | ⟨rfl, hres⟩
      · exact (h.results e.op i hold).cons _
      · exact ⟨_, List.mem_cons_self, rfl, hres⟩
    · rw [Function.update_of_ne hbe] at hc ⊢
      exact (h.results b i hc).cons _
  gone := fun r hr =>
    ⟨fun k hk => (h.gone r hr).1 k (List.mem_cons_of_mem e hk), (h.gone r hr).2⟩
  done := fun r hr h0 i hi => (h.done r hr h0 i hi).cons _

/-! ## 5. Preparing a batch -/

structure Prepared (b : Nat) (t t' : Batch) (new : List Entry) : Prop where
  ios : t'.ios = t.ios
  finished : t'.finished = t.finished
  reported : t'.reported = t.reported
  le : t.submitted ≤ t'.submitted
  counted : t'.completed + new.length + t.submitted = t.completed + t'.submitted
  range : ∀ e ∈ new, e.op = b ∧ t.submitted ≤ e.index ∧ e.index < t'.submitted ∧
    e.userData = .item b e.index ∧ e.len = t.ios.getD e.index 0
  sorted : new.Pairwise fun e k => e.index < k.index
  firstErr : t'.firstErr = mdbxSuccess → t.firstErr = mdbxSuccess ∧
    ∀ i, t.submitted ≤ i → i < t'.submitted → ∃ e ∈ new, e.index = i
  results : ∀ i, (t'.results i).completed = true → (t.results i).completed = true

theorem Prepared.refl (b : Nat) (t : Batch) : Prepared b t t [] where
  ios := rfl
  finished := rfl
  reported := rfl
  le := Nat.le_refl _
  counted := by rw [List.length_nil]; omega
  range := fun e he => nomatch he
  sorted := List.Pairwise.nil
  firstErr := fun h => ⟨h, fun i hlo hhi => absurd hhi (Nat.not_lt.mpr hlo)⟩
  results := fun _ h => h

theorem setResult_completed {t : Batch} {i k : Nat} {r : ReadResult} (hr : r.completed = false)
    (h : ((t.setResult i r).results k).completed = true) : (t.results k).completed = true := by
  change (Function.update t.results i r k).completed = true at h
  by_cases hki : k = i
  · rw [hki, Function.update_self, hr] at h
    exact nomatch h
  · rw [Function.update_of_ne hki] at h
    exact h

theorem Batch.refuse_submitted (t : Batch) : t.refuse.submitted = t.submitted + 1 := by
  change ((t.setResult t.submitted (dxbReadError mdbxEinval)).fail mdbxEinval).submitted + 1 = _
  rw [Batch.fail_submitted]
  rfl

theorem Batch.refuse_completed (t : Batch) : t.refuse.completed = t.completed + 1 := by
  change ((t.setResult t.submitted (dxbReadError mdbxEinval)).fail mdbxEinval).completed + 1 = _
  rw [Batch.fail_completed]
  rfl

theorem Batch.refuse_ios (t : Batch) : t.refuse.ios = t.ios := Batch.fail_ios _ _

theorem Prepared.refuse {b : Nat} {t t' : Batch} {new : List Entry}
    (h : Prepared b t.refuse t' new) : Prepared b t t' new := by
  have hle := h.le
  have hcount := h.counted
  rw [Batch.refuse_submitted] at hle hcount
  rw [Batch.refuse_completed] at hcount
  refine ⟨h.ios.trans t.refuse_ios, h.finished.trans (Batch.fail_finished _ _),
    h.reported.trans (Batch.fail_reported _ _), by omega, by omega, fun e he => ?_, h.sorted,
    fun h0 => ?_, fun i hi => ?_⟩
  · have hrange := h.range e he
    rw [Batch.refuse_submitted, Batch.refuse_ios] at hrange
    exact ⟨hrange.1, by omega, hrange.2.2⟩
  · exact absurd (h.firstErr h0).1 (Batch.fail_firstErr _ (by decide))
  · have hold := h.results i hi
    change (((t.setResult t.submitted (dxbReadError mdbxEinval)).fail mdbxEinval).results
      i).completed = true at hold
    rw [Batch.fail_results] at hold
    exact setResult_completed rfl hold

theorem Prepared.queue {b : Nat} {t t' : Batch} {new : List Entry} {len : Nat}
    (hlen : len = t.ios.getD t.submitted 0) (h : Prepared b t.queue t' new) :
    Prepared b t t' (⟨b, t.submitted, .item b t.submitted, len⟩ :: new) := by
  have hle := h.le
  have hcount := h.counted
  change t.submitted + 1 ≤ t'.submitted at hle
  change t'.completed + new.length + (t.submitted + 1) = t.completed + t'.submitted at hcount
  refine ⟨h.ios, h.finished, h.reported, by omega, ?_, fun e he => ?_, ?_, fun h0 => ?_,
    fun i hi => setResult_completed rfl (h.results i hi)⟩
  · rw [List.length_cons]
    omega
  · rcases List.mem_cons.mp he with rfl | he
    · exact ⟨rfl, Nat.le_refl _, by change t.submitted < _; omega, rfl, hlen⟩
    · have hrange := h.range e he
      have hlo : t.submitted + 1 ≤ e.index := hrange.2.1
      exact ⟨hrange.1, by omega, hrange.2.2⟩
  · refine List.pairwise_cons.mpr ⟨fun e he => ?_, h.sorted⟩
    have hlo : t.submitted + 1 ≤ e.index := (h.range e he).2.1
    change t.submitted < e.index
    omega
  · have ⟨h0', hall⟩ := h.firstErr h0
    refine ⟨h0', fun i hlo hhi => ?_⟩
    rcases Nat.eq_or_lt_of_le hlo with rfl | hlt
    · exact ⟨_, List.mem_cons_self, rfl⟩
    · have ⟨e, he, hi⟩ := hall i hlt hhi
      exact ⟨e, List.mem_cons_of_mem _ he, hi⟩

theorem prepare_spec (b : Nat) (rest : List Nat) (space : Nat) (t : Batch) (acc : List Entry)
    (hrest : rest = t.ios.drop t.submitted) (hle : t.submitted ≤ t.ios.length) :
    ∃ new, (prepare b rest space t acc).2 = acc ++ new ∧
      Prepared b t (prepare b rest space t acc).1 new ∧
      (prepare b rest space t acc).1.submitted ≤ t.ios.length := by
  induction rest generalizing space t acc with
  | nil => exact ⟨[], (List.append_nil acc).symm, by unfold prepare; exact ⟨Prepared.refl b t, hle⟩⟩
  | cons bytes rest ih =>
    have hlt : t.submitted < t.ios.length := by
      have hlen := congrArg List.length hrest
      rw [List.length_cons, List.length_drop] at hlen
      omega
    have hsplit := List.drop_eq_getElem_cons hlt
    rw [← hrest] at hsplit
    have ⟨hbytes, hdrop⟩ := List.cons.inj hsplit
    cases space with
    | zero =>
      exact ⟨[], (List.append_nil acc).symm, by unfold prepare; exact ⟨Prepared.refl b t, hle⟩⟩
    | succ space =>
      unfold prepare
      split_ifs with hbig
      · have ⟨new, hacc, hprep, hend⟩ := ih (space + 1) t.refuse acc
          (by rw [Batch.refuse_ios, Batch.refuse_submitted]; exact hdrop)
          (by rw [Batch.refuse_ios, Batch.refuse_submitted]; exact hlt)
        exact ⟨new, hacc, hprep.refuse, t.refuse_ios ▸ hend⟩
      · have ⟨new, hacc, hprep, hend⟩ := ih space t.queue
          (acc ++ [⟨b, t.submitted, .item b t.submitted, bytes⟩]) hdrop hlt
        refine ⟨⟨b, t.submitted, .item b t.submitted, bytes⟩ :: new, ?_, hprep.queue ?_, hend⟩
        · rw [hacc, List.append_assoc]
          rfl
        · rw [List.getD_eq_getElem?_getD, List.getElem?_eq_getElem hlt]
          exact hbytes

theorem BatchOk.prepared {b : Nat} {t t' : Batch} {new : List Entry} (h : BatchOk p credits b t)
    (hp : Prepared b t t' new) (hle : t'.submitted ≤ t.ios.length) :
    BatchOk (p ++ new) credits b t' where
  nonempty := by rw [hp.ios]; exact h.nonempty
  counted := by
    have hall : new.countP (fun e => e.op = b) = new.length :=
      List.countP_eq_length.mpr fun e he => by simpa using (hp.range e he).1
    have hold := h.counted
    have hnew := hp.counted
    rw [List.countP_append, hall]
    omega
  le := by rw [hp.ios]; exact hle
  range := fun e he hop => by
    rw [hp.ios]
    have hsub := hp.le
    rcases List.mem_append.mp he with he | he
    · have hr := h.range e he hop
      exact ⟨by omega, hr.2⟩
    · exact (hp.range e he).2.2
  past := fun c hc hop => Nat.lt_of_lt_of_le (h.past c hc hop) hp.le
  honest := fun h0 i hi => by
    rw [hp.ios]
    have ⟨h0', hnew⟩ := hp.firstErr h0
    rcases Nat.lt_or_ge i t.submitted with hlt | hge
    · exact (h.honest h0' i hlt).imp_left fun ⟨e, he, hreq⟩ =>
        ⟨e, List.mem_append_left _ he, hreq⟩
    · have ⟨e, he, hidx⟩ := hnew i hge hi
      exact Or.inl ⟨e, List.mem_append_right _ he, by rw [← (hp.range e he).1, ← hidx]; rfl⟩
  copied := fun hf hr i hi => by
    rw [hp.ios] at hf hi ⊢
    rw [hp.finished] at hf
    rw [hp.reported] at hr
    exact h.copied hf hr i hi

-- entries of one batch are no concern of another
theorem BatchOk.append {b : Nat} {t : Batch} {new : List Entry} (h : BatchOk p credits b t)
    (hne : ∀ e ∈ new, e.op ≠ b) : BatchOk (p ++ new) credits b t where
  nonempty := h.nonempty
  counted := by
    have hnone : new.countP (fun e => e.op = b) = 0 :=
      List.countP_eq_zero.mpr fun e he => by simpa using hne e he
    rw [List.countP_append, hnone]
    exact h.counted
  le := h.le
  range := fun e he hop => by
    rcases List.mem_append.mp he with he | he
    · exact h.range e he hop
    · exact absurd hop (hne e he)
  past := h.past
  honest := fun h0 i hi => (h.honest h0 i hi).imp_left fun ⟨e, he, hreq⟩ =>
    ⟨e, List.mem_append_left _ he, hreq⟩
  copied := h.copied

theorem Ledger.prepared {b : Nat} {t' : Batch} {new : List Entry}
    (h : Ledger p batches live nextOp credits returned) (hb : b ∈ live)
    (hp : Prepared b (batches b) t' new) (hle : t'.submitted ≤ (batches b).ios.length) :
    Ledger (p ++ new) (Function.update batches b t') live nextOp credits returned where
  nodup := by
    have hbatch := h.batch b hb
    have hnew : (new.map Entry.request).Nodup := by
      apply List.pairwise_map.mpr
      apply hp.sorted.imp
      intro e k hlt heq
      have hidx : e.index = k.index := congrArg Prod.snd heq
      omega
    rw [List.map_append, List.append_assoc]
    have hperm : (p.map Entry.request ++ (new.map Entry.request ++
        credits.map fun c => c.cqe.entry.request)).Perm (new.map Entry.request ++
        (p.map Entry.request ++ credits.map fun c => c.cqe.entry.request)) := by
      rw [← List.append_assoc, ← List.append_assoc]
      exact List.perm_append_comm.append_right _
    apply hperm.nodup_iff.mpr
    refine List.nodup_append.mpr ⟨hnew, h.nodup, fun a ha k hk heq => ?_⟩
    have ⟨e, he, hea⟩ := List.mem_map.mp ha
    have hrange := hp.range e he
    have heb : e.request = k := hea.trans heq
    rcases List.mem_append.mp hk with hk | hk
    · have ⟨e', he', hek⟩ := List.mem_map.mp hk
      have hreq : e.request = e'.request := heb.trans hek.symm
      have hop : e.op = e'.op := congrArg Prod.fst hreq
      have hidx : e.index = e'.index := congrArg Prod.snd hreq
      have hold := hbatch.range e' he' (hop.symm.trans hrange.1)
      omega
    · have ⟨c, hc, hck⟩ := List.mem_map.mp hk
      have hreq : e.request = c.cqe.entry.request := heb.trans hck.symm
      have hop : e.op = c.cqe.entry.op := congrArg Prod.fst hreq
      have hidx : e.index = c.cqe.entry.index := congrArg Prod.snd hreq
      have hold := hbatch.past c hc (hop.symm.trans hrange.1)
      omega
  own := h.own
  boundEntry := fun e he => by
    rcases List.mem_append.mp he with he | he
    · exact h.boundEntry e he
    · rw [(hp.range e he).1]
      exact h.boundLive b hb
  boundCredit := h.boundCredit
  boundReturn := h.boundReturn
  boundLive := h.boundLive
  liveNodup := h.liveNodup
  batch := fun k hk => by
    by_cases hkb : k = b
    · rw [hkb, Function.update_self]
      exact (h.batch b hb).prepared hp hle
    · rw [Function.update_of_ne hkb]
      exact (h.batch k hk).append fun e he => by
        rw [(hp.range e he).1]
        exact Ne.symm hkb
  results := fun k i hc => by
    by_cases hkb : k = b
    · rw [hkb, Function.update_self] at hc ⊢
      rw [hp.ios]
      exact h.results b i (hp.results i hc)
    · rw [Function.update_of_ne hkb] at hc ⊢
      exact h.results k i hc
  gone := fun r hr => by
    refine ⟨fun e he => ?_, (h.gone r hr).2⟩
    rcases List.mem_append.mp he with he | he
    · exact (h.gone r hr).1 e he
    · rw [(hp.range e he).1]
      exact fun heq => (h.gone r hr).2 (heq ▸ hb)
  done := h.done

/-! ## 6. Begin, drive and finish -/

-- the batch changes, the entries and the credits do not
theorem Ledger.setBatch {b : Nat} {t' : Batch}
    (h : Ledger p batches live nextOp credits returned) (hok : b ∈ live → BatchOk p credits b t')
    (hios : t'.ios = (batches b).ios) (hres : t'.results = (batches b).results) :
    Ledger p (Function.update batches b t') live nextOp credits returned where
  nodup := h.nodup
  own := h.own
  boundEntry := h.boundEntry
  boundCredit := h.boundCredit
  boundReturn := h.boundReturn
  boundLive := h.boundLive
  liveNodup := h.liveNodup
  batch := fun k hk => by
    by_cases hkb : k = b
    · rw [hkb, Function.update_self]
      exact hok (hkb ▸ hk)
    · rw [Function.update_of_ne hkb]
      exact h.batch k hk
  results := fun k i hc => by
    by_cases hkb : k = b
    · rw [hkb, Function.update_self] at hc ⊢
      rw [hres] at hc
      rw [hios]
      exact h.results b i hc
    · rw [Function.update_of_ne hkb] at hc ⊢
      exact h.results k i hc
  gone := h.gone
  done := h.done

theorem BatchOk.fail {b : Nat} {t : Batch} {err : Int} (h : BatchOk p credits b t)
    (herr : err ≠ mdbxSuccess) : BatchOk p credits b (t.fail err) where
  nonempty := by rw [Batch.fail_ios]; exact h.nonempty
  counted := by rw [Batch.fail_completed, Batch.fail_submitted]; exact h.counted
  le := by rw [Batch.fail_ios, Batch.fail_submitted]; exact h.le
  range := fun e he hop => by
    rw [Batch.fail_ios, Batch.fail_submitted]
    exact h.range e he hop
  past := fun c hc hop => by rw [Batch.fail_submitted]; exact h.past c hc hop
  honest := fun h0 => absurd h0 (Batch.fail_firstErr t herr)
  copied := by
    rw [Batch.fail_ios, Batch.fail_finished, Batch.fail_reported]
    exact h.copied

-- the caller's copy tells the truth
theorem BatchOk.copy {b : Nat} {t : Batch} (h : BatchOk p credits b t) :
    BatchOk p credits b t.copy where
  nonempty := h.nonempty
  counted := h.counted
  le := h.le
  range := h.range
  past := h.past
  honest := h.honest
  copied := fun hf hr i hi => by
    change t.completed = t.ios.length at hf
    have hcount := h.counted
    have hle := h.le
    have hnone : p.countP (fun e => e.op = b) = 0 := by omega
    have hsub : t.submitted = t.ios.length := by omega
    rcases h.honest hr i (hsub ▸ hi) with ⟨e, he, hreq⟩ | hex
    · have hno := List.countP_eq_zero.mp hnone e he
      have hop : e.op = b := congrArg Prod.fst hreq
      exact absurd hop (by simpa using hno)
    · exact hex

theorem Ledger.begin (h : Ledger p batches live nextOp credits returned) {ios : List Nat}
    (hne : ios ≠ []) : Ledger p (Function.update batches nextOp { noBatch with ios := ios })
      (nextOp :: live) (nextOp + 1) credits returned where
  nodup := h.nodup
  own := h.own
  boundEntry := fun e he => Nat.lt_succ_of_lt (h.boundEntry e he)
  boundCredit := fun c hc => Nat.lt_succ_of_lt (h.boundCredit c hc)
  boundReturn := fun r hr => Nat.lt_succ_of_lt (h.boundReturn r hr)
  boundLive := fun b hb => by
    rcases List.mem_cons.mp hb with rfl | hb
    · exact Nat.lt_succ_self _
    · exact Nat.lt_succ_of_lt (h.boundLive b hb)
  liveNodup := List.nodup_cons.mpr
    ⟨fun hm => Nat.lt_irrefl _ (h.boundLive nextOp hm), h.liveNodup⟩
  batch := fun b hb => by
    by_cases hbn : b = nextOp
    · rw [hbn, Function.update_self]
      refine ⟨hne, ?_, Nat.zero_le _, fun e he hop => ?_, fun c hc hop => ?_,
        fun _ i hi => absurd hi (Nat.not_lt_zero i), fun hf => ?_⟩
      · change 0 + _ = 0
        rw [List.countP_eq_zero.mpr fun e he => by
          simpa using Nat.ne_of_lt (h.boundEntry e he)]
      · exact absurd hop (Nat.ne_of_lt (h.boundEntry e he))
      · exact absurd hop (Nat.ne_of_lt (h.boundCredit c hc))
      · exact absurd (List.length_eq_zero_iff.mp hf.symm) hne
    · rw [Function.update_of_ne hbn]
      exact h.batch b ((List.mem_cons.mp hb).resolve_left hbn)
  results := fun k i hc => by
    by_cases hkb : k = nextOp
    · rw [hkb, Function.update_self] at hc
      exact nomatch hc
    · rw [Function.update_of_ne hkb] at hc ⊢
      exact h.results k i hc
  gone := fun r hr => by
    refine ⟨(h.gone r hr).1, fun hm => ?_⟩
    rcases List.mem_cons.mp hm with heq | hm
    · exact Nat.ne_of_lt (h.boundReturn r hr) heq
    · exact (h.gone r hr).2 hm
  done := h.done

theorem Ledger.forget (h : Ledger p batches live nextOp credits returned) (b : Nat) :
    Ledger p batches (live.erase b) nextOp credits returned where
  nodup := h.nodup
  own := h.own
  boundEntry := h.boundEntry
  boundCredit := h.boundCredit
  boundReturn := h.boundReturn
  boundLive := fun k hk => h.boundLive k (List.mem_of_mem_erase hk)
  liveNodup := h.liveNodup.erase b
  batch := fun k hk => h.batch k (List.mem_of_mem_erase hk)
  results := h.results
  gone := fun r hr => ⟨(h.gone r hr).1, fun hm => (h.gone r hr).2 (List.mem_of_mem_erase hm)⟩
  done := h.done

end Mdbx.Uring
