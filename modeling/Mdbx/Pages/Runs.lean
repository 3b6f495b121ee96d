import Mdbx.Pages.Reclaim

/-!
# Pages.Runs — page conservation over whole runs

A run is any sequence of operations on the page sets.  It goes on as long as none of them fails for
lack of memory or of room (`MDBX_ENOMEM`, `MDBX_TXN_FULL`) or makes the transaction erroneous, which
is then to be aborted.
-/

namespace Mdbx.Pages

/-! ## 1. Places and operations -/

/-- Where a page may be.  A page that is listed in a record of the GC which has not been reclaimed is
of the GC. -/
inductive Place where
  | used
  | gc
  | retired
  | repnl
  | loose
  | unallocated
  deriving DecidableEq, Repr

def At (t : Txn) : Place → Nat → Prop
  | .used, p => p ∈ usedPages t.used
  | .gc, p => p ∈ gcPages t
  | .retired, p => p ∈ t.retired
  | .repnl, p => p ∈ t.repnl
  | .loose, p => p ∈ t.loose
  | .unallocated, p => t.firstUnallocated ≤ p

structure WellFormed (t : Txn) : Prop where
  inv : Inv t (gcPages t)
  ids : Ids t

inductive Op where
  | retire (ask : Ask) (s : Span)
  | allocSingle (a : Call)
  | allocEx (a : Call)
  | refund
  | mergeLoose (gcDirty : Bool)

def apply (e : Env) (t : Txn) : Op → Rc × Txn
  | .retire ask s => pageRetireEx e.dpLooseLimit t ask s
  | .allocSingle a =>
      let ret := gcAllocSingle e a t
      (ret.err, ret.txn)
  | .allocEx a =>
      let ret := gcAllocEx e a t
      (ret.err, ret.txn)
  | .refund => (.success, txnRefund t)
  | .mergeLoose gcDirty => gcMergeLoose t gcDirty

/-- What the callers promise: only a page in use is retired, and at least one page is allocated. -/
def Legal (t : Txn) : Op → Prop
  | .retire ask s => s ∈ t.used ∧ Truthful t ask s
  | .allocEx a => a.reserve = false → 0 < a.num
  | _ => True

/-- The transaction may go on. -/
def goesOn (out : Rc × Txn) : Bool := !lossy out.1 && !out.2.error

inductive Run (e : Env) (t₀ : Txn) : Txn → Prop where
  | start : Run e t₀ t₀
  | step {t : Txn} (op : Op) : Run e t₀ t → Legal t op → goesOn (apply e t op) = true →
      Run e t₀ (apply e t op).2

variable {e : Env} {t₀ t : Txn}

/-! ## 2. One operation -/

theorem apply_result (h : WellFormed t) (op : Op) (hlegal : Legal t op) :
    Result t (apply e t op).1 (apply e t op).2 := by
  cases op with
  | retire ask s => exact (pageRetireEx_spec h.inv hlegal.1 hlegal.2 _).result h.ids
  | allocSingle a => exact gcAllocSingle_spec h.inv h.ids
  | allocEx a => exact gcAllocEx_spec hlegal h.inv h.ids
  | refund =>
      have hspec : Spec t (gcPages t) (.success, txnRefund t) :=
        Spec.of_inv (Moved.txnRefund t) h.inv.txnRefund
      exact hspec.result h.ids
  | mergeLoose gcDirty => exact (gcMergeLoose_spec h.inv gcDirty).result h.ids

theorem apply_wellFormed (h : WellFormed t) (op : Op) (hlegal : Legal t op)
    (hgo : goesOn (apply e t op) = true) : WellFormed (apply e t op).2 := by
  have hresult : Result t (apply e t op).1 (apply e t op).2 := apply_result h op hlegal
  simp only [goesOn, Bool.and_eq_true, Bool.not_eq_true'] at hgo
  obtain ⟨hinv, hids⟩ := hresult.ok hgo.1 hgo.2
  exact ⟨hinv, hids⟩

theorem run_wellFormed (h : WellFormed t₀) (hrun : Run e t₀ t) : WellFormed t ∧ Kept t₀ t := by
  induction hrun with
  | start => exact ⟨h, Kept.refl t₀⟩
  | step op _ hlegal hgo ih =>
      exact ⟨apply_wellFormed ih.1 op hlegal hgo,
        ih.2.trans (apply_result ih.1 op hlegal).kept⟩

/-! ## 3. The partition -/

theorem WellFormed.place (h : WellFormed t) {p : Nat} (hp : numMetas ≤ p) : ∃! pl, At t pl p := by
  have hsum := h.inv.sum p
  by_cases htail : t.firstUnallocated ≤ p
  · rw [if_neg (by omega)] at hsum
    refine ⟨.unallocated, htail, fun pl hpl => ?_⟩
    cases pl with
    | unallocated => rfl
    | used => exact absurd (List.count_pos_iff.mpr hpl) (by omega)
    | gc => exact absurd (List.count_pos_iff.mpr hpl) (by omega)
    | retired => exact absurd (List.count_pos_iff.mpr hpl) (by omega)
    | repnl => exact absurd (List.count_pos_iff.mpr hpl) (by omega)
    | loose => exact absurd (List.count_pos_iff.mpr hpl) (by omega)
  · rw [if_pos ⟨hp, Nat.lt_of_not_le htail⟩] at hsum
    have huniq : ∀ pl pl', At t pl p → At t pl' p → pl = pl' := by
      intro pl pl' hpl hpl'
      cases pl <;> cases pl' <;> first
        | rfl
        | exact absurd hpl htail
        | exact absurd hpl' htail
        | (have hone := List.count_pos_iff.mpr hpl
           have htwo := List.count_pos_iff.mpr hpl'
           omega)
    have hsome : ∃ pl, At t pl p := by
      rcases Nat.eq_zero_or_pos ((usedPages t.used).count p) with hu | hu
      · rcases Nat.eq_zero_or_pos ((gcPages t).count p) with hg | hg
        · rcases Nat.eq_zero_or_pos (t.retired.count p) with hr | hr
          · rcases Nat.eq_zero_or_pos (t.repnl.count p) with hn | hn
            · exact ⟨.loose, List.count_pos_iff.mp (by omega)⟩
            · exact ⟨.repnl, List.count_pos_iff.mp hn⟩
          · exact ⟨.retired, List.count_pos_iff.mp hr⟩
        · exact ⟨.gc, List.count_pos_iff.mp hg⟩
      · exact ⟨.used, List.count_pos_iff.mp hu⟩
    obtain ⟨pl, hpl⟩ := hsome
    exact ⟨pl, hpl, fun pl' hpl' => huniq pl' pl hpl' hpl⟩

/-- Wherever a page in use or a retired one is, it is not free. -/
theorem Inv.not_free {own : List Nat} (h : Inv t own) {p : Nat}
    (hp : p ∈ usedPages t.used ∨ p ∈ t.retired) :
    ¬ At t .repnl p ∧ ¬ At t .loose p ∧ ¬ At t .unallocated p := by
  have hsum := h.sum p
  have hpos : 0 < (usedPages t.used).count p + t.retired.count p := by
    rcases hp with hp | hp
    · have hcount := List.count_pos_iff.mpr hp
      omega
    · have hcount := List.count_pos_iff.mpr hp
      omega
  split at hsum
  next hin =>
    refine ⟨fun hfree => ?_, fun hfree => ?_, fun hfree => ?_⟩
    · have hcount := List.count_pos_iff.mpr hfree
      omega
    · have hcount := List.count_pos_iff.mpr hfree
      omega
    · exact absurd hfree (Nat.not_le.mpr hin.2)
  next => omega

theorem Kept.frozen_place {t' : Txn} (h : Kept t t') {s : Span} (hs : s ∈ t.used)
    (hfrozen : s.txnid < t.txnid) {p : Nat} (hp : p ∈ s.pages) :
    p ∈ usedPages t'.used ∨ p ∈ t'.retired := by
  rcases h.frozen s hs hfrozen with hused | hretired
  · exact .inl (List.mem_flatMap.mpr ⟨s, hused, hp⟩)
  · exact .inr (hretired p hp)

/-- Page conservation.  In every state of a run each page number is in one place, a frozen page stays
in use or is retired, and no operation, even one that fails, makes a frozen page free. -/
theorem pages_conserved (hwf : WellFormed t₀) (hrun : Run e t₀ t) :
    (∀ p, numMetas ≤ p → ∃! pl, At t pl p) ∧
      ∀ s ∈ t₀.used, s.txnid < t₀.txnid → ∀ p ∈ s.pages,
        (At t .used p ∨ At t .retired p) ∧
          ∀ op, Legal t op → ¬ At (apply e t op).2 .repnl p ∧ ¬ At (apply e t op).2 .loose p ∧
            ¬ At (apply e t op).2 .unallocated p := by
  obtain ⟨hwell, hkept⟩ := run_wellFormed hwf hrun
  refine ⟨fun p hp => hwell.place hp, fun s hs hfrozen p hp => ?_⟩
  refine ⟨hkept.frozen_place hs hfrozen hp, fun op hlegal => ?_⟩
  have hresult : Result t (apply e t op).1 (apply e t op).2 := apply_result hwell op hlegal
  obtain ⟨own, hinv⟩ := hresult.some
  exact hinv.not_free ((hkept.trans hresult.kept).frozen_place hs hfrozen hp)

/-! ## 4. A run, and a failure -/

def sampleEnv : Env where
  build := ⟨false, true⟩
  dpLooseLimit := 64
  maxgcLarge1page := 1000
  rpAugmentLimit := 1000
  pagelistLimit := 100000
  lifo := false
  txnidStep := 1
  ceil2os := id

/-- A large frozen page 3, a dirty page 5, a free page 6, and page 7 in a record of the GC. -/
def sampleTxn : Txn where
  txnid := 9
  frontTxnid := 10
  firstUnallocated := 8
  endPgno := 16
  upper := 32
  growStep := 4
  repnl := [6]
  retired := []
  loose := []
  looseCount := 0
  looseRefundWl := 0
  dirty := [⟨5, 1, false⟩]
  sorted := 1
  pagesIncludingLoose := 1
  dirtyroom := 10
  spilled := []
  parents := []
  gc := [⟨4, [7]⟩]
  gcHeight := 1
  gcBranchPages := 0
  reclaimed := []
  ready4reuse := []
  comeback := []
  error := false
  drained := false
  answers := []
  used := [⟨3, 2, 5⟩, ⟨5, 1, 10⟩]

theorem wellFormed_of_pages {n : Nat} (hpages : (t.pages (gcPages t)).Perm (List.range' numMetas n))
    (hfirst : t.firstUnallocated = numMetas + n) (hdesc : t.repnl.Pairwise fun p q => q ≤ p)
    (hflagged : ∀ x ∈ t.dirty, x.loose = true → x.pgno ∈ t.loose)
    (howned : ∀ x ∈ t.dirty, x.loose = false →
      ∃ s ∈ t.used, s.pgno = x.pgno ∧ s.txnid = t.frontTxnid)
    (hdistinct : (t.dirty.map Item.pgno).Nodup) (hcounted : t.looseCount = t.loose.length)
    (hspans : ∀ s ∈ t.used, 0 < s.npages)
    (hclean : ∀ s ∈ t.used, s.txnid < t.txnid → Unlisted t s.pgno)
    (hfront : t.txnid ≤ t.frontTxnid) (hids : Ids t) : WellFormed t where
  inv :=
    { tiles := fun p => by rw [hpages.count_eq, count_interval, hfirst]
      low := by omega
      desc := hdesc
      flagged := hflagged
      owned := howned
      distinct := hdistinct
      counted := hcounted
      spans := hspans
      clean := hclean
      front := hfront }
  ids := hids

theorem sampleTxn_wellFormed : WellFormed sampleTxn :=
  wellFormed_of_pages (n := 5) (by decide) rfl (by decide) (by decide) (by decide) (by decide) rfl
    (by decide) (by unfold Unlisted; decide) (by decide) (by unfold Ids; decide)

def singleCall : Call :=
  { gcCall .success with gcCursor := false }

/-- The frozen page is retired, and a page is allocated. -/
def sampleRetired : Txn := (apply sampleEnv sampleTxn (.retire .given ⟨3, 2, 5⟩)).2

def sampleEnd : Txn := (apply sampleEnv sampleRetired (.allocSingle singleCall)).2

theorem sampleEnd_run : Run sampleEnv sampleTxn sampleEnd :=
  Run.step _ (Run.step _ .start ⟨by decide, fun hno => nomatch hno⟩ (by decide)) trivial (by decide)

theorem pages_conserved_sample :
    (∀ p, numMetas ≤ p → ∃! pl, At sampleEnd pl p) ∧
      ∀ s ∈ sampleTxn.used, s.txnid < sampleTxn.txnid → ∀ p ∈ s.pages,
        (At sampleEnd .used p ∨ At sampleEnd .retired p) ∧
          ∀ op, Legal sampleEnd op →
            ¬ At (apply sampleEnv sampleEnd op).2 .repnl p ∧
              ¬ At (apply sampleEnv sampleEnd op).2 .loose p ∧
                ¬ At (apply sampleEnv sampleEnd op).2 .unallocated p :=
  pages_conserved sampleTxn_wellFormed sampleEnd_run

/-- The same state without room for a dirty page. -/
def crampedTxn : Txn := { sampleTxn with dirtyroom := 0 }

/-- `gc_alloc_ex` fails when it has taken a page of the tail, and the page is in no place; the
transaction has `MDBX_TXN_ERROR`. -/
theorem allocEx_loses_page :
    (∀ p, numMetas ≤ p → ∃! pl, At crampedTxn pl p) ∧
      Legal crampedTxn (.allocEx singleCall) ∧ At crampedTxn .unallocated 8 ∧
        (apply sampleEnv crampedTxn (.allocEx singleCall)).1 = .txnFull ∧
          (apply sampleEnv crampedTxn (.allocEx singleCall)).2.error = true ∧
            ∀ pl, ¬ At (apply sampleEnv crampedTxn (.allocEx singleCall)).2 pl 8 := by
  have hwell : WellFormed crampedTxn :=
    ⟨sampleTxn_wellFormed.inv.same rfl rfl rfl rfl, sampleTxn_wellFormed.ids⟩
  refine ⟨fun p hp => hwell.place hp, fun _ => by decide, by unfold At; decide, by decide, by decide,
    fun pl => ?_⟩
  cases pl <;> (unfold At; decide)

-- `gc_alloc_single` loses a page of `repnl` there, and the transaction has no `MDBX_TXN_ERROR`
example : (apply sampleEnv crampedTxn (.allocSingle singleCall)).1 = .txnFull ∧
    (apply sampleEnv crampedTxn (.allocSingle singleCall)).2.error = false ∧
      ∀ pl, ¬ At (apply sampleEnv crampedTxn (.allocSingle singleCall)).2 pl 6 := by
  refine ⟨by decide, by decide, fun pl => ?_⟩
  cases pl <;> (unfold At; decide)

end Mdbx.Pages
