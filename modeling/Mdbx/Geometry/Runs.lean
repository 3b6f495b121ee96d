import Mdbx.Geometry.Steps

/-!
# Geometry.Runs — snapshots stay inside the file

Runs of transactions and readers, in which the file always covers what may be read, as long as a
new end is rounded in a word that has room for it.
-/

namespace Mdbx.Geometry

variable {b : Build} {env : Env}

/-! ## 1. What a step has to do -/

/-- The write transaction has its own end of the file, which is not before that of the head. -/
structure Pending (head : Geo) (headTxnid : Nat) (txn : Txn) : Prop where
  wf : txn.geo.Wf
  head : head.now ≤ txn.geo.now
  txnid : headTxnid < txn.txnid

/-- Every snapshot that is in use is inside the file. -/
structure Covered (env : Env) : Prop where
  head : env.head.Wf
  slots : ∀ slot ∈ env.slots, slot.pid ≠ 0 →
    slot.txnid ≤ env.headTxnid ∧ slot.snapshotPagesUsed ≤ env.head.now
  txn : ∀ txn, env.txn = some txn → Pending env.head env.headTxnid txn

/-- The growth is right, and none of its page numbers wraps. -/
structure GrowthOk (b : Build) (geo : Geo) (num : Nat) : Prop where
  sound : (growTo b geo num).Sound geo num
  newnext : sizeT b (geo.firstUnallocated + num) = geo.firstUnallocated + num
  rounded : geo.now < geo.firstUnallocated + num → geo.firstUnallocated + num ≤ geo.upper →
    geo.growPv ≠ 0 →
    let target := nextStep (geo.firstUnallocated + num) (pv2pages geo.growPv)
    pgnoT (sizeT b target) = target ∧ pgnoCeil2osPgno b target = ceilPages b target

/-- The snapshots that are in use at a shrink. -/
def largestOf (slots : List Slot) (basalTxnid headUsed : Nat) (pending : Geo) : Nat :=
  mvccSnapshotLargest slots basalTxnid (largerOf headUsed pending.firstUnallocated)

/-- `dxb_sync_locked` gets to the shrink. -/
structure ShrinkReached (b : Build) (args : SyncArgs) (pending : Geo) : Prop where
  allowed : args.shrinkAllowed = true
  discarded : pending.firstUnallocated ≤ args.prevDiscarded
  threshold : sizeT b (pending.firstUnallocated + args.madvThreshold) ≤ args.prevDiscarded

/-- The shrink is right, and none of its page numbers wraps. -/
structure ShrinkOk (b : Build) (args : SyncArgs) (slots : List Slot) (basalTxnid headUsed : Nat)
    (pending : Geo) : Prop where
  sound : ∀ bottom, syncShrink b args slots basalTxnid headUsed pending = some bottom →
    pending.lower ≤ bottom ∧ headUsed ≤ bottom ∧ pending.firstUnallocated ≤ bottom ∧
    (∀ slot ∈ slots, slot.pid ≠ 0 → slot.snapshotPagesUsed ≤ bottom) ∧ bottom < pending.now
  discarded : sizeT b (pending.firstUnallocated + args.madvThreshold) =
    pending.firstUnallocated + args.madvThreshold
  rounded : ShrinkReached b args pending →
    let largest := largestOf slots basalTxnid headUsed pending
    ShrinkTries pending args.gcHeight largest →
    let gap := 3 + args.gcHeight.toNat * 3
    let target := shrinkTarget pending args.gcHeight largest
    stockpileGap args.gcHeight = gap ∧
      pgnoT (pv2pages pending.shrinkPv + gap) = pv2pages pending.shrinkPv + gap ∧
      pgnoT (largest + gap) = largest + gap ∧ sizeT b target = target ∧
      pgnoCeil2osPgno b target = ceilPages b target

/-- The growth or the shrink of a step is right. -/
def StepOk (b : Build) (env : Env) : Op → Prop
  | .alloc num _ => ∀ txn, env.txn = some txn → GrowthOk b txn.geo num
  | .commit args _ => ∀ txn, env.txn = some txn →
      ShrinkOk b args env.slots txn.txnid env.head.firstUnallocated txn.geo
  | .sync args _ => env.txn = none →
      ShrinkOk b args env.slots env.headTxnid env.head.firstUnallocated env.head
  | _ => True

/-- All snapshots are covered all the time, and every step is right. -/
def Upheld (b : Build) (env : Env) : List Op → Prop
  | [] => Covered env
  | op :: ops => Covered env ∧ StepOk b env op ∧ Upheld b (step b env op) ops

/-! ## 2. The room of a step -/

def SyncFits (b : Build) (args : SyncArgs) (slots : List Slot) (basalTxnid headUsed : Nat)
    (pending : Geo) : Prop :=
  ShrinkReached b args pending →
    ShrinkFits b pending args.gcHeight (largestOf slots basalTxnid headUsed pending)

/-- The new end, if a step needs one, is rounded in a word that has room for it. -/
def Fits (b : Build) (env : Env) : Op → Prop
  | .alloc num _ => ∀ txn, env.txn = some txn → GrowthFits b txn.geo num
  | .commit args _ => ∀ txn, env.txn = some txn →
      SyncFits b args env.slots txn.txnid env.head.firstUnallocated txn.geo
  | .sync args _ => env.txn = none →
      SyncFits b args env.slots env.headTxnid env.head.firstUnallocated env.head
  | _ => True

def FitsAll (b : Build) (env : Env) : List Op → Prop
  | [] => True
  | op :: ops => Fits b env op ∧ FitsAll b (step b env op) ops

/-! ## 3. Growth -/

theorem growthOk_iff {geo : Geo} (hgeo : geo.Wf) {num : Nat} (hnum : num < 2 ^ 31) :
    GrowthOk b geo num ↔ GrowthFits b geo num := by
  have hlimit := hgeo.limit
  have hupper := hgeo.upper
  have hused := hgeo.used
  have hbits := sizeBits_le b
  have hpv := pv2pages_bounds geo.growPv
  constructor
  · intro hok hneed hinside hstep
    have hnext := nextStep_bounds (geo.firstUnallocated + num) (hpv.1 hstep)
    exact (pgnoCeil2osPgno_exact (by omega)).mp (hok.rounded hneed hinside hstep).2
  · intro hfits
    refine ⟨?_, Nat.mod_eq_of_lt (by omega), ?_⟩
    · rw [growTo_eq hgeo hnum hfits]
      exact growPages_sound b geo num
    · intro hneed hinside hstep
      have hnext := nextStep_bounds (geo.firstUnallocated + num) (hpv.1 hstep)
      have hroom := hfits hneed hinside hstep
      dsimp only
      refine ⟨?_, pgnoCeil2osPgno_eq hroom (by omega)⟩
      unfold sizeT pgnoT
      rw [Nat.mod_eq_of_lt (b := 2 ^ b.sizeBits) (by omega), Nat.mod_eq_of_lt (by omega)]

/-- The allocation keeps the relations of a geometry, and it does not move the end back. -/
theorem allocPages_pending {head : Geo} {headTxnid : Nat} {txn : Txn}
    (htxn : Pending head headTxnid txn) {num : Nat} (hnum : num < 2 ^ 31)
    (hfits : GrowthFits b txn.geo num) (resized : Bool) :
    Pending head headTxnid (allocPages b txn num resized) := by
  have hsound := ((growthOk_iff htxn.wf hnum).mpr hfits).sound
  have hlower := htxn.wf.lower
  have hupper := htxn.wf.upper
  have hlimit := htxn.wf.limit
  have hused := htxn.wf.used
  have hhead := htxn.head
  have hnext : pgnoT (txn.geo.firstUnallocated + num) = txn.geo.firstUnallocated + num :=
    Nat.mod_eq_of_lt (by omega)
  unfold allocPages
  dsimp only
  rw [hnext]
  cases hgrow : growTo b txn.geo num with
  | enough =>
      rw [hgrow] at hsound
      exact ⟨⟨hlower, hupper, hlimit, hsound⟩, hhead, htxn.txnid⟩
  | mapFull => exact htxn
  | grow aligned =>
      rw [hgrow] at hsound
      obtain ⟨hcover, hbelow, hmore⟩ := hsound
      cases resized with
      | false => exact htxn
      | true =>
          have hlower' : txn.geo.lower ≤ aligned := by omega
          have hhead' : head.now ≤ aligned := by omega
          exact ⟨⟨hlower', hbelow, hlimit, hcover⟩, hhead', htxn.txnid⟩

/-! ## 4. Shrink -/

section Sync

variable {args : SyncArgs} {slots : List Slot} {basalTxnid headUsed : Nat} {pending : Geo}

theorem syncShrink_eq_some {bottom : Nat}
    (h : syncShrink b args slots basalTxnid headUsed pending = some bottom) :
    ShrinkReached b args pending ∧
    shrinkTo b pending args.gcHeight (largestOf slots basalTxnid headUsed pending) =
      some bottom := by
  unfold syncShrink at h
  split at h
  · rename_i hallowed
    split at h
    · exact nomatch h
    · split at h
      · exact ⟨⟨hallowed, by omega, ‹_›⟩, h⟩
      · exact nomatch h
  · exact nomatch h

theorem largestOf_bounds (slots : List Slot) (basalTxnid headUsed : Nat) (pending : Geo) :
    headUsed ≤ largestOf slots basalTxnid headUsed pending ∧
    pending.firstUnallocated ≤ largestOf slots basalTxnid headUsed pending := by
  have hbounds := (mvccSnapshotLargest_bounds basalTxnid slots
    (largerOf headUsed pending.firstUnallocated)).1
  have hlarger : headUsed ≤ largerOf headUsed pending.firstUnallocated ∧
      pending.firstUnallocated ≤ largerOf headUsed pending.firstUnallocated := by
    unfold largerOf
    split
    · omega
    · omega
  unfold largestOf
  omega

/-- A new end is behind all snapshots that may still be read. -/
theorem syncShrink_sound (hgeo : pending.Wf)
    (hslots : ∀ slot ∈ slots, slot.pid ≠ 0 → slot.txnid ≤ basalTxnid)
    (hfits : SyncFits b args slots basalTxnid headUsed pending) {bottom : Nat}
    (h : syncShrink b args slots basalTxnid headUsed pending = some bottom) :
    pending.lower ≤ bottom ∧ headUsed ≤ bottom ∧ pending.firstUnallocated ≤ bottom ∧
    (∀ slot ∈ slots, slot.pid ≠ 0 → slot.snapshotPagesUsed ≤ bottom) ∧ bottom < pending.now := by
  obtain ⟨hreached, hshrink⟩ := syncShrink_eq_some h
  rw [shrinkTo_eq hgeo (hfits hreached)] at hshrink
  obtain ⟨hlower, hlargest, hless⟩ := shrinkPages_sound hgeo hshrink
  have hbounds := largestOf_bounds slots basalTxnid headUsed pending
  have hreaders := (mvccSnapshotLargest_bounds basalTxnid slots
    (largerOf headUsed pending.firstUnallocated)).2
  refine ⟨hlower, hbounds.1.trans hlargest, hbounds.2.trans hlargest, ?_, hless⟩
  intro slot hmem hpid
  exact (hreaders slot hmem hpid (hslots slot hmem hpid)).trans hlargest

theorem shrinkOk_iff (hgeo : pending.Wf)
    (hslots : ∀ slot ∈ slots, slot.pid ≠ 0 → slot.txnid ≤ basalTxnid) :
    ShrinkOk b args slots basalTxnid headUsed pending ↔
      SyncFits b args slots basalTxnid headUsed pending := by
  have hlimit := hgeo.limit
  have hupper := hgeo.upper
  have hused := hgeo.used
  have hbits := sizeBits_le b
  have hthreshold := args.threshold
  constructor
  · intro hok hreached htries
    have hrounded := hok.rounded hreached htries
    exact (pgnoCeil2osPgno_exact (shrinkTarget_bounds hgeo htries).2).mp hrounded.2.2.2.2
  · intro hfits
    refine ⟨fun bottom h => syncShrink_sound hgeo hslots hfits h, Nat.mod_eq_of_lt (by omega), ?_⟩
    intro hreached
    dsimp only
    intro htries
    have hroom := hfits hreached htries
    have hbounds := shrinkTarget_bounds hgeo htries
    have hinside := htries.inside
    have hheight := args.gcHeight.toNat_lt
    have hstep := (pv2pages_bounds pending.shrinkPv).2
    exact ⟨Nat.mod_eq_of_lt (by omega), Nat.mod_eq_of_lt (by omega), Nat.mod_eq_of_lt (by omega),
      Nat.mod_eq_of_lt (by omega), pgnoCeil2osPgno_eq hroom hbounds.2⟩

/-- The geometry that is committed covers the readers. -/
theorem shrunk_covers (hgeo : pending.Wf)
    (hslots : ∀ slot ∈ slots, slot.pid ≠ 0 →
      slot.txnid ≤ basalTxnid ∧ slot.snapshotPagesUsed ≤ pending.now)
    (hfits : SyncFits b args slots basalTxnid headUsed pending) :
    (shrunk pending (syncShrink b args slots basalTxnid headUsed pending)).Wf ∧
    ∀ slot ∈ slots, slot.pid ≠ 0 → slot.snapshotPagesUsed ≤
      (shrunk pending (syncShrink b args slots basalTxnid headUsed pending)).now := by
  cases hshrink : syncShrink b args slots basalTxnid headUsed pending with
  | none => exact ⟨hgeo, fun slot hmem hpid => (hslots slot hmem hpid).2⟩
  | some bottom =>
      obtain ⟨hlower, -, hused, hreaders, hless⟩ := syncShrink_sound hgeo
        (fun slot hmem hpid => (hslots slot hmem hpid).1) hfits hshrink
      exact ⟨⟨hlower, hless.le.trans hgeo.upper, hgeo.limit, hused⟩, hreaders⟩

end Sync

/-! ## 5. Runs -/

theorem stepOk_iff (hcovered : Covered env) (op : Op) : StepOk b env op ↔ Fits b env op := by
  cases op with
  | alloc num resized =>
      refine forall_congr' fun txn => forall_congr' fun htxn => ?_
      exact growthOk_iff (hcovered.txn txn htxn).wf num.isLt
  | commit args written =>
      refine forall_congr' fun txn => forall_congr' fun htxn => ?_
      have hpending := hcovered.txn txn htxn
      exact shrinkOk_iff hpending.wf fun slot hmem hpid =>
        (hcovered.slots slot hmem hpid).1.trans hpending.txnid.le
  | sync args written =>
      refine forall_congr' fun _ => ?_
      exact shrinkOk_iff hcovered.head fun slot hmem hpid => (hcovered.slots slot hmem hpid).1
  | beginRead | endRead | beginWrite | refund | abort => exact Iff.rfl

theorem covered_commit (hcovered : Covered env) {args : SyncArgs} {written : Bool}
    (hfits : Fits b env (.commit args written)) : Covered (step b env (.commit args written)) := by
  unfold step
  cases htxn : env.txn with
  | none => exact hcovered
  | some txn =>
      have hpending := hcovered.txn txn htxn
      dsimp only
      cases written with
      | false => exact ⟨hcovered.head, hcovered.slots, nofun⟩
      | true =>
          have hslots : ∀ slot ∈ env.slots, slot.pid ≠ 0 →
              slot.txnid ≤ txn.txnid ∧ slot.snapshotPagesUsed ≤ txn.geo.now := by
            intro slot hmem hpid
            obtain ⟨hid, hpages⟩ := hcovered.slots slot hmem hpid
            exact ⟨hid.trans hpending.txnid.le, hpages.trans hpending.head⟩
          have hshrunk := shrunk_covers hpending.wf hslots (hfits txn htxn)
          exact ⟨hshrunk.1, fun slot hmem hpid =>
            ⟨(hslots slot hmem hpid).1, hshrunk.2 slot hmem hpid⟩, nofun⟩

theorem covered_sync (hcovered : Covered env) {args : SyncArgs} {written : Bool}
    (hfits : Fits b env (.sync args written)) : Covered (step b env (.sync args written)) := by
  unfold step
  cases htxn : env.txn with
  | some txn => exact hcovered
  | none =>
      have hshrunk := shrunk_covers hcovered.head hcovered.slots (hfits htxn)
      dsimp only
      split
      · refine ⟨hshrunk.1, fun slot hmem hpid => ⟨?_, hshrunk.2 slot hmem hpid⟩, ?_⟩
        · have hid := (hcovered.slots slot hmem hpid).1
          exact Nat.le_succ_of_le hid
        · intro txn h
          cases h
      · exact hcovered

/-- A step whose new end is rounded with room for it leaves all snapshots inside the file. -/
theorem covered_step (hcovered : Covered env) (op : Op) (hfits : Fits b env op) :
    Covered (step b env op) := by
  cases op with
  | beginRead pid =>
      refine ⟨hcovered.head, fun slot hmem hpid => ?_, hcovered.txn⟩
      rcases List.mem_append.mp hmem with hmem | hmem
      · exact hcovered.slots slot hmem hpid
      · rw [List.mem_singleton.mp hmem]
        exact ⟨Nat.le_refl _, hcovered.head.used⟩
  | endRead slot =>
      exact ⟨hcovered.head, fun slot hmem hpid =>
        hcovered.slots slot (List.mem_of_mem_eraseIdx hmem) hpid, hcovered.txn⟩
  | beginWrite =>
      unfold step
      cases htxn : env.txn with
      | some txn => exact hcovered
      | none =>
          refine ⟨hcovered.head, hcovered.slots, fun txn h => ?_⟩
          cases h
          exact ⟨hcovered.head, Nat.le_refl _, Nat.lt_succ_self _⟩
  | alloc num resized =>
      refine ⟨hcovered.head, hcovered.slots, fun txn h => ?_⟩
      obtain ⟨before, hbefore, rfl⟩ := Option.map_eq_some_iff.mp h
      exact allocPages_pending (hcovered.txn before hbefore) num.isLt (hfits before hbefore) resized
  | refund firstUnallocated =>
      refine ⟨hcovered.head, hcovered.slots, fun txn h => ?_⟩
      obtain ⟨before, hbefore, rfl⟩ := Option.map_eq_some_iff.mp h
      have hpending := hcovered.txn before hbefore
      have hused : min firstUnallocated before.geo.firstUnallocated ≤ before.geo.now :=
        (Nat.min_le_right _ _).trans hpending.wf.used
      exact ⟨⟨hpending.wf.lower, hpending.wf.upper, hpending.wf.limit, hused⟩, hpending.head,
        hpending.txnid⟩
  | commit args written => exact covered_commit hcovered hfits
  | abort => exact ⟨hcovered.head, hcovered.slots, nofun⟩
  | sync args written => exact covered_sync hcovered hfits

/-- In a run the file covers all snapshots, every growth and every shrink is right and no page
number wraps, exactly when each new end is rounded in a word with room for it. -/
theorem run_upheld_iff : ∀ (ops : List Op) (env : Env), Covered env →
    (Upheld b env ops ↔ FitsAll b env ops)
  | [], env, hcovered => ⟨fun _ => trivial, fun _ => hcovered⟩
  | op :: ops, env, hcovered => by
      constructor
      · rintro ⟨-, hok, hrest⟩
        have hfits := (stepOk_iff hcovered op).mp hok
        have hnext := covered_step hcovered op hfits
        exact ⟨hfits, (run_upheld_iff ops (step b env op) hnext).mp hrest⟩
      · rintro ⟨hfits, hrest⟩
        have hnext := covered_step hcovered op hfits
        have hok := (stepOk_iff hcovered op).mpr hfits
        exact ⟨hcovered, hok, (run_upheld_iff ops (step b env op) hnext).mpr hrest⟩

theorem fits_of_wide (hwide : b.sizeBits = 64) (hcovered : Covered env) (op : Op) :
    Fits b env op := by
  cases op with
  | alloc num resized =>
      intro txn htxn
      exact growthFits_of_wide (hcovered.txn txn htxn).wf hwide num
  | commit args written =>
      intro txn htxn _
      exact shrinkFits_of_wide (hcovered.txn txn htxn).wf hwide args.gcHeight _
  | sync args written =>
      intro _ _
      exact shrinkFits_of_wide hcovered.head hwide args.gcHeight _
  | beginRead | endRead | beginWrite | refund | abort => exact trivial

theorem fitsAll_of_wide (hwide : b.sizeBits = 64) : ∀ (ops : List Op) (env : Env), Covered env →
    FitsAll b env ops
  | [], _, _ => trivial
  | op :: ops, env, hcovered => by
      have hfits := fits_of_wide hwide hcovered op
      exact ⟨hfits, fitsAll_of_wide hwide ops (step b env op) (covered_step hcovered op hfits)⟩

/-- Snapshots are covered in all runs with a `size_t` of 64 bits, and else in those where each new
end fits. -/
theorem snapshots_covered_iff (b : Build) (env : Env) (hcovered : Covered env) (ops : List Op) :
    (Upheld b env ops ↔ b.sizeBits = 64 ∨ FitsAll b env ops) := by
  rw [run_upheld_iff ops env hcovered]
  constructor
  · exact Or.inr
  · rintro (hwide | hfits)
    · exact fitsAll_of_wide hwide ops env hcovered
    · exact hfits

/-! ## 6. A word without room -/

/-- 4096 bytes per page and a `size_t` of 32 bits. -/
def narrowBuild : Build := ⟨32, .inl rfl, 12, by decide, 12, by decide⟩

def wideBuild : Build := ⟨64, .inr rfl, 12, by decide, 12, by decide⟩

/-- 100 pages in use that grow by 4 gigabytes, which 64-bit builds can set. -/
def coarseGeo : Geo := ⟨40831, 0, 10, 520192, 100, 100⟩

def coarseEnv : Env := ⟨coarseGeo, 5, none, [⟨7, 100, 5⟩]⟩

theorem coarseEnv_covered : Covered coarseEnv := by
  refine ⟨⟨by decide, by decide, by decide, by decide⟩, ?_, nofun⟩
  intro slot hmem _
  rw [List.mem_singleton.mp hmem]
  decide

theorem snapshots_covered_iff_coarse :
    Covered coarseEnv ∧ Upheld wideBuild coarseEnv [.beginWrite, .alloc 1 true, .abort] := by
  have hiff := snapshots_covered_iff wideBuild coarseEnv coarseEnv_covered
    [.beginWrite, .alloc 1 true, .abort]
  exact ⟨coarseEnv_covered, hiff.mpr (.inl rfl)⟩

/-- The new end wraps to zero, and the file loses the pages of the reader. -/
theorem coarse_step_wraps :
    Covered coarseEnv ∧ growTo narrowBuild coarseGeo 1 = .grow 0 ∧
    ¬ Upheld narrowBuild coarseEnv [.beginWrite, .alloc 1 true] := by
  have hwrap : growTo narrowBuild coarseGeo 1 = .grow 0 := by decide
  refine ⟨coarseEnv_covered, hwrap, ?_⟩
  rintro ⟨-, -, -, hok, -⟩
  have hsound := (hok ⟨coarseGeo, 6⟩ rfl).sound
  change (growTo narrowBuild coarseGeo 1).Sound coarseGeo 1 at hsound
  rw [hwrap] at hsound
  exact absurd hsound.1 (by decide)

end Mdbx.Geometry
