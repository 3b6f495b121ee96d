import Mdbx.Commit.Model

/-!
# Readers.Metas — the recent and the steady txnid

What readers and the writer take from the three metas, and that no commit takes them back.
-/

namespace Mdbx.Readers

open Commit

def recentTxnid (metas : Nat → Meta) : Nat := (metas (metaTapShadow metas).recent).txnid

def steadyTxnid (metas : Nat → Meta) : Nat := (metas (metaTapShadow metas).preferSteady).txnid

/-- `meta_troika_equal` of the troikas of two shadows. -/
def metaTroikaEqual (a b : Nat → Meta) : Prop :=
  (metaTapShadow a).fsm = (metaTapShadow b).fsm ∧ (a 0).txnid = (b 0).txnid ∧
    (a 1).txnid = (b 1).txnid ∧ (a 2).txnid = (b 2).txnid

instance (a b : Nat → Meta) : Decidable (metaTroikaEqual a b) :=
  inferInstanceAs (Decidable (_ ∧ _))

/-! ## 1. The preferred meta -/

theorem le_recentTxnid (metas : Nat → Meta) {k : Nat} (hk : k < 3) :
    (metas k).txnid ≤ recentTxnid metas := ((metaTapShadow_spec metas).newest k hk).1

theorem steadyTxnid_le (metas : Nat → Meta) : steadyTxnid metas ≤ recentTxnid metas :=
  le_recentTxnid metas (metaTapShadow_spec metas).slots.2.1

theorem le_steadyTxnid (metas : Nat → Meta) {k : Nat} (hk : k < 3)
    (hs : (metas k).snapSteady = true) : (metas k).txnid ≤ steadyTxnid metas :=
  ((metaTapShadow_spec metas).steady k hk hs).2

-- no steady meta, and the newest one is preferred
theorem choose_rank_unsteady (a b c : Fin 3) : ∀ k < 3, three a.val b.val c.val k ≤
    three a.val b.val c.val
      (choose (three a.val b.val c.val) (three false false false)).preferSteady := by
  revert a b c
  decide +kernel

theorem unsteady_newest {metas : Nat → Meta} (hs : ∀ k < 3, (metas k).snapSteady = false) :
    recentTxnid metas ≤ steadyTxnid metas := by
  have hslots := (metaTapShadow_spec metas).slots
  have hrank := choose_rank_unsteady
    ⟨rank (fun k => (metas k).txnid) 0, rank_lt _ (by decide)⟩
    ⟨rank (fun k => (metas k).txnid) 1, rank_lt _ (by decide)⟩
    ⟨rank (fun k => (metas k).txnid) 2, rank_lt _ (by decide)⟩ (metaTapShadow metas).recent
    hslots.1
  have hthree : ∀ k < 3, three (rank (fun k => (metas k).txnid) 0)
      (rank (fun k => (metas k).txnid) 1) (rank (fun k => (metas k).txnid) 2) k =
      rank (fun k => (metas k).txnid) k := by
    intro k hk
    rcases (by omega : k = 0 ∨ k = 1 ∨ k = 2) with h | h | h
    all_goals
      rw [h]
      rfl
  have hchoose : choose (three (rank (fun k => (metas k).txnid) 0)
      (rank (fun k => (metas k).txnid) 1) (rank (fun k => (metas k).txnid) 2))
      (three false false false) = metaTapShadow metas := by
    have hsteady : choose (fun k => (metas k).txnid) (fun k => (metas k).snapSteady) =
        choose (fun k => (metas k).txnid) (three false false false) := by
      unfold choose
      dsimp only
      rw [hs 0 (by decide), hs 1 (by decide), hs 2 (by decide)]
      rfl
    have htap : metaTapShadow metas =
        choose (fun k => (metas k).txnid) (fun k => (metas k).snapSteady) := rfl
    rw [htap, hsteady, choose_eq_rank (fun k => (metas k).txnid)]
    rfl
  simp only at hrank
  rw [hchoose, hthree _ hslots.1, hthree _ hslots.2.1] at hrank
  exact (rank_le_iff _ hslots.1 hslots.2.1).mp hrank

-- a newer meta is preferred if it is steady or nothing else is
theorem steadyTxnid_mono {old new : Nat → Meta} {k : Nat} (hk : k < 3)
    (hle : steadyTxnid old ≤ (new k).txnid)
    (hsteady : (new k).snapSteady = true ∨ ∀ j < 3, (new j).snapSteady = false) :
    steadyTxnid old ≤ steadyTxnid new := by
  cases hsteady with
  | inl hs => exact Nat.le_trans hle (le_steadyTxnid new hk hs)
  | inr hnone =>
    exact Nat.le_trans hle (Nat.le_trans (le_recentTxnid new hk) (unsteady_newest hnone))

/-! ## 2. Writes of metas -/

def setMeta (metas : Nat → Meta) (n : Nat) (m : Meta) : Nat → Meta :=
  fun k => if k = n then m else metas k

/-- A commit writes over the tail. -/
def commitMeta (metas : Nat → Meta) (m : Meta) : Nat → Meta :=
  setMeta metas (metaTapShadow metas).tail m

/-- The recent meta is written again with the sign of a steady one. -/
def makeSteady (metas : Nat → Meta) : Nat → Meta :=
  setMeta metas (metaTapShadow metas).recent
    { metas (metaTapShadow metas).recent with sign := signSteady }

/-- `meta_wipe_steady`: the steady metas up to a txnid lose their sign. -/
def wipeSteady (metas : Nat → Meta) (upto : Nat) : Nat → Meta := fun k =>
  if (metas k).isSteady ∧ (metas k).txnid ≤ upto then { metas k with sign := signNone }
  else metas k

theorem commitMeta_recent {metas : Nat → Meta} {m : Meta} (hm : recentTxnid metas < m.txnid) :
    recentTxnid (commitMeta metas m) = m.txnid := by
  have htail := (metaTapShadow_spec metas).slots.2.2
  have hself : commitMeta metas m (metaTapShadow metas).tail = m := if_pos rfl
  apply Nat.le_antisymm
  · unfold recentTxnid
    have hk := (metaTapShadow_spec (commitMeta metas m)).slots.1
    generalize (metaTapShadow (commitMeta metas m)).recent = k at hk ⊢
    unfold commitMeta setMeta
    split_ifs
    · exact Nat.le_refl _
    · exact Nat.le_trans (le_recentTxnid metas hk) (Nat.le_of_lt hm)
  · have hle := le_recentTxnid (commitMeta metas m) htail
    rw [hself] at hle
    exact hle

theorem commitMeta_steady {metas : Nat → Meta} {m : Meta} (hm : recentTxnid metas < m.txnid) :
    steadyTxnid metas ≤ steadyTxnid (commitMeta metas m) := by
  have hspec := metaTapShadow_spec metas
  have hold := steadyTxnid_le metas
  have hself : commitMeta metas m (metaTapShadow metas).tail = m := if_pos rfl
  have hprefer : commitMeta metas m (metaTapShadow metas).preferSteady =
      metas (metaTapShadow metas).preferSteady := if_neg (fun h => hspec.tail_ne.2 h.symm)
  by_cases hp : (metas (metaTapShadow metas).preferSteady).snapSteady = true
  · apply steadyTxnid_mono hspec.slots.2.1 (Nat.le_of_eq _) (Or.inl (hprefer ▸ hp))
    rw [hprefer]
    rfl
  · have hnone : ∀ k < 3, (metas k).snapSteady = false := fun k hk => by
      cases hs : (metas k).snapSteady with
      | false => rfl
      | true => exact absurd (hspec.steady k hk hs).1 hp
    apply steadyTxnid_mono hspec.slots.2.2
    · rw [hself]
      omega
    · cases hs : m.snapSteady with
      | true =>
        rw [hself]
        exact Or.inl hs
      | false =>
        apply Or.inr
        intro k hk
        unfold commitMeta setMeta
        split_ifs
        · exact hs
        · exact hnone k hk

theorem makeSteady_txnid (metas : Nat → Meta) (k : Nat) :
    (makeSteady metas k).txnid = (metas k).txnid := by
  unfold makeSteady setMeta
  split_ifs with h
  · rw [h]
  · rfl

theorem wipeSteady_txnid (metas : Nat → Meta) (upto k : Nat) :
    (wipeSteady metas upto k).txnid = (metas k).txnid := by
  unfold wipeSteady
  split_ifs
  · rfl
  · rfl

-- the recent txnid depends on the txnids only
theorem recentTxnid_congr {a b : Nat → Meta} (h : ∀ k, (a k).txnid = (b k).txnid) :
    recentTxnid a = recentTxnid b := by
  apply Nat.le_antisymm
  · unfold recentTxnid
    rw [h]
    exact le_recentTxnid b (metaTapShadow_spec a).slots.1
  · unfold recentTxnid
    rw [← h]
    exact le_recentTxnid a (metaTapShadow_spec b).slots.1

theorem makeSteady_steady {metas : Nat → Meta} (hmin : minTxnid ≤ recentTxnid metas) :
    steadyTxnid metas ≤ steadyTxnid (makeSteady metas) := by
  have hrecent := (metaTapShadow_spec metas).slots.1
  have hself : makeSteady metas (metaTapShadow metas).recent =
      { metas (metaTapShadow metas).recent with sign := signSteady } := if_pos rfl
  apply steadyTxnid_mono hrecent
  · rw [makeSteady_txnid]
    exact steadyTxnid_le metas
  · apply Or.inl
    rw [hself]
    exact decide_eq_true ⟨(rfl : decide (signWeak < signSteady) = true), hmin⟩

theorem wipeSteady_steady (metas : Nat → Meta) (upto : Nat) :
    steadyTxnid metas ≤ steadyTxnid (wipeSteady metas upto) := by
  have hspec := metaTapShadow_spec metas
  by_cases hsome : ∃ k < 3, (wipeSteady metas upto k).snapSteady = true
  · have ⟨k, hk, hs⟩ := hsome
    -- what is still steady is newer than all that was wiped
    have hkeep : (metas k).snapSteady = true ∧ ¬((metas k).isSteady ∧ (metas k).txnid ≤ upto) := by
      by_cases hw : (metas k).isSteady ∧ (metas k).txnid ≤ upto
      · rw [wipeSteady, if_pos hw] at hs
        have hsign : decide (signWeak < signNone) = true := (of_decide_eq_true hs).1
        exact absurd hsign (by decide)
      · rw [wipeSteady, if_neg hw] at hs
        exact ⟨hs, hw⟩
    have ⟨hp, hle⟩ := hspec.steady k hk hkeep.1
    have hks : (metas k).isSteady = true := (of_decide_eq_true hkeep.1).1
    have hprefer : wipeSteady metas upto (metaTapShadow metas).preferSteady =
        metas (metaTapShadow metas).preferSteady := by
      apply if_neg
      intro h
      exact hkeep.2 ⟨hks, Nat.le_trans hle h.2⟩
    apply steadyTxnid_mono hspec.slots.2.1 (Nat.le_of_eq _) (Or.inl (hprefer ▸ hp))
    rw [hprefer]
    rfl
  · have hnone : ∀ k < 3, (wipeSteady metas upto k).snapSteady = false := fun k hk => by
      cases hs : (wipeSteady metas upto k).snapSteady with
      | false => rfl
      | true => exact absurd ⟨k, hk, hs⟩ hsome
    apply steadyTxnid_mono hspec.slots.1 _ (Or.inr hnone)
    rw [wipeSteady_txnid]
    exact steadyTxnid_le metas

theorem metaTroikaEqual_recent {a b : Nat → Meta} (h : metaTroikaEqual a b) :
    recentTxnid a = recentTxnid b := by
  have hk := (metaTapShadow_spec a).slots.1
  have hsame : (metaTapShadow a).recent = (metaTapShadow b).recent := by
    have hfsm : ∀ m : Nat → Meta, (metaTapShadow m).recent =
        (metaTroikaUnpack (metaTapShadow m).fsm (troikaFsmMap.getD (metaTapShadow m).fsm 0)).recent :=
      fun m => rfl
    rw [hfsm a, hfsm b, h.1]
  unfold recentTxnid
  rw [← hsame]
  rcases (by omega : (metaTapShadow a).recent = 0 ∨ (metaTapShadow a).recent = 1 ∨
    (metaTapShadow a).recent = 2) with hr | hr | hr
  · rw [hr]
    exact h.2.1
  · rw [hr]
    exact h.2.2.1
  · rw [hr]
    exact h.2.2.2

end Mdbx.Readers
