import Mdbx.Basic
import Mathlib.Data.Fin.Basic
import Mathlib.Tactic.Common

/-!
# Commit.Troika — the three meta pages

A file has three meta pages.  A table over the comparisons of their txnids and over which of them
are steady says which is the recent one, which steady one is preferred, and which may be overwritten.
-/

namespace Mdbx.Commit

/-- `geo_t` -/
structure Geometry where
  lower : Nat
  now : Nat
  upper : Nat
  firstUnallocated : Nat
  growPv : Nat
  shrinkPv : Nat
  deriving DecidableEq, Repr, Inhabited

/-- `meta.trees`: the height of the GC tree, and the data pages of the snapshot for the roots that
lead to them. -/
structure Trees where
  gcHeight : Nat
  pages : List Nat
  deriving DecidableEq, Repr, Inhabited

/-- `meta_t`; its two copies of the txnid are the same, as a write of a meta page is one write. -/
structure Meta where
  txnid : Nat
  sign : Nat
  geometry : Geometry
  trees : Trees
  canary : Nat
  deriving DecidableEq, Repr, Inhabited

/-- `DATASIGN_NONE`, `DATASIGN_WEAK` and the value of `meta_sign_calculate`. -/
def signNone : Nat := 0
def signWeak : Nat := 1
def signSteady : Nat := uint64Max

/-- `meta_is_steady`, that is `SIGN_IS_STEADY`. -/
def Meta.isSteady (m : Meta) : Bool := signWeak < m.sign

/-- `is_steady` of `meta_snap`. -/
def Meta.snapSteady (m : Meta) : Bool := m.isSteady ∧ minTxnid ≤ m.txnid

/-! ## 1. The table -/

def metaCmp2int (a b s : Nat) : Nat := if a = b then 1 * s else if b < a then 2 * s else 0 * s

def metaCmp2recent (c : Nat) (aSteady bSteady : Bool) : Bool :=
  1 < c ∨ c = 1 ∧ aSteady ∧ ¬ bSteady

def metaCmp2steady (c : Nat) (aSteady bSteady : Bool) : Bool :=
  aSteady ∧ ¬ bSteady ∨ aSteady = bSteady ∧ 1 < c

/-- `meta_cmp2pack` -/
def metaCmp2pack (c01 c02 c12 : Nat) (s0 s1 s2 : Bool) : Nat :=
  let recent := if metaCmp2recent c01 s0 s1 then if metaCmp2recent c02 s0 s2 then 0 else 2
    else if metaCmp2recent c12 s1 s2 then 1 else 2
  let preferSteady := if metaCmp2steady c01 s0 s1 then if metaCmp2steady c02 s0 s2 then 0 else 2
    else if metaCmp2steady c12 s1 s2 then 1 else 2
  let tail := if recent = 0 then if metaCmp2steady c12 s1 s2 then 2 else 1
    else if recent = 1 then if metaCmp2steady c02 s0 s2 then 2 else 0
    else if metaCmp2steady c01 s0 s1 then 1 else 0
  let valid := c01 ≠ 1 ∨ s0 ≠ s1 ∨ c02 ≠ 1 ∨ s0 ≠ s2 ∨ c12 ≠ 1 ∨ s1 ≠ s2
  let strict := (c01 ≠ 1 ∨ s0 ≠ s1) ∧ (c02 ≠ 1 ∨ s0 ≠ s2) ∧ (c12 ≠ 1 ∨ s1 ≠ s2)
  tail + recent * 4 + preferSteady * 16 + (if strict then 64 else 0) + if valid then 128 else 0

/-- `troika_fsm_map` -/
def troikaFsmMap : List Nat := [
  232, 201, 216, 216, 232, 233, 232, 232, 168, 201, 216, 152, 168, 233, 232, 168, 233, 201,
  216, 201, 233, 233, 232, 233, 168, 201, 152, 216, 232, 169, 232, 168, 168, 193, 152, 152,
  168, 169, 232, 168, 169, 193, 152, 194, 233, 169, 232, 169, 232, 201, 216, 216, 232, 201,
  232, 232, 168, 193, 216, 152, 168, 193, 232, 168, 193, 193, 210, 194, 225, 193, 225, 193,
  168, 137, 212, 214, 232, 233, 168, 168, 168, 137, 212, 150, 168, 233, 168, 168, 169, 137,
  216, 201, 233, 233, 168, 169, 168, 137, 148, 214, 232, 169, 168, 168, 40, 129, 148, 150,
  168, 169, 168, 40, 169, 129, 152, 194, 233, 169, 168, 169, 168, 137, 214, 214, 232, 201,
  168, 168, 168, 129, 214, 150, 168, 193, 168, 168, 129, 129, 210, 194, 225, 193, 161, 129,
  212, 198, 212, 214, 228, 228, 212, 212, 148, 201, 212, 150, 164, 233, 212, 148, 233, 201,
  216, 201, 233, 233, 216, 233, 148, 198, 148, 214, 228, 164, 212, 148, 148, 194, 148, 150,
  164, 169, 212, 148, 169, 194, 152, 194, 233, 169, 216, 169, 214, 198, 214, 214, 228, 198,
  212, 214, 150, 194, 214, 150, 164, 193, 212, 150, 194, 194, 210, 194, 225, 193, 210, 194]

/-- `troika_t` without the txnids -/
structure Troika where
  fsm : Nat
  recent : Nat
  preferSteady : Nat
  tailAndFlags : Nat
  deriving DecidableEq, Repr, Inhabited

def metaTroikaUnpack (fsm packed : Nat) : Troika :=
  ⟨fsm, packed / 4 % 4, packed / 16 % 4, packed % 4 + packed / 64 * 64⟩

def Troika.tail (t : Troika) : Nat := t.tailAndFlags % 4
def Troika.haveSteady (t : Troika) : Bool := t.fsm % 8 ≠ 0

/-- The number of a state of the table. -/
def fsmOf (t0 t1 t2 : Nat) (s0 s1 s2 : Bool) : Nat :=
  s0.toNat + s1.toNat * 2 + metaCmp2int t0 t1 8 + s2.toNat * 4 + metaCmp2int t0 t2 (8 * 3) +
    metaCmp2int t1 t2 (8 * 3 * 3)

/-- `meta_tap_shadow` -/
def metaTapShadow (shadow : Nat → Meta) : Troika :=
  let fsm := fsmOf (shadow 0).txnid (shadow 1).txnid (shadow 2).txnid (shadow 0).snapSteady
    (shadow 1).snapSteady (shadow 2).snapSteady
  metaTroikaUnpack fsm (troikaFsmMap.getD fsm 0)

-- `troika_verify_fsm`
theorem troikaFsmMap_eq : ∀ i < 216, troikaFsmMap.getD i 0 =
    metaCmp2pack (i / 8 % 3) (i / 24 % 3) (i / 72 % 3) (i % 2 = 1) (i / 2 % 2 = 1) (i / 4 % 2 = 1) := by
  decide +kernel

/-! ## 2. What the table says -/

/-- The three values of a function on slots. -/
def three {α : Type} (a b c : α) : Nat → α
  | 0 => a
  | 1 => b
  | _ => c

/-- The table's choice for three txnids and three signs. -/
def choose (t : Nat → Nat) (s : Nat → Bool) : Troika :=
  let fsm := fsmOf (t 0) (t 1) (t 2) (s 0) (s 1) (s 2)
  metaTroikaUnpack fsm (troikaFsmMap.getD fsm 0)

/-- The choice is right: the recent slot has the newest meta, the preferred one the newest steady
meta, and the tail is another slot and the worse one of the two that are not recent. -/
structure Choice (t : Nat → Nat) (s : Nat → Bool) (c : Troika) : Prop where
  slots : c.recent < 3 ∧ c.preferSteady < 3 ∧ c.tail < 3
  tail_ne : c.tail ≠ c.recent ∧ c.tail ≠ c.preferSteady
  newest : ∀ k < 3, t k ≤ t c.recent ∧ (t c.recent ≤ t k → s k = true → s c.recent = true)
  steady : ∀ k < 3, s k = true → s c.preferSteady = true ∧ t k ≤ t c.preferSteady
  oldest : ∀ k < 3, k ≠ c.recent → s c.tail = true → s k = true ∧ t c.tail ≤ t k
  haveSteady : c.haveSteady = true ↔ ∃ k < 3, s k = true

theorem choose_rank (a b c : Fin 3) (s0 s1 s2 : Bool) :
    Choice (three a.val b.val c.val) (three s0 s1 s2)
      (choose (three a.val b.val c.val) (three s0 s1 s2)) where
  slots := by
    revert a b c s0 s1 s2
    decide +kernel
  tail_ne := by
    revert a b c s0 s1 s2
    decide +kernel
  newest := by
    revert a b c s0 s1 s2
    decide +kernel
  steady := by
    revert a b c s0 s1 s2
    decide +kernel
  oldest := by
    revert a b c s0 s1 s2
    decide +kernel
  haveSteady := by
    revert a b c s0 s1 s2
    decide +kernel

/-- How many of the three txnids are below that of slot `i`. -/
def rank (t : Nat → Nat) (i : Nat) : Nat :=
  (if t 0 < t i then 1 else 0) + (if t 1 < t i then 1 else 0) + if t 2 < t i then 1 else 0

theorem rank_lt (t : Nat → Nat) {i : Nat} (hi : i < 3) : rank t i < 3 := by
  unfold rank
  obtain rfl | rfl | rfl : i = 0 ∨ i = 1 ∨ i = 2 := by omega
  all_goals
    split_ifs <;> omega

theorem rank_le_iff (t : Nat → Nat) {i j : Nat} (hi : i < 3) (hj : j < 3) :
    rank t i ≤ rank t j ↔ t i ≤ t j := by
  unfold rank
  obtain rfl | rfl | rfl : i = 0 ∨ i = 1 ∨ i = 2 := by omega
  all_goals
    obtain rfl | rfl | rfl : j = 0 ∨ j = 1 ∨ j = 2 := by omega
    all_goals
      split_ifs <;> omega

theorem metaCmp2int_congr {a b a' b' : Nat} (hab : a ≤ b ↔ a' ≤ b') (hba : b ≤ a ↔ b' ≤ a')
    (s : Nat) : metaCmp2int a b s = metaCmp2int a' b' s := by
  unfold metaCmp2int
  split_ifs <;> omega

-- the table sees only the order of the txnids, so ranks stand for them
theorem choose_eq_rank (t : Nat → Nat) (s : Nat → Bool) : choose t s = choose (rank t) s := by
  have hcmp : ∀ i j k, i < 3 → j < 3 →
      metaCmp2int (t i) (t j) k = metaCmp2int (rank t i) (rank t j) k := by
    intro i j k hi hj
    exact metaCmp2int_congr (rank_le_iff t hi hj).symm (rank_le_iff t hj hi).symm k
  unfold choose fsmOf
  rw [hcmp 0 1 _ (by decide) (by decide), hcmp 0 2 _ (by decide) (by decide),
    hcmp 1 2 _ (by decide) (by decide)]

theorem choose_spec (t : Nat → Nat) (s : Nat → Bool) : Choice t s (choose t s) := by
  have hrank := choose_rank ⟨rank t 0, rank_lt t (by decide)⟩ ⟨rank t 1, rank_lt t (by decide)⟩
    ⟨rank t 2, rank_lt t (by decide)⟩ (s 0) (s 1) (s 2)
  simp only at hrank
  have ht : ∀ k < 3, three (rank t 0) (rank t 1) (rank t 2) k = rank t k := by
    intro k hk
    obtain rfl | rfl | rfl : k = 0 ∨ k = 1 ∨ k = 2 := by omega
    all_goals rfl
  have hs : ∀ k < 3, three (s 0) (s 1) (s 2) k = s k := by
    intro k hk
    obtain rfl | rfl | rfl : k = 0 ∨ k = 1 ∨ k = 2 := by omega
    all_goals rfl
  have hc : choose (three (rank t 0) (rank t 1) (rank t 2)) (three (s 0) (s 1) (s 2)) =
      choose t s := by
    rw [choose_eq_rank t s]
    rfl
  rw [hc] at hrank
  obtain ⟨hr, hp, hl⟩ := hrank.slots
  have hle : ∀ i j, i < 3 → j < 3 → (three (rank t 0) (rank t 1) (rank t 2) i ≤
      three (rank t 0) (rank t 1) (rank t 2) j ↔ t i ≤ t j) := by
    intro i j hi hj
    rw [ht i hi, ht j hj]
    exact rank_le_iff t hi hj
  refine ⟨⟨hr, hp, hl⟩, hrank.tail_ne, ?_, ?_, ?_, ?_⟩
  · intro k hk
    have hn := hrank.newest k hk
    rw [hle k _ hk hr, hle _ k hr hk, hs k hk, hs _ hr] at hn
    exact hn
  · intro k hk
    have hn := hrank.steady k hk
    rw [hle k _ hk hp, hs k hk, hs _ hp] at hn
    exact hn
  · intro k hk
    have hn := hrank.oldest k hk
    rw [hle _ k hl hk, hs k hk, hs _ hl] at hn
    exact hn
  · rw [hrank.haveSteady]
    constructor
    · intro h
      obtain ⟨k, hk, hsk⟩ := h
      exact ⟨k, hk, (hs k hk).symm.trans hsk⟩
    · intro h
      obtain ⟨k, hk, hsk⟩ := h
      exact ⟨k, hk, (hs k hk).trans hsk⟩

/-- `meta_tap_shadow` chooses right for any three metas. -/
theorem metaTapShadow_spec (shadow : Nat → Meta) :
    Choice (fun k => (shadow k).txnid) (fun k => (shadow k).snapSteady) (metaTapShadow shadow) :=
  choose_spec _ _

end Mdbx.Commit
