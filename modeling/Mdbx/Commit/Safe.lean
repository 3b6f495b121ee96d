import Mdbx.Commit.Model

/-!
# Commit.Safe — what the log of a writer has to satisfy

Of each write of a meta page: a steady one comes after the sync of its snapshot, and one with a new
txnid spares the recent and the preferred slot.  Of each moment: a steady meta that has been synced
is not lost in a crash without one at least as new.
-/

namespace Mdbx.Commit

open WriteLog

/-- The file at the beginning. -/
def initial (init : Nat → Meta) : Cell → Content
  | .slot n => if n < 3 then some (init n) else none
  | .page _ => none

/-- The metas that a reader of the file sees. -/
def metas (init : Nat → Meta) (log : Log Cell Content) (n : Nat) : Meta :=
  (replay (initial init) log (.slot n)).getD default

/-- No data page of the snapshot waits for a sync. -/
def SnapshotSynced (log : Log Cell Content) (m : Meta) : Prop :=
  ∀ p ∈ m.trees.pages, unsettled (.page p) log = false

/-- The write of the meta `m` to slot `n` after `log`.  A steady meta that is not written for the
first time is one that a failed write put back. -/
structure MetaWrite (init : Nat → Meta) (log : Log Cell Content) (n : Nat) (m : Meta) : Prop where
  slot : n < 3
  steady : m.isSteady = true →
    SnapshotSynced log m ∨ Written (initial init) (.slot n) (some m) log
  spared : (∀ k < 3, (metas init log k).txnid < m.txnid) →
    n ≠ (metaTapShadow (metas init log)).recent ∧ n ≠ (metaTapShadow (metas init log)).preferSteady

def EventOk (init : Nat → Meta) (log : Log Cell Content) : Event Cell Content → Prop
  | .write (.slot n) v _ => ∃ m, v = some m ∧ MetaWrite init log n m
  | _ => True

/-- A steady meta at least as new as `m` is in slot `k` after any crash. -/
structure Backed (init : Nat → Meta) (log : Log Cell Content) (k : Nat) (m : Meta) : Prop where
  slot : k < 3
  settled : unsettled (.slot k) log = false
  newer : ∃ m', replay (initial init) log (.slot k) = some m' ∧ m'.snapSteady = true ∧
    m.txnid ≤ m'.txnid

def Kept (init : Nat → Meta) (log : Log Cell Content) : Prop :=
  ∀ j m, Durable (initial init) (.slot j) (some m) log → m.snapSteady = true →
    ∃ k, Backed init log k m

/-- A property of every moment. -/
def Always (P : Log Cell Content → Prop) : Log Cell Content → Prop
  | [] => P []
  | e :: log => P (e :: log) ∧ Always P log

def SafeAt (init : Nat → Meta) : Log Cell Content → Prop
  | [] => True
  | e :: log => EventOk init log e

theorem Always.suffix {P : Log Cell Content → Prop} {log log' : Log Cell Content} (h : Always P log)
    (hs : log' <:+ log) : P log' := by
  induction log with
  | nil =>
    rw [List.suffix_nil.mp hs]
    exact h
  | cons e log ih =>
    rcases List.suffix_cons_iff.mp hs with heq | hs
    · rw [heq]
      exact h.1
    · exact ih h.2 hs

theorem Always.now {P : Log Cell Content → Prop} {log : Log Cell Content} (h : Always P log) :
    P log := h.suffix (List.suffix_refl log)

/-! ## 1. Single events -/

variable {init : Nat → Meta} {log : Log Cell Content}

/-- The slots with an unsynced write, the newest first. -/
def pendingSlots (log : Log Cell Content) : List Nat :=
  (pending log).filterMap fun
    | .slot n => some n
    | .page _ => none

theorem settled_of_not_pendingSlot {n : Nat} (h : n ∉ pendingSlots log) :
    unsettled (.slot n) log = false := by
  apply settled_of_not_pending
  intro hmem
  exact h (List.mem_filterMap.mpr ⟨.slot n, hmem, rfl⟩)

theorem pendingSlots_page (p : Nat) (v : Content) (through : Bool) (log : Log Cell Content) :
    pendingSlots (.write (.page p) v through :: log) = pendingSlots log := by
  cases through with
  | true => rfl
  | false => rfl

theorem pendingSlots_slot (n : Nat) (v : Content) (through : Bool) (log : Log Cell Content) :
    pendingSlots (.write (.slot n) v through :: log) =
      if through then pendingSlots log else n :: pendingSlots log := by
  cases through with
  | true => rfl
  | false => rfl

theorem durable_page {p : Nat} {v : Content} {through : Bool} {k : Nat} {m : Meta}
    (h : Durable (initial init) (.slot k) (some m) (.write (.page p) v through :: log)) :
    Durable (initial init) (.slot k) (some m) log := by
  rcases h with h | h
  · exact h
  · cases h.2.1

theorem written_page {p : Nat} {v : Content} {through : Bool} {k : Nat} {m : Meta}
    (h : Written (initial init) (.slot k) (some m) (.write (.page p) v through :: log)) :
    Written (initial init) (.slot k) (some m) log := by
  rcases h.of_write with h | h
  · exact h
  · cases h.1

theorem replay_page (p : Nat) (v : Content) (through : Bool) (log : Log Cell Content) (n : Nat) :
    replay (initial init) (.write (.page p) v through :: log) (.slot n) =
      replay (initial init) log (.slot n) := replay_of_ne Cell.noConfusion _ _ _

theorem unsettled_slot_page (p : Nat) (v : Content) (through : Bool) (log : Log Cell Content)
    (n : Nat) : unsettled (.slot n) (.write (.page p) v through :: log) = unsettled (.slot n) log :=
  unsettled_of_ne Cell.noConfusion _ _ _

theorem unsettled_page_slot (n : Nat) (v : Content) (through : Bool) (log : Log Cell Content)
    (p : Nat) : unsettled (.page p) (.write (.slot n) v through :: log) = unsettled (.page p) log :=
  unsettled_of_ne Cell.noConfusion _ _ _

theorem Kept.page (h : Kept init log) (p : Nat) (v : Content) (through : Bool) :
    Kept init (.write (.page p) v through :: log) := by
  intro j m hd hm
  obtain ⟨k, hk⟩ := h j m (durable_page hd) hm
  refine ⟨k, hk.slot, ?_, ?_⟩
  · rw [unsettled_slot_page]
    exact hk.settled
  · rw [replay_page]
    exact hk.newer

/-! ## 2. Data pages -/

-- a property that data pages do not touch
theorem Always.writePages {P : Log Cell Content → Prop} (h : Always P log)
    (hP : ∀ log p v through, P log → P (.write (.page p) v through :: log)) (pages : List Nat)
    (through : Bool) : Always P (writePages log pages through) := by
  induction pages with
  | nil => exact h
  | cons p pages ih => exact ⟨hP _ p none through ih.now, ih⟩

theorem pendingSlots_writePages (log : Log Cell Content) (pages : List Nat) (through : Bool) :
    pendingSlots (writePages log pages through) = pendingSlots log := by
  induction pages with
  | nil => rfl
  | cons p pages ih => exact (pendingSlots_page p none through _).trans ih

theorem replay_writePages (log : Log Cell Content) (pages : List Nat) (through : Bool) (n : Nat) :
    replay (initial init) (writePages log pages through) (.slot n) =
      replay (initial init) log (.slot n) := by
  induction pages with
  | nil => rfl
  | cons p pages ih => exact (replay_page p none through _ n).trans ih

theorem written_writePages {pages : List Nat} {through : Bool} {k : Nat} {m : Meta}
    (h : Written (initial init) (.slot k) (some m) (writePages log pages through)) :
    Written (initial init) (.slot k) (some m) log := by
  induction pages with
  | nil => exact h
  | cons p pages ih => exact ih (written_page h)

theorem unsettled_writePages_of_not_mem {pages : List Nat} {p : Nat} (h : p ∉ pages)
    (log : Log Cell Content) (through : Bool) :
    unsettled (.page p) (writePages log pages through) = unsettled (.page p) log := by
  induction pages with
  | nil => rfl
  | cons q pages ih =>
    have hne : Cell.page p ≠ Cell.page q := by
      intro heq
      injection heq with heq
      exact h (heq ▸ List.mem_cons_self)
    exact (unsettled_of_ne hne _ _ _).trans (ih fun hmem => h (List.mem_cons_of_mem _ hmem))

-- a write that goes through leaves nothing to be synced
theorem unsettled_writePages_through {p : Nat} {log : Log Cell Content}
    (pages : List Nat) (h : p ∈ pages ∨ unsettled (.page p) log = false) :
    unsettled (.page p) (writePages log pages true) = false := by
  induction pages with
  | nil =>
    rcases h with h | h
    · exact absurd h List.not_mem_nil
    · exact h
  | cons q pages ih =>
    by_cases hq : p = q
    · subst hq
      exact unsettled_self _ _ _ _
    · have hne : Cell.page p ≠ Cell.page q := fun heq => hq (Cell.page.inj heq)
      have hrest : p ∈ pages ∨ unsettled (.page p) log = false := by
        rcases h with h | h
        · exact Or.inl (List.mem_of_ne_of_mem hq h)
        · exact Or.inr h
      exact (unsettled_of_ne hne _ _ _).trans (ih hrest)

end Mdbx.Commit
