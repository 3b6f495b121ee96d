import Mathlib.Data.List.Infix
import Mathlib.Tactic.Common

/-!
# WriteLog — writes, syncs and crashes

The writes to a file in the order they were made, with the syncs between them.  A crash keeps what a
sync has settled and any part of the rest.
-/

namespace WriteLog

variable {κ ν : Type}

/-- A write to the cell `k`; one that goes `through` needs no sync. -/
inductive Event (κ ν : Type) where
  | write (k : κ) (v : ν) (through : Bool)
  | sync
  deriving DecidableEq, Repr

/-- The newest event comes first. -/
abbrev Log (κ ν : Type) := List (Event κ ν)

/-! ## 1. Contents -/

section Contents

variable [DecidableEq κ] (d₀ : κ → ν)

/-- What a reader of the file sees. -/
def replay : Log κ ν → κ → ν
  | [], k => d₀ k
  | .sync :: log, k => replay log k
  | .write k' v _ :: log, k => if k = k' then v else replay log k

/-- What a crash leaves, where `keep` chooses among the unsettled writes by their place in the
log. -/
def disk (keep : Nat → Bool) : Bool → Log κ ν → κ → ν
  | _, [], k => d₀ k
  | _, .sync :: log, k => disk keep true log k
  | synced, .write k' v through :: log, k =>
      if k = k' ∧ (synced || through || keep log.length) then v else disk keep synced log k

/-- The last write to the cell has neither gone through nor been followed by a sync. -/
def unsettled (k : κ) : Log κ ν → Bool
  | [] => false
  | .sync :: _ => false
  | .write k' _ through :: log => if k = k' then !through else unsettled k log

/-- The cells of the writes that a crash may drop, the newest first. -/
def pending : Log κ ν → List κ
  | [] => []
  | .sync :: _ => []
  | .write k _ through :: log => if through then pending log else k :: pending log

variable {d₀}

theorem replay_self (k : κ) (v : ν) (through : Bool) (log : Log κ ν) :
    replay d₀ (.write k v through :: log) k = v := if_pos rfl

theorem replay_of_ne {k k' : κ} (h : k ≠ k') (v : ν) (through : Bool) (log : Log κ ν) :
    replay d₀ (.write k' v through :: log) k = replay d₀ log k := if_neg h

theorem unsettled_self (k : κ) (v : ν) (through : Bool) (log : Log κ ν) :
    unsettled k (.write k v through :: log) = !through := if_pos rfl

theorem unsettled_of_ne {k k' : κ} (h : k ≠ k') (v : ν) (through : Bool) (log : Log κ ν) :
    unsettled k (.write k' v through :: log) = unsettled k log := if_neg h

theorem disk_synced (keep : Nat → Bool) (log : Log κ ν) (k : κ) :
    disk d₀ keep true log k = replay d₀ log k := by
  induction log with
  | nil => rfl
  | cons e log ih =>
    cases e with
    | sync => exact ih
    | write k' v through =>
      unfold disk replay
      by_cases h : k = k'
      · rw [if_pos ⟨h, rfl⟩, if_pos h]
      · rw [if_neg fun hc => h hc.1, if_neg h]
        exact ih

/-- A settled cell is the same after any crash. -/
theorem disk_of_settled (keep : Nat → Bool) {log : Log κ ν} {k : κ} (h : unsettled k log = false) :
    disk d₀ keep false log k = replay d₀ log k := by
  induction log with
  | nil => rfl
  | cons e log ih =>
    cases e with
    | sync => exact disk_synced keep log k
    | write k' v through =>
      unfold disk replay
      by_cases hk : k = k'
      · subst hk
        rw [unsettled_self] at h
        have ht : through = true := by simpa using h
        rw [if_pos ⟨rfl, by rw [ht]; rfl⟩, if_pos rfl]
      · rw [unsettled_of_ne hk] at h
        rw [if_neg fun hc => hk hc.1, if_neg hk]
        exact ih h

theorem mem_pending_of_unsettled {log : Log κ ν} {k : κ} (h : unsettled k log = true) :
    k ∈ pending log := by
  induction log with
  | nil => exact absurd h Bool.false_ne_true
  | cons e log ih =>
    cases e with
    | sync => exact absurd h Bool.false_ne_true
    | write k' v through =>
      unfold pending
      by_cases hk : k = k'
      · subst hk
        rw [unsettled_self] at h
        have ht : through = false := by simpa using h
        rw [ht]
        exact List.mem_cons_self
      · rw [unsettled_of_ne hk] at h
        have hmem := ih h
        cases through with
        | true => exact hmem
        | false => exact List.mem_cons_of_mem _ hmem

theorem settled_of_not_pending {log : Log κ ν} {k : κ} (h : k ∉ pending log) :
    unsettled k log = false := by
  cases hu : unsettled k log with
  | false => rfl
  | true => exact absurd (mem_pending_of_unsettled hu) h

end Contents

/-! ## 2. What has been written -/

variable {d₀ : κ → ν}

variable (d₀) in
/-- The cell had the value at some time. -/
def Written (k : κ) (v : ν) (log : Log κ ν) : Prop :=
  d₀ k = v ∨ ∃ through, Event.write k v through ∈ log

variable (d₀) in
/-- The cell had the value, and a sync followed the write or the write went through. -/
def Durable (k : κ) (v : ν) : Log κ ν → Prop
  | [] => d₀ k = v
  | .sync :: log => Written d₀ k v log
  | .write k' v' through :: log => Durable k v log ∨ through = true ∧ k' = k ∧ v' = v

theorem Written.cons {k : κ} {v : ν} {log : Log κ ν} (h : Written d₀ k v log) (e : Event κ ν) :
    Written d₀ k v (e :: log) := by
  rcases h with h | h
  · exact Or.inl h
  · obtain ⟨through, hmem⟩ := h
    exact Or.inr ⟨through, List.mem_cons_of_mem _ hmem⟩

theorem Written.of_sync {k : κ} {v : ν} {log : Log κ ν} (h : Written d₀ k v (.sync :: log)) :
    Written d₀ k v log := by
  rcases h with h | h
  · exact Or.inl h
  · obtain ⟨through, hmem⟩ := h
    rcases List.mem_cons.mp hmem with heq | hmem
    · cases heq
    · exact Or.inr ⟨through, hmem⟩

theorem Written.of_write {k k' : κ} {v v' : ν} {through : Bool} {log : Log κ ν}
    (h : Written d₀ k v (.write k' v' through :: log)) :
    Written d₀ k v log ∨ k' = k ∧ v' = v := by
  rcases h with h | h
  · exact Or.inl (Or.inl h)
  · obtain ⟨through', hmem⟩ := h
    rcases List.mem_cons.mp hmem with heq | hmem
    · injection heq with hk hv _
      exact Or.inr ⟨hk.symm, hv.symm⟩
    · exact Or.inl (Or.inr ⟨through', hmem⟩)

theorem Durable.written {k : κ} {v : ν} {log : Log κ ν} (h : Durable d₀ k v log) :
    Written d₀ k v log := by
  induction log with
  | nil => exact Or.inl h
  | cons e log ih =>
    cases e with
    | sync => exact Written.cons h _
    | write k' v' through =>
      rcases h with h | h
      · exact (ih h).cons _
      · obtain ⟨-, hk, hv⟩ := h
        subst hk
        subst hv
        exact Or.inr ⟨through, List.mem_cons_self⟩

theorem written_disk [DecidableEq κ] (keep : Nat → Bool) (synced : Bool) (log : Log κ ν) (k : κ) :
    Written d₀ k (disk d₀ keep synced log k) log := by
  induction log generalizing synced with
  | nil => exact Or.inl rfl
  | cons e log ih =>
    cases e with
    | sync => exact (ih true).cons _
    | write k' v through =>
      unfold disk
      by_cases h : k = k' ∧ (synced || through || keep log.length)
      · rw [if_pos h, h.1]
        exact Or.inr ⟨through, List.mem_cons_self⟩
      · rw [if_neg h]
        exact (ih synced).cons _

end WriteLog
