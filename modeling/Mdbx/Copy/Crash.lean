import Mdbx.Lib.WriteLog
import Mathlib.Data.List.Infix
import Mathlib.Algebra.Order.Ring.Nat

/-!
# Copy.Crash — what a crash leaves of a copy

The meta pages of a file are overwritten by stubs first, and the real ones are written last, behind a
sync.
-/

namespace Mdbx.Copy2fd

open WriteLog (Event Log disk replay unsettled)

/-- NUM_METAS. -/
def numMetas : Nat := 3

variable {ν : Type}

/-- What is written to a file by page number: stubs, the data of the copy in any order, and the meta
pages at last. -/
structure Writes (ν : Type) where
  stub : Nat → ν
  data : List (Nat × ν)
  -- the pages in the buffer behind the copy
  metas : Nat → ν
  -- no MDBX_CP_DONT_FLUSH
  flush : Bool

/-- One after the other. -/
def putAll (cells : List (Nat × ν)) : List (Event Nat ν) :=
  cells.map fun cell => .write cell.1 cell.2 false

def Writes.fsync (w : Writes ν) : List (Event Nat ν) := if w.flush then [.sync] else []

/-- The writes and syncs of `copy2fd`, from the first one on. -/
def copy2fd (w : Writes ν) : List (Event Nat ν) :=
  putAll ((List.range numMetas).map fun m => (m, w.stub m)) ++ putAll w.data ++ w.fsync ++
    putAll ((List.range numMetas).map fun m => (m, w.metas m)) ++ w.fsync

/-- Only data pages are written as data, and a meta page is no stub. -/
structure Writes.Ok (w : Writes ν) : Prop where
  data : ∀ cell ∈ w.data, numMetas ≤ cell.1
  metas : ∀ m, w.stub m ≠ w.metas m

variable {w : Writes ν} {d₀ : Nat → ν} {keep : Nat → Bool} {k : Nat}

theorem mem_putAll {cells : List (Nat × ν)} {k : Nat} {v : ν} {through : Bool}
    (h : Event.write k v through ∈ putAll cells) : (k, v) ∈ cells := by
  obtain ⟨cell, hcell, heq⟩ := List.mem_map.mp h
  injection heq with hk hv _
  rw [← hk, ← hv]
  exact hcell

-- behind a sync nothing but meta pages were written
theorem unsettled_behind {log older : Log Nat ν}
    (h : ∀ v through, Event.write k v through ∉ log) :
    unsettled k (log ++ .sync :: older) = false ∧
      replay d₀ (log ++ .sync :: older) k = replay d₀ older k := by
  induction log with
  | nil => exact ⟨rfl, rfl⟩
  | cons e log ih =>
    have hrest := ih fun v through hmem => h v through (List.mem_cons_of_mem _ hmem)
    cases e with
    | sync => exact ⟨rfl, hrest.2⟩
    | write k' v through =>
      have hne : k ≠ k' := fun heq => h v through (by rw [heq]; exact List.mem_cons_self)
      rw [List.cons_append, WriteLog.unsettled_of_ne hne, WriteLog.replay_of_ne hne]
      exact hrest

-- writes to other cells do not matter
theorem replay_quiet {older : Log Nat ν} (h : ∀ v through, Event.write k v through ∉ older)
    (log : Log Nat ν) : replay d₀ (log ++ older) k = replay d₀ log k := by
  induction log with
  | nil =>
    induction older with
    | nil => rfl
    | cons e older ih =>
      have hrest := ih fun v through hmem => h v through (List.mem_cons_of_mem _ hmem)
      cases e with
      | sync => exact hrest
      | write k' v through =>
        have hne : k ≠ k' := fun heq => h v through (by rw [heq]; exact List.mem_cons_self)
        rw [List.nil_append, WriteLog.replay_of_ne hne]
        exact hrest
  | cons e log ih =>
    cases e with
    | sync => exact ih
    | write k' v through =>
      rw [List.cons_append]
      unfold replay
      rw [ih]

def Writes.begun (w : Writes ν) : List (Event Nat ν) :=
  putAll ((List.range numMetas).map fun m => (m, w.stub m)) ++ putAll w.data

def Writes.ended (w : Writes ν) : List (Event Nat ν) :=
  putAll ((List.range numMetas).map fun m => (m, w.metas m)) ++ [.sync]

theorem copy2fd_flushed (hflush : w.flush = true) : copy2fd w = w.begun ++ .sync :: w.ended := by
  unfold copy2fd Writes.fsync Writes.begun Writes.ended
  rw [if_pos hflush, List.append_assoc, List.append_assoc]
  rfl

-- before the sync there are no meta pages of the copy
theorem begun_stub (hok : w.Ok) {done : List (Event Nat ν)} (hdone : done <+: w.begun) {m : Nat}
    (hm : m < numMetas) (hfresh : d₀ m ≠ w.metas m) :
    disk d₀ keep false done.reverse m ≠ w.metas m := by
  intro hmeta
  have hwritten : WriteLog.Written d₀ m (disk d₀ keep false done.reverse m) done.reverse :=
    WriteLog.written_disk keep false done.reverse m
  rw [hmeta] at hwritten
  rcases hwritten with h0 | ⟨through, hmem⟩
  · exact hfresh h0
  · rcases List.mem_append.mp (hdone.subset (List.mem_reverse.mp hmem)) with hstub | hdata
    · obtain ⟨m', -, heq⟩ := List.mem_map.mp (mem_putAll hstub)
      injection heq with hm' hv
      rw [hm'] at hv
      exact hok.metas m hv
    · exact absurd hm (Nat.not_lt.mpr (hok.data _ (mem_putAll hdata)))

-- the data pages are no meta pages
theorem metas_quiet (hk : numMetas ≤ k) (f : Nat → ν) (v : ν) (through : Bool) :
    Event.write k v through ∉ putAll ((List.range numMetas).map fun m => (m, f m)) := by
  intro hmem
  obtain ⟨m', hm', heq⟩ := List.mem_map.mp (mem_putAll hmem)
  injection heq with hk' _
  rw [← hk'] at hk
  exact absurd (List.mem_range.mp hm') (Nat.not_lt.mpr hk)

theorem begun_replay (w : Writes ν) (hk : numMetas ≤ k) :
    replay d₀ w.begun.reverse k = replay d₀ (putAll w.data).reverse k := by
  unfold Writes.begun
  rw [List.reverse_append]
  exact replay_quiet (fun v through hmem =>
    metas_quiet hk w.stub v through (List.mem_reverse.mp hmem)) _

/-- If a crash leaves any of the meta pages of the copy, it leaves all of its data. -/
theorem crash_whole (hok : w.Ok) (hflush : w.flush = true) {done : List (Event Nat ν)}
    (hdone : done <+: copy2fd w) {m : Nat} (hm : m < numMetas) (hfresh : d₀ m ≠ w.metas m)
    (hmeta : disk d₀ keep false done.reverse m = w.metas m) (hk : numMetas ≤ k) :
    disk d₀ keep false done.reverse k = replay d₀ (putAll w.data).reverse k := by
  rw [copy2fd_flushed hflush] at hdone
  rcases List.prefix_or_prefix_of_prefix hdone (List.prefix_append w.begun _) with hshort | hlong
  · exact absurd hmeta (begun_stub hok hshort hm hfresh)
  · obtain ⟨rest, rfl⟩ := hlong
    have hrest := (List.prefix_append_right_inj w.begun).mp hdone
    cases rest with
    | nil =>
      rw [List.append_nil] at hmeta
      exact absurd hmeta (begun_stub hok (List.prefix_refl _) hm hfresh)
    | cons e last =>
      -- behind the sync nothing but meta pages is written
      obtain ⟨rfl, hlast⟩ := List.cons_prefix_cons.mp hrest
      have hquiet : ∀ v through, Event.write k v through ∉ last.reverse := by
        intro v through hmem
        rcases List.mem_append.mp (hlast.subset (List.mem_reverse.mp hmem)) with h | h
        · exact metas_quiet hk w.metas v through h
        · cases List.mem_singleton.mp h
      have hbehind : unsettled k (last.reverse ++ .sync :: w.begun.reverse) = false ∧
          replay d₀ (last.reverse ++ .sync :: w.begun.reverse) k = replay d₀ w.begun.reverse k :=
        unsettled_behind hquiet
      have hlog : (w.begun ++ .sync :: last).reverse =
          last.reverse ++ .sync :: w.begun.reverse := by
        rw [List.reverse_append, List.reverse_cons, List.append_assoc]
        rfl
      rw [hlog, WriteLog.disk_of_settled keep hbehind.1, hbehind.2, begun_replay w hk]

-- one meta page was written before the crash
theorem crash_whole_two : disk (fun _ => 1) (fun _ => true) false
    ((copy2fd ⟨fun _ => 0, [(3, 5), (4, 6)], fun _ => 9, true⟩).take 7).reverse 4 = 6 :=
  crash_whole ⟨by decide, fun _ => (by decide : (0 : Nat) ≠ 9)⟩ rfl (List.take_prefix 7 _) (by decide : 0 < numMetas)
    (by decide : (1 : Nat) ≠ 9) rfl (by decide)

end Mdbx.Copy2fd
