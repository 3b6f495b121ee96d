import Mdbx.PageCache.Model
import Mathlib.Data.List.Perm.Subperm
import Mathlib.Tactic.Common

/-!
# PageCache.Exact — the counters are those of the list

`Counted` says what the five counters of `page_cache_t` count.  Every update of the source either
drops one entry, puts one in front or changes one in place, so three rules carry all operations.
-/

namespace Mdbx.PageCache

structure Counted (c : Cache) : Prop where
  entriesCount : c.entriesCount = c.entries.length
  reusableCount : c.reusableCount = (c.entries.map fun e => if e.reusable then 1 else 0).sum
  pages : c.pages = (c.entries.map fun e => e.io.npages).sum
  bytes : c.bytes = (c.entries.map fun e => e.io.bytes).sum
  pinned : c.pinned = (c.entries.map fun e => e.pins).sum

/-- No unpinned entry stays that cannot be reused. -/
def Kept (es : List Entry) : Prop := ∀ e ∈ es, e.pins = 0 → e.reusable = true

def addrs (es : List Entry) : List Nat := es.map fun e => e.addr

/-! ## 1. One entry of the list -/

theorem updateEntry_of_not_mem {a : Nat} {es : List Entry} (f : Entry → Entry)
    (ha : a ∉ addrs es) : updateEntry a f es = es := by
  unfold updateEntry
  conv_rhs => rw [← List.map_id es]
  apply List.map_congr_left
  intro e he
  have hne : e.addr ≠ a := by
    intro h
    exact ha (List.mem_map.mpr ⟨e, he, h⟩)
  rw [if_neg hne]
  rfl

theorem eraseP_addr_append {a : Nat} {l₁ l₂ : List Entry} {e : Entry} (he : e.addr = a)
    (ha : a ∉ addrs l₁) :
    (l₁ ++ e :: l₂).eraseP (fun x => x.addr = a) = l₁ ++ l₂ := by
  have hno : ∀ x ∈ l₁, ¬ (decide (x.addr = a)) = true := by
    intro x hx h
    exact ha (List.mem_map.mpr ⟨x, hx, of_decide_eq_true h⟩)
  rw [List.eraseP_append_right _ hno, List.eraseP_cons_of_pos (by simpa using he)]

theorem not_mem_of_nodup_split {l₁ l₂ : List Entry} {e : Entry}
    (hnd : (addrs (l₁ ++ e :: l₂)).Nodup) : e.addr ∉ addrs l₁ ∧ e.addr ∉ addrs l₂ := by
  have hcut : (addrs l₁ ++ e.addr :: addrs l₂).Nodup := by
    simpa [addrs] using hnd
  have hnot := (List.nodup_cons.mp (List.nodup_middle.mp hcut)).1
  exact ⟨fun h => hnot (List.mem_append_left _ h), fun h => hnot (List.mem_append_right _ h)⟩

/-- With distinct addresses an entry cuts the list, and the two list updates act at the cut. -/
theorem entry_split {es : List Entry} {e : Entry} (hnd : (addrs es).Nodup) (he : e ∈ es) :
    ∃ l₁ l₂, es = l₁ ++ e :: l₂ ∧ (es.eraseP fun x => x.addr = e.addr) = l₁ ++ l₂ ∧
      ∀ f, updateEntry e.addr f es = l₁ ++ f e :: l₂ := by
  obtain ⟨l₁, l₂, rfl⟩ := List.append_of_mem he
  obtain ⟨h₁, h₂⟩ := not_mem_of_nodup_split hnd
  refine ⟨l₁, l₂, rfl, eraseP_addr_append rfl h₁, ?_⟩
  intro f
  have hsplit : updateEntry e.addr f (l₁ ++ e :: l₂) =
      updateEntry e.addr f l₁ ++ f e :: updateEntry e.addr f l₂ := by
    simp [updateEntry]
  rw [hsplit, updateEntry_of_not_mem f h₁, updateEntry_of_not_mem f h₂]

theorem findEntry_mem {a : Nat} {es : List Entry} {e : Entry} (h : findEntry a es = some e) :
    e ∈ es ∧ e.addr = a :=
  ⟨List.mem_of_find?_eq_some h, by simpa using List.find?_some h⟩

/-! ## 2. The three rules -/

theorem Counted.cons {c : Cache} (h : Counted c) (e : Entry) :
    Counted ⟨e :: c.entries, c.entriesCount + 1, c.reusableCount + (if e.reusable then 1 else 0),
      c.pages + e.io.npages, c.bytes + e.io.bytes, c.pinned + e.pins⟩ where
  entriesCount := by simp [h.entriesCount]
  reusableCount := by simp [h.reusableCount, Nat.add_comm]
  pages := by simp [h.pages, Nat.add_comm]
  bytes := by simp [h.bytes, Nat.add_comm]
  pinned := by simp [h.pinned, Nat.add_comm]

theorem Counted.drop {c : Cache} {l₁ l₂ : List Entry} {e : Entry} (h : Counted c)
    (hc : c.entries = l₁ ++ e :: l₂) :
    Counted ⟨l₁ ++ l₂, c.entriesCount - 1, c.reusableCount - (if e.reusable then 1 else 0),
      c.pages - e.io.npages, c.bytes - e.io.bytes, c.pinned - e.pins⟩ where
  entriesCount := by simp [h.entriesCount, hc]
  reusableCount := by simp [h.reusableCount, hc]; omega
  pages := by simp [h.pages, hc]; omega
  bytes := by simp [h.bytes, hc]; omega
  pinned := by simp [h.pinned, hc]; omega

theorem Counted.change {c : Cache} {l₁ l₂ : List Entry} {e : Entry} (e' : Entry) (h : Counted c)
    (hc : c.entries = l₁ ++ e :: l₂) :
    Counted ⟨l₁ ++ e' :: l₂, c.entriesCount,
      c.reusableCount + (if e'.reusable then 1 else 0) - (if e.reusable then 1 else 0),
      c.pages + e'.io.npages - e.io.npages, c.bytes + e'.io.bytes - e.io.bytes,
      c.pinned + e'.pins - e.pins⟩ where
  entriesCount := by simp [h.entriesCount, hc]
  reusableCount := by simp [h.reusableCount, hc]; omega
  pages := by simp [h.pages, hc]; omega
  bytes := by simp [h.bytes, hc]; omega
  pinned := by simp [h.pinned, hc]; omega

/-! ## 3. The state of the cache between two critical sections -/

def liveAddrs (s : Storage) : List Nat :=
  addrs s.cache.entries ++ (s.fills.map (fun f => f.entry.addr) ++ addrs s.privates)

/-- What holds inside a critical section too: exact counters, distinct addresses and a record of
freed entries in which an ordinary release is of an unpinned entry. -/
structure Core (s : Storage) : Prop where
  counted : Counted s.cache
  nodup : (liveAddrs s).Nodup
  fresh : ∀ a ∈ liveAddrs s, a < s.nextAddr
  freed : ∀ x ∈ s.freed, x.1 = .release → x.2.pins = 0

structure Exact (s : Storage) : Prop extends Core s where
  kept : Kept s.cache.entries

theorem Core.nodup_entries {s : Storage} (h : Core s) : (addrs s.cache.entries).Nodup :=
  (List.nodup_append.mp h.nodup).1

-- The one way addresses change without a new entry: some go, the others are permuted.
theorem Core.of_subperm {s s' : Storage} (h : Core s) (hc : Counted s'.cache)
    (hsub : (liveAddrs s').Subperm (liveAddrs s)) (hnext : s'.nextAddr = s.nextAddr)
    (hfreed : ∀ x ∈ s'.freed, x.1 = .release → x.2.pins = 0) : Core s' where
  counted := hc
  nodup := by
    obtain ⟨l, hperm, hl⟩ := hsub
    exact hperm.nodup_iff.mp (hl.nodup h.nodup)
  fresh := by
    intro a ha
    rw [hnext]
    exact h.fresh a (hsub.subset ha)
  freed := hfreed

theorem liveAddrs_sublist {s s' : Storage} (he : s'.cache.entries.Sublist s.cache.entries)
    (hf : s'.fills = s.fills) (hp : s'.privates = s.privates) :
    (liveAddrs s').Subperm (liveAddrs s) := by
  unfold liveAddrs addrs
  rw [hf, hp]
  exact ((he.map _).append (List.Sublist.refl _)).subperm

theorem Core.release {s : Storage} {l₁ l₂ : List Entry} {e : Entry} (h : Core s)
    (hes : s.cache.entries = l₁ ++ e :: l₂) (hp : e.pins = 0) :
    Core (releaseEntryLocked s e) ∧ (releaseEntryLocked s e).cache.entries = l₁ ++ l₂ := by
  have hents : (releaseEntryLocked s e).cache.entries = l₁ ++ l₂ := by
    have hnd := h.nodup_entries
    rw [hes] at hnd
    change (s.cache.entries.eraseP fun x => x.addr = e.addr) = l₁ ++ l₂
    rw [hes]
    exact eraseP_addr_append rfl (not_mem_of_nodup_split hnd).1
  refine ⟨?_, hents⟩
  apply h.of_subperm
  · have hdrop := h.counted.drop hes
    rw [hp, ← hents] at hdrop
    exact hdrop
  · refine liveAddrs_sublist ?_ rfl rfl
    rw [hents, hes]
    exact (List.Sublist.refl l₁).append (List.sublist_cons_self e l₂)
  · rfl
  · intro x hx hrel
    rcases List.mem_cons.mp hx with rfl | hx
    · exact hp
    · exact h.freed x hx hrel

/-! ## 4. Pruning -/

theorem pruneVictim_mem {es : List Entry} {e : Entry} (h : pruneVictim es = some e) :
    e ∈ es ∧ e.pins = 0 :=
  ⟨List.mem_reverse.mp (List.mem_of_find?_eq_some h), by simpa using List.find?_some h⟩

/-- Pruning stops at the limit or when every entry left is pinned. -/
theorem pruneRounds_bound {s : Storage} (n : Nat) (h : Core s)
    (hn : s.cache.entries.length ≤ n) :
    (pruneRounds s n).cache.bytes ≤ s.limit ∨
      ∀ e ∈ (pruneRounds s n).cache.entries, 0 < e.pins := by
  induction n generalizing s with
  | zero =>
    right
    intro e he
    have hnil : s.cache.entries = [] := List.length_eq_zero_iff.mp (by omega)
    simp [pruneRounds, hnil] at he
  | succ n ih =>
    unfold pruneRounds
    split_ifs with hover
    · cases hv : pruneVictim s.cache.entries with
      | none =>
        right
        intro e he
        have hno := List.find?_eq_none.mp hv e (List.mem_reverse.mpr he)
        simp only [decide_eq_true_eq] at hno
        omega
      | some victim =>
        obtain ⟨hmem, hpins⟩ := pruneVictim_mem hv
        obtain ⟨l₁, l₂, hes⟩ := List.append_of_mem hmem
        obtain ⟨hcore, hents⟩ := h.release hes hpins
        have hlen : (releaseEntryLocked s victim).cache.entries.length ≤ n := by
          rw [hents]
          rw [hes] at hn
          simp only [List.length_append, List.length_cons] at hn ⊢
          omega
        exact ih hcore hlen
    · left
      omega

end Mdbx.PageCache
