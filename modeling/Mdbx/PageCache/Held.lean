import Mdbx.PageCache.Runs

/-!
# PageCache.Held — the cache as the holders of its pages see it

`held` forgets everything of the storage but the pinned entries: how often each is pinned, which
buffer it owns and which pages stand there.  A critical section changes this view at the addresses
it works on and nowhere else; pruning and invalidation do not change it.
-/

namespace Mdbx.PageCache

structure Held where
  pins : Nat
  page : Nat
  io : PageIo
  tracked : Bool
  deriving DecidableEq, Repr

def heldEntry (tracked : Bool) (e : Entry) : Option Held :=
  if e.pins = 0 then none else some ⟨e.pins, e.page, e.io, tracked⟩

def heldOf (es ps : List Entry) (a : Nat) : Option Held :=
  match findEntry a es with
  | some e => heldEntry true e
  | none => (findEntry a ps).bind (heldEntry false)

/-- The pinned entry at an address. -/
def held (s : Storage) : Nat → Option Held := heldOf s.cache.entries s.privates

def pinsIn (view : Nat → Option Held) (a : Nat) : Nat := ((view a).map fun h => h.pins).getD 0

def pinsOf (s : Storage) : Nat → Nat := pinsIn (held s)

/-! ## 1. Finding an entry -/

theorem findEntry_cons (a : Nat) (e : Entry) (es : List Entry) :
    findEntry a (e :: es) = if e.addr = a then some e else findEntry a es := by
  unfold findEntry
  by_cases h : e.addr = a
  · rw [if_pos h, List.find?_cons_of_pos (by simpa using h)]
  · rw [if_neg h, List.find?_cons_of_neg (by simpa using h)]

theorem findEntry_none {a : Nat} {es : List Entry} : findEntry a es = none ↔ a ∉ addrs es := by
  simp [findEntry, addrs]

theorem findEntry_of_mem {es : List Entry} {e : Entry} (hnd : (addrs es).Nodup) (he : e ∈ es) :
    findEntry e.addr es = some e := by
  cases hf : findEntry e.addr es with
  | none => exact absurd (List.mem_map_of_mem he) (findEntry_none.mp hf)
  | some e' =>
    obtain ⟨hmem, haddr⟩ := findEntry_mem hf
    rw [List.inj_on_of_nodup_map hnd hmem he haddr]

theorem findEntry_updateEntry {a b : Nat} {f : Entry → Entry} (hf : ∀ e, (f e).addr = e.addr)
    (es : List Entry) :
    findEntry a (updateEntry b f es) =
      if a = b then (findEntry a es).map f else findEntry a es := by
  induction es with
  | nil => simp [updateEntry, findEntry]
  | cons e es ih =>
    have hcons : updateEntry b f (e :: es) =
        (if e.addr = b then f e else e) :: updateEntry b f es := rfl
    rw [hcons, findEntry_cons, findEntry_cons, ih]
    by_cases heb : e.addr = b
    · rw [if_pos heb, hf]
      by_cases hea : e.addr = a
      · rw [if_pos hea, if_pos hea, if_pos (hea.symm.trans heb)]
        rfl
      · rw [if_neg hea, if_neg hea]
    · rw [if_neg heb]
      by_cases hea : e.addr = a
      · rw [if_pos hea, if_pos hea, if_neg fun h => heb (hea.trans h)]
      · rw [if_neg hea, if_neg hea]

theorem addrs_eraseP {b : Nat} {es : List Entry} (hnd : (addrs es).Nodup) :
    b ∉ addrs (es.eraseP fun x => x.addr = b) := by
  by_cases hb : b ∈ addrs es
  · obtain ⟨e, he, rfl⟩ := List.mem_map.mp hb
    obtain ⟨l₁, l₂, hes, herase, -⟩ := entry_split hnd he
    rw [herase]
    rw [hes] at hnd
    obtain ⟨h₁, h₂⟩ := not_mem_of_nodup_split hnd
    intro hin
    rcases List.mem_append.mp (by simpa [addrs] using hin : e.addr ∈ addrs l₁ ++ addrs l₂) with
      h | h
    · exact h₁ h
    · exact h₂ h
  · intro hin
    exact hb ((List.eraseP_sublist.map fun e : Entry => e.addr).subset hin)

theorem findEntry_eraseP {a b : Nat} {es : List Entry} (hne : a ≠ b) :
    findEntry a (es.eraseP fun x => x.addr = b) = findEntry a es := by
  induction es with
  | nil => rfl
  | cons e es ih =>
    by_cases heb : e.addr = b
    · rw [List.eraseP_cons_of_pos (by simpa using heb), findEntry_cons,
        if_neg fun h => hne (h.symm.trans heb)]
    · rw [List.eraseP_cons_of_neg (by simpa using heb), findEntry_cons, findEntry_cons, ih]

/-! ## 2. The view under a change of one entry -/

theorem heldOf_updateEntry {es : List Entry} {b : Nat} {f : Entry → Entry} {e : Entry}
    (ps : List Entry) (hf : ∀ e, (f e).addr = e.addr) (he : findEntry b es = some e) :
    heldOf (updateEntry b f es) ps = Function.update (heldOf es ps) b (heldEntry true (f e)) := by
  funext a
  unfold heldOf
  rw [findEntry_updateEntry hf]
  by_cases hab : a = b
  · subst hab
    rw [if_pos rfl, Function.update_self, he]
    rfl
  · rw [if_neg hab, Function.update_of_ne hab]

theorem heldOf_updatePrivate {es ps : List Entry} {b : Nat} {f : Entry → Entry} {e : Entry}
    (hf : ∀ e, (f e).addr = e.addr) (hnone : findEntry b es = none)
    (he : findEntry b ps = some e) :
    heldOf es (updateEntry b f ps) = Function.update (heldOf es ps) b (heldEntry false (f e)) := by
  funext a
  unfold heldOf
  rw [findEntry_updateEntry hf]
  by_cases hab : a = b
  · subst hab
    rw [if_pos rfl, Function.update_self, hnone, he]
    rfl
  · rw [if_neg hab, Function.update_of_ne hab]

theorem heldOf_eraseP {es ps : List Entry} {b : Nat} (hnd : (addrs es).Nodup) (hb : b ∉ addrs ps) :
    heldOf (es.eraseP fun x => x.addr = b) ps = Function.update (heldOf es ps) b none := by
  funext a
  unfold heldOf
  by_cases hab : a = b
  · subst hab
    rw [Function.update_self, findEntry_none.mpr (addrs_eraseP hnd), findEntry_none.mpr hb]
    rfl
  · rw [findEntry_eraseP hab, Function.update_of_ne hab]

theorem heldOf_erasePrivate {es ps : List Entry} {b : Nat} (hnd : (addrs ps).Nodup)
    (hnone : findEntry b es = none) :
    heldOf es (ps.eraseP fun x => x.addr = b) = Function.update (heldOf es ps) b none := by
  funext a
  unfold heldOf
  by_cases hab : a = b
  · subst hab
    rw [Function.update_self, hnone, findEntry_none.mpr (addrs_eraseP hnd)]
    rfl
  · rw [findEntry_eraseP hab, Function.update_of_ne hab]

theorem heldOf_cons (e : Entry) (es ps : List Entry) :
    heldOf (e :: es) ps = Function.update (heldOf es ps) e.addr (heldEntry true e) := by
  funext a
  unfold heldOf
  rw [findEntry_cons]
  by_cases hab : a = e.addr
  · subst hab
    rw [if_pos rfl, Function.update_self]
  · rw [if_neg fun h => hab h.symm, Function.update_of_ne hab]

theorem heldOf_consPrivate {es : List Entry} {e : Entry} (ps : List Entry)
    (he : e.addr ∉ addrs es) :
    heldOf es (e :: ps) = Function.update (heldOf es ps) e.addr (heldEntry false e) := by
  funext a
  unfold heldOf
  rw [findEntry_cons]
  by_cases hab : a = e.addr
  · subst hab
    rw [if_pos rfl, Function.update_self, findEntry_none.mpr he]
    rfl
  · rw [if_neg fun h => hab h.symm, Function.update_of_ne hab]

theorem heldEntry_pinned {tracked : Bool} {e : Entry} (h : e.pins ≠ 0) :
    heldEntry tracked e = some ⟨e.pins, e.page, e.io, tracked⟩ :=
  if_neg h

theorem heldEntry_unpinned {tracked : Bool} {e : Entry} (h : e.pins = 0) :
    heldEntry tracked e = none :=
  if_pos h

/-! ## 3. Addresses of the two lists -/

theorem Core.not_private {s : Storage} (h : Core s) {a : Nat} (ha : a ∈ addrs s.cache.entries) :
    a ∉ addrs s.privates :=
  fun hp => (List.nodup_append.mp h.nodup).2.2 a ha a (List.mem_append_right _ hp) rfl

theorem Core.nodup_privates {s : Storage} (h : Core s) : (addrs s.privates).Nodup :=
  (List.nodup_append.mp (List.nodup_append.mp h.nodup).2.1).2.1

theorem Core.fill_not_entry {s : Storage} (h : Core s) {f : Fill} (hf : f ∈ s.fills) :
    f.entry.addr ∉ addrs s.cache.entries :=
  fun ha => (List.nodup_append.mp h.nodup).2.2 _ ha f.entry.addr
    (List.mem_append_left _ (List.mem_map.mpr ⟨f, hf, rfl⟩)) rfl

theorem Core.fill_not_private {s : Storage} (h : Core s) {f : Fill} (hf : f ∈ s.fills) :
    f.entry.addr ∉ addrs s.privates :=
  fun ha => (List.nodup_append.mp (List.nodup_append.mp h.nodup).2.1).2.2 f.entry.addr
    (List.mem_map.mpr ⟨f, hf, rfl⟩) _ ha rfl

theorem Core.next_not_entry {s : Storage} (h : Core s) : s.nextAddr ∉ addrs s.cache.entries :=
  fun ha => Nat.lt_irrefl _ (h.fresh _ (List.mem_append_left _ ha))

/-- An entry of the list is what its address finds. -/
theorem Core.held_mem {s : Storage} (h : Core s) {e : Entry} (he : e ∈ s.cache.entries) :
    held s e.addr = heldEntry true e := by
  unfold held heldOf
  rw [findEntry_of_mem h.nodup_entries he]

theorem held_entry {s : Storage} {a : Nat} {e : Entry}
    (hf : findEntry a s.cache.entries = some e) : held s a = heldEntry true e := by
  unfold held heldOf
  rw [hf]

theorem held_private {s : Storage} {a : Nat} {e : Entry}
    (hf : findEntry a s.cache.entries = none) (hp : findEntry a s.privates = some e) :
    held s a = heldEntry false e := by
  unfold held heldOf
  rw [hf, hp]
  rfl

theorem held_none {s : Storage} {a : Nat} (hf : findEntry a s.cache.entries = none)
    (hp : findEntry a s.privates = none) : held s a = none := by
  unfold held heldOf
  rw [hf, hp]
  rfl

theorem held_tracked {s : Storage} {a : Nat} {h : Held} (hh : held s a = some h) :
    (h.tracked = true → ∃ e, findEntry a s.cache.entries = some e ∧ e.pins = h.pins ∧
      e.page = h.page ∧ e.io = h.io) ∧
    (h.tracked = false → findEntry a s.cache.entries = none ∧ ∃ e,
      findEntry a s.privates = some e ∧ e.pins = h.pins ∧ e.page = h.page ∧ e.io = h.io) := by
  unfold held heldOf at hh
  cases hf : findEntry a s.cache.entries with
  | some e =>
    rw [hf] at hh
    simp only [heldEntry, Option.ite_none_left_eq_some, Option.some.injEq] at hh
    obtain ⟨-, rfl⟩ := hh
    exact ⟨fun _ => ⟨e, rfl, rfl, rfl, rfl⟩, fun h => absurd h (by simp)⟩
  | none =>
    rw [hf] at hh
    cases hp : findEntry a s.privates with
    | none =>
      rw [hp] at hh
      exact absurd hh (by simp)
    | some e =>
      rw [hp] at hh
      simp only [heldEntry, Option.bind_some, Option.ite_none_left_eq_some, Option.some.injEq] at hh
      obtain ⟨-, rfl⟩ := hh
      exact ⟨fun h => absurd h (by simp), fun _ => ⟨rfl, e, rfl, rfl, rfl, rfl⟩⟩

theorem held_pins {s : Storage} {a : Nat} {h : Held} (hh : held s a = some h) : h.pins ≠ 0 := by
  unfold held heldOf at hh
  cases hf : findEntry a s.cache.entries with
  | some e =>
    rw [hf] at hh
    simp only [heldEntry, Option.ite_none_left_eq_some, Option.some.injEq] at hh
    obtain ⟨hp, rfl⟩ := hh
    exact hp
  | none =>
    rw [hf] at hh
    obtain ⟨e, -, he⟩ := Option.bind_eq_some_iff.mp hh
    simp only [heldEntry, Option.ite_none_left_eq_some, Option.some.injEq] at he
    obtain ⟨hp, rfl⟩ := he
    exact hp

theorem Core.next_held {s : Storage} (h : Core s) : held s s.nextAddr = none := by
  apply held_none (findEntry_none.mpr h.next_not_entry)
  apply findEntry_none.mpr
  intro ha
  exact Nat.lt_irrefl _ (h.fresh _ (List.mem_append_right _ (List.mem_append_right _ ha)))

/-! ## 4. Pins -/

theorem pinsOf_of_held {s : Storage} {a : Nat} {h : Held} (hh : held s a = some h) :
    pinsOf s a = h.pins := by
  rw [pinsOf, pinsIn, hh]
  rfl

theorem pinsOf_of_none {s : Storage} {a : Nat} (hh : held s a = none) : pinsOf s a = 0 := by
  rw [pinsOf, pinsIn, hh]
  rfl

theorem Core.pinsOf_mem {s : Storage} (h : Core s) {e : Entry} (he : e ∈ s.cache.entries) :
    pinsOf s e.addr = e.pins := by
  by_cases h0 : e.pins = 0
  · rw [pinsOf_of_none ((h.held_mem he).trans (heldEntry_unpinned h0)), h0]
  · exact pinsOf_of_held ((h.held_mem he).trans (heldEntry_pinned h0))

theorem pinsOf_congr {s s' : Storage} (h : held s' = held s) : pinsOf s' = pinsOf s := by
  rw [pinsOf, h, pinsOf]

theorem pinsIn_update (view : Nat → Option Held) (a : Nat) (v : Option Held) (b : Nat) :
    pinsIn (Function.update view a v) b =
      if b = a then (v.map fun h => h.pins).getD 0 else pinsIn view b := by
  unfold pinsIn
  by_cases hb : b = a
  · rw [hb, Function.update_self, if_pos rfl]
  · rw [Function.update_of_ne hb, if_neg hb]

theorem pinsOf_update {s s' : Storage} {a : Nat} {v : Option Held}
    (h : held s' = Function.update (held s) a v) (b : Nat) :
    pinsOf s' b = if b = a then (v.map fun h => h.pins).getD 0 else pinsOf s b := by
  rw [pinsOf, h, pinsIn_update, pinsOf]

/-! ## 5. What no holder notices -/

-- an unpinned entry is not in the view, so its release changes nothing there
theorem Core.held_release {s : Storage} {e : Entry} (h : Core s) (he : e ∈ s.cache.entries)
    (hp : e.pins = 0) : held (releaseEntryLocked s e) = held s := by
  have herase : held (releaseEntryLocked s e) = Function.update (held s) e.addr none :=
    heldOf_eraseP h.nodup_entries (h.not_private (List.mem_map_of_mem he))
  rw [herase]
  apply Function.update_eq_self_iff.mpr
  rw [h.held_mem he, heldEntry_unpinned hp]

theorem pruneRounds_held {s : Storage} (n : Nat) (h : Core s) :
    held (pruneRounds s n) = held s := by
  induction n generalizing s with
  | zero => rfl
  | succ n ih =>
    unfold pruneRounds
    split_ifs with hover
    · cases hv : pruneVictim s.cache.entries with
      | none => rfl
      | some victim =>
        obtain ⟨hmem, hpins⟩ := pruneVictim_mem hv
        obtain ⟨l₁, l₂, hes⟩ := List.append_of_mem hmem
        dsimp only
        rw [ih (h.release hes hpins).1, h.held_release hmem hpins]
    · rfl

theorem pruneLocked_held {s : Storage} (h : Core s) : held (pruneLocked s) = held s :=
  pruneRounds_held _ h

theorem findEntry_filterMap {hit : Entry → Bool} {es : List Entry} (hnd : (addrs es).Nodup)
    (a : Nat) : findEntry a (es.filterMap (fate hit)) = (findEntry a es).bind (fate hit) := by
  induction es with
  | nil => rfl
  | cons e es ih =>
    obtain ⟨hnot, hnd'⟩ := List.nodup_cons.mp hnd
    rw [findEntry_cons, List.filterMap_cons]
    cases hfate : fate hit e with
    | none =>
      show findEntry a (es.filterMap (fate hit)) = _
      rw [ih hnd']
      by_cases hea : e.addr = a
      · rw [if_pos hea, findEntry_none.mpr (by rw [← hea]; exact hnot), Option.bind_some, hfate]
        rfl
      · rw [if_neg hea]
    | some e' =>
      have haddr : e'.addr = e.addr := by
        unfold fate at hfate
        split_ifs at hfate <;> rw [← Option.some.inj hfate]
      show findEntry a (e' :: es.filterMap (fate hit)) = _
      rw [findEntry_cons, haddr, ih hnd']
      by_cases hea : e.addr = a
      · rw [if_pos hea, if_pos hea, Option.bind_some, hfate]
      · rw [if_neg hea, if_neg hea]

/-- An invalidation decides about entries that nobody holds, or about who may hold them next. -/
theorem Decided.held_eq {hit : Entry → Bool} {s s' : Storage} (hs : Core s)
    (h : Decided hit [] s.cache.entries [] s s') : held s' = held s := by
  funext a
  have hentries : s'.cache.entries = s.cache.entries.filterMap (fate hit) := by
    rw [h.entries, List.nil_append, List.append_nil]
  unfold held heldOf
  rw [hentries, h.privates, findEntry_filterMap hs.nodup_entries]
  cases hf : findEntry a s.cache.entries with
  | none => rfl
  | some e =>
    obtain ⟨hmem, haddr⟩ := findEntry_mem hf
    rw [Option.bind_some]
    unfold fate
    split_ifs with hhit hp
    · have hnot := hs.not_private (List.mem_map_of_mem hmem)
      rw [haddr] at hnot
      simp only [findEntry_none.mpr hnot, Option.bind_none, heldEntry_unpinned hp]
    · rfl
    · rfl

theorem invalidateCachedIo_held {s : Storage} (pages : PageIo) (incl : Bool) (h : Exact s) :
    held (invalidateCachedIo s pages incl).1 = held s :=
  (invalidateCachedIo_spec pages incl h.toCore).1.held_eq h.toCore

theorem prepareReadCachedPage_held (s : Storage) (read : ReadIo) (alloc large : Bool) :
    held (prepareReadCachedPage s read alloc large).2 = held s := by
  unfold prepareReadCachedPage
  split_ifs <;> rfl

/-! ## 6. One more holder, one fewer -/

/-- The entry that `dxb_storage_submit_lookup_cached_page` hits. -/
def hitEntry (s : Storage) (read : ReadIo) : Option Entry :=
  if !read.reusable then none else s.cache.entries.find? fun e => canReuse e read

theorem hitEntry_mem {s : Storage} {read : ReadIo} {e : Entry} (h : hitEntry s read = some e) :
    e ∈ s.cache.entries ∧ canReuse e read = true := by
  unfold hitEntry at h
  split_ifs at h
  exact ⟨List.mem_of_find?_eq_some h, List.find?_some (p := fun e => canReuse e read) h⟩

theorem lookupCachedPage_miss {s : Storage} {read : ReadIo} (h : hitEntry s read = none) :
    lookupCachedPage s read = (.resultTrue, s) := by
  unfold hitEntry at h
  unfold lookupCachedPage
  by_cases hre : (!read.reusable) = true
  · rw [if_pos hre]
  · rw [if_neg hre] at h
    rw [if_neg hre, h]

theorem lookupCachedPage_hit {s : Storage} {read : ReadIo} {e : Entry}
    (h : hitEntry s read = some e) :
    lookupCachedPage s read = (.success, { s with cache := { s.cache with
      entries := { e with pins := e.pins + 1 } ::
        s.cache.entries.eraseP fun x => x.addr = e.addr
      pinned := s.cache.pinned + 1 } }) := by
  unfold hitEntry at h
  unfold lookupCachedPage
  by_cases hre : (!read.reusable) = true
  · rw [if_pos hre] at h
    exact absurd h (by simp)
  · rw [if_neg hre] at h
    rw [if_neg hre, h]

theorem lookupCachedPage_held {s : Storage} {read : ReadIo} {e : Entry} (hs : Core s)
    (h : hitEntry s read = some e) :
    held (lookupCachedPage s read).2 =
      Function.update (held s) e.addr (some ⟨e.pins + 1, e.page, e.io, true⟩) := by
  have hmem := (hitEntry_mem h).1
  rw [lookupCachedPage_hit h]
  change heldOf (_ :: _) s.privates = _
  rw [heldOf_cons, heldOf_eraseP hs.nodup_entries (hs.not_private (List.mem_map_of_mem hmem)),
    Function.update_idem, heldEntry_pinned (Nat.succ_ne_zero _)]
  rfl

/-- A reference that `dxb_storage_cache_ref_submit_io_validate` accepts. -/
def RefLive (s : Storage) (ref : PageRef) : Prop :=
  ∃ h, held s ref.cache = some h ∧ h.page = ref.page ∧ h.io.pgno = ref.pgno ∧ ref.npages ≠ 0

/-- `dxb_storage_retain_cached_entry` -/
def retainCachedEntry (s : Storage) (a : Nat) : Storage :=
  match findEntry a s.cache.entries with
  | some _ => { s with cache := { s.cache with
      entries := updateEntry a (fun e => { e with pins := e.pins + 1 }) s.cache.entries
      pinned := s.cache.pinned + 1 } }
  | none => { s with
      privates := updateEntry a (fun e => { e with pins := e.pins + 1 }) s.privates }

theorem retainCachedEntry_held {s : Storage} {a : Nat} {h : Held} (hh : held s a = some h) :
    held (retainCachedEntry s a) =
      Function.update (held s) a (some { h with pins := h.pins + 1 }) := by
  obtain ⟨htracked, hprivate⟩ := held_tracked hh
  unfold retainCachedEntry
  cases ht : h.tracked with
  | true =>
    obtain ⟨e, hf, hpins, hpage, hio⟩ := htracked ht
    rw [hf]
    change heldOf (updateEntry _ _ _) s.privates = _
    rw [heldOf_updateEntry _ (by exact fun _ => rfl) hf, heldEntry_pinned (Nat.succ_ne_zero _)]
    rw [← hpins, ← hpage, ← hio, ← ht]
    rfl
  | false =>
    obtain ⟨hf, e, hp, hpins, hpage, hio⟩ := hprivate ht
    rw [hf]
    change heldOf s.cache.entries (updateEntry _ _ _) = _
    rw [heldOf_updatePrivate (by exact fun _ => rfl) hf hp, heldEntry_pinned (Nat.succ_ne_zero _)]
    rw [← hpins, ← hpage, ← hio, ← ht]
    rfl

theorem heldEntry_live {s : Storage} {ref : PageRef} {e : Entry} {tracked : Bool}
    (hh : held s ref.cache = heldEntry tracked e) : RefLive s ref ↔ refValid ref e = true := by
  unfold RefLive
  rw [hh]
  by_cases hp : e.pins = 0
  · rw [heldEntry_unpinned hp]
    simp [refValid, hp]
  · rw [heldEntry_pinned hp]
    simp only [Option.some.injEq, refValid, decide_eq_true_eq]
    constructor
    · rintro ⟨h, rfl, hpage, hpgno, hn⟩
      exact ⟨hn, hpage, hp, hpgno⟩
    · rintro ⟨hn, hpage, -, hpgno⟩
      exact ⟨_, rfl, hpage, hpgno, hn⟩

theorem retainCachedRef_live {s : Storage} {ref : PageRef} (hl : RefLive s ref) :
    retainCachedRef s ref = (.success, retainCachedEntry s ref.cache) := by
  unfold retainCachedRef retainCachedEntry
  cases hf : findEntry ref.cache s.cache.entries with
  | some e =>
    have hv := (heldEntry_live (held_entry hf)).mp hl
    simp [hv]
  | none =>
    cases hp : findEntry ref.cache s.privates with
    | some e =>
      have hv := (heldEntry_live (held_private hf hp)).mp hl
      simp [hv]
    | none =>
      obtain ⟨h, hh, -⟩ := hl
      rw [held_none hf hp] at hh
      exact absurd hh (by simp)

theorem retainCachedRef_dead {s : Storage} {ref : PageRef} (hl : ¬ RefLive s ref) :
    retainCachedRef s ref = (.einval, s) := by
  unfold retainCachedRef
  cases hf : findEntry ref.cache s.cache.entries with
  | some e =>
    have hv := mt (heldEntry_live (held_entry hf)).mpr hl
    simp [hv]
  | none =>
    cases hp : findEntry ref.cache s.privates with
    | some e =>
      have hv := mt (heldEntry_live (held_private hf hp)).mpr hl
      simp [hv]
    | none => rfl

/-- The view of an entry after one release. -/
def Held.unpin (h : Held) : Option Held :=
  if h.pins = 1 then none else some { h with pins := h.pins - 1 }

theorem heldEntry_unpin {tracked : Bool} {e : Entry} (hp : e.pins ≠ 0) :
    heldEntry tracked { e with pins := e.pins - 1 } =
      (Held.mk e.pins e.page e.io tracked).unpin := by
  unfold heldEntry Held.unpin
  by_cases h1 : e.pins = 1
  · rw [if_pos h1, if_pos (show e.pins - 1 = 0 by omega)]
  · rw [if_neg h1, if_neg (show ¬ e.pins - 1 = 0 by omega)]

theorem Held.unpin_pins (h : Held) : (h.unpin.map fun h => h.pins).getD 0 = h.pins - 1 := by
  unfold Held.unpin
  by_cases h1 : h.pins = 1
  · rw [if_pos h1, h1]
    rfl
  · rw [if_neg h1]
    rfl

theorem releaseCachedRef_dead {s : Storage} {ref : PageRef} (hl : ¬ RefLive s ref) :
    releaseCachedRef s ref = (.einval, s) := by
  unfold releaseCachedRef
  cases hf : findEntry ref.cache s.cache.entries with
  | some e =>
    have hv := mt (heldEntry_live (held_entry hf)).mpr hl
    simp [hv]
  | none =>
    cases hp : findEntry ref.cache s.privates with
    | some e =>
      have hv := mt (heldEntry_live (held_private hf hp)).mpr hl
      simp [hv]
    | none => rfl

theorem releaseCachedRef_live {s : Storage} {ref : PageRef} {h : Held} (hs : Exact s)
    (hl : RefLive s ref) (hh : held s ref.cache = some h) :
    (releaseCachedRef s ref).1 = .success ∧
      held (releaseCachedRef s ref).2 = Function.update (held s) ref.cache h.unpin := by
  unfold releaseCachedRef
  cases hf : findEntry ref.cache s.cache.entries with
  | some e =>
    obtain ⟨hmem, haddr⟩ := findEntry_mem hf
    have hv := (heldEntry_live (held_entry hf)).mp hl
    have hp : e.pins ≠ 0 := by
      simp only [refValid, decide_eq_true_eq] at hv
      exact hv.2.2.1
    have heq : h = ⟨e.pins, e.page, e.io, true⟩ := by
      have hheld := held_entry hf
      rw [hh, heldEntry_pinned hp] at hheld
      exact Option.some.inj hheld
    have hcore := hs.unpin hmem (Nat.pos_of_ne_zero hp)
    rw [haddr] at hcore
    -- the view right after the pin is gone
    have hview : heldOf (updateEntry ref.cache (fun e => { e with pins := e.pins - 1 })
        s.cache.entries) s.privates = Function.update (held s) ref.cache h.unpin := by
      rw [heldOf_updateEntry _ (by exact fun _ => rfl) hf, heldEntry_unpin hp, heq]
      rfl
    simp only [hv, Bool.not_true, Bool.false_eq_true, if_false]
    split_ifs with hzero hre
    · exact ⟨rfl, (pruneLocked_held hcore).trans hview⟩
    · refine ⟨rfl, (hcore.held_release ?_ hzero).trans hview⟩
      exact List.mem_map.mpr ⟨e, hmem, by rw [if_pos haddr]⟩
    · exact ⟨rfl, hview⟩
  | none =>
    cases hp : findEntry ref.cache s.privates with
    | some e =>
      have hv := (heldEntry_live (held_private hf hp)).mp hl
      have hpins : e.pins ≠ 0 := by
        simp only [refValid, decide_eq_true_eq] at hv
        exact hv.2.2.1
      have heq : h = ⟨e.pins, e.page, e.io, false⟩ := by
        have hheld := held_private hf hp
        rw [hh, heldEntry_pinned hpins] at hheld
        exact Option.some.inj hheld
      simp only [hv, Bool.not_true, Bool.false_eq_true, if_false]
      split_ifs with hzero
      · refine ⟨rfl, ?_⟩
        have hone : h.unpin = none := by
          rw [heq]
          exact if_pos (show e.pins = 1 by omega)
        rw [hone]
        exact heldOf_erasePrivate hs.nodup_privates hf
      · refine ⟨rfl, ?_⟩
        change heldOf s.cache.entries (updateEntry _ _ _) = _
        rw [heldOf_updatePrivate (by exact fun _ => rfl) hf hp, heldEntry_unpin hpins, heq]
        rfl
    | none =>
      rw [held_none hf hp] at hh
      exact absurd hh (by simp)

/-! ## 7. A new holder of a new page -/

theorem insertCachedPage_held {s : Storage} {f : Fill} (h : Exact s)
    (hf : (s.fills.find? fun x => x.entry.addr = f.entry.addr) = some f) (hins : Insertable f) :
    held (insertCachedPage s f).2 = Function.update (held s) f.entry.addr
      (some ⟨1, f.entry.page, f.entry.io, true⟩) := by
  rw [insertCachedPage_ok hins, pruneLocked_held (h.insert hf hins.2.1)]
  change heldOf (f.entry :: s.cache.entries) s.privates = _
  rw [heldOf_cons, heldEntry_pinned (by rw [hins.2.1]; exact Nat.one_ne_zero), hins.2.1]
  rfl

/-- The state without the fill, whose entry and buffer are freed. -/
def discardFill (s : Storage) (f : Fill) : Storage :=
  { s with fills := eraseFill f.entry.addr s.fills, freed := (.fillDiscard, f.entry) :: s.freed }

theorem discardFill_held (s : Storage) (f : Fill) : held (discardFill s f) = held s := rfl

/-- A completed fill is either discarded or has its first holder. -/
theorem completeFill_held {s : Storage} {addr : Nat} {f : Fill} (readOk : Bool) (h : Exact s)
    (hf : (s.fills.find? fun x => x.entry.addr = addr) = some f) (hpins : f.entry.pins = 1) :
    ((completeFill s addr readOk).1 ≠ .success ∧
      held (completeFill s addr readOk).2 = held s) ∨
    ((completeFill s addr readOk).1 = .success ∧
      held (completeFill s addr readOk).2 = Function.update (held s) addr
        (some ⟨1, f.entry.page, f.entry.io, f.read.tracked⟩)) := by
  have haddr : f.entry.addr = addr := (fills_perm hf).1
  subst haddr
  unfold completeFill
  simp only [hf]
  cases readOk with
  | false => exact Or.inl ⟨by simp, rfl⟩
  | true =>
    simp only [Bool.not_true, Bool.false_eq_true, if_false]
    cases ht : f.read.tracked with
    | true =>
      simp only [if_true]
      by_cases hins : Insertable f
      · right
        rw [insertCachedPage_held h hf hins |>.symm]
        rw [insertCachedPage_ok hins]
        exact ⟨rfl, rfl⟩
      · left
        rw [insertCachedPage_refused hins]
        exact ⟨by simp, rfl⟩
    | false =>
      right
      refine ⟨rfl, ?_⟩
      change heldOf s.cache.entries (f.entry :: s.privates) = _
      rw [heldOf_consPrivate _ (h.fill_not_entry (List.mem_of_find?_eq_some hf)),
        heldEntry_pinned (by rw [hpins]; exact Nat.one_ne_zero), hpins]
      rfl

/-! ## 8. A large page -/

/-- The large page comes into the entry itself, whoever holds it. -/
theorem replaceMaterialized_held {s : Storage} {ref : PageRef} {io : PageIo} {h : Held}
    (hs : Exact s) (hh : held s ref.cache = some h) (hpage : h.page = ref.page)
    (hio : 1 < io.npages) (hone : h.tracked = true → h.pins = 1) :
    (replaceMaterialized s ref io).1 = .success ∧
      held (replaceMaterialized s ref io).2 = Function.update (held s) ref.cache
        (some { h with page := s.nextPage, io := io }) := by
  have hpins := held_pins hh
  obtain ⟨htracked, hprivate⟩ := held_tracked hh
  unfold replaceMaterialized
  rw [if_neg (by omega)]
  cases ht : h.tracked with
  | true =>
    obtain ⟨e, hf, hep, hepage, -⟩ := htracked ht
    obtain ⟨hmem, haddr⟩ := findEntry_mem hf
    have hcore := hs.replace hmem io
    rw [haddr] at hcore
    rw [hf]
    dsimp only
    rw [if_neg (by rw [hep, hone ht, hepage]; simp [hpage])]
    refine ⟨rfl, (pruneLocked_held hcore).trans ?_⟩
    change heldOf (updateEntry _ _ _) s.privates = _
    rw [heldOf_updateEntry _ (by exact fun _ => rfl) hf, heldEntry_pinned (by rwa [← hep] at hpins)]
    rw [← ht, ← hep]
    rfl
  | false =>
    obtain ⟨hf, e, hp, hep, hepage, -⟩ := hprivate ht
    rw [hf]
    dsimp only
    rw [hp]
    dsimp only
    rw [if_neg (by rw [hep, hepage]; simp [hpage, hpins])]
    refine ⟨rfl, ?_⟩
    change heldOf s.cache.entries (updateEntry _ _ _) = _
    rw [heldOf_updatePrivate (by exact fun _ => rfl) hf hp,
      heldEntry_pinned (by rwa [← hep] at hpins)]
    rw [← ht, ← hep]
    rfl

/-- The large page goes to an entry of its own, and the old reference is released if it is still
one that can be. -/
theorem detachMaterialized_held {s : Storage} {ref : PageRef} {io : PageIo} {h : Held}
    (hs : Exact s) (hh : held s ref.cache = some h) (hpage : h.page = ref.page)
    (htracked : h.tracked = true) (hio : 1 < io.npages) :
    (detachMaterialized s ref io true).1 = .success ∧ ref.cache ≠ s.nextAddr ∧
      ∃ v, (v = h.unpin ∨ v = some h) ∧ held (detachMaterialized s ref io true).2 =
        Function.update (Function.update (held s) s.nextAddr (some ⟨1, s.nextPage, io, false⟩))
          ref.cache v := by
  obtain ⟨e, hf, -, hepage, -⟩ := (held_tracked hh).1 htracked
  obtain ⟨hmem, haddr⟩ := findEntry_mem hf
  have hne : ref.cache ≠ s.nextAddr := by
    intro heq
    apply hs.next_not_entry
    rw [← heq, ← haddr]
    exact List.mem_map_of_mem hmem
  unfold detachMaterialized
  rw [hf]
  dsimp only
  rw [if_neg (by rw [hepage, hpage]; simp; omega), if_neg (by simp)]
  refine ⟨rfl, hne, ?_⟩
  -- the view with the new entry
  have hview : held { s with
      privates :=
        { addr := s.nextAddr, page := s.nextPage, large := true, io := io
          snapshotTxnid := e.snapshotTxnid, pins := 1, reusable := false } :: s.privates
      nextAddr := s.nextAddr + 1, nextPage := s.nextPage + 1 } =
      Function.update (held s) s.nextAddr (some ⟨1, s.nextPage, io, false⟩) :=
    heldOf_consPrivate s.privates hs.next_not_entry
  have hheld := congrFun hview ref.cache
  rw [Function.update_of_ne hne, hh] at hheld
  rw [← hview]
  by_cases hl : RefLive { s with
      privates :=
        { addr := s.nextAddr, page := s.nextPage, large := true, io := io
          snapshotTxnid := e.snapshotTxnid, pins := 1, reusable := false } :: s.privates
      nextAddr := s.nextAddr + 1, nextPage := s.nextPage + 1 } ref
  · exact ⟨h.unpin, Or.inl rfl, (releaseCachedRef_live (hs.addPrivate (by rfl)) hl hheld).2⟩
  · refine ⟨some h, Or.inr rfl, ?_⟩
    rw [releaseCachedRef_dead hl]
    exact (Function.update_eq_self_iff.mpr hheld.symm).symm

end Mdbx.PageCache
