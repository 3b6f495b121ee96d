import Mdbx.Cached.Model

/-!
# Cached.Shared — one cache entry under many threads

Threads run `mdbx_cache_get` or `cache_entry_snapshot_volatile` on one entry.  A load or a store of
one field, and the compare-and-reset of `last_confirmed_txnid`, is one step; the search in
`cache_get` works on a thread's own copy and is one step too.
-/

namespace Mdbx.Cached.Shared

/-! ## 1. State -/

/-- `SAFE64_INVALID_THRESHOLD - 1` -/
def maxTxnid : Nat := 0xffffffff00000000 - 1

/-- Where a thread is; `loc` is its copy of the entry, `again` the copy in the making, `fresh` the
one to be published. -/
inductive Pc where
  | idle
  -- `mdbx_cache_get`: `local = *entry`
  | copyTrunk
  | copyConfirmed (loc : Entry)
  | copyOffset (loc : Entry)
  | copyLength (loc : Entry)
  -- a round of its loop; `tries` reads have found an update in progress
  | readConfirmed (loc : Entry) (tries : Nat)
  | readTrunk (loc again : Entry)
  | readOffset (loc again : Entry)
  | readLength (loc again : Entry)
  | recheck (loc : Entry)
  -- `cache_get`, and `cache_fallback`
  | getting (loc : Entry)
  | fallback
  -- the update of the entry
  | readSnap (result : Result) (fresh : Entry)
  | resetCompare (result : Result) (fresh : Entry) (snap : Nat)
  | clearTrunk (result : Result) (fresh : Entry)
  | writeOffset (result : Result) (fresh : Entry)
  | writeLength (result : Result) (fresh : Entry)
  | writeTrunk (result : Result) (fresh : Entry)
  | writeConfirmed (result : Result) (fresh : Entry)
  | got (result : Result)
  -- `cache_entry_snapshot_volatile`
  | snapConfirmed (attempt : Nat)
  | snapTrunk (attempt : Nat) (again : Entry)
  | snapOffset (attempt : Nat) (again : Entry)
  | snapLength (attempt : Nat) (again : Entry)
  | snapRecheck (attempt : Nat) (again : Entry)
  | snapshot (result : Option Entry)

structure State (T : Type) where
  entry : Entry
  -- what was published, newest first; the last is the initial entry
  published : List Entry
  threads : T → Pc

/-! ## 2. Steps -/

/-- The reads of `last_confirmed_txnid` before `MDBX_CACHE_RACE`. -/
def raceTries (build : Build) : Nat := if build.debug then 1 else 4

/-- `result.status > MDBX_CACHE_DIRTY` -/
def aboveDirty (status : Status) : Bool := status = .hit ∨ status.aboveHit

/-- A step of a thread at the entry; none where it waits for its search or has returned. -/
def own (build : Build) (e : Entry) : Pc → Option (Entry × Pc)
  | .copyTrunk => some (e, .copyConfirmed { Entry.init with trunkTxnid := e.trunkTxnid })
  | .copyConfirmed loc => some (e, .copyOffset { loc with lastConfirmedTxnid := e.lastConfirmedTxnid })
  | .copyOffset loc => some (e, .copyLength { loc with offset := e.offset })
  | .copyLength loc => some (e, .readConfirmed { loc with length := e.length } 0)
  | .readConfirmed loc tries =>
    if maxTxnid < e.lastConfirmedTxnid then
      if tries + 1 < raceTries build then some (e, .readConfirmed loc (tries + 1))
      else some (e, .fallback)
    else some (e, .readTrunk loc { Entry.init with lastConfirmedTxnid := e.lastConfirmedTxnid })
  | .readTrunk loc again => some (e, .readOffset loc { again with trunkTxnid := e.trunkTxnid })
  | .readOffset loc again => some (e, .readLength loc { again with offset := e.offset })
  | .readLength loc again =>
    let again := { again with length := e.length }
    if loc = again then some (e, .recheck loc) else some (e, .readConfirmed again 0)
  | .recheck loc =>
    if loc.lastConfirmedTxnid = e.lastConfirmedTxnid then some (e, .getting loc)
    else some (e, .readConfirmed loc 0)
  | .readSnap result fresh =>
    if fresh.lastConfirmedTxnid ≤ e.lastConfirmedTxnid then
      some (e, .got { result with status := .race })
    else some (e, .resetCompare result fresh e.lastConfirmedTxnid)
  | .resetCompare result fresh snap =>
    if e.lastConfirmedTxnid = snap then
      some ({ e with lastConfirmedTxnid := uint64Max }, .clearTrunk result fresh)
    else some (e, .readSnap result fresh)
  | .clearTrunk result fresh => some ({ e with trunkTxnid := 0 }, .writeOffset result fresh)
  | .writeOffset result fresh => some ({ e with offset := fresh.offset }, .writeLength result fresh)
  | .writeLength result fresh => some ({ e with length := fresh.length }, .writeTrunk result fresh)
  | .writeTrunk result fresh =>
    some ({ e with trunkTxnid := fresh.trunkTxnid }, .writeConfirmed result fresh)
  | .writeConfirmed result fresh =>
    some ({ e with lastConfirmedTxnid := fresh.lastConfirmedTxnid }, .got result)
  | .snapConfirmed attempt =>
    if 4 ≤ attempt then some (e, .snapshot none)
    else if maxTxnid < e.lastConfirmedTxnid then some (e, .snapConfirmed (attempt + 1))
    else some (e, .snapTrunk attempt { Entry.init with lastConfirmedTxnid := e.lastConfirmedTxnid })
  | .snapTrunk attempt again =>
    some (e, .snapOffset attempt { again with trunkTxnid := e.trunkTxnid })
  | .snapOffset attempt again => some (e, .snapLength attempt { again with offset := e.offset })
  | .snapLength attempt again => some (e, .snapRecheck attempt { again with length := e.length })
  | .snapRecheck attempt again =>
    if again.lastConfirmedTxnid = e.lastConfirmedTxnid then some (e, .snapshot (some again))
    else some (e, .snapConfirmed (attempt + 1))
  | .idle => none
  | .getting _ => none
  | .fallback => none
  | .got _ => none
  | .snapshot _ => none

/-- The last store makes the new entry visible as a whole. -/
def Pc.publishes : Pc → List Entry
  | .writeConfirmed _ fresh => [fresh]
  | _ => []

/-- The search for the key with what a thread has copied; `cache_fallback` goes without. -/
def search (cfg : Config) (st : Cached.State) (txn : Txn) (io : Io) : Pc → Option Pc
  | .getting loc =>
    let (result, fresh) := cacheGet cfg st txn io loc
    if result.status.aboveHit then some (.readSnap result fresh) else some (.got result)
  | .fallback =>
    let (result, _) := cacheGet cfg st txn io .init
    some (.got (if aboveDirty result.status then { result with status := .race } else result))
  | _ => none

inductive Event (T : Type) where
  | cacheGet (t : T)
  | snapshotVolatile (t : T)
  | own (t : T)
  | search (t : T) (cfg : Config) (st : Cached.State) (txn : Txn) (io : Io)

/-- A thread may call when it is at no call. -/
def Pc.returned : Pc → Bool
  | .idle => true
  | .got _ => true
  | .snapshot _ => true
  | _ => false

variable {T : Type} [DecidableEq T]

def State.goto (s : State T) (t : T) (pc : Pc) : State T :=
  { s with threads := Function.update s.threads t pc }

def step (build : Build) (s : State T) : Event T → Option (State T)
  | .cacheGet t => if (s.threads t).returned then some (s.goto t .copyTrunk) else none
  | .snapshotVolatile t => if (s.threads t).returned then some (s.goto t (.snapConfirmed 0)) else none
  | .own t => (own build s.entry (s.threads t)).map fun (e, pc) => {
      entry := e
      published := (s.threads t).publishes ++ s.published
      threads := Function.update s.threads t pc }
  | .search t cfg st txn io =>
    -- transactions have their ids below the threshold
    if txn.txnid ≤ maxTxnid then (search cfg st txn io (s.threads t)).map (s.goto t) else none

def start (first : Entry) : State T := { entry := first, published := [first], threads := fun _ => .idle }

inductive Reachable (build : Build) (first : Entry) : State T → Prop where
  | start : Reachable build first (start first)
  | step {s s' : State T} (h : Reachable build first s) (e : Event T)
      (hs : step build s e = some s') : Reachable build first s'

/-- The copy of the entry that a thread relies on. -/
def Pc.actsOn : Pc → Option Entry
  | .getting loc => some loc
  | .snapshot result => result
  | _ => none

/-! ## 3. Invariant -/

/-- The copy in the making with the number of fields that were read after its
`last_confirmed_txnid`. -/
def Pc.reads : Pc → Option (Entry × Nat)
  | .readTrunk _ again => some (again, 0)
  | .readOffset _ again => some (again, 1)
  | .readLength _ again => some (again, 2)
  | .recheck loc => some (loc, 3)
  | .snapTrunk _ again => some (again, 0)
  | .snapOffset _ again => some (again, 1)
  | .snapLength _ again => some (again, 2)
  | .snapRecheck _ again => some (again, 3)
  | _ => none

/-- The copy that is being stored with the number of fields that have their new values. -/
def Pc.writes : Pc → Option (Entry × Nat)
  | .clearTrunk _ fresh => some (fresh, 0)
  | .writeOffset _ fresh => some (fresh, 0)
  | .writeLength _ fresh => some (fresh, 1)
  | .writeTrunk _ fresh => some (fresh, 2)
  | .writeConfirmed _ fresh => some (fresh, 3)
  | _ => none

/-- The copy that waits to be stored, and what it is to replace. -/
def Pc.waits : Pc → Option (Entry × Option Nat)
  | .readSnap _ fresh => some (fresh, none)
  | .resetCompare _ fresh snap => some (fresh, some snap)
  | _ => none

structure Entry.Read (a : Entry) (n : Nat) (e : Entry) : Prop where
  trunk : 0 < n → a.trunkTxnid = e.trunkTxnid
  offset : 1 < n → a.offset = e.offset
  length : 2 < n → a.length = e.length

structure Entry.Written (f : Entry) (n : Nat) (e : Entry) : Prop where
  offset : 0 < n → e.offset = f.offset
  length : 1 < n → e.length = f.length
  trunk : 2 < n → e.trunkTxnid = f.trunkTxnid

theorem Entry.Read.trunk_read (a e : Entry) :
    Entry.Read { a with trunkTxnid := e.trunkTxnid } 1 e :=
  ⟨fun _ => rfl, fun h => absurd h (by decide), fun h => absurd h (by decide)⟩

theorem Entry.Read.offset_read {a e : Entry} (h : Entry.Read a 1 e) :
    Entry.Read { a with offset := e.offset } 2 e :=
  ⟨fun _ => h.trunk (by decide), fun _ => rfl, fun h => absurd h (by decide)⟩

theorem Entry.Read.length_read {a e : Entry} (h : Entry.Read a 2 e) :
    Entry.Read { a with length := e.length } 3 e :=
  ⟨fun _ => h.trunk (by decide), fun _ => h.offset (by decide), fun _ => rfl⟩

theorem Entry.Written.none_written (f e : Entry) : Entry.Written f 0 e :=
  ⟨fun h => absurd h (by decide), fun h => absurd h (by decide), fun h => absurd h (by decide)⟩

theorem Entry.Written.offset_written (f e : Entry) :
    Entry.Written f 1 { e with offset := f.offset } :=
  ⟨fun _ => rfl, fun h => absurd h (by decide), fun h => absurd h (by decide)⟩

theorem Entry.Written.length_written {f e : Entry} (h : Entry.Written f 1 e) :
    Entry.Written f 2 { e with length := f.length } :=
  ⟨fun _ => h.offset (by decide), fun _ => rfl, fun h => absurd h (by decide)⟩

theorem Entry.Written.trunk_written {f e : Entry} (h : Entry.Written f 2 e) :
    Entry.Written f 3 { e with trunkTxnid := f.trunkTxnid } :=
  ⟨fun _ => h.offset (by decide), fun _ => h.length (by decide), fun _ => rfl⟩

/-- A thread that does not store holds nothing wrong. -/
structure Local (e : Entry) (recent : Entry) (published : List Entry) (pc : Pc) : Prop where
  reads : ∀ a n, pc.reads = some (a, n) → a.lastConfirmedTxnid ≤ maxTxnid ∧
    a.lastConfirmedTxnid ≤ recent.lastConfirmedTxnid ∧
    (e.lastConfirmedTxnid = a.lastConfirmedTxnid → Entry.Read a n e)
  waits : ∀ f o, pc.waits = some (f, o) → f.lastConfirmedTxnid ≤ maxTxnid ∧
    ∀ snap ∈ o, snap < f.lastConfirmedTxnid
  acts : ∀ a, pc.actsOn = some a → a ∈ published

structure Storing (s : State T) (recent : Entry) (t : T) (f : Entry) (n : Nat) : Prop where
  hidden : s.entry.lastConfirmedTxnid = uint64Max
  written : Entry.Written f n s.entry
  later : recent.lastConfirmedTxnid < f.lastConfirmedTxnid
  valid : f.lastConfirmedTxnid ≤ maxTxnid
  alone : ∀ t', t' ≠ t → (s.threads t').writes = none

structure Inv (first recent : Entry) (s : State T) : Prop where
  newest : s.published.head? = some recent
  oldest : s.published.getLast? = some first
  sorted : s.published.Pairwise fun a b => b.lastConfirmedTxnid < a.lastConfirmedTxnid
  calm : (∀ t, (s.threads t).writes = none) → s.entry = recent
  storing : ∀ t f n, (s.threads t).writes = some (f, n) → Storing s recent t f n
  threads : ∀ t, Local s.entry recent s.published (s.threads t)

variable {build : Build} {first recent : Entry} {s : State T} {t : T} {e e' : Entry} {pc : Pc}
  {published : List Entry}

theorem Local.plain (hr : pc.reads = none) (hw : pc.waits = none) (ha : pc.actsOn = none) :
    Local e recent published pc where
  reads := fun _ _ h => nomatch hr.symm.trans h
  waits := fun _ _ h => nomatch hw.symm.trans h
  acts := fun _ h => nomatch ha.symm.trans h

theorem Local.reading {a : Entry} {n : Nat} (hr : pc.reads = some (a, n)) (hw : pc.waits = none)
    (ha : pc.actsOn = none) (hvalid : a.lastConfirmedTxnid ≤ maxTxnid)
    (hle : a.lastConfirmedTxnid ≤ recent.lastConfirmedTxnid)
    (hread : e.lastConfirmedTxnid = a.lastConfirmedTxnid → Entry.Read a n e) :
    Local e recent published pc where
  reads := by
    intro a' n' h
    have ⟨ha', hn'⟩ := Prod.mk.inj (Option.some.inj (hr.symm.trans h))
    rw [← ha', ← hn']
    exact ⟨hvalid, hle, hread⟩
  waits := fun _ _ h => nomatch hw.symm.trans h
  acts := fun _ h => nomatch ha.symm.trans h

theorem Local.waiting {f : Entry} {o : Option Nat} (hr : pc.reads = none)
    (hw : pc.waits = some (f, o)) (ha : pc.actsOn = none)
    (hvalid : f.lastConfirmedTxnid ≤ maxTxnid) (hsnap : ∀ snap ∈ o, snap < f.lastConfirmedTxnid) :
    Local e recent published pc where
  reads := fun _ _ h => nomatch hr.symm.trans h
  waits := by
    intro f' o' h
    have ⟨hf', ho'⟩ := Prod.mk.inj (Option.some.inj (hw.symm.trans h))
    rw [← hf', ← ho']
    exact ⟨hvalid, hsnap⟩
  acts := fun _ h => nomatch ha.symm.trans h

theorem valid_ne_max {n : Nat} (h : n ≤ maxTxnid) : uint64Max ≠ n := by
  have hlt : maxTxnid < uint64Max := by decide
  omega

-- while the entry is being stored, nobody's copy can be confirmed
theorem Local.hide (h : Local e recent published pc) (he : e'.lastConfirmedTxnid = uint64Max) :
    Local e' recent published pc where
  reads := fun a n ha =>
    have ⟨hvalid, hle, _⟩ := h.reads a n ha
    ⟨hvalid, hle, fun heq => absurd (he.symm.trans heq) (valid_ne_max hvalid)⟩
  waits := h.waits
  acts := h.acts

-- nor when it was replaced
theorem Local.publish {f : Entry} (h : Local e recent published pc)
    (hlt : recent.lastConfirmedTxnid < f.lastConfirmedTxnid) : Local f f (f :: published) pc where
  reads := fun a n ha =>
    have ⟨hvalid, hle, _⟩ := h.reads a n ha
    ⟨hvalid, hle.trans hlt.le, fun heq => absurd heq (by omega)⟩
  waits := h.waits
  acts := fun a ha => List.mem_cons_of_mem f (h.acts a ha)

/-! ## 4. What a step preserves -/

theorem update_writes {P : T → Pc → Prop} (hother : ∀ t', t' ≠ t → P t' (s.threads t'))
    (hown : P t pc) (t' : T) : P t' (Function.update s.threads t pc t') := by
  by_cases heq : t' = t
  · rw [heq, Function.update_self]
    exact hown
  · rw [Function.update_of_ne heq]
    exact hother t' heq

omit [DecidableEq T] in
theorem Inv.nobody (h : Inv first recent s) (hle : s.entry.lastConfirmedTxnid ≤ maxTxnid) (t : T) :
    (s.threads t).writes = none := by
  cases hw : (s.threads t).writes with
  | none => rfl
  | some p =>
    have hidden := (h.storing t p.1 p.2 hw).hidden
    exact absurd hidden.symm (valid_ne_max hle)

omit [DecidableEq T] in
theorem Inv.settled (h : Inv first recent s) (hle : s.entry.lastConfirmedTxnid ≤ maxTxnid) :
    s.entry = recent := h.calm (h.nobody hle)

theorem goto_self : (s.goto t pc).threads t = pc := by
  show Function.update s.threads t pc t = pc
  rw [Function.update_self]

theorem goto_other {t' : T} (h : t' ≠ t) : (s.goto t pc).threads t' = s.threads t' := by
  show Function.update s.threads t pc t' = s.threads t'
  rw [Function.update_of_ne h]

-- the entry stays, and the thread is not one that stores
theorem Inv.goto (h : Inv first recent s) (hw : (s.threads t).writes = none)
    (hw' : pc.writes = none) (hlocal : Local s.entry recent s.published pc) :
    Inv first recent (s.goto t pc) where
  newest := h.newest
  oldest := h.oldest
  sorted := h.sorted
  calm := by
    intro hnone
    refine h.calm fun t' => ?_
    by_cases heq : t' = t
    · rw [heq]
      exact hw
    · rw [← goto_other heq]
      exact hnone t'
  storing := by
    intro t' f n ht'
    by_cases heq : t' = t
    · rw [heq] at ht'
      rw [goto_self, hw'] at ht'
      exact nomatch ht'
    · rw [goto_other heq] at ht'
      have hst := h.storing t' f n ht'
      refine ⟨hst.hidden, hst.written, hst.later, hst.valid, fun t'' hne => ?_⟩
      exact update_writes (P := fun t'' pc => t'' ≠ t' → pc.writes = none)
        (fun t'' _ => hst.alone t'') (fun _ => hw') t'' hne
  threads := update_writes (fun t' _ => h.threads t') hlocal

-- the thread takes the entry, or stores a field of it
theorem Inv.store {f : Entry} {n : Nat} (h : Inv first recent s)
    (halone : ∀ t', t' ≠ t → (s.threads t').writes = none) (hpc : pc.writes = some (f, n))
    (hr : pc.reads = none) (hwait : pc.waits = none) (ha : pc.actsOn = none)
    (hhidden : e.lastConfirmedTxnid = uint64Max) (hwritten : Entry.Written f n e)
    (hlater : recent.lastConfirmedTxnid < f.lastConfirmedTxnid)
    (hvalid : f.lastConfirmedTxnid ≤ maxTxnid) :
    Inv first recent
      { s with entry := e, threads := Function.update s.threads t pc } where
  newest := h.newest
  oldest := h.oldest
  sorted := h.sorted
  calm := by
    intro hnone
    have := hnone t
    simp only [Function.update_self, hpc] at this
    exact nomatch this
  storing := by
    intro t' f' n' ht'
    by_cases heq : t' = t
    · rw [heq] at ht' ⊢
      simp only [Function.update_self, hpc, Option.some.injEq, Prod.mk.injEq] at ht'
      rw [← ht'.1, ← ht'.2]
      refine ⟨hhidden, hwritten, hlater, hvalid, fun t'' hne => ?_⟩
      simp only [Function.update_of_ne hne]
      exact halone t'' hne
    · simp only [Function.update_of_ne heq] at ht'
      exact nomatch (halone t' heq).symm.trans ht'
  threads := update_writes (fun t' _ => (h.threads t').hide hhidden) (.plain hr hwait ha)

theorem Entry.Written.eq {f : Entry} (h : Entry.Written f 3 e) :
    { e with lastConfirmedTxnid := f.lastConfirmedTxnid } = f := by
  have htrunk := h.trunk (by decide)
  have hoffset := h.offset (by decide)
  have hlength := h.length (by decide)
  cases e
  cases f
  exact congrArg₂ (fun (a : Nat) (p : Nat × Nat) => Entry.mk a _ p.1 p.2) htrunk
    (congrArg₂ Prod.mk hoffset hlength)

-- the last store
theorem Inv.publish {f : Entry} (h : Inv first recent s) (hst : Storing s recent t f 3)
    (hw : pc.writes = none) (hr : pc.reads = none) (hwait : pc.waits = none)
    (ha : pc.actsOn = none) :
    Inv first f {
      entry := { s.entry with lastConfirmedTxnid := f.lastConfirmedTxnid }
      published := f :: s.published
      threads := Function.update s.threads t pc } := by
  rw [hst.written.eq]
  have hne : s.published ≠ [] := fun hnil => by
    have := h.newest
    rw [hnil] at this
    exact nomatch this
  have ⟨older, hcons⟩ : ∃ older, s.published = recent :: older := by
    cases hp : s.published with
    | nil => exact absurd hp hne
    | cons a older =>
      have := h.newest
      rw [hp] at this
      exact ⟨older, congrArg (· :: older) (Option.some.inj this)⟩
  refine ⟨rfl, ?_, ?_, fun _ => rfl, ?_, ?_⟩
  · rw [List.getLast?_cons_of_ne_nil hne]
    exact h.oldest
  · refine List.pairwise_cons.mpr ⟨fun b hb => ?_, h.sorted⟩
    rw [hcons] at hb
    rcases List.mem_cons.mp hb with heq | hmem
    · rw [heq]
      exact hst.later
    · have hsorted := h.sorted
      rw [hcons] at hsorted
      exact ((List.pairwise_cons.mp hsorted).1 b hmem).trans hst.later
  · intro t' f' n' ht'
    by_cases heq : t' = t
    · rw [heq] at ht'
      simp only [Function.update_self, hw] at ht'
      exact nomatch ht'
    · simp only [Function.update_of_ne heq] at ht'
      exact nomatch (hst.alone t' heq).symm.trans ht'
  · exact update_writes (fun t' _ => (h.threads t').publish hst.later) (.plain hr hwait ha)

/-! ## 5. Runs -/

-- a thread begins to copy what it has found settled
omit [DecidableEq T] in
theorem Inv.read_first (h : Inv first recent s) (hvalid : s.entry.lastConfirmedTxnid ≤ maxTxnid)
    (hr : pc.reads = some ({ Entry.init with lastConfirmedTxnid := s.entry.lastConfirmedTxnid }, 0))
    (hw : pc.waits = none) (ha : pc.actsOn = none) :
    Local s.entry recent s.published pc :=
  .reading hr hw ha hvalid (congrArg Entry.lastConfirmedTxnid (h.settled hvalid)).le
    fun _ => ⟨(nomatch ·), (nomatch ·), (nomatch ·)⟩

-- a confirmed copy is the entry, and the entry was published
omit [DecidableEq T] in
theorem Inv.confirmed (h : Inv first recent s) {a : Entry}
    (hr : (s.threads t).reads = some (a, 3))
    (heq : a.lastConfirmedTxnid = s.entry.lastConfirmedTxnid) : a ∈ s.published := by
  have ⟨hvalid, _, hread⟩ := (h.threads t).reads a 3 hr
  have hsettled := h.settled (heq ▸ hvalid)
  have hsame := hread heq.symm
  have htrunk := hsame.trunk (by decide)
  have hoffset := hsame.offset (by decide)
  have hlength := hsame.length (by decide)
  have ha : a = s.entry := by
    cases a
    cases he : s.entry
    rw [he] at htrunk hoffset hlength heq
    dsimp only at htrunk hoffset hlength heq
    rw [htrunk, hoffset, hlength, heq]
  rw [ha, hsettled]
  exact List.mem_of_mem_head? h.newest

-- the thread has read, or made up its mind
theorem Inv.quiet (h : Inv first recent s) (hpub : (s.threads t).publishes = [])
    (hw : (s.threads t).writes = none) (hw' : pc.writes = none)
    (hlocal : Local s.entry recent s.published pc) : ∃ recent', Inv first recent' {
      entry := s.entry
      published := (s.threads t).publishes ++ s.published
      threads := Function.update s.threads t pc } := by
  rw [hpub]
  exact ⟨recent, h.goto hw hw' hlocal⟩

-- the thread has gone on with its copy
omit [DecidableEq T] in
theorem Inv.read_next (h : Inv first recent s) {a a' : Entry} {n n' : Nat}
    (hr : (s.threads t).reads = some (a, n)) (hr' : pc.reads = some (a', n'))
    (hw : pc.waits = none) (ha : pc.actsOn = none)
    (hkeep : a'.lastConfirmedTxnid = a.lastConfirmedTxnid)
    (hread : Entry.Read a n s.entry → Entry.Read a' n' s.entry) :
    Local s.entry recent s.published pc := by
  have ⟨hvalid, hle, heq⟩ := (h.threads t).reads a n hr
  rw [← hkeep] at hvalid hle heq
  exact .reading hr' hw ha hvalid hle fun hsame => hread (heq hsame)

theorem Inv.store_next (h : Inv first recent s) {f : Entry} {n n' : Nat}
    (hpub : (s.threads t).publishes = []) (hw : (s.threads t).writes = some (f, n))
    (hw' : pc.writes = some (f, n')) (hr : pc.reads = none) (hwait : pc.waits = none)
    (ha : pc.actsOn = none) (hkeep : e.lastConfirmedTxnid = s.entry.lastConfirmedTxnid)
    (hwritten : Entry.Written f n s.entry → Entry.Written f n' e) : ∃ recent', Inv first recent' {
      entry := e
      published := (s.threads t).publishes ++ s.published
      threads := Function.update s.threads t pc } := by
  have hst := h.storing t f n hw
  rw [hpub]
  exact ⟨recent, h.store hst.alone hw' hr hwait ha (hkeep.trans hst.hidden)
    (hwritten hst.written) hst.later hst.valid⟩

theorem own_inv (h : Inv first recent s) {out : Entry × Pc}
    (hown : own build s.entry (s.threads t) = some out) : ∃ recent', Inv first recent' {
      entry := out.1
      published := (s.threads t).publishes ++ s.published
      threads := Function.update s.threads t out.2 } := by
  have hquiet := @Inv.quiet T _ first recent s t
  have hnext := @Inv.read_next T first recent s t
  have hstore := @Inv.store_next T _ first recent s t
  have hconfirmed := @Inv.confirmed T first recent s t h
  have hlocal := h.threads t
  have hstoring := h.storing t
  cases hpc : s.threads t with
  | idle => exact nomatch hpc ▸ hown
  | getting loc => exact nomatch hpc ▸ hown
  | fallback => exact nomatch hpc ▸ hown
  | got result => exact nomatch hpc ▸ hown
  | snapshot result => exact nomatch hpc ▸ hown
  | copyTrunk =>
    rw [hpc] at hown hquiet
    rw [← Option.some.inj hown]
    exact hquiet h rfl rfl rfl (.plain rfl rfl rfl)
  | copyConfirmed loc =>
    rw [hpc] at hown hquiet
    rw [← Option.some.inj hown]
    exact hquiet h rfl rfl rfl (.plain rfl rfl rfl)
  | copyOffset loc =>
    rw [hpc] at hown hquiet
    rw [← Option.some.inj hown]
    exact hquiet h rfl rfl rfl (.plain rfl rfl rfl)
  | copyLength loc =>
    rw [hpc] at hown hquiet
    rw [← Option.some.inj hown]
    exact hquiet h rfl rfl rfl (.plain rfl rfl rfl)
  | readConfirmed loc tries =>
    rw [hpc] at hown hquiet
    simp only [own] at hown
    split_ifs at hown with hbusy htries
    · rw [← Option.some.inj hown]
      exact hquiet h rfl rfl rfl (.plain rfl rfl rfl)
    · rw [← Option.some.inj hown]
      exact hquiet h rfl rfl rfl (.plain rfl rfl rfl)
    · rw [← Option.some.inj hown]
      exact hquiet h rfl rfl rfl (h.read_first (Nat.not_lt.mp hbusy) rfl rfl rfl)
  | readTrunk loc again =>
    rw [hpc] at hown hquiet hnext
    rw [← Option.some.inj hown]
    exact hquiet h rfl rfl rfl (hnext h rfl rfl rfl rfl rfl fun _ => .trunk_read again s.entry)
  | readOffset loc again =>
    rw [hpc] at hown hquiet hnext
    rw [← Option.some.inj hown]
    exact hquiet h rfl rfl rfl (hnext h rfl rfl rfl rfl rfl .offset_read)
  | readLength loc again =>
    rw [hpc] at hown hquiet hnext
    simp only [own] at hown
    split_ifs at hown with hsame
    · rw [← Option.some.inj hown]
      have heq : loc.lastConfirmedTxnid = again.lastConfirmedTxnid := congrArg (·.lastConfirmedTxnid) hsame
      exact hquiet h rfl rfl rfl (hnext h rfl rfl rfl rfl heq fun hread => hsame ▸ hread.length_read)
    · rw [← Option.some.inj hown]
      exact hquiet h rfl rfl rfl (.plain rfl rfl rfl)
  | recheck loc =>
    rw [hpc] at hown hquiet hconfirmed
    simp only [own] at hown
    split_ifs at hown with hsame
    · rw [← Option.some.inj hown]
      refine hquiet h rfl rfl rfl ⟨(fun _ _ h => nomatch h), (fun _ _ h => nomatch h), fun a ha => ?_⟩
      rw [← Option.some.inj ha]
      exact hconfirmed rfl hsame
    · rw [← Option.some.inj hown]
      exact hquiet h rfl rfl rfl (.plain rfl rfl rfl)
  | readSnap result fresh =>
    rw [hpc] at hown hquiet hlocal
    have ⟨hvalid, _⟩ := hlocal.waits fresh none rfl
    simp only [own] at hown
    split_ifs at hown with hle
    · rw [← Option.some.inj hown]
      exact hquiet h rfl rfl rfl (.plain rfl rfl rfl)
    · rw [← Option.some.inj hown]
      refine hquiet h rfl rfl rfl (.waiting rfl rfl rfl hvalid fun snap hsnap => ?_)
      rw [← Option.some.inj hsnap]
      exact Nat.not_le.mp hle
  | resetCompare result fresh snap =>
    rw [hpc] at hown hquiet hlocal
    have ⟨hvalid, hlater⟩ := hlocal.waits fresh (some snap) rfl
    have hlater := hlater snap rfl
    simp only [own] at hown
    split_ifs at hown with hsame
    · rw [← Option.some.inj hown]
      have hle : s.entry.lastConfirmedTxnid ≤ maxTxnid := by
        rw [hsame]
        exact hlater.le.trans hvalid
      have hrecent : recent.lastConfirmedTxnid < fresh.lastConfirmedTxnid := by
        rw [← h.settled hle, hsame]
        exact hlater
      exact ⟨recent, h.store (fun t' _ => h.nobody hle t') rfl rfl rfl rfl rfl
        (.none_written fresh _) hrecent hvalid⟩
    · rw [← Option.some.inj hown]
      exact hquiet h rfl rfl rfl (.waiting rfl rfl rfl hvalid fun _ h => nomatch h)
  | clearTrunk result fresh =>
    rw [hpc] at hown hstore
    rw [← Option.some.inj hown]
    exact hstore h rfl rfl rfl rfl rfl rfl rfl fun _ => .none_written fresh _
  | writeOffset result fresh =>
    rw [hpc] at hown hstore
    rw [← Option.some.inj hown]
    exact hstore h rfl rfl rfl rfl rfl rfl rfl fun _ => .offset_written fresh _
  | writeLength result fresh =>
    rw [hpc] at hown hstore
    rw [← Option.some.inj hown]
    exact hstore h rfl rfl rfl rfl rfl rfl rfl .length_written
  | writeTrunk result fresh =>
    rw [hpc] at hown hstore
    rw [← Option.some.inj hown]
    exact hstore h rfl rfl rfl rfl rfl rfl rfl .trunk_written
  | writeConfirmed result fresh =>
    rw [hpc] at hown hstoring
    rw [← Option.some.inj hown]
    exact ⟨fresh, h.publish (hstoring fresh 3 rfl) rfl rfl rfl rfl⟩
  | snapConfirmed attempt =>
    rw [hpc] at hown hquiet
    simp only [own] at hown
    split_ifs at hown with hlast hbusy
    · rw [← Option.some.inj hown]
      exact hquiet h rfl rfl rfl (.plain rfl rfl rfl)
    · rw [← Option.some.inj hown]
      exact hquiet h rfl rfl rfl (.plain rfl rfl rfl)
    · rw [← Option.some.inj hown]
      exact hquiet h rfl rfl rfl (h.read_first (Nat.not_lt.mp hbusy) rfl rfl rfl)
  | snapTrunk attempt again =>
    rw [hpc] at hown hquiet hnext
    rw [← Option.some.inj hown]
    exact hquiet h rfl rfl rfl (hnext h rfl rfl rfl rfl rfl fun _ => .trunk_read again s.entry)
  | snapOffset attempt again =>
    rw [hpc] at hown hquiet hnext
    rw [← Option.some.inj hown]
    exact hquiet h rfl rfl rfl (hnext h rfl rfl rfl rfl rfl .offset_read)
  | snapLength attempt again =>
    rw [hpc] at hown hquiet hnext
    rw [← Option.some.inj hown]
    exact hquiet h rfl rfl rfl (hnext h rfl rfl rfl rfl rfl .length_read)
  | snapRecheck attempt again =>
    rw [hpc] at hown hquiet hconfirmed
    simp only [own] at hown
    split_ifs at hown with hsame
    · rw [← Option.some.inj hown]
      refine hquiet h rfl rfl rfl ⟨(fun _ _ h => nomatch h), (fun _ _ h => nomatch h), fun a ha => ?_⟩
      rw [← Option.some.inj ha]
      exact hconfirmed rfl hsame
    · rw [← Option.some.inj hown]
      exact hquiet h rfl rfl rfl (.plain rfl rfl rfl)

-- what `cache_get` makes of its copy is confirmed for a snapshot of its transaction
theorem refreshed_confirmed {cfg : Config} {txn : Txn} {loc : Entry} {f : Found}
    (h : (refreshed cfg txn loc f).1.status.aboveHit = true) :
    (refreshed cfg txn loc f).2.lastConfirmedTxnid = txn.basis cfg := by
  unfold refreshed at h ⊢
  cases hplace : f.place with
  | none =>
    rw [hplace] at h
    exact nomatch h
  | some place =>
    rw [hplace] at h
    dsimp only at h ⊢
    unfold cacheStoreEntryIo at h ⊢
    split_ifs at h ⊢
    · rfl
    · exact nomatch h

theorem uncached_below {cfg : Config} {st : Cached.State} {txn : Txn} {io : Io} {status : Status}
    (hs : status.aboveHit = false) :
    (cacheGetUncached cfg st txn io status).status.aboveHit = false := by
  unfold cacheGetUncached
  cases seek st txn with
  | none => split_ifs <;> first | rfl | exact hs
  | some f => dsimp only; split_ifs <;> first | rfl | exact hs

theorem refresh_confirmed {cfg : Config} {st : Cached.State} {txn : Txn} {io : Io} {loc : Entry}
    (h : (cacheGetNommapRefresh cfg st txn io loc).1.status.aboveHit = true) :
    (cacheGetNommapRefresh cfg st txn io loc).2.lastConfirmedTxnid = txn.basis cfg := by
  unfold cacheGetNommapRefresh refreshBatch refreshCursor at h ⊢
  cases hseek : seek st txn with
  | none =>
    rw [hseek] at h
    dsimp only at h
    split_ifs at h
    all_goals exact nomatch h
  | some f =>
    rw [hseek] at h
    dsimp only at h ⊢
    split_ifs at h ⊢
    all_goals first | exact refreshed_confirmed h | exact nomatch h

theorem nommap_confirmed {cfg : Config} {st : Cached.State} {txn : Txn} {io : Io} {loc : Entry}
    (h : (cacheGetNommap cfg st txn io loc).1.status.aboveHit = true) :
    (cacheGetNommap cfg st txn io loc).2.lastConfirmedTxnid = txn.basis cfg := by
  have hbehind := @uncached_below cfg st txn io .behind rfl
  have hunable := @uncached_below cfg st txn io .unable rfl
  unfold cacheGetNommap at h ⊢
  by_cases hold : txn.txnid < loc.trunkTxnid
  · rw [if_pos hold] at h
    exact nomatch hbehind.symm.trans h
  · rw [if_neg hold] at h ⊢
    by_cases hle : txn.txnid ≤ loc.lastConfirmedTxnid
    · -- a hit, or the entry is of no use
      rw [if_pos hle] at h
      cases hmat : io.materialize with
      | fallback =>
        rw [hmat] at h
        split_ifs at h
        all_goals first | exact nomatch hunable.symm.trans h | exact nomatch h
      | _ =>
        rw [hmat] at h
        split_ifs at h
        all_goals first | exact nomatch hunable.symm.trans h | exact nomatch h
    · rw [if_neg hle] at h ⊢
      exact refresh_confirmed h

theorem cacheGet_confirmed {cfg : Config} {st : Cached.State} {txn : Txn} {io : Io} {loc : Entry}
    (h : (cacheGet cfg st txn io loc).1.status.aboveHit = true) :
    (cacheGet cfg st txn io loc).2.lastConfirmedTxnid = txn.basis cfg := by
  unfold cacheGet at h ⊢
  split_ifs at h ⊢
  · exact nomatch h
  · exact nomatch h
  · exact nommap_confirmed h

theorem basis_le (cfg : Config) (txn : Txn) : txn.basis cfg ≤ txn.txnid := by
  cases txn with
  | reader snap => exact le_rfl
  | writer w => exact Nat.sub_le _ _
  | nested w => exact Nat.sub_le _ _

theorem search_inv (h : Inv first recent s) {cfg : Config} {st : Cached.State} {txn : Txn} {io : Io}
    (hvalid : txn.txnid ≤ maxTxnid) {pc : Pc}
    (hs : search cfg st txn io (s.threads t) = some pc) : Inv first recent (s.goto t pc) := by
  cases hpc : s.threads t with
  | getting loc =>
    have hw : (s.threads t).writes = none := by
      rw [hpc]
      rfl
    rw [hpc] at hs
    simp only [search] at hs
    by_cases habove : (cacheGet cfg st txn io loc).1.status.aboveHit = true
    · rw [if_pos habove] at hs
      rw [← Option.some.inj hs]
      refine h.goto hw rfl (.waiting rfl rfl rfl ?_ fun _ h => nomatch h)
      rw [cacheGet_confirmed habove]
      exact (basis_le cfg txn).trans hvalid
    · rw [if_neg habove] at hs
      rw [← Option.some.inj hs]
      exact h.goto hw rfl (.plain rfl rfl rfl)
  | fallback =>
    have hw : (s.threads t).writes = none := by
      rw [hpc]
      rfl
    rw [hpc] at hs
    rw [← Option.some.inj hs]
    exact h.goto hw rfl (.plain rfl rfl rfl)
  | _ =>
    rw [hpc] at hs
    exact nomatch hs

theorem returned_writes (h : pc.returned = true) : pc.writes = none := by
  cases pc with
  | idle => rfl
  | got result => rfl
  | snapshot result => rfl
  | _ => exact nomatch h

theorem step_inv (h : Inv first recent s) {ev : Event T} {s' : State T}
    (hs : step build s ev = some s') : ∃ recent', Inv first recent' s' := by
  cases ev with
  | cacheGet t =>
    simp only [step] at hs
    split_ifs at hs with hret
    rw [← Option.some.inj hs]
    exact ⟨recent, h.goto (returned_writes hret) rfl (.plain rfl rfl rfl)⟩
  | snapshotVolatile t =>
    simp only [step] at hs
    split_ifs at hs with hret
    rw [← Option.some.inj hs]
    exact ⟨recent, h.goto (returned_writes hret) rfl (.plain rfl rfl rfl)⟩
  | own t =>
    have ⟨out, hout, heq⟩ := Option.map_eq_some_iff.mp hs
    rw [← heq]
    exact own_inv h hout
  | search t cfg st txn io =>
    simp only [step] at hs
    split_ifs at hs with hvalid
    have ⟨pc, hpc, heq⟩ := Option.map_eq_some_iff.mp hs
    rw [← heq]
    exact ⟨recent, search_inv h hvalid hpc⟩

omit [DecidableEq T] in
theorem start_inv (first : Entry) : Inv first first (start first : State T) where
  newest := rfl
  oldest := rfl
  sorted := List.pairwise_singleton _ _
  calm := fun _ => rfl
  storing := fun _ _ _ h => nomatch h
  threads := fun _ => .plain rfl rfl rfl

theorem reachable_inv (h : Reachable build first s) : ∃ recent, Inv first recent s := by
  induction h with
  | start => exact ⟨first, start_inv first⟩
  | step _ e hs ih =>
    have ⟨_, hinv⟩ := ih
    exact step_inv hinv hs

/-- What a thread relies on was published as a whole, and is the initial entry or was stored by the
threads in the order of `last_confirmed_txnid`. -/
theorem never_torn (h : Reachable build first s) :
    (∀ t e, (s.threads t).actsOn = some e → e ∈ s.published) ∧
      s.published.getLast? = some first ∧
      s.published.Pairwise fun a b => b.lastConfirmedTxnid < a.lastConfirmedTxnid := by
  have ⟨recent, hinv⟩ := reachable_inv h
  exact ⟨fun t e hacts => (hinv.threads t).acts e hacts, hinv.oldest, hinv.sorted⟩

/-! ## 6. A copy that is overtaken -/

def run (build : Build) (s : State T) : List (Event T) → Option (State T)
  | [] => some s
  | e :: es => (step build s e).bind (run build · es)

theorem Reachable.run {s' : State T} {es : List (Event T)} (h : Reachable build first s)
    (hrun : run build s es = some s') : Reachable build first s' := by
  induction es generalizing s with
  | nil => exact Option.some.inj hrun ▸ h
  | cons e es ih =>
    have ⟨s₁, hs, hrest⟩ := Option.bind_eq_some_iff.mp hrun
    exact ih (h.step e hs) hrest

theorem Reachable.run_getD {es : List (Event T)} (h : Reachable build first s) :
    Reachable build first ((Shared.run build s es).getD s) := by
  cases hrun : Shared.run build s es with
  | none => exact h
  | some s' => exact h.run hrun

/-- The value 7 is at the byte 50 since the snapshot 2. -/
def sevenAt50 : Snapshot := ⟨2, some ⟨2, false, 50, 1, [7]⟩, [3]⟩

def sevenTable : Cached.State :=
  ⟨fun b => if b = 50 then 7 else 0, sevenAt50, [], [sevenAt50], none, .init⟩

/-- One thread has copied two fields of the initial entry when the other one stores its own. -/
def overtaken : List (Event Bool) :=
  .snapshotVolatile false :: .own false :: .own false :: .cacheGet true ::
    List.replicate 9 (Event.own true) ++
    Event.search true ⟨16, 1, Nat.one_pos, false⟩ sevenTable (.reader sevenAt50)
      ⟨false, false, false, false, false, .done⟩ ::
    List.replicate 7 (Event.own true) ++ List.replicate 8 (Event.own false)

def afterOvertaken : State Bool := (run ⟨false, false⟩ (start .init) overtaken).getD (start .init)

theorem afterOvertaken_reachable : Reachable ⟨false, false⟩ .init afterOvertaken := by
  unfold afterOvertaken
  exact Reachable.start.run_getD

theorem overtaken_whole : (afterOvertaken.threads false).actsOn = some ⟨2, 2, 50, 1⟩ ∧
    ⟨2, 2, 50, 1⟩ ∈ afterOvertaken.published :=
  have hacts : (afterOvertaken.threads false).actsOn = some ⟨2, 2, 50, 1⟩ := by decide +kernel
  ⟨hacts, (never_torn afterOvertaken_reachable).1 false _ hacts⟩

end Mdbx.Cached.Shared
