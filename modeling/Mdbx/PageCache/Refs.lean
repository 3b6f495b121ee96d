import Mdbx.PageCache.Materialize

/-!
# PageCache.Refs — references that several readers hold

A world is the storage, what has been read into each buffer and the references that are held.  A
reference sees its bytes as long as its entry still owns the buffer it points to: an entry that
lets a buffer go has freed it.
-/

namespace Mdbx.PageCache

/-! ## 1. Worlds -/

structure World where
  storage : Storage
  bytes : Nat → List UInt8
  refs : List (Option PageRef)

/-- What a reference reads, `none` where its buffer is gone. -/
def seen (w : World) (ref : PageRef) : Option (List UInt8) :=
  match held w.storage ref.cache with
  | some h => if h.page = ref.page then some (w.bytes ref.page) else none
  | none => none

def World.hold (w : World) (ref : PageRef) : World := { w with refs := w.refs ++ [some ref] }

/-- What readers do; references are named by the order in which they were taken. -/
inductive Use where
  | lookup (read : ReadIo)
  | prepare (read : ReadIo) (alloc large : Bool) (payload : List UInt8)
  | complete (addr : Nat) (readOk : Bool)
  | retain (i : Nat)
  | release (i : Nat)
  | invalidate (pages : PageIo) (includeReusable : Bool)
  | prune
  | materialize (i : Nat) (io : PageIo) (read : ReadResult) (alloc : Bool)

def useLookup (ln : Nat) (w : World) (read : ReadIo) : World :=
  if !readIoValid ln read then w
  else
    match hitEntry w.storage read with
    | none => w
    | some e => World.hold { w with storage := (lookupCachedPage w.storage read).2 } (makeCachedPgr e)

def usePrepare (ln : Nat) (w : World) (read : ReadIo) (alloc large : Bool)
    (payload : List UInt8) : World :=
  if !readIoValid ln read then w
  else { w with
    storage := (prepareReadCachedPage w.storage read alloc large).2
    bytes := if alloc then Function.update w.bytes w.storage.nextPage payload else w.bytes }

def useComplete (w : World) (addr : Nat) (readOk : Bool) : World :=
  match w.storage.fills.find? fun f => f.entry.addr = addr with
  | none => w
  | some f =>
    let done := completeFill w.storage addr readOk
    let w' := { w with storage := done.2 }
    if done.1 = .success then w'.hold (makeCachedPgr f.entry) else w'

def useRetain (w : World) (ref : PageRef) : World :=
  let kept := retainCachedRef w.storage ref
  if kept.1 = .success then World.hold { w with storage := kept.2 } ref else w

def useMaterialize (ln : Nat) (w : World) (i : Nat) (ref : PageRef) (io : PageIo)
    (read : ReadResult) (alloc : Bool) : World :=
  let done := completeMaterialize ln w.storage ref io read alloc
  { storage := done.2.1
    bytes := if done.1 = .success then Function.update w.bytes w.storage.nextPage read.payload
      else w.bytes
    refs := w.refs.set i (some done.2.2) }

def useRelease (w : World) (i : Nat) (ref : PageRef) : World :=
  { w with storage := (releaseCachedRef w.storage ref).2, refs := w.refs.set i none }

/-- The reference of a reader, if it still holds one. -/
def World.ref (w : World) (i : Nat) : Option PageRef := (w.refs[i]?).join

def World.withRef (w : World) (i : Nat) (f : PageRef → World) : World :=
  match w.ref i with
  | none => w
  | some ref => f ref

def World.use (ln : Nat) (w : World) : Use → World
  | .lookup read => useLookup ln w read
  | .prepare read alloc large payload => usePrepare ln w read alloc large payload
  | .complete addr readOk => useComplete w addr readOk
  | .retain i => w.withRef i (useRetain w)
  | .release i => w.withRef i (useRelease w i)
  | .invalidate pages incl => { w with storage := (invalidateCachedIo w.storage pages incl).1 }
  | .prune => { w with storage := pruneLocked w.storage }
  | .materialize i io read alloc =>
    w.withRef i fun ref => useMaterialize ln w i ref io read alloc

def World.run (ln : Nat) (w : World) (uses : List Use) : World := uses.foldl (World.use ln) w

def World.init (limit : Nat) : World := ⟨PageCache.init limit, fun _ => [], []⟩

theorem World.withRef_rule {P : World → Prop} {w : World} {i : Nat} {f : PageRef → World}
    (h : P w) (hf : ∀ ref, w.ref i = some ref → P (f ref)) : P (w.withRef i f) := by
  unfold World.withRef
  cases hi : w.ref i with
  | none => exact h
  | some ref => exact hf ref hi

/-! ## 2. How many hold an entry -/

def refsTo (refs : List (Option PageRef)) (a : Nat) : Nat :=
  refs.countP fun r => r.any fun q => q.cache == a

theorem refsTo_hold (refs : List (Option PageRef)) (ref : PageRef) (a : Nat) :
    refsTo (refs ++ [some ref]) a = refsTo refs a + if ref.cache = a then 1 else 0 := by
  simp [refsTo, List.countP_append, List.countP_singleton]

theorem refsTo_set {refs : List (Option PageRef)} {i : Nat} {ref : PageRef}
    (hi : refs[i]? = some (some ref)) (r : Option PageRef) (a : Nat) :
    refsTo (refs.set i r) a + (if ref.cache = a then 1 else 0) =
      refsTo refs a + if (r.any fun q => q.cache == a) = true then 1 else 0 := by
  obtain ⟨hlt, hget⟩ := List.getElem?_eq_some_iff.mp hi
  have hpos : ref.cache = a → 0 < refsTo refs a := by
    intro h
    apply List.countP_pos_iff.mpr
    exact ⟨some ref, List.mem_of_getElem? hi, by simpa using h⟩
  unfold refsTo at hpos ⊢
  rw [List.countP_set hlt, hget]
  by_cases h : ref.cache = a
  · have := hpos h
    simp only [h, if_true, Option.any_some, beq_self_eq_true]
    omega
  · simp [h]

theorem two_le_refsTo {refs : List (Option PageRef)} {i j : Nat} {p q : PageRef} {a : Nat}
    (hi : refs[i]? = some (some p)) (hj : refs[j]? = some (some q)) (hne : j ≠ i)
    (hp : p.cache = a) (hq : q.cache = a) : 2 ≤ refsTo refs a := by
  have hset := refsTo_set hi none a
  have hj' : (refs.set i none)[j]? = some (some q) := by
    rw [List.getElem?_set_ne hne.symm, hj]
  have hpos : 0 < refsTo (refs.set i none) a := by
    apply List.countP_pos_iff.mpr
    exact ⟨some q, List.mem_of_getElem? hj', by simpa using hq⟩
  rw [if_pos hp] at hset
  simp only [Option.any_none, Bool.false_eq_true, if_false] at hset
  omega

/-! ## 3. Buffers are drawn in order -/

def Drawn (n : Nat) (e : Entry) : Prop := e.page < n ∧ e.io.npages ≠ 0

/-- The next buffer is in no entry, and a fill has its one pin. -/
structure Fresh (s : Storage) : Prop where
  entries : ∀ e ∈ s.cache.entries, Drawn s.nextPage e
  privates : ∀ e ∈ s.privates, Drawn s.nextPage e
  fills : ∀ f ∈ s.fills, Drawn s.nextPage f.entry ∧ f.entry.pins = 1

theorem Drawn.mono {n m : Nat} {e : Entry} (h : Drawn n e) (hle : n ≤ m) : Drawn m e :=
  ⟨Nat.lt_of_lt_of_le h.1 hle, h.2⟩

theorem forall_updateEntry {P : Entry → Prop} {es : List Entry} {f : Entry → Entry} {a : Nat}
    (h : ∀ e ∈ es, P e) (hf : ∀ e, P e → P (f e)) : ∀ e ∈ updateEntry a f es, P e := by
  intro x hx
  obtain ⟨e, he, rfl⟩ := List.mem_map.mp hx
  split_ifs
  · exact hf e (h e he)
  · exact h e he

theorem forall_eraseP {P : Entry → Prop} {es : List Entry} {p : Entry → Bool}
    (h : ∀ e ∈ es, P e) : ∀ e ∈ es.eraseP p, P e :=
  fun e he => h e (List.eraseP_subset he)

theorem Fresh.release {s : Storage} (h : Fresh s) (e : Entry) : Fresh (releaseEntryLocked s e) :=
  ⟨forall_eraseP h.entries, h.privates, h.fills⟩

theorem Fresh.prune {s : Storage} (h : Fresh s) : Fresh (pruneLocked s) := by
  have hrounds : ∀ n {s : Storage}, Fresh s → Fresh (pruneRounds s n) := by
    intro n
    induction n with
    | zero => exact fun h => h
    | succ n ih =>
      intro s h
      unfold pruneRounds
      split_ifs with hover
      · cases pruneVictim s.cache.entries with
        | none => exact h
        | some victim => exact ih (h.release victim)
      · exact h
  exact hrounds _ h

theorem Fresh.lookup {s : Storage} (h : Fresh s) (read : ReadIo) :
    Fresh (lookupCachedPage s read).2 := by
  cases hhit : hitEntry s read with
  | none =>
    rw [lookupCachedPage_miss hhit]
    exact h
  | some e =>
    rw [lookupCachedPage_hit hhit]
    refine ⟨?_, h.privates, h.fills⟩
    intro x hx
    rcases List.mem_cons.mp hx with rfl | hx
    · exact h.entries e (hitEntry_mem hhit).1
    · exact forall_eraseP h.entries x hx

theorem Fresh.prepare {s : Storage} (h : Fresh s) (read : ReadIo) (alloc large : Bool)
    (hread : read.pages.npages ≠ 0) : Fresh (prepareReadCachedPage s read alloc large).2 := by
  unfold prepareReadCachedPage
  split_ifs with ha
  · exact h
  · refine ⟨fun e he => (h.entries e he).mono (Nat.le_succ _),
      fun e he => (h.privates e he).mono (Nat.le_succ _), ?_⟩
    intro f hf
    rcases List.mem_cons.mp hf with rfl | hf
    · exact ⟨⟨Nat.lt_succ_self _, hread⟩, rfl⟩
    · exact ⟨(h.fills f hf).1.mono (Nat.le_succ _), (h.fills f hf).2⟩

theorem Fresh.eraseFill {s : Storage} (h : Fresh s) (a : Nat) :
    ∀ f ∈ eraseFill a s.fills, Drawn s.nextPage f.entry ∧ f.entry.pins = 1 :=
  fun f hf => h.fills f (List.eraseP_subset hf)

theorem Fresh.complete {s : Storage} (h : Fresh s) (addr : Nat) (readOk : Bool) :
    Fresh (completeFill s addr readOk).2 := by
  unfold completeFill
  cases hf : s.fills.find? fun f => f.entry.addr = addr with
  | none => exact h
  | some f =>
    have hdrawn := (h.fills f (List.mem_of_find?_eq_some hf)).1
    dsimp only
    split_ifs with hread htracked hins
    · exact ⟨h.entries, h.privates, h.eraseFill addr⟩
    · exact ⟨h.entries, h.privates, h.eraseFill addr⟩
    · have hok : Insertable f := by
        by_contra hno
        exact hins (by rw [insertCachedPage_refused hno]; simp)
      rw [insertCachedPage_ok hok]
      apply Fresh.prune
      refine ⟨?_, h.privates, h.eraseFill f.entry.addr⟩
      intro x hx
      rcases List.mem_cons.mp hx with rfl | hx
      · exact hdrawn
      · exact h.entries x hx
    · refine ⟨h.entries, ?_, h.eraseFill addr⟩
      intro x hx
      rcases List.mem_cons.mp hx with rfl | hx
      · exact hdrawn
      · exact h.privates x hx

theorem Fresh.retain {s : Storage} (h : Fresh s) (ref : PageRef) :
    Fresh (retainCachedRef s ref).2 := by
  unfold retainCachedRef
  cases findEntry ref.cache s.cache.entries with
  | some e =>
    dsimp only
    split_ifs
    · exact h
    · exact ⟨forall_updateEntry h.entries fun _ he => he, h.privates, h.fills⟩
  | none =>
    dsimp only
    cases findEntry ref.cache s.privates with
    | some e =>
      dsimp only
      split_ifs
      · exact h
      · exact ⟨h.entries, forall_updateEntry h.privates fun _ he => he, h.fills⟩
    | none => exact h

theorem Fresh.releaseRef {s : Storage} (h : Fresh s) (ref : PageRef) :
    Fresh (releaseCachedRef s ref).2 := by
  unfold releaseCachedRef
  cases findEntry ref.cache s.cache.entries with
  | some e =>
    have hunpin : Fresh { s with cache := { s.cache with
        entries := updateEntry ref.cache (fun e => { e with pins := e.pins - 1 }) s.cache.entries
        pinned := s.cache.pinned - 1 } } :=
      ⟨forall_updateEntry h.entries fun _ he => he, h.privates, h.fills⟩
    dsimp only
    split_ifs
    · exact h
    · exact hunpin.prune
    · exact hunpin.release _
    · exact hunpin
  | none =>
    dsimp only
    cases findEntry ref.cache s.privates with
    | some e =>
      dsimp only
      split_ifs
      · exact h
      · exact ⟨h.entries, forall_eraseP h.privates, h.fills⟩
      · exact ⟨h.entries, forall_updateEntry h.privates fun _ he => he, h.fills⟩
    | none => exact h

theorem Fresh.invalidateEntry {s : Storage} (h : Fresh s) (e : Entry) :
    Fresh (invalidateEntry s e) := by
  have hmarked : Fresh { s with cache := { s.cache with
      reusableCount := s.cache.reusableCount - if e.reusable then 1 else 0
      entries := updateEntry e.addr (fun e => { e with reusable := false }) s.cache.entries } } :=
    ⟨forall_updateEntry h.entries fun _ he => he, h.privates, h.fills⟩
  unfold PageCache.invalidateEntry
  dsimp only
  by_cases hp : e.pins = 0
  · rw [if_pos hp]
    exact hmarked.release _
  · rw [if_neg hp]
    exact hmarked

theorem Fresh.invalidate {s : Storage} (h : Fresh s) (pages : PageIo) (incl : Bool) :
    Fresh (invalidateCachedIo s pages incl).1 := by
  have hloop : ∀ (ahead : List Entry) {s : Storage} (left n : Nat), Fresh s →
      Fresh (invalidateLoop pages incl ahead s left n).1 := by
    intro ahead
    induction ahead with
    | nil => exact fun _ _ h => h
    | cons e ahead ih =>
      intro s left n h
      have hstep : ∀ hit : Bool, Fresh (if hit then PageCache.invalidateEntry s e else s) := by
        intro hit
        cases hit with
        | false => exact h
        | true => exact h.invalidateEntry e
      unfold invalidateLoop
      by_cases hskip : (!incl) = true ∧ e.reusable = true
      · rw [if_pos hskip]
        exact ih _ _ h
      · rw [if_neg hskip]
        have hdone := hstep (decide (e.io.pgno < pages.endPgno ∧ pages.pgno < e.io.endPgno))
        dsimp only
        by_cases hstop : (!incl) = true ∧ (if incl = true then left else left - 1) = 0
        · rw [if_pos hstop]
          exact hdone
        · rw [if_neg hstop]
          exact ih _ _ hdone
  unfold invalidateCachedIo
  split_ifs
  · exact h
  · exact h
  all_goals exact hloop _ _ _ h

theorem Fresh.replace {s : Storage} (h : Fresh s) (ref : PageRef) (io : PageIo) :
    Fresh (replaceMaterialized s ref io).2 := by
  unfold replaceMaterialized
  by_cases hio : io.npages ≤ 1
  · rw [if_pos hio]
    exact h
  · rw [if_neg hio]
    have hnew : ∀ e, Drawn (s.nextPage + 1) e →
        Drawn (s.nextPage + 1) { e with io := io, page := s.nextPage, large := true } :=
      fun _ _ => ⟨Nat.lt_succ_self _, by show io.npages ≠ 0; omega⟩
    have hentries : ∀ e ∈ s.cache.entries, Drawn (s.nextPage + 1) e :=
      fun e he => (h.entries e he).mono (Nat.le_succ _)
    have hprivates : ∀ e ∈ s.privates, Drawn (s.nextPage + 1) e :=
      fun e he => (h.privates e he).mono (Nat.le_succ _)
    have hfills : ∀ f ∈ s.fills, Drawn (s.nextPage + 1) f.entry ∧ f.entry.pins = 1 :=
      fun f hf => ⟨(h.fills f hf).1.mono (Nat.le_succ _), (h.fills f hf).2⟩
    cases findEntry ref.cache s.cache.entries with
    | some e =>
      dsimp only
      split_ifs
      · exact h
      · apply Fresh.prune
        exact ⟨forall_updateEntry hentries hnew, hprivates, hfills⟩
    | none =>
      dsimp only
      cases findEntry ref.cache s.privates with
      | some e =>
        dsimp only
        split_ifs
        · exact h
        · exact ⟨hentries, forall_updateEntry hprivates hnew, hfills⟩
      | none => exact h

theorem Fresh.detach {s : Storage} (h : Fresh s) (ref : PageRef) (io : PageIo) (alloc : Bool) :
    Fresh (detachMaterialized s ref io alloc).2 := by
  unfold detachMaterialized
  cases findEntry ref.cache s.cache.entries with
  | none => exact h
  | some e =>
    dsimp only
    by_cases hbad : io.npages ≤ 1 ∨ e.page ≠ ref.page
    · rw [if_pos hbad]
      exact h
    · rw [if_neg hbad]
      split_ifs
      · exact h
      · apply Fresh.releaseRef
        refine ⟨fun x hx => (h.entries x hx).mono (Nat.le_succ _), ?_,
          fun f hf => ⟨(h.fills f hf).1.mono (Nat.le_succ _), (h.fills f hf).2⟩⟩
        intro x hx
        rcases List.mem_cons.mp hx with rfl | hx
        · exact ⟨Nat.lt_succ_self _, by show io.npages ≠ 0; omega⟩
        · exact (h.privates x hx).mono (Nat.le_succ _)

theorem Fresh.held {s : Storage} (h : Fresh s) {a : Nat} {x : Held} (hx : held s a = some x) :
    x.page < s.nextPage := by
  obtain ⟨htracked, hprivate⟩ := held_tracked hx
  cases ht : x.tracked with
  | true =>
    obtain ⟨e, hf, -, hpage, -⟩ := htracked ht
    rw [← hpage]
    exact (h.entries e (findEntry_mem hf).1).1
  | false =>
    obtain ⟨-, e, hf, -, hpage, -⟩ := hprivate ht
    rw [← hpage]
    exact (h.privates e (findEntry_mem hf).1).1

/-! ## 4. Every holder has its pin -/

structure Sound (w : World) : Prop where
  exact : Exact w.storage
  fresh : Fresh w.storage
  counted : ∀ a, refsTo w.refs a ≤ pinsOf w.storage a

-- a storage that its holders do not tell apart
theorem Sound.of_held {w : World} (h : Sound w) {s : Storage} (hs : Exact s) (hf : Fresh s)
    (hheld : held s = held w.storage) (bytes : Nat → List UInt8) :
    Sound ⟨s, bytes, w.refs⟩ :=
  ⟨hs, hf, fun a => by rw [pinsOf_congr hheld]; exact h.counted a⟩

theorem lookup_sound {w : World} (ln : Nat) (read : ReadIo) (h : Sound w) :
    Sound (useLookup ln w read) := by
  unfold useLookup
  by_cases hv : (!readIoValid ln read) = true
  · rw [if_pos hv]
    exact h
  · rw [if_neg hv]
    cases hhit : hitEntry w.storage read with
    | none => exact h
    | some e =>
      refine ⟨lookupCachedPage_exact read h.exact, h.fresh.lookup read, ?_⟩
      intro a
      show refsTo (w.refs ++ [some (makeCachedPgr e)]) a ≤
        pinsOf (lookupCachedPage w.storage read).2 a
      rw [refsTo_hold, pinsOf_update (lookupCachedPage_held h.exact.toCore hhit)]
      have hcount := h.counted a
      by_cases ha : a = e.addr
      · subst ha
        rw [makeCachedPgr_cache, if_pos rfl, if_pos rfl]
        rw [h.exact.pinsOf_mem (hitEntry_mem hhit).1] at hcount
        show _ ≤ e.pins + 1
        omega
      · rw [makeCachedPgr_cache, if_neg ha, if_neg fun h => ha h.symm]
        exact hcount

theorem complete_sound {w : World} (addr : Nat) (readOk : Bool) (h : Sound w) :
    Sound (useComplete w addr readOk) := by
  unfold useComplete
  cases hf : w.storage.fills.find? fun f => f.entry.addr = addr with
  | none => exact h
  | some f =>
    have hpins := (h.fresh.fills f (List.mem_of_find?_eq_some hf)).2
    have hex := completeFill_exact addr readOk h.exact
    have hfr := h.fresh.complete addr readOk
    have haddr : f.entry.addr = addr := (fills_perm hf).1
    dsimp only
    rcases completeFill_held readOk h.exact hf hpins with ⟨hrc, hheld⟩ | ⟨hrc, hheld⟩
    · rw [if_neg hrc]
      exact h.of_held hex hfr hheld w.bytes
    · rw [if_pos hrc]
      refine ⟨hex, hfr, ?_⟩
      intro a
      show refsTo (w.refs ++ [some (makeCachedPgr f.entry)]) a ≤
        pinsOf (completeFill w.storage addr readOk).2 a
      rw [refsTo_hold, pinsOf_update hheld]
      have hcount := h.counted a
      by_cases ha : a = addr
      · subst ha
        rw [makeCachedPgr_cache, if_pos rfl, if_pos haddr]
        -- nobody has held the address of a fill
        have hnone : held w.storage a = none := by
          have hmem := List.mem_of_find?_eq_some hf
          rw [← haddr]
          exact held_none (findEntry_none.mpr (h.exact.fill_not_entry hmem))
            (findEntry_none.mpr (h.exact.fill_not_private hmem))
        rw [pinsOf_of_none hnone] at hcount
        show _ ≤ 1
        omega
      · rw [makeCachedPgr_cache, if_neg ha, if_neg fun h => ha (h.symm.trans haddr)]
        exact hcount

theorem World.ref_eq {w : World} {i : Nat} {ref : PageRef} (h : w.ref i = some ref) :
    w.refs[i]? = some (some ref) := by
  unfold World.ref at h
  cases hi : w.refs[i]? with
  | none => rw [hi] at h; exact absurd h (by simp)
  | some r => rw [hi] at h; rw [show r = some ref from h]

theorem retain_sound {w : World} (ref : PageRef) (h : Sound w) : Sound (useRetain w ref) := by
  unfold useRetain
  by_cases hl : RefLive w.storage ref
  · have hex := retainCachedRef_exact ref h.exact
    have hfr := h.fresh.retain ref
    obtain ⟨x, hx, -⟩ := id hl
    rw [retainCachedRef_live hl] at hex hfr ⊢
    dsimp only
    rw [if_pos rfl]
    refine ⟨hex, hfr, ?_⟩
    intro a
    show refsTo (w.refs ++ [some ref]) a ≤ pinsOf (retainCachedEntry w.storage ref.cache) a
    rw [refsTo_hold, pinsOf_update (retainCachedEntry_held hx)]
    have hcount := h.counted a
    by_cases ha : a = ref.cache
    · subst ha
      rw [if_pos rfl, if_pos rfl]
      rw [pinsOf_of_held hx] at hcount
      show _ ≤ x.pins + 1
      omega
    · rw [if_neg ha, if_neg fun h => ha h.symm]
      exact hcount
  · rw [retainCachedRef_dead hl]
    exact h

theorem release_sound {w : World} {i : Nat} {ref : PageRef} (hi : w.ref i = some ref)
    (h : Sound w) :
    Sound (useRelease w i ref) := by
  refine ⟨releaseCachedRef_exact ref h.exact, h.fresh.releaseRef ref, ?_⟩
  intro a
  show refsTo (w.refs.set i none) a ≤ pinsOf (releaseCachedRef w.storage ref).2 a
  have hset := refsTo_set (World.ref_eq hi) none a
  have hcount := h.counted a
  simp only [Option.any_none, Bool.false_eq_true, if_false] at hset
  by_cases hl : RefLive w.storage ref
  · obtain ⟨x, hx, -⟩ := id hl
    rw [pinsOf_update (releaseCachedRef_live h.exact hl hx).2]
    by_cases ha : a = ref.cache
    · subst ha
      rw [pinsOf_of_held hx] at hcount
      rw [if_pos rfl, Held.unpin_pins]
      rw [if_pos rfl] at hset
      omega
    · rw [if_neg ha]
      omega
  · rw [releaseCachedRef_dead hl]
    show _ ≤ pinsOf w.storage a
    omega

theorem refsTo_replace {refs : List (Option PageRef)} {i : Nat} {ref ref' : PageRef}
    (hi : refs[i]? = some (some ref)) (hcache : ref'.cache = ref.cache) (a : Nat) :
    refsTo (refs.set i (some ref')) a = refsTo refs a := by
  have hset := refsTo_set hi (some ref') a
  simp only [Option.any_some, hcache, beq_iff_eq] at hset
  omega

theorem materialize_sound {ln : Nat} {w : World} {i : Nat} {ref : PageRef} (io : PageIo)
    (read : ReadResult) (alloc : Bool) (hi : w.ref i = some ref) (h : Sound w) :
    Sound (useMaterialize ln w i ref io read alloc) := by
  have hrefs := World.ref_eq hi
  unfold useMaterialize
  rcases completeMaterialize_cases ln ref io read alloc h.exact with ⟨hrc, heq⟩ | ⟨x, hx, -, -, -, -, hview, heq⟩ |
      ⟨x, hx, -, -, -, hne, ⟨v, hv, hview⟩, heq⟩
  · dsimp only
    rw [heq]
    refine ⟨h.exact, h.fresh, fun a => ?_⟩
    show refsTo (w.refs.set i (some ref)) a ≤ pinsOf w.storage a
    rw [refsTo_replace hrefs rfl]
    exact h.counted a
  · rw [heq]
    refine ⟨replaceMaterialized_exact ref io h.exact, h.fresh.replace ref io, fun a => ?_⟩
    show refsTo (w.refs.set i (some { ref with page := w.storage.nextPage, npages := io.npages })) a
      ≤ pinsOf (replaceMaterialized w.storage ref io).2 a
    rw [refsTo_replace hrefs (by rfl), pinsOf_update hview]
    have hcount := h.counted a
    by_cases ha : a = ref.cache
    · rw [if_pos ha]
      rw [ha, pinsOf_of_held hx] at hcount
      rw [ha]
      exact hcount
    · rw [if_neg ha]
      exact hcount
  · rw [heq]
    refine ⟨detachMaterialized_exact ref io true h.exact, h.fresh.detach ref io true, fun a => ?_⟩
    show refsTo (w.refs.set i (some ⟨w.storage.nextAddr, w.storage.nextPage, ref.pgno, io.npages⟩))
      a ≤ pinsOf (detachMaterialized w.storage ref io true).2 a
    have hset := refsTo_set hrefs (some ⟨w.storage.nextAddr, w.storage.nextPage, ref.pgno,
      io.npages⟩) a
    simp only [Option.any_some, beq_iff_eq] at hset
    have hcount := h.counted a
    rw [pinsOf, hview, pinsIn_update, pinsIn_update]
    by_cases ha : a = ref.cache
    · subst ha
      rw [if_pos rfl] at hset ⊢
      rw [if_neg fun hn => hne hn.symm] at hset
      rw [pinsOf_of_held hx] at hcount
      rcases hv with rfl | rfl
      · rw [Held.unpin_pins]
        omega
      · show _ ≤ x.pins
        omega
    · rw [if_neg fun hn => ha hn.symm] at hset
      rw [if_neg ha]
      by_cases hnext : a = w.storage.nextAddr
      · subst hnext
        rw [pinsOf_of_none h.exact.next_held] at hcount
        rw [if_pos rfl] at hset ⊢
        show _ ≤ 1
        omega
      · rw [if_neg fun hn => hnext hn.symm] at hset
        rw [if_neg hnext]
        show _ ≤ pinsOf w.storage a
        omega

theorem use_sound {w : World} (ln : Nat) (u : Use) (h : Sound w) : Sound (w.use ln u) := by
  cases u with
  | lookup read => exact lookup_sound ln read h
  | prepare read alloc large payload =>
    show Sound (usePrepare ln w read alloc large payload)
    unfold usePrepare
    by_cases hv : readIoValid ln read = true
    · have hone : read.pages.npages ≠ 0 := by
        simp only [readIoValid, decide_eq_true_eq] at hv
        omega
      rw [if_neg (by simp [hv])]
      exact h.of_held (prepareReadCachedPage_exact read alloc large h.exact)
        (h.fresh.prepare read alloc large hone) (prepareReadCachedPage_held w.storage read alloc large)
        _
    · rw [if_pos (by simpa using hv)]
      exact h
  | complete addr readOk => exact complete_sound addr readOk h
  | retain i => exact World.withRef_rule h fun ref _ => retain_sound ref h
  | release i => exact World.withRef_rule h fun ref hi => release_sound hi h
  | invalidate pages incl =>
    exact h.of_held (invalidateCachedIo_exact pages incl h.exact) (h.fresh.invalidate pages incl)
      (invalidateCachedIo_held pages incl h.exact) w.bytes
  | prune =>
    exact h.of_held (pruneLocked_exact h.exact) h.fresh.prune (pruneLocked_held h.exact.toCore)
      w.bytes
  | materialize i io read alloc =>
    exact World.withRef_rule h fun ref hi => materialize_sound io read alloc hi h

theorem World.init_sound (limit : Nat) : Sound (World.init limit) where
  exact := init_exact limit
  fresh := ⟨fun _ h => absurd h List.not_mem_nil, fun _ h => absurd h List.not_mem_nil,
    fun _ h => absurd h List.not_mem_nil⟩
  counted := fun _ => Nat.zero_le _

theorem run_sound {w : World} (ln : Nat) (uses : List Use) (h : Sound w) :
    Sound (w.run ln uses) := by
  induction uses generalizing w with
  | nil => exact h
  | cons u uses ih => exact ih (use_sound ln u h)

end Mdbx.PageCache
