import Mdbx.PageCache.Refs

/-!
# PageCache.Undisturbed — what a materialization leaves to the other readers

A large page replaces its first page inside the entry, or is detached from it.  The first frees a
buffer, so it must be the buffer of one reader only.  For a tracked entry its pins tell; for an
untracked one nothing is asked.
-/

namespace Mdbx.PageCache

/-! ## 1. References after a use -/

theorem World.ref_lt {w : World} {j : Nat} {q : PageRef} (h : w.ref j = some q) :
    j < w.refs.length :=
  (List.getElem?_eq_some_iff.mp (World.ref_eq h)).1

theorem World.hold_ref_old {w : World} {j : Nat} {q : PageRef} (ref : PageRef)
    (h : w.ref j = some q) : (w.hold ref).ref j = some q := by
  unfold World.ref World.hold
  rw [List.getElem?_append_left (World.ref_lt h)]
  exact h

theorem World.hold_ref {w : World} {j : Nat} {q ref : PageRef} (h : (w.hold ref).ref j = some q) :
    w.ref j = some q ∨ q = ref := by
  unfold World.ref World.hold at h
  by_cases hj : j < w.refs.length
  · rw [List.getElem?_append_left hj] at h
    exact Or.inl h
  · right
    rw [List.getElem?_append_right (by omega)] at h
    by_cases h0 : j - w.refs.length = 0
    · rw [h0] at h
      exact (Option.some.inj h).symm
    · rw [List.getElem?_eq_none (by simp; omega)] at h
      exact absurd h (by simp)

theorem set_ref_ne {s : Storage} {bytes : Nat → List UInt8} {refs : List (Option PageRef)}
    {i j : Nat} (r : Option PageRef) (hne : j ≠ i) :
    World.ref ⟨s, bytes, refs.set i r⟩ j = World.ref ⟨s, bytes, refs⟩ j := by
  unfold World.ref
  rw [List.getElem?_set_ne hne.symm]

theorem set_ref_self {s : Storage} {bytes : Nat → List UInt8} {refs : List (Option PageRef)}
    {i : Nat} (r : Option PageRef) (hi : i < refs.length) :
    World.ref ⟨s, bytes, refs.set i r⟩ i = r := by
  unfold World.ref
  rw [List.getElem?_set_self hi]
  rfl

/-! ## 2. What a reference sees -/

theorem seen_live {w : World} {q : PageRef} (h : seen w q ≠ none) :
    ∃ x, held w.storage q.cache = some x ∧ x.page = q.page := by
  unfold seen at h
  cases hx : held w.storage q.cache with
  | none => exact absurd (by rw [hx]) h
  | some x =>
    rw [hx] at h
    refine ⟨x, rfl, ?_⟩
    by_contra hne
    exact h (if_neg hne)

theorem seen_of_held {w : World} {q : PageRef} {x : Held} (hx : held w.storage q.cache = some x)
    (hpage : x.page = q.page) : seen w q = some (w.bytes q.page) := by
  unfold seen
  rw [hx]
  exact if_pos hpage

-- the entry keeps its buffer, whatever becomes of its pins
theorem seen_moved {w : World} {q : PageRef} {x : Held} (hx : held w.storage q.cache = some x)
    (hne : x.page ≠ q.page) : seen w q = none := by
  unfold seen
  rw [hx]
  exact if_neg hne

theorem seen_kept {w w' : World} {q : PageRef} {x : Held} (x' : Held)
    (hx : held w.storage q.cache = some x) (hpage : x.page = q.page)
    (hx' : held w'.storage q.cache = some x') (hsame : x'.page = x.page)
    (hbytes : w'.bytes q.page = w.bytes q.page) : seen w' q = seen w q := by
  rw [seen_of_held hx hpage, seen_of_held hx' (hsame.trans hpage), hbytes]

theorem Sound.bytes_next {w : World} (h : Sound w) {q : PageRef} {x : Held}
    (hx : held w.storage q.cache = some x) (hpage : x.page = q.page) (payload : List UInt8) :
    Function.update w.bytes w.storage.nextPage payload q.page = w.bytes q.page := by
  have hlt := h.fresh.held hx
  exact Function.update_of_ne (by omega) _ _

/-! ## 3. The condition and the property -/

/-- `entry->owner` -/
def tracked (s : Storage) (ref : PageRef) : Bool := (findEntry ref.cache s.cache.entries).isSome

def OtherHolder (w : World) (i : Nat) (ref : PageRef) : Prop :=
  ∃ j q, j ≠ i ∧ w.ref j = some q ∧ q.cache = ref.cache ∧ seen w q ≠ none

/-- The call fails, or the entry is tracked, or nobody else holds it. -/
def MaterializeOk (ln : Nat) (w : World) (i : Nat) (ref : PageRef) (io : PageIo)
    (read : ReadResult) : Prop :=
  materializeIoValid ln io = false ∨ readFailure io read ≠ none ∨ tracked w.storage ref = true ∨
    ¬ OtherHolder w i ref

/-- The reader gets the whole large page, or keeps what it had when the call fails; every other
live reference stays as it is. -/
structure Undisturbed (ln : Nat) (w : World) (i : Nat) (ref : PageRef) (io : PageIo)
    (read : ReadResult) (alloc : Bool) : Prop where
  succeeds : materializeIoValid ln io = true → readFailure io read = none → alloc = true →
    (completeMaterialize ln w.storage ref io read alloc).1 = .success
  whole : (completeMaterialize ln w.storage ref io read alloc).1 = .success →
    ∃ ref', (w.use ln (.materialize i io read alloc)).ref i = some ref' ∧ ref'.npages = io.npages ∧
      seen (w.use ln (.materialize i io read alloc)) ref' = some read.payload
  failed : (completeMaterialize ln w.storage ref io read alloc).1 ≠ .success →
    (w.use ln (.materialize i io read alloc)).ref i = some ref ∧
      seen (w.use ln (.materialize i io read alloc)) ref = seen w ref
  others : ∀ j q, j ≠ i → w.ref j = some q → seen w q ≠ none →
    (w.use ln (.materialize i io read alloc)).ref j = some q ∧
      seen (w.use ln (.materialize i io read alloc)) q = seen w q

theorem use_materialize {ln : Nat} {w : World} {i : Nat} {ref : PageRef} {io : PageIo}
    {read : ReadResult} {alloc : Bool} (hi : w.ref i = some ref) :
    w.use ln (.materialize i io read alloc) = useMaterialize ln w i ref io read alloc := by
  show w.withRef i _ = _
  unfold World.withRef
  rw [hi]

theorem tracked_held {s : Storage} {ref : PageRef} {x : Held} (hx : held s ref.cache = some x) :
    tracked s ref = x.tracked := by
  obtain ⟨htracked, hprivate⟩ := held_tracked hx
  unfold tracked
  cases ht : x.tracked with
  | true =>
    obtain ⟨e, hf, -⟩ := htracked ht
    rw [hf]
    rfl
  | false =>
    rw [(hprivate ht).1]
    rfl

/-- Two readers of one entry are two pins. -/
theorem Sound.two_pins {w : World} (h : Sound w) {i j : Nat} {p q : PageRef} {x : Held}
    (hi : w.ref i = some p) (hj : w.ref j = some q) (hne : j ≠ i) (heq : q.cache = p.cache)
    (hx : held w.storage p.cache = some x) : 2 ≤ x.pins := by
  have htwo := two_le_refsTo (World.ref_eq hi) (World.ref_eq hj) hne rfl heq
  have hcount := h.counted p.cache
  rw [pinsOf_of_held hx] at hcount
  omega

theorem Held.unpin_two {x : Held} (h : 2 ≤ x.pins) :
    x.unpin = some { x with pins := x.pins - 1 } :=
  if_neg (by omega)

/-! ## 4. The others under one use -/

theorem materialize_others {ln : Nat} {w : World} {i : Nat} {ref : PageRef} {io : PageIo}
    {read : ReadResult} (alloc : Bool) (h : Sound w) (hi : w.ref i = some ref)
    (hok : MaterializeOk ln w i ref io read) {j : Nat} {q : PageRef} (hne : j ≠ i)
    (hj : w.ref j = some q) (hlive : seen w q ≠ none) :
    (useMaterialize ln w i ref io read alloc).ref j = some q ∧
      seen (useMaterialize ln w i ref io read alloc) q = seen w q := by
  obtain ⟨y, hy, hypage⟩ := seen_live hlive
  refine ⟨(set_ref_ne _ hne).trans hj, ?_⟩
  unfold useMaterialize
  rcases completeMaterialize_cases ln ref io read alloc h.exact with ⟨hrc, heq⟩ | ⟨x, hx, hpage, hone, hv, hr, hview, heq⟩ |
      ⟨x, hx, hpage, ht, hmany, hnext, ⟨v, hv, hview⟩, heq⟩
  · dsimp only
    rw [heq, if_neg hrc]
    exact seen_kept y hy hypage hy rfl rfl
  · -- in place: nobody else can hold the entry
    have hother : q.cache ≠ ref.cache := by
      intro hsame
      have htwo := h.two_pins hi hj hne hsame hx
      rcases hok with hbad | hbad | htr | hno
      · rw [hv] at hbad
        exact absurd hbad (by simp)
      · exact hbad hr
      · rw [tracked_held hx] at htr
        have := hone htr
        omega
      · exact hno ⟨j, q, hne, hj, hsame, hlive⟩
    rw [heq]
    refine seen_kept y hy hypage ?_ rfl ?_
    · show held (replaceMaterialized w.storage ref io).2 q.cache = some y
      rw [hview, Function.update_of_ne hother]
      exact hy
    · exact h.bytes_next hy hypage read.payload
  · rw [heq]
    have hnew : q.cache ≠ w.storage.nextAddr := by
      intro hsame
      rw [hsame, h.exact.next_held] at hy
      exact absurd hy (by simp)
    by_cases hsame : q.cache = ref.cache
    · have hxy : x = y := by
        rw [hsame, hx] at hy
        exact Option.some.inj hy
      subst hxy
      have hbuf : ∃ x', v = some x' ∧ x'.page = x.page := by
        rcases hv with rfl | rfl
        · exact ⟨_, Held.unpin_two hmany, rfl⟩
        · exact ⟨x, rfl, rfl⟩
      obtain ⟨x', rfl, hx'⟩ := hbuf
      refine seen_kept x' hy hypage ?_ hx' ?_
      · show held (detachMaterialized w.storage ref io true).2 q.cache = some x'
        rw [hview, hsame, Function.update_self]
      · exact h.bytes_next hy hypage read.payload
    · refine seen_kept y hy hypage ?_ rfl ?_
      · show held (detachMaterialized w.storage ref io true).2 q.cache = some y
        rw [hview, Function.update_of_ne hsame, Function.update_of_ne hnew]
        exact hy
      · exact h.bytes_next hy hypage read.payload

/-- What the reader itself gets. -/
theorem materialize_self (ln : Nat) {w : World} {i : Nat} {ref : PageRef} (io : PageIo)
    (read : ReadResult) (alloc : Bool) (h : Sound w) (hi : w.ref i = some ref) :
    ((completeMaterialize ln w.storage ref io read alloc).1 = .success ∧
      ∃ ref', (useMaterialize ln w i ref io read alloc).ref i = some ref' ∧
        ref'.npages = io.npages ∧
        seen (useMaterialize ln w i ref io read alloc) ref' = some read.payload) ∨
    ((completeMaterialize ln w.storage ref io read alloc).1 ≠ .success ∧
      (useMaterialize ln w i ref io read alloc).ref i = some ref ∧
      seen (useMaterialize ln w i ref io read alloc) ref = seen w ref) := by
  have hlt := World.ref_lt hi
  unfold useMaterialize
  rcases completeMaterialize_cases ln ref io read alloc h.exact with ⟨hrc, heq⟩ | ⟨x, hx, -, -, -, -, hview, heq⟩ |
      ⟨x, hx, -, -, -, hnext, ⟨v, -, hview⟩, heq⟩
  · right
    dsimp only
    refine ⟨hrc, ?_, ?_⟩
    · rw [heq]
      exact set_ref_self _ hlt
    · rw [heq, if_neg hrc]
      rfl
  · left
    rw [heq]
    refine ⟨rfl, { ref with page := w.storage.nextPage, npages := io.npages },
      set_ref_self _ hlt, rfl, ?_⟩
    rw [seen_of_held (x := { x with page := w.storage.nextPage, io := io })]
    · show some (Function.update w.bytes w.storage.nextPage read.payload w.storage.nextPage) = _
      rw [Function.update_self]
    · show held (replaceMaterialized w.storage ref io).2 ref.cache = _
      rw [hview, Function.update_self]
    · rfl
  · left
    rw [heq]
    refine ⟨rfl, ⟨w.storage.nextAddr, w.storage.nextPage, ref.pgno, io.npages⟩,
      set_ref_self _ hlt, rfl, ?_⟩
    rw [seen_of_held (x := ⟨1, w.storage.nextPage, io, false⟩)]
    · show some (Function.update w.bytes w.storage.nextPage read.payload w.storage.nextPage) = _
      rw [Function.update_self]
    · show held (detachMaterialized w.storage ref io true).2 w.storage.nextAddr = _
      rw [hview, Function.update_of_ne hnext.symm, Function.update_self]
    · rfl

/-- In place, the buffer of everyone else who holds the entry is freed. -/
theorem materialize_untracked_frees {ln : Nat} {w : World} {i : Nat} {ref : PageRef} {io : PageIo}
    {read : ReadResult} (alloc : Bool) (h : Sound w) (hlive : seen w ref ≠ none)
    (hv : materializeIoValid ln io = true) (hr : readFailure io read = none)
    (ht : tracked w.storage ref = false) {q : PageRef} (hsame : q.cache = ref.cache)
    (hq : seen w q ≠ none) : seen (useMaterialize ln w i ref io read alloc) q = none := by
  obtain ⟨x, hx, hpage⟩ := seen_live hlive
  obtain ⟨y, hy, hypage⟩ := seen_live hq
  rw [tracked_held hx] at ht
  have hone : x.tracked = true → x.pins = 1 := by
    rw [ht]
    simp
  have hio : 1 < io.npages := by
    simp only [materializeIoValid, decide_eq_true_eq] at hv
    exact hv.1
  have hview := (replaceMaterialized_held h.exact hx hpage hio hone).2
  have hlt := h.fresh.held hy
  unfold useMaterialize
  rw [completeMaterialize_replace alloc h.exact hv hr hx hpage hone]
  apply seen_moved
  · show held (replaceMaterialized w.storage ref io).2 q.cache = _
    rw [hview, hsame, Function.update_self]
  · show w.storage.nextPage ≠ q.page
    omega

theorem completeMaterialize_succeeds {ln : Nat} {s : Storage} {ref : PageRef} {io : PageIo}
    {read : ReadResult} {x : Held} (hs : Exact s) (hx : held s ref.cache = some x)
    (hpage : x.page = ref.page) (hv : materializeIoValid ln io = true)
    (hr : readFailure io read = none) :
    (completeMaterialize ln s ref io read true).1 = .success := by
  by_cases hone : x.tracked = true → x.pins = 1
  · rw [completeMaterialize_replace true hs hv hr hx hpage hone]
  · push Not at hone
    have hpins := held_pins hx
    rw [completeMaterialize_detach true hs hv hr hx hpage hone.1 (by omega)]
    rfl

theorem undisturbed_iff {w : World} (ln : Nat) {i : Nat} {ref : PageRef} (io : PageIo)
    (read : ReadResult) (alloc : Bool) (h : Sound w) (hi : w.ref i = some ref)
    (hlive : seen w ref ≠ none) :
    Undisturbed ln w i ref io read alloc ↔ MaterializeOk ln w i ref io read := by
  constructor
  · intro hund
    by_contra hbad
    unfold MaterializeOk at hbad
    push Not at hbad
    obtain ⟨hv, hr, ht, j, q, hne, hj, hsame, hq⟩ := hbad
    have hfreed := materialize_untracked_frees (i := i) alloc h hlive (by simpa using hv) hr
      (by simpa using ht) hsame hq
    rw [← use_materialize hi] at hfreed
    rw [(hund.others j q hne hj hq).2] at hfreed
    exact hq hfreed
  · intro hok
    obtain ⟨x, hx, hpage⟩ := seen_live hlive
    have hself := materialize_self ln io read alloc h hi
    refine ⟨?_, ?_, ?_, ?_⟩
    · intro hv hr halloc
      rw [halloc]
      exact completeMaterialize_succeeds h.exact hx hpage hv hr
    · intro hrc
      rw [use_materialize hi]
      rcases hself with ⟨-, hwhole⟩ | ⟨hno, -⟩
      · exact hwhole
      · exact absurd hrc hno
    · intro hrc
      rw [use_materialize hi]
      rcases hself with ⟨hyes, -⟩ | ⟨-, hkept⟩
      · exact absurd hyes hrc
      · exact hkept
    · intro j q hne hj hq
      rw [use_materialize hi]
      exact materialize_others alloc h hi hok hne hj hq

/-! ## 5. Whole runs -/

/-- The reference that a use gives up or changes. -/
def Use.takes (j : Nat) : Use → Prop
  | .release i => i = j
  | .materialize i _ _ _ => i = j
  | _ => False

def UseOk (ln : Nat) (w : World) : Use → Prop
  | .materialize i io read _ => ∀ ref, w.ref i = some ref → MaterializeOk ln w i ref io read
  | _ => True

def RunOk (ln : Nat) (w : World) : List Use → Prop
  | [] => True
  | u :: uses => UseOk ln w u ∧ RunOk ln (w.use ln u) uses

/-- Every reference that is held sees its bytes. -/
def AllLive (w : World) : Prop := ∀ j q, w.ref j = some q → seen w q ≠ none

-- a storage with the same view: nothing happens to a reference that is old enough
theorem keeps_of_held {w : World} {s : Storage} {q : PageRef} (hlive : seen w q ≠ none)
    (hheld : held s q.cache = held w.storage q.cache) (bytes : Nat → List UInt8)
    (hbytes : bytes q.page = w.bytes q.page) (refs : List (Option PageRef)) :
    seen ⟨s, bytes, refs⟩ q = seen w q := by
  obtain ⟨x, hx, hpage⟩ := seen_live hlive
  exact seen_kept x hx hpage (hheld.trans hx) rfl hbytes

-- one more or one fewer pin on some entry, its buffer unchanged
theorem keeps_of_pin {w : World} {s : Storage} {a : Nat} {x x' : Held} {q : PageRef}
    (hlive : seen w q ≠ none) (hx : held w.storage a = some x)
    (hview : held s = Function.update (held w.storage) a (some x')) (hpage : x'.page = x.page)
    (refs : List (Option PageRef)) : seen ⟨s, w.bytes, refs⟩ q = seen w q := by
  obtain ⟨y, hy, hypage⟩ := seen_live hlive
  by_cases hq : q.cache = a
  · have hxy : x = y := by
      rw [hq, hx] at hy
      exact Option.some.inj hy
    refine seen_kept x' hy hypage ?_ (hpage.trans (by rw [hxy])) rfl
    show held s q.cache = some x'
    rw [hview, hq, Function.update_self]
  · apply keeps_of_held hlive _ _ rfl
    rw [hview, Function.update_of_ne hq]

theorem lookup_keeps {w : World} (ln : Nat) (read : ReadIo) (h : Sound w) {q : PageRef}
    (hlive : seen w q ≠ none) : seen (useLookup ln w read) q = seen w q := by
  unfold useLookup
  by_cases hv : (!readIoValid ln read) = true
  · rw [if_pos hv]
  · rw [if_neg hv]
    cases hhit : hitEntry w.storage read with
    | none => rfl
    | some e =>
      have hview := lookupCachedPage_held h.exact.toCore hhit
      have hmem := h.exact.held_mem (hitEntry_mem hhit).1
      obtain ⟨y, hy, hypage⟩ := seen_live hlive
      by_cases hq : q.cache = e.addr
      · by_cases hp : e.pins = 0
        · rw [hq, hmem, heldEntry_unpinned hp] at hy
          exact absurd hy (by simp)
        · exact keeps_of_pin hlive (hmem.trans (heldEntry_pinned hp)) hview rfl _
      · refine keeps_of_held hlive ?_ _ rfl _
        show held (lookupCachedPage w.storage read).2 q.cache = _
        rw [hview, Function.update_of_ne hq]

theorem complete_keeps {w : World} (addr : Nat) (readOk : Bool) (h : Sound w) {q : PageRef}
    (hlive : seen w q ≠ none) : seen (useComplete w addr readOk) q = seen w q := by
  unfold useComplete
  cases hf : w.storage.fills.find? fun f => f.entry.addr = addr with
  | none => rfl
  | some f =>
    have hmem := List.mem_of_find?_eq_some hf
    have hpins := (h.fresh.fills f hmem).2
    have haddr : f.entry.addr = addr := (fills_perm hf).1
    obtain ⟨y, hy, -⟩ := seen_live hlive
    have hq : q.cache ≠ addr := by
      intro hq
      rw [hq, ← haddr, held_none (findEntry_none.mpr (h.exact.fill_not_entry hmem))
        (findEntry_none.mpr (h.exact.fill_not_private hmem))] at hy
      exact absurd hy (by simp)
    have hsame : held (completeFill w.storage addr readOk).2 q.cache = held w.storage q.cache := by
      rcases completeFill_held readOk h.exact hf hpins with ⟨-, hview⟩ | ⟨-, hview⟩
      · rw [hview]
      · rw [hview, Function.update_of_ne hq]
    dsimp only
    split_ifs
    · exact keeps_of_held hlive hsame _ rfl _
    · exact keeps_of_held hlive hsame _ rfl _

theorem retain_keeps {w : World} (ref : PageRef) {q : PageRef} (hlive : seen w q ≠ none) :
    seen (useRetain w ref) q = seen w q := by
  unfold useRetain
  by_cases hl : RefLive w.storage ref
  · obtain ⟨x, hx, -⟩ := id hl
    rw [retainCachedRef_live hl]
    exact keeps_of_pin hlive hx (retainCachedEntry_held hx) rfl _
  · rw [retainCachedRef_dead hl]
    rfl

theorem release_keeps {w : World} {i j : Nat} {ref q : PageRef} (h : Sound w)
    (hi : w.ref i = some ref) (hj : w.ref j = some q) (hne : j ≠ i) (hlive : seen w q ≠ none) :
    seen (useRelease w i ref) q = seen w q := by
  by_cases hl : RefLive w.storage ref
  · obtain ⟨x, hx, -⟩ := id hl
    have hview := (releaseCachedRef_live h.exact hl hx).2
    by_cases hq : q.cache = ref.cache
    · rw [Held.unpin_two (h.two_pins hi hj hne hq hx)] at hview
      exact keeps_of_pin hlive hx hview rfl _
    · refine keeps_of_held hlive ?_ _ rfl _
      rw [hview, Function.update_of_ne hq]
  · unfold useRelease
    rw [releaseCachedRef_dead hl]
    obtain ⟨x, hx, hpage⟩ := seen_live hlive
    exact seen_kept x hx hpage hx rfl rfl

/-- A live reference that a use does not take stays as it is. -/
theorem use_keeps {ln : Nat} {w : World} {u : Use} (h : Sound w) (hok : UseOk ln w u) {j : Nat}
    {q : PageRef} (hj : w.ref j = some q) (hlive : seen w q ≠ none) (hu : ¬ u.takes j) :
    (w.use ln u).ref j = some q ∧ seen (w.use ln u) q = seen w q := by
  cases u with
  | lookup read =>
    refine ⟨?_, lookup_keeps ln read h hlive⟩
    show (useLookup ln w read).ref j = some q
    unfold useLookup
    split_ifs
    · exact hj
    · cases hitEntry w.storage read with
      | none => exact hj
      | some e => exact World.hold_ref_old _ hj
  | prepare read alloc large payload =>
    show (usePrepare ln w read alloc large payload).ref j = some q ∧
      seen (usePrepare ln w read alloc large payload) q = seen w q
    unfold usePrepare
    obtain ⟨x, hx, hpage⟩ := seen_live hlive
    by_cases hv : (!readIoValid ln read) = true
    · rw [if_pos hv]
      exact ⟨hj, rfl⟩
    · rw [if_neg hv]
      refine ⟨hj, keeps_of_held hlive ?_ _ ?_ _⟩
      · rw [prepareReadCachedPage_held]
      · cases alloc with
        | true => exact h.bytes_next hx hpage payload
        | false => rfl
  | complete addr readOk =>
    refine ⟨?_, complete_keeps addr readOk h hlive⟩
    show (useComplete w addr readOk).ref j = some q
    unfold useComplete
    cases w.storage.fills.find? fun f => f.entry.addr = addr with
    | none => exact hj
    | some f =>
      dsimp only
      split_ifs
      · exact World.hold_ref_old _ hj
      · exact hj
  | retain i =>
    apply World.withRef_rule (P := fun w' => w'.ref j = some q ∧ seen w' q = seen w q) ⟨hj, rfl⟩
    intro ref _
    refine ⟨?_, retain_keeps ref hlive⟩
    unfold useRetain
    dsimp only
    split_ifs
    · exact World.hold_ref_old _ hj
    · exact hj
  | release i =>
    have hne : j ≠ i := fun heq => hu heq.symm
    apply World.withRef_rule (P := fun w' => w'.ref j = some q ∧ seen w' q = seen w q) ⟨hj, rfl⟩
    intro ref hi
    exact ⟨(set_ref_ne _ hne).trans hj, release_keeps h hi hj hne hlive⟩
  | invalidate pages incl =>
    refine ⟨hj, keeps_of_held hlive ?_ _ rfl _⟩
    rw [invalidateCachedIo_held pages incl h.exact]
  | prune =>
    refine ⟨hj, keeps_of_held hlive ?_ _ rfl _⟩
    rw [pruneLocked_held h.exact.toCore]
  | materialize i io read alloc =>
    have hne : j ≠ i := fun heq => hu heq.symm
    apply World.withRef_rule (P := fun w' => w'.ref j = some q ∧ seen w' q = seen w q) ⟨hj, rfl⟩
    intro ref hi
    exact materialize_others alloc h hi (hok ref hi) hne hj hlive

theorem hold_live {w : World} {ref : PageRef} {x : Held}
    (hx : held w.storage ref.cache = some x) (hpage : x.page = ref.page) :
    seen (w.hold ref) ref ≠ none := by
  rw [seen_of_held (w := w.hold ref) hx hpage]
  simp

/-- A use whose condition holds leaves every reference that is held with its bytes, also the one it
has made. -/
theorem use_live {ln : Nat} {w : World} {u : Use} (h : Sound w) (hok : UseOk ln w u)
    (hall : AllLive w) : AllLive (w.use ln u) := by
  intro j q hq
  by_cases hold : ∃ q', w.ref j = some q' ∧ ¬ u.takes j
  · obtain ⟨q', hj, hu⟩ := hold
    obtain ⟨hsame, hseen⟩ := use_keeps h hok hj (hall j q' hj) hu
    rw [hsame] at hq
    rw [← Option.some.inj hq, hseen]
    exact hall j q' hj
  -- what is left is a new reference, or the one that `u` takes
  · have hno : ∀ q', w.ref j = some q' → u.takes j := by
      intro q' hj
      by_contra hu
      exact hold ⟨q', hj, hu⟩
    cases u with
    | lookup read =>
      change (useLookup ln w read).ref j = some q at hq
      show seen (useLookup ln w read) q ≠ none
      unfold useLookup at hq ⊢
      by_cases hv : (!readIoValid ln read) = true
      · rw [if_pos hv] at hq
        exact absurd (hno q hq) id
      · rw [if_neg hv] at hq ⊢
        cases hhit : hitEntry w.storage read with
        | none =>
          rw [hhit] at hq
          exact absurd (hno q hq) id
        | some e =>
          rw [hhit] at hq
          rcases World.hold_ref hq with hj | rfl
          · exact absurd (hno q hj) id
          · refine hold_live (x := ⟨e.pins + 1, e.page, e.io, true⟩) ?_ rfl
            show held (lookupCachedPage w.storage read).2 e.addr = _
            rw [lookupCachedPage_held h.exact.toCore hhit, Function.update_self]
    | prepare read alloc large payload =>
      change (usePrepare ln w read alloc large payload).ref j = some q at hq
      unfold usePrepare at hq
      split_ifs at hq
      · exact absurd (hno q hq) id
      · exact absurd (hno q hq) id
      · exact absurd (hno q hq) id
    | complete addr readOk =>
      change (useComplete w addr readOk).ref j = some q at hq
      show seen (useComplete w addr readOk) q ≠ none
      unfold useComplete at hq ⊢
      cases hf : w.storage.fills.find? fun f => f.entry.addr = addr with
      | none =>
        rw [hf] at hq
        exact absurd (hno q hq) id
      | some f =>
        rw [hf] at hq
        have hpins := (h.fresh.fills f (List.mem_of_find?_eq_some hf)).2
        have haddr : f.entry.addr = addr := (fills_perm hf).1
        dsimp only at hq ⊢
        rcases completeFill_held readOk h.exact hf hpins with ⟨hrc, -⟩ | ⟨hrc, hview⟩
        · rw [if_neg hrc] at hq
          exact absurd (hno q hq) id
        · rw [if_pos hrc] at hq ⊢
          rcases World.hold_ref hq with hj | rfl
          · exact absurd (hno q hj) id
          · refine hold_live (x := ⟨1, f.entry.page, f.entry.io, f.read.tracked⟩) ?_ rfl
            show held (completeFill w.storage addr readOk).2 f.entry.addr = _
            rw [hview, haddr, Function.update_self]
    | retain i =>
      revert hq
      apply World.withRef_rule (P := fun w' => w'.ref j = some q → seen w' q ≠ none)
      · exact fun hj => absurd (hno q hj) id
      · intro ref hi hq
        by_cases hl : RefLive w.storage ref
        · obtain ⟨x, hx, hpage, -⟩ := id hl
          unfold useRetain at hq ⊢
          rw [retainCachedRef_live hl] at hq ⊢
          rcases World.hold_ref hq with hj | rfl
          · exact absurd (hno q hj) id
          · refine hold_live (x := { x with pins := x.pins + 1 }) ?_ hpage
            show held (retainCachedEntry w.storage q.cache) q.cache = _
            rw [retainCachedEntry_held hx, Function.update_self]
        · unfold useRetain at hq
          rw [retainCachedRef_dead hl] at hq
          exact absurd (hno q hq) id
    | release i =>
      revert hq
      apply World.withRef_rule (P := fun w' => w'.ref j = some q → seen w' q ≠ none)
      · exact fun hj => hall j q hj
      · intro ref hi hq
        by_cases hji : j = i
        · subst hji
          change World.ref ⟨_, _, _⟩ j = some q at hq
          rw [set_ref_self none (World.ref_lt hi)] at hq
          exact absurd hq (by simp)
        · have hj : w.ref j = some q := (set_ref_ne none hji).symm.trans hq
          exact absurd (hno q hj).symm hji
    | invalidate pages incl => exact absurd (hno q hq) id
    | prune => exact absurd (hno q hq) id
    | materialize i io read alloc =>
      revert hq
      apply World.withRef_rule (P := fun w' => w'.ref j = some q → seen w' q ≠ none)
      · exact fun hj => hall j q hj
      · intro ref hi hq
        by_cases hji : j = i
        · subst hji
          rcases materialize_self ln io read alloc h hi with
            ⟨-, ref', hself, -, hseen⟩ | ⟨-, hself, hseen⟩
          · rw [hself] at hq
            rw [← Option.some.inj hq, hseen]
            simp
          · rw [hself] at hq
            rw [← Option.some.inj hq, hseen]
            exact hall j ref hi
        · have hj : w.ref j = some q := (set_ref_ne _ hji).symm.trans hq
          exact absurd (hno q hj).symm hji

theorem run_live {ln : Nat} {w : World} (uses : List Use) (h : Sound w) (hall : AllLive w)
    (hok : RunOk ln w uses) : AllLive (w.run ln uses) := by
  induction uses generalizing w with
  | nil => exact hall
  | cons u uses ih => exact ih (use_sound ln u h) (use_live h hok.1 hall) hok.2

theorem run_keeps {ln : Nat} {w : World} (uses : List Use) (h : Sound w) (hok : RunOk ln w uses)
    {j : Nat} {q : PageRef} (hj : w.ref j = some q) (hlive : seen w q ≠ none)
    (huses : ∀ u ∈ uses, ¬ u.takes j) :
    (w.run ln uses).ref j = some q ∧ seen (w.run ln uses) q = seen w q := by
  induction uses generalizing w with
  | nil => exact ⟨hj, rfl⟩
  | cons u uses ih =>
    obtain ⟨hsame, hseen⟩ := use_keeps h hok.1 hj hlive (huses u List.mem_cons_self)
    obtain ⟨hend, heq⟩ := ih (use_sound ln u h) hok.2 hsame (by rw [hseen]; exact hlive)
      fun u hu => huses u (List.mem_cons_of_mem _ hu)
    exact ⟨hend, heq.trans hseen⟩

theorem World.init_live (limit : Nat) : AllLive (World.init limit) := by
  intro j q hj
  exact absurd hj (by simp [World.ref, World.init])

/-- In every state that readers can reach, a materialization through a live reference leaves the
other live references alone exactly when it fails, or its entry is tracked, or no other reference
shares the entry.  In a run in which every materialization is of this kind, every reference that is
held sees the bytes it saw first until it is released or materialized itself. -/
theorem materialize_undisturbed_iff (ln limit : Nat) (uses : List Use) :
    (∀ i ref io read alloc, ((World.init limit).run ln uses).ref i = some ref →
      seen ((World.init limit).run ln uses) ref ≠ none →
      (Undisturbed ln ((World.init limit).run ln uses) i ref io read alloc ↔
        MaterializeOk ln ((World.init limit).run ln uses) i ref io read)) ∧
    (RunOk ln (World.init limit) uses →
      AllLive ((World.init limit).run ln uses) ∧
      ∀ more, RunOk ln ((World.init limit).run ln uses) more → ∀ j q,
        ((World.init limit).run ln uses).ref j = some q → (∀ u ∈ more, ¬ u.takes j) →
        (((World.init limit).run ln uses).run ln more).ref j = some q ∧
          seen (((World.init limit).run ln uses).run ln more) q =
            seen ((World.init limit).run ln uses) q) := by
  have hsound := run_sound ln uses (World.init_sound limit)
  refine ⟨?_, ?_⟩
  · intro i ref io read alloc hi hlive
    exact undisturbed_iff ln io read alloc hsound hi hlive
  · intro hok
    have hall := run_live uses (World.init_sound limit) (World.init_live limit) hok
    exact ⟨hall, fun more hmore j q hj huses => run_keeps more hsound hmore hj (hall j q hj) huses⟩

-- An untracked read of page 5 with a duplicate in its batch, and the large page through the first.
theorem materialize_frees_duplicate :
    ¬ ∀ (ln limit : Nat) (uses : List Use) (i : Nat) (ref : PageRef) (io : PageIo)
      (read : ReadResult) (alloc : Bool), ((World.init limit).run ln uses).ref i = some ref →
        seen ((World.init limit).run ln uses) ref ≠ none →
        Undisturbed ln ((World.init limit).run ln uses) i ref io read alloc := by
  intro hall
  have hund := hall 8 0 [.prepare ⟨⟨5, 6, 1, 256⟩, 0, false, false⟩ true true
    (List.replicate 256 7), .complete 0 true, .retain 0] 0 ⟨0, 0, 5, 1⟩ ⟨5, 7, 2, 512⟩
    ⟨.success, true, true, List.replicate 512 7⟩ true (by decide) (by decide)
  have hother := (hund.others 1 ⟨0, 0, 5, 1⟩ (by decide) (by decide) (by decide)).2
  exact absurd hother (by decide +kernel)

end Mdbx.PageCache
