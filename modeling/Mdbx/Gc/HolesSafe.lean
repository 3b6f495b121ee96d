import Mdbx.Gc.SearchHoles
import Mdbx.Rkl.Runs

/-!
# Gc.HolesSafe — only free ids are handed out

The end of the range in view never rises, and every id pushed so far is at or above it.  Each round
either moves one of the three sources down or ends the search, so that it terminates.
-/

namespace Mdbx.Gc.Holes

/-! ## 1. The sources -/

/-- The ids in hand. -/
def Taken (e : Env) (id : Nat) : Prop := id ∈ e.ready4reuse.ids ∨ id ∈ e.comeback.ids

/-- What the callers provide: sets of valid ids whose positions fit an `unsigned`, and a `gc_first`
that may be stale only by records of ids in hand (`firstOk_run`). -/
structure Given (e : Env) (c : Ctx) : Prop where
  ready : e.ready4reuse.Walkable
  comeback : e.comeback.Walkable
  valid : ∀ id, Taken e id → id ≤ rklMaxTxnid
  detent : e.detent ≤ rklMaxTxnid
  gcFirst : c.gcFirst = 0 ∨ ∀ key ∈ e.keys, key < c.gcFirst → Taken e key

/-- An iterator of `r` behind a gap: no id of `r` is in the gap, and the iterator is below it. -/
structure TurnOk (b : Build) (r : Rkl) (t : Turn) : Prop where
  iter : t.iter = ⟨r, t.iter.pos, solidOffset b r⟩
  begin_pos : 1 ≤ t.hole.holeBegin
  free : Free r t.hole
  above : t.hole.holeBegin = 1 ∨
    t.iter.pos < rklLen r ∧ idBound b r t.iter.pos < t.hole.holeBegin
  ordered : t.hole.holeBegin ≤ t.hole.holeEnd + 1

section Turns

variable {b : Build} {r : Rkl} {t : Turn}

theorem turnOk_hole (h : r.Walkable) (pos : Nat)
    (hord : (rklHole ⟨r, pos, solidOffset b r⟩ true).1.holeBegin ≤
      (rklHole ⟨r, pos, solidOffset b r⟩ true).1.holeEnd + 1) :
    TurnOk b r ⟨(rklHole ⟨r, pos, solidOffset b r⟩ true).2,
      (rklHole ⟨r, pos, solidOffset b r⟩ true).1⟩ := by
  obtain ⟨hg, hi⟩ := rklHole_below (b := b) h pos
  exact ⟨hi, hg.begin_pos, hg.free, hg.above, hord⟩

/-- The next gap is below the last one, unless that began with the first id. -/
theorem TurnOk.next (h : r.Walkable) (ht : TurnOk b r t) (hgt : 1 < t.hole.holeBegin) :
    TurnOk b r t.next ∧ t.next.hole.holeEnd < t.hole.holeBegin ∧
      t.next.hole.holeBegin < t.hole.holeBegin := by
  obtain ⟨hlen, hab⟩ := ht.above.resolve_left (by omega)
  obtain ⟨hg, -⟩ := rklHole_below (b := b) h t.iter.pos
  have hord := hg.ordered.resolve_right fun hc => by omega
  have hbelow := hg.below
  have hok := turnOk_hole (b := b) h t.iter.pos (Nat.le_succ_of_le hord)
  simp only at hord hbelow
  unfold Turn.next
  rw [ht.iter]
  refine ⟨hok, ?_, ?_⟩
  · simp only
    omega
  · simp only
    omega

theorem TurnOk.find (h : r.Walkable) (hvalid : ∀ id ∈ r.ids, id ≤ rklMaxTxnid) (id : Nat) :
    TurnOk b r (Turn.find b r id) := by
  unfold Turn.find
  rw [rklFind_iter]
  apply turnOk_hole h
  obtain ⟨hg, -⟩ := rklHole_below (b := b) h (rklFind b r id).2.pos
  cases hg.ordered with
  | inl hle => exact Nat.le_succ_of_le hle
  | inr hc =>
    have hmax := hc.2
    cases hg.edge with
    | inl hone =>
      simp only at hone
      omega
    | inr hmem =>
      have := hvalid _ hmem
      simp only at hmax this
      omega

-- an id in the gap is not in the set
theorem TurnOk.not_mem (ht : TurnOk b r t) {id : Nat} (hlo : t.hole.holeBegin ≤ id)
    (hhi : id < t.hole.holeEnd) : id ∉ r.ids := by
  intro hmem
  have := ht.free id hmem
  omega

end Turns

/-! ## 2. The scan -/

section Scan

variable {e : Env} {s : State}

/-- The keys before the cursor are those below `hi`. -/
def Aligned (e : Env) (hi : Nat) (cursor : Option Nat) : Prop :=
  ∀ key ∈ e.keys, (∀ stand, cursor = some stand → key < stand) ↔ key < hi

theorem aligned_key (e : Env) (key : Nat) : Aligned e key (some key) := by
  intro k _
  constructor
  · exact fun h => h key rfl
  · intro h stand hs
    cases hs
    exact h

/-- The cursor steps back to the greatest of the keys before it. -/
theorem outerPrev_spec {hi : Nat} {cursor : Option Nat} (h : Aligned e hi cursor) :
    match outerPrev e.keys cursor with
    | none => ∀ k ∈ e.keys, ¬ k < hi
    | some key => key ∈ e.keys ∧ key < hi ∧ ∀ k ∈ e.keys, k < hi → k ≤ key := by
  cases cursor with
  | none =>
    unfold outerPrev
    simp only
    have hall : ∀ k ∈ e.keys, k < hi := fun k hk => (h k hk).1 fun _ hs => by cases hs
    cases hm : e.keys.max? with
    | none =>
      rw [List.max?_eq_none_iff] at hm
      rw [hm]
      exact fun k hk => absurd hk List.not_mem_nil
    | some key =>
      obtain ⟨hmem, hmax⟩ := List.max?_eq_some_iff.1 hm
      exact ⟨hmem, hall key hmem, fun k hk _ => hmax k hk⟩
  | some stand =>
    unfold outerPrev
    simp only
    have hiff : ∀ k ∈ e.keys, k < stand ↔ k < hi := by
      intro k hk
      rw [← h k hk]
      constructor
      · intro hlt _ hs
        cases hs
        exact hlt
      · exact fun hall => hall stand rfl
    cases hm : (e.keys.filter fun k => k < stand).max? with
    | none =>
      rw [List.max?_eq_none_iff, List.filter_eq_nil_iff] at hm
      intro k hk hlt
      exact hm k hk (decide_eq_true ((hiff k hk).2 hlt))
    | some key =>
      obtain ⟨hmem, hmax⟩ := List.max?_eq_some_iff.1 hm
      obtain ⟨hk, hlt⟩ := List.mem_filter.1 hmem
      refine ⟨hk, (hiff key hk).1 (of_decide_eq_true hlt), fun k hk' hlt' => hmax k ?_⟩
      exact List.mem_filter.2 ⟨hk', decide_eq_true ((hiff k hk').2 hlt')⟩

-- a seek brings the cursor to where `id` is or would be
theorem aligned_seek (e : Env) (id : Nat) :
    Aligned e (if (cursorSeek e.keys id).1 then id else id + 1) (cursorSeek e.keys id).2 := by
  unfold cursorSeek
  simp only
  have hbefore : ∀ k ∈ e.keys,
      (∀ stand, (e.keys.filter fun k => id ≤ k).min? = some stand → k < stand) ↔ k < id := by
    intro k hk
    constructor
    · intro h
      by_contra hge
      have hin : k ∈ e.keys.filter fun k => id ≤ k :=
        List.mem_filter.2 ⟨hk, decide_eq_true (by omega)⟩
      cases hm : (e.keys.filter fun k => id ≤ k).min? with
      | none =>
        rw [List.min?_eq_none_iff] at hm
        rw [hm] at hin
        exact absurd hin List.not_mem_nil
      | some stand =>
        have hle := (List.min?_eq_some_iff.1 hm).2 k hin
        have hlt := h stand hm
        omega
    · intro hlt stand hs
      have hmem := (List.min?_eq_some_iff.1 hs).1
      have := of_decide_eq_true (List.mem_filter.1 hmem).2
      omega
  intro k hk
  rw [hbefore k hk]
  by_cases hin : id ∈ e.keys
  · rw [if_pos (decide_eq_true hin)]
  · rw [if_neg (by simpa using hin)]
    have hne : k ≠ id := fun he => hin (he ▸ hk)
    omega

/-- What a scan leaves alone. -/
structure ScanFrame (s s' : State) : Prop where
  ready : s'.ready = s.ready
  comeback : s'.comeback = s.comeback
  ctx : s'.ctx = s.ctx
  pushed : s'.pushed = s.pushed

/-- Where a scan ends: it gives up at the threshold, runs out of keys, or finds the next range. -/
inductive Scanned (e : Env) (s s' : State) : Prop where
  | threshold (lo : s'.scanLo = 0) (hi : s'.scanHi = s.ctx.gcFirst)
      (why : s.scanHi < scanThreshold e ∨ 0 < s.scanHi ∧ s.scanHi - 1 ∈ e.keys)
  | eof (lo : s'.scanLo = 0) (hi : s'.scanHi ≤ s.scanHi) (none : ∀ k ∈ e.keys, ¬ k < s'.scanHi)
  | range (key : Nat) (mem : key ∈ e.keys) (lo : s'.scanLo = key + 1) (lt : key + 1 < s'.scanHi)
      (hi : s'.scanHi ≤ s.scanHi) (cursor : s'.cursor = some key)
      (none : ∀ k ∈ e.keys, key < k → ¬ k < s'.scanHi)

def keysBelow (e : Env) (hi : Nat) : List Nat := e.keys.filter fun k => k < hi

theorem keysBelow_lt {key : Nat} (hmem : key ∈ e.keys) :
    (keysBelow e key).length < (keysBelow e (key + 1)).length := by
  have hsub : (keysBelow e key).Sublist (keysBelow e (key + 1)) := by
    apply List.monotone_filter_right
    intro k hk
    exact decide_eq_true (Nat.lt_succ_of_lt (of_decide_eq_true hk))
  by_contra hge
  have heq := hsub.eq_of_length_le (by omega)
  have hin : key ∈ keysBelow e (key + 1) :=
    List.mem_filter.2 ⟨hmem, decide_eq_true (Nat.lt_succ_self key)⟩
  rw [← heq] at hin
  exact absurd (of_decide_eq_true (List.mem_filter.1 hin).2) (Nat.lt_irrefl key)

-- induction on the fuel; each further turn has one key less below `scan_hi`
theorem scan_spec {fuel : Nat} (h : Aligned e s.scanHi s.cursor)
    (hfuel : (keysBelow e s.scanHi).length < fuel) :
    ∃ s', scan e fuel s = some s' ∧ ScanFrame s s' ∧ Scanned e s s' := by
  induction fuel generalizing s with
  | zero => exact absurd hfuel (Nat.not_lt_zero _)
  | succ fuel ih =>
    unfold scan
    by_cases hthr : s.scanHi < scanThreshold e ∧ s.ctx.returnLeft ≤ tailSpace e s.ctx
    · rw [if_pos hthr]
      exact ⟨_, rfl, ⟨rfl, rfl, rfl, rfl⟩, .threshold rfl rfl (Or.inl hthr.1)⟩
    rw [if_neg hthr]
    have hprev := outerPrev_spec h
    cases hk : outerPrev e.keys s.cursor with
    | none =>
      rw [hk] at hprev
      exact ⟨_, rfl, ⟨rfl, rfl, rfl, rfl⟩, .eof rfl (Nat.le_refl _) hprev⟩
    | some key =>
      rw [hk] at hprev
      obtain ⟨hmem, hlt, hmax⟩ := hprev
      simp only
      by_cases hnear : key + 1 ≥ s.scanHi
      · rw [if_pos hnear]
        have hhi : s.scanHi = key + 1 := by omega
        have hless := keysBelow_lt hmem
        rw [hhi] at hfuel
        obtain ⟨s', hrun, hframe, hscan⟩ := ih
          (s := { s with scanLo := key + 1, scanHi := key, cursor := some key })
          (aligned_key e key) (by simp only; omega)
        refine ⟨s', hrun, ⟨hframe.ready, hframe.comeback, hframe.ctx, hframe.pushed⟩, ?_⟩
        cases hscan with
        | threshold lo hi why =>
          refine .threshold lo hi (Or.inr ⟨by omega, ?_⟩)
          rw [hhi]
          exact hmem
        | eof lo hi none =>
          simp only at hi
          exact .eof lo (by omega) none
        | range k mem lo lt hi cursor none =>
          simp only at hi
          exact .range k mem lo lt (by omega) cursor none
      · rw [if_neg hnear]
        refine ⟨_, rfl, ⟨rfl, rfl, rfl, rfl⟩,
          .range key hmem rfl (by simp only; omega) (Nat.le_refl _) rfl fun k hk' hlow hhi => ?_⟩
        have := hmax k hk' hhi
        omega

end Scan

/-! ## 3. Pushing -/

section Pushing

variable {e : Env} {s : State}

/-- An id that a new record may be stored under. -/
structure FreeId (e : Env) (id : Nat) : Prop where
  valid : minTxnid ≤ id
  below : id < e.detent
  key : id ∉ e.keys
  taken : ¬ Taken e id

/-- The ids handed out so far: free, all different and none of them below `floor`. -/
structure Handed (e : Env) (floor : Nat) (ids : List Nat) : Prop where
  once : ids.Nodup
  above : ∀ id ∈ ids, floor ≤ id
  free : ∀ id ∈ ids, FreeId e id

theorem handed_nil (e : Env) (floor : Nat) : Handed e floor [] :=
  ⟨List.nodup_nil, fun _ h => absurd h List.not_mem_nil, fun _ h => absurd h List.not_mem_nil⟩

theorem Handed.mono {floor floor' : Nat} {ids : List Nat} (h : Handed e floor ids)
    (hle : floor' ≤ floor) : Handed e floor' ids :=
  ⟨h.once, fun id hid => Nat.le_trans hle (h.above id hid), h.free⟩

theorem Handed.push {id : Nat} {ids : List Nat} (h : Handed e (id + 1) ids) (hid : FreeId e id) :
    Handed e id (ids ++ [id]) := by
  have hnew : id ∉ ids := fun hm => absurd (h.above id hm) (Nat.not_succ_le_self id)
  have hcase : ∀ x ∈ ids ++ [id], x ∈ ids ∨ x = id := fun x hx =>
    (List.mem_append.1 hx).imp_right List.mem_singleton.1
  refine ⟨?_, fun x hx => ?_, fun x hx => ?_⟩
  · rw [List.nodup_append]
    refine ⟨h.once, List.nodup_singleton id, fun x hx y hy heq => hnew ?_⟩
    rw [← List.mem_singleton.1 hy, ← heq]
    exact hx
  · cases hcase x hx with
    | inl hm => exact Nat.le_of_succ_le (h.above x hm)
    | inr heq => exact Nat.le_of_eq heq.symm
  · cases hcase x hx with
    | inl hm => exact h.free x hm
    | inr heq =>
      rw [heq]
      exact hid

/-- What a push leaves alone. -/
structure PushFrame (s s' : State) : Prop where
  ready : s'.ready = s.ready
  comeback : s'.comeback = s.comeback
  scanLo : s'.scanLo = s.scanLo
  scanHi : s'.scanHi = s.scanHi
  cursor : s'.cursor = s.cursor
  gcFirst : s'.ctx.gcFirst = s.ctx.gcFirst

theorem PushFrame.trans {s₁ s₂ s₃ : State} (h : PushFrame s₁ s₂) (h' : PushFrame s₂ s₃) :
    PushFrame s₁ s₃ :=
  ⟨h'.ready.trans h.ready, h'.comeback.trans h.comeback, h'.scanLo.trans h.scanLo,
    h'.scanHi.trans h.scanHi, h'.cursor.trans h.cursor, h'.gcFirst.trans h.gcFirst⟩

theorem gcPushSequel_spec (e : Env) (s : State) (id : Nat) :
    PushFrame s (gcPushSequel e s id).2 ∧ (gcPushSequel e s id).2.pushed = s.pushed ++ [id] := by
  unfold gcPushSequel
  simp only
  by_cases hrc : (rklPush e.build e.allocator s.ctx.sequel id).1 ≠ .success
  · rw [if_pos hrc]
    exact ⟨⟨rfl, rfl, rfl, rfl, rfl, rfl⟩, rfl⟩
  · rw [if_neg hrc]
    exact ⟨⟨rfl, rfl, rfl, rfl, rfl, rfl⟩, rfl⟩

/-- The ids of a range that is free in all three sources, from the last one down. -/
theorem pushDown_spec {low n : Nat} (hold : Handed e (low + n) s.pushed)
    (hfree : ∀ id, low ≤ id → id < low + n → FreeId e id) :
    PushFrame s (pushDown e low n s).2 ∧ Handed e low (pushDown e low n s).2.pushed := by
  induction n generalizing s with
  | zero => exact ⟨⟨rfl, rfl, rfl, rfl, rfl, rfl⟩, hold⟩
  | succ n ih =>
    obtain ⟨hframe, hpushed⟩ := gcPushSequel_spec e s (low + n)
    have hnext : Handed e (low + n) (gcPushSequel e s (low + n)).2.pushed := by
      rw [hpushed]
      exact hold.push (hfree _ (Nat.le_add_right low n) (Nat.lt_succ_self (low + n)))
    unfold pushDown
    simp only
    by_cases hrc : (gcPushSequel e s (low + n)).1 ≠ .success
    · rw [if_pos hrc]
      exact ⟨hframe, hnext.mono (Nat.le_add_right low n)⟩
    · rw [if_neg hrc]
      obtain ⟨hframe', hlast⟩ := ih hnext fun id hlo hhi =>
        hfree id hlo (Nat.lt_succ_of_lt hhi)
      exact ⟨hframe.trans hframe', hlast⟩

end Pushing

/-! ## 4. One round -/

section Round

variable {e : Env} {s : State}

/-- Where the range of the scan comes from: nowhere yet, from between two keys, or from the
beginning of the tree. -/
inductive Phase (e : Env) (s : State) : Prop where
  | unread (lo : s.scanLo = invalidTxnid) (hi : s.scanHi = e.detent)
  | between (key : Nat) (mem : key ∈ e.keys) (lo : s.scanLo = key + 1) (lt : s.scanLo < s.scanHi)
      (cursor : s.cursor = some key)
  | bottom (lo : s.scanLo = 0)

/-- What holds before each round. -/
structure Inv (e : Env) (s : State) : Prop where
  ready : TurnOk e.build e.ready4reuse s.ready
  comeback : TurnOk e.build e.comeback s.comeback
  first : ∀ key ∈ e.keys, key < s.ctx.gcFirst → Taken e key
  clear : ∀ key ∈ e.keys, s.scanLo ≤ key → key < s.scanHi → Taken e key
  phase : Phase e s
  bound : endOf s ≤ e.detent
  handed : Handed e (endOf s) s.pushed

/-- What the search goes down by. -/
def measure (s : State) : Nat := s.ready.hole.holeBegin + s.comeback.hole.holeBegin + s.scanLo

/-- What a round comes to: another round from a lower range, or the end of the search. -/
def RoundOk (e : Env) (s : State) : Next → Prop
  | .again s' => Inv e s' ∧ measure s' < measure s
  | .stop _ s' => Handed e 0 s'.pushed

theorem whileAbove_ok {endId : Nat} {s' : State} (h : minTxnid < endId → Inv e s' ∧
    measure s' < measure s) (hold : Handed e 0 s'.pushed) : RoundOk e s (whileAbove endId s') := by
  unfold whileAbove
  by_cases hgt : minTxnid < endId
  · rw [if_pos hgt]
    exact h hgt
  · rw [if_neg hgt]
    exact hold

-- all three sources have the range
theorem free_inRange (h : Inv e s) {id : Nat} (hlo : beginOf s ≤ id) (hhi : id < endOf s) :
    FreeId e id := by
  unfold beginOf at hlo
  have hends : id < s.scanHi ∧ id < s.ready.hole.holeEnd ∧ id < s.comeback.hole.holeEnd := by
    unfold endOf at hhi
    omega
  have hready := h.ready.not_mem (show s.ready.hole.holeBegin ≤ id by omega) hends.2.1
  have hback := h.comeback.not_mem (show s.comeback.hole.holeBegin ≤ id by omega) hends.2.2
  have htaken : ¬ Taken e id := fun ht => ht.elim hready hback
  refine ⟨?_, Nat.lt_of_lt_of_le hhi h.bound, fun hk => ?_, htaken⟩
  · have hpos := h.ready.begin_pos
    show 1 ≤ id
    omega
  · exact htaken (h.clear id hk (by omega) hends.1)

theorem round_comeback (hg : e.comeback.Walkable) (h : Inv e s)
    (hturn : s.comeback.hole.holeBegin ≥ endOf s) :
    RoundOk e s (whileAbove (endOf s) { s with comeback := s.comeback.next }) := by
  refine whileAbove_ok (fun hgt => ?_) (h.handed.mono (Nat.zero_le _))
  have hgt' : 1 < s.comeback.hole.holeBegin := Nat.lt_of_lt_of_le hgt hturn
  obtain ⟨hok, hend, hbegin⟩ := h.comeback.next hg hgt'
  have hord := h.comeback.ordered
  have hdown : endOf { s with comeback := s.comeback.next } ≤ endOf s := by
    unfold endOf
    simp only
    omega
  refine ⟨⟨h.ready, hok, h.first, h.clear, ?_, Nat.le_trans hdown h.bound, h.handed.mono hdown⟩,
    ?_⟩
  · cases h.phase with
    | unread lo hi => exact .unread lo hi
    | between key mem lo lt cursor => exact .between key mem lo lt cursor
    | bottom lo => exact .bottom lo
  · unfold measure
    simp only
    omega

theorem round_ready (hg : e.ready4reuse.Walkable) (h : Inv e s)
    (hturn : s.ready.hole.holeBegin ≥ endOf s) :
    RoundOk e s (whileAbove (endOf s) { s with ready := s.ready.next }) := by
  refine whileAbove_ok (fun hgt => ?_) (h.handed.mono (Nat.zero_le _))
  have hgt' : 1 < s.ready.hole.holeBegin := Nat.lt_of_lt_of_le hgt hturn
  obtain ⟨hok, hend, hbegin⟩ := h.ready.next hg hgt'
  have hord := h.ready.ordered
  have hdown : endOf { s with ready := s.ready.next } ≤ endOf s := by
    unfold endOf
    simp only
    omega
  refine ⟨⟨hok, h.comeback, h.first, h.clear, ?_, Nat.le_trans hdown h.bound,
    h.handed.mono hdown⟩, ?_⟩
  · cases h.phase with
    | unread lo hi => exact .unread lo hi
    | between key mem lo lt cursor => exact .between key mem lo lt cursor
    | bottom lo => exact .bottom lo
  · unfold measure
    simp only
    omega

theorem Scanned.scanLo_lt {s' : State} {lo : Nat} (h : Scanned e s s') (hhi : s.scanHi ≤ lo)
    (hlo : 0 < lo) : s'.scanLo < lo := by
  cases h with
  | threshold hz => omega
  | eof hz => omega
  | range key mem hlo lt hi => omega

/-- The range that a scan has found, below what has been handed out. -/
theorem inv_of_scanned {s' : State} {floor : Nat} (hready : TurnOk e.build e.ready4reuse s.ready)
    (hback : TurnOk e.build e.comeback s.comeback)
    (hfirst : ∀ key ∈ e.keys, key < s.ctx.gcFirst → Taken e key) (hframe : ScanFrame s s')
    (hscan : Scanned e s s') (hold : Handed e floor s.pushed) (hend : endOf s' ≤ floor)
    (hbound : floor ≤ e.detent) : Inv e s' := by
  refine ⟨?_, ?_, ?_, ?_, ?_, Nat.le_trans hend hbound, ?_⟩
  · rw [hframe.ready]
    exact hready
  · rw [hframe.comeback]
    exact hback
  · rw [hframe.ctx]
    exact hfirst
  · intro k hk hlo hhi
    cases hscan with
    | threshold lo hi why =>
      rw [hi] at hhi
      exact hfirst k hk hhi
    | eof lo hi none => exact absurd hhi (none k hk)
    | range key mem lo lt hi cursor none => exact absurd hhi (none k hk (by omega))
  · cases hscan with
    | threshold lo => exact .bottom lo
    | eof lo => exact .bottom lo
    | range key mem lo lt hi cursor none => exact .between key mem lo (by omega) cursor
  · rw [hframe.pushed]
    exact hold.mono hend

-- a key that none of the holes in view leaves out is not below the first record
theorem gcFirst_le (h : Inv e s) {key : Nat} (hk : key ∈ e.keys)
    (hready : s.ready.hole.holeBegin ≤ key) (hback : s.comeback.hole.holeBegin ≤ key)
    (hlt : key < endOf s) : s.ctx.gcFirst ≤ key := by
  by_contra hgt
  unfold endOf at hlt
  cases h.first key hk (by omega) with
  | inl ht => exact h.ready.not_mem hready (by omega) ht
  | inr ht => exact h.comeback.not_mem hback (by omega) ht

theorem scanThreshold_le (e : Env) : scanThreshold e ≤ e.detent := by
  unfold scanThreshold
  split_ifs
  · exact Nat.sub_le _ _
  · exact Nat.zero_le _

theorem keysBelow_length_lt (e : Env) (hi : Nat) :
    (keysBelow e hi).length < e.keys.length + 1 :=
  Nat.lt_succ_of_le (List.length_filter_le _ _)

/-- Where the turned scan starts: at or below `end`, unless it still reads the keys one by one. -/
theorem turnScan_spec (h : Inv e s) (hvalid : e.detent ≤ rklMaxTxnid)
    (hready : s.ready.hole.holeBegin < endOf s) (hback : s.comeback.hole.holeBegin < endOf s)
    (hturn : s.scanLo ≥ endOf s) :
    ScanFrame s (turnScan e s (endOf s)) ∧
      Aligned e (turnScan e s (endOf s)).scanHi (turnScan e s (endOf s)).cursor ∧
      (turnScan e s (endOf s)).scanHi ≤ s.scanLo ∧
      (min s.ready.hole.holeEnd s.comeback.hole.holeEnd ≤ endOf s ∨
        (turnScan e s (endOf s)).scanHi ≤ endOf s ∧
        ((turnScan e s (endOf s)).scanHi < scanThreshold e ∨
          (turnScan e s (endOf s)).scanHi - 1 ∈ e.keys → s.ctx.gcFirst ≤ endOf s)) := by
  have hpos := h.ready.begin_pos
  have hbound := h.bound
  unfold turnScan
  by_cases hfar : s.scanLo - endOf s > 4
  · rw [if_pos hfar]
    simp only
    have hal := aligned_seek e (endOf s - 1)
    rw [show endOf s - 1 + 1 = endOf s by omega] at hal
    refine ⟨⟨rfl, rfl, rfl, rfl⟩, hal, ?_, ?_⟩
    · split_ifs
      · omega
      · omega
    by_cases hin : endOf s - 1 ∈ e.keys
    · have hfirst := gcFirst_le h hin (by omega) (by omega) (by omega)
      refine Or.inr ⟨?_, fun _ => by omega⟩
      split_ifs
      · omega
      · omega
    · have hout : (cursorSeek e.keys (endOf s - 1)).1 = false := decide_eq_false hin
      rw [hout, if_neg Bool.false_ne_true]
      by_cases hhole : min s.ready.hole.holeEnd s.comeback.hole.holeEnd ≤ endOf s
      · exact Or.inl hhole
      · refine Or.inr ⟨Nat.le_refl _, fun hwhy => ?_⟩
        -- `end` is the end of the scan, which is that of all ids here
        have hhi : endOf s = s.scanHi := by
          unfold endOf at hhole ⊢
          omega
        cases h.phase with
        | unread lo hi =>
          have hle := scanThreshold_le e
          exact absurd (hwhy.resolve_left (by omega)) hin
        | between key mem lo lt cursor => omega
        | bottom lo => omega
  · rw [if_neg hfar]
    simp only
    cases h.phase with
    | unread lo hi =>
      have hbig : rklMaxTxnid + 4 < invalidTxnid := by decide
      omega
    | between key mem lo lt cursor =>
      refine ⟨⟨rfl, rfl, rfl, rfl⟩, ?_, Nat.sub_le _ _, Or.inl ?_⟩
      · rw [cursor, lo]
        exact aligned_key e key
      · unfold endOf at hturn ⊢
        omega
    | bottom lo => omega

theorem round_scan (h : Inv e s) (hvalid : e.detent ≤ rklMaxTxnid)
    (hready : s.ready.hole.holeBegin < endOf s) (hback : s.comeback.hole.holeBegin < endOf s)
    (hturn : s.scanLo ≥ endOf s) :
    ∃ s', scan e (e.keys.length + 1) (turnScan e s (endOf s)) = some s' ∧
      RoundOk e s (whileAbove (endOf s) s') := by
  obtain ⟨hframe, hal, hlo, hend⟩ := turnScan_spec h hvalid hready hback hturn
  obtain ⟨s', hrun, hframe', hscan⟩ := scan_spec hal (keysBelow_length_lt e _)
  refine ⟨s', hrun, ?_⟩
  have hreadyEq : s'.ready = s.ready := hframe'.ready.trans hframe.ready
  have hbackEq : s'.comeback = s.comeback := hframe'.comeback.trans hframe.comeback
  have hle : endOf s' ≤ endOf s := by
    have hmin : endOf s' = min s'.scanHi (min s.ready.hole.holeEnd s.comeback.hole.holeEnd) := by
      unfold endOf
      rw [hreadyEq, hbackEq]
    cases hend with
    | inl hhole => omega
    | inr hhi =>
      cases hscan with
      | threshold lo hi why =>
        have := hhi.2 (why.imp_right And.right)
        rw [hframe.ctx] at hi
        omega
      | eof lo hi none => omega
      | range key mem lo lt hi cursor none => omega
  have hpos := h.ready.begin_pos
  apply whileAbove_ok
  · intro _
    refine ⟨inv_of_scanned ?_ ?_ ?_ hframe' hscan ?_ hle h.bound, ?_⟩
    · rw [hframe.ready]
      exact h.ready
    · rw [hframe.comeback]
      exact h.comeback
    · rw [hframe.ctx]
      exact h.first
    · rw [hframe.pushed]
      exact h.handed
    · have hless := hscan.scanLo_lt hlo (by omega)
      unfold measure
      rw [hreadyEq, hbackEq]
      omega
  · rw [hframe'.pushed, hframe.pushed]
    exact h.handed.mono (Nat.zero_le _)

-- the hole that began where the pushed range did has been left
theorem turned_next {b : Build} {r : Rkl} {t : Turn} {beginId : Nat} (hw : r.Walkable)
    (h : TurnOk b r t) (hgt : 1 < beginId) :
    TurnOk b r (if beginId = t.hole.holeBegin then t.next else t) ∧
      (if beginId = t.hole.holeBegin then t.next else t).hole.holeBegin ≤ t.hole.holeBegin ∧
      (beginId = t.hole.holeBegin →
        (if beginId = t.hole.holeBegin then t.next else t).hole.holeEnd < beginId ∧
        (if beginId = t.hole.holeBegin then t.next else t).hole.holeBegin < t.hole.holeBegin) := by
  by_cases heq : beginId = t.hole.holeBegin
  · rw [if_pos heq]
    obtain ⟨hok, hend, hbegin⟩ := h.next hw (by omega)
    exact ⟨hok, Nat.le_of_lt hbegin, fun _ => ⟨by omega, hbegin⟩⟩
  · rw [if_neg heq]
    exact ⟨h, Nat.le_refl _, fun hc => absurd hc heq⟩

/-- The holes as `pull` leaves them, before the scan goes on. -/
def pulled (beginId : Nat) (s : State) : State :=
  { s with
    comeback := if beginId = s.comeback.hole.holeBegin then s.comeback.next else s.comeback
    ready := if beginId = s.ready.hole.holeBegin then s.ready.next else s.ready }

theorem pull_eq (e : Env) (beginId : Nat) (s : State) :
    pull e beginId s =
      if beginId = s.scanLo then
        scan e (e.keys.length + 1) { pulled beginId s with scanHi := s.scanLo - 1 }
      else some (pulled beginId s) := by
  unfold pull pulled
  by_cases hc : beginId = s.comeback.hole.holeBegin
  · by_cases hr : beginId = s.ready.hole.holeBegin
    · simp only [if_pos hc, if_pos hr]
    · simp only [if_pos hc, if_neg hr]
  · by_cases hr : beginId = s.ready.hole.holeBegin
    · simp only [if_neg hc, if_pos hr]
    · simp only [if_neg hc, if_neg hr]

theorem round_pull {c : Ctx} (hw : Given e c) (h : Inv e s) (hready : s.ready.hole.holeBegin < endOf s)
    (hback : s.comeback.hole.holeBegin < endOf s) (hscanLo : s.scanLo < endOf s) {t : State}
    (hframe : PushFrame s t) (hold : Handed e (beginOf s) t.pushed) (hgt : 1 < beginOf s) :
    ∃ s', pull e (beginOf s) t = some s' ∧ RoundOk e s (whileAbove (beginOf s - 1) s') := by
  have hbegin : s.ready.hole.holeBegin ≤ beginOf s ∧ s.comeback.hole.holeBegin ≤ beginOf s ∧
      s.scanLo ≤ beginOf s ∧ beginOf s < endOf s := by
    unfold beginOf
    omega
  obtain ⟨hokR, hleR, heqR⟩ := turned_next hw.ready h.ready hgt
  obtain ⟨hokC, hleC, heqC⟩ := turned_next hw.comeback h.comeback hgt
  have hR : (pulled (beginOf s) t).ready =
      if beginOf s = s.ready.hole.holeBegin then s.ready.next else s.ready := by
    unfold pulled
    rw [hframe.ready]
  have hC : (pulled (beginOf s) t).comeback =
      if beginOf s = s.comeback.hole.holeBegin then s.comeback.next else s.comeback := by
    unfold pulled
    rw [hframe.comeback]
  rw [← hR] at hokR hleR heqR
  rw [← hC] at hokC hleC heqC
  have hfirst : ∀ key ∈ e.keys, key < t.ctx.gcFirst → Taken e key := by
    rw [hframe.gcFirst]
    exact h.first
  have hbound : beginOf s ≤ e.detent := by
    have := h.bound
    omega
  rw [pull_eq, hframe.scanLo]
  by_cases hscan : beginOf s = s.scanLo
  · rw [if_pos hscan]
    cases h.phase with
    | unread lo hi =>
      have hbig : rklMaxTxnid < invalidTxnid := by decide
      have := hw.detent
      omega
    | bottom lo => omega
    | between key mem lo lt cursor =>
      have hal : Aligned e (s.scanLo - 1) t.cursor := by
        rw [hframe.cursor, cursor, lo]
        exact aligned_key e key
      obtain ⟨s', hrun, hframe', hfound⟩ := scan_spec
        (s := { pulled (beginOf s) t with scanHi := s.scanLo - 1 }) hal (keysBelow_length_lt e _)
      have hreadyEq : s'.ready = (pulled (beginOf s) t).ready := hframe'.ready
      have hbackEq : s'.comeback = (pulled (beginOf s) t).comeback := hframe'.comeback
      have hle : endOf s' ≤ beginOf s := by
        have hmin : endOf s' = min s'.scanHi (min (pulled (beginOf s) t).ready.hole.holeEnd
            (pulled (beginOf s) t).comeback.hole.holeEnd) := by
          unfold endOf
          rw [hreadyEq, hbackEq]
        by_cases hone : beginOf s = s.ready.hole.holeBegin
        · have := heqR hone
          omega
        by_cases htwo : beginOf s = s.comeback.hole.holeBegin
        · have := heqC htwo
          omega
        cases hfound with
        | threshold lo' hi why =>
          have := gcFirst_le h mem (by omega) (by omega) (by omega)
          have hsame : s'.scanHi = s.ctx.gcFirst := hi.trans hframe.gcFirst
          omega
        | eof lo' hi none =>
          simp only at hi
          omega
        | range k mem' lo' lt' hi cursor' none =>
          simp only at hi
          omega
      have hinv : Inv e s' :=
        inv_of_scanned (s := { pulled (beginOf s) t with scanHi := s.scanLo - 1 }) hokR hokC
          hfirst hframe' hfound hold hle hbound
      refine ⟨s', hrun, whileAbove_ok (fun _ => ⟨hinv, ?_⟩) ?_⟩
      · have hless := hfound.scanLo_lt (show s.scanLo - 1 ≤ s.scanLo by omega) (by omega)
        unfold measure
        rw [hreadyEq, hbackEq]
        omega
      · rw [hframe'.pushed]
        exact hold.mono (Nat.zero_le _)
  · rw [if_neg hscan]
    have hmoved : beginOf s = s.ready.hole.holeBegin ∨ beginOf s = s.comeback.hole.holeBegin := by
      unfold beginOf at hscan ⊢
      omega
    have hlo : (pulled (beginOf s) t).scanLo = s.scanLo := hframe.scanLo
    have hhi : (pulled (beginOf s) t).scanHi = s.scanHi := hframe.scanHi
    have hle : endOf (pulled (beginOf s) t) ≤ beginOf s := by
      unfold endOf
      cases hmoved with
      | inl hone =>
        have := heqR hone
        omega
      | inr htwo =>
        have := heqC htwo
        omega
    refine ⟨_, rfl, whileAbove_ok (fun _ => ⟨⟨hokR, hokC, hfirst, ?_, ?_,
      Nat.le_trans hle hbound, hold.mono hle⟩, ?_⟩) (hold.mono (Nat.zero_le _))⟩
    · rw [hlo, hhi]
      exact h.clear
    · cases h.phase with
      | unread lo hi => exact .unread (hlo.trans lo) (hhi.trans hi)
      | between key mem lo lt cursor =>
        refine .between key mem (hlo.trans lo) ?_ (hframe.cursor.trans cursor)
        rw [hlo, hhi]
        exact lt
      | bottom lo => exact .bottom (hlo.trans lo)
    · unfold measure
      rw [hlo]
      cases hmoved with
      | inl hone =>
        have := heqR hone
        omega
      | inr htwo =>
        have := heqC htwo
        omega

/-- Each round keeps the invariant and goes down, or ends the search. -/
theorem round_ok {c : Ctx} (hw : Given e c) (h : Inv e s) :
    ∃ next, round e s = some next ∧ RoundOk e s next := by
  unfold round
  simp only
  by_cases hback : s.comeback.hole.holeBegin ≥ endOf s
  · rw [if_pos hback]
    exact ⟨_, rfl, round_comeback hw.comeback h hback⟩
  rw [if_neg hback]
  by_cases hready : s.ready.hole.holeBegin ≥ endOf s
  · rw [if_pos hready]
    exact ⟨_, rfl, round_ready hw.ready h hready⟩
  rw [if_neg hready]
  by_cases hscan : s.scanLo ≥ endOf s
  · rw [if_pos hscan]
    obtain ⟨s', hrun, hok⟩ := round_scan h hw.detent (by omega) (by omega) hscan
    refine ⟨_, ?_, hok⟩
    rw [hrun, Option.map_some]
  rw [if_neg hscan]
  have hlt : beginOf s < endOf s := by
    unfold beginOf
    omega
  have hlen : beginOf s + (endOf s - beginOf s) = endOf s := by omega
  obtain ⟨hframe, hold⟩ := pushDown_spec (n := endOf s - beginOf s) (hlen.symm ▸ h.handed)
    fun id hlo hhi => free_inRange h hlo (hlen ▸ hhi)
  by_cases hrc : (pushDown e (beginOf s) (endOf s - beginOf s) s).1 ≠ .success
  · rw [if_pos hrc]
    exact ⟨_, rfl, hold.mono (Nat.zero_le _)⟩
  rw [if_neg hrc]
  by_cases hmin : minTxnid ≥ beginOf s
  · rw [if_pos hmin]
    exact ⟨_, rfl, hold.mono (Nat.zero_le _)⟩
  rw [if_neg hmin]
  obtain ⟨s', hrun, hok⟩ := round_pull hw h (by omega) (by omega) (by omega) hframe hold
    (Nat.not_le.1 hmin)
  refine ⟨_, ?_, hok⟩
  rw [hrun, Option.map_some]

end Round

/-! ## 5. The whole search -/

section Search

variable {e : Env} {c : Ctx}

-- induction on what the rounds go down by
theorem rounds_ok (hw : Given e c) {n : Nat} {s : State} (h : Inv e s) (hn : measure s < n) :
    ∃ rc s', Handed e 0 s'.pushed ∧ ∀ fuel, n ≤ fuel → rounds e fuel s = some (rc, s') := by
  induction n generalizing s with
  | zero => exact absurd hn (Nat.not_lt_zero _)
  | succ n ih =>
    obtain ⟨next, hround, hok⟩ := round_ok hw h
    cases next with
    | again s₁ =>
      obtain ⟨hinv, hdown⟩ := hok
      obtain ⟨rc, s', hhanded, hrun⟩ := ih hinv (by omega)
      refine ⟨rc, s', hhanded, fun fuel hfuel => ?_⟩
      cases fuel with
      | zero => omega
      | succ fuel =>
        unfold rounds
        rw [hround]
        exact hrun fuel (by omega)
    | stop rc s' =>
      refine ⟨rc, s', hok, fun fuel hfuel => ?_⟩
      cases fuel with
      | zero => omega
      | succ fuel =>
        unfold rounds
        rw [hround]

-- no record before the first one, or only those of ids in hand
theorem firstKnown_clear (h : c.gcFirst = 0 ∨ ∀ key ∈ e.keys, key < c.gcFirst → Taken e key) :
    ∀ key ∈ e.keys, key < (firstKnown e c).gcFirst → Taken e key := by
  intro key hk hlt
  unfold firstKnown at hlt
  by_cases hz : c.gcFirst = 0
  · rw [if_pos hz] at hlt
    cases hm : e.keys.min? with
    | none =>
      rw [List.min?_eq_none_iff] at hm
      rw [hm] at hk
      exact absurd hk List.not_mem_nil
    | some first =>
      simp only [hm, Option.getD_some] at hlt
      have := (List.min?_eq_some_iff.1 hm).2 key hk
      omega
  · rw [if_neg hz] at hlt
    exact h.resolve_left hz key hk hlt

theorem inv_begun (hw : Given e c) : Inv e (begun e c) := by
  have hready := TurnOk.find (b := e.build) hw.ready fun id hid => hw.valid id (Or.inl hid)
  have hback := TurnOk.find (b := e.build) hw.comeback fun id hid => hw.valid id (Or.inr hid)
  have hclear := firstKnown_clear hw.gcFirst
  have hdetent := hw.detent
  have hbig : rklMaxTxnid < invalidTxnid := by decide
  unfold begun
  simp only
  by_cases hfront : ¬ e.isLifo = true ∧ (firstKnown e c).gcFirst < e.detent ∧
      e.detent - (firstKnown e c).gcFirst < e.keys.length
  · simp only [if_pos hfront]
    refine ⟨hready _, hback _, hclear, fun key hk _ hhi => hclear key hk hhi, .bottom rfl, ?_,
      handed_nil e _⟩
    unfold endOf
    simp only
    omega
  · simp only [if_neg hfront]
    refine ⟨hready _, hback _, hclear, fun key _ hlo hhi => ?_, .unread rfl rfl, ?_,
      handed_nil e _⟩
    · simp only at hlo hhi
      omega
    · unfold endOf
      simp only
      omega

/-- The search comes to an end, and what it has pushed are different ids below `detent` that are
neither keys of the GC tree nor in hand. -/
theorem gcSearchHoles_free (e : Env) (c : Ctx) (hw : Given e c) :
    ∃ n rc s, (∀ fuel, n ≤ fuel → gcSearchHoles e c fuel = some (rc, s)) ∧ s.pushed.Nodup ∧
      ∀ id ∈ s.pushed, minTxnid ≤ id ∧ id < e.detent ∧ id ∉ e.keys ∧ id ∉ e.ready4reuse.ids ∧
        id ∉ e.comeback.ids := by
  obtain ⟨rc, s, hhanded, hrun⟩ := rounds_ok hw (inv_begun hw) (Nat.lt_succ_self _)
  refine ⟨_, rc, s, hrun, hhanded.once, fun id hid => ?_⟩
  have hfree := hhanded.free id hid
  exact ⟨hfree.valid, hfree.below, hfree.key, fun h => hfree.taken (Or.inl h),
    fun h => hfree.taken (Or.inr h)⟩

/-- An interval of one id. -/
def soloRkl (id : Nat) : Rkl := ⟨id, id + 1, 0, rklInplaceLength, fun _ => 0, true⟩

theorem soloRkl_walkable {id : Nat} (hlo : minTxnid ≤ id) (hhi : id < invalidTxnid) :
    (soloRkl id).Walkable where
  ascending := fun _ j _ hj => absurd hj (Nat.not_lt_zero j)
  listIds := fun i hi => absurd hi (Nat.not_lt_zero i)
  solidIds := fun _ => ⟨hlo, hhi⟩
  apart := fun _ i hi => absurd hi (Nat.not_lt_zero i)
  hollow := fun h => absurd (Nat.lt_succ_self id) h
  room := Nat.zero_le _
  limit := Nat.le_refl _
  inplaceLimit := fun _ => rfl
  short := by
    have hlen : rklLen (soloRkl id) ≤ id + 1 - id + 0 := by
      unfold rklLen
      split_ifs
      · exact Nat.zero_le _
      · exact Nat.le_refl _
    omega

theorem mem_soloRkl {id x : Nat} (hx : x ∈ (soloRkl id).ids) : x = id := by
  cases Rkl.mem_ids.1 hx with
  | inl hlist =>
    obtain ⟨i, hi, -⟩ := hlist
    exact absurd hi (Nat.not_lt_zero i)
  | inr hsolid => exact Nat.le_antisymm (Nat.le_of_lt_succ hsolid.2) hsolid.1

/-- Records 2, 4 and 9, of which 2 has just been written for an id from `comeback`. -/
def sampleEnv : Env :=
  { build := ⟨false, true⟩
    allocator := exactAllocator
    keys := [2, 4, 9]
    ready4reuse := soloRkl 3
    comeback := soloRkl 2
    detent := 9
    maxgcPerBranch := 100
    goodchunk := 10
    isLifo := true }

/-- `gc_first` does not know of record 2. -/
def sampleCtx : Ctx := ⟨4, 35, soloRkl 20⟩

theorem gcSearchHoles_free_sample :
    ∃ n rc s, (∀ fuel, n ≤ fuel → gcSearchHoles sampleEnv sampleCtx fuel = some (rc, s)) ∧
      s.pushed.Nodup ∧ ∀ id ∈ s.pushed, minTxnid ≤ id ∧ id < sampleEnv.detent ∧
        id ∉ sampleEnv.keys ∧ id ∉ sampleEnv.ready4reuse.ids ∧ id ∉ sampleEnv.comeback.ids := by
  have hback : 2 ∈ sampleEnv.comeback.ids :=
    Rkl.mem_ids.2 (Or.inr ⟨Nat.le_refl 2, Nat.lt_succ_self 2⟩)
  apply gcSearchHoles_free
  refine ⟨soloRkl_walkable (by decide) (by decide), soloRkl_walkable (by decide) (by decide), ?_, by decide,
    Or.inr ?_⟩
  · intro id hid
    cases hid with
    | inl h =>
      rw [mem_soloRkl h]
      decide
    | inr h =>
      rw [mem_soloRkl h]
      decide
  · intro key hk hlt
    have htwo : key = 2 := by
      have hmem : key = 2 ∨ key = 4 ∨ key = 9 := by simpa [sampleEnv] using hk
      have hlow : key < 4 := hlt
      omega
    rw [htwo]
    exact Or.inr hback

-- ids 8 to 5 in a row; those above are in use, those below are not needed any more
example : (gcSearchHoles sampleEnv sampleCtx 20).map (fun out => (out.1, out.2.pushed)) =
    some (.resultTrue, [8, 7, 6, 5]) := by decide

/-- An interval of 2^32 + 8 ids, an id above it, and 98 in the word of memory that `list[2^32 - 1]`
names, far behind the list. -/
def endlessRkl : Rkl where
  solidBegin := 100
  solidEnd := 2 ^ 32 + 108
  listLength := 1
  listLimit := rklInplaceLength
  list i := if i = 0 then 2 ^ 33 else 98
  inplace := true

theorem endlessRkl_wf : endlessRkl.Wf where
  ascending := fun i j hij hj => by
    have hlast : j < 1 := hj
    omega
  listIds := fun i hi => by
    have hzero : i = 0 := Nat.lt_one_iff.1 hi
    rw [hzero]
    decide
  solidIds := fun _ => by decide
  apart := fun _ i hi => by
    have hzero : i = 0 := Nat.lt_one_iff.1 hi
    rw [hzero]
    decide
  hollow := fun h => absurd (show 100 < 2 ^ 32 + 108 by decide) h
  room := by decide
  limit := Nat.le_refl _
  inplaceLimit := fun _ => rfl

def emptyRkl : Rkl := rklInit ⟨0, 0, 0, 0, fun _ => 0, true⟩

/-- An empty GC, and nothing in `comeback`. -/
def endlessEnv : Env :=
  { build := ⟨false, true⟩
    allocator := exactAllocator
    keys := []
    ready4reuse := endlessRkl
    comeback := emptyRkl
    detent := 2 ^ 34
    maxgcPerBranch := 100
    goodchunk := 10
    isLifo := true }

/-- `solid_offset - 1` is 2^32 - 1 where the interval comes first.  A set with more ids than that
takes it for a position, reads the word there, and stays where it is: 99 is pushed twice. -/
theorem searchHoles_pushes_twice :
    endlessEnv.ready4reuse.Wf ∧ endlessEnv.comeback.Wf ∧
      Disjoint endlessEnv.ready4reuse.ids endlessEnv.comeback.ids ∧
      (∀ id, Taken endlessEnv id → id ≤ rklMaxTxnid) ∧ endlessEnv.detent ≤ rklMaxTxnid ∧
      (gcSearchHoles endlessEnv ⟨0, 35, emptyRkl⟩ 20).map (fun out => (out.1, out.2.pushed)) =
        some (.problem, [99, 99]) := by
  have hnone : emptyRkl.ids = ∅ := rklInit_ids _
  refine ⟨endlessRkl_wf, rklInit_wf _, ?_, fun id hid => ?_, by decide, by decide +kernel⟩
  · show Disjoint endlessRkl.ids emptyRkl.ids
    rw [hnone]
    exact Finset.disjoint_empty_right _
  · cases hid with
    | inr hback =>
      have hin : id ∈ emptyRkl.ids := hback
      rw [hnone] at hin
      exact absurd hin (Finset.notMem_empty id)
    | inl hready =>
      have hmax : 2 ^ 33 ≤ rklMaxTxnid := by decide
      cases Rkl.mem_ids.1 hready with
      | inl hlist =>
        obtain ⟨i, hi, heq⟩ := hlist
        have hzero : i = 0 := Nat.lt_one_iff.1 hi
        rw [← heq, hzero]
        exact hmax
      | inr hsolid =>
        have hlt : id < 2 ^ 32 + 108 := hsolid.2
        omega

end Search

/-! ## 6. What `gc_update` does between two searches -/

/-- What one move of `gc_update` does to the tree, the ids in hand and the remembered `gc_first`. -/
inductive Moves (txnid : Nat) (e : Env) (c : Ctx) (e' : Env) (c' : Ctx) : Prop where
  /-- `gc_search_holes`, `rkl_merge` of its ids -/
  | search (keys : ∀ k, k ∈ e'.keys ↔ k ∈ e.keys) (taken : ∀ id, Taken e id → Taken e' id)
      (first : c'.gcFirst = (firstKnown e c).gcFirst)
  /-- `gc_reserve4return`: a record for an id that moves to `comeback` -/
  | reserve (id : Nat) (mem : Taken e id) (lt : id < txnid)
      (keys : ∀ k, k ∈ e'.keys ↔ k = id ∨ k ∈ e.keys)
      (taken : ∀ id, Taken e id → Taken e' id) (first : c'.gcFirst = c.gcFirst)
  /-- a turn of `gc_remove_rkl`: the record is deleted, its id is ready for reuse -/
  | remove (id : Nat) (lt : id < txnid) (keys : ∀ k, k ∈ e'.keys ↔ k ≠ id ∧ k ∈ e.keys)
      (taken : ∀ id, Taken e id → Taken e' id)
      (first : c'.gcFirst = if c.gcFirst = id then 0 else c.gcFirst)
  /-- `gc_clean_stored_retired`, `gc_store_retired`: `n` records from `txnid` on -/
  | store (n : Nat) (keys : ∀ k, k ∈ e'.keys ↔ if k < txnid then k ∈ e.keys else k < txnid + n)
      (taken : ∀ id, Taken e id → Taken e' id) (first : c'.gcFirst = c.gcFirst)

inductive Run (txnid : Nat) (e : Env) (c : Ctx) : Env → Ctx → Prop where
  | init : Run txnid e c e c
  | step {e₁ c₁ e₂ c₂} (run : Run txnid e c e₁ c₁) (detent : e₁.detent ≤ txnid)
      (move : Moves txnid e₁ c₁ e₂ c₂) : Run txnid e c e₂ c₂

section Caller

variable {txnid : Nat} {e e' : Env} {c c' : Ctx}

/-- The records of the transaction itself start at `txnid`, and `gc_first` is unknown or hides
records of ids in hand only. -/
structure FirstOk (txnid : Nat) (e : Env) (c : Ctx) : Prop where
  own : ∀ k ∈ e.keys, txnid ≤ k → txnid ∈ e.keys
  le : c.gcFirst ≤ txnid
  clear : c.gcFirst = 0 ∨ ∀ key ∈ e.keys, key < c.gcFirst → Taken e key

theorem firstKnown_le (h : FirstOk txnid e c) (hd : e.detent ≤ txnid) :
    (firstKnown e c).gcFirst ≤ txnid := by
  unfold firstKnown
  by_cases hz : c.gcFirst = 0
  · rw [if_pos hz]
    cases hm : e.keys.min? with
    | none =>
      simp only [Option.getD_none]
      exact hd
    | some first =>
      simp only [Option.getD_some]
      obtain ⟨hmem, hmin⟩ := List.min?_eq_some_iff.1 hm
      by_contra hgt
      exact hgt (hmin txnid (h.own first hmem (by omega)))
  · rw [if_neg hz]
    exact h.le

theorem moves_firstOk (h : FirstOk txnid e c) (hd : e.detent ≤ txnid)
    (hm : Moves txnid e c e' c') : FirstOk txnid e' c' := by
  cases hm with
  | search keys taken first =>
    refine ⟨fun k hk hle => ?_, ?_, Or.inr fun key hk hlt => ?_⟩
    · rw [keys] at hk ⊢
      exact h.own k hk hle
    · rw [first]
      exact firstKnown_le h hd
    · rw [keys] at hk
      rw [first] at hlt
      exact taken key (firstKnown_clear h.clear key hk hlt)
  | reserve id mem lt keys taken first =>
    refine ⟨fun k hk hle => ?_, ?_, ?_⟩
    · rw [keys] at hk ⊢
      exact Or.inr (h.own k (hk.resolve_left (by omega)) hle)
    · rw [first]
      exact h.le
    · rw [first]
      refine h.clear.imp_right fun hall key hk hlt => ?_
      rw [keys] at hk
      cases hk with
      | inl heq =>
        rw [heq]
        exact taken id mem
      | inr hold => exact taken key (hall key hold hlt)
  | remove id lt keys taken first =>
    refine ⟨fun k hk hle => ?_, ?_, ?_⟩
    · rw [keys] at hk ⊢
      exact ⟨by omega, h.own k hk.2 hle⟩
    · have := h.le
      rw [first]
      split_ifs
      · exact Nat.zero_le _
      · exact this
    · rw [first]
      by_cases heq : c.gcFirst = id
      · rw [if_pos heq]
        exact Or.inl rfl
      · rw [if_neg heq]
        refine h.clear.imp_right fun hall key hk hlt => ?_
        rw [keys] at hk
        exact taken key (hall key hk.2 hlt)
  | store n keys taken first =>
    have hle' := h.le
    refine ⟨fun k hk hle => ?_, ?_, ?_⟩
    · rw [keys, if_neg (by omega)] at hk ⊢
      omega
    · rw [first]
      exact hle'
    · rw [first]
      refine h.clear.imp_right fun hall key hk hlt => ?_
      rw [keys, if_pos (by omega)] at hk
      exact taken key (hall key hk hlt)

/-- In every run of `gc_update` from a cleared context, `gc_first` is as a search needs it. -/
theorem firstOk_run (hown : ∀ k ∈ e.keys, txnid ≤ k → txnid ∈ e.keys) (hc : c.gcFirst = 0)
    (hrun : Run txnid e c e' c') :
    c'.gcFirst = 0 ∨ ∀ key ∈ e'.keys, key < c'.gcFirst → Taken e' key := by
  have hall : FirstOk txnid e' c' := by
    induction hrun with
    | init => exact ⟨hown, by omega, Or.inl hc⟩
    | step run detent move ih => exact moves_firstOk ih detent move
  exact hall.clear

end Caller

end Mdbx.Gc.Holes
