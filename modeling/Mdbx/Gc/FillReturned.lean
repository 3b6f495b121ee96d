import Mdbx.Gc.Slices

/-!
# Gc.FillReturned — `gc_reserve4return` and `gc_fill_returned`

The records reserved for the returned pages are filled from the end of the list.  What the reserve
has beyond the pages is spread over the slots in proportion to their capacity, by a 32-bit fixed
point factor.  The pages left and the surplus are together the capacity not yet visited, and the
surplus is never below its share of that capacity.
-/

namespace Mdbx.Gc.Fill

/-! ## 1. Reserving -/

/-- A reserved record: its id and its words, `data.iov_len / sizeof(pgno_t)` of them. -/
structure Slot where
  id : Nat
  words : List Nat

/-- `gc_chunk_bytes` -/
def gcChunkBytes (chunk : Nat) : Nat := (chunk + 1) * 4

/-- `chunk_hi`: the first word is the length. -/
def Slot.chunkHi (s : Slot) : Nat := s.words.length - 1

/-- The slots of `comeback` in ascending order of ids, and the bounds of what fits into them. -/
structure Reserve where
  ready4reuse : List Nat
  comeback : List Slot
  returnReservedLo : Nat
  returnReservedHi : Nat

/-- What the calls of `gc_reserve4return` answer. -/
structure Answers where
  cachedOldest : Nat
  push : Rc
  put : Rc
  reclaimedEmpty : Bool

/-- `gc_clear_returned` -/
def gcClearReturned (s : Reserve) : Reserve :=
  { s with comeback := [], returnReservedLo := 0, returnReservedHi := 0 }

/-- `gc_reserve4return`: a zeroed record under the highest id at hand -/
def gcReserve4return (a : Answers) (chunkLo chunkHi : Nat) (s : Reserve) : Rc × Reserve :=
  let reservationId := s.ready4reuse.getLastD 0
  let popped := { s with ready4reuse := s.ready4reuse.dropLast }
  if reservationId < minTxnid ∨ a.cachedOldest < reservationId then (.problem, popped)
  else if a.push ≠ .success then (a.push, popped)
  -- the id is in `comeback` by now, but without a record, and the update fails
  else if a.put ≠ .success then (a.put, popped)
  else
    let slot : Slot := ⟨reservationId, List.replicate (chunkHi + 1) 0⟩
    let reserved : Reserve :=
      { popped with
        comeback := s.comeback.orderedInsert (fun x y => x.id ≤ y.id) slot
        returnReservedLo := s.returnReservedLo + chunkLo
        returnReservedHi := s.returnReservedHi + chunkHi }
    (if a.reclaimedEmpty then .success else .resultTrue, reserved)

/-- What the slots hold together. -/
def capacity (slots : List Slot) : Nat := (slots.map Slot.chunkHi).sum

/-- `return_reserved_hi` is the capacity of the slots. -/
def Reserve.Counted (s : Reserve) : Prop := s.returnReservedHi = capacity s.comeback

theorem gcClearReturned_counted (s : Reserve) : (gcClearReturned s).Counted := rfl

theorem gcReserve4return_counted (a : Answers) (lo hi : Nat) {s : Reserve} (h : s.Counted) :
    (gcReserve4return a lo hi s).2.Counted := by
  unfold gcReserve4return
  simp only
  by_cases hid : s.ready4reuse.getLastD 0 < minTxnid ∨ a.cachedOldest < s.ready4reuse.getLastD 0
  · rw [if_pos hid]
    exact h
  rw [if_neg hid]
  by_cases hpush : a.push ≠ .success
  · rw [if_pos hpush]
    exact h
  rw [if_neg hpush]
  by_cases hput : a.put ≠ .success
  · rw [if_pos hput]
    exact h
  rw [if_neg hput]
  unfold Reserve.Counted capacity
  have hperm := (List.perm_orderedInsert (fun x y : Slot => x.id ≤ y.id)
    ⟨s.ready4reuse.getLastD 0, List.replicate (hi + 1) 0⟩ s.comeback).map Slot.chunkHi
  rw [hperm.sum_eq, List.map_cons, List.sum_cons]
  unfold Reserve.Counted capacity at h
  unfold Slot.chunkHi at h ⊢
  simp only [List.length_replicate]
  omega

/-- The reserves of an update, from the last `gc_clear_returned` on. -/
inductive Reserving : Reserve → Prop
  | clear (s : Reserve) : Reserving (gcClearReturned s)
  | reserve (a : Answers) (lo hi : Nat) {s : Reserve} (h : Reserving s) :
      Reserving (gcReserve4return a lo hi s).2

theorem Reserving.counted {s : Reserve} (h : Reserving s) : s.Counted := by
  induction h with
  | clear s => exact gcClearReturned_counted s
  | reserve a lo hi _ ih => exact gcReserve4return_counted a lo hi ih

/-! ## 2. Filling -/

/-- A slot the loop has come to, with the state it met and what is in the record afterwards. -/
structure Visit where
  slot : Slot
  left : Nat
  surplus : Nat
  leftSlots : Nat
  chunk : Nat
  written : Option (List Nat)

/-- `n * factor >> 32` of two 64-bit words. -/
def scaled (n factor : Nat) : Nat := n * factor % 2 ^ 64 / 2 ^ 32

/-- The number of pages for a slot: what is left if that fits, else the capacity less the slot's
share of the surplus, and one less again where the surplus can afford it. -/
def chunkFor (factor left surplus chunkHi leftSlots : Nat) : Nat :=
  if left > chunkHi then
    if surplus ≠ 0 ∧ leftSlots ≠ 0 then
      let hole := scaled chunkHi factor
      let chunk := sizeSub chunkHi hole
      if chunk > 1 ∧ sizeSub surplus hole > scaled (sizeSub (left + surplus) chunkHi) factor then
        chunk - 1
      else chunk
    else chunkHi
  else left

/-- `*dst = chunk; memcpy(dst + 1, src, chunk)` with `src` the last pages of those left. -/
def fillWords (repnl words : List Nat) (left chunk : Nat) : List Nat :=
  chunk % 2 ^ 32 :: (repnl.drop (left - chunk)).take chunk ++ words.drop (chunk + 1)

/-- The loop of `gc_fill_returned` over the slots still to come -/
def fillLoop (ps : Nat) (repnl : List Nat) (factor : Nat) :
    List Slot → Nat → Nat → Rc × List Visit
  | [], _, _ => (.problem, [])
  | slot :: rest, stored, surplus =>
      let left := sizeSub repnl.length stored
      let chunk := chunkFor factor left surplus slot.chunkHi rest.length
      let visit := Visit.mk slot left surplus rest.length chunk
      if ps ≤ 4 * slot.words.length - gcChunkBytes chunk then (.resultTrue, [visit none])
      else
        let filled := visit (some (fillWords repnl slot.words left chunk))
        if stored + chunk < repnl.length then
          let r := fillLoop ps repnl factor rest (stored + chunk)
            (sizeSub surplus (sizeSub slot.chunkHi chunk))
          (r.1, filled :: r.2)
        else (.success, [filled])

/-- A single record takes all the pages at once. -/
def fillSingle (ps : Nat) (repnl : List Nat) (slot : Slot) : Rc × List Visit :=
  let visit := Visit.mk slot repnl.length 0 0 repnl.length
  if ps * 2 ≤ 4 * slot.words.length - gcChunkBytes repnl.length then (.resultTrue, [visit none])
  else (.success, [visit (some (fillWords repnl slot.words repnl.length repnl.length))])

/-- The factor the surplus is spread by. -/
def spread (surplus returnReservedHi : Nat) : Nat := surplus * 2 ^ 32 % 2 ^ 64 / returnReservedHi

/-- `gc_fill_returned`, where every slot of `comeback` is found -/
def gcFillReturned (isLifo : Bool) (ps : Nat) (repnl : List Nat) (s : Reserve) : Rc × List Visit :=
  match s.comeback with
  | [slot] => fillSingle ps repnl slot
  | slots =>
      let surplus := sizeSub s.returnReservedHi repnl.length
      fillLoop ps repnl (spread surplus s.returnReservedHi)
        (if isLifo then slots.reverse else slots) 0 surplus

/-! ## 3. Shares -/

section Shares

variable {factor total : Nat}

/-- The factor is below one, and no product with it leaves 64 bits. -/
structure Factor (factor total : Nat) : Prop where
  lt_one : factor < 2 ^ 32
  fits : total * factor < 2 ^ 64

theorem scaled_eq (h : Factor factor total) {n : Nat} (hn : n ≤ total) :
    scaled n factor = n * factor / 2 ^ 32 := by
  have hle : n * factor ≤ total * factor := Nat.mul_le_mul_right factor hn
  unfold scaled
  rw [Nat.mod_eq_of_lt (Nat.lt_of_le_of_lt hle h.fits)]

theorem scaled_lt (h : Factor factor total) {n : Nat} (hn : n ≤ total) (hpos : 0 < n) :
    scaled n factor < n := by
  rw [scaled_eq h hn]
  apply Nat.div_lt_of_lt_mul
  rw [Nat.mul_comm (2 ^ 32) n]
  exact Nat.mul_lt_mul_of_pos_left h.lt_one hpos

-- rounding down never gives the parts more than the whole
theorem scaled_add_le (h : Factor factor total) {m n : Nat} (hmn : m + n ≤ total) :
    scaled m factor + scaled n factor ≤ scaled (m + n) factor := by
  rw [scaled_eq h (by omega), scaled_eq h (by omega), scaled_eq h hmn, Nat.add_mul]
  exact Nat.div_add_div_le_add_div

theorem spread_factor {surplus : Nat} (hlt : surplus < total) :
    Factor (spread surplus total) total := by
  unfold spread
  constructor
  · apply Nat.div_lt_of_lt_mul
    have hmod : surplus * 2 ^ 32 % 2 ^ 64 ≤ surplus * 2 ^ 32 := Nat.mod_le _ _
    have hmul : surplus * 2 ^ 32 < total * 2 ^ 32 := Nat.mul_lt_mul_of_pos_right hlt (by decide)
    omega
  · have hdiv : total * (surplus * 2 ^ 32 % 2 ^ 64 / total) ≤ surplus * 2 ^ 32 % 2 ^ 64 :=
      Nat.mul_div_le _ _
    have hmod : surplus * 2 ^ 32 % 2 ^ 64 < 2 ^ 64 := Nat.mod_lt _ (by decide)
    omega

-- the whole surplus covers its share of the whole capacity
theorem scaled_spread_le {surplus : Nat} (hlt : surplus < total) :
    scaled total (spread surplus total) ≤ surplus := by
  rw [scaled_eq (spread_factor hlt) (Nat.le_refl _)]
  apply Nat.div_le_of_le_mul
  unfold spread
  have hdiv : total * (surplus * 2 ^ 32 % 2 ^ 64 / total) ≤ surplus * 2 ^ 32 % 2 ^ 64 :=
    Nat.mul_div_le _ _
  have hmod : surplus * 2 ^ 32 % 2 ^ 64 ≤ surplus * 2 ^ 32 := Nat.mod_le _ _
  omega

end Shares

/-! ## 4. One slot -/

theorem sizeSub_of_le {a b : Nat} (h : b ≤ a) : sizeSub a b = a - b := if_pos h

/-- What holds before each slot: the pages left and the surplus fill the slots to come, and the
surplus covers its share of them. -/
structure Balanced (factor total left surplus : Nat) (slots : List Slot) : Prop where
  left_pos : 0 < left
  sum : left + surplus = capacity slots
  within : capacity slots ≤ total
  covered : scaled (left + surplus) factor ≤ surplus

/-- The assertions of the loop body. -/
structure VisitOk (factor : Nat) (v : Visit) : Prop where
  chunk_pos : 1 ≤ v.chunk
  chunk_le : v.chunk ≤ v.slot.chunkHi
  chunk_left : v.chunk ≤ v.left
  gap_le : v.slot.chunkHi - v.chunk ≤ v.surplus
  hole_le : v.left > v.slot.chunkHi → v.surplus ≠ 0 → scaled v.slot.chunkHi factor ≤ v.surplus
  remainder_le : v.left > v.slot.chunkHi → v.surplus ≠ 0 →
    scaled (v.left + v.surplus - v.slot.chunkHi) factor ≤
      v.surplus - scaled v.slot.chunkHi factor

section Step

variable {factor total left surplus : Nat} {slot : Slot} {rest : List Slot}

theorem capacity_cons (slot : Slot) (rest : List Slot) :
    capacity (slot :: rest) = slot.chunkHi + capacity rest := rfl

-- while a slot cannot take everything, there are more of them
theorem Balanced.rest_ne_nil (hb : Balanced factor total left surplus (slot :: rest))
    (hlt : slot.chunkHi < left) : rest.length ≠ 0 := by
  intro hz
  have hsum := hb.sum
  rw [capacity_cons, List.length_eq_zero_iff.1 hz] at hsum
  unfold capacity at hsum
  rw [List.map_nil, List.sum_nil] at hsum
  omega

theorem Balanced.hole (hf : Factor factor total)
    (hb : Balanced factor total left surplus (slot :: rest)) (hlt : slot.chunkHi < left) :
    scaled slot.chunkHi factor + scaled (left + surplus - slot.chunkHi) factor ≤ surplus := by
  have hsum := hb.sum
  have hwithin := hb.within
  have hadd := scaled_add_le (m := slot.chunkHi) (n := left + surplus - slot.chunkHi) hf (by omega)
  rw [show slot.chunkHi + (left + surplus - slot.chunkHi) = left + surplus by omega] at hadd
  exact Nat.le_trans hadd hb.covered

/-- The chunk of one slot, by the three ways of the loop body. -/
theorem Balanced.chunkFor_spec (hf : Factor factor total)
    (hb : Balanced factor total left surplus (slot :: rest)) (hcap : 2 ≤ slot.chunkHi) :
    let chunk := chunkFor factor left surplus slot.chunkHi rest.length
    1 ≤ chunk ∧ chunk ≤ slot.chunkHi ∧ chunk ≤ left ∧ slot.chunkHi - chunk ≤ surplus ∧
      (chunk < left → scaled (left + surplus - slot.chunkHi) factor ≤
        surplus - (slot.chunkHi - chunk)) := by
  have hleft := hb.left_pos
  have hsum := hb.sum
  rw [capacity_cons] at hsum
  intro chunk
  by_cases hlt : slot.chunkHi < left
  · have hhole := hb.hole hf hlt
    have hrest := hb.rest_ne_nil hlt
    by_cases hs : surplus = 0
    · have hc : chunk = slot.chunkHi := by
        show chunkFor factor left surplus slot.chunkHi rest.length = _
        unfold chunkFor
        rw [if_pos hlt, if_neg fun hc => hc.1 hs]
      omega
    · have hwithin := hb.within
      rw [capacity_cons] at hwithin
      have hsmall : scaled slot.chunkHi factor < slot.chunkHi :=
        scaled_lt hf (by omega) (by omega)
      have hc : chunk = if slot.chunkHi - scaled slot.chunkHi factor > 1 ∧
          surplus - scaled slot.chunkHi factor >
            scaled (left + surplus - slot.chunkHi) factor then
            slot.chunkHi - scaled slot.chunkHi factor - 1
          else slot.chunkHi - scaled slot.chunkHi factor := by
        show chunkFor factor left surplus slot.chunkHi rest.length = _
        unfold chunkFor
        rw [if_pos hlt, if_pos ⟨hs, hrest⟩]
        simp only
        rw [sizeSub_of_le (Nat.le_of_lt hsmall),
          sizeSub_of_le (show scaled slot.chunkHi factor ≤ surplus by omega),
          sizeSub_of_le (show slot.chunkHi ≤ left + surplus by omega)]
      by_cases hmore : slot.chunkHi - scaled slot.chunkHi factor > 1 ∧
          surplus - scaled slot.chunkHi factor >
            scaled (left + surplus - slot.chunkHi) factor
      · rw [if_pos hmore] at hc
        omega
      · rw [if_neg hmore] at hc
        omega
  · have hc : chunk = left := by
      show chunkFor factor left surplus slot.chunkHi rest.length = _
      unfold chunkFor
      rw [if_neg hlt]
    omega

theorem Balanced.visitOk (hf : Factor factor total)
    (hb : Balanced factor total left surplus (slot :: rest)) (hcap : 2 ≤ slot.chunkHi)
    (words : Option (List Nat)) :
    VisitOk factor ⟨slot, left, surplus, rest.length,
      chunkFor factor left surplus slot.chunkHi rest.length, words⟩ := by
  have hspec := hb.chunkFor_spec hf hcap
  refine ⟨hspec.1, hspec.2.1, hspec.2.2.1, hspec.2.2.2.1, ?_, ?_⟩
  · intro hlt _
    have := hb.hole hf hlt
    show scaled slot.chunkHi factor ≤ surplus
    omega
  · intro hlt _
    have := hb.hole hf hlt
    show scaled (left + surplus - slot.chunkHi) factor ≤ surplus - scaled slot.chunkHi factor
    omega

-- and the balance is kept for the slots after it
theorem Balanced.next (hf : Factor factor total)
    (hb : Balanced factor total left surplus (slot :: rest)) (hcap : 2 ≤ slot.chunkHi)
    (hmore : chunkFor factor left surplus slot.chunkHi rest.length < left) :
    Balanced factor total (left - chunkFor factor left surplus slot.chunkHi rest.length)
      (surplus - (slot.chunkHi - chunkFor factor left surplus slot.chunkHi rest.length)) rest := by
  have hspec := hb.chunkFor_spec hf hcap
  simp only at hspec
  have hsum := hb.sum
  have hwithin := hb.within
  rw [capacity_cons] at hsum hwithin
  generalize chunkFor factor left surplus slot.chunkHi rest.length = chunk at hspec hmore ⊢
  refine ⟨by omega, by omega, by omega, ?_⟩
  rw [show left - chunk + (surplus - (slot.chunkHi - chunk)) = left + surplus - slot.chunkHi by
    omega]
  exact hspec.2.2.2.2 hmore

end Step

/-! ## 5. All the slots -/

/-- The pages of the records written, from the last record to the first. -/
def filledPages (vs : List Visit) : List Nat :=
  vs.reverse.flatMap fun v => recordPages (v.written.getD [])

theorem filledPages_cons (v : Visit) (vs : List Visit) :
    filledPages (v :: vs) = filledPages vs ++ recordPages (v.written.getD []) := by
  unfold filledPages
  rw [List.reverse_cons, List.flatMap_append, List.flatMap_cons, List.flatMap_nil, List.append_nil]

theorem recordPages_fillWords {repnl : List Nat} {left chunk : Nat} (words : List Nat)
    (hleft : left ≤ repnl.length) (hchunk : chunk ≤ left) (hword : repnl.length < 2 ^ 32) :
    recordPages (fillWords repnl words left chunk) = (repnl.drop (left - chunk)).take chunk := by
  unfold fillWords recordPages
  rw [Nat.mod_eq_of_lt (show chunk < 2 ^ 32 by omega)]
  simp only [List.cons_append, List.tail_cons, List.headD_cons]
  apply List.take_left'
  rw [List.length_take, List.length_drop]
  omega

theorem length_fillWords {repnl : List Nat} {left chunk : Nat} (words : List Nat)
    (hleft : left ≤ repnl.length) (hchunk : chunk ≤ left) (hfits : chunk < words.length) :
    (fillWords repnl words left chunk).length = words.length := by
  unfold fillWords
  simp only [List.cons_append, List.length_cons, List.length_append, List.length_take,
    List.length_drop]
  omega

/-- Where the loop stops: at the end of the list, or at a slot with a page to spare. -/
def Ended (ps : Nat) (vs : List Visit) (finished : Bool) : Rc → Prop
  | .success => finished = true
  | .resultTrue => ∃ v, vs.getLast? = some v ∧ v.written = none ∧
      ps ≤ 4 * v.slot.words.length - gcChunkBytes v.chunk
  | _ => False

theorem Ended.cons {ps : Nat} {v : Visit} {vs : List Visit} {finished : Bool} {rc : Rc}
    (h : Ended ps vs finished rc) : Ended ps (v :: vs) finished rc := by
  cases rc with
  | success => exact h
  | resultTrue =>
    obtain ⟨w, hw, hnone, hlong⟩ := h
    refine ⟨w, ?_, hnone, hlong⟩
    rw [List.getLast?_cons, hw]
    rfl
  | _ => exact h

/-- What the loop does from a state with `stored` pages in place. -/
structure Filled (ps : Nat) (repnl : List Nat) (factor : Nat) (slots : List Slot) (stored : Nat)
    (r : Rc × List Visit) : Prop where
  visits : ∀ v ∈ r.2, VisitOk factor v
  records : ∀ v ∈ r.2, ∀ words, v.written = some words → words.length = v.slot.words.length ∧
    words.headD 0 = v.chunk
  order : r.2.map Visit.slot <+: slots
  pages : ∃ final, stored ≤ final ∧ final ≤ repnl.length ∧
    filledPages r.2 = (repnl.drop (repnl.length - final)).take (final - stored) ∧
    Ended ps r.2 (final = repnl.length) r.1

section Loop

variable {ps factor total : Nat} {repnl : List Nat}

theorem head_fillWords {left chunk : Nat} (words : List Nat) (hleft : left ≤ repnl.length)
    (hchunk : chunk ≤ left) (hword : repnl.length < 2 ^ 32) :
    (fillWords repnl words left chunk).headD 0 = chunk :=
  Nat.mod_eq_of_lt (show chunk < 2 ^ 32 by omega)

-- the slice of one slot in front of the slices of the slots after it
theorem slices_append {final stored chunk : Nat} (hlo : stored + chunk ≤ final)
    (hhi : final ≤ repnl.length) :
    (repnl.drop (repnl.length - final)).take (final - (stored + chunk)) ++
        (repnl.drop (repnl.length - stored - chunk)).take chunk =
      (repnl.drop (repnl.length - final)).take (final - stored) := by
  rw [show final - stored = final - (stored + chunk) + chunk by omega, List.take_add,
    List.drop_drop, show repnl.length - final + (final - (stored + chunk)) =
      repnl.length - stored - chunk by omega]

theorem fillLoop_filled (hf : Factor factor total) (hword : repnl.length < 2 ^ 32) :
    ∀ (slots : List Slot) (stored surplus : Nat), (∀ s ∈ slots, 2 ≤ s.chunkHi) →
      stored < repnl.length → Balanced factor total (repnl.length - stored) surplus slots →
      Filled ps repnl factor slots stored (fillLoop ps repnl factor slots stored surplus)
  | [], stored, surplus, _, _, hb => by
    have hpos := hb.left_pos
    have hsum := hb.sum
    unfold capacity at hsum
    rw [List.map_nil, List.sum_nil] at hsum
    omega
  | slot :: rest, stored, surplus, hcaps, hlt, hb => by
    have hcap := hcaps slot (List.mem_cons_self ..)
    have hspec := hb.chunkFor_spec hf hcap
    have hok := hb.visitOk hf hcap
    have hnext := hb.next hf hcap
    unfold fillLoop
    simp only
    rw [sizeSub_of_le (Nat.le_of_lt hlt)]
    generalize chunkFor factor (repnl.length - stored) surplus slot.chunkHi rest.length = chunk
      at hspec hok hnext ⊢
    simp only at hspec
    have hfits : chunk < slot.words.length := by
      have := hspec.2.1
      have := hspec.1
      unfold Slot.chunkHi at *
      omega
    have hlen := length_fillWords slot.words (Nat.sub_le repnl.length stored)
      hspec.2.2.1 hfits
    have hhead := head_fillWords slot.words (Nat.sub_le repnl.length stored)
      hspec.2.2.1 hword
    have hpages := recordPages_fillWords slot.words (Nat.sub_le repnl.length stored)
      hspec.2.2.1 hword
    by_cases hlong : ps ≤ 4 * slot.words.length - gcChunkBytes chunk
    · -- the restart
      rw [if_pos hlong]
      refine ⟨?_, ?_, ?_, stored, Nat.le_refl _, Nat.le_of_lt hlt, ?_, ?_⟩
      · intro v hv
        rw [List.mem_singleton.1 hv]
        exact hok none
      · intro v hv words hw
        rw [List.mem_singleton.1 hv] at hw
        cases hw
      · exact List.prefix_append [slot] rest
      · rw [Nat.sub_self, List.take_zero]
        rfl
      · exact ⟨_, rfl, rfl, hlong⟩
    rw [if_neg hlong]
    by_cases hmore : stored + chunk < repnl.length
    · rw [if_pos hmore, sizeSub_of_le hspec.2.1, sizeSub_of_le hspec.2.2.2.1]
      have hb' := hnext (by omega)
      rw [show repnl.length - stored - chunk = repnl.length - (stored + chunk) by omega] at hb'
      have ih := fillLoop_filled hf hword rest (stored + chunk) _
        (fun s hs => hcaps s (List.mem_cons_of_mem _ hs)) hmore hb'
      generalize fillLoop ps repnl factor rest (stored + chunk)
        (surplus - (slot.chunkHi - chunk)) = r at ih ⊢
      obtain ⟨final, hlo, hhi, hfilled, hend⟩ := ih.pages
      refine ⟨?_, ?_, ?_, final, by omega, hhi, ?_, ?_⟩
      · intro v hv
        cases List.mem_cons.1 hv with
        | inl hv => rw [hv]; exact hok _
        | inr hv => exact ih.visits v hv
      · intro v hv words hw
        cases List.mem_cons.1 hv with
        | inl hv =>
          rw [hv] at hw ⊢
          cases hw
          exact ⟨hlen, hhead⟩
        | inr hv => exact ih.records v hv words hw
      · exact (List.prefix_cons_inj slot).2 ih.order
      · rw [filledPages_cons, hfilled]
        show _ ++ recordPages (fillWords repnl slot.words (repnl.length - stored) chunk) = _
        rw [hpages]
        exact slices_append hlo hhi
      · exact hend.cons
    · -- nothing remains
      rw [if_neg hmore]
      have hall : stored + chunk = repnl.length := by
        have := hspec.2.2.1
        omega
      refine ⟨?_, ?_, ?_, repnl.length, Nat.le_of_lt hlt, Nat.le_refl _, ?_, ?_⟩
      · intro v hv
        rw [List.mem_singleton.1 hv]
        exact hok _
      · intro v hv words hw
        rw [List.mem_singleton.1 hv] at hw ⊢
        cases hw
        exact ⟨hlen, hhead⟩
      · exact List.prefix_append [slot] rest
      · rw [filledPages_cons]
        show _ ++ recordPages (fillWords repnl slot.words (repnl.length - stored) chunk) = _
        rw [hpages, show repnl.length - stored - chunk = 0 by omega, Nat.sub_self,
          show repnl.length - stored = chunk by omega]
        rfl
      · exact decide_eq_true rfl

end Loop

/-! ## 6. The distribution -/

/-- The slots in the order of the iterator. -/
def turns (isLifo : Bool) (slots : List Slot) : List Slot := if isLifo then slots.reverse else slots

theorem perm_turns (isLifo : Bool) (slots : List Slot) : (turns isLifo slots).Perm slots := by
  cases isLifo with
  | false => exact List.Perm.refl slots
  | true => exact List.reverse_perm slots

theorem gcFillReturned_eq {isLifo : Bool} {ps : Nat} {repnl : List Nat} {s : Reserve}
    (htwo : 2 ≤ s.comeback.length) :
    gcFillReturned isLifo ps repnl s =
      fillLoop ps repnl (spread (sizeSub s.returnReservedHi repnl.length) s.returnReservedHi)
        (turns isLifo s.comeback) 0 (sizeSub s.returnReservedHi repnl.length) := by
  unfold gcFillReturned
  cases hc : s.comeback with
  | nil => rfl
  | cons first rest =>
    cases rest with
    | nil =>
      rw [hc] at htwo
      exact absurd htwo (by simp)
    | cons second rest => rfl

theorem filled_gcFillReturned (isLifo : Bool) (ps : Nat) {repnl : List Nat} {s : Reserve}
    (hpos : 0 < repnl.length) (hword : repnl.length < 2 ^ 32) (htwo : 2 ≤ s.comeback.length)
    (hcaps : ∀ slot ∈ s.comeback, 2 ≤ slot.chunkHi) (hsum : s.Counted)
    (hle : repnl.length ≤ s.returnReservedHi) :
    Filled ps repnl (spread (s.returnReservedHi - repnl.length) s.returnReservedHi)
      (turns isLifo s.comeback) 0 (gcFillReturned isLifo ps repnl s) := by
  have hcap : capacity (turns isLifo s.comeback) = s.returnReservedHi := by
    rw [hsum]
    exact ((perm_turns isLifo s.comeback).map Slot.chunkHi).sum_eq
  have hlt : s.returnReservedHi - repnl.length < s.returnReservedHi := by omega
  rw [gcFillReturned_eq htwo, sizeSub_of_le hle]
  apply fillLoop_filled (spread_factor hlt) hword
  · exact fun slot hs => hcaps slot ((perm_turns isLifo s.comeback).mem_iff.1 hs)
  · exact hpos
  · refine ⟨by omega, by omega, by omega, ?_⟩
    rw [show repnl.length - 0 + (s.returnReservedHi - repnl.length) = s.returnReservedHi by omega]
    exact scaled_spread_le hlt

/-- The slots never run out, every slot visited takes one page at least and no more than it holds,
the surplus covers every gap, and the records written are consecutive slices of the list from its
end: the whole list, unless a slot would be left with a page to spare and the update restarts. -/
theorem gcFillReturned_distributes (isLifo : Bool) (ps : Nat) (repnl : List Nat) (s : Reserve)
    (hpos : 0 < repnl.length) (hword : repnl.length < 2 ^ 32) (htwo : 2 ≤ s.comeback.length)
    (hcaps : ∀ slot ∈ s.comeback, 2 ≤ slot.chunkHi) (hsum : s.Counted)
    (hle : repnl.length ≤ s.returnReservedHi) :
    let r := gcFillReturned isLifo ps repnl s
    r.1 ≠ .problem ∧
      (∀ v ∈ r.2,
        VisitOk (spread (s.returnReservedHi - repnl.length) s.returnReservedHi) v) ∧
      (∀ v ∈ r.2, ∀ words, v.written = some words →
        words.length = v.slot.words.length ∧ words.headD 0 = v.chunk) ∧
      r.2.map Visit.slot <+: turns isLifo s.comeback ∧
      (r.1 = .success → filledPages r.2 = repnl) ∧
      (r.1 ≠ .success → r.1 = .resultTrue ∧ (∃ k, filledPages r.2 = repnl.drop k) ∧
        ∃ v, r.2.getLast? = some v ∧ v.written = none ∧
          ps ≤ 4 * v.slot.words.length - gcChunkBytes v.chunk) := by
  intro r
  have h := filled_gcFillReturned isLifo ps hpos hword htwo hcaps hsum hle
  obtain ⟨final, -, hhi, hpages, hend⟩ := h.pages
  have hdrop : filledPages r.2 = repnl.drop (repnl.length - final) := by
    show filledPages (gcFillReturned isLifo ps repnl s).2 = _
    rw [hpages]
    apply List.take_of_length_le
    rw [List.length_drop]
    omega
  have hend' : Ended ps r.2 (final = repnl.length) r.1 := hend
  refine ⟨?_, h.visits, h.records, h.order, ?_, ?_⟩
  · intro hrc
    rw [hrc] at hend'
    exact hend'
  · intro hrc
    rw [hrc] at hend'
    rw [hdrop, of_decide_eq_true hend', Nat.sub_self]
    rfl
  · intro hrc
    cases hr : r.1 with
    | success => exact absurd hr hrc
    | resultTrue =>
      rw [hr] at hend'
      exact ⟨rfl, ⟨_, hdrop⟩, hend'⟩
    | _ =>
      rw [hr] at hend'
      exact hend'.elim

/-- Two records for three pages each. -/
def twoSlots (words : Nat) : Reserve :=
  ⟨[], [⟨1, List.replicate words 0⟩, ⟨2, List.replicate words 0⟩], 0, 2 * (words - 1)⟩

theorem gcFillReturned_distributes_four :
    (gcFillReturned true 256 [9, 8, 7, 6] (twoSlots 4)).1 ≠ .problem ∧
      filledPages (gcFillReturned true 256 [9, 8, 7, 6] (twoSlots 4)).2 = [9, 8, 7, 6] := by
  have h := gcFillReturned_distributes true 256 [9, 8, 7, 6] (twoSlots 4) (by decide) (by decide)
    (by decide) (by decide) rfl (by decide)
  exact ⟨h.1, h.2.2.2.2.1 (by decide)⟩

/-- One page and a reserve that leaves a whole page free: nothing is written. -/
theorem gcFillReturned_restarts :
    (∀ slot ∈ (twoSlots 66).comeback, 2 ≤ slot.chunkHi) ∧ (twoSlots 66).Counted ∧
      1 ≤ (twoSlots 66).returnReservedHi ∧
      (gcFillReturned true 256 [7] (twoSlots 66)).1 = .resultTrue ∧
      filledPages (gcFillReturned true 256 [7] (twoSlots 66)).2 ≠ [7] := by
  refine ⟨by decide, rfl, by decide, by decide, by decide⟩

end Mdbx.Gc.Fill
