import Mdbx.Gc.StoreRetired

/-!
# Gc.Slices — what one slice holds

The records of a pass that saw no growth are the slices of one sorted list.  Here are the meaning of
a record, the invariant of the slices written so far and what one put does to it.
-/

namespace Mdbx.Gc

/-! ## 1. Records -/

/-- The page numbers of a GC record, which is a list with its length in the first word. -/
def recordPages (words : List Nat) : List Nat := words.tail.take (words.headD 0)

structure ValidRecord (words : List Nat) : Prop where
  fits : words.headD 0 < words.length
  descending : (recordPages words).Pairwise (· > ·)

/-- The page numbers under the `n` ids from `txnid` on. -/
def gcPages (u : Gcu) (gc : Nat → Option (List Nat)) (n : Nat) : List Nat :=
  (List.range' u.txnid n).flatMap fun id => recordPages ((gc id).getD [])

theorem setRecord_self (gc : Nat → Option (List Nat)) (id : Nat) (r : Option (List Nat)) :
    setRecord gc id r id = r := if_pos rfl

theorem setRecord_of_ne (gc : Nat → Option (List Nat)) {id i : Nat} (r : Option (List Nat))
    (h : i ≠ id) : setRecord gc id r i = gc i := if_neg h

theorem gcPages_succ (u : Gcu) (gc : Nat → Option (List Nat)) (n : Nat) :
    gcPages u gc (n + 1) = gcPages u gc n ++ recordPages ((gc (u.txnid + n)).getD []) := by
  unfold gcPages
  rw [List.range'_concat, List.flatMap_append]
  simp

theorem gcPages_congr (u : Gcu) {gc gc' : Nat → Option (List Nat)} {n : Nat}
    (h : ∀ id, u.txnid ≤ id → id < u.txnid + n → gc' id = gc id) :
    gcPages u gc' n = gcPages u gc n := by
  induction n with
  | zero => rfl
  | succ n ih =>
    rw [gcPages_succ, gcPages_succ, ih fun id hlo hhi => h id hlo (by omega),
      h (u.txnid + n) (by omega) (by omega)]

/-! ## 2. The words of a slice -/

theorem take_pnlWords (u : Gcu) (l : List Nat) {start chunk hi : Nat} (hhi : chunk ≤ hi)
    (hlen : start + chunk ≤ l.length) :
    ((List.range hi).map fun (k : Nat) => pnlWord u l ((start : Int) + 1 + k).toNat).take chunk =
      (l.drop start).take chunk := by
  apply List.ext_getElem
  · simp only [List.length_take, List.length_map, List.length_range, List.length_drop]
    omega
  · intro i h₁ h₂
    have hi' : i < chunk := by
      simp only [List.length_take] at h₁
      omega
    have hidx : ((start : Int) + 1 + (i : Int)).toNat = (start + i) + 1 := by omega
    have hget : start + i < l.length := by omega
    simp only [List.getElem_take, List.getElem_map, List.getElem_range, List.getElem_drop, hidx,
      pnlWord]
    rw [List.getD_eq_getElem?_getD, List.getElem?_eq_getElem hget]
    rfl

theorem sliceWords_eq (u : Gcu) {l : List Nat} {start chunk hi : Nat} (hhi : chunk ≤ hi)
    (hlen : start + chunk ≤ l.length) (hshort : l.length ≤ pagelistLimit) :
    ∃ words, sliceWords u l start chunk hi = some words ∧ words.headD 0 < words.length ∧
      recordPages words = (l.drop start).take chunk := by
  have hword : chunk % 2 ^ 32 = chunk := by
    apply Nat.mod_eq_of_lt
    unfold pagelistLimit at hshort
    omega
  have hin : ¬ ((start : Int) < -1) := by omega
  refine ⟨_, if_neg hin, ?_, ?_⟩
  · simp only [List.headD_cons, List.length_cons, List.length_map, List.length_range]
    omega
  · unfold recordPages
    simp only [List.headD_cons, List.tail_cons, hword]
    exact take_pnlWords u l hhi hlen

/-! ## 3. The slices so far -/

/-- The part of the sorted list that is stored when `stored` of its elements are: LIFO goes from the
front, FIFO from the back. -/
def storedPart (u : Gcu) (l : List Nat) (stored : Nat) : List Nat :=
  if u.lifo then l.take stored else l.drop (l.length - stored)

def sliceStart (u : Gcu) (l : List Nat) (stored chunk : Nat) : Nat :=
  if u.lifo then stored else l.length - stored - chunk

theorem storedPart_add (u : Gcu) {l : List Nat} {stored chunk : Nat}
    (h : stored + chunk ≤ l.length) :
    (storedPart u l stored ++ (l.drop (sliceStart u l stored chunk)).take chunk).Perm
      (storedPart u l (stored + chunk)) := by
  unfold storedPart sliceStart
  by_cases hl : u.lifo = true
  · rw [if_pos hl, if_pos hl, if_pos hl, ← List.take_add]
  · rw [if_neg hl, if_neg hl, if_neg hl]
    have hat : l.length - (stored + chunk) = l.length - stored - chunk := by omega
    have hnext : l.length - stored = (l.length - stored - chunk) + chunk := by omega
    have hsplit := List.take_append_drop chunk (l.drop (l.length - stored - chunk))
    rw [List.drop_drop, ← hnext] at hsplit
    rw [hat]
    conv_rhs => rw [← hsplit]
    exact List.perm_append_comm

theorem storedPart_length (u : Gcu) (l : List Nat) : storedPart u l l.length = l := by
  unfold storedPart
  split_ifs <;> simp

/-- The ids below `bigfoot` hold the stored part of the list `l`. -/
structure Sliced (u : Gcu) (l : List Nat) (s : State) : Prop where
  retired : s.retired = l
  stored : s.retiredStored ≤ l.length
  foot : u.txnid ≤ s.bigfoot
  records : ∀ id, u.txnid ≤ id → id < s.bigfoot → ∃ words, s.gc id = some words ∧ ValidRecord words
  pages : (gcPages u s.gc (s.bigfoot - u.txnid)).Perm (storedPart u l s.retiredStored)

structure Faithful (u : Gcu) (s : State) : Prop where
  records : ∀ id, u.txnid ≤ id → id ≤ s.bigfoot → ∃ words, s.gc id = some words ∧ ValidRecord words
  pages : (gcPages u s.gc (s.bigfoot + 1 - u.txnid)).Perm s.retired

theorem Sliced.faithful {u : Gcu} {l : List Nat} {s : State}
    (h : Sliced u l { s with bigfoot := s.bigfoot + 1 }) (hall : s.retiredStored = l.length) :
    Faithful u s where
  records := fun id hlo hhi => h.records id hlo (Nat.lt_succ_of_le hhi)
  pages := by
    have hp := h.pages
    have hr : s.retired = l := h.retired
    change (gcPages u s.gc (s.bigfoot + 1 - u.txnid)).Perm (storedPart u l s.retiredStored) at hp
    rw [hall, storedPart_length] at hp
    rw [hr]
    exact hp

-- One more record at `bigfoot` and the slice grows.
theorem Sliced.put {u : Gcu} {l : List Nat} {s s' : State} {words : List Nat} {chunk : Nat}
    (h : Sliced u l s) (hdesc : l.Pairwise (· > ·)) (hfit : s.retiredStored + chunk ≤ l.length)
    (hlen : words.headD 0 < words.length)
    (hwords : recordPages words = (l.drop (sliceStart u l s.retiredStored chunk)).take chunk)
    (hr : s'.retired = l) (hs : s'.retiredStored = s.retiredStored + chunk)
    (hb : s'.bigfoot = s.bigfoot + 1) (hself : s'.gc s.bigfoot = some words)
    (hgc : ∀ id, id ≠ s.bigfoot → s'.gc id = s.gc id) : Sliced u l s' where
  retired := hr
  stored := by omega
  foot := by
    have := h.foot
    omega
  records := by
    intro id hlo hhi
    by_cases hid : id = s.bigfoot
    · subst hid
      refine ⟨words, hself, hlen, ?_⟩
      rw [hwords]
      exact (hdesc.sublist (List.drop_sublist _ _)).sublist (List.take_sublist _ _)
    · rw [hgc id hid]
      exact h.records id hlo (by omega)
  pages := by
    have hfoot := h.foot
    have hn : s'.bigfoot - u.txnid = (s.bigfoot - u.txnid) + 1 := by omega
    have hid : u.txnid + (s.bigfoot - u.txnid) = s.bigfoot := by omega
    have hold : gcPages u s'.gc (s.bigfoot - u.txnid) = gcPages u s.gc (s.bigfoot - u.txnid) :=
      gcPages_congr u fun id _ hhi => hgc id (by omega)
    rw [hn, gcPages_succ, hid, hself, hold, hs]
    simp only [Option.getD_some, hwords]
    exact (h.pages.append_right _).trans (storedPart_add u hfit)

end Mdbx.Gc
