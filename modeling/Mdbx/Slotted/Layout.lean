import Mathlib.Algebra.BigOperators.Group.List.Basic
import Mdbx.Lib.Extents
import Mdbx.Slotted.Model

/-!
# Slotted.Layout — pages that are well formed, and what they hold

A page holds the items that its entries point to.  In a well-formed page the nodes lie apart between
the free room and the end of the page, and together they leave nothing else there.
-/

namespace Mdbx.Slotted

open Node ByteMemory Extents

variable {m m' : Mem} {p space : Nat}

/-! ## 1. Items -/

/-- A node: the word is the size of the data or the number of the child. -/
structure Item where
  word : Nat
  flags : Nat
  key : List UInt8
  data : List UInt8
  deriving DecidableEq, Repr

def Item.bytes (x : Item) : Nat := evenCeil (nodeHdrSz + x.key.length + x.data.length)

def itemAt (m : Mem) (leaf : Bool) (node : Nat) : Item :=
  ⟨peek m node 4, nodeFlags m node, ByteMemory.bytes m (nodeKey node) (nodeKs m node),
    ByteMemory.bytes m (nodeData m node) (dataBytes m leaf node)⟩

def items (m : Mem) (p : Nat) : List Item :=
  (List.range (pageNumkeys m p)).map fun i => itemAt m (isLeaf m p) (pageNode m p i)

/-- How many bytes the `i`-th node takes. -/
def sizeAt (m : Mem) (p i : Nat) : Nat := nodeBytes m (isLeaf m p) (pageNode m p i)

@[simp] theorem length_items (m : Mem) (p : Nat) : (items m p).length = pageNumkeys m p := by
  rw [items, List.length_map, List.length_range]

theorem getElem_items {i : Nat} (h : i < (items m p).length) :
    (items m p)[i] = itemAt m (isLeaf m p) (pageNode m p i) := by
  simp only [items, List.getElem_map, List.getElem_range]

theorem itemAt_bytes (m : Mem) (leaf : Bool) (node : Nat) :
    (itemAt m leaf node).bytes = nodeBytes m leaf node := by
  unfold Item.bytes itemAt nodeBytes
  rw [length_bytes, length_bytes]

theorem nodeBytes_bounds (m : Mem) (leaf : Bool) (node : Nat) :
    8 + nodeKs m node + dataBytes m leaf node ≤ nodeBytes m leaf node ∧
      nodeBytes m leaf node % 2 = 0 := by
  have h := evenCeil_bounds (nodeHdrSz + nodeKs m node + dataBytes m leaf node)
  refine ⟨h.1, evenCeil_even _⟩

theorem sizeAt_pos (m : Mem) (p i : Nat) : 0 < sizeAt m p i := by
  have h := (nodeBytes_bounds m (isLeaf m p) (pageNode m p i)).1
  unfold sizeAt
  omega

/-- Nodes with the same bytes are the same item. -/
theorem itemAt_congr {leaf : Bool} {a b : Nat} (h : Agree m m' a b (nodeBytes m leaf a)) :
    itemAt m' leaf b = itemAt m leaf a ∧ nodeBytes m' leaf b = nodeBytes m leaf a := by
  have hle := (nodeBytes_bounds m leaf a).1
  have hword : peek m' b 4 = peek m a 4 := (h.mono (by omega)).peek
  have hflags : nodeFlags m' b = nodeFlags m a := (h.part (by omega)).peek
  have hks : nodeKs m' b = nodeKs m a := (h.part (by omega)).peek
  have hdata : dataBytes m' leaf b = dataBytes m leaf a := by
    unfold dataBytes nodeDs
    rw [hflags, hword]
  have hkey : ByteMemory.bytes m' (nodeKey b) (nodeKs m a) =
      ByteMemory.bytes m (nodeKey a) (nodeKs m a) := by
    have hpart := h.part (d := 8) (k := nodeKs m a) (by omega)
    exact hpart.bytes
  have hval : ByteMemory.bytes m' (nodeKey b + nodeKs m a) (dataBytes m leaf a) =
      ByteMemory.bytes m (nodeKey a + nodeKs m a) (dataBytes m leaf a) := by
    have hpart := h.part (d := 8 + nodeKs m a) (k := dataBytes m leaf a) hle
    unfold nodeKey nodeHdrSz
    rw [Nat.add_assoc, Nat.add_assoc]
    exact hpart.bytes
  constructor
  · unfold itemAt nodeData
    rw [hword, hflags, hks, hdata, hkey, hval]
  · unfold nodeBytes
    rw [hks, hdata]

/-! ## 2. Fields -/

theorem setEntry_outside {i v a : Nat} (h : a < p + 20 + 2 * i ∨ p + 22 + 2 * i ≤ a) :
    setEntry m p i v a = m a := poke_outside (by unfold pageHdrSz indxSz; omega)

theorem entry_of_agree {i : Nat} (h : ∀ a, p + 20 + 2 * i ≤ a → a < p + 22 + 2 * i → m' a = m a) :
    entry m' p i = entry m p i := by
  have hagree : Agree m m' (p + pageHdrSz + indxSz * i) (p + pageHdrSz + indxSz * i) indxSz := by
    intro d hd
    unfold pageHdrSz indxSz at *
    exact h _ (by omega) (by omega)
  exact hagree.peek

theorem entry_lt (m : Mem) (p i : Nat) : entry m p i < 65536 := peek_lt m _ 2

theorem entry_setEntry (m : Mem) (p i : Nat) {v : Nat} (hv : v < 65536) :
    entry (setEntry m p i v) p i = v := (peek_poke _ _ _ _).trans (Nat.mod_eq_of_lt hv)

theorem entry_setEntry_ne {i j v : Nat} (hne : j ≠ i) : entry (setEntry m p i v) p j = entry m p j :=
  entry_of_agree fun a h₁ h₂ => setEntry_outside (by omega)

theorem lower_of_agree (h : ∀ a, p + 12 ≤ a → a < p + 14 → m' a = m a) : lower m' p = lower m p := by
  have hagree : Agree m m' (p + 12) (p + 12) 2 := fun d hd => h _ (by omega) (by omega)
  exact hagree.peek

theorem upper_of_agree (h : ∀ a, p + 14 ≤ a → a < p + 16 → m' a = m a) : upper m' p = upper m p := by
  have hagree : Agree m m' (p + 14) (p + 14) 2 := fun d hd => h _ (by omega) (by omega)
  exact hagree.peek

theorem lower_lt (m : Mem) (p : Nat) : lower m p < 65536 := peek_lt m _ 2

theorem upper_lt (m : Mem) (p : Nat) : upper m p < 65536 := peek_lt m _ 2

theorem lower_setLower (m : Mem) (p : Nat) {v : Nat} (hv : v < 65536) :
    lower (setLower m p v) p = v := (peek_poke _ _ _ _).trans (Nat.mod_eq_of_lt hv)

theorem upper_setUpper (m : Mem) (p : Nat) {v : Nat} (hv : v < 65536) :
    upper (setUpper m p v) p = v := (peek_poke _ _ _ _).trans (Nat.mod_eq_of_lt hv)

theorem setLower_outside {v a : Nat} (h : a < p + 12 ∨ p + 14 ≤ a) : setLower m p v a = m a :=
  poke_outside h

theorem setUpper_outside {v a : Nat} (h : a < p + 14 ∨ p + 16 ≤ a) : setUpper m p v a = m a :=
  poke_outside h

/-! ## 3. Pages -/

structure Formed (m : Mem) (p space : Nat) : Prop where
  plain : isDupfixLeaf m p = false
  small : space < 65536
  numkeys : lower m p % 2 = 0
  room : lower m p ≤ upper m p
  even : upper m p % 2 = 0
  aligned : ∀ i < pageNumkeys m p, entry m p i % 2 = 0
  placed : Placed (pageNumkeys m p) (upper m p) space (entry m p) (sizeAt m p)
  full : ((items m p).map Item.bytes).sum + upper m p = space

theorem Formed.lower_eq (h : Formed m p space) : lower m p = 2 * pageNumkeys m p := by
  have := h.numkeys
  unfold pageNumkeys
  omega

theorem Formed.upper_le (h : Formed m p space) : upper m p ≤ space := h.placed.le

theorem Formed.upper_lt (h : Formed m p space) : upper m p < 65536 :=
  Nat.lt_of_le_of_lt h.upper_le h.small

/-- Used bytes are those of the items and of their entries. -/
theorem Formed.room_eq (h : Formed m p space) : pageRoom m p +
    (((items m p).map Item.bytes).sum + indxSz * (items m p).length) = space := by
  have hlow := h.lower_eq
  have hroom := h.room
  have hfull := h.full
  rw [length_items]
  unfold pageRoom indxSz
  omega

/-- What a change of a page leaves as it was. -/
structure Framed (m m' : Mem) (p space : Nat) : Prop where
  outside : ∀ a, a < p + 12 ∨ p + pageHdrSz + space ≤ a → m' a = m a
  pgno : ∀ a, p + 16 ≤ a → a < p + pageHdrSz → m' a = m a

theorem Framed.header (h : Framed m m' p space) : isLeaf m' p = isLeaf m p ∧
    isDupfixLeaf m' p = isDupfixLeaf m p ∧ dupfixKsize m' p = dupfixKsize m p := by
  have hflags : pageFlags m' p = pageFlags m p := by
    have hagree : Agree m m' (p + 10) (p + 10) 2 := fun i hi => h.outside _ (by omega)
    exact hagree.peek
  have hksize : Agree m m' (p + 8) (p + 8) 2 := fun i hi => h.outside _ (by omega)
  unfold isLeaf isDupfixLeaf
  rw [hflags]
  exact ⟨rfl, rfl, hksize.peek⟩

theorem Framed.refl (m : Mem) (p space : Nat) : Framed m m p space := ⟨fun _ _ => rfl, fun _ _ _ => rfl⟩

theorem Framed.trans {m'' : Mem} (h : Framed m m' p space) (h' : Framed m' m'' p space) :
    Framed m m'' p space :=
  ⟨fun a ha => (h'.outside a ha).trans (h.outside a ha),
    fun a h1 h2 => (h'.pgno a h1 h2).trans (h.pgno a h1 h2)⟩

/-! ## 4. A node goes in -/

/-- The page as it is behind an addition: the entries make room for one that points below the other
nodes, which stay where they are. -/
structure Inserted (m m' : Mem) (p space k bytes : Nat) : Prop where
  framed : Framed m m' p space
  lower_eq : lower m' p = lower m p + 2
  upper_eq : upper m' p + bytes = upper m p
  low : ∀ i < k, entry m' p i = entry m p i
  new : entry m' p k = upper m' p
  high : ∀ i, k < i → i ≤ pageNumkeys m p → entry m' p i = entry m p (i - 1)
  kept : ∀ a, p + pageHdrSz + upper m p ≤ a → m' a = m a

variable {k bytes : Nat}

theorem Inserted.old (h : Inserted m m' p space k bytes) (hf : Formed m p space) {i j : Nat}
    (hj : j < pageNumkeys m p) (he : entry m' p i = entry m p j) :
    itemAt m' (isLeaf m' p) (pageNode m' p i) = itemAt m (isLeaf m p) (pageNode m p j) ∧
      sizeAt m' p i = sizeAt m p j := by
  have hin := hf.placed.inside j hj
  have hagree : Agree m m' (pageNode m p j) (pageNode m' p i)
      (nodeBytes m (isLeaf m p) (pageNode m p j)) := by
    intro d _
    unfold pageNode at *
    rw [he]
    exact h.kept _ (by omega)
  unfold sizeAt
  rw [h.framed.header.1]
  exact itemAt_congr hagree

theorem Inserted.items_eq (h : Inserted m m' p space k bytes) (hf : Formed m p space)
    (hk : k ≤ pageNumkeys m p) :
    items m' p = (items m p).insertIdx k
      (itemAt m' (isLeaf m p) (pageNode m' p k)) := by
  have hn : pageNumkeys m' p = pageNumkeys m p + 1 := by
    have hl := h.lower_eq
    unfold pageNumkeys
    omega
  apply List.ext_getElem
  · rw [length_items, List.length_insertIdx_of_le_length (by rwa [length_items]), length_items, hn]
  · intro i h₁ h₂
    rw [getElem_items]
    rw [length_items, hn] at h₁
    rcases Nat.lt_trichotomy i k with hlt | rfl | hgt
    · rw [List.getElem_insertIdx_of_lt hlt, getElem_items]
      exact (h.old hf (by omega) (h.low i hlt)).1
    · rw [List.getElem_insertIdx_self, h.framed.header.1]
    · rw [List.getElem_insertIdx_of_gt hgt, getElem_items]
      exact (h.old hf (by omega) (h.high i hgt (by omega))).1

theorem Inserted.formed (h : Inserted m m' p space k bytes) (hf : Formed m p space)
    (hk : k ≤ pageNumkeys m p) (hsize : sizeAt m' p k = bytes)
    (hroom : lower m p + 2 + bytes ≤ upper m p) : Formed m' p space := by
  have hl := h.lower_eq
  have hu := h.upper_eq
  have hnum := hf.numkeys
  have hn : pageNumkeys m' p = pageNumkeys m p + 1 := by
    unfold pageNumkeys
    omega
  have heven : bytes % 2 = 0 := by
    rw [← hsize]
    exact (nodeBytes_bounds _ _ _).2
  have hevenu := hf.even
  have hub : upper m' p = upper m p - bytes := by omega
  refine ⟨h.framed.header.2.1.trans hf.plain, hf.small, by omega, by omega, by omega, ?_, ?_, ?_⟩
  · intro i hi
    rcases Nat.lt_trichotomy i k with hlt | rfl | hgt
    · rw [h.low i hlt]
      exact hf.aligned i (by omega)
    · rw [h.new]
      omega
    · rw [h.high i hgt (by omega)]
      exact hf.aligned (i - 1) (by omega)
  · rw [hn, hub]
    have hlow : ∀ i < k, entry m' p i = entry m p i ∧ sizeAt m' p i = sizeAt m p i :=
      fun i hi => ⟨h.low i hi, (h.old hf (by omega) (h.low i hi)).2⟩
    refine hf.placed.insert (by omega) ⟨h.new.trans hub, hsize⟩ hlow (fun i hi hle => ?_) hk
    have he := h.high i hi hle
    exact ⟨he, (h.old hf (by omega) he).2⟩
  · have hfull := hf.full
    have hlen : k ≤ (items m p).length := by
      rw [length_items]
      exact hk
    have hperm := (List.perm_insertIdx (itemAt m' (isLeaf m p) (pageNode m' p k)) (items m p)
      hlen).map Item.bytes
    rw [h.items_eq hf hk, hperm.sum_eq, List.map_cons, List.sum_cons, itemAt_bytes]
    unfold sizeAt at hsize
    rw [h.framed.header.1] at hsize
    omega

/-! ## 5. A node loses its front, or all of it -/

/-- The nodes below the `k`-th, and what is left of it, slide up by `cut`. -/
structure Slid (m m' : Mem) (p space k cut : Nat) : Prop where
  framed : Framed m m' p space
  upper_eq : upper m' p = upper m p + cut
  moved : ∀ a, p + pageHdrSz + upper m p ≤ a → a < p + pageHdrSz + entry m p k → m' (a + cut) = m a
  kept : ∀ a, p + pageHdrSz + entry m p k + sizeAt m p k ≤ a → m' a = m a

variable {cut : Nat}

theorem Slid.old (h : Slid m m' p space k cut) (hf : Formed m p space) {i j : Nat}
    (hk : k < pageNumkeys m p) (hj : j < pageNumkeys m p) (hne : j ≠ k)
    (he : entry m' p i = if entry m p j < entry m p k then entry m p j + cut else entry m p j) :
    itemAt m' (isLeaf m' p) (pageNode m' p i) = itemAt m (isLeaf m p) (pageNode m p j) ∧
      sizeAt m' p i = sizeAt m p j := by
  have hin := hf.placed.inside j hj
  have hapart := hf.placed.apart j hj k hk hne
  have hpos := sizeAt_pos m p k
  have hagree : Agree m m' (pageNode m p j) (pageNode m' p i) (sizeAt m p j) := by
    intro d hd
    unfold pageNode
    rw [he]
    split_ifs with hlt
    · have hmoved := h.moved (p + entry m p j + pageHdrSz + d) (by omega) (by omega)
      rw [← hmoved]
      congr 1
      omega
    · exact h.kept _ (by omega)
  unfold sizeAt
  rw [h.framed.header.1]
  exact itemAt_congr hagree

/-- The page as it is behind a deletion. -/
structure Removed (m m' : Mem) (p space k : Nat) : Prop extends
    Slid m m' p space k (sizeAt m p k) where
  lower_eq : lower m' p + 2 = lower m p
  slots : ∀ i, i + 1 < pageNumkeys m p → entry m' p i =
    let offset := entry m p (if i < k then i else i + 1)
    if offset < entry m p k then offset + sizeAt m p k else offset

theorem Removed.numkeys (h : Removed m m' p space k) :
    pageNumkeys m' p + 1 = pageNumkeys m p := by
  have hl := h.lower_eq
  unfold pageNumkeys
  omega

theorem Removed.old (h : Removed m m' p space k) (hf : Formed m p space)
    (hk : k < pageNumkeys m p) {i : Nat} (hi : i + 1 < pageNumkeys m p) :
    itemAt m' (isLeaf m' p) (pageNode m' p i) =
        itemAt m (isLeaf m p) (pageNode m p (if i < k then i else i + 1)) ∧
      sizeAt m' p i = sizeAt m p (if i < k then i else i + 1) :=
  h.toSlid.old hf hk (by split_ifs <;> omega) (by split_ifs <;> omega) (h.slots i hi)

theorem Removed.items_eq (h : Removed m m' p space k) (hf : Formed m p space)
    (hk : k < pageNumkeys m p) : items m' p = (items m p).eraseIdx k := by
  have hn := h.numkeys
  apply List.ext_getElem
  · rw [length_items, List.length_eraseIdx_of_lt (by rw [length_items]; exact hk), length_items]
    omega
  · intro i h₁ h₂
    rw [getElem_items, List.getElem_eraseIdx]
    rw [length_items] at h₁
    have hold := (h.old hf hk (i := i) (by omega)).1
    rw [hold]
    by_cases hlt : i < k
    · rw [dif_pos hlt, if_pos hlt, getElem_items]
    · rw [dif_neg hlt, if_neg hlt, getElem_items]

theorem Removed.formed (h : Removed m m' p space k) (hf : Formed m p space)
    (hk : k < pageNumkeys m p) : Formed m' p space := by
  have hl := h.lower_eq
  have hu := h.upper_eq
  have hn := h.numkeys
  have hnum := hf.numkeys
  have hroom := hf.room
  have hevenu := hf.even
  have hevens : sizeAt m p k % 2 = 0 := (nodeBytes_bounds _ _ _).2
  refine ⟨h.framed.header.2.1.trans hf.plain, hf.small, by omega, by omega, by omega, ?_, ?_, ?_⟩
  · intro i hi
    have hj := hf.aligned (if i < k then i else i + 1) (by split_ifs <;> omega)
    rw [h.slots i (by omega)]
    simp only
    split_ifs at hj ⊢ <;> omega
  · have hcut : Placed (pageNumkeys m p) (upper m p + sizeAt m p k) space
        (fun j => if entry m p j ≤ entry m p k then entry m p j + sizeAt m p k else entry m p j)
        (fun j => if j = k then sizeAt m p j - sizeAt m p k else sizeAt m p j) :=
      hf.placed.cut hk (Nat.le_refl _) (fun i _ => sizeAt_pos m p i) (fun _ _ => rfl) fun _ _ => rfl
    have hrest := hcut.reindex (k := pageNumkeys m' p) (fun i => if i < k then i else i + 1)
      (fun i hi => by split_ifs <;> omega) (fun i hi j hj hne => by split_ifs <;> omega)
    rw [hu]
    refine hrest.congr fun i hi => ?_
    have hjn : (if i < k then i else i + 1) < pageNumkeys m p := by split_ifs <;> omega
    have hjk : (if i < k then i else i + 1) ≠ k := by split_ifs <;> omega
    have hapart := hf.placed.apart _ hjn k hk hjk
    have hpos := sizeAt_pos m p k
    have hpos' := sizeAt_pos m p (if i < k then i else i + 1)
    refine ⟨?_, ?_⟩
    · rw [h.slots i (by omega)]
      simp only [Function.comp_apply]
      generalize (if i < k then i else i + 1) = j at *
      split_ifs <;> omega
    · rw [(h.old hf hk (by omega)).2]
      simp only [Function.comp_apply]
      rw [if_neg hjk]
  · have hfull := hf.full
    have hlen : k < (items m p).length := by
      rw [length_items]
      exact hk
    have hsum := ((List.getElem_cons_eraseIdx_perm hlen).map Item.bytes).sum_eq
    rw [List.map_cons, List.sum_cons, getElem_items, itemAt_bytes] at hsum
    rw [h.items_eq hf hk]
    unfold sizeAt at hu
    omega

/-- The page as it is when a node has given up its front. -/
theorem Slid.shrunk (h : Slid m m' p space k cut) (hf : Formed m p space)
    (hk : k < pageNumkeys m p) (hlower : lower m' p = lower m p)
    (hslots : ∀ i < pageNumkeys m p, entry m' p i =
      if entry m p i ≤ entry m p k then entry m p i + cut else entry m p i)
    (hcut : cut < sizeAt m p k) (heven : cut % 2 = 0)
    (hsize : sizeAt m' p k + cut = sizeAt m p k) :
    Formed m' p space ∧ items m' p =
      (items m p).set k (itemAt m' (isLeaf m p) (pageNode m' p k)) := by
  have hu := h.upper_eq
  have hroom := hf.room
  have hevenu := hf.even
  have hnum : pageNumkeys m' p = pageNumkeys m p := by
    unfold pageNumkeys
    rw [hlower]
  have hold : ∀ i < pageNumkeys m p, i ≠ k →
      itemAt m' (isLeaf m' p) (pageNode m' p i) = itemAt m (isLeaf m p) (pageNode m p i) ∧
        sizeAt m' p i = sizeAt m p i := by
    intro i hi hne
    refine h.old hf hk hi hne ?_
    have hapart := hf.placed.apart i hi k hk hne
    have hpos := sizeAt_pos m p i
    rw [hslots i hi]
    split_ifs <;> omega
  have hitems : items m' p = (items m p).set k (itemAt m' (isLeaf m p) (pageNode m' p k)) := by
    apply List.ext_getElem
    · rw [length_items, List.length_set, length_items, hnum]
    · intro i h₁ h₂
      rw [length_items, hnum] at h₁
      rw [getElem_items, List.getElem_set]
      by_cases hik : k = i
      · subst hik
        rw [if_pos rfl, h.framed.header.1]
      · rw [if_neg hik, getElem_items]
        exact (hold i h₁ (Ne.symm hik)).1
  refine ⟨⟨h.framed.header.2.1.trans hf.plain, hf.small, ?_, by omega, by omega, ?_, ?_, ?_⟩, hitems⟩
  · rw [hlower]
    exact hf.numkeys
  · intro i hi
    rw [hnum] at hi
    have haligned := hf.aligned i hi
    rw [hslots i hi]
    split_ifs <;> omega
  · rw [hnum, hu]
    refine hf.placed.cut hk (Nat.le_of_lt hcut) (fun i _ => sizeAt_pos m p i) hslots fun i hi => ?_
    by_cases hik : i = k
    · subst hik
      rw [if_pos rfl]
      omega
    · rw [if_neg hik]
      exact (hold i hi hik).2
  · have hfull := hf.full
    have hlen : k < (items m p).length := by
      rw [length_items]
      exact hk
    -- the other items weigh what they weighed
    have hbefore := ((List.getElem_cons_eraseIdx_perm hlen).map Item.bytes).sum_eq
    have hafter := ((List.set_perm_cons_eraseIdx hlen
      (itemAt m' (isLeaf m p) (pageNode m' p k))).map Item.bytes).sum_eq
    rw [List.map_cons, List.sum_cons, getElem_items, itemAt_bytes] at hbefore
    rw [List.map_cons, List.sum_cons, itemAt_bytes] at hafter
    unfold sizeAt at hsize
    rw [h.framed.header.1] at hsize
    rw [hitems, hafter]
    omega

/-! ## 6. A node is rewritten in its place -/

/-- The new state of a page, and the list that it holds. -/
structure Holds (m m' : Mem) (p space : Nat) (xs : List Item) : Prop where
  framed : Framed m m' p space
  formed : Formed m' p space
  items_eq : items m' p = xs

/-- A node that keeps its size may be changed in any way. -/
theorem Formed.rewrite (m' : Mem) (hf : Formed m p space) (hk : k < pageNumkeys m p)
    (hout : ∀ a, a < pageNode m p k ∨ pageNode m p k + sizeAt m p k ≤ a → m' a = m a)
    (hsize : nodeBytes m' (isLeaf m p) (pageNode m p k) = sizeAt m p k) :
    Holds m m' p space ((items m p).set k (itemAt m' (isLeaf m p) (pageNode m p k))) := by
  have hin := hf.placed.inside k hk
  have hlow := hf.lower_eq
  have hroom := hf.room
  have hnode : pageNode m p k = p + entry m p k + 20 := rfl
  have hbefore : ∀ a, a < p + 20 + upper m p → m' a = m a := fun a ha => hout a (by omega)
  have hframed : Framed m m' p space := by
    refine ⟨fun a ha => hout a ?_, fun a h₁ h₂ => hbefore a ?_⟩ <;> unfold pageHdrSz at * <;> omega
  have hlower : lower m' p = lower m p := lower_of_agree fun a _ _ => hbefore a (by omega)
  have hupper : upper m' p = upper m p := upper_of_agree fun a _ _ => hbefore a (by omega)
  have hnum : pageNumkeys m' p = pageNumkeys m p := by
    unfold pageNumkeys
    rw [hlower]
  have hentry : ∀ i < pageNumkeys m p, entry m' p i = entry m p i := fun i hi =>
    entry_of_agree fun a _ _ => hbefore a (by omega)
  have hold : ∀ i < pageNumkeys m p, i ≠ k →
      itemAt m' (isLeaf m' p) (pageNode m' p i) = itemAt m (isLeaf m p) (pageNode m p i) ∧
        sizeAt m' p i = sizeAt m p i := by
    intro i hi hne
    have hapart := hf.placed.apart i hi k hk hne
    have hagree : Agree m m' (pageNode m p i) (pageNode m' p i) (sizeAt m p i) := by
      intro d hd
      unfold pageNode at *
      rw [hentry i hi]
      exact hout _ (by unfold pageHdrSz; omega)
    unfold sizeAt
    rw [hframed.header.1]
    exact itemAt_congr hagree
  have hnew : pageNode m' p k = pageNode m p k := by
    unfold pageNode
    rw [hentry k hk]
  have hsizes : ∀ i < pageNumkeys m p, sizeAt m' p i = sizeAt m p i := by
    intro i hi
    by_cases hik : i = k
    · subst hik
      unfold sizeAt at hsize ⊢
      rw [hframed.header.1, hnew, hsize]
    · exact (hold i hi hik).2
  have hitems : items m' p = (items m p).set k (itemAt m' (isLeaf m p) (pageNode m p k)) := by
    apply List.ext_getElem
    · rw [length_items, List.length_set, length_items, hnum]
    · intro i h₁ h₂
      rw [length_items, hnum] at h₁
      rw [getElem_items, List.getElem_set]
      by_cases hik : k = i
      · subst hik
        rw [if_pos rfl, hframed.header.1, hnew]
      · rw [if_neg hik, getElem_items]
        exact (hold i h₁ (Ne.symm hik)).1
  refine ⟨hframed, ⟨hframed.header.2.1.trans hf.plain, hf.small, ?_, ?_, ?_, ?_, ?_, ?_⟩, hitems⟩
  · rw [hlower]
    exact hf.numkeys
  · rw [hlower, hupper]
    exact hf.room
  · rw [hupper]
    exact hf.even
  · intro i hi
    rw [hnum] at hi
    rw [hentry i hi]
    exact hf.aligned i hi
  · rw [hnum, hupper]
    exact hf.placed.congr fun i hi => ⟨hentry i hi, hsizes i hi⟩
  · have hmap : (items m' p).map Item.bytes = (items m p).map Item.bytes := by
      apply List.ext_getElem
      · rw [List.length_map, List.length_map, length_items, length_items, hnum]
      · intro i h₁ h₂
        rw [List.length_map, length_items] at h₂
        rw [List.getElem_map, List.getElem_map, getElem_items, getElem_items, itemAt_bytes,
          itemAt_bytes]
        exact hsizes i h₂
    rw [hmap, hupper]
    exact hf.full

/-! ## 7. A page is put elsewhere -/

/-- The page at `p` lies at `q`, with another length of free room: what is added to the places of its
nodes is `up`, less `down`. -/
structure Transplanted (m m' : Mem) (p q space up down : Nat) : Prop where
  leaf : isLeaf m' q = isLeaf m p
  plain : isDupfixLeaf m' q = isDupfixLeaf m p
  lower_eq : lower m' q = lower m p
  upper_eq : upper m' q + down = upper m p + up
  slots : ∀ i < pageNumkeys m p, entry m' q i + down = entry m p i + up
  nodes : ∀ d d', d' + down = d + up → upper m p ≤ d → d < space →
    m' (q + pageHdrSz + d') = m (p + pageHdrSz + d)

theorem Transplanted.formed {q space' up down : Nat} (h : Transplanted m m' p q space up down)
    (hf : Formed m p space) (hspace : space' + down = space + up) (hsmall : space' < 65536)
    (heven : up % 2 = 0 ∧ down % 2 = 0) (hroom : lower m p + down ≤ upper m p + up) :
    Formed m' q space' ∧ items m' q = items m p := by
  have hu := h.upper_eq
  have hnum : pageNumkeys m' q = pageNumkeys m p := by
    unfold pageNumkeys
    rw [h.lower_eq]
  have hold : ∀ i < pageNumkeys m p,
      itemAt m' (isLeaf m' q) (pageNode m' q i) = itemAt m (isLeaf m p) (pageNode m p i) ∧
        sizeAt m' q i = sizeAt m p i := by
    intro i hi
    have hin := hf.placed.inside i hi
    have hslot := h.slots i hi
    have hagree : Agree m m' (pageNode m p i) (pageNode m' q i) (sizeAt m p i) := by
      intro d hd
      unfold pageNode
      have hnode := h.nodes (entry m p i + d) (entry m' q i + d) (by omega) (by omega) (by omega)
      have ha : q + entry m' q i + pageHdrSz + d = q + pageHdrSz + (entry m' q i + d) := by omega
      have hb : p + entry m p i + pageHdrSz + d = p + pageHdrSz + (entry m p i + d) := by omega
      rw [ha, hb]
      exact hnode
    unfold sizeAt
    rw [h.leaf]
    exact itemAt_congr hagree
  have hitems : items m' q = items m p := by
    apply List.ext_getElem
    · rw [length_items, length_items, hnum]
    · intro i h₁ h₂
      rw [length_items] at h₂
      rw [getElem_items, getElem_items]
      exact (hold i h₂).1
  have hevenu := hf.even
  refine ⟨⟨h.plain.trans hf.plain, hsmall, ?_, ?_, by omega, ?_, ?_, ?_⟩, hitems⟩
  · rw [h.lower_eq]
    exact hf.numkeys
  · rw [h.lower_eq]
    omega
  · intro i hi
    rw [hnum] at hi
    have hslot := h.slots i hi
    have haligned := hf.aligned i hi
    omega
  · rw [hnum]
    exact (hf.placed.transplant hu hspace h.slots).congr fun i hi => ⟨rfl, (hold i hi).2⟩
  · have hfull := hf.full
    rw [hitems]
    omega

end Mdbx.Slotted
