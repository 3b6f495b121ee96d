import Mdbx.Slotted.Moves

/-!
# Slotted.Dups — the values of a key in a sub-page

What `cursor_put` and `cursor_del` do with a sub-page: a value goes in where there is room, or the
sub-page is grown in a buffer and its node replaced; a value goes out and the node is shrunk.  For the
outer page each of it is the change of one item.
-/

namespace Mdbx.Slotted

open Node ByteMemory

/-! ## 1. Items with a sub-page -/

/-- A value as a memory of its own. -/
def memOf (data : List UInt8) : Mem := fun i => data.getD i 0

def Item.values (x : Item) : List (List UInt8) := Slotted.values (memOf x.data) 0

/-- The free room of the sub-page. -/
def Item.room (x : Item) : Nat := pageRoom (memOf x.data) 0

structure SubItem (x : Item) : Prop where
  dup : x.flags &&& nDup ≠ 0
  noTree : x.flags &&& nTree = 0
  small : x.flags &&& nBig = 0
  header : 20 ≤ x.data.length
  word : x.word = x.data.length
  formed : SubFormed (memOf x.data) 0 (x.data.length - 20)
  leaf : isLeaf (memOf x.data) 0 = true

variable {m m' : Mem} {p space k sp n : Nat}

theorem agree_memOf (m : Mem) (a n : Nat) : Agree m (memOf (ByteMemory.bytes m a n)) a 0 n := by
  intro i hi
  unfold memOf
  rw [Nat.zero_add, List.getD_eq_getElem _ _ (by rw [length_bytes]; exact hi), getElem_bytes]

theorem SubFormed.agree {q : Nat} (hsub : SubFormed m p space)
    (h : Agree m m' p q (20 + space)) : SubFormed m' q space ∧ values m' q = values m p ∧
      pageRoom m' q = pageRoom m p := by
  obtain ⟨-, -, -, hplain⟩ := hsub.bounds
  obtain ⟨hsub', hvalues, hroom, -⟩ := hsub.copied (h.part (by omega))
    (fun _ => h.part (d := 20) (by omega))
    (fun hd => h.part (d := 20) (by have := (hplain hd).1; have := hsub.bounds.1; omega))
    (fun hd => by
      have hpart := h.part (d := 20 + upper m p) (k := space - upper m p)
        (by have := (hplain hd).1; omega)
      rw [← Nat.add_assoc, ← Nat.add_assoc] at hpart
      exact hpart)
  exact ⟨hsub', hvalues, hroom⟩

/-- The sub-page of an item, and the bytes that it has in the page. -/
theorem memOf_spec (m : Mem) (sp : Nat) {n : Nat} (hn : 20 ≤ n) :
    let x := ByteMemory.bytes m sp n
    isLeaf (memOf x) 0 = isLeaf m sp ∧ isDupfixLeaf (memOf x) 0 = isDupfixLeaf m sp ∧
      dupfixKsize (memOf x) 0 = dupfixKsize m sp ∧
      (SubFormed m sp (n - 20) → SubFormed (memOf x) 0 (n - 20) ∧
        values (memOf x) 0 = values m sp ∧ pageRoom (memOf x) 0 = pageRoom m sp) ∧
      (SubFormed (memOf x) 0 (n - 20) → SubFormed m sp (n - 20) ∧
        values m sp = values (memOf x) 0 ∧ pageRoom m sp = pageRoom (memOf x) 0) := by
  have hagree := agree_memOf m sp n
  have hback : Agree (memOf (ByteMemory.bytes m sp n)) m 0 sp n := fun i hi => (hagree i hi).symm
  obtain ⟨hleaf, hfix, hks⟩ := flags_of_agree (hagree.part (d := 8) (k := 4) (by omega))
  have hlen : 20 + (n - 20) = n := by omega
  refine ⟨hleaf, hfix, hks, fun h => h.agree ?_, fun h => h.agree ?_⟩
  · rw [hlen]
    exact hagree
  · rw [hlen]
    exact hback

/-- An item with a sub-page, as it lies in the page. -/
structure Sub (m : Mem) (p k : Nat) : Prop extends Hosted m p k where
  dup : nodeFlags m (pageNode m p k) &&& nDup ≠ 0
  noTree : nodeFlags m (pageNode m p k) &&& nTree = 0
  formed : SubFormed m (nodeData m (pageNode m p k)) (nodeDs m (pageNode m p k) - 20)
  inner : isLeaf m (nodeData m (pageNode m p k)) = true

theorem Hosted.item_eq (h : Hosted m p k) : itemAt m true (pageNode m p k) =
    ⟨nodeDs m (pageNode m p k), nodeFlags m (pageNode m p k),
      ByteMemory.bytes m (nodeKey (pageNode m p k)) (nodeKs m (pageNode m p k)),
      ByteMemory.bytes m (nodeData m (pageNode m p k)) (nodeDs m (pageNode m p k))⟩ := by
  have hbytes : dataBytes m true (pageNode m p k) = nodeDs m (pageNode m p k) := by
    unfold dataBytes
    rw [if_pos rfl, if_neg (fun h' => h' h.small)]
  unfold itemAt
  rw [hbytes]
  rfl

theorem subItem_iff (hleaf : isLeaf m p = true) (hk : k < pageNumkeys m p) :
    SubItem (itemAt m true (pageNode m p k)) ↔ Sub m p k := by
  constructor
  · intro h
    have hsmall : nodeFlags m (pageNode m p k) &&& nBig = 0 := h.small
    have hbytes : dataBytes m true (pageNode m p k) = nodeDs m (pageNode m p k) := by
      unfold dataBytes
      rw [if_pos rfl, if_neg (fun h' => h' hsmall)]
    have hlen : (itemAt m true (pageNode m p k)).data.length = nodeDs m (pageNode m p k) := by
      unfold itemAt
      rw [length_bytes, hbytes]
    have hheader : 20 ≤ nodeDs m (pageNode m p k) := by
      rw [← hlen]
      exact h.header
    have hh : Hosted m p k := ⟨hleaf, hk, hsmall, hheader⟩
    have hformed := h.formed
    have hinner := h.leaf
    rw [hlen] at hformed
    rw [hh.item_eq] at hformed hinner
    obtain ⟨hl, -, -, -, hto⟩ := memOf_spec m (nodeData m (pageNode m p k)) hheader
    exact ⟨hh, h.dup, h.noTree, (hto hformed).1, hl.symm.trans hinner⟩
  · intro h
    obtain ⟨hl, -, -, hto, -⟩ := memOf_spec m (nodeData m (pageNode m p k)) h.header
    rw [h.toHosted.item_eq]
    refine ⟨h.dup, h.noTree, h.small, ?_, ?_, ?_, hl.trans h.inner⟩
    · change 20 ≤ (ByteMemory.bytes m _ _).length
      rw [length_bytes]
      exact h.header
    · change nodeDs m (pageNode m p k) = (ByteMemory.bytes m _ _).length
      rw [length_bytes]
    · change SubFormed _ 0 ((ByteMemory.bytes m _ _).length - 20)
      rw [length_bytes]
      exact (hto h.formed).1

/-! ## 2. Changes of the bytes around a page and in it -/

/-- A page is what its bytes say. -/
theorem Formed.same (m' : Mem) (hf : Formed m p space)
    (h : ∀ a, p + 8 ≤ a → (a < p + 16 ∨ p + 20 ≤ a) → a < p + 20 + space → m' a = m a) :
    Formed m' p space ∧ items m' p = items m p ∧ isLeaf m' p = isLeaf m p ∧
      pageRoom m' p = pageRoom m p ∧ ∀ i < pageNumkeys m p, pageNode m' p i = pageNode m p i := by
  have hle := hf.upper_le
  have hroom := hf.room
  have hnum := hf.lower_eq
  have hhead : Agree m m' (p + 8) (p + 8) 8 := fun d hd => h _ (by omega) (by omega) (by omega)
  obtain ⟨hleaf, hfix, -⟩ := flags_of_agree (hhead.mono (by omega))
  have hlow : lower m' p = lower m p := (hhead.part (d := 4) (k := 2) (by omega)).peek
  have hup : upper m' p = upper m p := (hhead.part (d := 6) (k := 2) (by omega)).peek
  have hentry : ∀ i < pageNumkeys m p, entry m' p i = entry m p i := fun i hi =>
    entry_of_agree fun a h₁ h₂ => h a (by omega) (by omega) (by omega)
  have htrans : Transplanted m m' p p space 0 0 := by
    refine ⟨hleaf, hfix, hlow, by omega, fun i hi => ?_, fun d d' hdd h₁ h₂ => ?_⟩
    · rw [hentry i hi]
    · have hd : d' = d := by omega
      unfold pageHdrSz
      rw [hd]
      exact h _ (by omega) (by omega) (by omega)
  obtain ⟨hf', hitems⟩ := htrans.formed hf rfl hf.small ⟨rfl, rfl⟩ (by omega)
  refine ⟨hf', hitems, hleaf, ?_, fun i hi => ?_⟩
  · unfold pageRoom
    rw [hlow, hup]
  · unfold pageNode
    rw [hentry i hi]

/-- The value of a node changes in its place. -/
theorem Hosted.change (m' : Mem) (hf : Formed m p space) (hh : Hosted m p k)
    (hout : ∀ a, a < nodeData m (pageNode m p k) ∨
      nodeData m (pageNode m p k) + nodeDs m (pageNode m p k) ≤ a → m' a = m a) :
    let node := pageNode m p k
    Holds m m' p space ((items m p).set k ⟨nodeDs m node, nodeFlags m node,
      (itemAt m true node).key, ByteMemory.bytes m' (nodeData m node) (nodeDs m node)⟩) ∧
      pageNode m' p k = node ∧ nodeData m' node = nodeData m node ∧ nodeDs m' node = nodeDs m node ∧
      nodeKs m' node = nodeKs m node ∧ nodeFlags m' node = nodeFlags m node := by
  obtain ⟨hsize, hdata⟩ := hh.place
  have hin := hf.placed.inside k hh.index
  have hlow := hf.lower_eq
  have hroom := hf.room
  have hk := hh.index
  have hnode : pageNode m p k = p + entry m p k + 20 := rfl
  have hceil := (evenCeil_bounds (8 + nodeKs m (pageNode m p k) + nodeDs m (pageNode m p k))).1
  rw [← hsize] at hceil
  have hplace : pageNode m' p k = pageNode m p k := by
    unfold pageNode
    rw [entry_of_agree fun a _ _ => hout a (by omega)]
  have hsmall := hh.small
  have hrewrite := hf.rewrite m' hk
  simp only
  generalize hnd : pageNode m p k = node at *
  have hhead : Agree m m' node node (8 + nodeKs m node) := fun d hd => hout _ (by omega)
  have hds : nodeDs m' node = nodeDs m node := (hhead.mono (by omega)).peek
  have hflags : nodeFlags m' node = nodeFlags m node := (hhead.part (d := 4) (k := 1) (by omega)).peek
  have hks : nodeKs m' node = nodeKs m node := (hhead.part (d := 6) (k := 2) (by omega)).peek
  have hdata' : nodeData m' node = nodeData m node := by
    unfold nodeData
    rw [hks]
  have hbytes : dataBytes m' true node = nodeDs m node := by
    unfold dataBytes
    rw [if_pos rfl, hflags, if_neg (fun h => h hsmall), hds]
  have hkey : ByteMemory.bytes m' (nodeKey node) (nodeKs m' node) =
      ByteMemory.bytes m (nodeKey node) (nodeKs m node) := by
    rw [hks]
    exact (hhead.part (d := 8) (k := nodeKs m node) (by omega)).bytes
  have hitem : itemAt m' true node = ⟨nodeDs m node, nodeFlags m node,
      (itemAt m true node).key, ByteMemory.bytes m' (nodeData m node) (nodeDs m node)⟩ := by
    unfold itemAt
    rw [hbytes, hdata', hflags, hkey]
    exact congrArg (Item.mk · _ _ _) hds
  rw [hh.leaf, hitem] at hrewrite
  refine ⟨hrewrite (fun a ha => hout a ?_) ?_, hplace, hdata', hds, hks, hflags⟩
  · omega
  · unfold nodeBytes nodeHdrSz
    rw [hbytes, hks]
    exact hsize.symm

/-- An item whose data are the bytes of a page of values. -/
theorem SubItem.of_bytes {flags : Nat} (key : List UInt8) (hn : 20 ≤ n)
    (hsub : SubFormed m sp (n - 20)) (hleaf : isLeaf m sp = true)
    (hflags : flags &&& nDup ≠ 0 ∧ flags &&& nTree = 0 ∧ flags &&& nBig = 0) :
    let x : Item := ⟨n, flags, key, ByteMemory.bytes m sp n⟩
    SubItem x ∧ x.values = values m sp ∧ x.room = pageRoom m sp := by
  obtain ⟨hl, -, -, hto, -⟩ := memOf_spec m sp hn
  obtain ⟨hsub', hvalues, hroom⟩ := hto hsub
  obtain ⟨hdup, htree, hbig⟩ := hflags
  refine ⟨⟨hdup, htree, hbig, ?_, ?_, ?_, hl.trans hleaf⟩, hvalues, hroom⟩
  · change 20 ≤ (ByteMemory.bytes m sp n).length
    rw [length_bytes]
    exact hn
  · change n = (ByteMemory.bytes m sp n).length
    rw [length_bytes]
  · change SubFormed _ 0 ((ByteMemory.bytes m sp n).length - 20)
    rw [length_bytes]
    exact hsub'

/-- The sub-page of a node changes in its place. -/
theorem Sub.change (hf : Formed m p space) (hs : Sub m p k)
    (hout : ∀ a, a < nodeData m (pageNode m p k) ∨
      nodeData m (pageNode m p k) + nodeDs m (pageNode m p k) ≤ a → m' a = m a)
    (hsub : SubFormed m' (nodeData m (pageNode m p k)) (nodeDs m (pageNode m p k) - 20))
    (hinner : isLeaf m' (nodeData m (pageNode m p k)) = true) :
    Sub m' p k ∧ pageNode m' p k = pageNode m p k ∧
      nodeData m' (pageNode m p k) = nodeData m (pageNode m p k) ∧
      nodeDs m' (pageNode m p k) = nodeDs m (pageNode m p k) ∧
      ∃ x : Item, Holds m m' p space ((items m p).set k x) ∧ SubItem x ∧
        x.key = (itemAt m true (pageNode m p k)).key ∧ x.flags = nodeFlags m (pageNode m p k) ∧
        x.word = nodeDs m (pageNode m p k) ∧
        x.values = values m' (nodeData m (pageNode m p k)) ∧
        x.room = pageRoom m' (nodeData m (pageNode m p k)) := by
  obtain ⟨hholds, hplace, hdata, hds, hks, hflags⟩ := hs.toHosted.change m' hf hout
  obtain ⟨hitem, hvalues, hroom⟩ := SubItem.of_bytes (itemAt m true (pageNode m p k)).key hs.header hsub
    hinner ⟨hs.dup, hs.noTree, hs.small⟩
  have hnum : pageNumkeys m' p = pageNumkeys m p := by
    have hlen := congrArg List.length hholds.items_eq
    rw [List.length_set, length_items, length_items] at hlen
    exact hlen
  have hleaf' : isLeaf m' p = true := hholds.framed.header.1.trans hs.leaf
  have hhosted : Hosted m' p k := by
    refine ⟨hleaf', ?_, ?_, ?_⟩
    · rw [hnum]
      exact hs.index
    · rw [hplace, hflags]
      exact hs.small
    · rw [hplace, hds]
      exact hs.header
  refine ⟨⟨hhosted, ?_, ?_, ?_, ?_⟩, hplace, hdata, hds, _, hholds, hitem, rfl, rfl, rfl, hvalues,
    hroom⟩
  · rw [hplace, hflags]
    exact hs.dup
  · rw [hplace, hflags]
    exact hs.noTree
  · rw [hplace, hdata, hds]
    exact hsub
  · rw [hplace, hdata]
    exact hinner

/-- The bytes around the page change. -/
theorem Sub.same (hf : Formed m p space) (hs : Sub m p k)
    (h : ∀ a, p ≤ a → a < p + 20 + space → m' a = m a) :
    Sub m' p k ∧ pageNode m' p k = pageNode m p k ∧
      itemAt m' true (pageNode m p k) = itemAt m true (pageNode m p k) ∧
      nodeData m' (pageNode m p k) = nodeData m (pageNode m p k) ∧
      nodeDs m' (pageNode m p k) = nodeDs m (pageNode m p k) ∧
      nodeKs m' (pageNode m p k) = nodeKs m (pageNode m p k) ∧
      Agree m m' (nodeData m (pageNode m p k)) (nodeData m (pageNode m p k))
        (nodeDs m (pageNode m p k)) := by
  obtain ⟨hsize, hdata⟩ := hs.toHosted.place
  have hin := hf.placed.inside k hs.index
  have hceil := (evenCeil_bounds (8 + nodeKs m (pageNode m p k) + nodeDs m (pageNode m p k))).1
  rw [← hsize] at hceil
  obtain ⟨-, hitems, hleaf, -, hplace⟩ := hf.same m' fun a h₁ _ h₃ => h a (by omega) h₃
  have hnode : pageNode m p k = p + entry m p k + 20 := rfl
  have hagree : Agree m m' (pageNode m p k) (pageNode m p k) (sizeAt m p k) := fun d hd =>
    h _ (by omega) (by omega)
  have hitem : itemAt m' true (pageNode m p k) = itemAt m true (pageNode m p k) := by
    refine (itemAt_congr (hagree.mono ?_)).1
    unfold sizeAt
    rw [hs.leaf]
  have hks : nodeKs m' (pageNode m p k) = nodeKs m (pageNode m p k) :=
    (hagree.part (d := 6) (k := 2) (by omega)).peek
  have hds : nodeDs m' (pageNode m p k) = nodeDs m (pageNode m p k) :=
    (hagree.part (d := 0) (k := 4) (by omega)).peek
  have hnum : pageNumkeys m' p = pageNumkeys m p := by
    rw [← length_items, hitems, length_items]
  refine ⟨?_, hplace k hs.index, hitem, ?_, hds, hks, ?_⟩
  · refine (subItem_iff (hleaf.trans hs.leaf) (by rw [hnum]; exact hs.index)).mp ?_
    rw [hplace k hs.index, hitem]
    exact (subItem_iff hs.leaf hs.index).mpr hs
  · unfold nodeData
    rw [hks]
  · intro d hd
    exact h _ (by omega) (by omega)

/-! ## 3. A value goes into a page of values -/

/-- How much room the value takes there. -/
def dupNeeds (m : Mem) (sp : Nat) (value : List UInt8) : Nat :=
  if isDupfixLeaf m sp then dupfixKsize m sp else nodeSizeLen value.length 0 + indxSz

/-- A value as the checks of `cursor_put` let it pass. -/
structure Fits (pe : PutEnv) (m : Mem) (sp : Nat) (value : List UInt8) : Prop where
  fixed : isDupfixLeaf m sp = true → value.length = dupfixKsize m sp
  size : nodeSizeLen value.length 0 ≤ pe.env.branchNodeMax

variable {pe : PutEnv} {value old : List UInt8} {i : Nat}

theorem Fits.leaf (h : Fits pe m sp value) : nodeSizeLen value.length 0 ≤ pe.env.leafNodeMax :=
  Nat.le_trans h.size (Nat.le_of_add_right_le pe.env.branch_le_leaf)

theorem nodeSizeLen_le_leafSize (env : PageSize) {ks ds : Nat} (h : nodeSizeLen ks ds ≤ env.leafNodeMax) :
    env.leafSize ks ds = nodeSizeLen ks ds + 2 := by
  unfold PageSize.leafSize
  simp only
  rw [if_neg (by omega)]
  rfl

theorem leafNodeMax_lt (env : PageSize) : env.leafNodeMax + 2 ≤ env.space / 2 ∧
    env.space + 20 = env.ps ∧ env.ps ≤ 65536 ∧ 256 ≤ env.ps := by
  obtain ⟨hlo, hhi, -⟩ := env.ps_bounds
  unfold PageSize.leafNodeMax PageSize.space evenFloor pageHdrSz indxSz
  omega

theorem valueAdded (hsub : SubFormed m sp space) (hleaf : isLeaf m sp = true)
    (hi : i ≤ (values m sp).length) (hfits : Fits pe m sp value)
    (hroom : dupNeeds m sp value ≤ pageRoom m sp) :
    let r := if isDupfixLeaf m sp then nodeAddDupfix m sp i value
      else
        let r := nodeAddLeaf pe.env false pe.pageNewLarge m sp i value ⟨[], 0⟩ 0
        (r.mem, r.status)
    r.2 = .success ∧ Framed m r.1 sp space ∧ SubFormed r.1 sp space ∧
      values r.1 sp = (values m sp).insertIdx i value ∧
      pageRoom r.1 sp + dupNeeds m sp value = pageRoom m sp := by
  unfold SubFormed values at *
  unfold dupNeeds at *
  simp only
  cases hd : isDupfixLeaf m sp with
  | true =>
    rw [hd, if_pos rfl] at hsub hi hroom
    obtain ⟨ksize, hf⟩ := hsub
    rw [hf.ksize_eq] at hroom
    rw [length_fixedItems] at hi
    have hadd := nodeAddDupfix_spec hf hi ((hfits.fixed hd).trans hf.ksize_eq)
    simp only at hadd
    rw [if_pos hroom] at hadd
    obtain ⟨hstatus, hholds⟩ := hadd
    rw [if_pos rfl, if_pos rfl, if_pos rfl, hholds.formed.fixed, if_pos rfl, if_pos rfl, hf.ksize_eq]
    refine ⟨hstatus, hholds.framed, ⟨ksize, hholds.formed⟩, hholds.items_eq, ?_⟩
    have hbefore := hf.room_eq
    have hafter := hholds.formed.room_eq
    rw [hholds.items_eq, List.length_insertIdx_of_le_length (by rwa [length_fixedItems]),
      Nat.mul_succ] at hafter
    omega
  | false =>
    rw [hd, if_neg Bool.false_ne_true] at hsub hi hroom
    rw [List.length_map, length_items] at hi
    have hsize := hfits.leaf
    have hmax := leafNodeMax_lt pe.env
    have hle : value.length < 65536 := by
      have hceil := (evenCeil_bounds (8 + value.length + 0)).1
      rw [← nodeSizeLen_eq] at hceil
      omega
    have hneeds : leafNeeds pe.env value.length ⟨[], 0⟩ 0 =
        (nodeSizeLen value.length 0 + indxSz, false) := by
      unfold leafNeeds
      rw [if_neg (fun h => h (Nat.zero_and nBig)), nodeSizeLen_le_leafSize _ hsize,
        decide_eq_false (show ¬ pe.env.leafNodeMax < nodeSizeLen value.length 0 by omega)]
      rfl
    have hadd := nodeAddLeaf_spec pe.env false pe.pageNewLarge ⟨[], 0⟩ 0 hsub hleaf hi hle
      (Nat.zero_lt_succ _) ⟨fun h => absurd (Nat.zero_and nBig) h, fun _ _ => Nat.zero_le _⟩
      (by rw [hneeds]; exact hroom)
    simp only at hadd
    rcases hadd with ⟨-, hrefused, -⟩ | ⟨hstatus, -, largepage, stored, hlarge, -, hpay, hholds⟩
    · exact absurd hrefused.1 (by rw [hneeds]; exact Bool.false_ne_true)
    · have hnone : largepage = none := by
        by_contra hne
        have h := hlarge.mp hne
        rw [hneeds] at h
        exact Bool.false_ne_true h
      subst hnone
      have hnil : stored = [] := List.eq_nil_of_length_eq_zero hpay.length
      subst hnil
      rw [if_pos rfl] at hholds
      simp only [if_neg Bool.false_ne_true, hholds.formed.plain]
      refine ⟨hstatus, hholds.framed, hholds.formed, ?_, ?_⟩
      · rw [hholds.items_eq, List.map_insertIdx]
      · have hbefore := hsub.room_eq
        have hafter := hholds.formed.room_eq
        have hbytes : Item.bytes ⟨0, 0, value, []⟩ = nodeSizeLen value.length 0 :=
          (nodeSizeLen_eq value.length 0).symm
        rw [hholds.items_eq, List.map_insertIdx, List.length_insertIdx_of_le_length
          (by rwa [length_items]), List.CommMonoid.sum_insertIdx
          (by rwa [List.length_map, length_items]), Nat.zero_mod, hbytes, Nat.mul_succ] at hafter
        omega

/-- The kind of a page of values says what a value needs there. -/
theorem needs_congr (pe : PutEnv) {q : Nat} (hfix : isDupfixLeaf m' q = isDupfixLeaf m sp)
    (hks : dupfixKsize m' q = dupfixKsize m sp) (value : List UInt8) :
    dupNeeds m' q value = dupNeeds m sp value ∧ (Fits pe m sp value → Fits pe m' q value) := by
  unfold dupNeeds
  rw [hfix, hks]
  exact ⟨rfl, fun hfits => ⟨fun hd => (hfits.fixed (hfix.symm.trans hd)).trans hks.symm, hfits.size⟩⟩

theorem subPut_spec (hsub : SubFormed m sp space) (hleaf : isLeaf m sp = true)
    (hi : i ≤ (values m sp).length) (hfits : Fits pe m sp value)
    (hroom : dupNeeds m sp value ≤ pageRoom m sp) :
    let r := subPut pe m sp i value
    r.2 = .success ∧ Framed m r.1 sp space ∧ SubFormed r.1 sp space ∧
      values r.1 sp = (values m sp).insertIdx i value ∧
      pageRoom r.1 sp + dupNeeds m sp value = pageRoom m sp := by
  have hadded := valueAdded hsub hleaf hi hfits hroom
  have hnsize : (if isDupfixLeaf m sp then value.length else pe.env.leafSize value.length 0) =
      dupNeeds m sp value := by
    unfold dupNeeds
    split_ifs with hd
    · exact hfits.fixed hd
    · exact nodeSizeLen_le_leafSize _ hfits.leaf
  unfold subPut
  simp only at hadded ⊢
  rw [hnsize, if_neg (by omega)]
  exact hadded

/-- The values that the page gets besides its own: the one that was alone, and the new one. -/
def newValues (olds : List (List UInt8)) (oldSingledup : Option (List UInt8)) (i : Nat)
    (value : List UInt8) : List (List UInt8) :=
  (oldSingledup.toList ++ olds).insertIdx i value

/-- What they need, and what lets them pass. -/
def allNeeds (m : Mem) (sp : Nat) (oldSingledup : Option (List UInt8)) (value : List UInt8) : Nat :=
  (oldSingledup.elim 0 fun old => dupNeeds m sp old) + dupNeeds m sp value

structure AllFit (pe : PutEnv) (m : Mem) (sp : Nat) (oldSingledup : Option (List UInt8)) (i : Nat)
    (value : List UInt8) : Prop where
  old : ∀ old ∈ oldSingledup, Fits pe m sp old
  new : Fits pe m sp value
  index : i ≤ (oldSingledup.toList ++ values m sp).length

theorem AllFit.congr (pe : PutEnv) (oldSingledup : Option (List UInt8)) (i : Nat) (value : List UInt8)
    {q : Nat}
    (hfix : isDupfixLeaf m' q = isDupfixLeaf m sp) (hks : dupfixKsize m' q = dupfixKsize m sp)
    (hvalues : values m' q = values m sp) :
    allNeeds m' q oldSingledup value = allNeeds m sp oldSingledup value ∧
      (AllFit pe m sp oldSingledup i value → AllFit pe m' q oldSingledup i value) := by
  have hneeds := fun value => (needs_congr pe hfix hks value).1
  refine ⟨?_, fun h => ⟨fun old hold => ?_, ?_, ?_⟩⟩
  · unfold allNeeds
    simp only [hneeds]
  · exact (needs_congr pe hfix hks old).2 (h.old old hold)
  · exact (needs_congr pe hfix hks value).2 h.new
  · rw [hvalues]
    exact h.index

theorem dupsortPut_spec {oldSingledup : Option (List UInt8)} (hsub : SubFormed m sp space)
    (hleaf : isLeaf m sp = true) (hfits : AllFit pe m sp oldSingledup i value)
    (hroom : allNeeds m sp oldSingledup value ≤ pageRoom m sp) :
    let r := dupsortPut pe m sp oldSingledup i value
    r.2 = .success ∧ Framed m r.1 sp space ∧ SubFormed r.1 sp space ∧
      values r.1 sp = newValues (values m sp) oldSingledup i value := by
  unfold dupsortPut newValues
  have hindex := hfits.index
  cases oldSingledup with
  | none =>
    unfold allNeeds at hroom
    rw [Option.elim_none, Nat.zero_add] at hroom
    obtain ⟨hstatus, hframed, hsub', hvalues, -⟩ := subPut_spec hsub hleaf hindex hfits.new hroom
    exact ⟨hstatus, hframed, hsub', hvalues⟩
  | some old =>
    unfold allNeeds at hroom
    rw [Option.elim_some] at hroom
    obtain ⟨hstatus, hframed, hsub', hvalues, hless⟩ := valueAdded hsub hleaf (Nat.zero_le _)
      (hfits.old old rfl) (by omega)
    simp only at hstatus hframed hsub' hvalues hless ⊢
    rw [if_pos hstatus]
    generalize (if isDupfixLeaf m sp then nodeAddDupfix m sp 0 old else _) = r at *
    obtain ⟨hneeds, hfit⟩ := needs_congr pe hframed.header.2.1 hframed.header.2.2 value
    have hlen : i ≤ (values r.1 sp).length := by
      rw [hvalues]
      exact hindex
    obtain ⟨hstatus', hframed', hsub'', hvalues', -⟩ := subPut_spec hsub'
      (hframed.header.1.trans hleaf) hlen (hfit hfits.new) (by omega)
    refine ⟨hstatus', hframed.trans hframed', hsub'', ?_⟩
    rw [hvalues', hvalues]
    rfl

end Mdbx.Slotted
