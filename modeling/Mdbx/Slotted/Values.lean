import Mathlib.Algebra.BigOperators.Ring.List
import Mdbx.Slotted.Dups

/-!
# Slotted.Values — where the values of a key can be

They are in the sub-page of a node, in a sub-page that is put in again, or in the page of a new tree.
-/

namespace Mdbx.Slotted

open Node ByteMemory

variable {pe : PutEnv} {m m' : Mem} {p k i n : Nat} {key data value : List UInt8}

theorem set_insertIdx {α : Type} (xs : List α) (k : Nat) (a b : α) :
    (xs.insertIdx k a).set k b = xs.insertIdx k b := by
  induction xs generalizing k with
  | nil => cases k <;> rfl
  | cons x xs ih =>
    cases k with
    | zero => rfl
    | succ k => exact congrArg (x :: ·) (ih k)

theorem insertIdx_eraseIdx_self {α : Type} {xs : List α} {k : Nat} (h : k < xs.length) (a : α) :
    (xs.eraseIdx k).insertIdx k a = xs.set k a := by
  induction xs generalizing k with
  | nil => exact absurd h (Nat.not_lt_zero k)
  | cons x xs ih =>
    cases k with
    | zero => rfl
    | succ k => exact congrArg (x :: ·) (ih (Nat.lt_of_succ_lt_succ h))

theorem eraseIdx_set_self {α : Type} (xs : List α) (k : Nat) (a : α) :
    (xs.set k a).eraseIdx k = xs.eraseIdx k := by
  induction xs generalizing k with
  | nil => rfl
  | cons x xs ih =>
    cases k with
    | zero => rfl
    | succ k => exact congrArg (x :: ·) (ih k)

/-! ## 1. The sub-page of a node gets the value -/

theorem Sub.put (pe : PutEnv) (old : Option (List UInt8)) (i : Nat) (value : List UInt8)
    {space : Nat} (hf : Formed m p space) (hs : Sub m p k)
    (hfits : AllFit pe m (nodeData m (pageNode m p k)) old i value)
    (hroom : allNeeds m (nodeData m (pageNode m p k)) old value ≤
      pageRoom m (nodeData m (pageNode m p k))) :
    let sp := nodeData m (pageNode m p k)
    let r := dupsortPut pe m sp old i value
    r.2 = .success ∧ ∃ x : Item, Holds m r.1 p space ((items m p).set k x) ∧ SubItem x ∧
      x.key = (itemAt m true (pageNode m p k)).key ∧
      x.values = newValues (values m sp) old i value := by
  have hheader := hs.header
  unfold pageHdrSz at hheader
  obtain ⟨hstatus, hframed, hsub, hvalues⟩ := dupsortPut_spec hs.formed hs.inner hfits hroom
  simp only at hstatus hframed hsub hvalues ⊢
  generalize dupsortPut pe m (nodeData m (pageNode m p k)) old i value = r at *
  obtain ⟨-, -, -, -, x, hholds, hitem, hkey, -, -, hx, -⟩ := hs.change hf
    (fun a ha => hframed.outside a (by unfold pageHdrSz; omega)) hsub
    (hframed.header.1.trans hs.inner)
  exact ⟨hstatus, x, hholds, hitem, hkey, hx.trans hvalues⟩

/-! ## 2. The node of the key is put in again -/

theorem nodePlaced (flags : Nat) {space : Nat} (hf : Formed m p space) (hleaf : isLeaf m p = true)
    (hk : k ≤ pageNumkeys m p)
    (hsize : nodeSizeLen key.length data.length ≤ pe.env.leafNodeMax)
    (hflags : flags < 256 ∧ flags &&& nBig = 0 ∧ flags &&& mdbxReserve = 0)
    (hroom : pe.env.leafSize key.length data.length ≤ pageRoom m p) :
    let r := nodeAddLeaf pe.env true pe.pageNewLarge m p k key ⟨data, data.length⟩ flags
    r.status = .success ∧
      Holds m r.mem p space ((items m p).insertIdx k ⟨data.length, flags, key, data⟩) := by
  obtain ⟨hlt, hbig, hreserve⟩ := hflags
  have hmax := leafNodeMax_lt pe.env
  have hceil := (evenCeil_bounds (8 + key.length + data.length)).1
  rw [← nodeSizeLen_eq] at hceil
  have hnot : ¬ flags &&& nBig ≠ 0 := fun h => h hbig
  have hneeds : leafNeeds pe.env key.length ⟨data, data.length⟩ flags =
      (pe.env.leafSize key.length data.length, false) := by
    unfold leafNeeds
    rw [if_neg hnot,
      decide_eq_false (show ¬ pe.env.leafNodeMax < nodeSizeLen key.length data.length by omega)]
  have hadd := nodeAddLeaf_spec pe.env true pe.pageNewLarge ⟨data, data.length⟩ flags hf hleaf hk
    (show key.length < 65536 by omega)
    (show data.length < 4294967296 by omega)
    ⟨fun h => absurd hbig h, fun _ _ => Nat.le_refl _⟩ (by rw [hneeds]; exact hroom)
  simp only at hadd
  rcases hadd with ⟨-, hrefused, -⟩ | ⟨hstatus, -, largepage, stored, hlarge, -, hpay, hholds⟩
  · exact absurd hrefused.1 (by rw [hneeds]; exact Bool.false_ne_true)
  · have hnone : largepage = none := by
      by_contra hne
      have h := hlarge.mp hne
      rw [hneeds] at h
      exact Bool.false_ne_true h
    subst hnone
    rw [if_pos rfl] at hpay hholds
    have hstored : stored = data := (hpay.plain rfl hbig hreserve).trans List.take_length
    rw [hstored, Nat.mod_eq_of_lt hlt] at hholds
    exact ⟨hstatus, hholds⟩

theorem item_inserted {x : Item} (h : items m' p = (items m p).insertIdx k x)
    (hk : k ≤ pageNumkeys m p) :
    k < pageNumkeys m' p ∧ itemAt m' (isLeaf m' p) (pageNode m' p k) = x := by
  have hlen := congrArg List.length h
  rw [List.length_insertIdx_of_le_length (by rwa [length_items]), length_items, length_items] at hlen
  have hlt : k < (items m' p).length := by
    rw [length_items]
    omega
  refine ⟨by omega, ?_⟩
  rw [← getElem_items hlt, List.getElem_of_eq h hlt, List.getElem_insertIdx_self]

theorem item_set {x : Item} (h : items m' p = (items m p).set k x) (hk : k < pageNumkeys m p) :
    k < pageNumkeys m' p ∧ itemAt m' (isLeaf m' p) (pageNode m' p k) = x := by
  have hlen := congrArg List.length h
  rw [List.length_set, length_items, length_items] at hlen
  have hlt : k < (items m' p).length := by
    rw [length_items]
    omega
  refine ⟨by omega, ?_⟩
  rw [← getElem_items hlt, List.getElem_of_eq h hlt, List.getElem_set_self]

theorem Sub.data_spec {word flags : Nat} (hs : Sub m p k)
    (hitem : itemAt m true (pageNode m p k) = ⟨word, flags, key, data⟩)
    (hx : SubItem ⟨word, flags, key, data⟩) :
    isDupfixLeaf (memOf data) 0 = isDupfixLeaf m (nodeData m (pageNode m p k)) ∧
      dupfixKsize (memOf data) 0 = dupfixKsize m (nodeData m (pageNode m p k)) ∧
      values m (nodeData m (pageNode m p k)) = values (memOf data) 0 ∧
      pageRoom m (nodeData m (pageNode m p k)) = pageRoom (memOf data) 0 := by
  have hds : nodeDs m (pageNode m p k) = data.length := (congrArg Item.word hitem).trans hx.word
  have hbytes : ByteMemory.bytes m (nodeData m (pageNode m p k)) data.length = data := by
    have h := congrArg Item.data (hs.toHosted.item_eq.symm.trans hitem)
    rw [← hds]
    exact h
  obtain ⟨-, hfix, hks, -, hto⟩ := memOf_spec m (nodeData m (pageNode m p k)) hx.header
  rw [hbytes] at hfix hks hto
  obtain ⟨-, hvalues, hfree⟩ := hto hx.formed
  exact ⟨hfix, hks, hvalues, hfree⟩

/-- The sub-page comes back as the data of the node, and gets the value. -/
theorem insertNode_sub (hf : Formed m p pe.env.space) (hleaf : isLeaf m p = true)
    (hk : k ≤ pageNumkeys m p) {oldSingledup : Option Nat} {old : Option (List UInt8)}
    (hdata : SubItem ⟨data.length, nDup, key, data⟩)
    (hsize : nodeSizeLen key.length data.length ≤ pe.env.leafNodeMax)
    (hold : ∀ m', (∀ a, a < p ∨ p + pe.env.ps ≤ a → m' a = m a) →
      oldSingledup.map (ByteMemory.bytes m' (pe.pageAuxbuf + pageHdrSz)) = old)
    (hfits : AllFit pe (memOf data) 0 old i value)
    (hroom : allNeeds (memOf data) 0 old value ≤ pageRoom (memOf data) 0)
    (hnode : pe.env.leafSize key.length data.length ≤ pageRoom m p) :
    let r := insertNode pe m p k key data nDup none oldSingledup i value
    r.2 = .subpage .success ∧ ∃ x : Item, Holds m r.1 p pe.env.space ((items m p).insertIdx k x) ∧
      SubItem x ∧ x.key = key ∧ x.values = newValues (values (memOf data) 0) old i value := by
  obtain ⟨hstatus, hholds⟩ := nodePlaced nDup hf hleaf hk hsize (by decide) hnode
  unfold insertNode
  simp only
  rw [if_neg (by omega), if_pos hstatus]
  generalize nodeAddLeaf pe.env true pe.pageNewLarge m p k key ⟨data, data.length⟩ nDup = r at *
  obtain ⟨hindex, hitem⟩ := item_inserted hholds.items_eq hk
  have hleaf' : isLeaf r.mem p = true := hholds.framed.header.1.trans hleaf
  rw [hleaf'] at hitem
  have hs : Sub r.mem p k := (subItem_iff hleaf' hindex).mp (by rw [hitem]; exact hdata)
  obtain ⟨hfix, hks, hvalues, hfree⟩ := hs.data_spec hitem hdata
  obtain ⟨hneeds, hfit⟩ := AllFit.congr pe old i value hfix.symm hks.symm hvalues
  have hcopy := hold r.mem fun a ha => hholds.framed.outside a (by
    have hps := (leafNodeMax_lt pe.env).2.1
    unfold pageHdrSz
    omega)
  obtain ⟨hstatus', x, hholds', hx, hkey, hxs⟩ := hs.put pe old i value hholds.formed
    (hfit hfits) (by omega)
  have hmap : (oldSingledup.map fun len =>
      ByteMemory.bytes r.mem (pe.pageAuxbuf + pageHdrSz) len) = old := hcopy
  simp only [hmap]
  refine ⟨congrArg DupStatus.subpage hstatus', x, ⟨hholds.framed.trans hholds'.framed,
    hholds'.formed, ?_⟩, hx, ?_, ?_⟩
  · rw [hholds'.items_eq, hholds.items_eq, set_insertIdx]
  · rw [hkey, hitem]
  · rw [hxs, hvalues]

theorem length_values (m : Mem) (sp : Nat) : (values m sp).length = pageNumkeys m sp := by
  unfold values
  split_ifs
  · exact length_fixedItems m sp
  · rw [List.length_map, length_items]

@[simp] theorem length_treeRecord (flags dupfixSize root items modTxnid : Nat) :
    (treeRecord flags dupfixSize root items modTxnid).length = 48 := by
  simp only [treeRecord, List.length_append, length_toBytes]

/-- The record that the node of a key has when its values are a tree of one page. -/
def PutEnv.record (pe : PutEnv) (m : Mem) (root items : Nat) : List UInt8 :=
  treeRecord pe.db2sub (if pe.dupFixed then dupfixKsize m root else 0) (pagePgno m root) items pe.txnid

/-- The record of a tree comes back as the data of the node, and its page gets the value. -/
theorem insertNode_tree (key data : List UInt8) (hf : Formed m p pe.env.space) (hleaf : isLeaf m p = true)
    (hk : k ≤ pageNumkeys m p) {oldSingledup : Option Nat} {old : Option (List UInt8)} {root : Nat}
    (hapart : p + pe.env.ps ≤ root ∨ root + pe.env.ps ≤ p) (hdata : data.length = 48)
    (hsub : SubFormed m root pe.env.space) (hinner : isLeaf m root = true)
    (hsize : nodeSizeLen key.length data.length ≤ pe.env.leafNodeMax)
    (hold : ∀ m', (∀ a, a < p ∨ p + pe.env.ps ≤ a → m' a = m a) →
      oldSingledup.map (ByteMemory.bytes m' (pe.pageAuxbuf + pageHdrSz)) = old)
    (hfits : AllFit pe m root old i value)
    (hroom : allNeeds m root old value ≤ pageRoom m root)
    (hnode : pe.env.leafSize key.length data.length ≤ pageRoom m p) :
    let r := insertNode pe m p k key data (nDup ||| nTree) (some root) oldSingledup i value
    let vals := newValues (values m root) old i value
    r.2 = .tree root .success ∧ (Formed r.1 p pe.env.space ∧ isLeaf r.1 p = true) ∧
      items r.1 p = (items m p).insertIdx k
        ⟨48, nDup ||| nTree, key, pe.record r.1 root vals.length⟩ ∧
      (SubFormed r.1 root pe.env.space ∧ values r.1 root = vals) ∧
      ∀ a, (a < p ∨ p + pe.env.ps ≤ a) → (a < root ∨ root + pe.env.ps ≤ a) → r.1 a = m a := by
  obtain ⟨hstatus, hholds⟩ := nodePlaced (nDup ||| nTree) hf hleaf hk hsize (by decide) hnode
  have hps := (leafNodeMax_lt pe.env).2.1
  unfold insertNode
  simp only
  rw [if_neg (by omega), if_pos hstatus]
  generalize nodeAddLeaf pe.env true pe.pageNewLarge m p k key ⟨data, data.length⟩ (nDup ||| nTree) =
    r at *
  obtain ⟨hindex, hitem⟩ := item_inserted hholds.items_eq hk
  have hleaf' : isLeaf r.mem p = true := hholds.framed.header.1.trans hleaf
  rw [hleaf'] at hitem
  have hout₁ : ∀ a, a < p ∨ p + pe.env.ps ≤ a → r.mem a = m a := fun a ha =>
    hholds.framed.outside a (by unfold pageHdrSz; omega)
  -- the page of the tree is as it was
  have hagree : Agree m r.mem root root (20 + pe.env.space) := fun d hd => hout₁ _ (by omega)
  obtain ⟨hsub₁, hvalues₁, hfree₁⟩ := hsub.agree hagree
  obtain ⟨hinner₁, hfix₁, hks₁⟩ := flags_of_agree (hagree.part (d := 8) (k := 4) (by omega))
  have hpgno₁ : pagePgno r.mem root = pagePgno m root := (hagree.part (d := 16) (by omega)).peek
  obtain ⟨hneeds, hfit⟩ := AllFit.congr pe old i value hfix₁ hks₁ hvalues₁
  have hcopy : (oldSingledup.map fun len =>
      ByteMemory.bytes r.mem (pe.pageAuxbuf + pageHdrSz) len) = old := hold r.mem hout₁
  simp only [hcopy]
  obtain ⟨hstatus₂, hframed₂, hsub₂, hvalues₂⟩ := dupsortPut_spec hsub₁ (hinner₁.trans hinner)
    (hfit hfits) (by omega)
  generalize dupsortPut pe r.mem root old i value = r₂ at *
  -- and so is the outer page behind the put
  have hout₂ : ∀ a, a < root + 12 ∨ root + pe.env.ps ≤ a → r₂.1 a = r.mem a := fun a ha =>
    hframed₂.outside a (by unfold pageHdrSz; omega)
  obtain ⟨hf₂, hitems₂, hleaf₂, -, hplace₂⟩ := hholds.formed.same r₂.1 fun a h₁ h₂ h₃ =>
    hout₂ a (by omega)
  have hplace := hplace₂ k hindex
  obtain ⟨hindex₂, hitem₂⟩ := item_inserted (hitems₂.trans hholds.items_eq) hk
  rw [hleaf₂.trans hleaf'] at hitem₂
  have hds : nodeDs r₂.1 (pageNode r₂.1 p k) = data.length := congrArg Item.word hitem₂
  have hflags : nodeFlags r₂.1 (pageNode r₂.1 p k) = nDup ||| nTree := congrArg Item.flags hitem₂
  have hhosted : Hosted r₂.1 p k := by
    refine ⟨hleaf₂.trans hleaf', hindex₂, ?_, ?_⟩
    · rw [hflags]
      rfl
    · rw [hds, hdata]
      exact Nat.le_of_ble_eq_true rfl
  rw [← hplace]
  generalize hrecord : treeRecord _ _ _ _ _ = record
  have hlen : record.length = 48 := by
    rw [← hrecord, length_treeRecord]
  obtain ⟨hholds₃, -⟩ := hhosted.change (copy r₂.1 (nodeData r₂.1 (pageNode r₂.1 p k)) record) hf₂
    fun a ha => copy_outside (by omega)
  have hstored := bytes_copy r₂.1 (nodeData r₂.1 (pageNode r₂.1 p k)) record
  have hitems₃ := hholds₃.items_eq
  rw [hlen] at hstored
  rw [hds, hdata, hstored, hflags, hitem₂, hitems₂, hholds.items_eq, set_insertIdx] at hitems₃
  -- the record is written inside of the outer page
  have hinside : p + 20 ≤ nodeData r₂.1 (pageNode r₂.1 p k) ∧
      nodeData r₂.1 (pageNode r₂.1 p k) + 48 ≤ p + pe.env.ps := by
    obtain ⟨hbytes, hdataAt⟩ := hhosted.place
    have hin := hf₂.placed.inside k hindex₂
    have hceil := (evenCeil_bounds (8 + nodeKs r₂.1 (pageNode r₂.1 p k) +
      nodeDs r₂.1 (pageNode r₂.1 p k))).1
    rw [← hbytes] at hceil
    have hnodeAt : pageNode r₂.1 p k = p + entry r₂.1 p k + 20 := rfl
    omega
  generalize nodeData r₂.1 (pageNode r₂.1 p k) = at' at *
  have hout₃ : ∀ a, a < p ∨ p + pe.env.ps ≤ a → copy r₂.1 at' record a = r₂.1 a := fun a ha =>
    copy_outside (by omega)
  have hagree₃ : Agree r₂.1 (copy r₂.1 at' record) root root (20 + pe.env.space) := fun d hd =>
    hout₃ _ (by omega)
  obtain ⟨hsub₃, hvalues₃, -⟩ := hsub₂.agree hagree₃
  refine ⟨congrArg (DupStatus.tree root) hstatus₂, ⟨hholds₃.formed,
    hholds₃.framed.header.1.trans (hleaf₂.trans hleaf')⟩, ?_, ⟨hsub₃, ?_⟩, fun a h₁ h₂ => ?_⟩
  · have hpgno₃ : pagePgno (copy r₂.1 at' record) root = pagePgno r₂.1 root :=
      (hagree₃.part (d := 16) (by omega)).peek
    have hks₃ := (flags_of_agree (hagree₃.part (d := 8) (k := 4) (by omega))).2.2
    have hnum := (length_values r₂.1 root).symm
    rw [hvalues₂, hvalues₁] at hnum
    unfold PutEnv.record
    rw [hitems₃, hpgno₃, hks₃, ← hrecord, hnum]
  · rw [hvalues₃, hvalues₂, hvalues₁]
  · rw [hout₃ a h₁, hout₂ a (by omega), hout₁ a h₁]

theorem insertNode_split {flags : Nat} {root oldSingledup : Option Nat}
    (h : pageRoom m p < pe.env.leafSize key.length data.length) :
    insertNode pe m p k key data flags root oldSingledup i value = (m, .split root data flags) := by
  unfold insertNode
  rw [if_pos h]

/-! ## 3. The values become a tree -/

/-- What a put leads to: `olds` are the values of the page of values, and `alone` is the one that was
not in such a page yet. -/
inductive PutDone (pe : PutEnv) (m : Mem) (p k : Nat) (key : List UInt8) (olds : List (List UInt8))
    (alone : Option (List UInt8)) (i : Nat) (value : List UInt8) : Mem → DupStatus → Prop where
  -- the value is in the sub-page
  | subpage {m' : Mem} {x : Item} : Formed m' p pe.env.space → isLeaf m' p = true →
      items m' p = (items m p).set k x → SubItem x → x.key = key →
      x.values = newValues olds alone i value →
      PutDone pe m p k key olds alone i value m' (.subpage .success)
  -- in the page of a new tree, which the node describes
  | tree {m' : Mem} {root : Nat} : pe.gcAllocSingle = .ok root → Formed m' p pe.env.space →
      isLeaf m' p = true → items m' p = (items m p).set k ⟨48, nDup ||| nTree, key,
        pe.record m' root (newValues olds alone i value).length⟩ →
      SubFormed m' root pe.env.space → values m' root = newValues olds alone i value →
      PutDone pe m p k key olds alone i value m' (.tree root .success)
  -- the page has no room for the node, and all the values are outside of it with room for the new one
  | splitSubpage {m' : Mem} {data : List UInt8} : Formed m' p pe.env.space → isLeaf m' p = true →
      items m' p = (items m p).eraseIdx k → pageRoom m' p < pe.env.leafSize key.length data.length →
      SubItem ⟨data.length, nDup, key, data⟩ → values (memOf data) 0 = olds →
      allNeeds (memOf data) 0 alone value ≤ pageRoom (memOf data) 0 →
      (alone.map List.length).map (ByteMemory.bytes m' (pe.pageAuxbuf + pageHdrSz)) = alone →
      PutDone pe m p k key olds alone i value m' (.split none data nDup)
  | splitTree {m' : Mem} {root : Nat} : pe.gcAllocSingle = .ok root → Formed m' p pe.env.space →
      isLeaf m' p = true → items m' p = (items m p).eraseIdx k →
      pageRoom m' p < pe.env.leafSize key.length 48 → SubFormed m' root pe.env.space →
      values m' root = olds → allNeeds m' root alone value ≤ pageRoom m' root →
      (alone.map List.length).map (ByteMemory.bytes m' (pe.pageAuxbuf + pageHdrSz)) = alone →
      PutDone pe m p k key olds alone i value m'
        (.split (some root) (pe.record m' root olds.length) (nDup ||| nTree))
  -- there is no page for a tree
  | failed {m' : Mem} {err : Int} : pe.gcAllocSingle = .error err → Formed m' p pe.env.space →
      isLeaf m' p = true → items m' p = items m p →
      PutDone pe m p k key olds alone i value m' (.failed err)

/-- The outer page, the buffer and a new page lie apart. -/
structure Places (pe : PutEnv) (p : Nat) : Prop where
  buf : p + pe.env.ps ≤ pe.pageAuxbuf ∨ pe.pageAuxbuf + pe.env.ps ≤ p
  page : ∀ root, pe.gcAllocSingle = .ok root → p + pe.env.ps ≤ root ∨ root + pe.env.ps ≤ p
  root : ∀ root, pe.gcAllocSingle = .ok root →
    pe.pageAuxbuf + pe.env.ps ≤ root ∨ root + pe.env.ps ≤ pe.pageAuxbuf

/-- What a put may change. -/
def Elsewhere (pe : PutEnv) (p a : Nat) : Prop := (a < p ∨ p + pe.env.ps ≤ a) ∧
  (a < pe.pageAuxbuf ∨ pe.pageAuxbuf + pe.env.ps ≤ a) ∧
  ∀ root, pe.gcAllocSingle = .ok root → a < root ∨ root + pe.env.ps ≤ a

/-- `P_SUBP` is taken away, and the kind stays. -/
theorem subtreeFlags {fpFlags : Nat} (hfix : isDupfixLeaf m p = pe.dupFixed)
    (hleafy : (fpFlags &&& pLeaf != 0) = isLeaf m p)
    (hplain : pe.dupFixed = false → fpFlags &&& pDupfix = 0) :
    SameKind m p (if pe.dupFixed then fpFlags &&& (0xffff - pSubp) ||| pDupfix
      else fpFlags &&& (0xffff - pSubp)) := by
  have hcut : ∀ bit, (0xffff - pSubp) &&& bit = bit →
      fpFlags &&& (0xffff - pSubp) &&& bit = fpFlags &&& bit := by
    intro bit hbit
    rw [Nat.and_assoc, hbit]
  have hlt : fpFlags &&& (0xffff - pSubp) < 65536 :=
    Nat.lt_of_le_of_lt Nat.and_le_right (by decide)
  cases hd : pe.dupFixed with
  | true =>
    rw [hd] at hfix
    rw [if_pos rfl]
    refine ⟨Nat.or_lt_two_pow (n := 16) hlt (by decide), ?_, ?_⟩
    · rw [Nat.and_or_distrib_right, hcut pLeaf rfl]
      have hnone : pDupfix &&& pLeaf = 0 := rfl
      rw [hnone, Nat.or_zero]
      exact hleafy
    · rw [hfix, bne_iff_ne, Nat.and_or_distrib_right]
      intro h
      exact absurd (Nat.or_eq_zero_iff.mp h).2 (by decide)
  | false =>
    rw [hd] at hfix
    rw [if_neg Bool.false_ne_true]
    refine ⟨hlt, ?_, ?_⟩
    · rw [hcut pLeaf rfl]
      exact hleafy
    · rw [hcut pDupfix rfl, hplain hd, hfix]
      rfl

-- the flags of a page are of its kind
theorem pageFlags_plain (hfix : isDupfixLeaf m p = pe.dupFixed) (hd : pe.dupFixed = false) :
    pageFlags m p &&& pDupfix = 0 := by
  unfold isDupfixLeaf at hfix
  exact bne_eq_false_iff_eq.mp (hfix.trans hd)

theorem convertToSubtree_spec (hf : Formed m p pe.env.space) (hleaf : isLeaf m p = true)
    (hk : k < pageNumkeys m p) (hplaces : Places pe p) {alone : Option (List UInt8)}
    {fp len fpFlags : Nat}
    (hlen : 20 ≤ len ∧ len % 2 = 0 ∧ len < pe.env.ps)
    (hfp : p ≤ fp ∧ fp + len ≤ p + pe.env.ps ∨ fp = pe.pageAuxbuf)
    (hsub : SubFormed m fp (len - 20)) (hinner : isLeaf m fp = true)
    (hfix : isDupfixLeaf m fp = pe.dupFixed) (hleafy : (fpFlags &&& pLeaf != 0) = isLeaf m fp)
    (hplain : pe.dupFixed = false → fpFlags &&& pDupfix = 0) (hfits : AllFit pe m fp alone i value)
    (hroom : allNeeds m fp alone value ≤ pageRoom m fp + (pe.env.ps - len))
    (hsize : nodeSizeLen key.length 48 ≤ pe.env.leafNodeMax)
    (hlone : ∀ old, alone = some old → old.length + 20 ≤ pe.env.ps ∧
      ByteMemory.bytes m (pe.pageAuxbuf + pageHdrSz) old.length = old) :
    let r := convertToSubtree pe m p k key fp len fpFlags (alone.map List.length) i value
    PutDone pe m p k key (values m fp) alone i value r.1 r.2 ∧ ∀ a, Elsewhere pe p a → r.1 a = m a := by
  obtain ⟨hlow, heven, hhigh⟩ := hlen
  have hmax := leafNodeMax_lt pe.env
  have hps := hmax.2.1
  have heven' := pe.env.ps_bounds.2.2
  unfold convertToSubtree
  cases hpage : pe.gcAllocSingle with
  | error err => exact ⟨.failed hpage hf hleaf rfl, fun _ _ => rfl⟩
  | ok root =>
    have hpapart := hplaces.page root hpage
    have hbapart := hplaces.root root hpage
    have hsame : len - 20 + (pe.env.ps - len) = pe.env.space := by omega
    have hend : root + len + (pe.env.ps - len) = root + pe.env.ps := by omega
    obtain ⟨hsub₁, hvalues₁, hroom₁, hkinds₁, hout₁⟩ := growSubpage_spec m root (pe.env.ps - len)
      pe.frontTxnid hlow hsub (subtreeFlags hfix hleafy hplain) (by omega) (by omega)
      (by rw [hend]; omega)
    rw [hsame] at hsub₁
    rw [hend] at hout₁
    simp only
    generalize growSubpage m fp root _ (pe.env.ps - len) len pe.frontTxnid = m₁ at *
    have hrest : ∀ a, a < root ∨ root + pe.env.ps ≤ a → m₁ a = m a := fun a ha =>
      hout₁ a (by omega) (by omega)
    obtain ⟨hf₁, hitems₁, hleaf₁, -, -⟩ := hf.same m₁ fun a h₁ h₂ h₃ => hrest a (by omega)
    have hnum₁ : pageNumkeys m₁ p = pageNumkeys m p := by
      rw [← length_items, hitems₁, length_items]
    have hdel := nodeDel_spec hf₁ (show k < pageNumkeys m₁ p by omega) 0
    have hnum₂ : k ≤ pageNumkeys (nodeDel m₁ p k 0) p := by
      rw [← length_items, hdel.items_eq, List.length_eraseIdx_of_lt (by rw [length_items]; omega),
        length_items]
      omega
    generalize nodeDel m₁ p k 0 = m₂ at *
    have hout₂ : ∀ a, a < p ∨ p + pe.env.ps ≤ a → m₂ a = m₁ a := fun a ha =>
      hdel.framed.outside a (by unfold pageHdrSz; omega)
    have hitems₂ : items m₂ p = (items m p).eraseIdx k := by
      rw [hdel.items_eq, hitems₁]
    have hleaf₂ : isLeaf m₂ p = true := hdel.framed.header.1.trans (hleaf₁.trans hleaf)
    -- the new page holds what the sub-page held
    have hagree₂ : Agree m₁ m₂ root root (20 + pe.env.space) := fun d hd => hout₂ _ (by omega)
    obtain ⟨hsub₂, hvalues₂, hroom₂⟩ := hsub₁.agree hagree₂
    obtain ⟨hinner₂, hfix₂, hks₂⟩ := flags_of_agree (hagree₂.part (d := 8) (k := 4) (by omega))
    obtain ⟨hneeds, hfit⟩ := AllFit.congr pe alone i value (hfix₂.trans hkinds₁.2.1)
      (hks₂.trans hkinds₁.2.2) (hvalues₂.trans hvalues₁)
    have hpgno₂ : pagePgno m₂ root = pagePgno m root := by
      have hagree : Agree m m₂ (root + 16) (root + 16) 4 := fun d hd => by
        rw [hout₂ _ (by omega), hout₁ _ (by omega) (by omega)]
      exact hagree.peek
    have hrecord : treeRecord pe.db2sub (if pe.dupFixed then dupfixKsize m fp else 0)
        (pagePgno m root) (pageNumkeys m fp) pe.txnid = pe.record m₂ root (values m fp).length := by
      unfold PutEnv.record
      rw [length_values, hpgno₂, hks₂, hkinds₁.2.2]
    rw [hrecord]
    have hreclen : (pe.record m₂ root (values m fp).length).length = 48 := length_treeRecord ..
    -- the value that was alone is still in the buffer
    have hcopy : ∀ m', (∀ a, a < p ∨ p + pe.env.ps ≤ a → m' a = m₂ a) →
        (alone.map List.length).map (ByteMemory.bytes m' (pe.pageAuxbuf + pageHdrSz)) = alone := by
      intro m' hm'
      cases hal : alone with
      | none => rfl
      | some old =>
        obtain ⟨hold, hbytes⟩ := hlone old hal
        have hbuf := hplaces.buf
        have hagree : Agree m m' (pe.pageAuxbuf + pageHdrSz) (pe.pageAuxbuf + pageHdrSz) old.length := by
          intro d hd
          unfold pageHdrSz
          rw [hm' _ (by omega), hout₂ _ (by omega), hrest _ (by omega)]
        exact congrArg some (hagree.bytes.trans hbytes)
    have helse : ∀ a, Elsewhere pe p a → m₂ a = m a := fun a ha => by
      rw [hout₂ a ha.1, hrest a (ha.2.2 root hpage)]
    have hfree : allNeeds m₂ root alone value ≤ pageRoom m₂ root := by omega
    by_cases hnode : pageRoom m₂ p < pe.env.leafSize key.length 48
    · rw [insertNode_split (by rw [hreclen]; exact hnode)]
      refine ⟨?_, helse⟩
      rw [← hvalues₁, ← hvalues₂]
      exact .splitTree hpage hdel.formed hleaf₂ hitems₂ hnode hsub₂ rfl hfree
        (hcopy m₂ fun _ _ => rfl)
    · obtain ⟨hstatus, ⟨hf₃, hleaf₃⟩, hitems₃, ⟨hsub₃, hvalues₃⟩, hout₃⟩ := insertNode_tree key
        (pe.record m₂ root (values m fp).length) hdel.formed hleaf₂ hnum₂ hpapart hreclen hsub₂
        (hinner₂.trans (hkinds₁.1.trans hinner)) (by rw [hreclen]; exact hsize) hcopy (hfit hfits)
        hfree (by rw [hreclen]; omega)
      rw [hstatus]
      rw [hvalues₂, hvalues₁] at hvalues₃ hitems₃
      rw [hitems₂, insertIdx_eraseIdx_self (by rw [length_items]; exact hk)] at hitems₃
      refine ⟨.tree hpage hf₃ hleaf₃ hitems₃ hsub₃ hvalues₃, fun a ha => ?_⟩
      rw [hout₃ a ha.1 (ha.2.2 root hpage), helse a ha]

end Mdbx.Slotted
