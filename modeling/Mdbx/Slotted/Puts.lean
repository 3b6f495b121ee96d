import Mdbx.Slotted.Runs
import Mdbx.Slotted.Values

/-!
# Slotted.Puts — a value more, a value less

Whichever way a put takes, the sub-page where it is, a larger one, a tree of its own, or the page is
handed on to be split, the key has the values that it had and the new one, and the other items of the
page are what they were.  A value that is deleted leaves the others.
-/

namespace Mdbx.Slotted

open Node ByteMemory

variable {pe : PutEnv} {m m' : Mem} {p k i n : Nat} {key data value : List UInt8}

/-! ## 1. A page to try it on -/

/-- A page with one key, and the rest of what a put is given. -/
def somePage (data : List UInt8) (flags : Nat) : Mem :=
  (nodeAddLeaf smallest true (.error 0) (pageNew smallest (fun _ => 0) 0 pLeaf) 0 0 [7]
    ⟨data, data.length⟩ flags).mem

def limited (limit : Nat) : PutEnv where
  env := smallest
  lim := ⟨limit, 0, 0, 0⟩
  pageNewLarge := .error 0
  gcAllocSingle := .ok 1024
  frontTxnid := 5
  txnid := 5
  dupFixed := true
  db2sub := 0
  pageAuxbuf := 512

theorem limited_places (limit : Nat) : Places (limited limit) 0 := by
  refine ⟨.inl (show 0 + 256 ≤ 512 by decide), fun root h => ?_, fun root h => ?_⟩
  · obtain rfl : 1024 = root := Except.ok.inj h
    exact .inl (show 0 + 256 ≤ 1024 by decide)
  · obtain rfl : 1024 = root := Except.ok.inj h
    exact .inl (show 512 + 256 ≤ 1024 by decide)

theorem somePage_item (data : List UInt8) (flags : Nat)
    (hsize : nodeSizeLen [(7 : UInt8)].length data.length ≤ smallest.leafNodeMax)
    (hflags : flags < 256 ∧ flags &&& nBig = 0 ∧ flags &&& mdbxReserve = 0) :
    Formed (somePage data flags) 0 smallest.space ∧ isLeaf (somePage data flags) 0 = true ∧
      0 < pageNumkeys (somePage data flags) 0 ∧
      itemAt (somePage data flags) true (pageNode (somePage data flags) 0 0) =
        ⟨data.length, flags, [7], data⟩ := by
  obtain ⟨hf, -⟩ := pageNew_formed smallest (fun _ => 0) 0 (show pLeaf < 65536 by decide) rfl
  have hleaf : isLeaf (pageNew smallest (fun _ => 0) 0 pLeaf) 0 = true := by decide
  have hroom : smallest.leafSize [(7 : UInt8)].length data.length ≤
      pageRoom (pageNew smallest (fun _ => 0) 0 pLeaf) 0 := by
    rw [nodeSizeLen_le_leafSize smallest hsize]
    have hmax : smallest.leafNodeMax = 116 := by decide
    have hfree : pageRoom (pageNew smallest (fun _ => 0) 0 pLeaf) 0 = 236 := by decide
    omega
  have hsize' : nodeSizeLen [(7 : UInt8)].length data.length ≤ (limited 0).env.leafNodeMax := hsize
  obtain ⟨-, hholds⟩ := nodePlaced flags hf hleaf (Nat.zero_le _) hsize' hflags hroom
  obtain ⟨hindex, hitem⟩ := item_inserted hholds.items_eq (Nat.zero_le _)
  have hleaf' := hholds.framed.header.1.trans hleaf
  rw [hleaf'] at hitem
  exact ⟨hholds.formed, hleaf', hindex, hitem⟩

/-- Two values of two bytes, and room for two more. -/
def pairBytes : List UInt8 := [0, 0, 0, 0, 0, 0, 0, 0, 2, 0, 0x62, 0, 4, 0, 8, 0, 0, 0, 0, 0,
  1, 2, 3, 4, 0, 0, 0, 0]

theorem pairBytes_sub : SubItem ⟨pairBytes.length, nDup, [7], pairBytes⟩ := by
  refine ⟨by decide, by decide, by decide, by decide, rfl, ?_, by decide⟩
  unfold SubFormed
  rw [if_pos (by decide)]
  exact ⟨2, by decide, by decide, by decide, by decide, by decide, by decide, by decide, by decide⟩

/-- The same without room. -/
def fullBytes : List UInt8 := [0, 0, 0, 0, 0, 0, 0, 0, 2, 0, 0x62, 0, 4, 0, 4, 0, 0, 0, 0, 0,
  1, 2, 3, 4]

theorem fullBytes_sub : SubItem ⟨fullBytes.length, nDup, [7], fullBytes⟩ := by
  refine ⟨by decide, by decide, by decide, by decide, rfl, ?_, by decide⟩
  unfold SubFormed
  rw [if_pos (by decide)]
  exact ⟨2, by decide, by decide, by decide, by decide, by decide, by decide, by decide, by decide⟩

/-! ## 2. The ways of a put -/

theorem reserveLoop_spec (lim : SubpageLimits) (hostPageRoom itemLen rounds reserve subpageLen : Nat) :
    (reserveLoop lim hostPageRoom itemLen rounds reserve subpageLen).2 + reserve =
      subpageLen + (reserveLoop lim hostPageRoom itemLen rounds reserve subpageLen).1 := by
  induction rounds generalizing reserve subpageLen with
  | zero => rfl
  | succ rounds ih =>
    unfold reserveLoop
    split_ifs with h
    · have hih := ih (reserve + itemLen) (subpageLen + itemLen)
      omega
    · rfl

/-- The reserve keeps the length of the sub-page even. -/
theorem reserveLoop_le (lim : SubpageLimits) (hostPageRoom itemLen rounds reserve subpageLen : Nat) :
    (reserveLoop lim hostPageRoom itemLen rounds reserve subpageLen).2 = subpageLen ∨
      evenCeil (reserveLoop lim hostPageRoom itemLen rounds reserve subpageLen).2 ≤ lim.limit := by
  induction rounds generalizing reserve subpageLen with
  | zero => exact .inl rfl
  | succ rounds ih =>
    unfold reserveLoop
    split_ifs with h
    · obtain heq | hle := ih (reserve + itemLen) (subpageLen + itemLen)
      · exact .inr (heq.symm ▸ h.2.1)
      · exact .inr hle
    · exact .inl rfl

theorem pageSubleaf2Reserve_spec (lim : SubpageLimits) (hostPageRoom itemLen subpageLen : Nat) :
    (subpageLen + pageSubleaf2Reserve lim hostPageRoom subpageLen itemLen) % 2 = 0 ∧
      (subpageLen + pageSubleaf2Reserve lim hostPageRoom subpageLen itemLen ≤ subpageLen + 1 ∨
        subpageLen + pageSubleaf2Reserve lim hostPageRoom subpageLen itemLen ≤ lim.limit) := by
  have hsum := reserveLoop_spec lim hostPageRoom itemLen 5 0 subpageLen
  have hle := reserveLoop_le lim hostPageRoom itemLen 5 0 subpageLen
  unfold pageSubleaf2Reserve
  generalize reserveLoop lim hostPageRoom itemLen 5 0 subpageLen = r at *
  obtain ⟨reserve, len⟩ := r
  unfold evenCeil evenFloor at hle
  simp only at hsum hle ⊢
  omega

theorem SubFormed.space_even {sp space : Nat} (h : SubFormed m sp space) : space % 2 = 0 := by
  unfold SubFormed at h
  split_ifs at h with hd
  · obtain ⟨ksize, hf⟩ := h
    exact hf.even
  · have hfull := h.full
    have heven := h.even
    have hsum : 2 ∣ ((items m sp).map Item.bytes).sum := by
      refine List.dvd_sum fun n hn => ?_
      obtain ⟨x, -, rfl⟩ := List.mem_map.mp hn
      exact Nat.dvd_of_mod_eq_zero (evenCeil_even _)
    omega

/-- What the checks for a sub-page leave of the page size. -/
theorem tooBig_false {hostRoom ks oldLen newLen : Nat} (h : tooBig pe hostRoom ks oldLen newLen = false) :
    nodeSizeLen ks newLen ≤ pe.env.leafNodeMax := by
  unfold tooBig at h
  rw [Bool.or_eq_false_iff, Bool.or_eq_false_iff] at h
  exact Nat.le_of_not_lt (of_decide_eq_false h.1.2)

/-- What a value needs is less than half a page. -/
theorem Fits.needs {sp : Nat} (h : Fits pe m sp value) :
    dupNeeds m sp value ≤ nodeSizeLen value.length 0 + 2 := by
  have hceil := (evenCeil_bounds (8 + value.length + 0)).1
  rw [← nodeSizeLen_eq] at hceil
  unfold dupNeeds
  split_ifs with hd
  · have hfixed := h.fixed hd
    omega
  · exact Nat.le_refl _

/-- There is room in the sub-page. -/
theorem continueSubpage (hf : Formed m p pe.env.space) (hs : Sub m p k)
    (hfits : AllFit pe m (nodeData m (pageNode m p k)) none i value) (front pgno : Nat)
    (hroom : dupNeeds m (nodeData m (pageNode m p k)) value ≤
      pageRoom m (nodeData m (pageNode m p k))) :
    let fp := nodeData m (pageNode m p k)
    let r := dupsortPut pe (setPagePgno (poke m fp 8 front) fp pgno) fp none i value
    PutDone pe m p k (itemAt m true (pageNode m p k)).key (values m fp) none i value r.1
      (.subpage r.2) ∧ ∀ a, a < p ∨ p + pe.env.ps ≤ a → r.1 a = m a := by
  have hps := (leafNodeMax_lt pe.env).2.1
  have hheader := hs.header
  unfold pageHdrSz at hheader
  simp only
  generalize hm₁ : setPagePgno (poke m (nodeData m (pageNode m p k)) 8 front)
    (nodeData m (pageNode m p k)) pgno = m₁
  have hout₁ : ∀ a, (a < nodeData m (pageNode m p k) ∨ nodeData m (pageNode m p k) + 8 ≤ a) →
      (a < nodeData m (pageNode m p k) + 16 ∨ nodeData m (pageNode m p k) + 20 ≤ a) →
      m₁ a = m a := fun a h₁ h₂ => by
    rw [← hm₁]
    unfold setPagePgno
    rw [poke_outside (by omega), poke_outside (by omega)]
  obtain ⟨-, hup, -, hplain⟩ := hs.formed.bounds
  have hbody : ∀ a, nodeData m (pageNode m p k) + 20 ≤ a → m₁ a = m a := fun a ha =>
    hout₁ a (by omega) (by omega)
  have hhead : Agree m m₁ (nodeData m (pageNode m p k) + 8) (nodeData m (pageNode m p k) + 8) 8 :=
    fun d hd => hout₁ _ (by omega) (by omega)
  obtain ⟨hsub₁, hvalues₁, hroom₁, -⟩ := hs.formed.copied hhead (fun _ d _ => hbody _ (by omega))
    (fun _ d _ => hbody _ (by omega)) (fun _ d _ => hbody _ (by omega))
  obtain ⟨hinner₁, hfix₁, hks₁⟩ := flags_of_agree (hhead.mono (by omega))
  obtain ⟨hs₁, hplace₁, hdata₁, -, x, hholds₁, -, hkey₁, -⟩ := hs.change hf
    (fun a ha => hout₁ a (by omega) (by omega)) hsub₁ (hinner₁.trans hs.inner)
  obtain ⟨hneeds, hfit⟩ := AllFit.congr pe none i value hfix₁ hks₁ hvalues₁
  have hitem₁ := (item_set hholds₁.items_eq hs.index).2
  rw [hs₁.leaf, hplace₁] at hitem₁
  have hnone : allNeeds m (nodeData m (pageNode m p k)) none value =
      dupNeeds m (nodeData m (pageNode m p k)) value := Nat.zero_add _
  have hput := hs₁.put pe none i value hholds₁.formed
  rw [hplace₁, hdata₁] at hput
  obtain ⟨hstatus, y, hholds, hy, hkey, hys⟩ := hput (hfit hfits) (by omega)
  rw [hstatus]
  refine ⟨.subpage hholds.formed (hholds.framed.header.1.trans hs₁.leaf) ?_ hy ?_ ?_, fun a ha => ?_⟩
  · rw [hholds.items_eq, hholds₁.items_eq, List.set_set]
  · rw [hkey, hitem₁, hkey₁]
  · rw [hys, hvalues₁]
  · rw [hholds.framed.outside a (by unfold pageHdrSz; omega),
      hholds₁.framed.outside a (by unfold pageHdrSz; omega)]

/-- The items of the page are all that a put leaves of it. -/
theorem PutDone.of_items {m₁ : Mem} {key : List UInt8} {olds : List (List UInt8)}
    {alone : Option (List UInt8)} {m' : Mem} {status : DupStatus} (hitems : items m₁ p = items m p)
    (h : PutDone pe m₁ p k key olds alone i value m' status) :
    PutDone pe m p k key olds alone i value m' status := by
  cases h with
  | subpage hf hleaf hset hx hkey hys => exact .subpage hf hleaf (hitems ▸ hset) hx hkey hys
  | tree hpage hf hleaf hset hsub hys => exact .tree hpage hf hleaf (hitems ▸ hset) hsub hys
  | splitSubpage hf hleaf herase hroom hx hys hneeds hold =>
    exact .splitSubpage hf hleaf (hitems ▸ herase) hroom hx hys hneeds hold
  | splitTree hpage hf hleaf herase hroom hsub hys hneeds hold =>
    exact .splitTree hpage hf hleaf (hitems ▸ herase) hroom hsub hys hneeds hold
  | failed hpage hf hleaf heq => exact .failed hpage hf hleaf (heq.trans hitems)

/-- A page of values in the buffer takes the place of the `k`-th node. -/
theorem boxedSubpage (key : List UInt8) {alone : Option (List UInt8)} {len : Nat}
    (hf : Formed m p pe.env.space) (hleaf : isLeaf m p = true) (hk : k < pageNumkeys m p)
    (hplaces : Places pe p) (hlen : 20 ≤ len) (hsub : SubFormed m pe.pageAuxbuf (len - 20))
    (hinner : isLeaf m pe.pageAuxbuf = true) (hfits : AllFit pe m pe.pageAuxbuf alone i value)
    (hroom : allNeeds m pe.pageAuxbuf alone value ≤ pageRoom m pe.pageAuxbuf)
    (hsize : nodeSizeLen key.length len ≤ pe.env.leafNodeMax)
    (hlone : ∀ old, alone = some old → old.length + 20 ≤ pe.env.ps ∧
      ByteMemory.bytes m (pe.pageAuxbuf + pageHdrSz) old.length = old) :
    let m₁ := nodeDel m p k 0
    let r := insertNode pe m₁ p k key (ByteMemory.bytes m₁ pe.pageAuxbuf len) nDup none
      (alone.map List.length) i value
    PutDone pe m p k key (values m pe.pageAuxbuf) alone i value r.1 r.2 ∧
      ∀ a, a < p ∨ p + pe.env.ps ≤ a → r.1 a = m a := by
  have hmax := leafNodeMax_lt pe.env
  have hps := hmax.2.1
  have hbuf := hplaces.buf
  have hceil := (evenCeil_bounds (8 + key.length + len)).1
  rw [← nodeSizeLen_eq] at hceil
  have hdel := nodeDel_spec hf hk 0
  have hnum : k ≤ pageNumkeys (nodeDel m p k 0) p := by
    rw [← length_items, hdel.items_eq, List.length_eraseIdx_of_lt (by rw [length_items]; omega),
      length_items]
    omega
  simp only
  generalize nodeDel m p k 0 = m₁ at *
  have hout : ∀ a, a < p ∨ p + pe.env.ps ≤ a → m₁ a = m a := fun a ha =>
    hdel.framed.outside a (by unfold pageHdrSz; omega)
  have hleaf₁ : isLeaf m₁ p = true := hdel.framed.header.1.trans hleaf
  -- the buffer is not touched by the deletion
  have hagree : Agree m m₁ pe.pageAuxbuf pe.pageAuxbuf len := fun d hd => hout _ (by omega)
  have hwhole : 20 + (len - 20) = len := by omega
  obtain ⟨hsub₁, hvalues₁, hroom₁⟩ := hsub.agree (hwhole.symm ▸ hagree)
  obtain ⟨hinner₁, hfix₁, hks₁⟩ := flags_of_agree (hagree.part (d := 8) (k := 4) (by omega))
  obtain ⟨hitem, hxs, hfree⟩ := SubItem.of_bytes key hlen hsub₁ (hinner₁.trans hinner)
    (show nDup &&& nDup ≠ 0 ∧ nDup &&& nTree = 0 ∧ nDup &&& nBig = 0 by decide)
  obtain ⟨-, hfixd, hksd, -, -⟩ := memOf_spec m₁ pe.pageAuxbuf hlen
  have hdatalen := length_bytes m₁ pe.pageAuxbuf len
  have hcopy : ∀ m', (∀ a, a < p ∨ p + pe.env.ps ≤ a → m' a = m₁ a) →
      (alone.map List.length).map (ByteMemory.bytes m' (pe.pageAuxbuf + pageHdrSz)) = alone := by
    intro m' hm'
    cases hal : alone with
    | none => rfl
    | some old =>
      obtain ⟨hold, hbytes⟩ := hlone old hal
      have hagree : Agree m m' (pe.pageAuxbuf + pageHdrSz) (pe.pageAuxbuf + pageHdrSz) old.length := by
        intro d hd
        unfold pageHdrSz
        rw [hm' _ (by omega), hout _ (by omega)]
      exact congrArg some (hagree.bytes.trans hbytes)
  generalize ByteMemory.bytes m₁ pe.pageAuxbuf len = data at *
  rw [← hdatalen] at hitem hsize
  have hvals : values (memOf data) 0 = values m pe.pageAuxbuf := hxs.trans hvalues₁
  have hfreed : pageRoom (memOf data) 0 = pageRoom m pe.pageAuxbuf := hfree.trans hroom₁
  obtain ⟨hneed, hfit⟩ := AllFit.congr pe alone i value (hfixd.trans hfix₁) (hksd.trans hks₁) hvals
  have hfits' : allNeeds (memOf data) 0 alone value ≤ pageRoom (memOf data) 0 := by omega
  by_cases hnofit : pageRoom m₁ p < pe.env.leafSize key.length data.length
  · rw [insertNode_split hnofit]
    exact ⟨.splitSubpage hdel.formed hleaf₁ hdel.items_eq hnofit hitem hvals hfits'
      (hcopy m₁ fun _ _ => rfl), hout⟩
  · obtain ⟨hstatus, x, hholds, hx, hkey, hys⟩ := insertNode_sub hdel.formed hleaf₁ hnum hitem hsize
      hcopy (hfit hfits) hfits' (Nat.le_of_not_lt hnofit)
    rw [hstatus]
    have hset := hholds.items_eq
    rw [hdel.items_eq, insertIdx_eraseIdx_self (by rw [length_items]; exact hk)] at hset
    rw [hvals] at hys
    refine ⟨.subpage hholds.formed (hholds.framed.header.1.trans hleaf₁) hset hx hkey hys,
      fun a ha => ?_⟩
    rw [hholds.framed.outside a (by unfold pageHdrSz; omega), hout a ha]

/-- The sub-page goes to the buffer with more room, and back. -/
theorem grownSubpage (key : List UInt8) {growth : Nat} (hf : Formed m p pe.env.space) (hs : Sub m p k)
    (hplaces : Places pe p) (hfits : AllFit pe m (nodeData m (pageNode m p k)) none i value)
    (hgrow : growth % 2 = 0) (hneeds : dupNeeds m (nodeData m (pageNode m p k)) value ≤ growth)
    (hsize : nodeSizeLen key.length (nodeDs m (pageNode m p k) + growth) ≤ pe.env.leafNodeMax) :
    let fp := nodeData m (pageNode m p k)
    let ds := nodeDs m (pageNode m p k)
    let m₂ := nodeDel (growSubpage m fp pe.pageAuxbuf (pageFlags m fp) growth ds pe.frontTxnid) p k 0
    let r := insertNode pe m₂ p k key (ByteMemory.bytes m₂ pe.pageAuxbuf (ds + growth)) nDup none none
      i value
    PutDone pe m p k key (values m fp) none i value r.1 r.2 ∧
      ∀ a, Elsewhere pe p a → r.1 a = m a := by
  have hmax := leafNodeMax_lt pe.env
  have hps := hmax.2.1
  obtain ⟨hplace, hdata⟩ := hs.toHosted.place
  have hin := hf.placed.inside k hs.index
  have hceil := (evenCeil_bounds (8 + nodeKs m (pageNode m p k) + nodeDs m (pageNode m p k))).1
  rw [← hplace] at hceil
  have hnode : pageNode m p k = p + entry m p k + 20 := rfl
  have hheader := hs.header
  unfold pageHdrSz at hheader
  have hlong := (evenCeil_bounds (8 + key.length + (nodeDs m (pageNode m p k) + growth))).1
  rw [← nodeSizeLen_eq] at hlong
  have hbuf := hplaces.buf
  have hk := hs.index
  have hkind : SameKind m (nodeData m (pageNode m p k))
      (pageFlags m (nodeData m (pageNode m p k))) := ⟨peek_lt m _ 2, rfl, rfl⟩
  obtain ⟨hsub₁, hvalues₁, hroom₁, hkinds₁, hout₁⟩ := growSubpage_spec m pe.pageAuxbuf growth
    pe.frontTxnid hheader hs.formed hkind hgrow (by omega) (by omega)
  simp only
  generalize hfp : nodeData m (pageNode m p k) = fp at *
  generalize nodeDs m (pageNode m p k) = ds at *
  generalize growSubpage m fp pe.pageAuxbuf (pageFlags m fp) growth ds pe.frontTxnid = m₁ at *
  have hrest : ∀ a, a < pe.pageAuxbuf ∨ pe.pageAuxbuf + pe.env.ps ≤ a → m₁ a = m a := fun a ha =>
    hout₁ a (by omega) (by omega)
  obtain ⟨hf₁, hitems₁, hleaf₁, -, -⟩ := hf.same m₁ fun a h₁ h₂ h₃ => hrest a (by omega)
  have hnum₁ : pageNumkeys m₁ p = pageNumkeys m p := by
    rw [← length_items, hitems₁, length_items]
  have hspace : ds - 20 + growth = ds + growth - 20 := by omega
  rw [hspace] at hsub₁
  have hinner : isLeaf m₁ pe.pageAuxbuf = true := by
    rw [hkinds₁.1, ← hfp]
    exact hs.inner
  obtain ⟨hneed, hfit⟩ := AllFit.congr pe none i value hkinds₁.2.1 hkinds₁.2.2 hvalues₁
  have hnone : allNeeds m fp none value = dupNeeds m fp value := Nat.zero_add _
  obtain ⟨hdone, hout⟩ := boxedSubpage key hf₁ (hleaf₁.trans hs.leaf) (show k < pageNumkeys m₁ p by omega)
    hplaces (by omega) hsub₁ hinner (hfit hfits) (by omega) hsize (fun _ h => nomatch h)
  rw [hvalues₁] at hdone
  exact ⟨hdone.of_items hitems₁, fun a ha => (hout a ha.1).trans (hrest a ha.2.1)⟩

/-- A value put to a sub-page, at the index that the search in it has given, is among the values of the
key, whether the sub-page has room, grows, or becomes a tree; or the page is to be split first, and
nothing is lost on the way. -/
theorem putSubpage_spec (hf : Formed m p pe.env.space) (hs : Sub m p k) (hplaces : Places pe p)
    (hfits : AllFit pe m (nodeData m (pageNode m p k)) none i value)
    (hfix : isDupfixLeaf m (nodeData m (pageNode m p k)) = pe.dupFixed)
    (hnode : nodeSizeLen (nodeKs m (pageNode m p k)) (nodeDs m (pageNode m p k)) ≤ pe.env.leafNodeMax)
    (hsize : nodeSizeLen (nodeKs m (pageNode m p k)) 48 ≤ pe.env.leafNodeMax) :
    let key := (itemAt m true (pageNode m p k)).key
    let r := putSubpage pe m p k key i value
    PutDone pe m p k key (values m (nodeData m (pageNode m p k))) none i value r.1 r.2 ∧
      ∀ a, Elsewhere pe p a → r.1 a = m a := by
  have hmax := leafNodeMax_lt pe.env
  have hps := hmax.2.1
  have hbuf := hplaces.buf
  simp only
  unfold putSubpage
  simp only
  generalize hm₁ : setPagePgno (poke m pe.pageAuxbuf 8 pe.frontTxnid) pe.pageAuxbuf (pagePgno m p) = m₁
  have hout₁ : ∀ a, a < pe.pageAuxbuf ∨ pe.pageAuxbuf + 20 ≤ a → m₁ a = m a := fun a ha => by
    rw [← hm₁]
    unfold setPagePgno
    rw [poke_outside (by omega), poke_outside (by omega)]
  have helse : ∀ a, Elsewhere pe p a → m₁ a = m a := fun a ha => hout₁ a (by have := ha.2.1; omega)
  -- the header of the buffer is outside of the page
  obtain ⟨hs₁, hnode₁, hitem₁, hdata₁, hds₁, hks₁, hagree⟩ := hs.same hf
    (show ∀ a, p ≤ a → a < p + 20 + pe.env.space → m₁ a = m a from fun a h₁ h₂ => hout₁ a (by omega))
  obtain ⟨hf₁, hitems₁, -⟩ := hf.same m₁ fun a h₁ _ h₃ => hout₁ a (by omega)
  have hheader := hs.header
  unfold pageHdrSz at hheader
  have hlen : 20 + (nodeDs m (pageNode m p k) - 20) = nodeDs m (pageNode m p k) := by omega
  obtain ⟨-, hvalues₁, -⟩ := hs.formed.agree (hlen.symm ▸ hagree)
  obtain ⟨-, hfix₁, hksize₁⟩ := flags_of_agree (hagree.part (d := 8) (k := 4) (by omega))
  have hfits₁ := (AllFit.congr pe none i value hfix₁ hksize₁ hvalues₁).2 hfits
  rw [← hitem₁, ← hvalues₁]
  rw [← hfix₁] at hfix
  rw [← hdata₁, ← hnode₁] at hfits₁ hfix ⊢
  rw [← hds₁, ← hks₁, ← hnode₁] at hnode
  rw [← hks₁, ← hnode₁] at hsize
  clear hm₁ hfits hitem₁ hdata₁ hds₁ hks₁ hagree hvalues₁ hfix₁ hksize₁ hlen hheader hf hs hnode₁
  suffices h : PutDone pe m₁ p k _ _ none i value _ _ ∧ ∀ a, Elsewhere pe p a → _ = m₁ a from
    ⟨h.1.of_items hitems₁, fun a ha => (h.2 a ha).trans (helse a ha)⟩
  have hheader := hs₁.header
  unfold pageHdrSz at hheader
  obtain ⟨hplace, hdata⟩ := hs₁.toHosted.place
  have hin := hf₁.placed.inside k hs₁.index
  have hceil := (evenCeil_bounds (8 + nodeKs m₁ (pageNode m₁ p k) + nodeDs m₁ (pageNode m₁ p k))).1
  have hceil' := hceil
  rw [← hplace] at hceil
  rw [← nodeSizeLen_eq] at hceil'
  have haddr : pageNode m₁ p k = p + entry m₁ p k + 20 := rfl
  have heven := hs₁.formed.space_even
  have hneeds := hfits₁.new.needs
  have hvalue := hfits₁.new.size
  have hbranch := pe.env.branch_le_leaf
  have hnone : allNeeds m₁ (nodeData m₁ (pageNode m₁ p k)) none value =
      dupNeeds m₁ (nodeData m₁ (pageNode m₁ p k)) value := Nat.zero_add _
  have hkey : (itemAt m₁ true (pageNode m₁ p k)).key.length = nodeKs m₁ (pageNode m₁ p k) :=
    length_bytes _ _ _
  rw [← hkey] at hsize
  have hlong : 20 ≤ nodeDs m₁ (pageNode m₁ p k) ∧ nodeDs m₁ (pageNode m₁ p k) % 2 = 0 ∧
      nodeDs m₁ (pageNode m₁ p k) < pe.env.ps := ⟨hheader, by omega, by omega⟩
  have htree := fun (fpFlags : Nat)
      (hleafy : (fpFlags &&& pLeaf != 0) = isLeaf m₁ (nodeData m₁ (pageNode m₁ p k))) hplain =>
    convertToSubtree_spec hf₁ hs₁.leaf hs₁.index hplaces hlong (.inl ⟨by omega, by omega⟩)
      hs₁.formed hs₁.inner hfix hleafy hplain hfits₁ (by omega) hsize (fun old h => nomatch h)
  have hgrowth : (if isDupfixLeaf m₁ (nodeData m₁ (pageNode m₁ p k)) then
      dupfixKsize m₁ (nodeData m₁ (pageNode m₁ p k)) else nodeSizeLen value.length 0 + indxSz) =
      dupNeeds m₁ (nodeData m₁ (pageNode m₁ p k)) value := rfl
  rw [hgrowth]
  generalize hn : dupNeeds m₁ (nodeData m₁ (pageNode m₁ p k)) value = n at *
  by_cases hroom : pageRoom m₁ (nodeData m₁ (pageNode m₁ p k)) ≥ n
  · -- `continue_subpage`
    rw [if_pos hroom]
    obtain ⟨hdone, hout⟩ := continueSubpage hf₁ hs₁ hfits₁ pe.frontTxnid (pagePgno m₁ pe.pageAuxbuf)
      (by omega)
    exact ⟨hdone, fun a ha => hout a ha.1⟩
  rw [if_neg hroom]
  by_cases hlimit : nodeDs m₁ (pageNode m₁ p k) + (n + n % 2) > pe.lim.limit
  · rw [if_pos hlimit]
    exact htree pLeaf hs₁.inner.symm fun _ => rfl
  rw [if_neg hlimit]
  -- the sub-page may get more room than the value needs
  have hreserve := (pageSubleaf2Reserve_spec pe.lim (pageRoom m₁ p + nodeDs m₁ (pageNode m₁ p k))
    value.length (nodeDs m₁ (pageNode m₁ p k) + (n + n % 2))).1
  generalize hg : (if isDupfixLeaf m₁ (nodeData m₁ (pageNode m₁ p k)) then _ else n + n % 2) = growth
  have hgrow : growth % 2 = 0 ∧ n ≤ growth := by
    rw [← hg]
    split_ifs <;> omega
  by_cases hbig : tooBig pe (pageRoom m₁ p) (nodeKs m₁ (pageNode m₁ p k))
      (nodeDs m₁ (pageNode m₁ p k)) (nodeDs m₁ (pageNode m₁ p k) + growth) = true
  · rw [if_pos hbig]
    exact htree _ rfl (pageFlags_plain hfix)
  rw [if_neg hbig]
  have hfit := tooBig_false (Bool.eq_false_of_not_eq_true hbig)
  rw [← hkey] at hfit
  exact grownSubpage _ hf₁ hs₁ hplaces hfits₁ hgrow.1 (by omega) hfit

/-- The status of a put behind two values of a sub-page, and that it is done. -/
def ThirdStored (data : List UInt8) (limit : Nat) (status : DupStatus) : Prop :=
  let r := putSubpage (limited limit) (somePage data nDup) 0 0 [7] 2 [5, 6]
  r.2 = status ∧
    PutDone (limited limit) (somePage data nDup) 0 0 [7] [[1, 2], [3, 4]] none 2 [5, 6] r.1 r.2

-- in the room of the sub-page, in a sub-page that has grown, and in a tree
theorem putSubpage_spec_pair :
    ThirdStored pairBytes 100 (.subpage .success) ∧
      ThirdStored fullBytes 100 (.subpage .success) ∧
      ThirdStored fullBytes 20 (.tree 1024 .success) := by
  have hstored : ∀ (data : List UInt8) (limit : Nat) (status : DupStatus),
      SubItem ⟨data.length, nDup, [7], data⟩ → values (memOf data) 0 = [[1, 2], [3, 4]] →
      isDupfixLeaf (memOf data) 0 = true ∧ dupfixKsize (memOf data) 0 = 2 →
      nodeSizeLen [(7 : UInt8)].length data.length ≤ smallest.leafNodeMax →
      (putSubpage (limited limit) (somePage data nDup) 0 0 [7] 2 [5, 6]).2 = status →
      ThirdStored data limit status := by
    intro data limit status hsub hpair ⟨hfixed, hwide⟩ hnode hstatus
    refine ⟨hstatus, ?_⟩
    clear hstatus
    obtain ⟨hf, hleaf, hk, hitem⟩ := somePage_item data nDup hnode (by decide)
    generalize somePage data nDup = m at *
    have hs : Sub m 0 0 := (subItem_iff hleaf hk).mp (hitem ▸ hsub)
    obtain ⟨hfix, hks, hvalues, -⟩ := hs.data_spec hitem hsub
    have hfits : AllFit (limited limit) (memOf data) 0 none 2 [5, 6] := by
      have hsmall : nodeSizeLen [(5 : UInt8), 6].length 0 ≤ smallest.branchNodeMax := by decide
      refine ⟨nofun, ⟨fun _ => hwide.symm, hsmall⟩, ?_⟩
      rw [hpair]
      decide
    have hds : nodeDs m (pageNode m 0 0) = data.length := congrArg Item.word hitem
    have hkeylen : nodeKs m (pageNode m 0 0) = 1 :=
      (length_bytes _ _ _).symm.trans (congrArg (fun x => x.key.length) hitem)
    have hf' : Formed m 0 (limited limit).env.space := hf
    have hroot : nodeSizeLen 1 48 ≤ smallest.leafNodeMax := by decide
    have h := putSubpage_spec hf' hs (limited_places limit)
      ((AllFit.congr (limited limit) none 2 [5, 6] hfix.symm hks.symm hvalues).2 hfits)
      (hfix.symm.trans hfixed) (by rw [hds, hkeylen]; exact hnode) (by rw [hkeylen]; exact hroot)
    simp only [hitem, hvalues, hpair] at h
    exact h.1
  refine ⟨?_, ?_, ?_⟩
  · exact hstored _ _ _ pairBytes_sub (by decide) (by decide) (by decide) (by decide +kernel)
  · exact hstored _ _ _ fullBytes_sub (by decide) (by decide) (by decide) (by decide +kernel)
  · exact hstored _ _ _ fullBytes_sub (by decide) (by decide) (by decide) (by decide +kernel)

/-- A page of values that is made in the buffer. -/
theorem emptySubpage (m : Mem) (sp : Nat) {fixed : Bool} {ksize space : Nat}
    (hks : fixed = true → 2 ≤ ksize ∧ ksize < 65536) (hspace : space < 65536 ∧ space % 2 = 0) :
    let m₁ := setLower (poke m (sp + 10) 2
      (if fixed then pLeaf ||| pSubp ||| pDupfix else pLeaf ||| pSubp)) sp 0
    let m₂ := setUpper (if fixed then poke m₁ (sp + 8) 2 ksize else m₁) sp space
    (SubFormed m₂ sp space ∧ values m₂ sp = []) ∧ pageRoom m₂ sp = space ∧
      (isLeaf m₂ sp = true ∧ isDupfixLeaf m₂ sp = fixed) ∧
      (fixed = true → dupfixKsize m₂ sp = ksize) ∧
      ∀ a, a < sp + 8 ∨ sp + 16 ≤ a → m₂ a = m a := by
  intro m₁ m₂
  have hlow : lower m₁ sp = 0 := by
    show peek (poke _ (sp + 12) 2 0) (sp + 12) 2 = 0
    exact (peek_poke _ _ _ _).trans (Nat.zero_mod _)
  have hflags : pageFlags m₁ sp = if fixed then pLeaf ||| pSubp ||| pDupfix else pLeaf ||| pSubp := by
    show peek (poke _ (sp + 12) 2 0) (sp + 10) 2 = _
    rw [peek_poke_apart (by omega), peek_poke]
    cases fixed <;> rfl
  have hbelow : ∀ a, a < sp + 8 ∨ sp + 16 ≤ a → m₁ a = m a := fun a ha => by
    show poke _ (sp + 12) 2 0 a = m a
    rw [poke_outside (by omega), poke_outside (by omega)]
  have hup : upper m₂ sp = space := (peek_poke _ _ _ _).trans (Nat.mod_eq_of_lt hspace.1)
  clear_value m₁
  cases hfix : fixed with
  | true =>
    rw [hfix] at hflags
    have hm₂ : m₂ = setUpper (poke m₁ (sp + 8) 2 ksize) sp space := by
      show setUpper (if fixed then _ else _) sp space = _
      rw [hfix]
      rfl
    clear_value m₂
    subst hm₂
    obtain ⟨hwide, hsmall⟩ := hks hfix
    have hlow' : lower (setUpper (poke m₁ (sp + 8) 2 ksize) sp space) sp = 0 :=
      ((peek_poke_apart (by omega)).trans (peek_poke_apart (by omega))).trans hlow
    have hflags' : pageFlags (setUpper (poke m₁ (sp + 8) 2 ksize) sp space) sp =
        pLeaf ||| pSubp ||| pDupfix :=
      ((peek_poke_apart (by omega)).trans (peek_poke_apart (by omega))).trans hflags
    have hksize : dupfixKsize (setUpper (poke m₁ (sp + 8) 2 ksize) sp space) sp = ksize :=
      (peek_poke_apart (by omega)).trans ((peek_poke _ _ _ _).trans (Nat.mod_eq_of_lt hsmall))
    have hkind : isDupfixLeaf (setUpper (poke m₁ (sp + 8) 2 ksize) sp space) sp = true := by
      unfold isDupfixLeaf
      rw [hflags']
      rfl
    obtain ⟨hformed, hempty⟩ := FixedFormed.empty hkind hlow' hup hspace.1 hspace.2
      (hksize.symm ▸ hwide)
    refine ⟨⟨?_, ?_⟩, ?_, ⟨?_, hkind⟩, fun _ => hksize, fun a ha => ?_⟩
    · unfold SubFormed
      rw [hkind, if_pos rfl]
      exact ⟨_, hformed⟩
    · unfold values
      rw [hkind, if_pos rfl, hempty]
    · unfold pageRoom
      rw [hup, hlow', Nat.sub_zero]
    · unfold isLeaf
      rw [hflags']
      rfl
    · unfold setUpper
      rw [poke_outside (by omega), poke_outside (by omega), hbelow a ha]
  | false =>
    rw [hfix] at hflags
    have hm₂ : m₂ = setUpper m₁ sp space := by
      show setUpper (if fixed then _ else _) sp space = _
      rw [hfix]
      rfl
    clear_value m₂
    subst hm₂
    have hlow' : lower (setUpper m₁ sp space) sp = 0 := (peek_poke_apart (by omega)).trans hlow
    have hflags' : pageFlags (setUpper m₁ sp space) sp = pLeaf ||| pSubp :=
      (peek_poke_apart (by omega)).trans hflags
    have hkind : isDupfixLeaf (setUpper m₁ sp space) sp = false := by
      unfold isDupfixLeaf
      rw [hflags']
      rfl
    obtain ⟨hformed, hempty⟩ := Formed.empty hkind hlow' hup hspace.1 hspace.2
    refine ⟨⟨?_, ?_⟩, ?_, ⟨?_, hkind⟩, (fun h => nomatch h), fun a ha => ?_⟩
    · unfold SubFormed
      rw [hkind, if_neg Bool.false_ne_true]
      exact hformed
    · unfold values
      rw [hkind, if_neg Bool.false_ne_true, hempty]
      rfl
    · unfold pageRoom
      rw [hup, hlow', Nat.sub_zero]
    · unfold isLeaf
      rw [hflags']
      rfl
    · unfold setUpper
      rw [poke_outside (by omega), hbelow a ha]

/-- The second value of a key, at the index that the search among its values has given: the first one
leaves its node for a page of values in the buffer, and comes back there together with the new one. -/
theorem putSecond_spec (hf : Formed m p pe.env.space) (hleaf : isLeaf m p = true)
    (hk : k < pageNumkeys m p) (hsmall : nodeFlags m (pageNode m p k) &&& nBig = 0)
    (hplaces : Places pe p) (hlimit : pe.lim.limit + 8 ≤ pe.env.leafNodeMax) (hi : i ≤ 1)
    (hold : nodeSizeLen (nodeDs m (pageNode m p k)) 0 ≤ pe.env.branchNodeMax)
    (hvalue : nodeSizeLen value.length 0 ≤ pe.env.branchNodeMax)
    (hwidth : pe.dupFixed = true → value.length = nodeDs m (pageNode m p k) ∧ 2 ≤ value.length)
    (hsize : nodeSizeLen (nodeKs m (pageNode m p k)) 48 ≤ pe.env.leafNodeMax) :
    let x := itemAt m true (pageNode m p k)
    let r := putSecond pe m p k x.key i value
    PutDone pe m p k x.key [] (some x.data) i value r.1 r.2 ∧ ∀ a, Elsewhere pe p a → r.1 a = m a := by
  have hmax := leafNodeMax_lt pe.env
  have hps := hmax.2.1
  have hbuf := hplaces.buf
  have hbranch := pe.env.branch_le_leaf
  unfold pgnoSz at hbranch
  have hdata : (itemAt m true (pageNode m p k)).data =
      ByteMemory.bytes m (nodeData m (pageNode m p k)) (nodeDs m (pageNode m p k)) := by
    unfold itemAt dataBytes
    rw [if_pos rfl, if_neg (fun h => h hsmall)]
  have hplace : sizeAt m p k = evenCeil (8 + nodeKs m (pageNode m p k) + nodeDs m (pageNode m p k)) := by
    unfold sizeAt nodeBytes dataBytes nodeHdrSz
    rw [hleaf, if_pos rfl, if_neg (fun h => h hsmall)]
  have hin := hf.placed.inside k hk
  have hceil := (evenCeil_bounds (8 + nodeKs m (pageNode m p k) + nodeDs m (pageNode m p k))).1
  rw [← hplace] at hceil
  have hnode : pageNode m p k = p + entry m p k + 20 := rfl
  have haddr : nodeData m (pageNode m p k) = pageNode m p k + 8 + nodeKs m (pageNode m p k) := rfl
  have hkey : (itemAt m true (pageNode m p k)).key.length = nodeKs m (pageNode m p k) :=
    length_bytes _ _ _
  rw [← hkey] at hsize
  simp only
  rw [hdata]
  generalize (itemAt m true (pageNode m p k)).key = key at *
  unfold putSecond
  simp only
  generalize hm₀ : setPagePgno (poke m pe.pageAuxbuf 8 pe.frontTxnid) pe.pageAuxbuf (pagePgno m p) = m₀
  have hout₀ : ∀ a, a < pe.pageAuxbuf ∨ pe.pageAuxbuf + 20 ≤ a → m₀ a = m a := fun a ha => by
    rw [← hm₀]
    unfold setPagePgno
    rw [poke_outside (by omega), poke_outside (by omega)]
  have hsrc : nodeData m₀ (pageNode m p k) = nodeData m (pageNode m p k) := by
    have hks : Agree m m₀ (pageNode m p k + 6) (pageNode m p k + 6) 2 := fun d hd => hout₀ _ (by omega)
    exact congrArg (nodeKey (pageNode m p k) + ·) hks.peek
  rw [hsrc]
  generalize nodeData m (pageNode m p k) = src at *
  generalize nodeDs m (pageNode m p k) = ds at *
  have hslot := (evenCeil_bounds (8 + ds + 0)).1
  rw [← nodeSizeLen_eq] at hslot
  have hslot' := (evenCeil_bounds (8 + value.length + 0)).1
  rw [← nodeSizeLen_eq] at hslot'
  have hold' := nodeSizeLen_eq ds 0
  have hvalue' := nodeSizeLen_eq value.length 0
  -- the value is in the buffer, behind the header
  generalize hm₁ : move m₀ (pe.pageAuxbuf + pageHdrSz) src ds = m₁
  have hout₁ : ∀ a, a < pe.pageAuxbuf ∨ pe.pageAuxbuf + 20 + ds ≤ a → m₁ a = m a := fun a ha => by
    rw [← hm₁]
    unfold pageHdrSz
    rw [move_outside (by omega), hout₀ a (by omega)]
  have hagree : Agree m m₁ src (pe.pageAuxbuf + pageHdrSz) ds := fun d hd => by
    have hmove := move_agree m₀ (pe.pageAuxbuf + pageHdrSz) src (Nat.le_of_eq (Nat.zero_add ds)) d hd
    rw [Nat.add_zero, Nat.add_zero, hm₁] at hmove
    rw [hmove, hout₀ _ (by omega)]
  have hbytes : ByteMemory.bytes m₁ (pe.pageAuxbuf + pageHdrSz) ds = ByteMemory.bytes m src ds :=
    hagree.bytes
  have hlength : (ByteMemory.bytes m src ds).length = ds := length_bytes _ _ _
  generalize ByteMemory.bytes m src ds = old at *
  clear hm₁ hm₀ hout₀ hagree hsrc
  generalize hx : (if pe.dupFixed = true then
    pageHdrSz + ds + value.length + pageSubleaf2Reserve _ _ _ _ else _) = xlen
  have hxlen : xlen % 2 = 0 ∧ xlen < pe.env.ps ∧ 20 ≤ xlen ∧
      (if pe.dupFixed then value.length + value.length
        else nodeSizeLen ds 0 + 2 + (nodeSizeLen value.length 0 + 2)) ≤ xlen - 20 := by
    rw [← hx]
    unfold pageHdrSz
    split_ifs with hd
    · have hwide := hwidth hd
      have hreserve := fun host => pageSubleaf2Reserve_spec pe.lim host value.length
        (20 + ds + value.length)
      generalize pageRoom _ p + ds = host
      have hreserved := hreserve host
      omega
    · unfold indxSz nodeHdrSz
      unfold evenCeil evenFloor at hold' hvalue'
      omega
  clear hx
  obtain ⟨heven, hhigh, hlow, hneeds⟩ := hxlen
  have hks : pe.dupFixed = true → 2 ≤ value.length ∧ value.length < 65536 := fun hd =>
    ⟨(hwidth hd).2, by omega⟩
  obtain ⟨⟨hsub, hvals⟩, hroom, ⟨hinner, hfix⟩, hksize, hout₂⟩ := emptySubpage m₁ pe.pageAuxbuf hks
    (show xlen - 20 < 65536 ∧ (xlen - 20) % 2 = 0 by omega)
  unfold pageHdrSz at hbytes ⊢
  generalize setUpper (if pe.dupFixed = true then _ else _) pe.pageAuxbuf (xlen - 20) = m₂ at *
  have hrest : ∀ a, a < pe.pageAuxbuf ∨ pe.pageAuxbuf + pe.env.ps ≤ a → m₂ a = m a := fun a ha => by
    rw [hout₂ a (by omega), hout₁ a (by omega)]
  obtain ⟨hf₂, hitems₂, hleaf₂, -, -⟩ := hf.same m₂ fun a h₁ h₂ h₃ => hrest a (by omega)
  have hnum₂ : k < pageNumkeys m₂ p := by
    rw [← length_items, hitems₂, length_items]
    exact hk
  have hbytes₂ : ByteMemory.bytes m₂ (pe.pageAuxbuf + pageHdrSz) old.length = old := by
    have hagree : Agree m₁ m₂ (pe.pageAuxbuf + 20) (pe.pageAuxbuf + 20) ds := fun d hd =>
      hout₂ _ (by omega)
    unfold pageHdrSz
    rw [hlength, hagree.bytes, hbytes]
  have hone : ∀ {bs : List UInt8}, nodeSizeLen bs.length 0 ≤ pe.env.branchNodeMax →
      (pe.dupFixed = true → bs.length = value.length) → Fits pe m₂ pe.pageAuxbuf bs := by
    intro bs hlen hsame
    refine ⟨fun hd => ?_, hlen⟩
    rw [hfix] at hd
    rw [hksize hd, hsame hd]
  have hfits : AllFit pe m₂ pe.pageAuxbuf (some old) i value := by
    refine ⟨fun x hx => ?_, hone hvalue fun _ => rfl, ?_⟩
    · obtain rfl := Option.some.inj hx
      exact hone (hlength.symm ▸ hold) fun hd => hlength.trans (hwidth hd).1.symm
    · rw [hvals]
      exact hi
  have hall : allNeeds m₂ pe.pageAuxbuf (some old) value ≤ pageRoom m₂ pe.pageAuxbuf := by
    unfold allNeeds dupNeeds
    simp only [Option.elim_some]
    rw [hfix, hroom, hlength]
    cases hd : pe.dupFixed with
    | true =>
      rw [hd, if_pos rfl] at hneeds
      rw [if_pos rfl, hksize hd]
      exact hneeds
    | false =>
      rw [hd, if_neg Bool.false_ne_true] at hneeds
      rw [if_neg Bool.false_ne_true, if_neg Bool.false_ne_true]
      exact hneeds
  have hlone : ∀ x, some old = some x → x.length + 20 ≤ pe.env.ps ∧
      ByteMemory.bytes m₂ (pe.pageAuxbuf + pageHdrSz) x.length = x := by
    intro x hx
    obtain rfl := Option.some.inj hx
    exact ⟨by omega, hbytes₂⟩
  have hmap : (some old).map List.length = some ds := congrArg some hlength
  by_cases hbig : tooBig pe (pageRoom m₂ p) (nodeKs m₂ (pageNode m p k)) xlen xlen = true
  · rw [if_pos hbig]
    obtain ⟨hdone, hout⟩ := convertToSubtree_spec hf₂ (hleaf₂.trans hleaf) hnum₂ hplaces
      ⟨hlow, heven, hhigh⟩ (.inr rfl) hsub hinner hfix rfl (pageFlags_plain hfix) hfits (by omega)
      hsize hlone
    rw [hmap, hvals] at hdone
    rw [hmap] at hout
    exact ⟨hdone.of_items hitems₂, fun a ha => (hout a ha).trans (hrest a ha.2.1)⟩
  · rw [if_neg hbig]
    have hks₂ : nodeKs m₂ (pageNode m p k) = key.length := by
      have hagree : Agree m m₂ (pageNode m p k + 6) (pageNode m p k + 6) 2 := fun d hd =>
        hrest _ (by omega)
      exact hagree.peek.trans hkey.symm
    have hbox := tooBig_false (Bool.eq_false_of_not_eq_true hbig)
    rw [hks₂] at hbox
    obtain ⟨hdone, hout⟩ := boxedSubpage key hf₂ (hleaf₂.trans hleaf) hnum₂ hplaces hlow hsub hinner
      hfits hall hbox hlone
    rw [hmap, hvals] at hdone
    rw [hmap] at hout
    exact ⟨hdone.of_items hitems₂, fun a ha => (hout a ha.1).trans (hrest a ha.2.1)⟩

/-- The status of a put beside the lone value of a key, and that it is done. -/
def SecondStored (limit : Nat) (status : DupStatus) : Prop :=
  let r := putSecond (limited limit) (somePage [1, 2] 0) 0 0 [7] 1 [3, 4]
  r.2 = status ∧
    PutDone (limited limit) (somePage [1, 2] 0) 0 0 [7] [] (some [1, 2]) 1 [3, 4] r.1 r.2

-- in a sub-page, and in a tree
theorem putSecond_spec_two :
    SecondStored 100 (.subpage .success) ∧ SecondStored 20 (.tree 1024 .success) := by
  have hstored : ∀ (limit : Nat) (status : DupStatus), limit + 8 ≤ smallest.leafNodeMax →
      (putSecond (limited limit) (somePage [1, 2] 0) 0 0 [7] 1 [3, 4]).2 = status →
      SecondStored limit status := by
    intro limit status hlimit hstatus
    refine ⟨hstatus, ?_⟩
    clear hstatus
    obtain ⟨hf, hleaf, hk, hitem⟩ := somePage_item [1, 2] 0 (by decide) (by decide)
    generalize somePage [1, 2] 0 = m at *
    have hds : nodeDs m (pageNode m 0 0) = 2 := congrArg Item.word hitem
    have hflags : nodeFlags m (pageNode m 0 0) = 0 := congrArg Item.flags hitem
    have hkeylen : nodeKs m (pageNode m 0 0) = 1 :=
      (length_bytes _ _ _).symm.trans (congrArg (fun x => x.key.length) hitem)
    have hvalue : nodeSizeLen [(3 : UInt8), 4].length 0 ≤ smallest.branchNodeMax := by decide
    have hf' : Formed m 0 (limited limit).env.space := hf
    have hold : nodeSizeLen 2 0 ≤ smallest.branchNodeMax := by decide
    have hroot : nodeSizeLen 1 48 ≤ smallest.leafNodeMax := by decide
    have h := putSecond_spec hf' hleaf hk (by rw [hflags]; rfl) (limited_places limit) hlimit
      (Nat.le_refl 1) (by rw [hds]; exact hold) hvalue (fun _ => by rw [hds]; decide)
      (by rw [hkeylen]; exact hroot)
    simp only [hitem] at h
    exact h.1
  refine ⟨?_, ?_⟩
  · exact hstored _ _ (by decide) (by decide +kernel)
  · exact hstored _ _ (by decide) (by decide +kernel)

/-! ## 3. A value is deleted -/

/-- `node_del` in a page of values. -/
theorem valueDeleted {sp space : Nat} (hsub : SubFormed m sp space) (hi : i < (values m sp).length) :
    let m' := nodeDel m sp i (dupfixKsize m sp)
    Framed m m' sp space ∧ SubFormed m' sp space ∧ values m' sp = (values m sp).eraseIdx i := by
  unfold SubFormed values at *
  cases hd : isDupfixLeaf m sp with
  | true =>
    rw [hd, if_pos rfl] at hsub hi
    obtain ⟨ksize, hf⟩ := hsub
    rw [length_fixedItems] at hi
    have hdel := nodeDel_fixed_spec hf hi
    simp only [hf.ksize_eq, if_true]
    refine ⟨hdel.framed, ?_, ?_⟩
    · rw [hdel.formed.fixed, if_pos rfl]
      exact ⟨ksize, hdel.formed⟩
    · rw [hdel.formed.fixed, if_pos rfl, hdel.items_eq]
  | false =>
    rw [hd, if_neg Bool.false_ne_true] at hsub hi
    rw [List.length_map, length_items] at hi
    have hdel := nodeDel_spec hsub hi (dupfixKsize m sp)
    refine ⟨hdel.framed, ?_, ?_⟩
    · rw [hdel.formed.plain, if_neg Bool.false_ne_true]
      exact hdel.formed
    · rw [hdel.formed.plain, if_neg Bool.false_ne_true, if_neg Bool.false_ne_true, hdel.items_eq,
        List.eraseIdx_map]

/-- When a value goes, the key keeps the others, in a sub-page with less than two bytes of free room;
with its last value the key goes, and the page is as `tree_rebalance` finds it.  The other items of the
page stay, and nothing outside of the page changes. -/
theorem delDup_spec {space : Nat} (hf : Formed m p space) (hs : Sub m p k)
    (hi : i < (values m (nodeData m (pageNode m p k))).length) :
    let vals := (values m (nodeData m (pageNode m p k))).eraseIdx i
    let m' := delDup m p k i
    (Framed m m' p space ∧ Formed m' p space) ∧
      if vals = [] then items m' p = (items m p).eraseIdx k
      else ∃ x : Item, items m' p = (items m p).set k x ∧ SubItem x ∧
        x.key = (itemAt m true (pageNode m p k)).key ∧ x.values = vals ∧ x.room < 2 := by
  have hheader := hs.header
  unfold pageHdrSz at hheader
  simp only
  unfold delDup
  simp only
  generalize hm₁ : poke m (nodeData m (pageNode m p k)) 8 (peek m p 8) = m₁
  have hout₁ : ∀ a, a < nodeData m (pageNode m p k) ∨ nodeData m (pageNode m p k) + 8 ≤ a →
      m₁ a = m a := fun a ha => by
    rw [← hm₁, poke_outside ha]
  have hhead : Agree m m₁ (nodeData m (pageNode m p k) + 8) (nodeData m (pageNode m p k) + 8) 8 :=
    fun d hd => hout₁ _ (by omega)
  obtain ⟨hsub₁, hvalues₁, -, -⟩ := hs.formed.copied hhead (fun _ d _ => hout₁ _ (by omega))
    (fun _ d _ => hout₁ _ (by omega)) (fun _ d _ => hout₁ _ (by omega))
  obtain ⟨hinner₁, -, -⟩ := flags_of_agree (hhead.mono (by omega))
  obtain ⟨hframed₂, hsub₂, hvalues₂⟩ := valueDeleted hsub₁ (hvalues₁.symm ▸ hi)
  rw [hvalues₁] at hvalues₂
  generalize nodeDel m₁ (nodeData m (pageNode m p k)) i
    (dupfixKsize m₁ (nodeData m (pageNode m p k))) = m₂ at *
  -- the sub-page without the value
  obtain ⟨hs₂, hplace₂, hdata₂, hds₂, x, hholds₂, -, hkey₂, hflags₂, hword₂, -⟩ := hs.change hf
    (fun a ha => (hframed₂.outside a (by unfold pageHdrSz; omega)).trans (hout₁ a (by omega))) hsub₂
    (hframed₂.header.1.trans (hinner₁.trans hs.inner))
  have hnum : pageNumkeys m₂ (nodeData m (pageNode m p k)) =
      ((values m (nodeData m (pageNode m p k))).eraseIdx i).length := by
    rw [← length_values, hvalues₂]
  obtain ⟨hindex₂, hitem₂⟩ := item_set hholds₂.items_eq hs.index
  rw [hs₂.leaf, hplace₂] at hitem₂
  by_cases hnil : (values m (nodeData m (pageNode m p k))).eraseIdx i = []
  · have hdel := nodeDel_spec hholds₂.formed hindex₂ 0
    rw [if_pos hnil, hnum, hnil, List.length_nil, if_neg (fun h => h rfl)]
    refine ⟨⟨hholds₂.framed.trans hdel.framed, hdel.formed⟩, ?_⟩
    rw [hdel.items_eq, hholds₂.items_eq, eraseIdx_set_self]
  · have hpos : pageNumkeys m₂ (nodeData m (pageNode m p k)) ≠ 0 := by
      rw [hnum]
      exact fun h => hnil (List.eq_nil_of_length_eq_zero h)
    rw [if_neg hnil, if_pos hpos]
    have hshrink := nodeShrink_spec hholds₂.formed hs₂.toHosted hs₂.formed
    rw [hplace₂] at hshrink
    simp only [hdata₂, hds₂] at hshrink
    generalize nodeShrink m₂ p k (pageNode m p k) = r at *
    obtain ⟨⟨hframed, hformed⟩, hplace, ⟨y, hitems, hkey, hflags, hword⟩, hsub, hvals, hfree, -,
      hinner⟩ := hshrink
    rw [hplace] at hsub hvals hfree hinner
    have hleaf : isLeaf r.1 p = true := hframed.header.1.trans hs₂.leaf
    obtain ⟨hindex, hitem⟩ := item_set hitems hindex₂
    rw [hleaf] at hitem
    rw [hitem₂] at hkey hflags
    have hfl : nodeFlags r.1 (pageNode r.1 p k) = nodeFlags m (pageNode m p k) :=
      (congrArg Item.flags hitem).trans (hflags.trans hflags₂)
    have hds : nodeDs r.1 (pageNode r.1 p k) = nodeDs m (pageNode m p k) -
        evenFloor (pageRoom m₂ (nodeData m (pageNode m p k))) := (congrArg Item.word hitem).trans hword
    have hrest : 20 ≤ nodeDs r.1 (pageNode r.1 p k) := by
      have hbounds := hsub₂.bounds
      have hfloor := (evenFloor_spec (pageRoom m₂ (nodeData m (pageNode m p k)))).1
      unfold pageRoom at hfloor
      rw [hds]
      unfold pageRoom
      omega
    rw [← hds] at hsub
    have hhosted : Hosted r.1 p k := ⟨hleaf, hindex, by rw [hfl]; exact hs.small, hrest⟩
    obtain ⟨hsubitem, hvalues, hroom⟩ := SubItem.of_bytes
      (ByteMemory.bytes r.1 (nodeKey (pageNode r.1 p k)) (nodeKs r.1 (pageNode r.1 p k))) hrest hsub
      (hinner.trans (hframed₂.header.1.trans (hinner₁.trans hs.inner)))
      ⟨hs.dup, hs.noTree, hs.small⟩
    rw [hhosted.item_eq, hfl] at hitem
    rw [hitem] at hsubitem hvalues hroom
    refine ⟨⟨hholds₂.framed.trans hframed, hformed⟩, y, ?_, hsubitem, hkey.trans hkey₂, ?_, ?_⟩
    · rw [hitems, hholds₂.items_eq, List.set_set]
    · rw [hvalues, hvals, hvalues₂]
    · rw [hroom]
      exact hfree

theorem delDup_spec_pair :
    let m := somePage pairBytes nDup
    ∃ x : Item, items (delDup m 0 0 0) 0 = (items m 0).set 0 x ∧ SubItem x ∧ x.key = [7] ∧
      x.values = [[3, 4]] ∧ x.room < 2 := by
  obtain ⟨hf, hleaf, hk, hitem⟩ := somePage_item pairBytes nDup (by decide) (by decide)
  generalize somePage pairBytes nDup = m at *
  have hs : Sub m 0 0 := (subItem_iff hleaf hk).mp (hitem ▸ pairBytes_sub)
  obtain ⟨-, -, hvalues, -⟩ := hs.data_spec hitem pairBytes_sub
  have hpair : values m (nodeData m (pageNode m 0 0)) = [[1, 2], [3, 4]] :=
    hvalues.trans (by decide)
  have h := (delDup_spec hf hs (show 0 < (values m (nodeData m (pageNode m 0 0))).length by
    rw [hpair]; decide)).2
  rw [hpair, hitem, if_neg (by decide)] at h
  exact h

end Mdbx.Slotted
