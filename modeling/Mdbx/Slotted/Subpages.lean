import Mdbx.Slotted.Fixed

/-!
# Slotted.Subpages — sub-pages are shrunk, grown and copied

A sub-page is a page in the value of a node.  `node_shrink` takes its free room away, and what
follows in the outer page slides up; a sub-page that is full is put elsewhere with more room.  Neither
changes what it holds.
-/

namespace Mdbx.Slotted

open Node ByteMemory Extents

variable {m m' : Mem} {p space k : Nat}

/-! ## 1. Loops over the entries -/

theorem lowerEntries_spec (m : Mem) (sp delta n : Nat) :
    (∀ a, a < sp + delta + 20 ∨ sp + delta + 20 + 2 * n ≤ a → lowerEntries m sp delta n a = m a) ∧
      ∀ i < n, entry (lowerEntries m sp delta n) (sp + delta) i = entry m sp i - delta := by
  induction n generalizing m with
  | zero => exact ⟨fun _ _ => rfl, fun _ hi => absurd hi (Nat.not_lt_zero _)⟩
  | succ n ih =>
    unfold lowerEntries
    obtain ⟨hout, hent⟩ := ih (setEntry m (sp + delta) n (entry m sp n - delta))
    constructor
    · intro a ha
      rw [hout a (by omega), setEntry_outside (by omega)]
    · intro i hi
      by_cases hin : i = n
      · subst hin
        have hlt := entry_lt m sp i
        rw [entry_of_agree fun a _ _ => hout a (by omega), entry_setEntry _ _ _ (by omega)]
      · rw [hent i (by omega), entry_of_agree fun a _ _ => setEntry_outside (by omega)]

theorem raiseEntries_spec (m : Mem) (p pivot delta : Nat) {n : Nat}
    (hfit : ∀ i < n, entry m p i ≤ pivot → entry m p i + delta < 65536) :
    (∀ a, a < p + 20 ∨ p + 20 + 2 * n ≤ a → raiseEntries m p pivot delta n a = m a) ∧
      ∀ i < n, entry (raiseEntries m p pivot delta n) p i =
        if entry m p i ≤ pivot then entry m p i + delta else entry m p i := by
  induction n generalizing m with
  | zero => exact ⟨fun _ _ => rfl, fun _ hi => absurd hi (Nat.not_lt_zero _)⟩
  | succ n ih =>
    unfold raiseEntries
    by_cases hle : entry m p n ≤ pivot
    · rw [if_pos hle]
      have hsame : ∀ i < n, entry (setEntry m p n (entry m p n + delta)) p i = entry m p i :=
        fun i hi => entry_setEntry_ne (by omega)
      obtain ⟨hout, hent⟩ := ih (setEntry m p n (entry m p n + delta)) fun i hi => by
        rw [hsame i hi]
        exact hfit i (by omega)
      constructor
      · intro a ha
        rw [hout a (by omega), setEntry_outside (by omega)]
      · intro i hi
        by_cases hin : i = n
        · subst hin
          rw [entry_of_agree fun a _ _ => hout a (by omega),
            entry_setEntry _ _ _ (hfit i (by omega) hle), if_pos hle]
        · rw [hent i (by omega), hsame i (by omega)]
    · rw [if_neg hle]
      obtain ⟨hout, hent⟩ := ih m fun i hi => hfit i (by omega)
      refine ⟨fun a ha => hout a (by omega), fun i hi => ?_⟩
      by_cases hin : i = n
      · subst hin
        rw [entry_of_agree fun a _ _ => hout a (by omega), if_neg hle]
      · exact hent i (by omega)

theorem growEntries_spec (m : Mem) (mp growth : Nat) {n rounds i : Nat} (hn : i + rounds = n)
    (hfit : ∀ j, i ≤ j → j < n → entry m mp j + growth < 65536) :
    (∀ a, a < mp + 20 + 2 * i ∨ mp + 20 + 2 * n ≤ a → growEntries m mp growth rounds i a = m a) ∧
      ∀ j, i ≤ j → j < n → entry (growEntries m mp growth rounds i) mp j = entry m mp j + growth := by
  induction rounds generalizing m i with
  | zero => exact ⟨fun _ _ => rfl, fun j h₁ h₂ => absurd h₁ (by omega)⟩
  | succ rounds ih =>
    unfold growEntries
    have hsame : ∀ j, i < j → entry (setEntry m mp i (entry m mp i + growth)) mp j = entry m mp j :=
      fun j hj => entry_setEntry_ne (by omega)
    obtain ⟨hout, hent⟩ := ih (setEntry m mp i (entry m mp i + growth)) (i := i + 1) (by omega)
      fun j h₁ h₂ => by
        rw [hsame j (by omega)]
        exact hfit j (by omega) h₂
    constructor
    · intro a ha
      rw [hout a (by omega), setEntry_outside (by omega)]
    · intro j h₁ h₂
      by_cases hj : j = i
      · subst hj
        rw [entry_of_agree fun a _ _ => hout a (by omega),
          entry_setEntry _ _ _ (hfit j (by omega) h₂)]
      · rw [hent j (by omega) h₂, hsame j (by omega)]

/-! ## 2. A sub-page gives up its free room -/

/-- A leaf node with a sub-page in it. -/
structure Hosted (m : Mem) (p k : Nat) : Prop where
  leaf : isLeaf m p = true
  index : k < pageNumkeys m p
  small : nodeFlags m (pageNode m p k) &&& nBig = 0
  header : pageHdrSz ≤ nodeDs m (pageNode m p k)

variable {sp ds delta : Nat}

theorem Hosted.place (h : Hosted m p k) :
    sizeAt m p k = evenCeil (8 + nodeKs m (pageNode m p k) + nodeDs m (pageNode m p k)) ∧
      nodeData m (pageNode m p k) = pageNode m p k + 8 + nodeKs m (pageNode m p k) := by
  refine ⟨?_, rfl⟩
  unfold sizeAt nodeBytes dataBytes nodeHdrSz
  rw [h.leaf, if_pos rfl, if_neg (fun hne => hne h.small)]

/-- The state of the outer page before the move: the sub-page has its new header and entries, and
the node its new length. -/
structure Trimmed (m m' : Mem) (p k delta : Nat) : Prop where
  outside : ∀ a, a < pageNode m p k ∨ pageNode m p k + sizeAt m p k ≤ a → m' a = m a
  ds : nodeDs m' (pageNode m p k) + delta = nodeDs m (pageNode m p k)
  node : ∀ a, pageNode m p k + 4 ≤ a → a < nodeData m (pageNode m p k) → m' a = m a

/-- The part of `node_shrink` behind that, with the length of the sub-page that is moved. -/
def slideUp (m : Mem) (p indx sp delta len : Nat) : Mem :=
  let base := p + upper m p + pageHdrSz
  let m := move m (base + delta) base (sp - base + len)
  let pivot := entry m p indx
  let m := raiseEntries m p pivot delta (pageNumkeys m p)
  setUpper m p (upper m p + delta)

/-- What is behind the move: the outer page has lost `delta` bytes of the node. -/
theorem slideUp_spec (hf : Formed m p space) (hh : Hosted m p k) {m₁ : Mem}
    (ht : Trimmed m m₁ p k delta) (heven : delta % 2 = 0) {len : Nat}
    (hlen : pageHdrSz ≤ len ∧ len + delta ≤ nodeDs m (pageNode m p k)) :
    let node := pageNode m p k
    let m' := slideUp m₁ p k (nodeData m node) delta len
    (Framed m m' p space ∧ Formed m' p space) ∧ pageNode m' p k = node + delta ∧
      (∀ d, d < nodeData m node - node + len → m' (node + delta + d) = m₁ (node + d)) ∧
      (∀ a, nodeData m node + len + delta ≤ a → m' a = m₁ a) ∧
      items m' p = (items m p).set k (itemAt m' true (node + delta)) ∧
      pageRoom m' p = pageRoom m p + delta := by
  obtain ⟨hsize, hdata⟩ := hh.place
  have hk := hh.index
  have hin := hf.placed.inside k hk
  have hlow := hf.lower_eq
  have hroom := hf.room
  have hsmall := hf.small
  have hds := ht.ds
  have hside := ht.outside
  have hkept := ht.node
  have hplain := hh.small
  have hceil := (evenCeil_bounds (8 + nodeKs m (pageNode m p k) + nodeDs m (pageNode m p k))).1
  have hnode : pageNode m p k = p + entry m p k + 20 := rfl
  rw [← hsize] at hceil
  obtain ⟨hlen₁, hlen₂⟩ := hlen
  unfold pageHdrSz at hlen₁
  simp only
  generalize hnd : pageNode m p k = node at *
  generalize hsp : nodeData m node = sp at *
  generalize hks : nodeKs m node = ks at *
  have hfirst : ∀ a, a < node → m₁ a = m a := fun a ha => hside a (by omega)
  have hupper₁ : upper m₁ p = upper m p := upper_of_agree fun a _ _ => hfirst a (by omega)
  unfold slideUp
  simp only [hupper₁]
  unfold pageHdrSz
  generalize hm₂ : move m₁ (p + upper m p + 20 + delta) (p + upper m p + 20)
    (sp - (p + upper m p + 20) + len) = m₂
  have hout₂ : ∀ a, a < p + upper m p + 20 + delta ∨ sp + len + delta ≤ a → m₂ a = m₁ a := by
    intro a ha
    rw [← hm₂]
    exact move_outside (by omega)
  have hmoved₂ : ∀ a, p + upper m p + 20 ≤ a → a < sp + len → m₂ (a + delta) = m₁ a := by
    intro a h₁ h₂
    rw [← hm₂]
    unfold move
    rw [if_pos (by omega)]
    congr 1
    omega
  have hentry₂ : ∀ i < pageNumkeys m p, entry m₂ p i = entry m p i := fun i hi =>
    entry_of_agree fun a _ _ => by rw [hout₂ a (by omega), hfirst a (by omega)]
  have hlower₂ : lower m₂ p = lower m p :=
    lower_of_agree fun a _ _ => by rw [hout₂ a (by omega), hfirst a (by omega)]
  have hnum₂ : pageNumkeys m₂ p = pageNumkeys m p := by
    unfold pageNumkeys
    rw [hlower₂]
  obtain ⟨hout₃, hent₃⟩ := raiseEntries_spec m₂ p (entry m p k) delta (n := pageNumkeys m p)
    fun i hi hle => by
      rw [hentry₂ i hi] at hle ⊢
      omega
  rw [hentry₂ k hk, hnum₂]
  generalize raiseEntries m₂ p (entry m p k) delta (pageNumkeys m p) = m₃ at *
  have hupper₃ : upper m₃ p = upper m p := by
    rw [upper_of_agree fun a _ _ => hout₃ a (by omega),
      upper_of_agree fun a _ _ => hout₂ a (by omega), hupper₁]
  rw [hupper₃]
  generalize hm' : setUpper m₃ p (upper m p + delta) = m'
  have hout' : ∀ a, a < p + 14 ∨ p + 16 ≤ a → m' a = m₃ a := by
    intro a ha
    rw [← hm', setUpper_outside ha]
  have hpay : ∀ a, p + upper m p + 20 ≤ a → m' a = m₂ a := by
    intro a ha
    rw [hout' a (by omega), hout₃ a (by omega)]
  have hslots : ∀ i < pageNumkeys m p, entry m' p i =
      if entry m p i ≤ entry m p k then entry m p i + delta else entry m p i := by
    intro i hi
    rw [entry_of_agree fun a _ _ => hout' a (by omega), hent₃ i hi, hentry₂ i hi]
  have hlower' : lower m' p = lower m p := by
    rw [lower_of_agree fun a _ _ => hout' a (by omega),
      lower_of_agree fun a _ _ => hout₃ a (by omega), hlower₂]
  have hslid : Slid m m' p space k delta := by
    refine ⟨⟨fun a ha => ?_, fun a h₁ h₂ => ?_⟩, ?_, fun a h₁ h₂ => ?_, fun a ha => ?_⟩
    · unfold pageHdrSz at ha
      rw [hout' a (by omega), hout₃ a (by omega), hout₂ a (by omega), hside a (by omega)]
    · unfold pageHdrSz at h₂
      rw [hout' a (by omega), hout₃ a (by omega), hout₂ a (by omega), hfirst a (by omega)]
    · rw [← hm', upper_setUpper _ _ (by omega)]
    · unfold pageHdrSz at h₁ h₂
      rw [hpay _ (by omega), hmoved₂ a (by omega) (by omega), hfirst a (by omega)]
    · unfold pageHdrSz at ha
      rw [hpay _ (by omega), hout₂ a (by omega), hside a (by omega)]
  have hnode' : pageNode m' p k = node + delta := by
    unfold pageNode pageHdrSz
    rw [hslots k hk, if_pos (Nat.le_refl _)]
    omega
  have hmoved : ∀ d, d < sp - node + len → m' (node + delta + d) = m₁ (node + d) := by
    intro d hd
    have ha : node + delta + d = node + d + delta := by omega
    rw [ha, hpay _ (by omega), hmoved₂ _ (by omega) (by omega)]
  -- the header of the node has come along
  have hagree : Agree m₁ m' node (node + delta) (8 + ks) := fun d hd => hmoved d (by omega)
  have hsame : Agree m m₁ (node + 4) (node + 4) (4 + ks) := fun d hd =>
    hkept _ (by omega) (by omega)
  have hflags' : nodeFlags m' (node + delta) = nodeFlags m node :=
    (hagree.part (d := 4) (k := 1) (by omega)).peek.trans
      (hsame.part (d := 0) (k := 1) (by omega)).peek
  have hks' : nodeKs m' (node + delta) = ks :=
    ((hagree.part (d := 6) (k := 2) (by omega)).peek.trans
      (hsame.part (d := 2) (k := 2) (by omega)).peek).trans hks
  have hds' : nodeDs m' (node + delta) = nodeDs m₁ node := (hagree.mono (by omega)).peek
  have hbytes : sizeAt m' p k + delta = sizeAt m p k := by
    have hnew : sizeAt m' p k = evenCeil (8 + ks + nodeDs m₁ node) := by
      unfold sizeAt nodeBytes dataBytes nodeHdrSz
      rw [hslid.framed.header.1, hh.leaf, hnode', if_pos rfl, hflags',
        if_neg (fun h => h hplain), hks', hds']
    rw [hnew, hsize]
    unfold evenCeil evenFloor
    omega
  have hshrunk := hslid.shrunk hf hk hlower' hslots (by omega) heven hbytes
  rw [hh.leaf, hnode'] at hshrunk
  exact ⟨⟨hslid.framed, hshrunk.1⟩, hnode', hmoved, fun a ha => by
    rw [hpay a (by omega), hout₂ a (by omega)], hshrunk.2, by
    have hu := hslid.upper_eq
    unfold pageRoom
    omega⟩

/-- A sub-page: values of one size side by side, or nodes whose keys are the values. -/
def SubFormed (m : Mem) (sp space : Nat) : Prop :=
  if isDupfixLeaf m sp then ∃ ksize, FixedFormed m sp space ksize else Formed m sp space

/-- The values of a sub-page. -/
def values (m : Mem) (sp : Nat) : List (List UInt8) :=
  if isDupfixLeaf m sp then fixedItems m sp else (items m sp).map Item.key

theorem SubFormed.bounds {space : Nat} (h : SubFormed m sp space) : lower m sp ≤ upper m sp ∧
    upper m sp ≤ space + lower m sp ∧ lower m sp % 2 = 0 ∧
      (isDupfixLeaf m sp = false → upper m sp ≤ space ∧ upper m sp % 2 = 0) := by
  unfold SubFormed at h
  cases hd : isDupfixLeaf m sp with
  | true =>
    rw [hd, if_pos rfl] at h
    obtain ⟨ksize, hf⟩ := h
    have hfull := hf.full
    exact ⟨hf.room, by omega, hf.numkeys, fun h => absurd h.symm Bool.false_ne_true⟩
  | false =>
    rw [hd, if_neg Bool.false_ne_true] at h
    have hle := h.upper_le
    exact ⟨h.room, by omega, h.numkeys, fun _ => ⟨hle, h.even⟩⟩

/-- The page in its node before the move. -/
def trimmed (m : Mem) (p node sp delta : Nat) : Mem :=
  let m₁ := if isDupfixLeaf m sp then m else lowerEntries m sp delta (pageNumkeys m sp)
  let m₂ := setUpper m₁ sp (upper m₁ sp - delta)
  nodeSetDs (setPagePgno m₂ sp (pagePgno m₂ p)) node (nodeDs m node - delta)

theorem nodeShrink_eq (m : Mem) (p k node : Nat) (hpos : evenFloor (pageRoom m (nodeData m node)) ≠ 0) :
    let sp := nodeData m node
    let delta := evenFloor (pageRoom m sp)
    nodeShrink m p k node = (slideUp (trimmed m p node sp delta) p k sp delta
      (if isDupfixLeaf m sp then nodeDs m node - delta else pageHdrSz), node + delta) := by
  simp only
  unfold nodeShrink
  simp only
  rw [if_neg hpos]
  rfl

variable {node : Nat}

/-- What the trimming changes, byte by byte. -/
theorem trimmed_spec (m : Mem) (delta : Nat) {p : Nat} (hp : p + 20 ≤ node)
    (hsp : node + 8 ≤ sp) (hlow : lower m sp % 2 = 0) (hfit : delta ≤ upper m sp)
    (hds : nodeDs m node < 4294967296) :
    let m' := trimmed m p node sp delta
    (∀ a, (a < node ∨ node + 4 ≤ a) → (a < sp + 14 ∨ sp + 20 ≤ a) →
      (isDupfixLeaf m sp = true ∨ a < sp + delta + 20 ∨ sp + delta + 20 + lower m sp ≤ a) →
      m' a = m a) ∧
    nodeDs m' node = nodeDs m node - delta ∧
    upper m' sp = upper m sp - delta ∧ pagePgno m' sp = pagePgno m p ∧
    (isDupfixLeaf m sp = false → delta + lower m sp ≤ upper m sp → ∀ i < pageNumkeys m sp,
      entry m' (sp + delta) i = entry m sp i - delta) := by
  unfold trimmed
  simp only
  generalize hm₁ : (if isDupfixLeaf m sp then m else lowerEntries m sp delta (pageNumkeys m sp)) = m₁
  have hnum : 2 * pageNumkeys m sp = lower m sp := by
    unfold pageNumkeys
    omega
  have hout₁ : ∀ a, (isDupfixLeaf m sp = true ∨ a < sp + delta + 20 ∨
      sp + delta + 20 + lower m sp ≤ a) → m₁ a = m a := by
    intro a ha
    rw [← hm₁]
    split_ifs with hd
    · rfl
    · have ha := ha.resolve_left hd
      exact (lowerEntries_spec m sp delta (pageNumkeys m sp)).1 a (by omega)
  have hupper₁ : upper m₁ sp = upper m sp :=
    upper_of_agree fun a _ _ => hout₁ a (Or.inr (Or.inl (by omega)))
  have hlt := upper_lt m sp
  rw [hupper₁]
  generalize hm₂ : setUpper m₁ sp (upper m sp - delta) = m₂
  have hout₂ : ∀ a, a < sp + 14 ∨ sp + 16 ≤ a → m₂ a = m₁ a := fun a ha => by
    rw [← hm₂, setUpper_outside ha]
  have hpgno₂ : pagePgno m₂ p = pagePgno m p := by
    have hagree : Agree m m₂ (p + 16) (p + 16) 4 := fun d hd => by
      rw [hout₂ _ (by omega), hout₁ _ (Or.inr (Or.inl (by omega)))]
    exact hagree.peek
  rw [hpgno₂]
  unfold nodeSetDs setPagePgno
  refine ⟨fun a h₁ h₂ h₃ => ?_, ?_, ?_, ?_, fun hd hroom i hi => ?_⟩
  · rw [poke_outside (by omega), poke_outside (by omega), hout₂ a (by omega), hout₁ a h₃]
  · exact (peek_poke _ _ _ _).trans (Nat.mod_eq_of_lt (by omega))
  · rw [upper_of_agree fun a _ _ => poke_outside (by omega),
      upper_of_agree fun a _ _ => poke_outside (by omega), ← hm₂, upper_setUpper _ _ (by omega)]
  · have hlt' : pagePgno m p < 4294967296 := peek_lt m _ 4
    unfold pagePgno at hlt' ⊢
    rw [peek_poke_apart (by omega), peek_poke]
    exact Nat.mod_eq_of_lt hlt'
  · rw [entry_of_agree fun a _ _ => poke_outside (by omega),
      entry_of_agree fun a _ _ => poke_outside (by omega),
      entry_of_agree fun a _ _ => hout₂ a (by omega), ← hm₁, hd, if_neg Bool.false_ne_true]
    exact (lowerEntries_spec m sp delta (pageNumkeys m sp)).2 i hi

theorem evenFloor_spec (n : Nat) : evenFloor n ≤ n ∧ n < evenFloor n + 2 ∧ evenFloor n % 2 = 0 := by
  unfold evenFloor
  omega

/-- The header of a page is elsewhere. -/
theorem flags_of_agree {q : Nat} (h : Agree m m' (p + 8) (q + 8) 4) : isLeaf m' q = isLeaf m p ∧
    isDupfixLeaf m' q = isDupfixLeaf m p ∧ dupfixKsize m' q = dupfixKsize m p := by
  have hflags : pageFlags m' q = pageFlags m p := (h.part (d := 2) (k := 2) (by omega)).peek
  have hksize : dupfixKsize m' q = dupfixKsize m p := (h.part (d := 0) (k := 2) (by omega)).peek
  unfold isLeaf isDupfixLeaf
  rw [hflags]
  exact ⟨rfl, rfl, hksize⟩

/-- A sub-page is put elsewhere, and holds what it held. -/
theorem SubFormed.of_formed {q space' : Nat} (hf : Formed m' q space')
    (hitems : items m' q = items m p) (hplain : isDupfixLeaf m p = false) :
    SubFormed m' q space' ∧ values m' q = values m p := by
  unfold SubFormed values
  rw [hf.plain, hplain, if_neg Bool.false_ne_true, if_neg Bool.false_ne_true,
    if_neg Bool.false_ne_true, hitems]
  exact ⟨hf, rfl⟩

/-- A page of values of one size is put elsewhere, with other free room. -/
theorem FixedFormed.transplant {q space' ksize : Nat} (up down : Nat)
    (hf : FixedFormed m p space ksize) (hfix : isDupfixLeaf m' q = isDupfixLeaf m p)
    (hks : dupfixKsize m' q = dupfixKsize m p) (hlow : lower m' q = lower m p)
    (hupper : upper m' q + down = upper m p + up)
    (hspace : space' + down = space + up) (hsmall : space' < 65536) (heven : space' % 2 = 0)
    (hroom : lower m p + down ≤ upper m p + up)
    (hbody : Agree m m' (p + 20) (q + 20) (ksize * pageNumkeys m p)) :
    FixedFormed m' q space' ksize ∧ fixedItems m' q = fixedItems m p := by
  have hfull := hf.full
  have hnum : pageNumkeys m' q = pageNumkeys m p := by
    unfold pageNumkeys
    rw [hlow]
  refine ⟨⟨hfix.trans hf.fixed, hsmall, heven, hks.trans hf.ksize_eq, hf.wide, ?_, ?_, ?_⟩, ?_⟩
  · rw [hlow]
    exact hf.numkeys
  · omega
  · rw [hnum, hlow]
    omega
  · apply List.ext_getElem
    · rw [length_fixedItems, length_fixedItems, hnum]
    · intro i h₁ h₂
      rw [length_fixedItems] at h₂
      have hstep := mul_step ksize h₂
      rw [getElem_fixedItems, getElem_fixedItems, hks, hf.ksize_eq]
      unfold pageDupfixPtr pageHdrSz
      rw [hks, hf.ksize_eq]
      exact (hbody.part (d := ksize * i) (k := ksize) hstep).bytes

/-- The sub-page behind the move: `m₁` is the memory before it. -/
theorem subpage_moved (m' : Mem) {m₁ : Mem} {ds : Nat} (hsub : SubFormed m sp (ds - 20)) (hds : 20 ≤ ds)
    (heven : delta % 2 = 0) (hroom : delta + lower m sp ≤ upper m sp) (hfit : delta + 20 ≤ ds)
    (hkeep : ∀ a, sp ≤ a → (a < sp + 14 ∨ sp + 20 ≤ a) →
      (isDupfixLeaf m sp = true ∨ a < sp + delta + 20 ∨ sp + delta + 20 + lower m sp ≤ a) →
      m₁ a = m a)
    (hup : upper m₁ sp = upper m sp - delta)
    (hent : isDupfixLeaf m sp = false → delta + lower m sp ≤ upper m sp →
      ∀ i < pageNumkeys m sp, entry m₁ (sp + delta) i = entry m sp i - delta)
    (hmoved : ∀ d, d < (if isDupfixLeaf m sp then ds - delta else 20) →
      m' (sp + delta + d) = m₁ (sp + d))
    (hrest : ∀ a, sp + (if isDupfixLeaf m sp then ds - delta else 20) + delta ≤ a → m' a = m₁ a) :
    SubFormed m' (sp + delta) (ds - delta - 20) ∧ values m' (sp + delta) = values m sp ∧
      pageRoom m' (sp + delta) + delta = pageRoom m sp ∧
      isLeaf m' (sp + delta) = isLeaf m sp := by
  obtain ⟨hsublow, hsubup, hsubeven, hsubplain⟩ := hsub.bounds
  have hhead : Agree m₁ m' sp (sp + delta) 20 := fun d hd => by
    refine hmoved d ?_
    split_ifs <;> omega
  have hfields : Agree m m' (sp + 8) (sp + delta + 8) 6 := fun d hd => by
    have h := hhead (8 + d) (by omega)
    rw [← Nat.add_assoc, ← Nat.add_assoc] at h
    rw [h, hkeep _ (by omega) (by omega) (Or.inr (Or.inl (by omega)))]
  have hlower : lower m' (sp + delta) = lower m sp :=
    (hfields.part (d := 4) (k := 2) (by omega)).peek
  obtain ⟨hleaf, hfix, hks⟩ := flags_of_agree (hfields.mono (by omega))
  have hupper : upper m' (sp + delta) = upper m sp - delta :=
    (hhead.part (d := 14) (k := 2) (by omega)).peek.trans hup
  have hroom' : pageRoom m' (sp + delta) + delta = pageRoom m sp := by
    unfold pageRoom
    omega
  cases hd : isDupfixLeaf m sp with
  | true =>
    have hfixed := hsub
    unfold SubFormed at hfixed
    rw [hd, if_pos rfl] at hfixed hmoved
    obtain ⟨ksize, hf⟩ := hfixed
    have hfull := hf.full
    have hsmall := hf.small
    have heven' := hf.even
    have hbody : Agree m m' (sp + 20) (sp + delta + 20) (ksize * pageNumkeys m sp) := by
      intro d hd'
      have h := hmoved (20 + d) (by omega)
      rw [← Nat.add_assoc, ← Nat.add_assoc] at h
      rw [h, hkeep _ (by omega) (by omega) (Or.inl hd)]
    have hless : ds - delta - 20 + delta = ds - 20 + 0 := by omega
    obtain ⟨hf', hitems⟩ := hf.transplant 0 delta hfix hks hlower (by omega) hless (by omega)
      (by omega) (by omega) hbody
    refine ⟨?_, ?_, hroom', hleaf⟩
    · unfold SubFormed
      rw [hf'.fixed, if_pos rfl]
      exact ⟨ksize, hf'⟩
    · unfold values
      rw [hf'.fixed, hd, if_pos rfl, if_pos rfl, hitems]
  | false =>
    have hplain := hsub
    unfold SubFormed at hplain
    rw [hd, if_neg Bool.false_ne_true] at hplain hrest
    have hlow := hplain.lower_eq
    have hsmall := hplain.small
    have htrans : Transplanted m m' sp (sp + delta) (ds - 20) 0 delta := by
      refine ⟨hleaf, hfix, hlower, by omega, fun i hi => ?_, fun d d' hdd h₁ h₂ => ?_⟩
      · have hin := hplain.placed.inside i hi
        rw [entry_of_agree fun a h₁ h₂ => hrest a (by omega), hent hd hroom i hi]
        omega
      · unfold pageHdrSz
        have ha : sp + delta + 20 + d' = sp + 20 + d := by omega
        rw [ha, hrest _ (by omega), hkeep _ (by omega) (by omega) (Or.inr (Or.inr (by omega)))]
    have hless : ds - delta - 20 + delta = ds - 20 + 0 := by omega
    obtain ⟨hf', hitems⟩ := htrans.formed hplain hless (by omega) ⟨rfl, heven⟩ (by omega)
    obtain ⟨hsub', hvalues⟩ := SubFormed.of_formed hf' hitems hd
    exact ⟨hsub', hvalues, hroom', hleaf⟩

/-- `node_shrink` takes the free room of the sub-page away, and nothing else. -/
theorem nodeShrink_spec (hf : Formed m p space) (hh : Hosted m p k)
    (hsub : SubFormed m (nodeData m (pageNode m p k)) (nodeDs m (pageNode m p k) - pageHdrSz)) :
    let node := pageNode m p k
    let sp := nodeData m node
    let delta := evenFloor (pageRoom m sp)
    let r := nodeShrink m p k node
    (Framed m r.1 p space ∧ Formed r.1 p space) ∧ r.2 = pageNode r.1 p k ∧
      (∃ x : Item, items r.1 p = (items m p).set k x ∧ x.key = (itemAt m true node).key ∧
        x.flags = (itemAt m true node).flags ∧ x.word = nodeDs m node - delta) ∧
      SubFormed r.1 (nodeData r.1 r.2) (nodeDs m node - delta - pageHdrSz) ∧
      values r.1 (nodeData r.1 r.2) = values m sp ∧ pageRoom r.1 (nodeData r.1 r.2) < 2 ∧
      pageRoom r.1 p = pageRoom m p + delta ∧
      isLeaf r.1 (nodeData r.1 r.2) = isLeaf m sp := by
  obtain ⟨hsize, hdata⟩ := hh.place
  have hin := hf.placed.inside k hh.index
  have hnode : pageNode m p k = p + entry m p k + 20 := rfl
  have hheader := hh.header
  have hdslt : nodeDs m (pageNode m p k) < 4294967296 := peek_lt m _ 4
  have hceil := (evenCeil_bounds (8 + nodeKs m (pageNode m p k) + nodeDs m (pageNode m p k))).1
  rw [← hsize] at hceil
  obtain ⟨hsublow, hsubup, hsubeven, hsubplain⟩ := hsub.bounds
  obtain ⟨hdle, hdlt, hdeven⟩ := evenFloor_spec (pageRoom m (nodeData m (pageNode m p k)))
  have hkey : (itemAt m true (pageNode m p k)).key = ByteMemory.bytes m
    (nodeKey (pageNode m p k)) (nodeKs m (pageNode m p k)) := rfl
  unfold pageHdrSz at hheader
  simp only
  by_cases hpos : evenFloor (pageRoom m (nodeData m (pageNode m p k))) = 0
  · -- there is nothing to take
    have hnone : nodeShrink m p k (pageNode m p k) = (m, pageNode m p k) := by
      unfold nodeShrink
      simp only
      rw [if_pos hpos]
    rw [hnone, hpos, Nat.sub_zero]
    have hless : pageRoom m (nodeData m (pageNode m p k)) < 2 := by omega
    refine ⟨⟨Framed.refl m p space, hf⟩, rfl, ⟨_, ?_, rfl, rfl, rfl⟩, hsub, rfl, hless, rfl, rfl⟩
    have hlen : k < (items m p).length := by
      rw [length_items]
      exact hh.index
    have hself := List.set_getElem_self hlen
    rw [getElem_items, hh.leaf] at hself
    exact hself.symm
  · rw [nodeShrink_eq m p k _ hpos]
    generalize hroom : pageRoom m (nodeData m (pageNode m p k)) = room at *
    generalize hdelta : evenFloor room = delta at *
    have hupsp : delta + lower m (nodeData m (pageNode m p k)) ≤
        upper m (nodeData m (pageNode m p k)) := by
      unfold pageRoom at hroom
      omega
    obtain ⟨hkeep, hds₁, hup₁, hpgno₁, hent₁⟩ := trimmed_spec m delta
      (show p + 20 ≤ pageNode m p k by omega)
      (show pageNode m p k + 8 ≤ nodeData m (pageNode m p k) by omega) hsubeven (by omega) hdslt
    generalize hm₁ : trimmed m p (pageNode m p k) (nodeData m (pageNode m p k)) delta = m₁ at *
    have hsubfit : isDupfixLeaf m (nodeData m (pageNode m p k)) = true ∨
        20 + upper m (nodeData m (pageNode m p k)) ≤ nodeDs m (pageNode m p k) := by
      cases hd : isDupfixLeaf m (nodeData m (pageNode m p k)) with
      | true => exact Or.inl rfl
      | false =>
        have hle := (hsubplain hd).1
        unfold pageHdrSz at hle
        exact Or.inr (by omega)
    have hfree : delta + 20 ≤ nodeDs m (pageNode m p k) := by
      unfold pageHdrSz at hsubup
      unfold pageRoom at hroom
      omega
    have htrim : Trimmed m m₁ p k delta := by
      refine ⟨fun a ha => hkeep a (by omega) (by omega) ?_, by omega, fun a h₁ h₂ =>
        hkeep a (by omega) (by omega) (Or.inr (Or.inl (by omega)))⟩
      rcases hsubfit with hd | hfits
      · exact Or.inl hd
      · exact Or.inr (by omega)
    have hlen : pageHdrSz ≤ (if isDupfixLeaf m (nodeData m (pageNode m p k)) then
          nodeDs m (pageNode m p k) - delta else pageHdrSz) ∧
        (if isDupfixLeaf m (nodeData m (pageNode m p k)) then nodeDs m (pageNode m p k) - delta
          else pageHdrSz) + delta ≤ nodeDs m (pageNode m p k) := by
      unfold pageHdrSz
      split_ifs <;> omega
    obtain ⟨hgood, hpoint, hmoved, hrest, hitems, houter⟩ := slideUp_spec hf hh htrim hdeven hlen
    generalize hm' : slideUp m₁ p k (nodeData m (pageNode m p k)) delta
      (if isDupfixLeaf m (nodeData m (pageNode m p k)) then nodeDs m (pageNode m p k) - delta
        else pageHdrSz) = m' at *
    -- the node and its sub-page lie higher now
    have hks' : nodeKs m' (pageNode m p k + delta) = nodeKs m (pageNode m p k) := by
      have hagree : Agree m m' (pageNode m p k + 6) (pageNode m p k + delta + 6) 2 := by
        intro d hd
        have h := hmoved (6 + d) (by omega)
        rw [← Nat.add_assoc, ← Nat.add_assoc] at h
        rw [h, hkeep _ (by omega) (by omega) (Or.inr (Or.inl (by omega)))]
      exact hagree.peek
    have hdata' : nodeData m' (pageNode m p k + delta) = nodeData m (pageNode m p k) + delta := by
      unfold nodeData nodeKey
      rw [hks']
      omega
    obtain ⟨hsub', hvalues, hless, hinner'⟩ := subpage_moved m' hsub hheader hdeven hupsp (by omega)
      (fun a h₁ h₂ h₃ => hkeep a (by omega) h₂ h₃) hup₁ hent₁
      (fun d hd => by
        have h := hmoved (nodeData m (pageNode m p k) - pageNode m p k + d)
          (by unfold pageHdrSz; omega)
        have ha : pageNode m p k + delta + (nodeData m (pageNode m p k) - pageNode m p k + d) =
          nodeData m (pageNode m p k) + delta + d := by omega
        have hb : pageNode m p k + (nodeData m (pageNode m p k) - pageNode m p k + d) =
          nodeData m (pageNode m p k) + d := by omega
        rw [ha, hb] at h
        exact h)
      (fun a ha => hrest a ha)
    rw [hdata']
    have hless' : pageRoom m' (nodeData m (pageNode m p k) + delta) < 2 := by omega
    have hnode' : Agree m m' (pageNode m p k + 4) (pageNode m p k + delta + 4)
        (4 + nodeKs m (pageNode m p k)) := by
      intro d hd
      have h := hmoved (4 + d) (by unfold pageHdrSz; omega)
      rw [← Nat.add_assoc, ← Nat.add_assoc] at h
      rw [h, hkeep _ (by omega) (by omega) (Or.inr (Or.inl (by omega)))]
    have hword : Agree m₁ m' (pageNode m p k) (pageNode m p k + delta) 4 :=
      fun d hd => hmoved d (by omega)
    refine ⟨hgood, hpoint.symm, ⟨_, hitems, ?_, ?_, hword.peek.trans hds₁⟩, hsub', hvalues, hless',
      houter, hinner'⟩
    · unfold itemAt
      rw [hks']
      exact (hnode'.part (d := 4) (k := nodeKs m (pageNode m p k)) (by omega)).bytes
    · exact (hnode'.part (d := 0) (k := 1) (by omega)).peek

end Mdbx.Slotted
