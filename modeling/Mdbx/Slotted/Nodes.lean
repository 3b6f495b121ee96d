import Mdbx.Slotted.Layout

/-!
# Slotted.Nodes — additions and deletions

What `node_add_leaf`, `node_add_branch` and `node_del` do to the bytes of a page is an insertion into
the list of its items, or a deletion from it.
-/

namespace Mdbx.Slotted

open Node ByteMemory Extents

variable {m m' : Mem} {p space k : Nat}

/-! ## 1. Loops over the entries -/

/-- The loop that makes room for an entry. -/
theorem moveHigher_spec (m : Mem) (p : Nat) {n : Nat} (hk : k ≤ n) :
    (∀ a, a < p + 22 + 2 * k ∨ p + 22 + 2 * n ≤ a → moveHigher m p k n a = m a) ∧
      ∀ i, k < i → i ≤ n → entry (moveHigher m p k n) p i = entry m p (i - 1) := by
  induction n generalizing m with
  | zero => exact ⟨fun _ _ => rfl, fun i h₁ h₂ => absurd h₁ (by omega)⟩
  | succ n ih =>
    unfold moveHigher
    by_cases hlt : n + 1 > k
    · rw [if_pos hlt]
      obtain ⟨hout, hent⟩ := ih (setEntry m p (n + 1) (entry m p n)) (by omega)
      constructor
      · intro a ha
        rw [hout a (by omega), setEntry_outside (by omega)]
      · intro i h₁ h₂
        by_cases hi : i = n + 1
        · subst hi
          rw [entry_of_agree fun a h₁ h₂ => hout a (by omega),
            entry_setEntry _ _ _ (entry_lt m p n), Nat.add_sub_cancel]
        · rw [hent i h₁ (by omega), entry_setEntry_ne (by omega)]
    · rw [if_neg hlt]
      exact ⟨fun _ _ => rfl, fun i h₁ h₂ => absurd h₁ (by omega)⟩

/-- The loop that closes the gap of an entry. -/
theorem closeGap_spec (m : Mem) (p hole off size : Nat) {n rounds r : Nat} (hn : r + rounds = n)
    (hhole : hole < n)
    (hfit : ∀ i, r ≤ i → i < n → entry m p i < off → entry m p i + size < 65536) :
    let m' := closeGap m p hole off size rounds r (if r ≤ hole then r else r - 1)
    (∀ a, a < p + 20 + 2 * (if r ≤ hole then r else r - 1) ∨ p + 18 + 2 * n ≤ a → m' a = m a) ∧
      ∀ i, (if r ≤ hole then r else r - 1) ≤ i → i + 1 < n → entry m' p i =
        let offset := entry m p (if i < hole then i else i + 1)
        if offset < off then offset + size else offset := by
  induction rounds generalizing m r with
  | zero =>
    refine ⟨fun _ _ => rfl, fun i h₁ h₂ => absurd h₁ ?_⟩
    rw [if_neg (by omega)]
    omega
  | succ rounds ih =>
    unfold closeGap
    by_cases hr : r = hole
    · subst hr
      rw [if_neg (fun h => h rfl), if_pos (Nat.le_refl _)]
      have hrec := ih m (r := r + 1) (by omega) fun i hi => hfit i (by omega)
      rw [if_neg (by omega), Nat.add_sub_cancel] at hrec
      exact hrec
    · rw [if_pos hr]
      have hw : (if r ≤ hole then r else r - 1) + 1 = if r + 1 ≤ hole then r + 1 else r + 1 - 1 := by
        split_ifs <;> omega
      generalize hwr : (if r ≤ hole then r else r - 1) = w at *
      have hwle : w ≤ r := by split_ifs at hwr <;> omega
      have hwn : w + 2 ≤ n := by split_ifs at hwr <;> omega
      have hback : (if w < hole then w else w + 1) = r := by
        split_ifs at hwr <;> split_ifs <;> omega
      simp only
      generalize hv : (if entry m p r < off then entry m p r + size else entry m p r) = v
      have hvlt : v < 65536 := by
        have hlt := entry_lt m p r
        have hsum := hfit r (Nat.le_refl r) (by omega)
        split_ifs at hv <;> omega
      have hsame : ∀ j, r < j → entry (setEntry m p w v) p j = entry m p j :=
        fun j hj => entry_setEntry_ne (by omega)
      obtain ⟨hout, hent⟩ := ih (setEntry m p w v) (r := r + 1) (by omega) fun i h₁ h₂ => by
        rw [hsame i (by omega)]
        exact hfit i (by omega) h₂
      rw [← hw] at hout hent
      constructor
      · intro a ha
        rw [hout a (by omega), setEntry_outside (by omega)]
      · intro i h₁ h₂
        by_cases hi : i = w
        · subst hi
          rw [entry_of_agree fun a h₁ h₂ => hout a (by omega), entry_setEntry _ _ _ hvlt, hback, hv]
        · rw [hent i (by omega) h₂, hsame]
          split_ifs at hwr ⊢ <;> omega

/-! ## 2. Additions -/

theorem adjusted_eq (m : Mem) (p : Nat) {bytes : Nat} (hbytes : 2 ≤ bytes) : adjusted m p bytes =
    if lower m p + bytes ≤ upper m p then some (lower m p + 2, upper m p - (bytes - 2)) else none := by
  unfold adjusted indxSz
  simp only
  split_ifs <;> first
    | omega
    | rfl
    | (refine congrArg some (Prod.ext ?_ ?_) <;> simp only <;> omega)

/-- The page with the new entry, and with nothing of the new node. -/
def opened (m : Mem) (p k lower upper : Nat) : Mem :=
  setEntry (setUpper (setLower (moveHigher m p k (pageNumkeys m p)) p lower) p upper) p k upper

variable {size : Nat}

theorem opened_spec (hf : Formed m p space) (hk : k ≤ pageNumkeys m p)
    (hroom : lower m p + 2 + size ≤ upper m p) :
    let up := upper m p - size
    pageNode (opened m p k (lower m p + 2) up) p k = p + up + 20 ∧
      ∀ m', (∀ a, a < p + 20 + up ∨ p + 20 + upper m p ≤ a →
        m' a = opened m p k (lower m p + 2) up a) → Inserted m m' p space k size := by
  have hlow := hf.lower_eq
  have hle := hf.upper_le
  have hsmall := hf.upper_lt
  simp only
  generalize hup : upper m p - size = up
  obtain ⟨hout, hent⟩ := moveHigher_spec m p hk
  -- the header of the new page
  have hentry : entry (opened m p k (lower m p + 2) up) p k = up :=
    entry_setEntry _ _ _ (by omega)
  have hshift : ∀ a, a < p + 12 ∨ p + 16 ≤ a → a < p + 20 + 2 * k ∨ p + 22 + 2 * k ≤ a →
      opened m p k (lower m p + 2) up a = moveHigher m p k (pageNumkeys m p) a := by
    intro a h₁ h₂
    unfold opened
    rw [setEntry_outside h₂, setUpper_outside (by omega), setLower_outside (by omega)]
  refine ⟨by rw [pageNode, hentry, pageHdrSz], fun m' hm' => ?_⟩
  have hsame : ∀ i, i ≤ pageNumkeys m p →
      entry m' p i = entry (opened m p k (lower m p + 2) up) p i := fun i hi =>
    entry_of_agree fun a h₁ h₂ => hm' a (by omega)
  have hupper : upper m' p = up := by
    rw [upper_of_agree fun a h₁ h₂ => hm' a (by omega)]
    unfold opened
    rw [upper_of_agree fun a h₁ h₂ => setEntry_outside (by omega), upper_setUpper _ _ (by omega)]
  refine ⟨⟨fun a ha => ?_, fun a h₁ h₂ => ?_⟩, ?_, by omega, fun i hi => ?_, ?_, fun i h₁ h₂ => ?_,
    fun a ha => ?_⟩
  · unfold pageHdrSz at ha
    rw [hm' a (by omega), hshift a (by omega) (by omega), hout a (by omega)]
  · unfold pageHdrSz at h₂
    rw [hm' a (by omega), hshift a (by omega) (by omega), hout a (by omega)]
  · rw [lower_of_agree fun a h₁ h₂ => hm' a (by omega)]
    unfold opened
    rw [lower_of_agree fun a h₁ h₂ => setEntry_outside (by omega),
      lower_of_agree fun a h₁ h₂ => setUpper_outside (by omega), lower_setLower _ _ (by omega)]
  · rw [hsame i (by omega), entry_of_agree fun a h₁ h₂ => hshift a (by omega) (by omega)]
    exact entry_of_agree fun a h₁ h₂ => hout a (by omega)
  · rw [hsame k hk, hentry, hupper]
  · rw [hsame i h₂, entry_of_agree fun a h₁ h₂ => hshift a (by omega) (by omega)]
    exact hent i h₁ h₂
  · unfold pageHdrSz at ha
    rw [hm' a (by omega), hshift a (by omega) (by omega), hout a (by omega)]

/-- What is read of a node from its fields. -/
theorem itemAt_of {leaf : Bool} {node word flags : Nat} {key data : List UInt8}
    (hword : peek m node 4 = word) (hflags : nodeFlags m node = flags)
    (hks : nodeKs m node = key.length) (hkey : ByteMemory.bytes m (nodeKey node) key.length = key)
    (hlen : dataBytes m leaf node = data.length)
    (hdata : ByteMemory.bytes m (nodeKey node + key.length) data.length = data) :
    itemAt m leaf node = ⟨word, flags, key, data⟩ ∧
      nodeBytes m leaf node = evenCeil (8 + key.length + data.length) := by
  constructor
  · unfold itemAt nodeData
    rw [hword, hflags, hks, hlen, hkey, hdata]
  · unfold nodeBytes nodeHdrSz
    rw [hks, hlen]

theorem branchItem_of {node word flags : Nat} {key : List UInt8}
    (hword : peek m node 4 = word) (hflags : nodeFlags m node = flags)
    (hks : nodeKs m node = key.length)
    (hkey : ByteMemory.bytes m (nodeKey node) key.length = key) :
    itemAt m false node = ⟨word, flags, key, []⟩ ∧
      nodeBytes m false node = evenCeil (8 + key.length) := itemAt_of hword hflags hks hkey rfl rfl

/-- The stores of `node_add_leaf` up to the key. -/
theorem leafHeader_spec (m : Mem) (node flags len : Nat) {key : List UInt8}
    (hkey : key.length < 65536) :
    let m' := copy (nodeSetDs (nodeSetExtra (nodeSetFlags (nodeSetKs m node key.length) node flags)
      node 0) node len) (nodeKey node) key
    peek m' node 4 = len % 4294967296 ∧ nodeFlags m' node = flags % 256 ∧
      nodeKs m' node = key.length ∧ ByteMemory.bytes m' (nodeKey node) key.length = key ∧
      ∀ a, a < node ∨ node + 8 + key.length ≤ a → m' a = m a := by
  simp only
  unfold nodeKey nodeHdrSz nodeFlags nodeKs nodeSetDs nodeSetExtra nodeSetFlags nodeSetKs
  refine ⟨?_, ?_, ?_, bytes_copy _ _ _, fun a ha => ?_⟩
  · rw [peek_copy_apart (by omega)]
    exact peek_poke _ _ _ _
  · rw [peek_copy_apart (by omega), peek_poke_apart (by omega), peek_poke_apart (by omega)]
    exact peek_poke _ _ _ _
  · rw [peek_copy_apart (by omega), peek_poke_apart (by omega), peek_poke_apart (by omega),
      peek_poke_apart (by omega), peek_poke]
    exact Nat.mod_eq_of_lt hkey
  · rw [copy_outside (by omega), poke_outside (by omega), poke_outside (by omega),
      poke_outside (by omega), poke_outside (by omega)]

theorem and_nBig (flags : Nat) : flags % 256 &&& nBig = flags &&& nBig := by
  unfold nBig
  rw [Nat.and_one_is_mod, Nat.and_one_is_mod]
  omega

variable {flags len : Nat} {key stored : List UInt8}

/-- The page with all of a leaf node but its data. -/
def headed (m : Mem) (p k up flags len : Nat) (key : List UInt8) : Mem :=
  let node := p + up + 20
  copy (nodeSetDs (nodeSetExtra (nodeSetFlags (nodeSetKs (opened m p k (lower m p + 2) up) node
    key.length) node flags) node 0) node len) (nodeKey node) key

/-- A leaf node whose data is stored, or left as it is, behind the key. -/
theorem leaf_inserted (hf : Formed m p space) (hleaf : isLeaf m p = true)
    (hk : k ≤ pageNumkeys m p) (hkey : key.length < 65536) (hlen : len < 4294967296)
    (hsize : size = evenCeil (8 + key.length + stored.length))
    (hroom : lower m p + 2 + size ≤ upper m p)
    (hstored : stored.length = if flags &&& nBig ≠ 0 then pgnoSz else len)
    (hout : ∀ a, a < p + (upper m p - size) + 28 + key.length ∨
      p + (upper m p - size) + 28 + key.length + stored.length ≤ a →
      m' a = headed m p k (upper m p - size) flags len key a)
    (hdata : ByteMemory.bytes m' (p + (upper m p - size) + 28 + key.length) stored.length = stored) :
    Holds m m' p space ((items m p).insertIdx k ⟨len, flags % 256, key, stored⟩) := by
  obtain ⟨hnode, hinserted⟩ := opened_spec hf hk hroom
  obtain ⟨hword, hflags, hks, hbytes, hapart⟩ := leafHeader_spec
    (opened m p k (lower m p + 2) (upper m p - size)) (p + (upper m p - size) + 20) flags len hkey
  have hfit := (evenCeil_bounds (8 + key.length + stored.length)).1
  rw [← hsize] at hfit
  unfold nodeKey nodeHdrSz at hword hflags hks hbytes hapart
  have hup : upper m p - size + size = upper m p := by omega
  generalize upper m p - size = up at *
  change peek (headed m p k up flags len key) (p + up + 20) 4 = _ at hword
  change nodeFlags (headed m p k up flags len key) (p + up + 20) = _ at hflags
  change nodeKs (headed m p k up flags len key) (p + up + 20) = _ at hks
  change ByteMemory.bytes (headed m p k up flags len key) _ _ = _ at hbytes
  change ∀ a, _ → headed m p k up flags len key a = _ at hapart
  have hins := hinserted m' fun a ha => by
    rw [hout a (by omega), hapart a (by omega)]
  have hpoint : pageNode m' p k = p + up + 20 := by
    rw [pageNode, hins.new]
    have hu := hins.upper_eq
    unfold pageHdrSz
    omega
  -- the header of the node is left alone by what is stored behind it
  have hsame : Agree (headed m p k up flags len key) m' (p + up + 20) (p + up + 20) (8 + key.length) :=
    fun d hd => hout _ (by omega)
  have hword' : peek m' (p + up + 20) 4 = len :=
    (hsame.mono (by omega)).peek.trans (hword.trans (Nat.mod_eq_of_lt hlen))
  have hflags' : nodeFlags m' (p + up + 20) = flags % 256 :=
    (hsame.part (d := 4) (k := 1) (by omega)).peek.trans hflags
  have hks' : nodeKs m' (p + up + 20) = key.length :=
    (hsame.part (d := 6) (k := 2) (by omega)).peek.trans hks
  have hkey' : ByteMemory.bytes m' (nodeKey (p + up + 20)) key.length = key :=
    (hsame.part (d := 8) (k := key.length) (by omega)).bytes.trans hbytes
  have hlen' : dataBytes m' true (p + up + 20) = stored.length := by
    unfold dataBytes nodeDs
    rw [if_pos rfl, hflags', hword', and_nBig]
    exact hstored.symm
  have hitem := itemAt_of hword' hflags' hks' hkey' hlen' hdata
  have hbytes' : sizeAt m' p k = size := by
    unfold sizeAt
    rw [hins.framed.header.1, hleaf, hpoint, hitem.2, hsize]
  refine ⟨hins.framed, hins.formed hf hk hbytes' (by omega), ?_⟩
  rw [hins.items_eq hf hk, hleaf, hpoint, hitem.1]

theorem adjusted_moved (m : Mem) (p : Nat) {n bytes : Nat} (hk : k ≤ n) :
    adjusted (moveHigher m p k n) p bytes = adjusted m p bytes := by
  have hout := (moveHigher_spec m p hk).1
  unfold adjusted
  rw [lower_of_agree fun a h₁ h₂ => hout a (by omega),
    upper_of_agree fun a h₁ h₂ => hout a (by omega)]

/-- What `node_add_leaf` leaves behind the key. -/
structure Payload (data : Data) (flags : Nat) (largepage : Option Nat) (stored : List UInt8) :
    Prop where
  length : stored.length = if flags &&& nBig ≠ 0 then pgnoSz else data.len
  large : ∀ pgno, largepage = some pgno → stored = toBytes pgnoSz pgno
  big : largepage = none → flags &&& nBig ≠ 0 → stored = data.base.take pgnoSz
  plain : largepage = none → flags &&& nBig = 0 → flags &&& mdbxReserve = 0 →
    stored = data.base.take data.len

/-- The bytes that the caller has given are enough. -/
def Data.Given (data : Data) (flags : Nat) : Prop :=
  (flags &&& nBig ≠ 0 → pgnoSz ≤ data.base.length) ∧
    (flags &&& nBig = 0 → flags &&& mdbxReserve = 0 → data.len ≤ data.base.length)

theorem nodeAddLeafBytes_eq (hf : Formed m p space) (hk : k ≤ pageNumkeys m p)
    (hkey : key.length < 65536) (data : Data) (largepage : Option Nat)
    (hroom : lower m p + 2 + size ≤ upper m p) :
    nodeAddLeafBytes m p k (size + 2) key data flags largepage =
      let m₅ := headed m p k (upper m p - size) flags data.len key
      let nodedata := p + (upper m p - size) + 28 + key.length
      match largepage with
      | none =>
        if flags &&& nBig ≠ 0 then ⟨copy m₅ nodedata (data.base.take pgnoSz), .success, none⟩
        else if flags &&& mdbxReserve ≠ 0 then ⟨m₅, .success, none⟩
        else ⟨copy m₅ nodedata (data.base.take data.len), .success, none⟩
      | some pgno => ⟨poke m₅ nodedata pgnoSz pgno, .success,
          some (pgno, if flags &&& mdbxReserve ≠ 0 then [] else data.base.take data.len)⟩ := by
  have hnode := (opened_spec hf hk hroom).1
  have hks := (leafHeader_spec (opened m p k (lower m p + 2) (upper m p - size))
    (p + (upper m p - size) + 20) flags data.len hkey).2.2.1
  have hdata : nodeData (headed m p k (upper m p - size) flags data.len key)
      (p + (upper m p - size) + 20) = p + (upper m p - size) + 28 + key.length :=
    congrArg (p + (upper m p - size) + 28 + ·) hks
  unfold opened at hnode
  unfold headed opened at hdata
  unfold nodeAddLeafBytes headed opened
  simp only at hnode hdata ⊢
  rw [adjusted_moved m p hk, adjusted_eq m p (by omega), if_pos (by omega), Nat.add_sub_cancel]
  cases largepage with
  | none => simp only [hnode, hdata]
  | some pgno => simp only [hnode, hdata]

theorem nodeAddLeafBytes_spec (flags : Nat) (largepage : Option Nat) (hf : Formed m p space)
    (hleaf : isLeaf m p = true) (hk : k ≤ pageNumkeys m p) (hkey : key.length < 65536) {data : Data}
    (hlen : data.len < 4294967296)
    (hgiven : largepage = none → data.Given flags)
    (hlarge : largepage ≠ none → flags &&& nBig ≠ 0)
    (hsize : size = evenCeil (8 + key.length + if flags &&& nBig ≠ 0 then pgnoSz else data.len))
    (hroom : lower m p + 2 + size ≤ upper m p) :
    let r := nodeAddLeafBytes m p k (size + 2) key data flags largepage
    r.status = .success ∧ (r.large.isSome = largepage.isSome) ∧
      ∃ stored, Payload data flags largepage stored ∧ Holds m r.mem p space
        ((items m p).insertIdx k ⟨data.len, flags % 256, key, stored⟩) := by
  have hstores : ∀ stored : List UInt8,
      stored.length = (if flags &&& nBig ≠ 0 then pgnoSz else data.len) →
      ∀ m', (∀ a, a < p + (upper m p - size) + 28 + key.length ∨
          p + (upper m p - size) + 28 + key.length + stored.length ≤ a →
          m' a = headed m p k (upper m p - size) flags data.len key a) →
        ByteMemory.bytes m' (p + (upper m p - size) + 28 + key.length) stored.length = stored →
        Holds m m' p space ((items m p).insertIdx k ⟨data.len, flags % 256, key, stored⟩) := by
    intro stored hstored m' hout hdata
    exact leaf_inserted hf hleaf hk hkey hlen (by rw [hsize, hstored]) hroom hstored hout hdata
  simp only
  rw [nodeAddLeafBytes_eq hf hk hkey data largepage hroom]
  cases largepage with
  | none =>
    obtain ⟨hbig, hplain⟩ := hgiven rfl
    simp only
    by_cases hb : flags &&& nBig ≠ 0
    · rw [if_pos hb]
      have hl : (data.base.take pgnoSz).length = if flags &&& nBig ≠ 0 then pgnoSz else data.len := by
        rw [if_pos hb, List.length_take_of_le (hbig hb)]
      refine ⟨rfl, rfl, data.base.take pgnoSz, ⟨hl, fun _ h => absurd h.symm (Option.some_ne_none _), fun _ _ => rfl,
        fun _ h => absurd h hb⟩, hstores _ hl _ (fun a ha => copy_outside ha) (bytes_copy _ _ _)⟩
    · rw [if_neg hb]
      by_cases hr : flags &&& mdbxReserve ≠ 0
      · -- what lies there stays
        rw [if_pos hr]
        have hl := length_bytes (headed m p k (upper m p - size) flags data.len key)
          (p + (upper m p - size) + 28 + key.length) data.len
        refine ⟨rfl, rfl, _, ⟨hl.trans (if_neg hb).symm, fun _ h => absurd h.symm (Option.some_ne_none _),
          fun _ h => absurd h hb, fun _ _ h => absurd h hr⟩,
          hstores _ (hl.trans (if_neg hb).symm) _ (fun _ _ => rfl) ?_⟩
        rw [hl]
      · rw [if_neg hr]
        have hl : (data.base.take data.len).length =
            if flags &&& nBig ≠ 0 then pgnoSz else data.len := by
          rw [if_neg hb, List.length_take_of_le (hplain (not_not.mp hb) (not_not.mp hr))]
        refine ⟨rfl, rfl, data.base.take data.len, ⟨hl, fun _ h => absurd h.symm (Option.some_ne_none _),
          fun _ h => absurd h hb, fun _ _ _ => rfl⟩,
          hstores _ hl _ (fun a ha => copy_outside ha) (bytes_copy _ _ _)⟩
  | some pgno =>
    have hb := hlarge (Option.some_ne_none pgno)
    have hl : (toBytes pgnoSz pgno).length = if flags &&& nBig ≠ 0 then pgnoSz else data.len := by
      rw [if_pos hb, length_toBytes]
    refine ⟨rfl, rfl, toBytes pgnoSz pgno, ⟨hl, fun _ h => ?_, fun h => absurd h (Option.some_ne_none _),
      fun h => absurd h (Option.some_ne_none _)⟩, hstores _ hl _ (fun a ha => copy_outside ha) (bytes_copy _ _ _)⟩
    rw [Option.some.inj h]

theorem evenCeil_add_even (n : Nat) {e : Nat} (he : e % 2 = 0) :
    evenCeil (e + n) = e + evenCeil n := by
  unfold evenCeil evenFloor
  omega

theorem nodeSizeLen_eq (keyLen valueLen : Nat) :
    nodeSizeLen keyLen valueLen = evenCeil (8 + keyLen + valueLen) := by
  rw [Nat.add_assoc, evenCeil_add_even _ rfl]
  rfl

/-- The bytes that a leaf node takes with its entry, and whether its value goes to a large page. -/
def leafNeeds (env : PageSize) (keyLen : Nat) (data : Data) (flags : Nat) : Nat × Bool :=
  if flags &&& nBig ≠ 0 then (nodeSizeLen keyLen 0 + pgnoSz + indxSz, false)
  else (env.leafSize keyLen data.len, decide (env.leafNodeMax < nodeSizeLen keyLen data.len))

/-- A large page is needed, and there may be none or it is not to be had. -/
def Refused (env : PageSize) (dupSort : Bool) (pageNewLarge : Except Int Nat) (keyLen : Nat)
    (data : Data) (flags : Nat) : Prop :=
  (leafNeeds env keyLen data flags).2 = true ∧
    (dupSort = true ∨ flags &&& (nDup ||| nTree) ≠ 0 ∨ ∃ err, pageNewLarge = .error err)

theorem or_nBig (flags : Nat) : (flags ||| nBig) &&& nBig ≠ 0 := by
  unfold nBig
  rw [Nat.and_one_is_mod, Nat.or_mod_two_eq_one.mpr (Or.inr rfl)]
  exact Nat.one_ne_zero

/-- `node_add_leaf` puts a node in, with its value or with the number of the large page for it; when
it is refused the large page, it changes nothing. -/
theorem nodeAddLeaf_spec (env : PageSize) (dupSort : Bool) (pageNewLarge : Except Int Nat)
    (data : Data) (flags : Nat) (hf : Formed m p space) (hleaf : isLeaf m p = true) (hk : k ≤ pageNumkeys m p)
    (hkey : key.length < 65536) (hlen : data.len < 4294967296)
    (hgiven : data.Given flags) (hroom : (leafNeeds env key.length data flags).1 ≤ pageRoom m p) :
    let r := nodeAddLeaf env dupSort pageNewLarge m p k key data flags
    (r.status ≠ .success ∧ Refused env dupSort pageNewLarge key.length data flags ∧ r.mem = m) ∨
      (r.status = .success ∧ ¬ Refused env dupSort pageNewLarge key.length data flags ∧
        ∃ largepage stored,
          (largepage ≠ none ↔ (leafNeeds env key.length data flags).2 = true) ∧
          (∀ pgno, largepage = some pgno → pageNewLarge = .ok pgno) ∧
          Payload data (if largepage = none then flags else flags ||| nBig) largepage stored ∧
          Holds m r.mem p space ((items m p).insertIdx k
            ⟨data.len, (if largepage = none then flags else flags ||| nBig) % 256, key, stored⟩)) := by
  have hrm := hf.room
  have hbig : ∀ n : Nat, nodeSizeLen n 0 + pgnoSz = evenCeil (8 + n + pgnoSz) := by
    intro n
    rw [nodeSizeLen_eq]
    unfold evenCeil evenFloor pgnoSz
    omega
  unfold Refused
  unfold leafNeeds pageRoom PageSize.leafSize at *
  simp only
  unfold nodeAddLeaf
  by_cases hb : flags &&& nBig ≠ 0
  · simp only [if_pos hb] at hroom ⊢
    rw [hbig] at hroom ⊢
    unfold indxSz at hroom ⊢
    obtain ⟨hok, -, stored, hpay, hholds⟩ := nodeAddLeafBytes_spec flags none hf hleaf hk hkey hlen
      (fun _ => hgiven) (fun h => absurd rfl h) (by rw [if_pos hb])
      (show lower m p + 2 + evenCeil (8 + key.length + pgnoSz) ≤ upper m p by omega)
    exact Or.inr ⟨hok, fun h => Bool.false_ne_true h.1, none, stored,
      ⟨fun h => absurd rfl h, fun h => absurd h Bool.false_ne_true⟩,
      fun _ h => absurd h.symm (Option.some_ne_none _), hpay, hholds⟩
  · simp only [if_neg hb] at hroom ⊢
    by_cases hlarge : env.leafNodeMax < nodeSizeLen key.length data.len
    · simp only [if_pos hlarge, decide_eq_true hlarge, true_and, gt_iff_lt] at hroom ⊢
      by_cases hdup : dupSort = true
      · rw [if_pos hdup]
        exact Or.inl ⟨Status.noConfusion, Or.inl hdup, rfl⟩
      · rw [if_neg hdup]
        by_cases htree : flags &&& (nDup ||| nTree) ≠ 0
        · rw [if_pos htree]
          exact Or.inl ⟨Status.noConfusion, Or.inr (Or.inl htree), rfl⟩
        · rw [if_neg htree]
          cases pageNewLarge with
          | error err => exact Or.inl ⟨Status.noConfusion, Or.inr (Or.inr ⟨err, rfl⟩), rfl⟩
          | ok pgno =>
            simp only
            rw [hbig] at hroom ⊢
            unfold indxSz at hroom ⊢
            obtain ⟨hok, -, stored, hpay, hholds⟩ := nodeAddLeafBytes_spec (flags ||| nBig) (some pgno)
              hf hleaf hk hkey hlen (fun h => absurd h (Option.some_ne_none _)) (fun _ => or_nBig flags)
              (by rw [if_pos (or_nBig flags)])
              (show lower m p + 2 + evenCeil (8 + key.length + pgnoSz) ≤ upper m p by omega)
            refine Or.inr ⟨hok, ?_, some pgno, stored,
              ⟨fun _ => trivial, fun _ => Option.some_ne_none _⟩, fun q hq => ?_, hpay, hholds⟩
            · rintro (h | h | ⟨err, h⟩)
              · exact hdup h
              · exact htree h
              · cases h
            · rw [Option.some.inj hq]
    · simp only [if_neg hlarge, decide_eq_false hlarge, gt_iff_lt] at hroom ⊢
      rw [nodeSizeLen_eq] at hroom ⊢
      unfold indxSz at hroom ⊢
      obtain ⟨hok, -, stored, hpay, hholds⟩ := nodeAddLeafBytes_spec flags none hf hleaf hk hkey hlen
        (fun _ => hgiven) (fun h => absurd rfl h) (by rw [if_neg hb])
        (show lower m p + 2 + evenCeil (8 + key.length + data.len) ≤ upper m p by omega)
      exact Or.inr ⟨hok, fun h => Bool.false_ne_true h.1, none, stored,
        ⟨fun h => absurd rfl h, fun h => absurd h Bool.false_ne_true⟩,
        fun _ h => absurd h.symm (Option.some_ne_none _), hpay, hholds⟩

theorem adjusted_full (m : Mem) (p : Nat) {bytes : Nat} (hroom : pageRoom m p < bytes) :
    adjusted m p bytes = none := by
  unfold pageRoom at hroom
  unfold adjusted indxSz
  simp only
  rw [if_pos (by omega)]

/-- Without room `node_add_leaf` never succeeds, whatever the value needs. -/
theorem nodeAddLeaf_full (env : PageSize) (dupSort : Bool) (pageNewLarge : Except Int Nat)
    (key : List UInt8) (data : Data) (flags : Nat) (hk : k ≤ pageNumkeys m p)
    (hroom : pageRoom m p < (leafNeeds env key.length data flags).1) :
    (nodeAddLeaf env dupSort pageNewLarge m p k key data flags).status ≠ .success := by
  have hbytes : ∀ nodeBytes flags largepage, pageRoom m p < nodeBytes →
      (nodeAddLeafBytes m p k nodeBytes key data flags largepage).status ≠ .success := by
    intro nodeBytes flags largepage hless
    unfold nodeAddLeafBytes
    simp only [adjusted_moved m p hk, adjusted_full m p hless]
    exact Status.noConfusion
  unfold leafNeeds PageSize.leafSize at hroom
  unfold nodeAddLeaf
  by_cases hb : flags &&& nBig ≠ 0
  · rw [if_pos hb] at hroom ⊢
    exact hbytes _ _ _ hroom
  · simp only [if_neg hb] at hroom ⊢
    by_cases hlarge : env.leafNodeMax < nodeSizeLen key.length data.len
    · simp only [if_pos hlarge, gt_iff_lt] at hroom ⊢
      split_ifs
      · exact Status.noConfusion
      · exact Status.noConfusion
      · cases pageNewLarge with
        | error err => exact Status.noConfusion
        | ok pgno => exact hbytes _ _ _ hroom
    · simp only [if_neg hlarge, gt_iff_lt] at hroom ⊢
      exact hbytes _ _ _ hroom

/-- The stores of `node_add_branch` for the node. -/
theorem branchHeader_spec (m : Mem) (node pgno : Nat) {key : List UInt8} (hkey : key.length < 65536)
    {opt : Option (List UInt8)} (hopt : opt.getD [] = key) :
    let m₁ := nodeSetKs (nodeSetExtra (nodeSetFlags (nodeSetPgno m node pgno) node 0) node 0) node 0
    let m' := match opt with
      | none => m₁
      | some key => copy (nodeSetKs m₁ node key.length) (nodeKey node) key
    peek m' node 4 = pgno % 4294967296 ∧ nodeFlags m' node = 0 ∧ nodeKs m' node = key.length ∧
      ByteMemory.bytes m' (nodeKey node) key.length = key ∧
      ∀ a, a < node ∨ node + 8 + key.length ≤ a → m' a = m a := by
  unfold nodeKey nodeHdrSz nodeFlags nodeKs nodeSetPgno nodeSetExtra nodeSetFlags nodeSetKs
  cases opt with
  | none =>
    subst hopt
    refine ⟨?_, ?_, ?_, rfl, fun a ha => ?_⟩
    · simp only
      rw [peek_poke_apart (by omega), peek_poke_apart (by omega), peek_poke_apart (by omega)]
      exact peek_poke _ _ _ _
    · simp only
      rw [peek_poke_apart (by omega), peek_poke_apart (by omega)]
      exact peek_poke _ _ _ _
    · exact peek_poke _ _ _ _
    · simp only
      rw [poke_outside (by omega), poke_outside (by omega), poke_outside (by omega),
        poke_outside (by omega)]
  | some key' =>
    subst hopt
    change key'.length < 65536 at hkey
    change peek _ _ _ = _ ∧ peek _ _ _ = _ ∧ peek _ _ _ = key'.length ∧
      ByteMemory.bytes _ _ key'.length = key' ∧ ∀ a, a < node ∨ node + 8 + key'.length ≤ a → _ = _
    refine ⟨?_, ?_, ?_, bytes_copy _ _ _, fun a ha => ?_⟩
    · simp only
      rw [peek_copy_apart (by omega), peek_poke_apart (by omega), peek_poke_apart (by omega),
        peek_poke_apart (by omega), peek_poke_apart (by omega)]
      exact peek_poke _ _ _ _
    · simp only
      rw [peek_copy_apart (by omega), peek_poke_apart (by omega), peek_poke_apart (by omega),
        peek_poke_apart (by omega)]
      exact peek_poke _ _ _ _
    · simp only
      rw [peek_copy_apart (by omega), peek_poke]
      exact Nat.mod_eq_of_lt hkey
    · simp only
      rw [copy_outside (by omega), poke_outside (by omega), poke_outside (by omega),
        poke_outside (by omega), poke_outside (by omega), poke_outside (by omega)]

theorem branch_inserted (hf : Formed m p space) (hleaf : isLeaf m p = false)
    (hk : k ≤ pageNumkeys m p) (hsize : size = evenCeil (8 + key.length))
    (hroom : lower m p + 2 + size ≤ upper m p) {word : Nat}
    (hword : peek m' (p + (upper m p - size) + 20) 4 = word)
    (hflags : nodeFlags m' (p + (upper m p - size) + 20) = flags)
    (hks : nodeKs m' (p + (upper m p - size) + 20) = key.length)
    (hkey : ByteMemory.bytes m' (nodeKey (p + (upper m p - size) + 20)) key.length = key)
    (hout : ∀ a, a < p + (upper m p - size) + 20 ∨ p + (upper m p - size) + 28 + key.length ≤ a →
      m' a = opened m p k (lower m p + 2) (upper m p - size) a) :
    Holds m m' p space ((items m p).insertIdx k ⟨word, flags, key, []⟩) := by
  obtain ⟨hnode, hinserted⟩ := opened_spec hf hk hroom
  have hfit := (evenCeil_bounds (8 + key.length)).1
  have hup : upper m p - size + size = upper m p := by omega
  generalize upper m p - size = up at *
  have hins := hinserted m' fun a ha => hout a (by omega)
  have hpoint : pageNode m' p k = p + up + 20 := by
    rw [pageNode, hins.new]
    have hu := hins.upper_eq
    unfold pageHdrSz
    omega
  have hitem := branchItem_of hword hflags hks hkey
  have hbytes : sizeAt m' p k = size := by
    unfold sizeAt
    rw [hins.framed.header.1, hleaf, hpoint, hitem.2, hsize]
  refine ⟨hins.framed, hins.formed hf hk hbytes (by omega), ?_⟩
  rw [hins.items_eq hf hk, hleaf, hpoint, hitem.1]

/-- `node_add_branch` puts a node in if there is room for it, and else changes nothing. -/
theorem nodeAddBranch_spec (hf : Formed m p space) (hleaf : isLeaf m p = false)
    (hk : k ≤ pageNumkeys m p) {opt : Option (List UInt8)} (hkey : (opt.getD []).length < 65536)
    {pgno : Nat} (hpgno : pgno < 4294967296) :
    let r := nodeAddBranch m p k opt pgno
    if PageSize.branchSize (opt.getD []).length ≤ pageRoom m p then r.2 = .success ∧
      Holds m r.1 p space ((items m p).insertIdx k ⟨pgno, 0, opt.getD [], []⟩)
    else r = (m, .pageFull) := by
  have hbytes : PageSize.branchSize (opt.elim 0 List.length) =
      evenCeil (8 + (opt.getD []).length) + 2 := by
    rw [evenCeil_add_even _ rfl]
    cases opt <;> rfl
  have hbytes' : PageSize.branchSize (opt.getD []).length =
      evenCeil (8 + (opt.getD []).length) + 2 := by
    rw [evenCeil_add_even _ rfl]
    rfl
  have hfit := (evenCeil_bounds (8 + (opt.getD []).length)).1
  have hlower := hf.room
  generalize hsize : evenCeil (8 + (opt.getD []).length) = size at *
  rw [hbytes']
  unfold pageRoom nodeAddBranch
  simp only [hbytes, adjusted_eq m p (show 2 ≤ size + 2 by omega)]
  by_cases hroom : size + 2 ≤ upper m p - lower m p
  · simp only [if_pos hroom, if_pos (show lower m p + (size + 2) ≤ upper m p by omega),
      Nat.add_sub_cancel]
    have hnode := (opened_spec hf hk (show lower m p + 2 + size ≤ upper m p by omega)).1
    obtain ⟨hword, hflags, hks, hkey', hout⟩ := branchHeader_spec
      (opened m p k (lower m p + 2) (upper m p - size)) (p + (upper m p - size) + 20) pgno hkey rfl
    rw [Nat.mod_eq_of_lt hpgno] at hword
    have hholds := branch_inserted hf hleaf hk hsize.symm (by omega) hword hflags hks hkey' hout
    unfold opened at hnode hholds
    simp only [hnode]
    cases opt <;> exact ⟨rfl, hholds⟩
  · simp only [if_neg hroom, if_neg (show ¬ lower m p + (size + 2) ≤ upper m p by omega)]

/-! ## 3. Deletions -/

theorem Formed.entry_fits (hf : Formed m p space) {i : Nat} (hk : k < pageNumkeys m p)
    (hlt : entry m p i < entry m p k) : entry m p i + sizeAt m p k < 65536 := by
  have hin := hf.placed.inside k hk
  have hsmall := hf.small
  omega

theorem nodeDel_eq (hplain : isDupfixLeaf m p = false) {ksize : Nat} : nodeDel m p k ksize =
    let m₁ := closeGap m p k (entry m p k) (sizeAt m p k) (pageNumkeys m p) 0 0
    let base := p + upper m₁ p + 20
    let m₂ := move m₁ (base + sizeAt m p k) base (entry m p k - upper m₁ p)
    let m₃ := setLower m₂ p (lower m₂ p - 2)
    setUpper m₃ p (upper m₃ p + sizeAt m p k) := by
  unfold nodeDel
  rw [hplain]
  rfl

/-- `node_del` erases the item and leaves no hole. -/
theorem nodeDel_spec (hf : Formed m p space) (hk : k < pageNumkeys m p) (ksize : Nat) :
    Holds m (nodeDel m p k ksize) p space ((items m p).eraseIdx k) := by
  have hin := hf.placed.inside k hk
  have hpos := sizeAt_pos m p k
  have hlow := hf.lower_eq
  have hroom := hf.room
  have hsmall := hf.small
  have hgap := closeGap_spec m p k (entry m p k) (sizeAt m p k) (Nat.zero_add (pageNumkeys m p)) hk
    fun i _ _ hlt => hf.entry_fits hk hlt
  simp only [Nat.zero_le, if_true] at hgap
  obtain ⟨hout, hent⟩ := hgap
  have hremoved : Removed m (nodeDel m p k ksize) p space k := by
    rw [nodeDel_eq hf.plain]
    generalize closeGap m p k (entry m p k) (sizeAt m p k) (pageNumkeys m p) 0 0 = m₁ at *
    have hupper : upper m₁ p = upper m p := upper_of_agree fun a h₁ h₂ => hout a (by omega)
    simp only
    rw [hupper]
    have hlower : lower (move m₁ (p + upper m p + 20 + sizeAt m p k) (p + upper m p + 20)
        (entry m p k - upper m p)) p = lower m p :=
      lower_of_agree fun a h₁ h₂ => (move_outside (by omega)).trans (hout a (by omega))
    rw [hlower]
    have hupper' : ∀ v, upper (setLower (move m₁ (p + upper m p + 20 + sizeAt m p k)
        (p + upper m p + 20) (entry m p k - upper m p)) p v) p = upper m p := fun v =>
      upper_of_agree fun a h₁ h₂ => (setLower_outside (by omega)).trans
        ((move_outside (by omega)).trans (hout a (by omega)))
    rw [hupper']
    have hhigh : ∀ a, a < p + 12 ∨ p + 16 ≤ a → ∀ m₂ : Mem, setUpper (setLower m₂ p (lower m p - 2)) p
        (upper m p + sizeAt m p k) a = m₂ a := by
      intro a ha m₂
      rw [setUpper_outside (by omega), setLower_outside (by omega)]
    refine ⟨⟨⟨fun a ha => ?_, fun a h₁ h₂ => ?_⟩, ?_, fun a h₁ h₂ => ?_, fun a ha => ?_⟩, ?_,
      fun i hi => ?_⟩
    · unfold pageHdrSz at ha
      rw [hhigh a (by omega), move_outside (by omega), hout a (by omega)]
    · unfold pageHdrSz at h₂
      rw [hhigh a (by omega), move_outside (by omega), hout a (by omega)]
    · exact upper_setUpper _ _ (by omega)
    · unfold pageHdrSz at h₁ h₂
      rw [hhigh _ (by omega)]
      unfold move
      rw [if_pos (by omega), hout _ (by omega)]
      congr 1
      omega
    · unfold pageHdrSz at ha
      rw [hhigh a (by omega), move_outside (by omega), hout a (by omega)]
    · rw [lower_of_agree fun a h₁ h₂ => setUpper_outside (by omega), lower_setLower _ _ (by omega)]
      omega
    · rw [entry_of_agree fun a h₁ h₂ => (hhigh a (by omega) _).trans (move_outside (by omega))]
      exact hent i trivial hi
  exact ⟨hremoved.framed, hremoved.formed hf hk, hremoved.items_eq hf hk⟩

end Mdbx.Slotted
