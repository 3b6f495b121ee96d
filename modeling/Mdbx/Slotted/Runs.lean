import Mdbx.Lib.Steps
import Mdbx.Slotted.Fixed

/-!
# Slotted.Runs — a page is a list of items

Whatever is added to a page, deleted from it and changed in it, the page is well formed and holds the
list on which the same was done.  A page takes an item when the list has room for it and its value,
if it is too long for a node, gets a large page.
-/

namespace Mdbx.Slotted

open Node ByteMemory

variable {m m' m₀ : Mem} {p space k : Nat} {xs : List Item}

/-! ## 1. A new page -/

/-- `page_new` -/
def pageNew (env : PageSize) (m : Mem) (p flags : Nat) : Mem :=
  setUpper (setLower (poke m (p + 10) 2 flags) p 0) p env.space

theorem pageNew_header (env : PageSize) (m : Mem) (p : Nat) {flags : Nat} (hflags : flags < 65536) :
    pageFlags (pageNew env m p flags) p = flags ∧ lower (pageNew env m p flags) p = 0 ∧
      upper (pageNew env m p flags) p = env.space ∧ env.space < 65536 ∧ env.space % 2 = 0 := by
  obtain ⟨hlo, hhi, heven⟩ := env.ps_bounds
  have hspace : env.space + 20 = env.ps := by
    unfold PageSize.space pageHdrSz
    omega
  unfold pageNew pageFlags setUpper setLower lower upper
  refine ⟨?_, ?_, ?_, by omega, by omega⟩
  · rw [peek_poke_apart (by omega), peek_poke_apart (by omega), peek_poke]
    exact Nat.mod_eq_of_lt hflags
  · rw [peek_poke_apart (by omega), peek_poke]
    rfl
  · rw [peek_poke]
    exact Nat.mod_eq_of_lt (by omega)

theorem pageNew_formed (env : PageSize) (m : Mem) (p : Nat) {flags : Nat} (hflags : flags < 65536)
    (hplain : flags &&& pDupfix = 0) : Formed (pageNew env m p flags) p env.space ∧
      items (pageNew env m p flags) p = [] := by
  obtain ⟨hfl, hlow, hup, hsmall, heven⟩ := pageNew_header env m p hflags
  refine Formed.empty ?_ hlow hup hsmall heven
  unfold isDupfixLeaf
  rw [hfl, hplain]
  rfl

theorem pageNew_fixed (env : PageSize) (m : Mem) (p ksize : Nat) {flags : Nat} (hflags : flags < 65536)
    (hfixed : flags &&& pDupfix ≠ 0) (hwide : 2 ≤ ksize ∧ ksize < 65536) :
    FixedFormed (poke (pageNew env m p flags) (p + 8) 2 ksize) p env.space ksize ∧
      fixedItems (poke (pageNew env m p flags) (p + 8) 2 ksize) p = [] := by
  obtain ⟨hfl, hlow, hup, hsmall, heven⟩ := pageNew_header env m p hflags
  generalize pageNew env m p flags = m₁ at *
  have hks : dupfixKsize (poke m₁ (p + 8) 2 ksize) p = ksize :=
    (peek_poke _ _ _ _).trans (Nat.mod_eq_of_lt hwide.2)
  have hkind : isDupfixLeaf (poke m₁ (p + 8) 2 ksize) p = true := by
    have hfl' : pageFlags (poke m₁ (p + 8) 2 ksize) p = flags :=
      (peek_poke_apart (by omega)).trans hfl
    unfold isDupfixLeaf
    rw [hfl']
    exact bne_iff_ne.mpr hfixed
  have hempty := FixedFormed.empty hkind ((peek_poke_apart (by omega)).trans hlow)
    ((peek_poke_apart (by omega)).trans hup) hsmall heven (hks.symm ▸ hwide.1)
  rwa [hks] at hempty

/-! ## 2. What is done to a page, and to a list -/

inductive Op where
  -- with what `page_new_large` would return
  | addLeaf (k : Nat) (key : List UInt8) (data : Data) (flags : Nat) (pageNewLarge : Except Int Nat)
  | addBranch (k : Nat) (key : Option (List UInt8)) (pgno : Nat)
  | del (k : Nat)
  -- the child of a branch gets another number
  | setPgno (k pgno : Nat)
  -- data of the same size
  | overwrite (k : Nat) (data : List UInt8)

variable (env : PageSize) (dupSort : Bool)

/-- A step is made when the function succeeds. -/
def pageStep (p : Nat) (m : Mem) : Op → Option Mem
  | .addLeaf k key data flags pageNewLarge =>
    let r := nodeAddLeaf env dupSort pageNewLarge m p k key data flags
    if r.status = .success then some r.mem else none
  | .addBranch k key pgno =>
    let r := nodeAddBranch m p k key pgno
    if r.2 = .success then some r.1 else none
  | .del k => some (nodeDel m p k 0)
  | .setPgno k pgno => some (nodeSetPgno m (pageNode m p k) pgno)
  | .overwrite k data => some (copy m (nodeData m (pageNode m p k)) data)

/-- The bytes that items take with their entries. -/
def usedBy (xs : List Item) : Nat := (xs.map Item.bytes).sum + indxSz * xs.length

/-- The item that `node_add_leaf` puts in.  There is none when the value needs a large page that it may
not have or does not get. -/
def leafItem (pageNewLarge : Except Int Nat) (key : List UInt8) (data : Data) (flags : Nat) :
    Option Item :=
  if (leafNeeds env key.length data flags).2 then
    match dupSort || flags &&& (nDup ||| nTree) != 0, pageNewLarge with
    | false, .ok pgno => some ⟨data.len, (flags ||| nBig) % 256, key, toBytes pgnoSz pgno⟩
    | _, _ => none
  else
    some ⟨data.len, flags % 256, key,
      data.base.take (if flags &&& nBig ≠ 0 then pgnoSz else data.len)⟩

def listStep (space : Nat) (xs : List Item) : Op → Option (List Item)
  | .addLeaf k key data flags pageNewLarge =>
    if space < usedBy xs + (leafNeeds env key.length data flags).1 then none
    else (leafItem env dupSort pageNewLarge key data flags).map (xs.insertIdx k)
  | .addBranch k key pgno =>
    if space < usedBy xs + PageSize.branchSize (key.getD []).length then none
    else some (xs.insertIdx k ⟨pgno, 0, key.getD [], []⟩)
  | .del k => some (xs.eraseIdx k)
  | .setPgno k pgno => some (xs.modify k fun x => { x with word := pgno })
  | .overwrite k data => some (xs.modify k fun x => { x with data := data })

/-- What the callers keep to: the indexes, the widths of the fields and the kind of the page.  With
MDBX_RESERVE the data would come later. -/
def Allowed (leaf : Bool) (xs : List Item) : Op → Prop
  | .addLeaf k key data flags _ => leaf = true ∧ k ≤ xs.length ∧ key.length < 65536 ∧
      data.len < 4294967296 ∧ data.Given flags ∧ flags &&& mdbxReserve = 0
  | .addBranch k key pgno => leaf = false ∧ k ≤ xs.length ∧ (key.getD []).length < 65536 ∧
      pgno < 4294967296
  | .del k => k < xs.length
  | .setPgno k pgno => leaf = false ∧ k < xs.length ∧ pgno < 4294967296
  | .overwrite k data => leaf = true ∧ ∃ x ∈ xs[k]?, x.flags &&& nBig = 0 ∧
      data.length = x.data.length

instance (data : Data) (flags : Nat) : Decidable (data.Given flags) :=
  inferInstanceAs (Decidable ((_ → _) ∧ (_ → _ → _)))

instance (leaf : Bool) (xs : List Item) (op : Op) : Decidable (Allowed leaf xs op) :=
  match op with
  | .addLeaf .. => inferInstanceAs (Decidable (_ ∧ _ ∧ _ ∧ _ ∧ _ ∧ _))
  | .addBranch .. => inferInstanceAs (Decidable (_ ∧ _ ∧ _ ∧ _))
  | .del _ => inferInstanceAs (Decidable (_ < _))
  | .setPgno .. => inferInstanceAs (Decidable (_ ∧ _ ∧ _))
  | .overwrite k data => inferInstanceAs (Decidable (_ ∧ ∃ x ∈ xs[k]?, x.flags &&& nBig = 0 ∧
      data.length = x.data.length))

/-! ## 3. One step -/

/-- The page holds the list, and around it nothing has changed. -/
structure Page (m₀ m : Mem) (p space : Nat) (xs : List Item) : Prop where
  framed : Framed m₀ m p space
  formed : Formed m p space
  items_eq : items m p = xs

theorem Page.holds (h : Page m₀ m p space xs) {ys : List Item} (hh : Holds m m' p space ys) :
    Page m₀ m' p space ys := ⟨h.framed.trans hh.framed, hh.formed, hh.items_eq⟩

theorem Page.room (h : Page m₀ m p space xs) : pageRoom m p + usedBy xs = space := by
  have hroom := h.formed.room_eq
  rw [h.items_eq] at hroom
  exact hroom

theorem Page.numkeys (h : Page m₀ m p space xs) : pageNumkeys m p = xs.length := by
  rw [← length_items, h.items_eq]

variable {env dupSort}

/-- A leaf node goes in as the item says, or the call fails. -/
theorem addLeaf_item (dupSort : Bool) (pageNewLarge : Except Int Nat) {key : List UInt8}
    {data : Data} {flags : Nat} (hf : Formed m p space) (hleaf : isLeaf m p = true) (hk : k ≤ pageNumkeys m p)
    (hkey : key.length < 65536) (hlen : data.len < 4294967296) (hgiven : data.Given flags)
    (hflags : flags &&& mdbxReserve = 0)
    (hroom : (leafNeeds env key.length data flags).1 ≤ pageRoom m p) :
    let r := nodeAddLeaf env dupSort pageNewLarge m p k key data flags
    (r.status ≠ .success ∧ leafItem env dupSort pageNewLarge key data flags = none) ∨
      (r.status = .success ∧ ∃ x, leafItem env dupSort pageNewLarge key data flags = some x ∧
        Holds m r.mem p space ((items m p).insertIdx k x)) := by
  have hadd := nodeAddLeaf_spec env dupSort pageNewLarge data flags hf hleaf hk hkey hlen hgiven hroom
  simp only at hadd ⊢
  unfold leafItem
  rcases hadd with ⟨hfails, ⟨hbig, hwhy⟩, -⟩ |
    ⟨hdone, hnot, largepage, stored, hlarge, hfrom, hpay, hholds⟩
  · refine Or.inl ⟨hfails, ?_⟩
    rw [if_pos hbig]
    rcases hwhy with hdup | htree | ⟨err, herr⟩
    · rw [hdup, Bool.true_or]
    · rw [bne_iff_ne.mpr htree, Bool.or_true]
    · subst herr
      cases dupSort || flags &&& (nDup ||| nTree) != 0 <;> rfl
  · refine Or.inr ⟨hdone, ?_⟩
    cases largepage with
    | some pgno =>
      have hbig := hlarge.mp (Option.some_ne_none pgno)
      have hpage := hfrom pgno rfl
      subst hpage
      have hfree : (dupSort || flags &&& (nDup ||| nTree) != 0) = false := by
        rw [Bool.or_eq_false_iff]
        constructor
        · exact Bool.eq_false_iff.mpr fun h => hnot ⟨hbig, Or.inl h⟩
        · exact Bool.eq_false_iff.mpr fun h => hnot ⟨hbig, Or.inr (Or.inl (bne_iff_ne.mp h))⟩
      rw [if_neg (Option.some_ne_none pgno), hpay.large pgno rfl] at hholds
      rw [if_pos hbig, hfree]
      exact ⟨_, rfl, hholds⟩
    | none =>
      have hsmall : ¬ (leafNeeds env key.length data flags).2 = true := fun h => hlarge.mpr h rfl
      rw [if_pos rfl] at hholds hpay
      rw [if_neg hsmall]
      refine ⟨_, rfl, ?_⟩
      by_cases hbig : flags &&& nBig ≠ 0
      · rw [hpay.big rfl hbig] at hholds
        rw [if_pos hbig]
        exact hholds
      · rw [hpay.plain rfl (Decidable.not_not.mp hbig) hflags] at hholds
        rw [if_neg hbig]
        exact hholds

/-- The number of a child changes. -/
theorem setPgno_holds {pgno : Nat} (hf : Formed m p space) (hleaf : isLeaf m p = false)
    (hk : k < pageNumkeys m p) (hpgno : pgno < 4294967296) :
    Holds m (nodeSetPgno m (pageNode m p k) pgno) p space
      ((items m p).modify k fun x => { x with word := pgno }) := by
  have hout : ∀ a, a < pageNode m p k ∨ pageNode m p k + 4 ≤ a →
      nodeSetPgno m (pageNode m p k) pgno a = m a := fun a ha => poke_outside ha
  have hagree : Agree m (nodeSetPgno m (pageNode m p k) pgno) (pageNode m p k + 4)
      (pageNode m p k + 4) (4 + nodeKs m (pageNode m p k)) := fun d hd => hout _ (by omega)
  have hflags : nodeFlags (nodeSetPgno m (pageNode m p k) pgno) (pageNode m p k) =
      nodeFlags m (pageNode m p k) := (hagree.part (d := 0) (k := 1) (by omega)).peek
  have hks : nodeKs (nodeSetPgno m (pageNode m p k) pgno) (pageNode m p k) =
      nodeKs m (pageNode m p k) := (hagree.part (d := 2) (k := 2) (by omega)).peek
  have hbytes := (nodeBytes_bounds m (isLeaf m p) (pageNode m p k)).1
  have hrewrite := hf.rewrite (nodeSetPgno m (pageNode m p k) pgno) hk
    (fun a ha => hout a (by unfold sizeAt at ha; omega)) (by
      unfold sizeAt nodeBytes dataBytes
      rw [hleaf, hks]
      rfl)
  have hword : peek (nodeSetPgno m (pageNode m p k) pgno) (pageNode m p k) 4 = pgno :=
    (peek_poke _ _ _ _).trans (Nat.mod_eq_of_lt hpgno)
  have hkeys : ByteMemory.bytes (nodeSetPgno m (pageNode m p k) pgno) (nodeKey (pageNode m p k))
      (nodeKs m (pageNode m p k)) = ByteMemory.bytes m (nodeKey (pageNode m p k))
        (nodeKs m (pageNode m p k)) :=
    (hagree.part (d := 4) (k := nodeKs m (pageNode m p k)) (by omega)).bytes
  have hitem : itemAt (nodeSetPgno m (pageNode m p k) pgno) (isLeaf m p) (pageNode m p k) =
      { itemAt m (isLeaf m p) (pageNode m p k) with word := pgno } := by
    unfold itemAt dataBytes
    rw [hleaf, hword, hflags, hks, hkeys]
    rfl
  rw [hitem] at hrewrite
  have hlen : k < (items m p).length := by
    rw [length_items]
    exact hk
  have hmodify := List.modify_eq_set_get (fun x : Item => { x with word := pgno }) hlen
  rw [hmodify, List.get_eq_getElem, getElem_items]
  exact hrewrite

/-- The data of a node change, and not their length. -/
theorem overwrite_holds {data : List UInt8} (hf : Formed m p space) (hleaf : isLeaf m p = true)
    (hk : k < pageNumkeys m p) (hsmall : nodeFlags m (pageNode m p k) &&& nBig = 0)
    (hlen : data.length = nodeDs m (pageNode m p k)) :
    Holds m (copy m (nodeData m (pageNode m p k)) data) p space
      ((items m p).modify k fun x => { x with data := data }) := by
  have hds : dataBytes m true (pageNode m p k) = nodeDs m (pageNode m p k) := by
    unfold dataBytes
    rw [if_pos rfl, if_neg (fun h => h hsmall)]
  have hdata : nodeData m (pageNode m p k) = pageNode m p k + 8 + nodeKs m (pageNode m p k) := rfl
  have hbytes := (nodeBytes_bounds m true (pageNode m p k)).1
  generalize hm' : copy m (nodeData m (pageNode m p k)) data = m'
  have hout : ∀ a, a < nodeData m (pageNode m p k) ∨
      nodeData m (pageNode m p k) + data.length ≤ a → m' a = m a := fun a ha => by
    rw [← hm', copy_outside ha]
  have hagree : Agree m m' (pageNode m p k) (pageNode m p k) (8 + nodeKs m (pageNode m p k)) :=
    fun d hd => hout _ (by omega)
  have hword : nodeDs m' (pageNode m p k) = nodeDs m (pageNode m p k) := (hagree.mono (by omega)).peek
  have hflags : nodeFlags m' (pageNode m p k) = nodeFlags m (pageNode m p k) :=
    (hagree.part (d := 4) (k := 1) (by omega)).peek
  have hks : nodeKs m' (pageNode m p k) = nodeKs m (pageNode m p k) :=
    (hagree.part (d := 6) (k := 2) (by omega)).peek
  have hds' : dataBytes m' true (pageNode m p k) = nodeDs m (pageNode m p k) := by
    unfold dataBytes
    rw [if_pos rfl, hflags, if_neg (fun h => h hsmall), hword]
  have hrewrite := hf.rewrite m' hk
    (fun a ha => hout a (by unfold sizeAt at ha; rw [hleaf] at ha; omega)) (by
      unfold sizeAt nodeBytes
      rw [hleaf, hks, hds', hds])
  have hkeys : ByteMemory.bytes m' (nodeKey (pageNode m p k)) (nodeKs m (pageNode m p k)) =
      ByteMemory.bytes m (nodeKey (pageNode m p k)) (nodeKs m (pageNode m p k)) :=
    (hagree.part (d := 8) (k := nodeKs m (pageNode m p k)) (by omega)).bytes
  have hstored : ByteMemory.bytes m' (nodeData m (pageNode m p k)) data.length = data := by
    rw [← hm']
    exact bytes_copy _ _ _
  have hitem : itemAt m' (isLeaf m p) (pageNode m p k) =
      { itemAt m (isLeaf m p) (pageNode m p k) with data := data } := by
    have hplace : nodeData m' (pageNode m p k) = nodeData m (pageNode m p k) := by
      unfold nodeData
      rw [hks]
    unfold nodeDs at hword
    unfold itemAt
    rw [hleaf, hds', hplace, ← hlen, hstored, hword, hflags, hks, hkeys]
  rw [hitem] at hrewrite
  have hin : k < (items m p).length := by
    rw [length_items]
    exact hk
  have hmodify := List.modify_eq_set_get (fun x : Item => { x with data := data }) hin
  rw [hmodify, List.get_eq_getElem, getElem_items]
  exact hrewrite

theorem step_refines {leaf : Bool} {op : Op} (h : Page m₀ m p space xs) (hleaf : isLeaf m₀ p = leaf)
    (hok : Allowed leaf xs op) :
    Option.Rel (fun m xs => Page m₀ m p space xs) (pageStep env dupSort p m op)
      (listStep env dupSort space xs op) := by
  have hroom := h.room
  have hnum := h.numkeys
  have hkind : isLeaf m p = leaf := h.framed.header.1.trans hleaf
  have hf := h.formed
  cases op with
  | addLeaf k key data flags pageNewLarge =>
    obtain ⟨rfl, hk, hkey, hlen, hgiven, hflags⟩ := hok
    simp only [pageStep, listStep]
    have hin : k ≤ pageNumkeys m p := by omega
    by_cases hfull : pageRoom m p < (leafNeeds env key.length data flags).1
    · rw [if_neg (nodeAddLeaf_full env dupSort pageNewLarge key data flags hin hfull),
        if_pos (by omega)]
      exact .none
    · rw [if_neg (show ¬ space < _ by omega)]
      have hadd := addLeaf_item dupSort pageNewLarge hf hkind hin hkey hlen hgiven hflags
        (Nat.le_of_not_lt hfull)
      rw [h.items_eq] at hadd
      rcases hadd with ⟨hfails, hnone⟩ | ⟨hdone, x, hx, hholds⟩
      · rw [if_neg hfails, hnone]
        exact .none
      · rw [if_pos hdone, hx]
        exact .some (h.holds hholds)
  | addBranch k key pgno =>
    obtain ⟨rfl, hk, hkey, hpgno⟩ := hok
    have hadd := nodeAddBranch_spec hf hkind (show k ≤ pageNumkeys m p by omega) hkey hpgno
    simp only [pageStep, listStep] at hadd ⊢
    by_cases hfit : PageSize.branchSize (key.getD []).length ≤ pageRoom m p
    · rw [if_pos hfit] at hadd
      rw [if_pos hadd.1, if_neg (by omega)]
      have hholds := hadd.2
      rw [h.items_eq] at hholds
      exact .some (h.holds hholds)
    · rw [if_neg hfit] at hadd
      rw [hadd, if_neg Status.noConfusion, if_pos (by omega)]
      exact .none
  | del k =>
    have hdel := nodeDel_spec hf (show k < pageNumkeys m p from hnum.symm ▸ hok) 0
    rw [h.items_eq] at hdel
    exact .some (h.holds hdel)
  | setPgno k pgno =>
    obtain ⟨rfl, hk, hpgno⟩ := hok
    have hset := setPgno_holds hf hkind (show k < pageNumkeys m p by omega) hpgno
    rw [h.items_eq] at hset
    exact .some (h.holds hset)
  | overwrite k data =>
    obtain ⟨rfl, x, hx, hsmall, hlen⟩ := hok
    obtain ⟨hk, hitem⟩ := List.getElem?_eq_some_iff.mp hx
    have hin : k < pageNumkeys m p := by omega
    have hat : itemAt m true (pageNode m p k) = x := by
      have hlt : k < (items m p).length := by
        rw [length_items]
        exact hin
      rw [← hitem, ← List.getElem_of_eq h.items_eq hlt, getElem_items, hkind]
    have hflags : nodeFlags m (pageNode m p k) &&& nBig = 0 := by
      rw [← hat] at hsmall
      exact hsmall
    have hds : data.length = nodeDs m (pageNode m p k) := by
      rw [hlen, ← hat]
      unfold itemAt dataBytes
      rw [length_bytes, if_pos rfl, if_neg (fun h => h hflags)]
    have hover := overwrite_holds hf hkind hin hflags hds
    rw [h.items_eq] at hover
    exact .some (h.holds hover)

/-! ## 4. Runs -/

/-- Every run on a page is the run on its list: each call succeeds when its step on the list is
possible, and then the page holds what the list holds, in as many bytes, and nothing around the page
has changed. -/
theorem page_refines {leaf : Bool} {ops : List Op} (hf : Formed m p space) (hleaf : isLeaf m p = leaf)
    (hok : Steps.Along (listStep env dupSort space) (Allowed leaf) (items m p) ops) :
    Option.Rel (fun m' xs => Formed m' p space ∧ items m' p = xs ∧
        pageRoom m' p + usedBy xs = space ∧
        ∀ a, a < p + 12 ∨ p + pageHdrSz + space ≤ a → m' a = m a)
      (Steps.exec (pageStep env dupSort p) m ops)
      (Steps.exec (listStep env dupSort space) (items m p) ops) := by
  have hstart : Page m m p space (items m p) := ⟨Framed.refl m p space, hf, rfl⟩
  have hone : ∀ m' xs op, Page m m' p space xs → Allowed leaf xs op →
      Option.Rel (fun m' xs => Page m m' p space xs) (pageStep env dupSort p m' op)
        (listStep env dupSort space xs op) := fun _ _ _ h hok => step_refines h hleaf hok
  have hrun := Steps.exec_refines hone hstart hok
  generalize Steps.exec (pageStep env dupSort p) m ops = r,
    Steps.exec (listStep env dupSort space) (items m p) ops = r' at hrun ⊢
  cases hrun with
  | some h => exact .some ⟨h.formed, h.items_eq, h.room, h.framed.outside⟩
  | none => exact .none

-- a page of the smallest size
theorem smallest_sized : 8 ≤ 8 ∧ 8 ≤ 16 := ⟨Nat.le_refl 8, by decide⟩

def smallest : PageSize := ⟨8, smallest_sized⟩

def fourOps : List Op := [.addLeaf 0 [1] ⟨[7, 8], 2⟩ 0 (.error 0),
  .addLeaf 1 [2] ⟨[9], 1⟩ 0 (.error 0), .overwrite 0 [5, 6], .del 1]

theorem page_refines_four : ∃ m', Steps.exec (pageStep smallest false 0)
    (pageNew smallest (fun _ => 0) 0 pLeaf) fourOps = some m' ∧
      items m' 0 = [⟨2, 0, [1], [5, 6]⟩] := by
  obtain ⟨hf, hitems⟩ := pageNew_formed smallest (fun _ => 0) 0 (show pLeaf < 65536 by decide) rfl
  have hleaf : isLeaf (pageNew smallest (fun _ => 0) 0 pLeaf) 0 = true := by decide
  have hok : Steps.Along (listStep smallest false smallest.space) (Allowed true) [] fourOps :=
    Steps.along_of_check (fun _ _ h => of_decide_eq_true h)
      (by decide : Steps.check (listStep smallest false smallest.space)
        (fun xs op => decide (Allowed true xs op)) [] fourOps = true)
  have hlist : Steps.exec (listStep smallest false smallest.space) [] fourOps =
      some [⟨2, 0, [1], [5, 6]⟩] := by decide
  have hrun := page_refines hf hleaf (hitems.symm ▸ hok)
  rw [hitems, hlist] at hrun
  generalize Steps.exec (pageStep smallest false 0) _ fourOps = r at hrun ⊢
  cases hrun with
  | some h => exact ⟨_, rfl, h.2.1⟩

/-! ## 5. Pages of values of one size -/

inductive FixedOp where
  | add (k : Nat) (value : List UInt8)
  | del (k : Nat)

def fixedStep (p ksize : Nat) (m : Mem) : FixedOp → Option Mem
  | .add k value =>
    let r := nodeAddDupfix m p k value
    if r.2 = .success then some r.1 else none
  | .del k => some (nodeDel m p k ksize)

def valuesStep (space ksize : Nat) (xs : List (List UInt8)) : FixedOp → Option (List (List UInt8))
  | .add k value => if space < ksize * xs.length + ksize then none else some (xs.insertIdx k value)
  | .del k => some (xs.eraseIdx k)

def FixedAllowed (ksize : Nat) (xs : List (List UInt8)) : FixedOp → Prop
  | .add k value => k ≤ xs.length ∧ value.length = ksize
  | .del k => k < xs.length

structure FixedPage (m₀ m : Mem) (p space ksize : Nat) (xs : List (List UInt8)) : Prop where
  framed : Framed m₀ m p space
  formed : FixedFormed m p space ksize
  items_eq : fixedItems m p = xs

variable {ksize : Nat} {vs : List (List UInt8)}

theorem fixedStep_refines {op : FixedOp} (h : FixedPage m₀ m p space ksize vs)
    (hok : FixedAllowed ksize vs op) :
    Option.Rel (fun m xs => FixedPage m₀ m p space ksize xs) (fixedStep p ksize m op)
      (valuesStep space ksize vs op) := by
  have hroom := h.formed.room_eq
  have hnum : pageNumkeys m p = vs.length := by
    rw [← length_fixedItems, h.items_eq]
  rw [h.items_eq] at hroom
  cases op with
  | add k value =>
    obtain ⟨hk, hlen⟩ := hok
    have hadd := nodeAddDupfix_spec h.formed (show k ≤ pageNumkeys m p by omega) hlen
    simp only [fixedStep, valuesStep] at hadd ⊢
    by_cases hfit : ksize ≤ pageRoom m p
    · rw [if_pos hfit] at hadd
      rw [if_pos hadd.1, if_neg (by omega)]
      obtain ⟨-, hholds⟩ := hadd
      exact .some ⟨h.framed.trans hholds.framed, hholds.formed, by rw [hholds.items_eq, h.items_eq]⟩
    · rw [if_neg hfit] at hadd
      rw [hadd, if_neg Status.noConfusion, if_pos (by omega)]
      exact .none
  | del k =>
    have hdel := nodeDel_fixed_spec h.formed (show k < pageNumkeys m p from hnum.symm ▸ hok)
    exact .some ⟨h.framed.trans hdel.framed, hdel.formed, by rw [hdel.items_eq, h.items_eq]⟩

/-- The same for a page of values of one size, whose free room is what the values leave and whose
`upper` has the parity that the code asserts. -/
theorem fixed_page_refines {ops : List FixedOp} (hf : FixedFormed m p space ksize)
    (hok : Steps.Along (valuesStep space ksize) (FixedAllowed ksize) (fixedItems m p) ops) :
    Option.Rel (fun m' xs => FixedFormed m' p space ksize ∧ fixedItems m' p = xs ∧
        pageRoom m' p + ksize * xs.length = space ∧
        (((ksize &&& pageNumkeys m' p) ^^^ upper m' p) &&& 1) = 0 ∧
        ∀ a, a < p + 12 ∨ p + pageHdrSz + space ≤ a → m' a = m a)
      (Steps.exec (fixedStep p ksize) m ops)
      (Steps.exec (valuesStep space ksize) (fixedItems m p) ops) := by
  have hstart : FixedPage m m p space ksize (fixedItems m p) := ⟨Framed.refl m p space, hf, rfl⟩
  have hone : ∀ m' xs op, FixedPage m m' p space ksize xs → FixedAllowed ksize xs op →
      Option.Rel (fun m' xs => FixedPage m m' p space ksize xs) (fixedStep p ksize m' op)
        (valuesStep space ksize xs op) := fun _ _ _ h hok => fixedStep_refines h hok
  have hrun := Steps.exec_refines hone hstart hok
  generalize Steps.exec (fixedStep p ksize) m ops = r,
    Steps.exec (valuesStep space ksize) (fixedItems m p) ops = r' at hrun ⊢
  cases hrun with
  | some h =>
    have hroom := h.formed.room_eq
    rw [h.items_eq] at hroom
    exact .some ⟨h.formed, h.items_eq, hroom, h.formed.parity, h.framed.outside⟩
  | none => exact .none

def threeOps : List FixedOp := [.add 0 [1, 2, 3], .add 0 [4, 5, 6], .del 1]

theorem fixed_page_refines_three : ∃ m', Steps.exec (fixedStep 0 3)
    (poke (pageNew smallest (fun _ => 0) 0 (pLeaf ||| pDupfix)) 8 2 3) threeOps = some m' ∧
      fixedItems m' 0 = [[4, 5, 6]] := by
  obtain ⟨hf, hitems⟩ := pageNew_fixed smallest (fun _ => 0) 0 3
    (show pLeaf ||| pDupfix < 65536 by decide) (by decide) (by decide)
  rw [Nat.zero_add] at hf hitems
  have hok : Steps.Along (valuesStep smallest.space 3) (FixedAllowed 3) [] threeOps := by
    refine ⟨⟨Nat.zero_le _, rfl⟩, fun s hs => ?_⟩
    have hone : s = [[1, 2, 3]] := (Option.some.inj hs).symm
    subst hone
    refine ⟨⟨Nat.zero_le _, rfl⟩, fun s hs => ?_⟩
    have htwo : s = [[4, 5, 6], [1, 2, 3]] := (Option.some.inj hs).symm
    subst htwo
    exact ⟨Nat.one_lt_two, fun _ _ => trivial⟩
  have hlist : Steps.exec (valuesStep smallest.space 3) [] threeOps = some [[4, 5, 6]] := by decide
  have hrun := fixed_page_refines hf (hitems.symm ▸ hok)
  rw [hitems, hlist] at hrun
  generalize Steps.exec (fixedStep 0 3) _ threeOps = r at hrun ⊢
  cases hrun with
  | some h => exact ⟨_, rfl, h.2.1⟩

end Mdbx.Slotted
