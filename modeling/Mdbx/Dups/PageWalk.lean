import Mdbx.Dups.Cursor

/-!
# Dups.PageWalk — the pages that multi-value fetches return

The pages of a key are numbered from left to right.  Which page is due depends on the last duplicate
that has been returned; the cursor goes by its own index and by end flags that page moves do not
clear.
-/

namespace Mdbx.Dups

open PageTree

variable {V : Type}

/-! ## 1. Pages -/

/-- No page is empty, and all leaves are at one depth. -/
def Node.Wf (node : Node V) : Prop := node.tree.root.Uniform node.tree.height

def Node.pages (node : Node V) : List (List V) :=
  (Tree.level node.tree.height node.tree.root).map Tree.items

def Node.isSingle : Node V → Bool
  | .single _ => true
  | _ => false

def Node.page (node : Node V) (i : Nat) : List V := node.pages.getD i []

def pageIndex (c : Couple V) : Nat := (side false c.inner.stack).length

def itemIndex (c : Couple V) : Nat :=
  match c.inner.stack with
  | [] => 0
  | top :: _ => top.ki

/-- How a cursor gets to one of the duplicates of a key. -/
inductive Placed (node : Node V) : Couple V → Prop where
  | first : Placed node (bring true false node)
  | last : Placed node (bring false true node)
  /-- a seek of the key alone -/
  | seekKey : Placed node (bring true false node)
  /-- a seek of the value too -/
  | seekBoth (top : Frame V V) (rest : List (Frame V V)) (multi : node.isSingle = false)
      (path : Path node.tree.root node.tree.height 0 (top :: rest))
      (at_ki : top.ki < top.page.numkeys) : Placed node ⟨node, clear, ⟨top :: rest, clear⟩⟩

/-- The last duplicate that has been returned; that of the placing before any fetch. -/
structure Mark where
  page : Nat
  item : Nat

/-- The page that is due. -/
def due (node : Node V) (m : Mark) : Op → Option Nat
  | .get => some m.page
  | .next =>
      if m.item + 1 < (node.page m.page).length then some m.page
      else if m.page + 1 < node.pages.length then some (m.page + 1)
      else none
  | .prev => if m.page = 0 then none else some (m.page - 1)

/-- What the operation should do: return the whole page that is due, or tell that there is none. -/
def Right (node : Node V) (m : Mark) (op : Op) (out : Answer V × Couple V) : Prop :=
  match due node m op with
  | some i => out.1 = .page (node.page i) ∧ pageIndex out.2 = i
  | none => out.1 = .notFound

def marked (node : Node V) (m : Mark) (out : Answer V × Couple V) : Mark :=
  match out.1 with
  | .page _ => ⟨pageIndex out.2, (node.page (pageIndex out.2)).length - 1⟩
  | _ => m

/-- What an operation has to find to do so: a key with one value is not walked back, a cursor that
has been told of the end is not read and not walked back, and before a walk on the index is at the
end of its page if the mark is, while the end flags are up at the end only. -/
def Meets (c : Couple V) (m : Mark) (op : Op) : Prop :=
  if c.node.isSingle then op ≠ .prev
  else
    match op with
    | .get => ¬ c.inner.flags.eofHard
    | .prev => ¬ c.inner.flags.eofHard
    | .next =>
        if c.inner.flags.eofHard ∨ c.inner.flags.eofSoft then
          (c.node.page m.page).length ≤ m.item + 1 ∧ c.node.pages.length ≤ m.page + 1
        else
          m.item + 1 < (c.node.page m.page).length ↔
            itemIndex c + 1 < (c.node.page m.page).length

/-! ## 2. The invariant -/

/-- A cursor among several duplicates. -/
structure Stands (c : Couple V) : Prop where
  multi : c.node.isSingle = false
  outer : c.flags = clear
  path : ∃ top rest, c.inner.stack = top :: rest ∧
    Path c.node.tree.root c.node.tree.height 0 (top :: rest) ∧ top.ki < top.page.numkeys
  afterDelete : c.inner.flags.afterDelete = false
  hollow : c.inner.flags.hollow = false

/-- A cursor at the only value of a key. -/
structure Alone (c : Couple V) (m : Mark) : Prop where
  single : ∃ data, c.node = .single data
  outer : c.flags = clear ∨ c.flags = { clear with eofSoft := true }
  inner : c.inner = ⟨[], poorMark⟩
  mark : m = ⟨0, 0⟩

def Inv (c : Couple V) (m : Mark) : Prop := (Stands c ∧ m.page = pageIndex c) ∨ Alone c m

section Position

variable {c : Couple V} {m : Mark} {node : Node V} {top : Frame V V} {rest : List (Frame V V)}

theorem path_pages (h : Path node.tree.root node.tree.height 0 (top :: rest)) :
    node.page (side false (top :: rest)).length = top.page.items ∧
      node.pages.length =
        (side false (top :: rest)).length + 1 + (side true (top :: rest)).length := by
  have hheight : rest.length = node.tree.height := by
    have := h.length
    rw [List.length_cons] at this
    omega
  have hlevel := h.level
  rw [hheight] at hlevel
  unfold Node.page Node.pages
  rw [hlevel]
  constructor
  · rw [List.map_append, List.map_cons, List.getD_eq_getElem?_getD, ← List.length_reverse,
      ← List.length_map (f := Tree.items), List.getElem?_append_right (Nat.le_refl _), Nat.sub_self]
    rfl
  · rw [List.length_map, List.length_append, List.length_reverse, List.length_cons]
    omega

theorem numkeys_items (h : Path node.tree.root node.tree.height 0 (top :: rest)) :
    top.page.numkeys = top.page.items.length := by
  rw [h.uniform.leaf.1]
  rfl

/-- What a stack tells about the pages of the node. -/
theorem Stands.pages (h : Stands c) : ∃ top rest, c.inner.stack = top :: rest ∧
    Path c.node.tree.root c.node.tree.height 0 (top :: rest) ∧ top.ki < top.page.numkeys ∧
    top.page.items = c.node.page (pageIndex c) ∧
    top.page.numkeys = (c.node.page (pageIndex c)).length ∧
    c.node.pages.length = pageIndex c + 1 + (side true (top :: rest)).length ∧
    itemIndex c = top.ki := by
  obtain ⟨top, rest, hstack, hpath, hki⟩ := h.path
  obtain ⟨hpage, hlen⟩ := path_pages hpath
  have hindex : pageIndex c = (side false (top :: rest)).length := by
    unfold pageIndex
    rw [hstack]
  rw [hindex, hpage, hlen]
  refine ⟨top, rest, hstack, hpath, hki, rfl, numkeys_items hpath, rfl, ?_⟩
  unfold itemIndex
  rw [hstack]

/-! ## 3. One operation -/

theorem fetchMultiple_spec (h : Stands c) :
    (fetchMultiple c).1 = .page (c.node.page (pageIndex c)) ∧
      pageIndex (fetchMultiple c).2 = pageIndex c ∧ Stands (fetchMultiple c).2 ∧
      (fetchMultiple c).2.node = c.node ∧
      (fetchMultiple c).2.inner.flags = c.inner.flags ∧
      itemIndex (fetchMultiple c).2 + 1 = (c.node.page (pageIndex c)).length := by
  obtain ⟨top, rest, hstack, hpath, hki, hitems, hkeys, -, -⟩ := h.pages
  have hset : setTop c.inner (top.page.numkeys - 1) =
      ⟨{ top with ki := top.page.numkeys - 1 } :: rest, c.inner.flags⟩ := by
    unfold setTop
    rw [hstack]
  have hfetch : fetchMultiple c = (.page top.page.items,
      { c with inner := ⟨{ top with ki := top.page.numkeys - 1 } :: rest, c.inner.flags⟩ }) := by
    unfold fetchMultiple
    rw [hstack]
    simp only
    rw [hset]
  have hindex : pageIndex { c with
      inner := ⟨{ top with ki := top.page.numkeys - 1 } :: rest, c.inner.flags⟩ } =
        pageIndex c := by
    unfold pageIndex
    rw [hstack, side_setKi]
  rw [hfetch]
  refine ⟨by rw [hitems], hindex, ⟨h.multi, h.outer, ⟨_, rest, rfl, hpath.setKi _, ?_⟩,
    h.afterDelete, h.hollow⟩, rfl, rfl, ?_⟩
  · show top.page.numkeys - 1 < top.page.numkeys
    omega
  · show top.page.numkeys - 1 + 1 = _
    omega

theorem innerFilled_iff (h : Stands c) : innerFilled c = true ↔ ¬ c.inner.flags.eofHard = true := by
  unfold innerFilled isFilled
  rw [h.hollow]
  simp

theorem innerPointed_of (h : Stands c) : innerPointed c = true := by
  obtain ⟨top, rest, hstack, -⟩ := h.path
  unfold innerPointed
  rw [hstack]
  rfl

theorem outer_filled (h : Stands c) : isFilled c.flags = true := by
  rw [h.outer]
  rfl

-- the mark after a page has been fetched
theorem fetched_inv {out : Answer V × Couple V} (h : Stands c) (hout : out = fetchMultiple c)
    (m : Mark) : Inv out.2 (marked c.node m out) := by
  obtain ⟨hpage, hindex, hstands, -⟩ := fetchMultiple_spec h
  rw [hout]
  refine Or.inl ⟨hstands, ?_⟩
  unfold marked
  rw [hpage]

theorem get_spec (h : Stands c) (hm : m.page = pageIndex c) :
    (Right c.node m .get (getMultiple c) ↔ Meets c m .get) ∧
      Inv (getMultiple c).2 (marked c.node m (getMultiple c)) := by
  have hmeets : Meets c m .get ↔ ¬ c.inner.flags.eofHard = true := by
    unfold Meets
    rw [h.multi]
    exact Iff.rfl
  rw [hmeets]
  by_cases hhard : c.inner.flags.eofHard = true
  · have hout : getMultiple c = (.enodata, c) := by
      unfold getMultiple
      rw [if_neg (not_not.2 (outer_filled h)), if_pos (fun hf => (innerFilled_iff h).1 hf hhard),
        if_pos (innerPointed_of h)]
    rw [hout]
    exact ⟨⟨fun hr => absurd hr.1 (by simp), fun hn => absurd hhard hn⟩, Or.inl ⟨h, hm⟩⟩
  · have hout : getMultiple c = fetchMultiple c := by
      unfold getMultiple
      rw [if_neg (not_not.2 (outer_filled h)), if_neg (not_not.2 ((innerFilled_iff h).2 hhard))]
    obtain ⟨hpage, hindex, -⟩ := fetchMultiple_spec h
    rw [hout]
    refine ⟨⟨fun _ => hhard, fun _ => ?_⟩, fetched_inv h rfl m⟩
    show (fetchMultiple c).1 = .page (c.node.page m.page) ∧ _ = m.page
    rw [hm]
    exact ⟨hpage, hindex⟩

theorem edge_lt {right : Bool} {t : Tree V V} (h : 0 < t.numkeys) :
    edge right t < t.numkeys := by
  unfold edge
  split_ifs
  · exact h
  · omega

/-- A step aside from a page that is not the last one on that side. -/
theorem aside_spec (right : Bool) (h : Stands c) (hstack : c.inner.stack = top :: rest)
    (hpath : Path c.node.tree.root c.node.tree.height 0 (top :: rest)) :
    match side right (top :: rest) with
    | [] => stepAside right c.inner.stack = none
    | _ :: _ => ∃ stack', stepAside right c.inner.stack = some stack' ∧
        ∀ flags : Flags, flags.afterDelete = false → flags.hollow = false →
          Stands { c with inner := ⟨stack', flags⟩ } ∧
          pageIndex { c with inner := ⟨stack', flags⟩ } =
            if right then pageIndex c + 1 else pageIndex c - 1 := by
  have hspec := stepAside_spec right hpath
  rw [hstack]
  cases hside : side right (top :: rest) with
  | nil =>
    rw [hside] at hspec
    exact hspec
  | cons x beyond =>
    rw [hside] at hspec
    obtain ⟨rest', hrun, hpath', hbeyond, hback⟩ := hspec
    refine ⟨_, hrun, fun flags hdel hhollow => ⟨⟨h.multi, h.outer, ⟨_, rest', rfl, hpath',
      edge_lt hpath'.uniform.numkeys_pos⟩, hdel, hhollow⟩, ?_⟩⟩
    unfold pageIndex
    rw [hstack]
    cases right with
    | true =>
      rw [if_pos rfl]
      exact congrArg List.length hback
    | false =>
      rw [if_neg Bool.false_ne_true, hside]
      exact congrArg List.length hbeyond

theorem setTop_stands (h : Stands c) (hstack : c.inner.stack = top :: rest)
    (hpath : Path c.node.tree.root c.node.tree.height 0 (top :: rest)) {ki : Nat}
    (hki : ki < top.page.numkeys) {flags : Flags} (hdel : flags.afterDelete = false)
    (hhollow : flags.hollow = false) :
    Stands { c with inner := { setTop c.inner ki with flags := flags } } ∧
      pageIndex { c with inner := { setTop c.inner ki with flags := flags } } = pageIndex c := by
  unfold setTop
  rw [hstack]
  refine ⟨⟨h.multi, h.outer, ⟨_, rest, rfl, hpath.setKi ki, hki⟩, hdel, hhollow⟩, ?_⟩
  unfold pageIndex
  rw [hstack]
  simp only
  rw [side_setKi]

theorem prev_spec (h : Stands c) (hm : m.page = pageIndex c) :
    (Right c.node m .prev (prevMultiple c) ↔ Meets c m .prev) ∧
      Inv (prevMultiple c).2 (marked c.node m (prevMultiple c)) := by
  have hmeets : Meets c m .prev ↔ ¬ c.inner.flags.eofHard = true := by
    unfold Meets
    rw [h.multi]
    exact Iff.rfl
  rw [hmeets]
  by_cases hhard : c.inner.flags.eofHard = true
  · have hout : prevMultiple c = (.enodata, c) := by
      unfold prevMultiple
      rw [if_pos (Or.inr fun hf => (innerFilled_iff h).1 hf hhard)]
    rw [hout]
    refine ⟨⟨fun hr => ?_, fun hn => absurd hhard hn⟩, Or.inl ⟨h, hm⟩⟩
    unfold Right at hr
    cases hdue : due c.node m .prev with
    | none =>
      rw [hdue] at hr
      cases hr
    | some i =>
      rw [hdue] at hr
      cases hr.1
  · obtain ⟨top, rest, hstack, hpath, hki, -⟩ := h.pages
    have hgo : ¬ (¬ isFilled c.flags = true ∨ ¬ innerFilled c = true) := by
      rw [outer_filled h, (innerFilled_iff h).2 hhard]
      simp
    have haside := aside_spec false h hstack hpath
    have hindex : pageIndex c = (side false (top :: rest)).length := by
      unfold pageIndex
      rw [hstack]
    cases hside : side false (top :: rest) with
    | nil =>
      rw [hside] at haside hindex
      simp only at haside
      obtain ⟨hstands, hsame⟩ := setTop_stands h hstack hpath hpath.uniform.numkeys_pos
        h.afterDelete h.hollow
      have hflags : { setTop c.inner 0 with flags := c.inner.flags } = setTop c.inner 0 := by
        unfold setTop
        rw [hstack]
      rw [hflags] at hstands hsame
      have hout : prevMultiple c = (.notFound, { c with inner := setTop c.inner 0 }) := by
        unfold prevMultiple cursorSiblingLeft
        rw [if_neg hgo, haside]
        rfl
      have hdue : due c.node m .prev = none := if_pos (hm.trans hindex)
      rw [hout]
      refine ⟨⟨fun _ => hhard, fun _ => ?_⟩, Or.inl ⟨hstands, hm.trans hsame.symm⟩⟩
      unfold Right
      rw [hdue]
    | cons x beyond =>
      rw [hside] at haside hindex
      obtain ⟨stack', hrun, hmoved⟩ := haside
      obtain ⟨hstands, hless⟩ := hmoved c.inner.flags h.afterDelete h.hollow
      rw [if_neg Bool.false_ne_true] at hless
      have hout : prevMultiple c =
          fetchMultiple { c with inner := ⟨stack', c.inner.flags⟩ } := by
        unfold prevMultiple cursorSiblingLeft
        rw [if_neg hgo, hrun]
        rfl
      obtain ⟨hpage, hat, -⟩ := fetchMultiple_spec hstands
      have hdue : due c.node m .prev = some (m.page - 1) := by
        refine if_neg ?_
        rw [hm, hindex, List.length_cons]
        exact Nat.succ_ne_zero _
      rw [hout]
      refine ⟨⟨fun _ => hhard, fun _ => ?_⟩, fetched_inv hstands rfl m⟩
      unfold Right
      rw [hdue, hpage, hat, hless, hm]
      exact ⟨rfl, rfl⟩

theorem outerNextDup_eq (h : Stands c) :
    outerNextDup c = ((innerStep c.node.tree true c.inner).1,
      { c with inner := (innerStep c.node.tree true c.inner).2 }) := by
  unfold outerNextDup
  rw [h.outer, if_pos (by decide), if_pos (innerPointed_of h)]

-- a walk on while the end flags are up
theorem innerStep_eof (h : Stands c)
    (heof : c.inner.flags.eofHard = true ∨ c.inner.flags.eofSoft = true) :
    innerStep c.node.tree true c.inner = (.notFound, c.inner) := by
  obtain ⟨top, rest, hstack, -⟩ := h.path
  have hstate : ¬ (¬ c.inner.flags.afterDelete = true ∧ ¬ c.inner.flags.hollow = true ∧
      ¬ c.inner.flags.eofHard = true ∧ ¬ c.inner.flags.eofSoft = true) := by
    intro hc
    exact heof.elim hc.2.2.1 hc.2.2.2
  unfold innerStep
  rw [hstack]
  simp only
  rw [if_neg hstate, h.hollow, h.afterDelete]
  rfl

theorem innerStep_plain (h : Stands c) (hstack : c.inner.stack = top :: rest)
    (heof : ¬ (c.inner.flags.eofHard = true ∨ c.inner.flags.eofSoft = true)) :
    innerStep c.node.tree true c.inner = innerTurn true c.inner top := by
  unfold innerStep
  rw [hstack]
  simp only
  rw [if_pos]
  rw [h.afterDelete, h.hollow]
  exact ⟨Bool.false_ne_true, Bool.false_ne_true, fun hh => heof (Or.inl hh),
    fun hs => heof (Or.inr hs)⟩

-- what is due after the mark, against the page that comes next from the index
theorem right_next_iff {i : Nat} {out : Answer V × Couple V} (hout : out.1 = .page (node.page i))
    (hi : pageIndex out.2 = i) :
    Right node m .next out ↔ due node m .next = some i := by
  unfold Right
  cases hdue : due node m .next with
  | none =>
    simp only [reduceCtorEq, iff_false]
    rw [hout]
    intro hc
    cases hc
  | some k =>
    simp only [Option.some.injEq]
    constructor
    · intro hr
      exact hr.2.symm.trans hi
    · intro hk
      rw [hk]
      exact ⟨hout, hi⟩

/-- Where a walk on goes from a page when no end flag is up. -/
inductive Onward (c : Couple V) : Prop where
  | same (c' : Couple V) (stands : Stands c') (node_eq : c'.node = c.node)
      (flags : c'.inner.flags = clear) (run : nextMultiple c = fetchMultiple c')
      (at_page : pageIndex c' = pageIndex c)
      (inside : itemIndex c + 1 < (c.node.page (pageIndex c)).length)
  | right (c' : Couple V) (stands : Stands c') (node_eq : c'.node = c.node)
      (flags : c'.inner.flags = clear) (run : nextMultiple c = fetchMultiple c')
      (at_page : pageIndex c' = pageIndex c + 1)
      (last : ¬ itemIndex c + 1 < (c.node.page (pageIndex c)).length)
      (more : pageIndex c + 1 < c.node.pages.length)
  | stop (c' : Couple V) (stands : Stands c') (run : nextMultiple c = (.notFound, c'))
      (at_page : pageIndex c' = pageIndex c)
      (last : ¬ itemIndex c + 1 < (c.node.page (pageIndex c)).length)
      (none : c.node.pages.length = pageIndex c + 1)

theorem onward (h : Stands c)
    (heof : ¬ (c.inner.flags.eofHard = true ∨ c.inner.flags.eofSoft = true)) : Onward c := by
  obtain ⟨top, rest, hstack, hpath, hki, -, hkeys, hpages, hitem⟩ := h.pages
  have hnext := outerNextDup_eq h
  rw [innerStep_plain h hstack heof] at hnext
  by_cases hin : top.ki + 1 < top.page.numkeys
  · obtain ⟨hstands, hsame⟩ := setTop_stands h hstack hpath hin
      (show clear.afterDelete = false from rfl) rfl
    refine .same _ hstands rfl rfl ?_ hsame (by omega)
    unfold nextMultiple
    rw [hnext]
    unfold innerTurn
    simp only [if_true]
    rw [if_pos hin]
    rfl
  have haside := aside_spec true h hstack hpath
  cases hside : side true (top :: rest) with
  | nil =>
    rw [hside] at haside hpages
    simp only at haside
    obtain ⟨hstands, hsame⟩ := setTop_stands h hstack hpath
      (show top.page.numkeys - 1 < top.page.numkeys by omega)
      (show { clear with eofSoft := true, eofHard := true }.afterDelete = false from rfl) rfl
    refine .stop _ hstands ?_ hsame (by omega) hpages
    unfold nextMultiple
    rw [hnext]
    unfold innerTurn cursorSiblingRight
    simp only [if_true]
    rw [if_neg hin, haside, hstack]
    rfl
  | cons x beyond =>
    rw [hside] at haside hpages
    rw [List.length_cons] at hpages
    obtain ⟨stack', hrun, hmoved⟩ := haside
    obtain ⟨hstands, hmore⟩ := hmoved clear rfl rfl
    refine .right _ hstands rfl rfl ?_ hmore (by omega) (by omega)
    unfold nextMultiple
    rw [hnext]
    unfold innerTurn cursorSiblingRight
    simp only [if_true]
    rw [if_neg hin, hrun]
    rfl

theorem right_notFound_iff {c' : Couple V} :
    Right node m .next (.notFound, c') ↔ due node m .next = none := by
  unfold Right
  cases due node m .next with
  | none => exact ⟨fun _ => rfl, fun _ => rfl⟩
  | some i => exact ⟨fun hr => absurd hr.1 (by simp), fun hc => by cases hc⟩

theorem next_spec (h : Stands c) (hm : m.page = pageIndex c) :
    (Right c.node m .next (nextMultiple c) ↔ Meets c m .next) ∧
      Inv (nextMultiple c).2 (marked c.node m (nextMultiple c)) := by
  unfold Meets
  rw [h.multi]
  simp only [Bool.false_eq_true, if_false]
  have hdue : due c.node m .next =
      if m.item + 1 < (c.node.page m.page).length then some m.page
      else if m.page + 1 < c.node.pages.length then some (m.page + 1) else none := rfl
  by_cases heof : c.inner.flags.eofHard = true ∨ c.inner.flags.eofSoft = true
  · have hout : nextMultiple c = (.notFound, c) := by
      unfold nextMultiple
      rw [outerNextDup_eq h, innerStep_eof h heof]
      rfl
    rw [hout, right_notFound_iff, if_pos heof, hdue]
    refine ⟨?_, Or.inl ⟨h, hm⟩⟩
    split_ifs with hin hmore
    · exact ⟨fun hc => by (cases hc), fun hc => by omega⟩
    · exact ⟨fun hc => by (cases hc), fun hc => by omega⟩
    · exact ⟨fun _ => by omega, fun _ => rfl⟩
  rw [if_neg heof]
  rw [hm] at hdue ⊢
  cases onward h heof with
  | same c' hstands hnode hflags hout hat hin =>
    obtain ⟨hpage, hindex, -⟩ := fetchMultiple_spec hstands
    rw [hnode, hat] at hpage
    rw [hout, right_next_iff hpage (hindex.trans hat), hdue]
    refine ⟨?_, hnode ▸ fetched_inv hstands rfl m⟩
    split_ifs with hitems hmore
    · exact ⟨fun _ => iff_of_true hitems hin, fun _ => rfl⟩
    · exact ⟨fun hc => absurd (Option.some.inj hc) (by omega), fun hc => absurd (hc.2 hin) hitems⟩
    · exact ⟨fun hc => by (cases hc), fun hc => absurd (hc.2 hin) hitems⟩
  | right c' hstands hnode hflags hout hat hlast hmore =>
    obtain ⟨hpage, hindex, -⟩ := fetchMultiple_spec hstands
    rw [hnode, hat] at hpage
    rw [hout, right_next_iff hpage (hindex.trans hat), hdue]
    refine ⟨?_, hnode ▸ fetched_inv hstands rfl m⟩
    split_ifs with hitems
    · exact ⟨fun hc => absurd (Option.some.inj hc) (by omega),
        fun hc => absurd (hc.1 hitems) hlast⟩
    · exact ⟨fun _ => iff_of_false hitems hlast, fun _ => rfl⟩
  | stop c' hstands hout hat hlast hnone =>
    rw [hout, right_notFound_iff, hdue]
    refine ⟨?_, Or.inl ⟨hstands, hm.trans hat.symm⟩⟩
    split_ifs with hitems hmore
    · exact ⟨fun hc => by (cases hc), fun hc => absurd (hc.1 hitems) hlast⟩
    · omega
    · exact ⟨fun _ => iff_of_false hitems hlast, fun _ => rfl⟩

theorem alone_pages {data : V} : (Node.single data).pages = [[data]] := rfl

/-- The only value of a key. -/
theorem alone_spec (h : Alone c m) (op : Op) :
    (Right c.node m op (step c op) ↔ Meets c m op) ∧
      Inv (step c op).2 (marked c.node m (step c op)) := by
  obtain ⟨data, hnode⟩ := h.single
  have hindex : pageIndex c = 0 := by
    unfold pageIndex
    rw [h.inner]
    rfl
  have hmeets : Meets c m op ↔ op ≠ .prev := by
    unfold Meets
    rw [hnode]
    exact Iff.rfl
  have hfilled : isFilled c.flags = true := by
    cases h.outer with
    | inl hc =>
      rw [hc]
      rfl
    | inr hc =>
      rw [hc]
      rfl
  have hempty : innerFilled c = false := by
    unfold innerFilled
    rw [h.inner]
    rfl
  have hunset : innerPointed c = false := by
    unfold innerPointed
    rw [h.inner]
    rfl
  rw [hmeets]
  cases op with
  | get =>
    have hout : step c .get = (.page [data], c) := by
      show getMultiple c = _
      unfold getMultiple
      rw [hfilled, hempty, hunset, hnode]
      rfl
    have hmark : marked c.node m (step c .get) = m := by
      rw [hout, h.mark]
      unfold marked
      simp only
      rw [hindex, hnode]
      rfl
    rw [hmark, hout]
    refine ⟨⟨fun _ => by decide, fun _ => ?_⟩, Or.inr h⟩
    rw [hnode, h.mark]
    exact ⟨rfl, hindex⟩
  | next =>
    have hout : step c .next = (.notFound, c) := by
      show nextMultiple c = _
      have hnext : outerNextDup c = (.notFound, c) := by
        unfold outerNextDup
        rw [hunset]
        cases h.outer with
        | inl hc =>
          rw [hc]
          rfl
        | inr hc =>
          rw [hc]
          rfl
      unfold nextMultiple
      rw [hnext]
      rfl
    rw [hout]
    refine ⟨⟨fun _ => by decide, fun _ => ?_⟩, Or.inr h⟩
    rw [hnode, h.mark]
    exact rfl
  | prev =>
    have hout : step c .prev = (.enodata, c) := by
      show prevMultiple c = _
      unfold prevMultiple
      rw [if_pos (Or.inr (by rw [hempty]; exact Bool.false_ne_true))]
    rw [hout]
    refine ⟨⟨fun hr => ?_, fun hne => absurd rfl hne⟩, Or.inr h⟩
    rw [h.mark] at hr
    exact absurd (show (Answer.enodata : Answer V) = .notFound from hr) (by simp)

/-- One operation: it does what it should exactly where it finds what it needs, and whatever it
does the cursor stays at a page of the key. -/
theorem step_spec (h : Inv c m) (op : Op) :
    (Right c.node m op (step c op) ↔ Meets c m op) ∧
      Inv (step c op).2 (marked c.node m (step c op)) := by
  cases h with
  | inl hs =>
    cases op with
    | get => exact get_spec hs.1 hs.2
    | next => exact next_spec hs.1 hs.2
    | prev => exact prev_spec hs.1 hs.2
  | inr ha => exact alone_spec ha op

end Position

/-! ## 4. Runs -/

section Runs

variable {c : Couple V} {m : Mark} {node : Node V}

/-- Every operation of a run does what it should. -/
def AllRight (node : Node V) : List Op → Couple V → Mark → Prop
  | [], _, _ => True
  | op :: ops, c, m =>
      Right node m op (step c op) ∧ AllRight node ops (step c op).2 (marked node m (step c op))

/-- Every operation of a run finds what it needs. -/
def AllMeet (node : Node V) : List Op → Couple V → Mark → Prop
  | [], _, _ => True
  | op :: ops, c, m =>
      Meets c m op ∧ AllMeet node ops (step c op).2 (marked node m (step c op))

theorem fetchMultiple_node (c : Couple V) : (fetchMultiple c).2.node = c.node := by
  unfold fetchMultiple
  cases c.inner.stack with
  | nil => rfl
  | cons top rest => rfl

theorem outerNextDup_node (c : Couple V) : (outerNextDup c).2.node = c.node := by
  unfold outerNextDup
  split_ifs <;> rfl

theorem step_node (c : Couple V) (op : Op) : (step c op).2.node = c.node := by
  cases op with
  | get =>
    show (getMultiple c).2.node = c.node
    unfold getMultiple
    split_ifs
    · exact fetchMultiple_node c
    · rfl
    · rfl
    · rfl
  | next =>
    show (nextMultiple c).2.node = c.node
    unfold nextMultiple
    simp only
    split_ifs
    · rw [fetchMultiple_node]
      exact outerNextDup_node c
    · exact outerNextDup_node c
  | prev =>
    show (prevMultiple c).2.node = c.node
    unfold prevMultiple
    simp only
    split_ifs
    · rfl
    · exact fetchMultiple_node _
    · rfl

theorem run_iff (ops : List Op) (h : Inv c m) :
    AllRight c.node ops c m ↔ AllMeet c.node ops c m := by
  induction ops generalizing c m with
  | nil => exact Iff.rfl
  | cons op ops ih =>
    obtain ⟨hright, hinv⟩ := step_spec h op
    have hrec := ih hinv
    rw [step_node] at hrec
    exact and_congr hright hrec

/-- The mark of a cursor that has just been placed. -/
def placedMark (c : Couple V) : Mark := ⟨pageIndex c, itemIndex c⟩

/-- `inner_first` and `inner_last` in a nested tree -/
theorem innerBrim_spec {tree : Nested V} (hw : tree.root.Uniform tree.height) (first : Bool) :
    ∃ top rest, (innerBrim tree first (dupsortSetup (.nested tree))).2 =
        ⟨top :: rest, { clear with eofSoft := !first }⟩ ∧
      Path tree.root tree.height 0 (top :: rest) ∧ top.ki = edge first top.page ∧
      side (!first) (top :: rest) = [] := by
  obtain ⟨leaf, rest', hrun, hpath, hside⟩ := deepen_spec first (.root (edge first tree.root) hw)
    (Nat.le_refl tree.height) rfl
  refine ⟨⟨leaf, edge first leaf⟩, rest', ?_, hpath, rfl, hside rfl⟩
  unfold innerBrim treeSearch dupsortSetup
  simp only [List.length_nil, ne_eq, Nat.zero_ne_one, not_false_eq_true, if_true]
  rw [hrun]
  rfl

-- an inner cursor with flags as `MDBX_FIRST`, `MDBX_LAST` and the seeks leave them
theorem stands_of_path {flags : Flags} {top : Frame V V} {rest : List (Frame V V)}
    (hmulti : node.isSingle = false)
    (hpath : Path node.tree.root node.tree.height 0 (top :: rest))
    (hki : top.ki < top.page.numkeys) (hdel : flags.afterDelete = false)
    (hhollow : flags.hollow = false) : Stands ⟨node, clear, ⟨top :: rest, flags⟩⟩ :=
  ⟨hmulti, rfl, ⟨top, rest, rfl, hpath, hki⟩, hdel, hhollow⟩

theorem bring_inv (hw : node.Wf) (first eof : Bool) :
    Inv (bring first eof node) (placedMark (bring first eof node)) ∧
      (bring first eof node).node = node := by
  cases node with
  | single data =>
    refine ⟨Or.inr ⟨⟨data, rfl⟩, ?_, rfl, rfl⟩, rfl⟩
    cases eof with
    | true => exact Or.inr rfl
    | false => exact Or.inl rfl
  | subPage values =>
    have hpos : 0 < values.length := hw.numkeys_pos
    refine ⟨Or.inl ⟨?_, rfl⟩, ?_⟩
    · cases first with
      | true => exact stands_of_path rfl (.root 0 hw) hpos rfl rfl
      | false =>
        exact stands_of_path rfl (.root (values.length - 1) hw) (Nat.sub_one_lt_of_lt hpos) rfl rfl
    · cases first with
      | true => rfl
      | false => rfl
  | nested tree =>
    obtain ⟨top, rest, hrun, hpath, hki, -⟩ := @innerBrim_spec V tree hw first
    have hbring : bring first eof (.nested tree) =
        ⟨.nested tree, clear, ⟨top :: rest, { clear with eofSoft := !first }⟩⟩ := by
      unfold bring
      simp only
      rw [hrun]
    rw [hbring]
    refine ⟨Or.inl ⟨stands_of_path rfl hpath ?_ rfl rfl, rfl⟩, rfl⟩
    rw [hki]
    exact edge_lt hpath.uniform.numkeys_pos

theorem placed_inv (hw : node.Wf) (h : Placed node c) :
    Inv c (placedMark c) ∧ c.node = node := by
  cases h with
  | first => exact bring_inv hw true false
  | last => exact bring_inv hw false true
  | seekKey => exact bring_inv hw true false
  | seekBoth top rest multi path at_ki =>
    exact ⟨Or.inl ⟨stands_of_path multi path at_ki rfl rfl, rfl⟩, rfl⟩

/-! ## 5. All the duplicates -/

/-- The answers of a run. -/
def answers : List Op → Couple V → List (Answer V)
  | [], _ => []
  | op :: ops, c => (step c op).1 :: answers ops (step c op).2

/-- A cursor that has just fetched a page. -/
structure Fetched (node : Node V) (i : Nat) (c : Couple V) : Prop where
  stands : Stands c
  node_eq : c.node = node
  at_page : pageIndex c = i
  item : itemIndex c + 1 = (node.page i).length
  soft : c.inner.flags.eofSoft = false
  hard : c.inner.flags.eofHard = false

theorem fetched_of (h : Stands c) (hflags : c.inner.flags = clear) :
    Fetched c.node (pageIndex c) (fetchMultiple c).2 := by
  obtain ⟨-, hindex, hstands, hnode, hkept, hitem⟩ := fetchMultiple_spec h
  refine ⟨hstands, hnode, hindex, hitem, ?_, ?_⟩
  · rw [hkept, hflags]
    rfl
  · rw [hkept, hflags]
    rfl

-- the pages after the one that has been fetched, and then the end
theorem answers_next {i k : Nat} (h : Fetched node i c) (hk : i + 1 + k = node.pages.length) :
    answers (List.replicate (k + 1) .next) c =
      (node.pages.drop (i + 1)).map .page ++ [.notFound] := by
  induction k generalizing c i with
  | zero =>
    have hitem := h.item
    rw [← h.node_eq] at hitem hk ⊢
    rw [← h.at_page] at hitem hk ⊢
    cases onward h.stands (by rw [h.hard, h.soft]; simp) with
    | same c' _ _ _ _ _ hin => omega
    | right c' _ _ _ _ _ _ hmore => omega
    | stop c' _ hout =>
      show [(nextMultiple c).1] = _
      rw [hout, List.drop_of_length_le (by omega)]
      rfl
  | succ k ih =>
    have hitem := h.item
    rw [← h.node_eq] at hitem hk ih ⊢
    rw [← h.at_page] at hitem hk ⊢
    cases onward h.stands (by rw [h.hard, h.soft]; simp) with
    | same c' _ _ _ _ _ hin => omega
    | stop c' _ _ _ _ hnone => omega
    | right c' hstands hnode' hflags hout hat _ hmore =>
      have hnext := fetched_of hstands hflags
      have hpage := (fetchMultiple_spec hstands).1
      rw [hnode', hat] at hnext hpage
      have hrec := ih hnext (by omega)
      show (nextMultiple c).1 :: answers (List.replicate (k + 1) .next) (nextMultiple c).2 = _
      rw [hout, hpage, hrec, List.drop_eq_getElem_cons hmore, List.map_cons, List.cons_append]
      unfold Node.page
      rw [List.getD_eq_getElem?_getD, List.getElem?_eq_getElem hmore]
      rfl

theorem pages_length_pos (hw : node.Wf) : 0 < node.pages.length := by
  obtain ⟨hinv, hnode⟩ := bring_inv hw true false
  cases hinv with
  | inl hs =>
    obtain ⟨top, rest, -, -, -, -, -, hpages, -⟩ := hs.1.pages
    rw [hnode] at hpages
    omega
  | inr ha =>
    obtain ⟨data, hdata⟩ := ha.single
    rw [← hnode, hdata]
    exact Nat.one_pos

-- placed at the first duplicate, with no end flag up
theorem bring_first (hw : node.Wf) (hmulti : node.isSingle = false) :
    Stands (bring true false node) ∧ (bring true false node).node = node ∧
      pageIndex (bring true false node) = 0 ∧ (bring true false node).inner.flags = clear := by
  cases node with
  | single data => cases hmulti
  | subPage values => exact ⟨stands_of_path rfl (.root 0 hw) hw.numkeys_pos rfl rfl, rfl, rfl, rfl⟩
  | nested tree =>
    obtain ⟨top, rest, hrun, hpath, hki, hside⟩ := @innerBrim_spec V tree hw true
    have hbring : bring true false (.nested tree) =
        ⟨.nested tree, clear, ⟨top :: rest, clear⟩⟩ := by
      unfold bring
      simp only
      rw [hrun]
      rfl
    rw [hbring]
    refine ⟨stands_of_path rfl hpath ?_ rfl rfl, rfl, congrArg List.length hside, rfl⟩
    rw [hki]
    exact edge_lt hpath.uniform.numkeys_pos

/-- `MDBX_GET_MULTIPLE` after `MDBX_FIRST`, then `MDBX_NEXT_MULTIPLE` until `MDBX_NOTFOUND`. -/
theorem answers_all (hw : node.Wf) :
    answers (.get :: List.replicate node.pages.length .next) (bring true false node) =
      node.pages.map .page ++ [.notFound] := by
  by_cases hmulti : node.isSingle = false
  · obtain ⟨hstands, hnode, hfirst, hflags⟩ := bring_first hw hmulti
    have hpos := pages_length_pos hw
    have hget : step (bring true false node) .get = fetchMultiple (bring true false node) := by
      show getMultiple _ = _
      unfold getMultiple
      rw [if_neg (not_not.2 (outer_filled hstands)), if_neg (not_not.2 ((innerFilled_iff hstands).2
        (by rw [hflags]; exact Bool.false_ne_true)))]
    have hfetched := fetched_of hstands hflags
    have hpage := (fetchMultiple_spec hstands).1
    rw [hnode, hfirst] at hfetched hpage
    have hrest := answers_next (k := node.pages.length - 1) hfetched (by omega)
    rw [Nat.sub_add_cancel hpos] at hrest
    show (step _ .get).1 :: answers _ (step _ .get).2 = _
    rw [hget, hpage, hrest]
    cases hp : node.pages with
    | nil => exact absurd hpos (by rw [hp]; exact Nat.lt_irrefl 0)
    | cons first others =>
      unfold Node.page
      rw [hp]
      rfl
  · cases node with
    | single data => rfl
    | subPage values => exact absurd rfl hmulti
    | nested tree => exact absurd rfl hmulti

/-- A run of multi-value fetches returns the pages that are due as long as each of them finds what
it needs; from the first duplicate on `MDBX_NEXT_MULTIPLE` returns all of them. -/
theorem fetches_right_iff (node : Node V) (hw : node.Wf) :
    (∀ c, Placed node c → ∀ ops,
      AllRight node ops c (placedMark c) ↔ AllMeet node ops c (placedMark c)) ∧
    answers (.get :: List.replicate node.pages.length .next) (bring true false node) =
      node.pages.map .page ++ [.notFound] := by
  refine ⟨fun c hc ops => ?_, answers_all hw⟩
  obtain ⟨hinv, hnode⟩ := placed_inv hw hc
  have hrun := run_iff ops hinv
  rw [hnode] at hrun
  exact hrun

/-- Two leaves, of the values 1, 2 and of 3. -/
def sampleTree : Nested Nat := ⟨1, .branch [(0, .leaf [1, 2]), (3, .leaf [3])]⟩

theorem sampleTree_wf : (Node.nested sampleTree).Wf :=
  ⟨_, rfl, by decide, by
    intro n hn
    have hcase : n = (0, .leaf [1, 2]) ∨ n = (3, .leaf [3]) := by simpa using hn
    cases hcase with
    | inl h => exact h ▸ ⟨_, rfl, by decide⟩
    | inr h => exact h ▸ ⟨_, rfl, by decide⟩⟩

theorem fetches_right_iff_sample :
    (∀ c, Placed (.nested sampleTree) c → ∀ ops,
      AllRight (.nested sampleTree) ops c (placedMark c) ↔
        AllMeet (.nested sampleTree) ops c (placedMark c)) ∧
    answers (.get :: List.replicate 2 .next) (bring true false (.nested sampleTree)) =
      [.page [1, 2], .page [3], .notFound] :=
  fetches_right_iff (.nested sampleTree) sampleTree_wf

/-- `MDBX_LAST`, `MDBX_PREV_MULTIPLE`, and then `MDBX_NEXT_MULTIPLE` does not find the page it came
from. -/
theorem next_after_last_stops :
    ¬ ∀ (node : Node Nat), node.Wf → ∀ c, Placed node c → ∀ ops,
      AllRight node ops c (placedMark c) := by
  intro hall
  have hright := hall (.nested sampleTree) sampleTree_wf _ .last [.prev, .next]
  have hnext := hright.2.1
  exact absurd hnext.1 (by decide)

end Runs

end Mdbx.Dups
