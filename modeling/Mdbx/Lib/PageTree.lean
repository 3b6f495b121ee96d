import Mathlib.Data.List.Basic
import Mathlib.Tactic.Set

/-!
# Lib.PageTree — trees of pages and the stacks that point into them

A stack lists the pages from the one it stands on up to the root, each with an index into it.  The
pages of the same level to the right and to the left of a stack are listed from the nearest one on;
a step aside moves the first of them over.
-/

namespace Mdbx.PageTree

/-! ## 1. Trees -/

/-- A page: the items of a leaf, or the nodes of a branch with the keys they are under. -/
inductive Tree (κ α : Type) where
  | leaf (items : List α)
  | branch (nodes : List (κ × Tree κ α))

variable {κ α : Type}

namespace Tree

def children : Tree κ α → List (Tree κ α)
  | leaf _ => []
  | branch nodes => nodes.map Prod.snd

def numkeys : Tree κ α → Nat
  | leaf items => items.length
  | branch nodes => nodes.length

def items : Tree κ α → List α
  | leaf items => items
  | branch _ => []

/-- All leaves are `height` levels below, and no page is empty. -/
def Uniform : Nat → Tree κ α → Prop
  | 0, t => ∃ items, t = leaf items ∧ items ≠ []
  | height + 1, t => ∃ nodes, t = branch nodes ∧ nodes ≠ [] ∧ ∀ node ∈ nodes, Uniform height node.2

/-- The pages `depth` levels below, from left to right. -/
def level : Nat → Tree κ α → List (Tree κ α)
  | 0, t => [t]
  | depth + 1, t => t.children.flatMap (level depth)

theorem Uniform.children {height : Nat} {t : Tree κ α} (h : Uniform (height + 1) t) :
    t.children ≠ [] ∧ ∀ c ∈ t.children, Uniform height c := by
  obtain ⟨nodes, rfl, hne, hall⟩ := h
  refine ⟨fun hn => hne (List.map_eq_nil_iff.1 hn), fun c hc => ?_⟩
  obtain ⟨node, hmem, rfl⟩ := List.mem_map.1 hc
  exact hall node hmem

theorem Uniform.leaf {t : Tree κ α} (h : Uniform 0 t) : t = .leaf t.items ∧ t.items ≠ [] := by
  obtain ⟨items, rfl, hne⟩ := h
  exact ⟨rfl, hne⟩

theorem Uniform.numkeys_pos {height : Nat} {t : Tree κ α} (h : Uniform height t) :
    0 < t.numkeys := by
  cases height with
  | zero =>
    obtain ⟨items, rfl, hne⟩ := h
    exact List.length_pos_iff.2 hne
  | succ height =>
    obtain ⟨nodes, rfl, hne, -⟩ := h
    exact List.length_pos_iff.2 hne

theorem length_children_branch (nodes : List (κ × Tree κ α)) :
    (branch nodes).children.length = (branch nodes).numkeys := List.length_map _

theorem Uniform.length_children {height : Nat} {t : Tree κ α} (h : Uniform (height + 1) t) :
    t.children.length = t.numkeys := by
  obtain ⟨nodes, rfl, -, -⟩ := h
  exact length_children_branch nodes

-- one level further down
theorem level_succ (depth : Nat) (t : Tree κ α) :
    level (depth + 1) t = (level depth t).flatMap Tree.children := by
  induction depth generalizing t with
  | zero =>
    show t.children.flatMap (fun c => [c]) = [t].flatMap Tree.children
    rw [List.flatMap_singleton', List.flatMap_singleton]
  | succ depth ih =>
    show t.children.flatMap (level (depth + 1)) =
      (t.children.flatMap (level depth)).flatMap Tree.children
    rw [List.flatMap_assoc]
    exact List.flatMap_congr fun c _ => ih c

end Tree

/-! ## 2. Stacks -/

structure Frame (κ α : Type) where
  page : Tree κ α
  ki : Nat

/-- A stack from a page of height `n` up to the root. -/
inductive Path (root : Tree κ α) (height : Nat) : Nat → List (Frame κ α) → Prop where
  | root (ki : Nat) (uniform : root.Uniform height) : Path root height height [⟨root, ki⟩]
  | child {n : Nat} {parent : Frame κ α} {rest : List (Frame κ α)} (c : Tree κ α) (ki : Nat)
      (up : Path root height (n + 1) (parent :: rest))
      (at_ki : parent.page.children[parent.ki]? = some c) :
      Path root height n (⟨c, ki⟩ :: parent :: rest)

/-- The index at the near edge of a page that is entered while going to the right or to the left. -/
def edge (right : Bool) (page : Tree κ α) : Nat := if right then 0 else page.numkeys - 1

/-- The children of a page in the order of the walk. -/
def inOrder (right : Bool) (page : Tree κ α) : List (Tree κ α) :=
  if right then page.children else page.children.reverse

/-- The siblings beside the index of a frame, the nearest first. -/
def near (right : Bool) (f : Frame κ α) : List (Tree κ α) :=
  if right then f.page.children.drop (f.ki + 1) else (f.page.children.take f.ki).reverse

/-- The pages of the same level to one side, the nearest first. -/
def side (right : Bool) : List (Frame κ α) → List (Tree κ α)
  | _ :: parent :: rest => near right parent ++ (side right (parent :: rest)).flatMap (inOrder right)
  | _ => []

/-- A step to the neighbouring page; `none` where there is no such page. -/
def stepAside (right : Bool) : List (Frame κ α) → Option (List (Frame κ α))
  | _ :: parent :: rest =>
      let moved :=
        if (if right then parent.ki + 1 ≥ parent.page.numkeys else parent.ki = 0) then
          stepAside right (parent :: rest)
        else some ({ parent with ki := if right then parent.ki + 1 else parent.ki - 1 } :: rest)
      match moved with
      | some (parent' :: rest') =>
          (parent'.page.children[parent'.ki]?).map fun c => ⟨c, edge right c⟩ :: parent' :: rest'
      | _ => none
  | _ => none

/-- From the top page down along the edge to a leaf, `fuel` levels at most. -/
def deepen (first : Bool) : Nat → List (Frame κ α) → List (Frame κ α)
  | fuel + 1, top :: rest =>
      match top.page.children[top.ki]? with
      | none => top :: rest
      | some c => deepen first fuel (⟨c, edge first c⟩ :: top :: rest)
  | _, st => st

section Paths

variable {root : Tree κ α} {height n : Nat} {st rest : List (Frame κ α)} {top parent : Frame κ α}

theorem Path.uniform (h : Path root height n (top :: rest)) : top.page.Uniform n := by
  generalize hs : top :: rest = st at h
  induction h generalizing top rest with
  | root ki uniform =>
    cases hs
    exact uniform
  | child c ki up at_ki ih =>
    cases hs
    exact (ih rfl).children.2 c (List.mem_of_getElem? at_ki)

theorem Path.up (h : Path root height n (top :: parent :: rest)) :
    Path root height (n + 1) (parent :: rest) ∧
      parent.page.children[parent.ki]? = some top.page := by
  cases h with
  | child c ki up at_ki => exact ⟨up, at_ki⟩

theorem Path.length (h : Path root height n st) : st.length + n = height + 1 := by
  induction h with
  | root ki uniform => exact Nat.add_comm 1 height
  | child c ki up at_ki ih =>
    rw [List.length_cons]
    omega

-- the index into the top page is free
theorem Path.setKi (h : Path root height n (top :: rest)) (ki : Nat) :
    Path root height n ({ top with ki := ki } :: rest) := by
  cases h with
  | root _ uniform => exact .root ki uniform
  | child c _ up at_ki => exact .child c ki up at_ki

theorem side_setKi (right : Bool) (top : Frame κ α) (rest : List (Frame κ α)) (ki : Nat) :
    side right ({ top with ki := ki } :: rest) = side right (top :: rest) := by
  cases rest with
  | nil => rfl
  | cons parent rest => rfl

theorem side_child (right : Bool) (top : Frame κ α) (rest : List (Frame κ α)) (c : Frame κ α) :
    side right (c :: top :: rest) = near right top ++ (side right (top :: rest)).flatMap
      (inOrder right) := rfl

theorem mem_inOrder {right : Bool} {t c : Tree κ α} : c ∈ inOrder right t ↔ c ∈ t.children := by
  unfold inOrder
  cases right with
  | true => exact Iff.rfl
  | false => exact List.mem_reverse

/-- All pages beside a stack have the height of its top. -/
theorem Path.side_uniform (h : Path root height n st) (right : Bool) :
    ∀ t ∈ side right st, t.Uniform n := by
  induction h with
  | root ki uniform => exact fun t ht => absurd ht List.not_mem_nil
  | child c ki up at_ki ih =>
    intro t ht
    cases List.mem_append.1 ht with
    | inl hnear =>
      apply up.uniform.children.2
      unfold near at hnear
      cases right with
      | true => exact List.mem_of_mem_drop hnear
      | false => exact List.mem_of_mem_take (List.mem_reverse.1 hnear)
    | inr hfar =>
      obtain ⟨p, hp, hc⟩ := List.mem_flatMap.1 hfar
      exact (ih p hp).children.2 t (mem_inOrder.1 hc)

/-- The level of a stack: what lies to the left, the page itself, what lies to the right. -/
theorem Path.level (h : Path root height n (top :: rest)) :
    Tree.level rest.length root =
      (side false (top :: rest)).reverse ++ top.page :: side true (top :: rest) := by
  induction rest generalizing top n with
  | nil =>
    cases h with
    | root ki uniform => rfl
  | cons parent rest ih =>
    obtain ⟨hup, hat⟩ := h.up
    have hlen : parent.ki < parent.page.children.length := (List.getElem?_eq_some_iff.1 hat).1
    have hsplit : parent.page.children.take parent.ki ++ top.page ::
        parent.page.children.drop (parent.ki + 1) = parent.page.children := by
      rw [← (List.getElem?_eq_some_iff.1 hat).2, List.getElem_cons_drop, List.take_append_drop]
    have hrev : ∀ l : List (Tree κ α),
        (l.flatMap fun t => t.children.reverse).reverse = l.reverse.flatMap Tree.children := by
      intro l
      rw [List.reverse_flatMap]
      exact List.flatMap_congr fun t _ => List.reverse_reverse _
    show Tree.level (rest.length + 1) root = _
    rw [Tree.level_succ, ih hup, List.flatMap_append, List.flatMap_cons, ← hrev]
    nth_rewrite 1 [← hsplit]
    rw [side_child, side_child]
    simp only [near, Bool.false_eq_true, if_false, if_true, List.reverse_append,
      List.reverse_reverse, List.append_assoc, List.cons_append]
    rfl

/-! ## 3. Steps aside -/

theorem take_cons_drop {l : List α} {i : Nat} {x : α} (h : l[i]? = some x) :
    l.take i ++ x :: l.drop (i + 1) = l := by
  obtain ⟨hlt, hx⟩ := List.getElem?_eq_some_iff.1 h
  rw [← hx, List.getElem_cons_drop, List.take_append_drop]

/-- Where a walk on a frame goes next. -/
def nextKi (right : Bool) (f : Frame κ α) : Nat := if right then f.ki + 1 else f.ki - 1

theorem inOrder_eq {f : Frame κ α} {c : Tree κ α} (right : Bool)
    (h : f.page.children[f.ki]? = some c) :
    inOrder (!right) f.page = (near right f).reverse ++ c :: near (!right) f := by
  have hsplit := take_cons_drop h
  unfold inOrder near
  cases right with
  | true =>
    simp only [Bool.not_true, Bool.false_eq_true, if_false, if_true]
    nth_rewrite 1 [← hsplit]
    rw [List.reverse_append, List.reverse_cons, List.append_assoc]
    rfl
  | false =>
    simp only [Bool.not_false, Bool.false_eq_true, if_false, if_true, List.reverse_reverse]
    exact hsplit.symm

theorem near_nil_iff {f : Frame κ α} (right : Bool) (hlt : f.ki < f.page.children.length)
    (hlen : f.page.children.length = f.page.numkeys) :
    near right f = [] ↔ if right then f.ki + 1 ≥ f.page.numkeys else f.ki = 0 := by
  unfold near
  cases right with
  | true =>
    simp only [if_true, List.drop_eq_nil_iff]
    omega
  | false =>
    simp only [Bool.false_eq_true, if_false, List.reverse_eq_nil_iff, List.take_eq_nil_iff]
    constructor
    · intro h
      cases h with
      | inl hz => exact hz
      | inr hnil =>
        rw [hnil] at hlt
        exact absurd hlt (Nat.not_lt_zero _)
    · exact Or.inl

theorem near_cons {f : Frame κ α} {c x : Tree κ α} {tail : List (Tree κ α)} {right : Bool}
    (hat : f.page.children[f.ki]? = some c) (h : near right f = x :: tail) :
    f.page.children[nextKi right f]? = some x ∧
      near right { f with ki := nextKi right f } = tail ∧
      near (!right) { f with ki := nextKi right f } = c :: near (!right) f := by
  unfold near nextKi at *
  cases right with
  | true =>
    simp only [if_true, Bool.not_true, Bool.false_eq_true, if_false] at h ⊢
    have hx : f.page.children[f.ki + 1]? = some x := by
      have := congrArg (fun l => l[0]?) h
      simpa [List.getElem?_drop] using this
    refine ⟨hx, ?_, ?_⟩
    · have := congrArg List.tail h
      simpa [List.tail_drop] using this
    · rw [List.take_add_one, hat, Option.toList_some, List.reverse_append]
      rfl
  | false =>
    simp only [Bool.false_eq_true, if_false, Bool.not_false, if_true] at h ⊢
    have htake : f.page.children.take f.ki = tail.reverse ++ [x] := by
      rw [← List.reverse_reverse (f.page.children.take f.ki), h, List.reverse_cons]
    have hlt : f.ki < f.page.children.length := (List.getElem?_eq_some_iff.1 hat).1
    have hki : f.ki = tail.length + 1 := by
      have := congrArg List.length htake
      rw [List.length_take, List.length_append, List.length_reverse, List.length_singleton] at this
      omega
    have hpred : f.ki - 1 = tail.length := by omega
    have hx : f.page.children[tail.length]? = some x := by
      have hlast : (f.page.children.take f.ki)[tail.length]? = some x := by
        rw [htake, List.getElem?_append_right (Nat.le_of_eq List.length_reverse),
          List.length_reverse, Nat.sub_self]
        rfl
      rwa [List.getElem?_take_of_lt (by omega)] at hlast
    rw [hpred]
    refine ⟨hx, ?_, ?_⟩
    · have hshort := congrArg (List.take tail.length) htake
      rw [List.take_take, Nat.min_eq_left (by omega), List.take_left' List.length_reverse] at hshort
      rw [hshort, List.reverse_reverse]
    · rw [← hki, List.drop_eq_getElem_cons hlt, (List.getElem?_eq_some_iff.1 hat).2]

/-- A page that is entered at its edge. -/
theorem edge_spec {t : Tree κ α} (right : Bool) (h : t.Uniform (n + 1)) :
    ∃ x tail, inOrder right t = x :: tail ∧ t.children[edge right t]? = some x ∧
      near right ⟨t, edge right t⟩ = tail ∧ near (!right) ⟨t, edge right t⟩ = [] := by
  have hne := h.children.1
  have hlen := h.length_children
  unfold inOrder edge near
  cases right with
  | true =>
    simp only [if_true, Bool.not_true, Bool.false_eq_true, if_false]
    cases hc : t.children with
    | nil => exact absurd hc hne
    | cons x tail => exact ⟨x, tail, rfl, rfl, rfl, rfl⟩
  | false =>
    simp only [Bool.false_eq_true, if_false, Bool.not_false, if_true]
    rw [← hlen]
    cases hc : t.children.reverse with
    | nil => exact absurd (List.reverse_eq_nil_iff.1 hc) hne
    | cons x tail =>
      have hcs : t.children = tail.reverse ++ [x] := by
        rw [← List.reverse_reverse t.children, hc, List.reverse_cons]
      have hpred : t.children.length - 1 = tail.reverse.length := by
        rw [hcs, List.length_append, List.length_singleton, Nat.add_sub_cancel]
      refine ⟨x, tail, rfl, ?_, ?_, ?_⟩
      · rw [hpred, hcs, List.getElem?_append_right (Nat.le_refl _), Nat.sub_self]
        rfl
      · rw [hpred, hcs, List.take_left, List.reverse_reverse]
      · rw [List.drop_eq_nil_iff]
        omega

/-- A step aside goes to the nearest page on that side, where there is one, and enters it at its
near edge. -/
theorem stepAside_spec (right : Bool) (h : Path root height n (top :: rest)) :
    match side right (top :: rest) with
    | [] => stepAside right (top :: rest) = none
    | x :: beyond => ∃ rest', stepAside right (top :: rest) = some (⟨x, edge right x⟩ :: rest') ∧
        Path root height n (⟨x, edge right x⟩ :: rest') ∧
        side right (⟨x, edge right x⟩ :: rest') = beyond ∧
        side (!right) (⟨x, edge right x⟩ :: rest') = top.page :: side (!right) (top :: rest) := by
  induction rest generalizing top n with
  | nil => rfl
  | cons parent rest ih =>
    obtain ⟨hup, hat⟩ := h.up
    have hlt : parent.ki < parent.page.children.length := (List.getElem?_eq_some_iff.1 hat).1
    have hedge := near_nil_iff right hlt hup.uniform.length_children
    rw [side_child right]
    unfold stepAside
    simp only
    cases hnear : near right parent with
    | nil =>
      rw [if_pos (hedge.1 hnear), List.nil_append]
      have hrec := ih hup
      cases hside : side right (parent :: rest) with
      | nil =>
        rw [hside] at hrec
        simp only at hrec
        rw [hrec, List.flatMap_nil]
      | cons y beyond =>
        rw [hside] at hrec
        obtain ⟨rest', hrun, hpath, hbeyond, hback⟩ := hrec
        have hy := hup.side_uniform right y (by rw [hside]; exact List.mem_cons_self)
        obtain ⟨x, tail, hin, hx, htail, hnone⟩ := edge_spec right hy
        rw [List.flatMap_cons, hin, hrun]
        simp only [List.cons_append, hx, Option.map_some]
        refine ⟨⟨y, edge right y⟩ :: rest', rfl, .child x _ hpath hx, ?_, ?_⟩
        · rw [side_child, htail, hbeyond]
        · rw [side_child, side_child, hnone, hback, List.flatMap_cons, inOrder_eq right hat, hnear]
          rfl
    | cons x tail =>
      have hgo : ¬ if right then parent.ki + 1 ≥ parent.page.numkeys else parent.ki = 0 := by
        rw [← hedge, hnear]
        exact List.cons_ne_nil x tail
      obtain ⟨hx, htail, hback⟩ := near_cons hat hnear
      rw [if_neg hgo]
      unfold nextKi at hx htail hback
      simp only [List.cons_append, hx, Option.map_some]
      refine ⟨_, rfl, .child x _ (hup.setKi _) hx, ?_, ?_⟩
      · rw [side_child, htail, side_setKi]
      · rw [side_child, side_child, hback, side_setKi]
        rfl

/-! ## 4. Down to a leaf -/

/-- Down along an edge there is nothing on that side of the leaf that was not there before. -/
theorem deepen_spec (first : Bool) {fuel : Nat} (h : Path root height n (top :: rest))
    (hfuel : n ≤ fuel) (hki : top.ki = edge first top.page) :
    ∃ leaf rest', deepen first fuel (top :: rest) = ⟨leaf, edge first leaf⟩ :: rest' ∧
      Path root height 0 (⟨leaf, edge first leaf⟩ :: rest') ∧
      (side (!first) (top :: rest) = [] → side (!first) (⟨leaf, edge first leaf⟩ :: rest') = []) := by
  induction n generalizing top rest fuel with
  | zero =>
    obtain ⟨hleaf, -⟩ := h.uniform.leaf
    have hnone : top.page.children[top.ki]? = none := by
      rw [hleaf]
      rfl
    refine ⟨top.page, rest, ?_, ?_, ?_⟩
    · rw [← hki]
      cases fuel with
      | zero => rfl
      | succ fuel =>
        unfold deepen
        rw [hnone]
    · rw [← hki]
      exact h
    · rw [← hki]
      exact id
  | succ n ih =>
    cases fuel with
    | zero => omega
    | succ fuel =>
      obtain ⟨x, tail, -, hx, -, hnone⟩ := edge_spec first h.uniform
      rw [← hki] at hx hnone
      obtain ⟨leaf, rest', hrun, hpath, hside⟩ := ih (.child x (edge first x) h hx)
        (Nat.le_of_succ_le_succ hfuel) rfl
      refine ⟨leaf, rest', ?_, hpath, fun hempty => hside ?_⟩
      · unfold deepen
        rw [hx]
        exact hrun
      · rw [side_child, hnone, hempty]
        rfl

end Paths

end Mdbx.PageTree
