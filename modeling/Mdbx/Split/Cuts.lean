import Mdbx.Split.Sizes

/-!
# Split.Cuts — the cut that is chosen

The cut by sizes leaves halves that fit in pages, and the cut of a dupfix page halves with at most as
many entries as it had.
-/

namespace Mdbx.Split

open Node PageSize Compare
open PageSearch (Kind)

variable {env : Env} {mp : Page} {newindx : Nat} {new : Entry} {replace : Bool}
  {parents : List Frame}

/-! ## 1. Some cut fits -/

theorem minkeys_leaf (hkind : mp.kind ≠ .branch) : minkeys mp = 1 := by
  unfold minkeys
  rw [if_neg hkind]

theorem minkeys_branch (hkind : mp.kind = .branch) : minkeys mp = 2 := by
  unfold minkeys
  rw [if_pos hkind]

theorem minkeys_bounds (mp : Page) : 1 ≤ minkeys mp ∧ minkeys mp ≤ 2 := by
  unfold minkeys
  split
  · omega
  · omega

/-- A page that overflows has at least two leaf nodes, or three branch nodes. -/
theorem Overflows.enough (h : Overflows env mp newindx new) (hkind : mp.kind ≠ .dupfixLeaf) :
    minkeys mp < mp.numkeys := by
  have hover := h.over
  have hlen := sizesWithNew_length env new h.index
  have hsum := sum_le_mul fun a ha => h.size_le hkind ha
  have htwo := two_le_space env mp
  rw [hlen] at hsum
  by_contra hfew
  by_cases hbranch : mp.kind = .branch
  · -- the first node has no key
    obtain ⟨first, rest, hnodes, hkey⟩ := h.page.leftmost hbranch
    have hthree := env.three_branch_nodes
    have hnum : mp.numkeys = rest.length + 1 := by
      unfold Page.numkeys
      rw [hnodes, List.length_cons]
    have hfirst : mp.nodeBytes first = branchSize 0 := by
      unfold Page.nodeBytes
      rw [hbranch]
      dsimp only
      rw [hkey, branchBytes_eq]
      rfl
    have hused : mp.used = branchSize 0 + (rest.map mp.nodeBytes).sum := by
      unfold Page.used
      rw [hnodes, List.map_cons, List.sum_cons, hfirst]
    have hrest : (rest.map mp.nodeBytes).sum ≤ rest.length * (env.branchNodeMax + indxSz) := by
      have := sum_le_mul (l := rest.map mp.nodeBytes) (n := env.branchNodeMax + indxSz) fun a ha => by
        obtain ⟨x, hx, rfl⟩ := List.mem_map.mp ha
        exact (h.page.nodeBytes_le (hnodes ▸ List.mem_cons_of_mem first hx)).2 hbranch
      rwa [List.length_map] at this
    have hnew := (h.newSize_bounds hkind).2.2.2 hbranch
    rw [sizesWithNew_sum] at hover
    rw [minkeys_branch hbranch] at hfew
    have hmul : rest.length * (env.branchNodeMax + indxSz) ≤ 1 * (env.branchNodeMax + indxSz) :=
      Nat.mul_le_mul_right _ (by omega)
    omega
  · rw [minkeys_leaf hbranch] at hfew
    have hmul : (mp.numkeys + 1) * sizeLimit env mp ≤ 2 * sizeLimit env mp :=
      Nat.mul_le_mul_right _ (by omega)
    omega

theorem Overflows.exists_fitting (h : Overflows env mp newindx new)
    (hkind : mp.kind ≠ .dupfixLeaf) :
    ∃ k, k ≤ (sizesWithNew env mp newindx new).length ∧
      Fitting env.space (leftmostSplit mp) (rightmostSplit mp) (sizesWithNew env mp newindx new) k := by
  have henough := h.enough hkind
  have hmin := minkeys_bounds mp
  have hlen := sizesWithNew_length env new h.index
  have htwo := two_le_space env mp
  -- up to two nodes of the largest size fit in a page
  have hpart : ∀ l : List Nat, (∀ a ∈ l, a ∈ sizesWithNew env mp newindx new) → l.length ≤ 2 →
      l.sum ≤ env.space := by
    intro l hl hle
    have hsum := sum_le_mul fun a ha => h.size_le hkind (hl a ha)
    have hmul : l.length * sizeLimit env mp ≤ 2 * sizeLimit env mp := Nat.mul_le_mul_right _ hle
    omega
  have hfirst := hpart ((sizesWithNew env mp newindx new).take (leftmostSplit mp))
    (fun a ha => List.mem_of_mem_take ha) (by
      rw [List.length_take]
      unfold leftmostSplit
      omega)
  have hlast := hpart ((sizesWithNew env mp newindx new).drop (rightmostSplit mp))
    (fun a ha => List.mem_of_mem_drop ha) (by
      rw [List.length_drop]
      unfold rightmostSplit
      omega)
  have hmore : ∀ a ∈ sizesWithNew env mp newindx new,
      (sizesWithNew env mp newindx new).sum + a ≤ 2 * env.space := by
    intro a ha
    have ha' := h.size_le hkind ha
    have hnew := h.size_le hkind
      (List.mem_append_right _ List.mem_cons_self)
    have hfits := h.page.fits
    rw [sizesWithNew_sum]
    omega
  obtain ⟨k, hlo, hhi, hhalves⟩ := exists_halves h.over hfirst hlast
    (by unfold leftmostSplit rightmostSplit; omega) (by unfold rightmostSplit; omega) hmore
  refine ⟨k, ?_, hlo, hhi, hhalves⟩
  unfold rightmostSplit at hhi
  omega

/-! ## 2. The guess -/

theorem take_withNew {l : List Nat} {a i k : Nat} (hi : i ≤ l.length) (hk : k ≤ i) :
    (l.take i ++ a :: l.drop i).take k = l.take k := by
  have hlen : (l.take i).length = i := List.length_take_of_le hi
  rw [List.take_append_of_le_length (by omega), List.take_take, Nat.min_eq_left hk]

theorem withNew_sums {l : List Nat} {a i k : Nat} (hi : i ≤ l.length) :
    (k ≤ i → ((l.take i ++ a :: l.drop i).take k).sum = (l.take k).sum ∧
      ((l.take i ++ a :: l.drop i).drop k).sum = a + (l.drop k).sum) ∧
    (i < k → k ≤ l.length + 1 →
      ((l.take i ++ a :: l.drop i).take k).sum = a + (l.take (k - 1)).sum ∧
      ((l.take i ++ a :: l.drop i).drop k).sum = (l.drop (k - 1)).sum) := by
  have hwhole := take_add_drop (l.take i ++ a :: l.drop i) k
  have hsum : (l.take i ++ a :: l.drop i).sum = a + l.sum := by
    have := take_add_drop l i
    rw [List.sum_append, List.sum_cons]
    omega
  constructor
  · intro hk
    have hsplit := take_add_drop l k
    have htake := congrArg List.sum (take_withNew (a := a) hi hk)
    omega
  · intro hk hle
    have hsplit := take_add_drop l (k - 1)
    have hlen : (l.take i).length = i := List.length_take_of_le hi
    have hdrop : (l.take i ++ a :: l.drop i).drop k = l.drop (k - 1) := by
      have hk' : k = (l.take i).length + (1 + (k - 1 - i)) := by omega
      rw [hk', ← List.drop_drop, List.drop_left, ← List.drop_drop, List.drop_one, List.tail_cons,
        List.drop_drop]
      congr 1
      omega
    have hdrop' := congrArg List.sum hdrop
    omega

/-- Nodes take 12 bytes at least, save those with empty keys. -/
theorem heavy (hkind : mp.kind ≠ .dupfixLeaf) (xs : List Entry) :
    12 * xs.length ≤ (xs.map mp.nodeBytes).sum + 2 * (xs.map Entry.key).count [] := by
  induction xs with
  | nil => exact Nat.zero_le _
  | cons x xs ih =>
    have hbounds := nodeBytes_bounds hkind x
    rw [List.map_cons, List.sum_cons, List.map_cons, List.length_cons]
    by_cases hkey : x.key = []
    · rw [hkey, List.count_cons_self]
      omega
    · have := hbounds.2.2 hkey
      rw [List.count_cons_of_ne hkey]
      omega

theorem sum_even (hkind : mp.kind ≠ .dupfixLeaf) (xs : List Entry) :
    (xs.map mp.nodeBytes).sum % 2 = 0 := by
  induction xs with
  | nil => rfl
  | cons x xs ih =>
    have := (nodeBytes_bounds hkind x).1
    rw [List.map_cons, List.sum_cons]
    omega

/-- At most one of the nodes that are searched has an empty key. -/
theorem Overflows.empties (h : Overflows env mp newindx new) (hkind : mp.kind ≠ .dupfixLeaf) :
    (mp.searched.map Entry.key).count [] ≤ 1 :=
  List.nodup_iff_count_le_one.mp (List.nodup_cons.mp (h.distinct hkind)).2 []

theorem Overflows.empties_take (h : Overflows env mp newindx new) (hkind : mp.kind ≠ .dupfixLeaf)
    (k : Nat) : ((mp.nodes.take k).map Entry.key).count [] ≤ minkeys mp := by
  have hone := h.empties hkind
  have hsub : ((mp.nodes.take k).map Entry.key).Sublist (mp.nodes.map Entry.key) :=
    (List.take_sublist k mp.nodes).map _
  have hle := hsub.count_le []
  unfold Page.searched at hone
  by_cases hbranch : mp.kind = .branch
  · obtain ⟨first, rest, hnodes, hkey⟩ := h.page.leftmost hbranch
    rw [if_pos hbranch, hnodes, List.tail_cons] at hone
    rw [hnodes, List.map_cons, hkey, List.count_cons_self] at hle
    rw [minkeys_branch hbranch, hnodes]
    omega
  · rw [if_neg hbranch] at hone
    rw [minkeys_leaf hbranch]
    omega

theorem Overflows.empties_drop (h : Overflows env mp newindx new) (hkind : mp.kind ≠ .dupfixLeaf)
    {k : Nat} (hk : minkeys mp ≤ k + 1) :
    ((mp.nodes.drop k).map Entry.key).count [] ≤ 1 := by
  have hone := h.empties hkind
  have hsub : ((mp.nodes.drop k).map Entry.key).Sublist (mp.searched.map Entry.key) := by
    refine List.Sublist.map _ ?_
    unfold Page.searched
    split
    · rename_i hbranch
      rw [minkeys_branch hbranch] at hk
      have hsplit : mp.nodes.drop k = mp.nodes.tail.drop (k - 1) := by
        rw [← List.drop_one, List.drop_drop]
        congr 1
        omega
      rw [hsplit]
      exact List.drop_sublist _ _
    · exact List.drop_sublist _ _
  exact (hsub.count_le []).trans hone

/-- The new node is smaller than what the headers of the nodes that leave its half take. -/
theorem Overflows.guess_fits (h : Overflows env mp newindx new) (hkind : mp.kind ≠ .dupfixLeaf)
    {s : Nat} (hlo : leftmostSplit mp ≤ s) (hhi : s ≤ rightmostSplit mp)
    (hsmall : newSize env mp new < 11 * (if s ≤ newindx then s else mp.numkeys - s)) :
    Halves env.space (sizesWithNew env mp newindx new) s := by
  have hmin := minkeys_bounds mp
  have hfits := h.page.fits
  have heven := (h.newSize_bounds hkind).1
  have hlen : (mp.nodes.map mp.nodeBytes).length = mp.numkeys := List.length_map _
  have hindex := h.index
  obtain ⟨hbefore, hafter⟩ := withNew_sums (l := mp.nodes.map mp.nodeBytes)
    (a := newSize env mp new) (i := newindx) (k := s) (by omega)
  unfold leftmostSplit at hlo
  unfold rightmostSplit at hhi
  unfold Halves sizesWithNew
  dsimp only
  unfold Page.used at hfits
  by_cases hside : s ≤ newindx
  · obtain ⟨htake, hdrop⟩ := hbefore hside
    have hsplit := take_add_drop (mp.nodes.map mp.nodeBytes) s
    have hheavy := heavy hkind (mp.nodes.take s)
    have hempty := h.empties_take hkind s
    have heven' := sum_even hkind (mp.nodes.take s)
    have hcount : (mp.nodes.take s).length = s := List.length_take_of_le (hside.trans hindex)
    rw [List.map_take] at hheavy heven'
    rw [if_pos hside] at hsmall
    rw [htake, hdrop]
    omega
  · obtain ⟨htake, hdrop⟩ := hafter (by omega) (by omega)
    have hsplit := take_add_drop (mp.nodes.map mp.nodeBytes) (s - 1)
    have hheavy := heavy hkind (mp.nodes.drop (s - 1))
    have hempty := h.empties_drop hkind (k := s - 1) (by omega)
    have hcount : (mp.nodes.drop (s - 1)).length = mp.numkeys - (s - 1) := List.length_drop
    rw [List.map_drop] at hheavy
    rw [if_neg hside] at hsmall
    rw [htake, hdrop]
    omega

/-! ## 3. The cut by sizes -/

theorem Overflows.sizes_pos (h : Overflows env mp newindx new) (hkind : mp.kind ≠ .dupfixLeaf) :
    ∀ a ∈ sizesWithNew env mp newindx new, 0 < a := by
  intro a ha
  rcases mem_sizesWithNew ha with rfl | ⟨x, _, rfl⟩
  · exact (h.newSize_bounds hkind).2.1
  · have := (nodeBytes_bounds hkind x).2.1
    omega

/-- A page has less than 2^16 nodes. -/
theorem Admissible.numkeys_le (h : Admissible env mp) (hkind : mp.kind ≠ .dupfixLeaf) :
    mp.numkeys < 2 ^ 16 := by
  have hheavy := heavy hkind mp.nodes
  have hcount : (mp.nodes.map Entry.key).count [] ≤ mp.nodes.length :=
    List.count_le_length.trans (List.length_map _).le
  have hfits := h.fits
  have hps := env.ps_bounds
  have hspace := env.space_eq
  unfold Page.numkeys
  unfold Page.used at hfits
  omega

theorem Overflows.sizedSplit_fitting (h : Overflows env mp newindx new)
    (hkind : mp.kind ≠ .dupfixLeaf) {s : Nat} (hlo : leftmostSplit mp ≤ s)
    (hhi : s ≤ rightmostSplit mp) :
    Fitting env.space (leftmostSplit mp) (rightmostSplit mp) (sizesWithNew env mp newindx new)
      (sizedSplit env mp newindx new s) := by
  have hcount := h.page.numkeys_le hkind
  have hmin := minkeys_bounds mp
  have hright : rightmostSplit mp ≤ 2 ^ 16 := by
    unfold rightmostSplit
    omega
  unfold sizedSplit
  dsimp only
  by_cases hsizes : reserveFactor env ≠ 0 ∨ (indxSz + nodeHdrSz + 1) *
      (if s ≤ newindx then s else mp.numkeys - s) ≤ newSize env mp new
  · rw [if_pos hsizes]
    have hreserve : (if reserveFactor env ≠ 0 then env.space * reserveFactor env / 2 ^ 16 else 0)
        ≤ 2 ^ 16 := by
      split
      · have hspace : env.space ≤ 2 ^ 16 := by
          have hps := env.ps_bounds
          have hs := env.space_eq
          omega
        have hfactor : reserveFactor env ≤ 2 ^ 16 := env.splitReserveDot16.toNat_lt.le
        have hmul : env.space * reserveFactor env ≤ 2 ^ 16 * 2 ^ 16 := Nat.mul_le_mul hspace hfactor
        omega
      · omega
    obtain ⟨k, hk, hcut⟩ := h.exists_fitting hkind
    have hpos : 0 < k := by
      have := hcut.1
      unfold leftmostSplit at this
      omega
    have hloop := sizeLoop_fitting hreserve (hhi.trans hright) hright (h.sizes_pos hkind)
      (sizesWithNew env mp newindx new) (i := 0) s List.drop_zero
      (.inr ⟨rfl, k, hpos, hk, hcut⟩)
    rw [List.take_zero, List.drop_zero, sizesWithNew_sum, List.sum_nil] at hloop
    exact hloop
  · rw [if_neg hsizes]
    refine ⟨hlo, hhi, h.guess_fits hkind hlo hhi ?_⟩
    have hheader : indxSz + nodeHdrSz + 1 = 11 := rfl
    rw [hheader] at hsizes
    omega

end Mdbx.Split
