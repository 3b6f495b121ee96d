import Mdbx.Split.Cuts

/-!
# Split.Fits — a split never meets a full page

The nodes of both halves, the new one, and the separator in the parent are added to pages with room
for them.
-/

namespace Mdbx.Split

open Node PageSize Compare
open PageSearch (Kind)

variable {env : Env} {mp : Page} {newindx : Nat} {new : Entry} {replace : Bool}
  {parents : List Frame}

/-! ## 1. Dupfix pages -/

theorem dupfix_used (hkind : mp.kind = .dupfixLeaf) : mp.used = mp.numkeys * mp.dupfixKsize := by
  have hbytes : mp.nodes.map mp.nodeBytes = List.replicate mp.numkeys mp.dupfixKsize := by
    refine List.eq_replicate_iff.mpr ⟨List.length_map _, fun a ha => ?_⟩
    obtain ⟨x, _, rfl⟩ := List.mem_map.mp ha
    unfold Page.nodeBytes
    rw [hkind]
  unfold Page.used
  rw [hbytes, List.sum_replicate]
  exact Nat.nsmul_eq_mul _ _

theorem Overflows.enough_dupfix (h : Overflows env mp newindx new) (hkind : mp.kind = .dupfixLeaf) :
    2 ≤ mp.numkeys := by
  obtain ⟨hpos, hsize, _⟩ := h.page.ksize hkind
  have hroom := h.room
  have hbounds := evenCeil_bounds (mp.dupfixKsize + 0)
  have hleaf := env.two_leaf_nodes
  have hbranch := env.branch_le_leaf
  unfold Page.room newSize at hroom
  unfold nodeSizeLen at hsize
  rw [hkind, dupfix_used hkind] at hroom
  dsimp only at hroom
  by_contra hfew
  have hmul : mp.numkeys * mp.dupfixKsize ≤ 1 * mp.dupfixKsize := Nat.mul_le_mul_right _ (by omega)
  omega

/-- The numbers of entries of the halves. -/
theorem dupfixHalves_lengths {s : Nat} (hindex : newindx ≤ mp.numkeys) (hs : s ≤ mp.numkeys) :
    (dupfixHalves mp newindx new s).1.numkeys = s + (if newindx < s then 1 else 0) ∧
    (dupfixHalves mp newindx new s).2.numkeys =
      mp.numkeys - s + (if newindx < s then 0 else 1) := by
  unfold Page.numkeys at *
  unfold dupfixHalves
  split
  · constructor
    · dsimp only
      rw [List.length_insertIdx_of_le_length]
      · rw [List.length_take_of_le hs]
      · rw [List.length_take_of_le hs]
        omega
    · exact List.length_drop
  · constructor
    · exact List.length_take_of_le hs
    · dsimp only
      rw [List.length_insertIdx_of_le_length]
      · rw [List.length_drop]
      · rw [List.length_drop]
        omega

theorem dupfixHalves_kind (mp : Page) (newindx : Nat) (new : Entry) (s : Nat) :
    ((dupfixHalves mp newindx new s).1.kind = mp.kind ∧
      (dupfixHalves mp newindx new s).1.dupfixKsize = mp.dupfixKsize) ∧
    (dupfixHalves mp newindx new s).2.kind = mp.kind ∧
      (dupfixHalves mp newindx new s).2.dupfixKsize = mp.dupfixKsize := by
  unfold dupfixHalves
  split
  · exact ⟨⟨rfl, rfl⟩, rfl, rfl⟩
  · exact ⟨⟨rfl, rfl⟩, rfl, rfl⟩

/-- The cut of a dupfix page leaves each half at most as many entries as the page had.  Without the
reserve the cut is inside of the page. -/
theorem dupfixSplit_bounds {s : Nat} (hindex : newindx ≤ mp.numkeys) (htwo : 2 ≤ mp.numkeys)
    (hlo : 1 ≤ s) (hhi : s ≤ mp.numkeys)
    (hplain : reserveFactor env = 0 → s < mp.numkeys)
    (hreserve : reserveFactor env ≠ 0 → s = newindx ∨ newindx = 0 ∧ s = 1)
    (hmin : minkeys mp = 1) :
    let cut := dupfixSplit env mp newindx s
    1 ≤ cut ∧ cut ≤ mp.numkeys ∧ cut + (if newindx < cut then 1 else 0) ≤ mp.numkeys ∧
      mp.numkeys - cut + (if newindx < cut then 0 else 1) ≤ mp.numkeys := by
  unfold dupfixSplit leftmostSplit rightmostSplit
  dsimp only
  rw [hmin]
  by_cases hfactor : reserveFactor env = 0
  · have := hplain hfactor
    rw [if_neg (not_not.mpr hfactor)]
    refine ⟨hlo, hhi, ?_, ?_⟩
    · split
      · omega
      · omega
    · split
      · omega
      · omega
  · have hs := hreserve hfactor
    rw [if_pos hfactor]
    generalize mp.numkeys * reserveFactor env / 2 ^ 16 = wanna
    generalize mp.numkeys = nkeys at *
    by_cases hmuch : nkeys ≤ wanna + 1 + wanna
    · rw [if_pos hmuch]
      refine ⟨by omega, by omega, ?_, ?_⟩
      · split
        · omega
        · omega
      · split
        · omega
        · omega
    · rw [if_neg hmuch]
      by_cases hleft : nkeys - s - (if newindx < s then 1 else 0) < wanna
      · rw [if_pos hleft]
        by_cases hside : newindx < nkeys - wanna
        · rw [if_pos hside]
          grind
        · rw [if_neg hside]
          grind
      · rw [if_neg hleft]
        by_cases hright : s - (if s ≤ newindx then 1 else 0) < wanna
        · rw [if_pos hright]
          by_cases hside : wanna ≤ newindx
          · rw [if_pos hside]
            grind
          · rw [if_neg hside]
            grind
        · rw [if_neg hright]
          refine ⟨hlo, hhi, ?_, ?_⟩
          · grind
          · grind

/-! ## 2. The chosen cut -/

theorem Overflows.numkeys_gt (h : Overflows env mp newindx new) : minkeys mp < mp.numkeys := by
  by_cases hkind : mp.kind = .dupfixLeaf
  · have htwo := h.enough_dupfix hkind
    rw [minkeys_leaf (by rw [hkind]; decide)]
    omega
  · exact h.enough hkind

/-- What the first guess is, and what it says when it is an edge. -/
theorem startSplit_cases (h : Overflows env mp newindx new) :
    (reserveFactor env ≠ 0 → startSplit env mp newindx replace parents = newindx) ∧
    (reserveFactor env = 0 → startSplit env mp newindx replace parents ≤ mp.numkeys ∧
      (startSplit env mp newindx replace parents = mp.numkeys →
        newindx = mp.numkeys ∧ mp.kind ≠ .branch) ∧
      (startSplit env mp newindx replace parents = 0 →
        newindx = 0 ∧ (∀ f ∈ parents, f.ki = 0) ∧ ∀ f ∈ parents.head?,
          branchSize ((mp.nodes.map Entry.key).headD []).length ≤ f.page.room env)) := by
  have hgt := h.numkeys_gt
  have hmin := minkeys_bounds mp
  have hindex := h.index
  constructor
  · intro hfactor
    unfold startSplit
    dsimp only
    rw [if_pos hfactor, if_pos (.inl hfactor)]
  · intro hfactor
    unfold startSplit leftmostSplit rightmostSplit
    dsimp only
    rw [if_neg (not_not.mpr hfactor)]
    by_cases hlast : newindx = mp.numkeys
    · rw [if_pos hlast]
      refine ⟨by omega, fun heq => ⟨hlast, fun hbranch => ?_⟩, fun heq => by omega⟩
      rw [minkeys_branch hbranch] at heq
      omega
    · rw [if_neg hlast]
      by_cases hfirst : newindx ≤ minkeys mp
      · rw [if_pos hfirst]
        split
        · rename_i hzero
          split
          · rename_i hroom
            exact ⟨by omega, fun heq => by omega, fun _ => ⟨hzero.1, hroom⟩⟩
          · exact ⟨by omega, fun heq => by omega, fun heq => by omega⟩
        · exact ⟨by omega, fun heq => by omega, fun heq => by omega⟩
      · rw [if_neg hfirst]
        split
        · exact ⟨by omega, fun heq => by omega, fun heq => by omega⟩
        · exact ⟨by omega, fun heq => by omega, fun heq => by omega⟩

theorem clamp_bounds {x lo hi : Nat} (h : lo ≤ hi) :
    lo ≤ clamp x lo hi ∧ clamp x lo hi ≤ hi ∧ (lo ≤ x → x ≤ hi → clamp x lo hi = x) := by
  unfold clamp
  split
  · omega
  · split
    · omega
    · omega

/-- What is known of the chosen cut. -/
def Chosen (env : Env) (mp : Page) (newindx : Nat) (new : Entry) (parents : List Frame) : Cut → Prop
  | .pureRight => mp.kind ≠ .branch ∧ newindx = mp.numkeys
  | .pureLeft => mp.kind ≠ .branch ∧ newindx = 0 ∧ (∀ f ∈ parents, f.ki = 0) ∧
      ∀ f ∈ parents.head?,
        branchSize ((mp.nodes.map Entry.key).headD []).length ≤ f.page.room env
  | .at split => leftmostSplit mp ≤ split ∧ split ≤ rightmostSplit mp ∧
      (mp.kind ≠ .dupfixLeaf → Halves env.space (sizesWithNew env mp newindx new) split) ∧
      (mp.kind = .dupfixLeaf →
        (dupfixHalves mp newindx new split).1.numkeys ≤ mp.numkeys ∧
        (dupfixHalves mp newindx new split).2.numkeys ≤ mp.numkeys)

theorem chooseCut_chosen (replace : Bool) (parents : List Frame) (h : Overflows env mp newindx new) :
    Chosen env mp newindx new parents (chooseCut env mp newindx new replace parents) := by
  have hgt := h.numkeys_gt
  have hmin := minkeys_bounds mp
  have hindex := h.index
  obtain ⟨hreserved, hplain⟩ := startSplit_cases h
  unfold chooseCut
  dsimp only
  generalize startSplit env mp newindx replace parents = start at *
  by_cases hpureRight : reserveFactor env = 0 ∧ start = mp.numkeys
  · rw [if_pos hpureRight]
    obtain ⟨hnew, hkind⟩ := (hplain hpureRight.1).2.1 hpureRight.2
    exact ⟨hkind, hnew⟩
  · rw [if_neg hpureRight]
    by_cases hpureLeft : reserveFactor env = 0 ∧ start = 0
    · rw [if_pos hpureLeft]
      obtain ⟨hnew, hroom⟩ := (hplain hpureLeft.1).2.2 hpureLeft.2
      refine ⟨fun hbranch => ?_, hnew, hroom⟩
      have := h.inner hbranch
      omega
    · rw [if_neg hpureLeft]
      have hrange : leftmostSplit mp ≤ rightmostSplit mp := by
        unfold leftmostSplit rightmostSplit
        omega
      obtain ⟨hlo, hhi, hsame⟩ := clamp_bounds (x := start) hrange
      by_cases hkind : mp.kind = .dupfixLeaf
      · rw [if_pos hkind]
        have hone : minkeys mp = 1 := minkeys_leaf (by rw [hkind]; decide)
        have hleftmost : leftmostSplit mp = 1 := hone
        have hrightmost : rightmostSplit mp = mp.numkeys := by
          unfold rightmostSplit
          omega
        rw [hleftmost, hrightmost] at hlo hhi hsame ⊢
        have hinside : reserveFactor env = 0 → clamp start 1 mp.numkeys < mp.numkeys := by
          intro hfactor
          have hstart := hplain hfactor
          have hne : start ≠ mp.numkeys := fun heq => hpureRight ⟨hfactor, heq⟩
          have hne' : start ≠ 0 := fun heq => hpureLeft ⟨hfactor, heq⟩
          rw [hsame (by omega) (by omega)]
          omega
        have hedge : reserveFactor env ≠ 0 →
            clamp start 1 mp.numkeys = newindx ∨ newindx = 0 ∧ clamp start 1 mp.numkeys = 1 := by
          intro hfactor
          have hstart := hreserved hfactor
          by_cases hzero : newindx = 0
          · right
            refine ⟨hzero, ?_⟩
            unfold clamp
            rw [if_pos (by omega)]
          · left
            rw [hsame (by omega) (by omega), hstart]
        obtain ⟨h₁, h₂, hleft, hright⟩ := dupfixSplit_bounds hindex (by omega) hlo hhi
          hinside hedge hone
        obtain ⟨hlen₁, hlen₂⟩ := dupfixHalves_lengths hindex h₂
        refine ⟨hleftmost ▸ h₁, hrightmost ▸ h₂, fun hne => absurd hkind hne, fun _ => ⟨?_, ?_⟩⟩
        · rw [hlen₁]
          exact hleft
        · rw [hlen₂]
          exact hright
      · rw [if_neg hkind]
        obtain ⟨h₁, h₂, hhalves⟩ := h.sizedSplit_fitting hkind hlo hhi
        exact ⟨h₁, h₂, fun _ => hhalves, fun hdup => absurd hdup hkind⟩

/-! ## 3. The moves -/

/-- The bytes that a node takes once it is moved. -/
def moveBytes (env : Env) (mp : Page) (x : Entry) : Nat :=
  match mp.kind with
  | .leaf => if x.big then nodeSizeLen x.key.length 0 + pgnoSz + indxSz
      else env.leafSize x.key.length x.dataLen
  | .branch => branchSize x.key.length
  | .dupfixLeaf => mp.dupfixKsize

theorem used_insert (mp : Page) {indx : Nat} (x : Entry) (h : indx ≤ mp.numkeys) :
    ({ mp with nodes := mp.nodes.insertIdx indx x } : Page).used = mp.used + mp.nodeBytes x := by
  have hperm : (mp.nodes.insertIdx indx x).Perm (x :: mp.nodes) := List.perm_insertIdx x mp.nodes h
  have hsum := (hperm.map mp.nodeBytes).sum_eq
  rw [List.map_cons, List.sum_cons] at hsum
  have hsame : ({ mp with nodes := mp.nodes.insertIdx indx x } : Page).used =
      ((mp.nodes.insertIdx indx x).map mp.nodeBytes).sum := rfl
  rw [hsame, hsum]
  exact Nat.add_comm _ _

/-- A page with room takes the node. -/
theorem place_fits (env : Env) (mp : Page) {indx : Nat} (bytes : Nat) {x : Entry} (hindx : indx ≤ mp.numkeys)
    (hbytes : mp.nodeBytes x ≤ bytes) (hroom : mp.used + bytes ≤ env.space) :
    ∃ mp', place env mp indx bytes x = some mp' ∧ mp'.kind = mp.kind ∧
      mp'.dupfixKsize = mp.dupfixKsize ∧ mp'.nodes = mp.nodes.insertIdx indx x ∧
      mp'.numkeys = mp.numkeys + 1 ∧ mp'.used ≤ mp.used + bytes := by
  unfold place
  rw [if_neg (by omega)]
  refine ⟨_, rfl, rfl, rfl, rfl, List.length_insertIdx_of_le_length hindx x, ?_⟩
  rw [used_insert mp x hindx]
  omega

theorem moveNode_fits (env : Env) (mp : Page) {x : Entry}
    (hroom : mp.used + moveBytes env mp x ≤ env.space) :
    ∃ mp', moveNode env mp mp.numkeys x = some mp' ∧ mp'.kind = mp.kind ∧
      mp'.dupfixKsize = mp.dupfixKsize ∧ mp'.numkeys = mp.numkeys + 1 ∧
      mp'.used ≤ mp.used + moveBytes env mp x := by
  unfold moveNode moveBytes at *
  cases hkind : mp.kind with
  | leaf =>
    rw [hkind] at hroom
    dsimp only at hroom ⊢
    unfold nodeAddLeaf
    by_cases hbig : x.big = true
    · rw [if_pos hbig] at hroom ⊢
      rw [if_pos hbig]
      obtain ⟨mp', hplace, h₁, h₂, _, h₃, h₄⟩ := place_fits env mp _ (x := x) (Nat.le_refl _) (by
        unfold Page.nodeBytes
        rw [hkind]
        dsimp only
        rw [if_pos hbig, bigBytes_eq]) hroom
      exact ⟨mp', hplace, h₁.trans hkind, h₂, h₃, h₄⟩
    · rw [if_neg hbig] at hroom ⊢
      rw [if_neg hbig]
      unfold leafSize at *
      dsimp only at *
      by_cases hlong : env.leafNodeMax < nodeSizeLen x.key.length x.dataLen
      · rw [if_pos hlong] at hroom ⊢
        rw [if_pos hlong]
        obtain ⟨mp', hplace, h₁, h₂, _, h₃, h₄⟩ := place_fits env mp _
          (x := { x with big := true }) (Nat.le_refl _) (by
            unfold Page.nodeBytes
            rw [hkind]
            dsimp only
            rw [if_pos rfl, bigBytes_eq]) hroom
        exact ⟨mp', hplace, h₁.trans hkind, h₂, h₃, h₄⟩
      · rw [if_neg hlong] at hroom ⊢
        rw [if_neg hlong]
        obtain ⟨mp', hplace, h₁, h₂, _, h₃, h₄⟩ := place_fits env mp _ (x := x) (Nat.le_refl _) (by
          unfold Page.nodeBytes
          rw [hkind]
          dsimp only
          rw [if_neg hbig, leafBytes_eq]) hroom
        exact ⟨mp', hplace, h₁.trans hkind, h₂, h₃, h₄⟩
  | branch =>
    rw [hkind] at hroom
    dsimp only at hroom ⊢
    unfold nodeAddBranch
    -- the first node is moved without its key
    have hshort : branchSize (if mp.numkeys = 0 then ([] : Bytes) else x.key).length ≤
        branchSize x.key.length := by
      split
      · exact Nat.add_le_add_right (Nat.add_le_add_left (evenCeil_mono (Nat.zero_le _)) _) _
      · exact Nat.le_refl _
    obtain ⟨mp', hplace, h₁, h₂, _, h₃, h₄⟩ := place_fits env mp
      (branchSize (if mp.numkeys = 0 then ([] : Bytes) else x.key).length)
      (x := ⟨if mp.numkeys = 0 then [] else x.key, 0, false, x.pgno⟩) (Nat.le_refl _) (by
        unfold Page.nodeBytes
        rw [hkind]
        dsimp only
        rw [branchBytes_eq]) (by omega)
    exact ⟨mp', hplace, h₁.trans hkind, h₂, h₃, h₄.trans (by omega)⟩
  | dupfixLeaf =>
    rw [hkind] at hroom
    dsimp only at hroom ⊢
    unfold nodeAddDupfix
    obtain ⟨mp', hplace, h₁, h₂, _, h₃, h₄⟩ := place_fits env mp _ (x := x) (Nat.le_refl _) (by
      unfold Page.nodeBytes
      rw [hkind]) hroom
    exact ⟨mp', hplace, h₁.trans hkind, h₂, h₃, h₄⟩

theorem moveBytes_congr (env : Env) {mp mp' : Page} (hkind : mp'.kind = mp.kind)
    (hksize : mp'.dupfixKsize = mp.dupfixKsize) : moveBytes env mp' = moveBytes env mp := by
  funext x
  unfold moveBytes
  rw [hkind, hksize]

/-- All nodes of a list are moved to a page with room for them together. -/
theorem moveNodes_fits : ∀ (xs : List Entry) {mp : Page},
    mp.used + (xs.map (moveBytes env mp)).sum ≤ env.space →
    ∃ mp', moveNodes env mp mp.numkeys xs = some mp' ∧ mp'.kind = mp.kind ∧
      mp'.numkeys = mp.numkeys + xs.length ∧ mp'.used ≤ env.space
  | [], mp, hroom => ⟨mp, rfl, rfl, rfl, hroom⟩
  | x :: rest, mp, hroom => by
      rw [List.map_cons, List.sum_cons] at hroom
      obtain ⟨mid, hmove, hkind, hksize, hnum, hused⟩ := moveNode_fits env mp
        (x := x) (by omega)
      have hbytes := moveBytes_congr env hkind hksize
      obtain ⟨mp', hrest, hkind', hnum', hused'⟩ := moveNodes_fits rest
        (by rw [hbytes]; omega)
      refine ⟨mp', ?_, hkind'.trans hkind, ?_, hused'⟩
      · unfold moveNodes
        rw [hmove, Option.bind_some, ← hnum]
        exact hrest
      · rw [hnum', hnum, List.length_cons]
        omega

theorem Overflows.moveBytes_old (h : Overflows env mp newindx new) (hkind : mp.kind ≠ .dupfixLeaf)
    {x : Entry} (hx : x ∈ mp.nodes) : moveBytes env mp x = mp.nodeBytes x := by
  unfold moveBytes Page.nodeBytes
  cases hk : mp.kind with
  | leaf =>
    dsimp only
    cases hbig : x.big with
    | true =>
      rw [if_pos rfl, if_pos rfl, bigBytes_eq]
    | false =>
      have hdata := h.page.data hk x hx hbig
      rw [if_neg Bool.false_ne_true, if_neg Bool.false_ne_true, leafBytes_eq]
      unfold leafSize
      dsimp only
      rw [if_neg (by omega)]
  | branch =>
    dsimp only
    rw [branchBytes_eq]
  | dupfixLeaf => exact absurd hk hkind

theorem Overflows.moveBytes_withNew (h : Overflows env mp newindx new)
    (hkind : mp.kind ≠ .dupfixLeaf) :
    (withNew mp newindx new).map (moveBytes env mp) = sizesWithNew env mp newindx new := by
  have hnew : moveBytes env mp new = newSize env mp new := by
    unfold moveBytes newSize
    rw [h.fresh]
    rfl
  have hold : mp.nodes.map (moveBytes env mp) = mp.nodes.map mp.nodeBytes :=
    List.map_congr_left fun x hx => h.moveBytes_old hkind hx
  unfold withNew sizesWithNew
  dsimp only
  rw [List.map_append, List.map_cons, hnew, List.map_take, List.map_drop, hold]

/-! ## 4. The parent -/

/-- A page over the split one. -/
structure Parent (env : Env) (f : Frame) : Prop where
  branch : f.page.kind = .branch
  fits : f.page.used ≤ env.space
  index : f.ki < f.page.numkeys

theorem branchBytes_of (hkind : mp.kind = .branch) (x : Entry) :
    mp.nodeBytes x = branchSize x.key.length := by
  unfold Page.nodeBytes
  rw [hkind]
  exact branchBytes_eq _

theorem pushRoot_parent (env : Env) (pgno : Nat) :
    ∃ f, pushRoot env pgno = some f ∧ Parent env f ∧ f.ki = 0 := by
  have hps := env.ps_bounds
  have hspace := env.space_eq
  have hten : branchSize ([] : Bytes).length = 10 := rfl
  have hused : (⟨.branch, 0, []⟩ : Page).used = 0 := rfl
  obtain ⟨root, hplace, hkind, _, _, hnum, hroom⟩ := place_fits env ⟨.branch, 0, []⟩
    (branchSize ([] : Bytes).length)
    (x := ⟨[], 0, false, pgno⟩) (Nat.le_refl 0) (branchBytes_of rfl _).le (by omega)
  refine ⟨⟨root, 0⟩, ?_, ⟨hkind, by dsimp only; omega, ?_⟩, rfl⟩
  · unfold pushRoot nodeAddBranch
    rw [hplace]
    rfl
  · dsimp only
    omega

/-- The parent has room for the separator, or is asked to split for a node in the limits. -/
def Above.Sound (env : Env) (parent : Frame) : Above → Prop
  | .added page => page.used ≤ env.space ∧ page.numkeys = parent.page.numkeys + 1
  | .overflows newindx sepkey => 0 < newindx ∧ newindx ≤ parent.page.numkeys ∧
      nodeSizeLen sepkey.length 0 ≤ env.branchNodeMax ∧
      parent.page.room env < branchSize sepkey.length

theorem addSeparator_sound {parent : Frame} (hparent : Parent env parent) {sepkey : Bytes}
    (hsmall : nodeSizeLen sepkey.length 0 ≤ env.branchNodeMax) (sister : Nat) :
    ∃ above, addSeparator env parent sepkey sister = some above ∧ above.Sound env parent := by
  have hindex := hparent.index
  have hfits := hparent.fits
  unfold addSeparator
  by_cases hfull : parent.page.room env < branchSize sepkey.length
  · rw [if_pos hfull]
    exact ⟨_, rfl, Nat.succ_pos _, hindex, hsmall, hfull⟩
  · rw [if_neg hfull]
    unfold Page.room at hfull
    obtain ⟨page, hplace, _, _, _, hnum, hused⟩ := place_fits env _ _
      (x := ⟨sepkey, 0, false, sister⟩) hindex (branchBytes_of hparent.branch _).le (by dsimp only; omega)
    refine ⟨.added page, ?_, by dsimp only at hused; omega, hnum⟩
    unfold nodeAddBranch
    rw [hplace]
    rfl

theorem sum_modify {α : Type} (g : α → Nat) (f : α → α) :
    ∀ (l : List α) {i : Nat} (h : i < l.length),
      ((l.modify i f).map g).sum + g l[i] = (l.map g).sum + g (f l[i])
  | x :: rest, 0, _ => by
      rw [List.modify_zero_cons, List.map_cons, List.map_cons, List.sum_cons, List.sum_cons,
        List.getElem_cons_zero]
      omega
  | x :: rest, i + 1, h => by
      have ih := sum_modify g f rest (Nat.lt_of_succ_lt_succ h)
      rw [List.modify_succ_cons, List.map_cons, List.map_cons, List.sum_cons, List.sum_cons,
        List.getElem_cons_succ]
      omega

/-- A key is replaced where there is room for what it is longer. -/
theorem propagateKey_fits (env : Env) (indx : Nat) (key : Bytes) (hkind : mp.kind = .branch)
    (hindx : indx < mp.numkeys) (hfits : mp.used ≤ env.space)
    (hroom : evenCeil key.length ≤ mp.room env) :
    ∃ mp', propagateKey env mp indx key = some mp' ∧ mp'.used ≤ env.space ∧
      mp'.numkeys = mp.numkeys := by
  unfold propagateKey
  dsimp only
  rw [if_neg (by omega)]
  refine ⟨_, rfl, ?_, List.length_modify _ _ _⟩
  have hsum := sum_modify mp.nodeBytes (fun x => { x with key := key }) mp.nodes hindx
  rw [branchBytes_of hkind, branchBytes_of hkind] at hsum
  unfold Page.room at hroom
  unfold Page.used at hfits hroom
  change ((mp.nodes.modify indx fun x => { x with key := key }).map mp.nodeBytes).sum ≤ env.space
  unfold branchSize nodeSizeLen at hsum
  simp only [Nat.add_zero] at hsum
  omega

theorem addBefore_sound {parent : Frame} (hparent : Parent env parent) (hzero : parent.ki = 0)
    {newkey sepkey : Bytes} (hroom : branchSize sepkey.length ≤ parent.page.room env)
    (sister : Nat) :
    ∃ above, addBefore env parent newkey sepkey sister = some above ∧ above.Sound env parent := by
  have hindex := hparent.index
  have hfits := hparent.fits
  have hten : branchSize ([] : Bytes).length = 10 := rfl
  have hlong : branchSize sepkey.length = 10 + evenCeil sepkey.length := by
    unfold branchSize nodeSizeLen nodeHdrSz indxSz
    simp only [Nat.add_zero]
    omega
  unfold Page.room at hroom
  obtain ⟨page, hplace, hkind, _, _, hnum, hused⟩ := place_fits env _
    (branchSize ([] : Bytes).length) (x := ⟨[], 0, false, sister⟩) (Nat.zero_le _) (branchBytes_of hparent.branch _).le (by omega)
  obtain ⟨page', hkey, hused', hnum'⟩ := propagateKey_fits env 1 sepkey
    (hkind.trans hparent.branch) (by omega) (by omega) (by unfold Page.room; omega)
  refine ⟨.added page', ?_, hused', hnum'.trans hnum⟩
  unfold addBefore nodeAddBranch
  dsimp only
  rw [if_neg (by unfold Page.room; omega), if_neg (not_not.mpr hzero), hzero, hplace,
    Option.bind_some, if_pos rfl, hkey]
  rfl

/-! ## 5. The split -/

/-- The keys that may become separators are in the limit of branch nodes. -/
theorem Overflows.small_key (h : Overflows env mp newindx new) {key : Bytes}
    (hkey : key = new.key ∨ key = [] ∨ key ∈ mp.nodes.map Entry.key) :
    nodeSizeLen key.length 0 ≤ env.branchNodeMax := by
  by_cases hkind : mp.kind = .dupfixLeaf
  · obtain ⟨_, hsize, hfixed⟩ := h.page.ksize hkind
    rcases hkey with rfl | rfl | hmem
    · rw [h.fixed hkind]
      exact hsize
    · exact (Nat.add_le_add_left (evenCeil_mono (Nat.zero_le _)) _).trans hsize
    · obtain ⟨x, hx, rfl⟩ := List.mem_map.mp hmem
      rw [hfixed x hx]
      exact hsize
  · have hsize := h.small hkind
    rcases hkey with rfl | rfl | hmem
    · exact hsize
    · exact (Nat.add_le_add_left (evenCeil_mono (Nat.zero_le _)) _).trans hsize
    · obtain ⟨x, hx, rfl⟩ := List.mem_map.mp hmem
      exact h.page.keys hkind x hx

theorem headD_mem (keys : List Bytes) : keys.headD [] = [] ∨ keys.headD [] ∈ keys := by
  cases keys with
  | nil => exact .inl rfl
  | cons key rest => exact .inr List.mem_cons_self

theorem dupfixSepkey_mem (mp : Page) (newindx : Nat) (new : Entry) (s : Nat) :
    let key := dupfixSepkey mp newindx new s
    key = new.key ∨ key = [] ∨ key ∈ mp.nodes.map Entry.key := by
  unfold dupfixSepkey
  dsimp only
  split
  · exact .inl rfl
  · rcases headD_mem ((mp.nodes.drop s).map Entry.key) with hnil | hmem
    · exact .inr (.inl hnil)
    · rw [List.map_drop] at hmem ⊢
      exact .inr (.inr (List.mem_of_mem_drop hmem))

theorem sepkey_mem (mp : Page) (newindx : Nat) (new : Entry) (s : Nat) :
    let key := (((withNew mp newindx new).drop s).map Entry.key).headD []
    key = new.key ∨ key = [] ∨ key ∈ mp.nodes.map Entry.key := by
  rcases headD_mem (((withNew mp newindx new).drop s).map Entry.key) with hnil | hmem
  · exact .inr (.inl hnil)
  · obtain ⟨x, hx, hkey⟩ := List.mem_map.mp hmem
    dsimp only
    rw [← hkey]
    unfold withNew at hx
    rcases List.mem_append.mp (List.mem_of_mem_drop hx) with hin | hin
    · exact .inr (.inr (List.mem_map_of_mem (List.mem_of_mem_take hin)))
    · rcases List.mem_cons.mp hin with rfl | hin
      · exact .inl rfl
      · exact .inr (.inr (List.mem_map_of_mem (List.mem_of_mem_drop hin)))

/-- What a split leaves: two pages that hold the nodes and the new one, and a parent that has the
separator or is split for it in turn. -/
structure Done.Sound (env : Env) (mp : Page) (parent : Frame) (done : Done) : Prop where
  left : done.left.used ≤ env.space
  right : done.right.used ≤ env.space
  count : done.left.numkeys + done.right.numkeys = mp.numkeys + 1
  above : done.above.Sound env parent

theorem dupfix_fits {half : Page} (h : Admissible env mp) (hkind : mp.kind = .dupfixLeaf)
    (hhalf : half.kind = mp.kind) (hksize : half.dupfixKsize = mp.dupfixKsize)
    (hle : half.numkeys ≤ mp.numkeys) : half.used ≤ env.space := by
  have hfits := h.fits
  rw [dupfix_used hkind] at hfits
  rw [dupfix_used (hhalf.trans hkind), hksize]
  exact (Nat.mul_le_mul_right _ hle).trans hfits

/-- The new node alone fits in a page. -/
theorem Overflows.alone (h : Overflows env mp newindx new) :
    ∃ page, moveNode env mp.empty 0 new = some page ∧ page.used ≤ env.space ∧ page.numkeys = 1 := by
  have hused : mp.empty.used = 0 := rfl
  have hbytes : moveBytes env mp.empty new = newSize env mp new := by
    unfold moveBytes newSize Page.empty
    rw [h.fresh]
    rfl
  have hsmall : newSize env mp new ≤ env.space := by
    have htwo := two_le_space env mp
    by_cases hkind : mp.kind = .dupfixLeaf
    · obtain ⟨_, hsize, _⟩ := h.page.ksize hkind
      have hbounds := evenCeil_bounds (mp.dupfixKsize + 0)
      have hbranch := env.three_branch_nodes
      unfold newSize
      unfold nodeSizeLen at hsize
      rw [hkind]
      dsimp only
      omega
    · have hle := h.size_le hkind
        (List.mem_append_right _ List.mem_cons_self)
      omega
  obtain ⟨page, hmove, _, _, hnum, hfits⟩ := moveNode_fits env mp.empty (x := new)
    (by omega)
  exact ⟨page, hmove, by omega, hnum⟩

/-- With the nodes of both halves there is room for all moves. -/
theorem Overflows.halves (h : Overflows env mp newindx new) (hkind : mp.kind ≠ .dupfixLeaf) {s : Nat}
    (hhalves : Halves env.space (sizesWithNew env mp newindx new) s) (hs : s ≤ mp.numkeys) :
    ∃ left right, moveNodes env mp.empty 0 ((withNew mp newindx new).take s) = some left ∧
      moveNodes env mp.empty 0 ((withNew mp newindx new).drop s) = some right ∧
      left.used ≤ env.space ∧ right.used ≤ env.space ∧
      left.numkeys + right.numkeys = mp.numkeys + 1 := by
  have hbytes := h.moveBytes_withNew hkind
  have hempty : moveBytes env mp.empty = moveBytes env mp := moveBytes_congr env rfl rfl
  have hused : mp.empty.used = 0 := rfl
  have hlen : (withNew mp newindx new).length = mp.numkeys + 1 := by
    have := congrArg List.length hbytes
    rwa [List.length_map, sizesWithNew_length env new h.index] at this
  obtain ⟨left, hleft, _, hnum, hfits⟩ := moveNodes_fits
    ((withNew mp newindx new).take s) (by
      rw [hempty, List.map_take, hbytes, hused]
      exact (Nat.zero_add _).le.trans hhalves.1)
  obtain ⟨right, hright, _, hnum', hfits'⟩ := moveNodes_fits
    ((withNew mp newindx new).drop s) (by
      rw [hempty, List.map_drop, hbytes, hused]
      exact (Nat.zero_add _).le.trans hhalves.2)
  have hzero : mp.empty.numkeys = 0 := rfl
  rw [List.length_take] at hnum
  rw [List.length_drop] at hnum'
  exact ⟨left, right, hleft, hright, hfits, hfits', by omega⟩

theorem Overflows.split_under (h : Overflows env mp newindx new) (replace : Bool) (sister : Nat)
    {parent : Frame} {rest : List Frame} (hparent : Parent env parent) :
    ∃ done, splitUnder env mp newindx new replace sister parent (parent :: rest) = some done ∧
      done.Sound env mp parent := by
  have hchosen := chooseCut_chosen replace (parent :: rest) h
  unfold splitUnder
  cases hcut : chooseCut env mp newindx new replace (parent :: rest) with
  | pureRight =>
    dsimp only
    obtain ⟨page, hmove, hused, hnum⟩ := h.alone
    obtain ⟨above, hadd, habove⟩ := addSeparator_sound hparent (h.small_key (.inl rfl)) sister
    rw [hadd, Option.bind_some, hmove]
    exact ⟨_, rfl, h.page.fits, hused, by dsimp only; omega, habove⟩
  | pureLeft =>
    rw [hcut] at hchosen
    obtain ⟨_, _, hzero, hroom⟩ := hchosen
    dsimp only
    obtain ⟨page, hmove, hused, hnum⟩ := h.alone
    obtain ⟨above, hadd, habove⟩ := addBefore_sound hparent (hzero _ List.mem_cons_self) (hroom parent rfl) sister
    rw [hadd, Option.bind_some, hmove]
    exact ⟨_, rfl, hused, h.page.fits, by dsimp only; omega, habove⟩
  | «at» s =>
    rw [hcut] at hchosen
    obtain ⟨_, hhi, hsized, hdupfix⟩ := hchosen
    have hs : s ≤ mp.numkeys := by
      have hmin := minkeys_bounds mp
      unfold rightmostSplit at hhi
      omega
    dsimp only
    by_cases hkind : mp.kind = .dupfixLeaf
    · rw [if_pos hkind]
      obtain ⟨hleft, hright⟩ := hdupfix hkind
      obtain ⟨⟨hk₁, hs₁⟩, hk₂, hs₂⟩ := dupfixHalves_kind mp newindx new s
      obtain ⟨hlen₁, hlen₂⟩ := dupfixHalves_lengths h.index hs
      obtain ⟨above, hadd, habove⟩ := addSeparator_sound hparent
        (h.small_key (dupfixSepkey_mem mp newindx new s)) sister
      rw [hadd]
      refine ⟨_, rfl, dupfix_fits h.page hkind hk₁ hs₁ hleft, dupfix_fits h.page hkind hk₂ hs₂ hright,
        ?_, habove⟩
      dsimp only
      rw [hlen₁, hlen₂]
      split
      · omega
      · omega
    · rw [if_neg hkind]
      obtain ⟨left, right, hleft, hright, hfits, hfits', hcount⟩ := h.halves hkind (hsized hkind) hs
      obtain ⟨above, hadd, habove⟩ := addSeparator_sound hparent
        (h.small_key (sepkey_mem mp newindx new s)) sister
      rw [hadd, Option.bind_some, hright, Option.bind_some, hleft]
      exact ⟨_, rfl, hfits, hfits', hcount, habove⟩

/-- The cut is inside of the page, or it is none: the new node goes to a page after or before the
whole.  Both halves fit, and no node is added to a page without room for it. -/
theorem page_split_fits (env : Env) (mp : Page) (newindx : Nat) (new : Entry) (replace : Bool)
    (pgno sister : Nat) (stack : List Frame) (h : Overflows env mp newindx new)
    (hstack : ∀ f ∈ stack, Parent env f) :
    (∀ parents, Chosen env mp newindx new parents (chooseCut env mp newindx new replace parents) ∧
      ∀ split, chooseCut env mp newindx new replace parents = .at split →
        0 < split ∧ split ≤ mp.numkeys) ∧
    ∃ parent done, (stack.head? = some parent ∨ stack = [] ∧ pushRoot env pgno = some parent) ∧
      pageSplit env mp newindx new replace pgno sister stack = some done ∧
      done.Sound env mp parent := by
  refine ⟨fun parents => ?_, ?_⟩
  · have hchosen := chooseCut_chosen replace parents h
    refine ⟨hchosen, fun split hcut => ?_⟩
    have hmin := minkeys_bounds mp
    rw [hcut] at hchosen
    obtain ⟨hlo, hhi, _⟩ := hchosen
    unfold leftmostSplit at hlo
    unfold rightmostSplit at hhi
    omega
  · unfold pageSplit
    cases stack with
    | nil =>
      obtain ⟨root, hpush, hroot, _⟩ := pushRoot_parent env pgno
      obtain ⟨done, hdone, hsound⟩ := h.split_under replace sister hroot
      refine ⟨root, done, .inr ⟨rfl, hpush⟩, ?_, hsound⟩
      rw [if_pos List.isEmpty_nil, hpush]
      exact hdone
    | cons parent rest =>
      obtain ⟨done, hdone, hsound⟩ := h.split_under replace sister
        (hstack parent List.mem_cons_self)
      exact ⟨parent, done, .inl rfl, hdone, hsound⟩

/-! A page of 256 bytes with two nodes, and one to go between them. -/

def smallEnv : Env := ⟨⟨8, by decide⟩, 0, false⟩

def fullLeaf : Page := ⟨.leaf, 0, [⟨[1], 100, false, 0⟩, ⟨[3], 100, false, 0⟩]⟩

def middleNode : Entry := ⟨[2], 60, false, 0⟩

theorem fullLeaf_overflows : Overflows smallEnv fullLeaf 1 middleNode where
  page :=
    { fits := by decide
      keys := by decide
      data := by decide
      plain := nofun
      leftmost := nofun
      ksize := nofun }
  index := by decide
  inner := nofun
  small := by decide
  fixed := nofun
  fresh := rfl
  distinct := by decide
  room := by decide

theorem page_split_fits_small :
    ∃ done, pageSplit smallEnv fullLeaf 1 middleNode false 7 8 [] = some done ∧
      done.left.used ≤ 236 ∧ done.right.used ≤ 236 ∧ done.left.numkeys + done.right.numkeys = 3 := by
  have h := page_split_fits smallEnv fullLeaf 1 middleNode false 7 8 [] fullLeaf_overflows nofun
  obtain ⟨_, done, _, hdone, hsound⟩ := h.2
  exact ⟨done, hdone, hsound.left, hsound.right, hsound.count⟩

end Mdbx.Split
