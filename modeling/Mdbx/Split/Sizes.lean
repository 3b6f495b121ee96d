import Mdbx.Split.Choice
import Mathlib.Algebra.Order.BigOperators.Group.List

/-!
# Split.Sizes — the sizes of the nodes of a page

Pages that the limits admit, the new nodes they are split for, and the chosen cut.
-/

namespace Mdbx.Split

open Node PageSize Compare
open PageSearch (Kind)

variable {env : Env} {mp : Page} {newindx : Nat} {new : Entry}

/-! ## 1. Admissible pages -/

/-- The entry 0 of a branch page stands for minus infinity, and its key is empty. -/
def Page.searched (mp : Page) : List Entry :=
  if mp.kind = .branch then mp.nodes.tail else mp.nodes

/-- A page with nodes in the limits. -/
structure Admissible (env : Env) (mp : Page) : Prop where
  fits : mp.used ≤ env.space
  keys : mp.kind ≠ .dupfixLeaf →
    ∀ x ∈ mp.nodes, nodeSizeLen x.key.length 0 ≤ env.branchNodeMax
  data : mp.kind = .leaf → ∀ x ∈ mp.nodes, x.big = false →
    nodeSizeLen x.key.length x.dataLen ≤ env.leafNodeMax
  plain : mp.kind = .branch → ∀ x ∈ mp.nodes, x.big = false
  leftmost : mp.kind = .branch → ∃ first rest, mp.nodes = first :: rest ∧ first.key = []
  ksize : mp.kind = .dupfixLeaf → 0 < mp.dupfixKsize ∧
    nodeSizeLen mp.dupfixKsize 0 ≤ env.branchNodeMax ∧
    ∀ x ∈ mp.nodes, x.key.length = mp.dupfixKsize

/-- A page, and a new node for which it has no room. -/
structure Overflows (env : Env) (mp : Page) (newindx : Nat) (new : Entry) : Prop where
  page : Admissible env mp
  index : newindx ≤ mp.numkeys
  inner : mp.kind = .branch → 0 < newindx
  small : mp.kind ≠ .dupfixLeaf → nodeSizeLen new.key.length 0 ≤ env.branchNodeMax
  fixed : mp.kind = .dupfixLeaf → new.key.length = mp.dupfixKsize
  fresh : new.big = false
  -- the keys are strictly sorted
  distinct : mp.kind ≠ .dupfixLeaf → (new.key :: mp.searched.map Entry.key).Nodup
  room : mp.room env < newSize env mp new

/-! ## 2. Sizes of nodes -/

theorem leafBytes_eq (keyLen dataLen : Nat) :
    evenCeil (nodeHdrSz + keyLen + indxSz + dataLen) = nodeSizeLen keyLen dataLen + indxSz := by
  unfold nodeSizeLen evenCeil evenFloor nodeHdrSz indxSz
  omega

theorem bigBytes_eq (keyLen : Nat) :
    evenCeil (nodeHdrSz + keyLen + indxSz + pgnoSz) = nodeSizeLen keyLen 0 + pgnoSz + indxSz := by
  unfold nodeSizeLen evenCeil evenFloor nodeHdrSz indxSz pgnoSz
  omega

theorem branchBytes_eq (keyLen : Nat) :
    evenCeil (nodeHdrSz + keyLen + indxSz) = branchSize keyLen := by
  unfold branchSize nodeSizeLen evenCeil evenFloor nodeHdrSz indxSz
  omega

theorem branchSize_even (keyLen : Nat) : branchSize keyLen % 2 = 0 := by
  unfold branchSize nodeSizeLen evenCeil evenFloor nodeHdrSz indxSz
  omega

theorem leafSize_even (env : PageSize) (keyLen dataLen : Nat) :
    env.leafSize keyLen dataLen % 2 = 0 := by
  unfold leafSize nodeSizeLen evenCeil evenFloor nodeHdrSz indxSz pgnoSz
  dsimp only
  split
  · omega
  · omega

theorem leafSize_le (env : PageSize) {keyLen : Nat} (dataLen : Nat)
    (hkey : nodeSizeLen keyLen 0 ≤ env.branchNodeMax) :
    env.leafSize keyLen dataLen ≤ env.leafNodeMax + indxSz := by
  have hlimits := env.branch_le_leaf
  unfold leafSize
  dsimp only
  split
  · omega
  · omega

/-- A key of a byte at least makes the node two bytes larger than the header with the entry. -/
theorem nodeBytes_bounds (hkind : mp.kind ≠ .dupfixLeaf) (x : Entry) :
    mp.nodeBytes x % 2 = 0 ∧ 10 ≤ mp.nodeBytes x ∧ (x.key ≠ [] → 12 ≤ mp.nodeBytes x) := by
  have hlen : x.key ≠ [] → 0 < x.key.length := List.length_pos_iff.mpr
  unfold Page.nodeBytes
  cases hk : mp.kind with
  | leaf =>
    dsimp only
    rw [leafBytes_eq]
    unfold nodeSizeLen evenCeil evenFloor nodeHdrSz indxSz
    refine ⟨by omega, by omega, fun hne => ?_⟩
    have := hlen hne
    omega
  | branch =>
    dsimp only
    rw [branchBytes_eq]
    unfold branchSize nodeSizeLen evenCeil evenFloor nodeHdrSz indxSz
    refine ⟨by omega, by omega, fun hne => ?_⟩
    have := hlen hne
    omega
  | dupfixLeaf => exact absurd hk hkind

theorem Admissible.nodeBytes_le (h : Admissible env mp) {x : Entry} (hx : x ∈ mp.nodes) :
    (mp.kind = .leaf → mp.nodeBytes x ≤ env.leafNodeMax + indxSz) ∧
    (mp.kind = .branch → mp.nodeBytes x ≤ env.branchNodeMax + indxSz) := by
  constructor
  · intro hkind
    have hkey := h.keys (by rw [hkind]; decide) x hx
    unfold Page.nodeBytes
    rw [hkind]
    dsimp only
    cases hbig : x.big with
    | true =>
      have hlimits := env.branch_le_leaf
      rw [if_pos rfl, bigBytes_eq]
      omega
    | false =>
      have hdata := h.data hkind x hx hbig
      rw [if_neg Bool.false_ne_true, leafBytes_eq]
      omega
  · intro hkind
    have hkey := h.keys (by rw [hkind]; decide) x hx
    unfold Page.nodeBytes
    rw [hkind]
    dsimp only
    rw [branchBytes_eq]
    unfold branchSize
    omega

theorem Overflows.newSize_bounds (h : Overflows env mp newindx new)
    (hkind : mp.kind ≠ .dupfixLeaf) :
    newSize env mp new % 2 = 0 ∧ 0 < newSize env mp new ∧
    (mp.kind = .leaf → newSize env mp new ≤ env.leafNodeMax + indxSz) ∧
    (mp.kind = .branch → newSize env mp new ≤ env.branchNodeMax + indxSz) := by
  have hkey := h.small hkind
  unfold newSize
  cases hk : mp.kind with
  | leaf =>
    dsimp only
    refine ⟨leafSize_even _ _ _, ?_, fun _ => leafSize_le _ _ hkey, nofun⟩
    exact Nat.lt_of_lt_of_le (by decide) (Nat.le_add_left indxSz _)
  | branch =>
    dsimp only
    refine ⟨branchSize_even _, ?_, nofun, fun _ => ?_⟩
    · unfold branchSize indxSz
      omega
    · unfold branchSize
      omega
  | dupfixLeaf => exact absurd hk hkind

/-! ## 3. The nodes with the new one -/

theorem sizesWithNew_sum (env : Env) (mp : Page) (newindx : Nat) (new : Entry) :
    (sizesWithNew env mp newindx new).sum = newSize env mp new + mp.used := by
  have hsplit := take_add_drop (mp.nodes.map mp.nodeBytes) newindx
  unfold sizesWithNew Page.used
  rw [List.sum_append, List.sum_cons]
  omega

theorem sizesWithNew_length (env : Env) (new : Entry) (h : newindx ≤ mp.numkeys) :
    (sizesWithNew env mp newindx new).length = mp.numkeys + 1 := by
  unfold Page.numkeys at *
  unfold sizesWithNew
  rw [List.length_append, List.length_cons, List.length_take, List.length_drop, List.length_map]
  omega

theorem mem_sizesWithNew {a : Nat} (ha : a ∈ sizesWithNew env mp newindx new) :
    a = newSize env mp new ∨ ∃ x ∈ mp.nodes, mp.nodeBytes x = a := by
  unfold sizesWithNew at ha
  rcases List.mem_append.mp ha with hin | hin
  · exact .inr (List.mem_map.mp (List.mem_of_mem_take hin))
  · rcases List.mem_cons.mp hin with heq | hin
    · exact .inl heq
    · exact .inr (List.mem_map.mp (List.mem_of_mem_drop hin))

/-- The limit of the sizes of a page. -/
def sizeLimit (env : Env) (mp : Page) : Nat :=
  if mp.kind = .branch then env.branchNodeMax + indxSz else env.leafNodeMax + indxSz

theorem Overflows.size_le (h : Overflows env mp newindx new) (hkind : mp.kind ≠ .dupfixLeaf)
    {a : Nat} (ha : a ∈ sizesWithNew env mp newindx new) : a ≤ sizeLimit env mp := by
  have hnew := (h.newSize_bounds hkind).2.2
  unfold sizeLimit
  rcases mem_sizesWithNew ha with rfl | ⟨x, hx, rfl⟩
  · split
    · exact hnew.2 ‹_›
    · cases hk : mp.kind with
      | leaf => exact hnew.1 hk
      | branch => exact absurd hk ‹_›
      | dupfixLeaf => exact absurd hk hkind
  · split
    · exact (h.page.nodeBytes_le hx).2 ‹_›
    · cases hk : mp.kind with
      | leaf => exact (h.page.nodeBytes_le hx).1 hk
      | branch => exact absurd hk ‹_›
      | dupfixLeaf => exact absurd hk hkind

theorem two_le_space (env : Env) (mp : Page) : 2 * sizeLimit env mp ≤ env.space := by
  have hleaf := env.two_leaf_nodes
  have hbranch := env.three_branch_nodes
  unfold sizeLimit
  split
  · omega
  · omega

theorem Overflows.over (h : Overflows env mp newindx new) :
    env.space < (sizesWithNew env mp newindx new).sum := by
  have hroom := h.room
  have hfits := h.page.fits
  rw [sizesWithNew_sum]
  unfold Page.room at hroom
  omega

theorem sum_le_mul {l : List Nat} {n : Nat} (h : ∀ a ∈ l, a ≤ n) : l.sum ≤ l.length * n := by
  exact List.sum_le_card_nsmul l n h

end Mdbx.Split
