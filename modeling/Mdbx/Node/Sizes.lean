import Mathlib.Algebra.Order.Ring.Nat
import Mathlib.Tactic.Ring

/-!
# Node.Sizes — how many bytes the nodes of a page take

The limits that the page size puts on nodes, and the sizes of nodes with the entries that point to
them.
-/

namespace Mdbx.Node

/-- `PAGEHDRSZ` -/
def pageHdrSz : Nat := 20
/-- `NODESIZE` -/
def nodeHdrSz : Nat := 8
/-- `sizeof(indx_t)` -/
def indxSz : Nat := 2
/-- `sizeof(pgno_t)` -/
def pgnoSz : Nat := 4

def evenFloor (n : Nat) : Nat := n - n % 2

def evenCeil (n : Nat) : Nat := evenFloor (n + 1)

/-- `node_size_len` -/
def nodeSizeLen (keyLen valueLen : Nat) : Nat := nodeHdrSz + evenCeil (keyLen + valueLen)

/-- The size of pages, a power of two from `MDBX_MIN_PAGESIZE` to `MDBX_MAX_PAGESIZE`. -/
structure PageSize where
  ps2ln : Nat
  sized : 8 ≤ ps2ln ∧ ps2ln ≤ 16

namespace PageSize

variable (env : PageSize)

def ps : Nat := 2 ^ env.ps2ln

/-- `page_space` -/
def space : Nat := env.ps - pageHdrSz

/-- `BRANCH_NODE_MAX` -/
def branchNodeMax : Nat := evenFloor ((env.space - indxSz - nodeHdrSz) / (3 - 1) - indxSz)

/-- `LEAF_NODE_MAX` -/
def leafNodeMax : Nat := evenFloor (env.space / 2) - indxSz

/-- `leaf_size`; what is too long goes to a large page. -/
def leafSize (keyLen dataLen : Nat) : Nat :=
  let nodeBytes := nodeSizeLen keyLen dataLen
  (if env.leafNodeMax < nodeBytes then nodeSizeLen keyLen 0 + pgnoSz else nodeBytes) + indxSz

/-- `branch_size`, for the keys that it does not panic for -/
def branchSize (keyLen : Nat) : Nat := nodeSizeLen keyLen 0 + indxSz

end PageSize

/-! ## The limits -/

theorem evenCeil_even (n : Nat) : evenCeil n % 2 = 0 := by
  unfold evenCeil evenFloor
  omega

theorem evenCeil_bounds (n : Nat) : n ≤ evenCeil n ∧ evenCeil n ≤ n + 1 := by
  unfold evenCeil evenFloor
  omega

theorem evenCeil_mono {m n : Nat} (h : m ≤ n) : evenCeil m ≤ evenCeil n := by
  unfold evenCeil evenFloor
  omega

namespace PageSize

variable (env : PageSize)

theorem ps_bounds : 256 ≤ env.ps ∧ env.ps ≤ 65536 ∧ env.ps % 256 = 0 := by
  obtain ⟨hlo, hhi⟩ := env.sized
  have hsplit : env.ps = 256 * 2 ^ (env.ps2ln - 8) := by
    unfold ps
    have hexp : env.ps2ln = 8 + (env.ps2ln - 8) := by omega
    rw [hexp, Nat.pow_add]
    norm_num
  have hpos : 1 ≤ 2 ^ (env.ps2ln - 8) := Nat.one_le_two_pow
  have hle : env.ps ≤ 2 ^ 16 := Nat.pow_le_pow_right (by omega) hhi
  omega

theorem space_eq : env.space + 20 = env.ps := by
  have h := env.ps_bounds
  unfold space pageHdrSz
  omega

/-- Two leaf nodes with their entries fit in a page. -/
theorem two_leaf_nodes : 2 * (env.leafNodeMax + indxSz) ≤ env.space := by
  have h := env.ps_bounds
  have hs := env.space_eq
  unfold leafNodeMax indxSz evenFloor
  omega

/-- The first node of a branch page, which has no key, and two others fit in it. -/
theorem three_branch_nodes : branchSize 0 + 2 * (env.branchNodeMax + indxSz) ≤ env.space := by
  have h := env.ps_bounds
  have hs := env.space_eq
  have hzero : branchSize 0 = 10 := rfl
  rw [hzero]
  unfold branchNodeMax indxSz nodeHdrSz evenFloor
  omega

/-- A node with a key for a branch page and the number of a large page fits where leaf nodes do. -/
theorem branch_le_leaf : env.branchNodeMax + pgnoSz ≤ env.leafNodeMax := by
  have h := env.ps_bounds
  have hs := env.space_eq
  unfold branchNodeMax leafNodeMax indxSz nodeHdrSz pgnoSz evenFloor
  omega

end PageSize

end Mdbx.Node
