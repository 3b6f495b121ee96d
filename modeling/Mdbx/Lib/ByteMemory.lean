import Mathlib.Data.List.GetD
import Mathlib.Algebra.Order.Ring.Nat
import Mathlib.Tactic.Ring

/-!
# Byte memory — loads, stores and moves of bytes

A memory is a total function from addresses to bytes.  Words are little-endian.  What an access finds
depends on the bytes of its own range only, so that a store that lies apart from it is not seen.
-/

namespace ByteMemory

abbrev Mem := Nat → UInt8

variable {m m' : Mem} {a b n k : Nat} {bs : List UInt8}

/-- The bytes from `a` on. -/
def bytes (m : Mem) (a n : Nat) : List UInt8 := (List.range n).map fun i => m (a + i)

/-- memcpy of the bytes of a list. -/
def copy (m : Mem) (a : Nat) (bs : List UInt8) : Mem :=
  fun j => if a ≤ j ∧ j < a + bs.length then bs.getD (j - a) 0 else m j

/-- `memmove` -/
def move (m : Mem) (dst src n : Nat) : Mem :=
  fun j => if dst ≤ j ∧ j < dst + n then m (src + (j - dst)) else m j

def ofBytes : List UInt8 → Nat
  | [] => 0
  | b :: bs => b.toNat + 256 * ofBytes bs

def toBytes : Nat → Nat → List UInt8
  | 0, _ => []
  | n + 1, v => UInt8.ofNat v :: toBytes n (v / 256)

/-- The load of a word of `n` bytes. -/
def peek (m : Mem) (a n : Nat) : Nat := ofBytes (bytes m a n)

/-- The store of a word of `n` bytes, which drops what is above them. -/
def poke (m : Mem) (a n v : Nat) : Mem := copy m a (toBytes n v)

/-! ## 1. Words -/

@[simp] theorem length_toBytes (n v : Nat) : (toBytes n v).length = n := by
  induction n generalizing v with
  | zero => rfl
  | succ n ih => rw [toBytes, List.length_cons, ih]

theorem ofBytes_toBytes (n v : Nat) : ofBytes (toBytes n v) = v % 256 ^ n := by
  induction n generalizing v with
  | zero => rw [toBytes, ofBytes, Nat.pow_zero, Nat.mod_one]
  | succ n ih =>
    have hpow : 256 ^ (n + 1) = 256 * 256 ^ n := by rw [Nat.pow_succ, Nat.mul_comm]
    rw [toBytes, ofBytes, ih, UInt8.toNat_ofNat', hpow, Nat.mod_mul]

theorem ofBytes_lt (bs : List UInt8) : ofBytes bs < 256 ^ bs.length := by
  induction bs with
  | nil => exact Nat.one_pos
  | cons b bs ih =>
    have hb := b.toNat_lt
    rw [ofBytes, List.length_cons, Nat.pow_succ]
    omega

/-! ## 2. What lies where -/

@[simp] theorem length_bytes (m : Mem) (a n : Nat) : (bytes m a n).length = n := by
  rw [bytes, List.length_map, List.length_range]

theorem getElem_bytes {i : Nat} (h : i < (bytes m a n).length) : (bytes m a n)[i] = m (a + i) := by
  simp only [bytes, List.getElem_map, List.getElem_range]

/-- The `n` bytes from `b` on in `m'` are those from `a` on in `m`. -/
def Agree (m m' : Mem) (a b n : Nat) : Prop := ∀ i < n, m' (b + i) = m (a + i)

theorem Agree.bytes (h : Agree m m' a b n) : bytes m' b n = bytes m a n :=
  List.map_congr_left fun i hi => h i (List.mem_range.mp hi)

theorem Agree.part (h : Agree m m' a b n) {d : Nat} (hd : d + k ≤ n) :
    Agree m m' (a + d) (b + d) k := by
  intro i hi
  rw [Nat.add_assoc, Nat.add_assoc]
  exact h (d + i) (by omega)

theorem Agree.mono (h : Agree m m' a b n) (hk : k ≤ n) : Agree m m' a b k :=
  fun i hi => h i (by omega)

theorem Agree.peek (h : Agree m m' a b n) : peek m' b n = peek m a n := congrArg ofBytes h.bytes

theorem peek_lt (m : Mem) (a n : Nat) : peek m a n < 256 ^ n := by
  have h := ofBytes_lt (bytes m a n)
  rwa [length_bytes] at h

/-! ## 3. Stores -/

theorem copy_outside {j : Nat} (h : j < a ∨ a + bs.length ≤ j) : copy m a bs j = m j :=
  if_neg (by omega)

theorem copy_agree (h : b + n ≤ a ∨ a + bs.length ≤ b) : Agree m (copy m a bs) b b n :=
  fun i hi => copy_outside (by omega)

theorem bytes_copy (m : Mem) (a : Nat) (bs : List UInt8) : bytes (copy m a bs) a bs.length = bs := by
  apply List.ext_getElem (length_bytes _ _ _)
  intro i h₁ h₂
  rw [getElem_bytes]
  unfold copy
  rw [if_pos (by omega), Nat.add_sub_cancel_left, List.getD_eq_getElem _ _ h₂]

theorem poke_outside {v j : Nat} (h : j < a ∨ a + n ≤ j) : poke m a n v j = m j :=
  copy_outside (by rwa [length_toBytes])

theorem poke_agree {v : Nat} (h : b + k ≤ a ∨ a + n ≤ b) : Agree m (poke m a n v) b b k :=
  copy_agree (by rwa [length_toBytes])

theorem peek_poke (m : Mem) (a n v : Nat) : peek (poke m a n v) a n = v % 256 ^ n := by
  have h := bytes_copy m a (toBytes n v)
  rw [length_toBytes] at h
  unfold peek poke
  rw [h, ofBytes_toBytes]

theorem peek_poke_apart {v : Nat} (h : b + k ≤ a ∨ a + n ≤ b) :
    peek (poke m a n v) b k = peek m b k := (poke_agree h).peek

theorem peek_copy_apart (h : b + k ≤ a ∨ a + bs.length ≤ b) :
    peek (copy m a bs) b k = peek m b k := (copy_agree h).peek

theorem move_outside {dst src j : Nat} (h : j < dst ∨ dst + n ≤ j) : move m dst src n j = m j :=
  if_neg (by omega)

theorem move_agree (m : Mem) (dst src : Nat) {d : Nat} (h : d + k ≤ n) :
    Agree m (move m dst src n) (src + d) (dst + d) k := by
  intro i hi
  unfold move
  rw [if_pos (by omega)]
  congr 1
  omega

end ByteMemory
