import Mathlib.Data.List.Basic
import Mathlib.Logic.Function.Basic

/-!
# Lib.Chains — hash buckets as chains through an array

Items are numbered in the order of their arrival; each bucket has the number of its last item, and
`next` leads from an item to the one that came before it in its bucket.
-/

namespace Mdbx

/-- The chain that begins at `cur` runs through the items of the list. -/
inductive Linked (next : Nat → Option Nat) : Option Nat → List Nat → Prop
  | nil : Linked next none []
  | cons {j : Nat} {l : List Nat} (tail : Linked next (next j) l) : Linked next (some j) (j :: l)

/-- The first item of a chain with a property; `fuel` bounds the length of the walk. -/
def chainFind (p : Nat → Bool) (next : Nat → Option Nat) : Nat → Option Nat → Option Nat
  | _, none => none
  | 0, some _ => none
  | fuel + 1, some j => if p j then some j else chainFind p next fuel (next j)

theorem Linked.chainFind_eq {next : Nat → Option Nat} {cur : Option Nat} {l : List Nat}
    (p : Nat → Bool) (h : Linked next cur l) {fuel : Nat} (hf : l.length ≤ fuel) :
    chainFind p next fuel cur = l.find? p := by
  induction h generalizing fuel with
  | nil => cases fuel <;> rfl
  | @cons j l tail ih =>
    cases fuel with
    | zero => exact absurd hf (by simp)
    | succ fuel =>
      rw [chainFind, List.find?_cons]
      cases p j with
      | true => rfl
      | false => exact ih (by simpa using hf)

/-- A new link does not disturb the chains that do not run through its item. -/
theorem Linked.update {next : Nat → Option Nat} {cur : Option Nat} {l : List Nat} {m : Nat}
    (v : Option Nat) (h : Linked next cur l) (hm : m ∉ l) :
    Linked (Function.update next m v) cur l := by
  induction h with
  | nil => exact .nil
  | @cons j l tail ih =>
    have hjm : j ≠ m := fun heq => hm (by rw [heq]; exact List.mem_cons_self)
    apply Linked.cons
    rw [Function.update_of_ne hjm]
    exact ih fun hin => hm (List.mem_cons_of_mem _ hin)

/-- The items of a bucket, the last one first. -/
def inBucket (bucketOf : Nat → Nat) (n b : Nat) : List Nat :=
  ((List.range n).filter fun j => bucketOf j = b).reverse

theorem mem_inBucket {bucketOf : Nat → Nat} {n b j : Nat} :
    j ∈ inBucket bucketOf n b ↔ j < n ∧ bucketOf j = b := by
  simp [inBucket]

theorem inBucket_succ (bucketOf : Nat → Nat) (n b : Nat) :
    inBucket bucketOf (n + 1) b =
      if bucketOf n = b then n :: inBucket bucketOf n b else inBucket bucketOf n b := by
  unfold inBucket
  rw [List.range_succ, List.filter_append, List.reverse_append]
  by_cases h : bucketOf n = b
  · simp [h]
  · simp [h]

theorem length_inBucket (bucketOf : Nat → Nat) (n b : Nat) :
    (inBucket bucketOf n b).length ≤ n := by
  unfold inBucket
  rw [List.length_reverse]
  calc ((List.range n).filter fun j => bucketOf j = b).length ≤ (List.range n).length :=
        List.length_filter_le _ _
    _ = n := List.length_range

/-- Every bucket is the chain of the items that fall into it. -/
def Chained (bucketOf : Nat → Nat) (heads next : Nat → Option Nat) (n : Nat) : Prop :=
  ∀ b, Linked next (heads b) (inBucket bucketOf n b)

theorem Chained.empty (bucketOf : Nat → Nat) : Chained bucketOf (fun _ => none) (fun _ => none) 0 :=
  fun _ => .nil

theorem Chained.congr {bucketOf bucketOf' : Nat → Nat} {heads next : Nat → Option Nat} {n : Nat}
    (h : Chained bucketOf heads next n) (heq : ∀ j < n, bucketOf' j = bucketOf j) :
    Chained bucketOf' heads next n := by
  intro b
  have hsame : inBucket bucketOf' n b = inBucket bucketOf n b := by
    unfold inBucket
    congr 1
    apply List.filter_congr
    intro j hj
    rw [heq j (List.mem_range.mp hj)]
  rw [hsame]
  exact h b

theorem Chained.push {bucketOf : Nat → Nat} {heads next : Nat → Option Nat} {n : Nat}
    (h : Chained bucketOf heads next n) :
    Chained bucketOf (Function.update heads (bucketOf n) (some n))
      (Function.update next n (heads (bucketOf n))) (n + 1) := by
  intro b
  have hnew : n ∉ inBucket bucketOf n b := by
    rw [mem_inBucket]
    omega
  rw [inBucket_succ]
  by_cases hb : bucketOf n = b
  · rw [if_pos hb, hb, Function.update_self]
    apply Linked.cons
    rw [Function.update_self]
    exact (h b).update _ hnew
  · rw [if_neg hb, Function.update_of_ne fun heq => hb heq.symm]
    exact (h b).update _ hnew

/-- The walk finds an item exactly when the bucket has one. -/
theorem Chained.find_some {bucketOf : Nat → Nat} {heads next : Nat → Option Nat} {n b j : Nat}
    {p : Nat → Bool} (h : Chained bucketOf heads next n)
    (hf : chainFind p next n (heads b) = some j) : j < n ∧ bucketOf j = b ∧ p j = true := by
  rw [(h b).chainFind_eq p (length_inBucket _ _ _)] at hf
  obtain ⟨hlt, hb⟩ := mem_inBucket.mp (List.mem_of_find?_eq_some hf)
  exact ⟨hlt, hb, List.find?_some hf⟩

theorem Chained.find_none {bucketOf : Nat → Nat} {heads next : Nat → Option Nat} {n b : Nat}
    {p : Nat → Bool} (h : Chained bucketOf heads next n)
    (hf : chainFind p next n (heads b) = none) {j : Nat} (hj : j < n) (hb : bucketOf j = b) :
    p j = false := by
  rw [(h b).chainFind_eq p (length_inBucket _ _ _)] at hf
  have hno := List.find?_eq_none.mp hf j (mem_inBucket.mpr ⟨hj, hb⟩)
  simpa using hno

end Mdbx
