import Mathlib.Data.List.Perm.Basic
import Mathlib.Data.Nat.Basic
import Mathlib.Order.Basic

/-!
# Lib.StableSort — sorting by digits

A list is a stable sort of another when its keys are in order and, for each key, the items with it
are the same in the same order.  Putting the items into buckets by their next digit, in order,
refines a stable sort by the digits before it.
-/

namespace Mdbx.StableSort

variable {α : Type*}

/-- The list `l` is the stable sort of `l₀` by the key. -/
structure StableSorted (key : α → Nat) (l₀ l : List α) : Prop where
  sorted : l.Pairwise fun u v => key u ≤ key v
  same : ∀ k, l.filter (key · = k) = l₀.filter (key · = k)

namespace StableSorted

variable {key : α → Nat} {l₀ l l' : List α}

theorem perm (h : StableSorted key l₀ l) : l.Perm l₀ := by
  classical
  refine List.perm_iff_count.mpr fun a => ?_
  have hcount : ∀ m : List α, m.count a = (m.filter (key · = key a)).count a :=
    fun m => (List.count_filter (p := (key · = key a)) (decide_eq_true rfl)).symm
  rw [hcount l, hcount l₀, h.same]

-- all keys are the same
theorem of_constant (key : α → Nat) (l : List α) (h : ∀ u ∈ l, ∀ v ∈ l, key u = key v) : StableSorted key l l :=
  ⟨List.pairwise_of_forall_mem_list fun u hu v hv => (h u hu v hv).le, fun _ => rfl⟩

/-- By a coarser key, where the rest of the finer one is the same for all. -/
theorem of_mod {m : Nat} (h : StableSorted (fun v => key v % m) l₀ l)
    (hhigh : ∀ u ∈ l₀, ∀ v ∈ l₀, key u / m = key v / m) : StableSorted key l₀ l := by
  refine ⟨h.sorted.imp_of_mem fun {u v} hu hv huv => ?_, fun k => ?_⟩
  · rw [← Nat.div_add_mod (key u) m, ← Nat.div_add_mod (key v) m,
      hhigh u (h.perm.mem_iff.mp hu) v (h.perm.mem_iff.mp hv)]
    exact Nat.add_le_add_left huv _
  · have hfiner : ∀ l : List α, l.filter (key · = k) =
        (l.filter fun v => key v % m = k % m).filter (key · = k) := by
      intro l
      rw [List.filter_filter]
      refine List.filter_congr fun v _ => ?_
      by_cases hk : key v = k
      · rw [hk, decide_eq_true rfl, decide_eq_true rfl]
        rfl
      · rw [decide_eq_false hk]
        rfl
    rw [hfiner l, hfiner l₀, h.same]

/-- With distinct keys a sort is the stable one. -/
theorem of_nodup (hperm : l.Perm l₀) (hsorted : l.Pairwise fun u v => key u ≤ key v)
    (hnodup : l₀.Pairwise fun u v => key u ≠ key v) : StableSorted key l₀ l := by
  refine ⟨hsorted, fun k => ?_⟩
  have hfilter := hperm.filter (key · = k)
  have hshort : (l₀.filter (key · = k)).length ≤ 1 := by
    have hne := hnodup.filter (key · = k)
    have hall : ∀ v ∈ l₀.filter (key · = k), key v = k := fun v hv =>
      of_decide_eq_true (List.mem_filter.mp hv).2
    generalize l₀.filter (key · = k) = m at hne hall
    match m with
    | [] => exact Nat.zero_le 1
    | [_] => exact Nat.le_refl 1
    | u :: v :: m =>
      refine absurd ?_ ((List.pairwise_cons.mp hne).1 v List.mem_cons_self)
      rw [hall u List.mem_cons_self, hall v (List.mem_cons_of_mem u List.mem_cons_self)]
  generalize l₀.filter (key · = k) = m at hfilter hshort
  match m with
  | [] => exact hfilter.eq_nil
  | [v] => exact hfilter.eq_singleton
  | u :: v :: m => exact absurd hshort (by rw [List.length_cons, List.length_cons]; omega)

end StableSorted

/-! ## 1. Buckets -/

/-- The buckets of the first `b` digits, one after another. -/
def buckets (digit : α → Nat) (l : List α) (b : Nat) : List α :=
  (List.range b).flatMap fun d => l.filter (digit · = d)

section Buckets

variable {digit : α → Nat} {l l₀ : List α} {b : Nat}

theorem buckets_zero (digit : α → Nat) (l : List α) : buckets digit l 0 = [] := rfl

theorem buckets_succ (digit : α → Nat) (l : List α) (b : Nat) :
    buckets digit l (b + 1) = buckets digit l b ++ l.filter (digit · = b) := by
  unfold buckets
  rw [List.range_succ, List.flatMap_append, List.flatMap_singleton]

theorem length_buckets_le (digit : α → Nat) (l : List α) {a : Nat} (h : a ≤ b) :
    (buckets digit l a).length ≤ (buckets digit l b).length := by
  induction h with
  | refl => exact Nat.le_refl _
  | step _ ih =>
    rw [buckets_succ, List.length_append]
    omega

theorem mem_buckets {v : α} : v ∈ buckets digit l b ↔ v ∈ l ∧ digit v < b := by
  unfold buckets
  simp only [List.mem_flatMap, List.mem_range, List.mem_filter, decide_eq_true_eq]
  constructor
  · rintro ⟨d, hd, hv, rfl⟩
    exact ⟨hv, hd⟩
  · rintro ⟨hv, hd⟩
    exact ⟨digit v, hd, hv, rfl⟩

-- a filter by the digit and something else goes to one bucket
theorem filter_buckets (p : α → Bool) {d : Nat} (hd : d < b) (hp : ∀ v, p v = true → digit v = d) :
    (buckets digit l b).filter p = l.filter p := by
  induction b with
  | zero => omega
  | succ b ih =>
    rw [buckets_succ, List.filter_append, List.filter_filter]
    by_cases heq : b = d
    · have hnone : (buckets digit l b).filter p = [] := by
        refine List.filter_eq_nil_iff.mpr fun v hv hpv => ?_
        have hlt := (mem_buckets.mp hv).2
        rw [hp v hpv] at hlt
        omega
      rw [hnone, List.nil_append]
      refine List.filter_congr fun v _ => ?_
      cases hpv : p v with
      | false => rfl
      | true =>
        rw [decide_eq_true ((hp v hpv).trans heq.symm)]
        rfl
    · have hnone : l.filter (fun v => p v && decide (digit v = b)) = [] := by
        refine List.filter_eq_nil_iff.mpr fun v _ hpv => ?_
        rw [Bool.and_eq_true, decide_eq_true_eq] at hpv
        exact heq (hpv.2.symm.trans (hp v hpv.1))
      rw [hnone, List.append_nil, ih (by omega)]

/-- The digits after those that are sorted by already. -/
theorem StableSorted.buckets {low : α → Nat} {w : Nat} (h : StableSorted low l₀ l)
    (hlow : ∀ v, low v < w) (hdigit : ∀ v, digit v < b) :
    StableSorted (fun v => digit v * w + low v) l₀ (buckets digit l b) := by
  have hpos : ∀ {u v : α}, digit u < digit v → digit u * w + low u < digit v * w + low v := by
    intro u v huv
    have hle := Nat.mul_le_mul_right w (Nat.succ_le_of_lt huv)
    rw [Nat.succ_mul] at hle
    have hu := hlow u
    omega
  refine ⟨?_, fun k => ?_⟩
  · clear hdigit
    induction b with
    | zero => exact List.Pairwise.nil
    | succ b ih =>
      rw [buckets_succ, List.pairwise_append]
      refine ⟨ih, ?_, fun u hu v hv => ?_⟩
      · refine (h.sorted.filter (digit · = b)).imp_of_mem fun {u v} hu hv huv => ?_
        rw [of_decide_eq_true (List.mem_filter.mp hu).2, of_decide_eq_true (List.mem_filter.mp hv).2]
        exact Nat.add_le_add_left huv _
      · have hv' : digit v = b := of_decide_eq_true (List.mem_filter.mp hv).2
        exact (hpos (by rw [hv']; exact (mem_buckets.mp hu).2)).le
  · -- the parts of a key are its quotient and its remainder
    have hparts : ∀ v, digit v * w + low v = k ↔ digit v = k / w ∧ low v = k % w := by
      intro v
      have hw : 0 < w := Nat.lt_of_le_of_lt (Nat.zero_le _) (hlow v)
      constructor
      · rintro rfl
        rw [Nat.mul_comm, Nat.mul_add_div hw, Nat.div_eq_of_lt (hlow v), Nat.mul_add_mod,
          Nat.mod_eq_of_lt (hlow v)]
        exact ⟨rfl, rfl⟩
      · rintro ⟨hd, hl⟩
        rw [hd, hl, Nat.mul_comm]
        exact Nat.div_add_mod k w
    by_cases hk : k / w < b
    · rw [filter_buckets _ hk fun v hv => ((hparts v).mp (of_decide_eq_true hv)).1]
      have hboth : ∀ m : List α, m.filter (fun v => digit v * w + low v = k) =
          (m.filter (low · = k % w)).filter (digit · = k / w) := by
        intro m
        rw [List.filter_filter]
        refine List.filter_congr fun v _ => ?_
        rw [← Bool.decide_and, decide_eq_decide]
        exact hparts v
      rw [hboth l, hboth l₀, h.same]
    · have hnone : ∀ m : List α, m.filter (fun v => digit v * w + low v = k) = [] := by
        refine fun m => List.filter_eq_nil_iff.mpr fun v _ hv => ?_
        have hd := hdigit v
        rw [((hparts v).mp (of_decide_eq_true hv)).1] at hd
        exact hk hd
      rw [hnone, hnone]

end Buckets

end Mdbx.StableSort
