import Mathlib

/-!
# Lib.SortedMap — maps as lists in the order of their keys

A map from a linear order is the list of its pairs, with increasing keys.  What is put under a key
takes the place of what was there.
-/

namespace Mdbx.SortedMap

variable {K α : Type} [LinearOrder K]

/-! ## 1. Definitions -/

def get? (k : K) : List (K × α) → Option α
  | [] => none
  | (j, a) :: l => if j = k then some a else get? k l

def put (k : K) (a : α) : List (K × α) → List (K × α)
  | [] => [(k, a)]
  | (j, b) :: l =>
    if k < j then (k, a) :: (j, b) :: l
    else if j = k then (k, a) :: l
    else (j, b) :: put k a l

def erase (k : K) : List (K × α) → List (K × α)
  | [] => []
  | (j, b) :: l => if j = k then l else (j, b) :: erase k l

def Sorted (l : List (K × α)) : Prop := l.Pairwise fun p q => p.1 < q.1

/-! ## 2. What is under a key -/

theorem get?_of_lt {k : K} {l : List (K × α)} (h : ∀ p ∈ l, k < p.1) : get? k l = none := by
  induction l with
  | nil => rfl
  | cons p l ih =>
    have hne : p.1 ≠ k := ne_of_gt (h p List.mem_cons_self)
    unfold get?
    rw [if_neg hne]
    exact ih fun q hq => h q (List.mem_cons_of_mem p hq)

theorem mem_iff_get? {l : List (K × α)} (hs : Sorted l) {k : K} {a : α} :
    (k, a) ∈ l ↔ get? k l = some a := by
  induction l with
  | nil => exact ⟨fun h => absurd h List.not_mem_nil, fun h => nomatch h⟩
  | cons p l ih =>
    have ⟨hlt, hrest⟩ := List.pairwise_cons.mp hs
    unfold get?
    by_cases hk : p.1 = k
    · rw [if_pos hk, List.mem_cons]
      have hout : (k, a) ∉ l := fun h => absurd (hlt (k, a) h) (hk ▸ lt_irrefl p.1)
      refine ⟨fun h => ?_, fun h => ?_⟩
      · exact (h.resolve_right hout) ▸ rfl
      · exact Or.inl (Prod.ext hk.symm (Option.some.inj h).symm)
    · rw [if_neg hk, ← ih hrest, List.mem_cons]
      exact or_iff_right fun h => hk (h ▸ rfl)

theorem get?_put_self (k : K) (a : α) (l : List (K × α)) : get? k (put k a l) = some a := by
  induction l with
  | nil => exact if_pos rfl
  | cons p l ih =>
    unfold put
    split_ifs with hlt heq
    · exact if_pos rfl
    · exact if_pos rfl
    · unfold get?
      rw [if_neg heq]
      exact ih

theorem get?_put_ne {k j : K} (h : j ≠ k) (a : α) (l : List (K × α)) :
    get? j (put k a l) = get? j l := by
  induction l with
  | nil => exact if_neg h.symm
  | cons p l ih =>
    unfold put
    split_ifs with hlt heq
    · exact if_neg h.symm
    · unfold get?
      rw [if_neg h.symm, if_neg (heq ▸ h.symm)]
    · unfold get?
      rw [ih]

theorem put_get? {l : List (K × α)} (hs : Sorted l) {k : K} {a : α} (h : get? k l = some a) :
    put k a l = l := by
  induction l with
  | nil => exact nomatch h
  | cons p l ih =>
    have ⟨hlt, hrest⟩ := List.pairwise_cons.mp hs
    unfold get? at h
    unfold put
    split_ifs at h with heq
    · rw [if_neg (heq ▸ lt_irrefl p.1), if_pos heq, ← Option.some.inj h, ← heq]
    · have hmem : (k, a) ∈ l := (mem_iff_get? hrest).mpr h
      rw [if_neg (not_lt_of_gt (hlt (k, a) hmem)), if_neg heq, ih hrest h]

/-! ## 3. Order -/

theorem mem_put {k : K} {a : α} {l : List (K × α)} {p : K × α} (h : p ∈ put k a l) :
    p = (k, a) ∨ p ∈ l := by
  induction l with
  | nil => exact Or.inl (List.mem_singleton.mp h)
  | cons q l ih =>
    unfold put at h
    split_ifs at h with hlt heq
    · exact List.mem_cons.mp h
    · exact (List.mem_cons.mp h).imp_right (List.mem_cons_of_mem q)
    · cases List.mem_cons.mp h with
      | inl hq => exact Or.inr (List.mem_cons.mpr (Or.inl hq))
      | inr hq => exact (ih hq).imp_right (List.mem_cons_of_mem q)

theorem Sorted.put {l : List (K × α)} (hs : Sorted l) (k : K) (a : α) :
    Sorted (put k a l) := by
  induction l with
  | nil => exact List.pairwise_singleton _ _
  | cons p l ih =>
    have ⟨hlt, hrest⟩ := List.pairwise_cons.mp hs
    unfold SortedMap.put
    split_ifs with hk heq
    · apply List.pairwise_cons.mpr ⟨fun q hq => ?_, hs⟩
      cases List.mem_cons.mp hq with
      | inl h => exact h ▸ hk
      | inr h => exact hk.trans (hlt q h)
    · exact List.pairwise_cons.mpr ⟨fun q hq => heq ▸ hlt q hq, hrest⟩
    · apply List.pairwise_cons.mpr ⟨fun q hq => ?_, ih hrest⟩
      cases mem_put hq with
      | inl h => exact h ▸ lt_of_le_of_ne (not_lt.mp hk) heq
      | inr h => exact hlt q h

-- behind all other keys
theorem put_of_last {k : K} {l : List (K × α)} (h : ∀ p ∈ l, p.1 < k) (a : α) :
    put k a l = l ++ [(k, a)] := by
  induction l with
  | nil => rfl
  | cons p l ih =>
    have hlt : p.1 < k := h p List.mem_cons_self
    unfold put
    rw [if_neg (not_lt_of_gt hlt), if_neg (ne_of_lt hlt), ih fun q hq => h q (List.mem_cons_of_mem p hq)]
    rfl

-- the keys stay where one of them gets another value
theorem keys_put {l : List (K × α)} (hs : Sorted l) {k : K} (a : α) (h : get? k l ≠ none) :
    (put k a l).map Prod.fst = l.map Prod.fst := by
  induction l with
  | nil => exact absurd rfl h
  | cons p l ih =>
    have ⟨hlt, hrest⟩ := List.pairwise_cons.mp hs
    unfold get? at h
    unfold put
    by_cases heq : p.1 = k
    · rw [if_neg (heq ▸ lt_irrefl p.1), if_pos heq, List.map_cons, List.map_cons, heq]
    · rw [if_neg heq] at h
      have ⟨b, hb⟩ := Option.ne_none_iff_exists'.mp h
      have hafter : ¬ k < p.1 := not_lt_of_gt (hlt (k, b) ((mem_iff_get? hrest).mpr hb))
      rw [if_neg hafter, if_neg heq, List.map_cons, List.map_cons, ih hrest h]

theorem erase_sublist (k : K) (l : List (K × α)) : (erase k l).Sublist l := by
  induction l with
  | nil => exact List.Sublist.refl []
  | cons p l ih =>
    unfold erase
    split_ifs
    · exact List.sublist_cons_self p l
    · exact ih.cons_cons p

theorem Sorted.erase {l : List (K × α)} (hs : Sorted l) (k : K) : Sorted (erase k l) :=
  List.Pairwise.sublist (erase_sublist k l) hs

theorem get?_erase_self {l : List (K × α)} (hs : Sorted l) (k : K) : get? k (erase k l) = none := by
  induction l with
  | nil => rfl
  | cons p l ih =>
    have ⟨hlt, hrest⟩ := List.pairwise_cons.mp hs
    unfold erase
    by_cases heq : p.1 = k
    · rw [if_pos heq]
      exact get?_of_lt fun q hq => heq ▸ hlt q hq
    · rw [if_neg heq]
      unfold get?
      rw [if_neg heq]
      exact ih hrest

theorem erase_last {k : K} {l : List (K × α)} (h : ∀ p ∈ l, p.1 < k) (a : α) :
    erase k (l ++ [(k, a)]) = l := by
  induction l with
  | nil => exact if_pos rfl
  | cons p l ih =>
    rw [List.cons_append]
    unfold erase
    rw [if_neg (ne_of_lt (h p List.mem_cons_self)), ih fun q hq => h q (List.mem_cons_of_mem p hq)]

/-! ## 4. Another value under every key -/

variable {β : Type}

def mapVal (f : α → β) (l : List (K × α)) : List (K × β) := l.map fun p => (p.1, f p.2)

theorem get?_mapVal (f : α → β) (k : K) (l : List (K × α)) :
    get? k (mapVal f l) = (get? k l).map f := by
  induction l with
  | nil => rfl
  | cons p l ih =>
    show get? k ((p.1, f p.2) :: mapVal f l) = _
    unfold get?
    split_ifs
    · rfl
    · exact ih

theorem put_mapVal (f : α → β) (k : K) (a : α) (l : List (K × α)) :
    put k (f a) (mapVal f l) = mapVal f (put k a l) := by
  induction l with
  | nil => rfl
  | cons p l ih =>
    show put k (f a) ((p.1, f p.2) :: mapVal f l) = _
    unfold put
    split_ifs
    · rfl
    · rfl
    · rw [ih]
      rfl

theorem erase_mapVal (f : α → β) (k : K) (l : List (K × α)) :
    erase k (mapVal f l) = mapVal f (erase k l) := by
  induction l with
  | nil => rfl
  | cons p l ih =>
    show erase k ((p.1, f p.2) :: mapVal f l) = _
    unfold erase
    split_ifs
    · rfl
    · rw [ih]
      rfl

/-! ## 5. A sum over the values -/

-- what is under the key is replaced
theorem sum_put {l : List (K × α)} (hs : Sorted l) (f : α → Nat) (k : K) (a : α) :
    ((put k a l).map fun p => f p.2).sum + ((get? k l).elim 0 f) =
      (l.map fun p => f p.2).sum + f a := by
  induction l with
  | nil => exact Nat.add_comm _ _
  | cons p l ih =>
    have ⟨hlt, hrest⟩ := List.pairwise_cons.mp hs
    unfold put
    split_ifs with hbefore heq
    · have hnone : get? k (p :: l) = none := get?_of_lt fun q hq => by
        cases List.mem_cons.mp hq with
        | inl h => exact h ▸ hbefore
        | inr h => exact hbefore.trans (hlt q h)
      simp only [hnone, List.map_cons, List.sum_cons, Option.elim_none]
      omega
    · unfold get?
      simp only [if_pos heq, List.map_cons, List.sum_cons, Option.elim_some]
      omega
    · have hrec := ih hrest
      unfold get?
      simp only [if_neg heq, List.map_cons, List.sum_cons]
      omega

theorem sum_erase (f : α → Nat) (k : K) (l : List (K × α)) :
    ((erase k l).map fun p => f p.2).sum + ((get? k l).elim 0 f) = (l.map fun p => f p.2).sum := by
  induction l with
  | nil => rfl
  | cons p l ih =>
    unfold erase get?
    split_ifs with heq
    · simp only [List.map_cons, List.sum_cons, Option.elim_some]
      omega
    · simp only [List.map_cons, List.sum_cons]
      omega

end Mdbx.SortedMap
