import Mathlib.Data.List.Lex
import Mathlib.Data.Nat.Digits.Lemmas

/-!
# Lib.Comparator — three-way comparison functions and the orders they stand for

A comparator answers with a number whose sign tells the order of its arguments, as `memcmp` does.
-/

namespace Mdbx.Comparator

variable {α β : Type*}

/-! ## 1. What a result says -/

/-- The result of comparing `x` with `y`. -/
structure Says [LinearOrder β] (r : Int) (x y : β) : Prop where
  lt : r < 0 ↔ x < y
  gt : 0 < r ↔ y < x

/-- On the items of `s` the comparator orders by the key of an item. -/
def OrderedBy [LinearOrder β] (s : Set α) (cmp : α → α → Int) (key : α → β) : Prop :=
  ∀ a ∈ s, ∀ b ∈ s, Says (cmp a b) (key a) (key b)

/-- On the items of `s` the comparator is a total order. -/
structure TotalOn (s : Set α) (cmp : α → α → Int) : Prop where
  refl : ∀ a ∈ s, cmp a a = 0
  eq : ∀ a ∈ s, ∀ b ∈ s, cmp a b = 0 → a = b
  anti : ∀ a ∈ s, ∀ b ∈ s, cmp a b < 0 ↔ 0 < cmp b a
  trans : ∀ a ∈ s, ∀ b ∈ s, ∀ c ∈ s, cmp a b ≤ 0 → cmp b c ≤ 0 → cmp a c ≤ 0

section Order

variable [LinearOrder β] {r : Int} {x y : β}

theorem Says.eq (h : Says r x y) : r = 0 ↔ x = y := by
  constructor
  · intro hr
    have hlt : ¬ x < y := fun hxy => by have := h.lt.mpr hxy; omega
    have hgt : ¬ y < x := fun hyx => by have := h.gt.mpr hyx; omega
    exact le_antisymm (not_lt.mp hgt) (not_lt.mp hlt)
  · intro hxy
    have hlt : ¬ r < 0 := fun hr => absurd (h.lt.mp hr) (hxy ▸ lt_irrefl x)
    have hgt : ¬ 0 < r := fun hr => absurd (h.gt.mp hr) (hxy ▸ lt_irrefl x)
    omega

theorem Says.le (h : Says r x y) : r ≤ 0 ↔ x ≤ y := by
  rw [← not_lt, h.gt, not_lt]

theorem Says.of_lt (h : x < y) : Says (-1) x y :=
  ⟨⟨fun _ => h, fun _ => by decide⟩,
    ⟨fun hr => absurd hr (by decide), fun hgt => absurd hgt (lt_asymm h)⟩⟩

theorem Says.of_gt (h : y < x) : Says 1 x y :=
  ⟨⟨fun hr => absurd hr (by decide), fun hlt => absurd hlt (lt_asymm h)⟩,
    ⟨fun _ => h, fun _ => by decide⟩⟩

theorem Says.refl (x : β) : Says 0 x x :=
  ⟨⟨fun hr => absurd hr (by decide), fun hlt => absurd hlt (lt_irrefl x)⟩,
    ⟨fun hr => absurd hr (by decide), fun hlt => absurd hlt (lt_irrefl x)⟩⟩

/-- A result says the same of any pair in the same order. -/
theorem Says.congr {γ : Type*} [LinearOrder γ] {u v : γ} (h : Says r x y)
    (hlt : u < v ↔ x < y) (hgt : v < u ↔ y < x) : Says r u v :=
  ⟨h.lt.trans hlt.symm, h.gt.trans hgt.symm⟩

theorem says_sub (m n : Nat) : Says ((m : Int) - n) m n :=
  ⟨by omega, by omega⟩

variable {s : Set α} {cmp : α → α → Int} {key : α → β}

/-- A comparator that orders by a key which tells the items apart is a total order. -/
theorem OrderedBy.total (h : OrderedBy s cmp key) (hinj : Set.InjOn key s) : TotalOn s cmp where
  refl := fun a ha => (h a ha a ha).eq.mpr rfl
  eq := fun a ha b hb hab => hinj ha hb ((h a ha b hb).eq.mp hab)
  anti := fun a ha b hb => (h a ha b hb).lt.trans (h b hb a ha).gt.symm
  trans := by
    intro a ha b hb c hc hab hbc
    have hle := ((h a ha b hb).le.mp hab).trans ((h b hb c hc).le.mp hbc)
    exact (h a ha c hc).le.mpr hle

end Order

/-! ## 2. Lexicographic order -/

section Lexicographic

variable [LinearOrder α]

/-- Parts of one length in front decide first. -/
theorem append_lt_append {x y : List α} (hlen : x.length = y.length) (s t : List α) :
    x ++ s < y ++ t ↔ x < y ∨ x = y ∧ s < t := by
  induction x generalizing y with
  | nil =>
    have hy : y = [] := List.length_eq_zero_iff.mp hlen.symm
    subst hy
    simp only [List.nil_append, lt_irrefl, true_and, false_or]
  | cons c x ih =>
    cases y with
    | nil => exact absurd hlen (Nat.succ_ne_zero _)
    | cons d y =>
      have hlen' : x.length = y.length := Nat.succ.inj hlen
      simp only [List.cons_append, List.cons_lt_cons_iff, ih hlen', List.cons.injEq]
      tauto

/-- A comparison of the parts in front that sees a difference is one of the whole. -/
theorem Says.append {r : Int} {x y : List α} (h : Says r x y) (hne : x ≠ y)
    (hlen : x.length = y.length) (s t : List α) : Says r (x ++ s) (y ++ t) := by
  apply h.congr
  · rw [append_lt_append hlen]
    simp only [hne, false_and, or_false]
  · rw [append_lt_append hlen.symm]
    simp only [hne.symm, false_and, or_false]

theorem Says.append_left {r : Int} {s t : List α} (h : Says r s t) (x : List α) :
    Says r (x ++ s) (x ++ t) := by
  apply h.congr
  · rw [append_lt_append rfl]
    simp only [lt_irrefl, true_and, false_or]
  · rw [append_lt_append rfl]
    simp only [lt_irrefl, true_and, false_or]

/-- Where one list is empty, the lengths decide. -/
theorem says_length {x y : List α} (h : x = [] ∨ y = []) :
    Says ((x.length : Int) - y.length) x y := by
  rcases h with rfl | rfl
  · cases y with
    | nil => exact Says.refl []
    | cons d y =>
      have hlt : ([] : List α) < d :: y := List.nil_lt_cons d y
      refine ⟨⟨fun _ => hlt, fun _ => ?_⟩, ⟨fun hr => ?_, fun hgt => absurd hgt (lt_asymm hlt)⟩⟩
      · simp only [List.length_nil, List.length_cons]
        omega
      · simp only [List.length_nil, List.length_cons] at hr
        omega
  · cases x with
    | nil => exact Says.refl []
    | cons d x =>
      have hlt : ([] : List α) < d :: x := List.nil_lt_cons d x
      refine ⟨⟨fun hr => ?_, fun hgt => absurd hgt (lt_asymm hlt)⟩, ⟨fun _ => hlt, fun _ => ?_⟩⟩
      · simp only [List.length_nil, List.length_cons] at hr
        omega
      · simp only [List.length_nil, List.length_cons]
        omega

end Lexicographic

/-! ## 3. Numbers by their digits -/

/-- Numbers with one count of digits are in the order of their digits from the highest on. -/
theorem ofDigits_lt_iff {b : Nat} (hb : 1 < b) {x y : List Nat} (hlen : x.length = y.length)
    (hx : ∀ d ∈ x, d < b) (hy : ∀ d ∈ y, d < b) :
    Nat.ofDigits b x < Nat.ofDigits b y ↔ x.reverse < y.reverse := by
  induction x using List.reverseRecOn generalizing y with
  | nil =>
    have hy' : y = [] := List.length_eq_zero_iff.mp hlen.symm
    subst hy'
    simp only [lt_irrefl]
  | append_singleton x c ih =>
    cases y using List.reverseRecOn with
    | nil => simp at hlen
    | append_singleton y d _ =>
      have hlen' : x.length = y.length := by simpa using hlen
      have hx' : ∀ e ∈ x, e < b := fun e he => hx e (List.mem_append_left _ he)
      have hy' : ∀ e ∈ y, e < b := fun e he => hy e (List.mem_append_left _ he)
      have hxlt : Nat.ofDigits b x < b ^ x.length := Nat.ofDigits_lt_base_pow_length hb hx'
      have hylt : Nat.ofDigits b y < b ^ x.length := hlen' ▸ Nat.ofDigits_lt_base_pow_length hb hy'
      rw [Nat.ofDigits_append, Nat.ofDigits_append, Nat.ofDigits_singleton,
        Nat.ofDigits_singleton, List.reverse_append, List.reverse_append, List.reverse_singleton,
        List.reverse_singleton, List.singleton_append, List.singleton_append,
        List.cons_lt_cons_iff, ← ih hlen' hx' hy', ← hlen']
      generalize Nat.ofDigits b x = u at *
      generalize Nat.ofDigits b y = v at *
      generalize b ^ x.length = w at *
      constructor
      · intro h
        rcases Nat.lt_trichotomy c d with hcd | hcd | hcd
        · exact .inl hcd
        · subst hcd
          exact .inr ⟨rfl, by omega⟩
        · have hstep : w * (d + 1) ≤ w * c := Nat.mul_le_mul_left w hcd
          rw [Nat.mul_succ] at hstep
          omega
      · rintro (hcd | ⟨rfl, huv⟩)
        · have hstep : w * (c + 1) ≤ w * d := Nat.mul_le_mul_left w hcd
          rw [Nat.mul_succ] at hstep
          omega
        · omega

end Mdbx.Comparator
