import Mathlib.Data.List.Basic

/-!
# Lib.Lanes — passes over lanes that leave items for some of them

A first pass updates each lane, and some lanes leave an item beside their index.  A second pass goes
over the items, and updates the lanes they are for.  The two together treat each lane on its own.
-/

namespace Mdbx.Lanes

variable {σ γ : Type}

/-- The pass that leaves items; the first lane has the index `i`. -/
def collect (f : σ → σ × Option γ) (i : Nat) : List σ → List σ × List (Nat × γ)
  | [] => ([], [])
  | x :: xs =>
    let rest := collect f (i + 1) xs
    match f x with
    | (y, some g) => (y :: rest.1, (i, g) :: rest.2)
    | (y, none) => (y :: rest.1, rest.2)

/-- The pass over the items. -/
def scatter (h : γ → σ → σ) : List (Nat × γ) → List σ → List σ
  | [], xs => xs
  | (i, g) :: items, xs => scatter h items (xs.modify i (h g))

/-- Both passes, for one lane. -/
def settle (f : σ → σ × Option γ) (h : γ → σ → σ) (x : σ) : σ :=
  match f x with
  | (y, some g) => h g y
  | (y, none) => y

theorem modify_at (h : σ → σ) (before : List σ) (x : σ) (after : List σ) :
    (before ++ x :: after).modify before.length h = before ++ h x :: after := by
  induction before with
  | nil => rfl
  | cons y before ih => exact congrArg (y :: ·) ih

-- the lanes of `before` are done
theorem scatter_collect_append (f : σ → σ × Option γ) (h : γ → σ → σ) (before xs : List σ) :
    scatter h (collect f before.length xs).2 (before ++ (collect f before.length xs).1) =
      before ++ xs.map (settle f h) := by
  induction xs generalizing before with
  | nil => rfl
  | cons x xs ih =>
    have hnext : ∀ y, scatter h (collect f (before.length + 1) xs).2
        (before ++ y :: (collect f (before.length + 1) xs).1) =
          before ++ y :: xs.map (settle f h) := by
      intro y
      have hrest := ih (before ++ [y])
      rw [List.length_append, List.append_assoc, List.append_assoc] at hrest
      exact hrest
    unfold collect
    rw [List.map_cons]
    unfold settle
    cases hx : f x with
    | mk y item =>
      cases item with
      | some g =>
        change scatter h _ ((before ++ y :: _).modify before.length (h g)) = _
        rw [modify_at]
        exact hnext (h g y)
      | none => exact hnext y

theorem scatter_collect (f : σ → σ × Option γ) (h : γ → σ → σ) (xs : List σ) :
    scatter h (collect f 0 xs).2 (collect f 0 xs).1 = xs.map (settle f h) :=
  scatter_collect_append f h [] xs

-- the items are worked out between the passes
theorem scatter_map {δ : Type} (h : δ → σ → σ) (s : γ → δ) (items : List (Nat × γ))
    (xs : List σ) : scatter h (items.map fun item => (item.1, s item.2)) xs =
      scatter (fun g => h (s g)) items xs := by
  induction items generalizing xs with
  | nil => rfl
  | cons item items ih => exact ih _

theorem collect_nil {f : σ → σ × Option γ} {i : Nat} {xs : List σ}
    (h : (collect f i xs).2 = []) : ∀ x ∈ xs, (f x).2 = none := by
  induction xs generalizing i with
  | nil => exact fun x hx => absurd hx List.not_mem_nil
  | cons x xs ih =>
    unfold collect at h
    cases hx : f x with
    | mk y item =>
      rw [hx] at h
      cases item with
      | some g => exact nomatch h
      | none =>
        intro z hz
        cases List.mem_cons.mp hz with
        | inl heq => exact heq ▸ congrArg Prod.snd hx
        | inr hz => exact ih h z hz

theorem collect_none {f : σ → σ × Option γ} {i : Nat} {xs : List σ}
    (h : ∀ x ∈ xs, (f x).2 = none) : (collect f i xs).2 = [] := by
  induction xs generalizing i with
  | nil => rfl
  | cons x xs ih =>
    have hrest := @ih (i + 1) fun y hy => h y (List.mem_cons_of_mem x hy)
    have hx := h x List.mem_cons_self
    unfold collect
    cases hfx : f x with
    | mk y item =>
      rw [hfx] at hx
      change item = none at hx
      rw [hx]
      exact hrest

theorem collect_fst (f : σ → σ × Option γ) (i : Nat) (xs : List σ) :
    (collect f i xs).1 = xs.map fun x => (f x).1 := by
  induction xs generalizing i with
  | nil => rfl
  | cons x xs ih =>
    unfold collect
    rw [List.map_cons]
    cases hx : f x with
    | mk y item => cases item with
      | some g | none => exact congrArg (y :: ·) (ih (i + 1))

end Mdbx.Lanes
