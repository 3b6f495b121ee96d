import Mathlib.Data.List.Basic
import Mathlib.Tactic.Common

/-!
# Steps — runs of a system whose steps are events

A step consumes one event and may be impossible.  An invariant is shown for one step and holds along
every run; so is a measure, which bounds how long a run can be.
-/

namespace Steps

variable {σ ε : Type} (step : σ → ε → Option σ)

def exec : σ → List ε → Option σ
  | s, [] => some s
  | s, e :: es => (step s e).bind fun s' => exec s' es

/-- Every event of the run is allowed in the state that it meets. -/
def Along (ok : σ → ε → Prop) : σ → List ε → Prop
  | _, [] => True
  | s, e :: es => ok s e ∧ ∀ s', step s e = some s' → Along ok s' es

/-- The same, computed. -/
def check (ok : σ → ε → Bool) : σ → List ε → Bool
  | _, [] => true
  | s, e :: es => ok s e && (step s e).all fun s' => check ok s' es

variable {step}

theorem along_of_check {ok : σ → ε → Bool} {p : σ → ε → Prop} (hp : ∀ s e, ok s e = true → p s e)
    {s : σ} {es : List ε} (h : check step ok s es = true) : Along step p s es := by
  induction es generalizing s with
  | nil => trivial
  | cons e es ih =>
    obtain ⟨he, hrest⟩ := Bool.and_eq_true_iff.mp h
    exact ⟨hp s e he, fun t ht => ih ((Option.all_eq_true _ _).mp hrest t ht)⟩

theorem exec_cons {s s' : σ} {e : ε} {es : List ε} (h : exec step s (e :: es) = some s') :
    ∃ t, step s e = some t ∧ exec step t es = some s' := Option.bind_eq_some_iff.mp h

theorem exec_append (s : σ) (es fs : List ε) :
    exec step s (es ++ fs) = (exec step s es).bind fun t => exec step t fs := by
  induction es generalizing s with
  | nil => rfl
  | cons e es ih =>
    rw [List.cons_append, exec, exec]
    cases step s e with
    | none => rfl
    | some t => exact ih t

theorem Along.append {ok : σ → ε → Prop} {s t : σ} {es fs : List ε}
    (h : Along step ok s (es ++ fs)) (ht : exec step s es = some t) :
    Along step ok s es ∧ Along step ok t fs := by
  induction es generalizing s with
  | nil =>
    cases ht
    exact ⟨trivial, h⟩
  | cons e es ih =>
    obtain ⟨u, hu, ht⟩ := exec_cons ht
    have hrest := ih (h.2 u hu) ht
    refine ⟨⟨h.1, fun v hv => ?_⟩, hrest.2⟩
    rw [hu] at hv
    cases hv
    exact hrest.1

/-- What every allowed step keeps holds at the end of every allowed run. -/
theorem exec_inv {inv : σ → Prop} {ok : σ → ε → Prop}
    (hstep : ∀ s e t, inv s → ok s e → step s e = some t → inv t) {s s' : σ} {es : List ε}
    (hs : inv s) (hok : Along step ok s es) (h : exec step s es = some s') : inv s' := by
  induction es generalizing s with
  | nil =>
    cases h
    exact hs
  | cons e es ih =>
    obtain ⟨t, ht, hrest⟩ := exec_cons h
    exact ih (hstep s e t hs hok.1 ht) (hok.2 t ht) hrest

/-- A measure that every step but the idle ones lowers, and that an idle one raises by at most one,
bounds the number of the steps that are not idle. -/
theorem exec_bounded {inv : σ → Prop} {ok : σ → ε → Prop} (idle : ε → Bool) (μ : σ → Nat)
    (hinv : ∀ s e t, inv s → ok s e → step s e = some t → inv t)
    (hlow : ∀ s e t, inv s → ok s e → step s e = some t → idle e = false → μ t + 1 ≤ μ s)
    (hidle : ∀ s e t, inv s → ok s e → step s e = some t → idle e = true → μ t ≤ μ s + 1)
    {s s' : σ} {es : List ε} (hs : inv s) (hok : Along step ok s es)
    (h : exec step s es = some s') :
    es.countP (fun e => !idle e) + μ s' ≤ μ s + es.countP idle := by
  induction es generalizing s with
  | nil =>
    cases h
    exact Nat.le_of_eq (Nat.zero_add _)
  | cons e es ih =>
    obtain ⟨t, ht, hrest⟩ := exec_cons h
    have hmore := ih (hinv s e t hs hok.1 ht) (hok.2 t ht) hrest
    rw [List.countP_cons, List.countP_cons]
    cases hi : idle e with
    | false =>
      have hone := hlow s e t hs hok.1 ht hi
      simp only [Bool.not_false, if_true, if_false, Bool.false_eq_true]
      omega
    | true =>
      have hone := hidle s e t hs hok.1 ht hi
      simp only [Bool.not_true, if_true, if_false, Bool.false_eq_true]
      omega

/-- A run that is not allowed all along has a first part that is, and then an event that is not. -/
theorem exec_not_along {ok : σ → ε → Prop} {s s' : σ} {es : List ε}
    (h : exec step s es = some s') (hno : ¬ Along step ok s es) :
    ∃ es₁ e es₂ t, es = es₁ ++ e :: es₂ ∧ exec step s es₁ = some t ∧ ¬ ok t e := by
  induction es generalizing s with
  | nil => exact absurd trivial hno
  | cons e es ih =>
    obtain ⟨t, ht, hrest⟩ := exec_cons h
    by_cases hok : ok s e
    · have hlater : ¬ Along step ok t es := fun hl => hno ⟨hok, fun u hu => by
        rw [ht] at hu
        cases hu
        exact hl⟩
      obtain ⟨es₁, e', es₂, u, hes, hu, hbad⟩ := ih hrest hlater
      refine ⟨e :: es₁, e', es₂, u, by rw [hes, List.cons_append], ?_, hbad⟩
      rw [exec, ht]
      exact hu
    · exact ⟨[], e, es, s, rfl, rfl, hok⟩

/-- Two systems whose steps correspond, events that are not allowed in the second one apart, go equally
far in every run, and end in states that correspond. -/
theorem exec_refines {τ : Type} {step' : τ → ε → Option τ} {R : σ → τ → Prop} {ok : τ → ε → Prop}
    (hstep : ∀ s t e, R s t → ok t e → Option.Rel R (step s e) (step' t e)) {s : σ} {t : τ}
    {es : List ε} (h : R s t) (hok : Along step' ok t es) :
    Option.Rel R (exec step s es) (exec step' t es) := by
  induction es generalizing s t with
  | nil => exact .some h
  | cons e es ih =>
    have hone := hstep s t e h hok.1
    have hrest := hok.2
    rw [exec, exec]
    generalize step s e = x, step' t e = y at hone hrest
    cases hone with
    | some hnext => exact ih hnext (hrest _ rfl)
    | none => exact .none

theorem Along.of_mem {p : ε → Prop} {s : σ} {es : List ε} (h : ∀ e ∈ es, p e) :
    Along step (fun _ e => p e) s es := by
  induction es generalizing s with
  | nil => trivial
  | cons e es ih =>
    exact ⟨h e List.mem_cons_self, fun t _ => ih fun e' he' => h e' (List.mem_cons_of_mem _ he')⟩

theorem Along.and {ok ok' : σ → ε → Prop} {s : σ} {es : List ε} (h : Along step ok s es)
    (h' : Along step ok' s es) : Along step (fun s e => ok s e ∧ ok' s e) s es := by
  induction es generalizing s with
  | nil => trivial
  | cons e es ih => exact ⟨⟨h.1, h'.1⟩, fun t ht => ih (h.2 t ht) (h'.2 t ht)⟩

end Steps
