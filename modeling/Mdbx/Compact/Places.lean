import Mdbx.Compact.Contents

/-!
# Compact.Places — the numbers of the copied pages

Each page lies right behind the one that was put before it, so that no number is given twice and
none is left out.
-/

namespace Mdbx.Compact

/-! ## 1. Numbering -/

/-- Pages side by side from `first` up to `last`. -/
def Numbered : Nat → List Emit → Nat → Prop
  | first, [], last => first = last
  | first, e :: es, last => e.pgno = first ∧ 0 < e.npages ∧ Numbered (first + e.npages) es last

variable {R : Reader} {first last : Nat} {es fs : List Emit}

theorem Numbered.append {next : Nat} (h : Numbered first es last) (h' : Numbered last fs next) :
    Numbered first (es ++ fs) next := by
  induction es generalizing first with
  | nil =>
    cases h
    exact h'
  | cons e es ih => exact ⟨h.1, h.2.1, ih h.2.2⟩

theorem Numbered.le (h : Numbered first es last) : first ≤ last := by
  induction es generalizing first with
  | nil => exact Nat.le_of_eq h
  | cons e es ih => exact Nat.le_trans (Nat.le_add_right _ _) (ih h.2.2)

theorem Numbered.pgno_lt (h : Numbered first es last) :
    ∀ e ∈ es, first ≤ e.pgno ∧ e.pgno + e.npages ≤ last := by
  induction es generalizing first with
  | nil => exact fun _ he => absurd he List.not_mem_nil
  | cons e es ih =>
    intro e' he'
    have hrest := h.2.2.le
    have hpos := h.2.1
    rcases List.mem_cons.mp he' with rfl | he'
    · have hp := h.1
      omega
    · have hin := ih h.2.2 e' he'
      omega

/-- Every number in between belongs to a page, and to no other. -/
theorem Numbered.covers (h : Numbered first es last) {pgno : Nat} (hge : first ≤ pgno)
    (hlt : pgno < last) : ∃ e ∈ es, (e.pgno ≤ pgno ∧ pgno < e.pgno + e.npages) ∧
      ∀ e' ∈ es, e'.pgno ≤ pgno ∧ pgno < e'.pgno + e'.npages → e' = e := by
  induction es generalizing first with
  | nil =>
    have heq : first = last := h
    omega
  | cons e es ih =>
    have hhead := h.1
    by_cases hin : pgno < first + e.npages
    · refine ⟨e, List.mem_cons_self, by rw [hhead]; exact ⟨hge, hin⟩, fun e' he' hin' => ?_⟩
      rcases List.mem_cons.mp he' with rfl | he'
      · rfl
      · have hbehind := (h.2.2.pgno_lt e' he').1
        omega
    · obtain ⟨e', he', hat, honly⟩ := ih h.2.2 (Nat.le_of_not_lt hin)
      refine ⟨e', List.mem_cons_of_mem _ he', hat, fun e'' he'' hin'' => ?_⟩
      rcases List.mem_cons.mp he'' with rfl | he''
      · omega
      · exact honly e'' he'' hin''

theorem Numbered.npages_pos (h : Numbered first es last) : ∀ e ∈ es, 0 < e.npages := by
  induction es generalizing first with
  | nil => exact fun _ he => absurd he List.not_mem_nil
  | cons e es ih =>
    intro e' he'
    rcases List.mem_cons.mp he' with rfl | he'
    · exact h.2.1
    · exact ih h.2.2 e' he'

/-! ## 2. What was put -/

/-- NUM_METAS. -/
def numMetas : Nat := 3

def Ctx.Ok (ctx : Ctx) : Prop := Numbered numMetas ctx.out ctx.firstUnallocated

/-- The walk has come from `ctx` to `ctx'` by putting pages. -/
structure Grown (ctx ctx' : Ctx) : Prop where
  more : ∃ new, ctx'.out = ctx.out ++ new ∧ Numbered ctx.firstUnallocated new ctx'.firstUnallocated

variable {ctx ctx' ctx'' : Ctx}

theorem Grown.refl (ctx : Ctx) : Grown ctx ctx := ⟨[], (List.append_nil _).symm, rfl⟩

theorem Grown.trans (h : Grown ctx ctx') (h' : Grown ctx' ctx'') : Grown ctx ctx'' := by
  obtain ⟨new, hout, hnum⟩ := h.more
  obtain ⟨new', hout', hnum'⟩ := h'.more
  refine ⟨new ++ new', ?_, hnum.append hnum'⟩
  rw [hout', hout, List.append_assoc]

theorem Grown.ok (h : Grown ctx ctx') (hok : ctx.Ok) : ctx'.Ok := by
  obtain ⟨new, hout, hnum⟩ := h.more
  unfold Ctx.Ok
  rw [hout]
  exact Numbered.append hok hnum

theorem Grown.find (h : Grown ctx ctx') {pgno : Nat} {put : Put} (hf : ctx.find pgno = some put) :
    ctx'.find pgno = some put := by
  obtain ⟨new, hout, -⟩ := h.more
  obtain ⟨e, he, heput⟩ := Option.map_eq_some_iff.mp hf
  unfold Ctx.find
  rw [hout, List.find?_append, he]
  exact congrArg some heput

theorem Ctx.view_page {pgno front : Nat} {p : Page} : ctx.view.page pgno front = some p ↔
    ctx.find pgno = some (.page p) ∧ p.txnid ≤ front := by
  change Option.filter _ _ = _ ↔ _
  rw [Option.filter_eq_some_iff, decide_eq_true_eq]
  refine and_congr_left fun _ => ?_
  rw [Option.bind_eq_some_iff]
  constructor
  · rintro ⟨put, hput, hpage⟩
    cases put with
    | page q =>
      cases hpage
      exact hput
    | large l => cases hpage
  · exact fun h => ⟨_, h, rfl⟩

theorem Ctx.view_large {pgno front : Nat} {l : Large} : ctx.view.large pgno front = some l ↔
    ctx.find pgno = some (.large l) ∧ l.txnid ≤ front := by
  change Option.filter _ _ = _ ↔ _
  rw [Option.filter_eq_some_iff, decide_eq_true_eq]
  refine and_congr_left fun _ => ?_
  rw [Option.bind_eq_some_iff]
  constructor
  · rintro ⟨put, hput, hlarge⟩
    cases put with
    | page p => cases hlarge
    | large k =>
      cases hlarge
      exact hput
  · exact fun h => ⟨_, h, rfl⟩

theorem Grown.within (h : Grown ctx ctx') : ctx.view.Within ctx'.view where
  page := fun hp => Ctx.view_page.mpr ((Ctx.view_page.mp hp).imp_left h.find)
  large := fun hl => Ctx.view_large.mpr ((Ctx.view_large.mp hl).imp_left h.find)

theorem put_grown (R : Reader) (ctx : Ctx) (put : Put) {npages : Nat} (hpos : 0 < npages) :
    Grown ctx (compactingPutPage R ctx put npages) :=
  ⟨[⟨ctx.firstUnallocated, npages, put.dated R.txnid⟩], rfl, rfl, hpos, rfl⟩

theorem put_find (hok : ctx.Ok) (put : Put) (npages : Nat) :
    (compactingPutPage R ctx put npages).find ctx.firstUnallocated = some (put.dated R.txnid) := by
  have hnone : ctx.out.find? (fun e => e.pgno = ctx.firstUnallocated) = none := by
    refine List.find?_eq_none.mpr fun e he => ?_
    have hlt := hok.pgno_lt e he
    have hin := hok.npages_pos e he
    simp only [decide_eq_true_eq]
    omega
  unfold Ctx.find compactingPutPage
  simp only [List.find?_append, hnone, Option.none_or]
  rw [List.find?_cons_of_pos (by simp)]
  rfl

theorem put_page (hok : ctx.Ok) (p : Page) (npages : Nat) {front : Nat}
    (hle : dateOf R.txnid p.txnid ≤ front) :
    (compactingPutPage R ctx (.page p) npages).view.page ctx.firstUnallocated front =
      some { p with txnid := dateOf R.txnid p.txnid } :=
  Ctx.view_page.mpr ⟨put_find hok (.page p) npages, hle⟩

theorem put_large (hok : ctx.Ok) (l : Large) (npages : Nat) {front : Nat}
    (hle : dateOf R.txnid l.txnid ≤ front) :
    (compactingPutPage R ctx (.large l) npages).view.large ctx.firstUnallocated front =
      some { l with txnid := dateOf R.txnid l.txnid } :=
  Ctx.view_large.mpr ⟨put_find hok (.large l) npages, hle⟩

end Mdbx.Compact
