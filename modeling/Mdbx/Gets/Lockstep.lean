import Mdbx.Gets.Traverse

/-!
# Gets.Lockstep — each key of a traversal is served as if it were alone

A batch of pages has a page for each lane that asked for one, so a level does to each lane what the
lane would do by itself.  A lane that has arrived at a leaf is left as it is.
-/

namespace Mdbx.Gets

open Mdbx.Lanes

/-! ## 1. A lane by itself -/

section
variable (a : Args)

def rootLane : Lane → Lane := settle (beginLane a) fun g => consumeRoot (submitGet a.src g)

def childLane : Lane → Lane := settle (prepareChild a) fun g => consumeChild (submitGet a.src g)

def leafLane : Lane → Lane := settle (seekLane a) fun g => consumeLarge a (submitGet a.src g)

/-- The lane after so many levels. -/
def levels : Nat → Lane → Lane
  | 0, l => rootLane a l
  | k + 1, l => childLane a (levels k l)

def single (l : Lane) : Lane := leafLane a (levels a cursorStackSize l)

end

variable {a : Args}

/-- The lane does not go further down. -/
def Arrived (a : Args) (l : Lane) : Prop := prepareChild a l = (l, none)

theorem arrived_handled {l : Lane} (h : l.handled = true) : Arrived a l :=
  if_pos (Or.inr h)

theorem childLane_arrived {l : Lane} (h : Arrived a l) : childLane a l = l := by
  unfold childLane settle
  rw [h]

theorem levels_arrived {l : Lane} {k : Nat} (h : Arrived a (levels a k l)) {j : Nat}
    (hj : k ≤ j) : levels a j l = levels a k l := by
  induction hj with
  | refl => rfl
  | step _ ih =>
    change childLane a (levels a _ l) = _
    rw [ih]
    exact childLane_arrived h

/-- The outcomes of `async_batched_get_traverse_prepare_child`. -/
theorem prepareChild_cases (a : Args) (l : Lane) :
    Arrived a l ∨ (∃ code, prepareChild a l = (l.fail code, none)) ∨
      ∃ g, prepareChild a l = (l, some g) ∧ l.handled = false := by
  unfold Arrived prepareChild
  by_cases hskip : ¬l.initialized = true ∨ l.handled = true
  · exact Or.inl (if_pos hskip)
  · have hhandled : l.handled = false := Bool.eq_false_of_not_eq_true fun h => hskip (Or.inr h)
    rw [if_neg hskip]
    cases l.stack with
    | nil => exact Or.inr (Or.inl ⟨.einval, rfl⟩)
    | cons p stack =>
      dsimp only
      cases p.body with
      | branch nodes =>
        dsimp only
        cases branchChildGet a.src p nodes (treeSearchBranch a.kvx nodes l.key) with
        | error code => exact Or.inr (Or.inl ⟨code, rfl⟩)
        | ok g => exact Or.inr (Or.inr ⟨g, rfl, hhandled⟩)
      | leaf nodes => exact Or.inl rfl
      | large => exact Or.inl rfl

theorem prepareChild_fst_arrived {l : Lane} (h : (prepareChild a l).2 = none) :
    Arrived a (prepareChild a l).1 ∧ childLane a l = (prepareChild a l).1 := by
  have hsettle : ∀ l', prepareChild a l = (l', none) → childLane a l = l' := by
    intro l' hl
    unfold childLane settle
    rw [hl]
  rcases prepareChild_cases a l with harr | ⟨code, hfail⟩ | ⟨g, hget, _⟩
  · have hl := hsettle l harr
    unfold Arrived at harr
    rw [harr]
    exact ⟨harr, hl⟩
  · rw [hfail]
    exact ⟨arrived_handled rfl, hsettle _ hfail⟩
  · rw [hget] at h
    exact nomatch h

/-- The lane has arrived, or has a page for each level. -/
def Descending (a : Args) (k : Nat) (l : Lane) : Prop :=
  Arrived a l ∨ (l.stack.length = k + 1 ∧ k + 1 ≤ cursorStackSize)

/-- The outcomes of the loop of `async_batched_get_traverse_begin`. -/
theorem beginLane_cases (a : Args) {l : Lane} (hl : l.initialized = false) :
    ((beginLane a l).2 = none ∧ Arrived a (beginLane a l).1) ∨
      ∃ g l', beginLane a l = (l', some g) ∧ l'.handled = false := by
  unfold beginLane
  by_cases hskip : ¬l.eligible = true ∨ l.handled = true
  · rw [if_pos hskip]
    exact Or.inl ⟨rfl, if_pos (Or.inl (hl ▸ Bool.false_ne_true))⟩
  · have hhandled : l.handled = false := Bool.eq_false_of_not_eq_true fun h => hskip (Or.inr h)
    rw [if_neg hskip]
    dsimp only
    cases a.root.root with
    | none => exact Or.inl ⟨rfl, arrived_handled rfl⟩
    | some root =>
      dsimp only
      cases makeGet a.src false root a.root.txnid with
      | error code => exact Or.inl ⟨rfl, arrived_handled rfl⟩
      | ok g => exact Or.inr ⟨g, _, rfl, hhandled⟩

theorem rootLane_none {l : Lane} (h : (beginLane a l).2 = none) :
    rootLane a l = (beginLane a l).1 := by
  unfold rootLane settle
  cases hb : beginLane a l with
  | mk y g =>
    rw [hb] at h
    change g = none at h
    rw [h]

theorem rootLane_descending {l : Lane} (hl : l.initialized = false) :
    Descending a 0 (rootLane a l) := by
  rcases beginLane_cases a hl with ⟨hnone, harr⟩ | ⟨g, l', hget, _⟩
  · rw [rootLane_none hnone]
    exact Or.inl harr
  · unfold rootLane settle
    rw [hget]
    dsimp only
    unfold consumeRoot
    cases submitGet a.src g with
    | error code => exact Or.inl (arrived_handled rfl)
    | ok p => exact Or.inr ⟨rfl, by decide⟩

theorem childLane_descending {l : Lane} {k : Nat} (h : Descending a k l) :
    Descending a (k + 1) (childLane a l) := by
  rcases prepareChild_cases a l with harr | ⟨code, hfail⟩ | ⟨g, hget, _⟩
  · rw [childLane_arrived harr]
    exact Or.inl harr
  · unfold childLane settle
    rw [hfail]
    exact Or.inl (arrived_handled rfl)
  · cases h with
    | inl harr =>
      rw [childLane_arrived harr]
      exact Or.inl harr
    | inr hlen =>
      unfold childLane settle
      rw [hget]
      dsimp only
      unfold consumeChild
      cases submitGet a.src g with
      | error code => exact Or.inl (arrived_handled rfl)
      | ok p =>
        dsimp only
        by_cases hfull : cursorStackSize ≤ l.stack.length
        · rw [if_pos hfull]
          exact Or.inl (arrived_handled rfl)
        · rw [if_neg hfull]
          have ⟨hlen, _⟩ := hlen
          refine Or.inr ⟨congrArg (· + 1) hlen, ?_⟩
          omega

theorem levels_descending {l : Lane} (hl : l.initialized = false) (k : Nat) :
    Descending a k (levels a k l) := by
  induction k with
  | zero => exact rootLane_descending hl
  | succ k ih => exact childLane_descending ih

theorem levels_bottom {l : Lane} (hl : l.initialized = false) :
    Arrived a (levels a cursorStackSize l) := by
  cases levels_descending (a := a) hl cursorStackSize with
  | inl h => exact h
  | inr h => exact absurd h.2 (Nat.not_succ_le_self _)

/-! ## 2. The phases -/

/-- Where a traversal of `lanes` is, when it is over after at most so many rounds. -/
inductive At (a : Args) (lanes : List Lane) : Nat → Trav → Prop where
  | rootRead {t : Trav} {n : Nat} (hp : t.phase = .rootRead)
      (hpass : (t.lanes, t.level) = collect (beginLane a) 0 lanes)
      (hn : t.waits.sum + (3 * cursorStackSize + 6) ≤ n) : At a lanes n t
  | rootConsume {t : Trav} {n : Nat} (hp : t.phase = .rootConsume)
      (hpass : (t.lanes, t.level) = collect (beginLane a) 0 lanes)
      (hpgrs : t.pgrs = t.level.map fun item => submitGet a.src item.2)
      (hn : t.waits.sum + (3 * cursorStackSize + 5) ≤ n) : At a lanes n t
  | childPrepare {t : Trav} {n : Nat} (k : Nat) (hk : k ≤ cursorStackSize)
      (hp : t.phase = .childPrepare) (hlanes : t.lanes = lanes.map (levels a k))
      (hn : t.waits.sum + (3 * (cursorStackSize - k) + 4) ≤ n) : At a lanes n t
  | childRead {t : Trav} {n : Nat} (k : Nat) (hk : k < cursorStackSize)
      (hp : t.phase = .childRead)
      (hpass : (t.lanes, t.level) = collect (prepareChild a) 0 (lanes.map (levels a k)))
      (hn : t.waits.sum + (3 * (cursorStackSize - k) + 3) ≤ n) : At a lanes n t
  | childConsume {t : Trav} {n : Nat} (k : Nat) (hk : k < cursorStackSize)
      (hp : t.phase = .childConsume)
      (hpass : (t.lanes, t.level) = collect (prepareChild a) 0 (lanes.map (levels a k)))
      (hpgrs : t.pgrs = t.level.map fun item => submitGet a.src item.2)
      (hn : t.waits.sum + (3 * (cursorStackSize - k) + 2) ≤ n) : At a lanes n t
  | seek {t : Trav} {n : Nat} (hp : t.phase = .seek)
      (hlanes : t.lanes = lanes.map (levels a cursorStackSize))
      (hn : t.waits.sum + 3 ≤ n) : At a lanes n t
  | largeRead {t : Trav} {n : Nat} (hp : t.phase = .largeRead)
      (hpass : (t.lanes, t.level) =
        collect (seekLane a) 0 (lanes.map (levels a cursorStackSize)))
      (hn : t.waits.sum + 2 ≤ n) : At a lanes n t
  | largeConsume {t : Trav} {n : Nat} (hp : t.phase = .largeConsume)
      (hpass : (t.lanes, t.level) =
        collect (seekLane a) 0 (lanes.map (levels a cursorStackSize)))
      (hpgrs : t.pgrs = t.level.map fun item => submitGet a.src item.2)
      (hn : 1 ≤ n) : At a lanes n t
  | done {t : Trav} {n : Nat} (hp : t.phase = .done) (hlanes : t.lanes = lanes.map (single a)) :
      At a lanes n t

/-- Driving a batch of pages leaves the lanes alone, and completes it or takes a wait off. -/
theorem drivePageBatch_cases (a : Args) (t : Trav) (next : Phase) :
    (∃ waits, t.drivePageBatch a next = { t with waits := waits } ∧
      waits.sum + 1 = t.waits.sum) ∨
    ∃ waits, t.drivePageBatch a next = { t with
      pgrs := t.level.map fun item => submitGet a.src item.2
      waits := waits
      phase := next } ∧ waits.sum ≤ t.waits.sum := by
  unfold Trav.drivePageBatch
  cases hwaits : t.waits with
  | nil => exact Or.inr ⟨[], rfl, Nat.le_refl _⟩
  | cons n waits =>
    cases n with
    | zero => exact Or.inr ⟨waits, rfl, by simp⟩
    | succ n =>
      refine Or.inl ⟨n :: waits, rfl, ?_⟩
      simp only [List.sum_cons]
      omega

theorem consume_lanes {t : Trav} {f : Lane → Lane × Option Get} {lanes : List Lane}
    (hpass : (t.lanes, t.level) = collect f 0 lanes)
    (hpgrs : t.pgrs = t.level.map fun item => submitGet a.src item.2)
    (consume : Except Code Page → Lane → Lane) (next : Phase) :
    (t.consume consume next).lanes =
      lanes.map (settle f fun g => consume (submitGet a.src g)) := by
  have hzip : List.zipWith (fun item pgr => (item.1, pgr)) t.level t.pgrs =
      t.level.map fun item => (item.1, submitGet a.src item.2) := by
    rw [hpgrs, List.zipWith_map_right, List.zipWith_self]
  change scatter consume (List.zipWith _ t.level t.pgrs) t.lanes = _
  have hlanes : t.lanes = (collect f 0 lanes).1 := congrArg Prod.fst hpass
  have hlevel : t.level = (collect f 0 lanes).2 := congrArg Prod.snd hpass
  rw [hzip, scatter_map, hlanes, hlevel]
  exact scatter_collect f _ lanes

theorem seek_step {lanes : List Lane} {t : Trav} {n : Nat} (hlanes : t.lanes = lanes.map (levels a cursorStackSize))
    (hn : t.waits.sum + 3 ≤ n + 1) (hp : t.phase = .seek) : At a lanes n (t.step a) := by
  have hstep : t.step a = t.startPageBatch (collect (seekLane a) 0 t.lanes)
      (if (collect (seekLane a) 0 t.lanes).2.isEmpty then .done else .largeRead) := by
    unfold Trav.step
    rw [hp]
  rw [hstep, hlanes]
  cases hitems : (collect (seekLane a) 0 (lanes.map (levels a cursorStackSize))).2 with
  | nil =>
    have hnone := collect_nil hitems
    refine .done rfl ?_
    change (collect (seekLane a) 0 (lanes.map (levels a cursorStackSize))).1 = _
    rw [collect_fst, List.map_map]
    apply List.map_congr_left
    intro l hl
    have hl := hnone _ (List.mem_map_of_mem hl)
    change (seekLane a (levels a cursorStackSize l)).1 = leafLane a (levels a cursorStackSize l)
    unfold leafLane settle
    cases hseek : seekLane a (levels a cursorStackSize l) with
    | mk y g =>
      rw [hseek] at hl
      change g = none at hl
      rw [hl]
  | cons item items =>
    exact .largeRead rfl (hitems ▸ rfl) (by change t.waits.sum + 2 ≤ n; omega)

section
variable {lanes : List Lane} (hfresh : ∀ l ∈ lanes, l.initialized = false)
include hfresh

-- the lanes are asked for their children
theorem prepare_step {t : Trav} {n k : Nat} (hk : k ≤ cursorStackSize)
    (hlanes : t.lanes = lanes.map (levels a k))
    (hn : t.waits.sum + (3 * (cursorStackSize - k) + 4) ≤ n + 1) (hp : t.phase = .childPrepare) :
    At a lanes n (t.step a) := by
  have hstep : t.step a = t.startPageBatch (collect (prepareChild a) 0 t.lanes)
      (if (collect (prepareChild a) 0 t.lanes).2.isEmpty then .seek else .childRead) := by
    unfold Trav.step
    rw [hp]
  rw [hstep, hlanes]
  cases hitems : (collect (prepareChild a) 0 (lanes.map (levels a k))).2 with
  | nil =>
    have hnone := collect_nil hitems
    refine .seek rfl ?_ (by change t.waits.sum + 3 ≤ n; omega)
    change (collect (prepareChild a) 0 (lanes.map (levels a k))).1 = _
    rw [collect_fst, List.map_map]
    apply List.map_congr_left
    intro l hl
    have ⟨harr, hchild⟩ := prepareChild_fst_arrived (hnone _ (List.mem_map_of_mem hl))
    change (prepareChild a (levels a k l)).1 = _
    rw [← hchild] at harr ⊢
    change Arrived a (levels a (k + 1) l) at harr
    change levels a (k + 1) l = _
    by_cases hbottom : k = cursorStackSize
    · have hlast := levels_bottom (a := a) (hfresh l hl)
      rw [← hbottom] at hlast ⊢
      exact childLane_arrived hlast
    · exact (levels_arrived harr (by omega)).symm
  | cons item items =>
    have hlt : k < cursorStackSize := by
      by_contra hge
      have hbottom : k = cursorStackSize := by omega
      have hempty : (collect (prepareChild a) 0 (lanes.map (levels a k))).2 = [] := by
        apply collect_none
        intro x hx
        have ⟨l, hl, heq⟩ := List.mem_map.mp hx
        rw [← heq, hbottom]
        exact congrArg Prod.snd (levels_bottom (hfresh l hl))
      rw [hempty] at hitems
      exact nomatch hitems
    exact .childRead k hlt rfl (hitems ▸ rfl) (by
      change t.waits.sum + _ ≤ n
      omega)

theorem At.step {t : Trav} {n : Nat} (h : At a lanes (n + 1) t) : At a lanes n (t.step a) := by
  cases h with
  | rootRead hp hpass hn =>
    have hstep : t.step a = t.drivePageBatch a .rootConsume := by
      unfold Trav.step
      rw [hp]
    rw [hstep]
    rcases drivePageBatch_cases a t .rootConsume with ⟨w, heq, hw⟩ | ⟨w, heq, hw⟩
    · rw [heq]
      exact .rootRead hp hpass (by change w.sum + _ ≤ n; omega)
    · rw [heq]
      exact .rootConsume rfl hpass rfl (by change w.sum + _ ≤ n; omega)
  | rootConsume hp hpass hpgrs hn =>
    have hstep : t.step a = t.consume consumeRoot .childPrepare := by
      unfold Trav.step
      rw [hp]
    rw [hstep]
    exact .childPrepare 0 (Nat.zero_le _) rfl (consume_lanes hpass hpgrs _ _)
      (by change t.waits.sum + _ ≤ n; omega)
  | childPrepare k hk hp hlanes hn => exact prepare_step hfresh hk hlanes hn hp
  | childRead k hk hp hpass hn =>
    have hstep : t.step a = t.drivePageBatch a .childConsume := by
      unfold Trav.step
      rw [hp]
    rw [hstep]
    rcases drivePageBatch_cases a t .childConsume with ⟨w, heq, hw⟩ | ⟨w, heq, hw⟩
    · rw [heq]
      exact .childRead k hk hp hpass (by change w.sum + _ ≤ n; omega)
    · rw [heq]
      exact .childConsume k hk rfl hpass rfl (by change w.sum + _ ≤ n; omega)
  | childConsume k hk hp hpass hpgrs hn =>
    have hstep : t.step a = t.consume consumeChild .childPrepare := by
      unfold Trav.step
      rw [hp]
    rw [hstep]
    refine .childPrepare (k + 1) hk rfl ?_ (by change t.waits.sum + _ ≤ n; omega)
    rw [consume_lanes hpass hpgrs consumeChild .childPrepare, List.map_map]
    rfl
  | seek hp hlanes hn => exact seek_step hlanes hn hp
  | largeRead hp hpass hn =>
    have hstep : t.step a = t.drivePageBatch a .largeConsume := by
      unfold Trav.step
      rw [hp]
    rw [hstep]
    rcases drivePageBatch_cases a t .largeConsume with ⟨w, heq, hw⟩ | ⟨w, heq, hw⟩
    · rw [heq]
      exact .largeRead hp hpass (by change w.sum + 2 ≤ n; omega)
    · rw [heq]
      exact .largeConsume rfl hpass rfl (by omega)
  | largeConsume hp hpass hpgrs hn =>
    have hstep : t.step a = t.consume (consumeLarge a) .done := by
      unfold Trav.step
      rw [hp]
    rw [hstep]
    refine .done rfl ?_
    rw [consume_lanes hpass hpgrs (consumeLarge a) .done, List.map_map]
    rfl
  | done hp hlanes =>
    have hstep : t.step a = t := by
      unfold Trav.step
      rw [hp]
    rw [hstep]
    exact .done hp hlanes

theorem begin_at (waits : List Nat) :
    At a lanes (Trav.rounds waits) (Trav.begin a lanes waits) := by
  have hrounds : Trav.rounds waits = waits.sum + 3 * cursorStackSize + 8 := rfl
  have hbegin : Trav.begin a lanes waits =
      Trav.startPageBatch ⟨lanes, [], [], .done, waits⟩ (collect (beginLane a) 0 lanes)
        (if (collect (beginLane a) 0 lanes).2.isEmpty then .seek else .rootRead) := rfl
  rw [hbegin]
  cases hitems : (collect (beginLane a) 0 lanes).2 with
  | nil =>
    have hnone := collect_nil hitems
    refine .seek rfl ?_ (by change waits.sum + 3 ≤ _; omega)
    change (collect (beginLane a) 0 lanes).1 = _
    rw [collect_fst]
    apply List.map_congr_left
    intro l hl
    have hroot := rootLane_none (hnone l hl)
    have harr : Arrived a (levels a 0 l) := by
      change Arrived a (rootLane a l)
      rw [hroot]
      rcases beginLane_cases a (hfresh l hl) with ⟨_, harr⟩ | ⟨g, l', hget, _⟩
      · exact harr
      · have hl := hnone l hl
        rw [hget] at hl
        exact nomatch hl
    rw [levels_arrived harr (Nat.zero_le _)]
    exact hroot.symm
  | cons item items =>
    exact .rootRead rfl (hitems ▸ rfl) (by change waits.sum + _ ≤ _; omega)

theorem At.drive {n : Nat} {t : Trav} (h : At a lanes n t) :
    (Trav.drive a n t).phase = .done ∧ (Trav.drive a n t).lanes = lanes.map (single a) := by
  have hdone : ∀ {t : Trav} {n : Nat}, At a lanes n t → t.phase = .done →
      t.phase = .done ∧ t.lanes = lanes.map (single a) := by
    intro t n h hp
    cases h with
    | done hp hlanes => exact ⟨hp, hlanes⟩
    | rootRead hp' | rootConsume hp' | childPrepare _ _ hp' | childRead _ _ hp'
      | childConsume _ _ hp' | seek hp' | largeRead hp' | largeConsume hp' =>
      rw [hp] at hp'
      exact nomatch hp'
  induction n generalizing t with
  | zero =>
    refine hdone h ?_
    cases h with
    | done hp _ => exact hp
    | rootRead _ _ hn | rootConsume _ _ _ hn | childPrepare _ _ _ _ hn | childRead _ _ _ _ hn
      | childConsume _ _ _ _ _ hn | seek _ _ hn | largeRead _ _ hn | largeConsume _ _ _ hn => omega
  | succ n ih =>
    unfold Trav.drive
    by_cases hp : t.phase = .done
    · rw [if_pos hp]
      exact hdone h hp
    · rw [if_neg hp]
      exact ih (h.step hfresh)

/-- A traversal comes to its last phase with each lane as it would be alone. -/
theorem traverse_single (waits : List Nat) :
    (traverse a lanes waits).phase = .done ∧
      (traverse a lanes waits).lanes = lanes.map (single a) :=
  (begin_at hfresh waits).drive hfresh

end

end Mdbx.Gets
