import Mdbx.DirtyList.Changes

/-!
# DirtyList.Runs — the list is a finite map

What the lookups find, and runs of operations from an empty list.  A search with a short tail scans it
for the page itself and then looks for a place in the head only.
-/

namespace Mdbx.DirtyList

open Buffer

variable {dl dl' : Dpl}

/-! ## 1. Lookups -/

theorem tailScan_some {pgno n i : Nat} (hn : n ≤ dl.length) (h : tailScan dl pgno n = some i) :
    dl.length - n < i ∧ i ≤ dl.length ∧ (dl.items i).pgno = pgno := by
  induction n with
  | zero => exact nomatch h
  | succ n ih =>
      rw [tailScan] at h
      split at h
      · rename_i hpgno
        cases h
        exact ⟨by omega, by omega, hpgno⟩
      · obtain ⟨hlo, hhi, hpgno⟩ := ih (by omega) h
        exact ⟨by omega, hhi, hpgno⟩

theorem tailScan_none {pgno n : Nat} (hn : n ≤ dl.length) (h : tailScan dl pgno n = none) :
    ∀ j, dl.length - n < j → j ≤ dl.length → (dl.items j).pgno ≠ pgno := by
  induction n with
  | zero => exact fun j hlo hhi => absurd hhi (by omega)
  | succ n ih =>
      rw [tailScan] at h
      split at h
      · exact nomatch h
      · rename_i hpgno
        intro j hlo hhi
        by_cases hj : j = dl.length - n
        · exact hj ▸ hpgno
        · exact ih (by omega) h j (by omega) hhi

/-- The index is the first of the items up to `n` that is not before the page, or it is after them. -/
structure FirstOf (dl : Dpl) (n pgno i : Nat) : Prop where
  pos : 1 ≤ i
  le : i ≤ n + 1
  before : ∀ j, 1 ≤ j → j < i → (dl.items j).pgno < pgno
  rest : ∀ j, i ≤ j → j ≤ n → pgno ≤ (dl.items j).pgno

theorem dpBsearch_first (c : Config) (h : Inv dl) (pgno : Nat) :
    FirstOf dl dl.sorted pgno (dpBsearch c dl pgno) := by
  have hascends := pairwise_slice.mp h.ascends
  have hbound := search_lowerBound c.haveCmov (fun i => (dl.items (i + 1)).pgno < pgno) dl.sorted
    (fun i j hij hj hbefore => by
      have hless := hascends (i + 1) (j + 1) (by omega) (by omega) (by omega)
      have hlt := of_decide_eq_true hbefore
      exact decide_eq_true (hless.trans hlt))
  unfold dpBsearch
  generalize search c.haveCmov (fun i => decide ((dl.items (i + 1)).pgno < pgno)) dl.sorted = k at *
  refine ⟨by omega, Nat.succ_le_succ hbound.inside, fun j hj hjk => ?_, fun j hj hjn => ?_⟩
  · have hlt := of_decide_eq_true (hbound.left (j - 1) (by omega))
    rwa [Nat.sub_add_cancel hj] at hlt
  · have hge := of_decide_eq_false (hbound.right (j - 1) (by omega) (by omega))
    rw [Nat.sub_add_cancel (by omega)] at hge
    exact Nat.le_of_not_lt hge

/-- In the head the first item that is not before the page is the one of the page, if it is there. -/
theorem FirstOf.hit (h : Inv dl) {i j : Nat} (hj : 1 ≤ j) (hjn : j ≤ dl.sorted)
    (hfirst : FirstOf dl dl.sorted (dl.items j).pgno i) : i = j := by
  have hij : i ≤ j := by
    by_contra hlt
    exact absurd (hfirst.before j hj (by omega)) (Nat.lt_irrefl _)
  by_contra hne
  have hpos := hfirst.pos
  have hless := pairwise_slice.mp h.ascends i j hpos (by omega) (by omega)
  have hge := hfirst.rest i (Nat.le_refl i) (by omega)
  omega

theorem mem_list {x : Dp} : x ∈ dl.list ↔ ∃ i, 1 ≤ i ∧ i ≤ dl.length ∧ dl.items i = x := by
  unfold Dpl.list
  rw [mem_slice]
  constructor
  · rintro ⟨i, hi, hle, heq⟩
    exact ⟨i, hi, by omega, heq⟩
  · rintro ⟨i, hi, hle, heq⟩
    exact ⟨i, hi, by omega, heq⟩

/-- No two items are of one page. -/
theorem Inv.index_eq (h : Inv dl) {i j : Nat} (hi : 1 ≤ i) (hin : i ≤ dl.length) (hj : 1 ≤ j)
    (hjn : j ≤ dl.length) (heq : (dl.items i).pgno = (dl.items j).pgno) : i = j := by
  have hapart := pairwise_slice.mp (List.pairwise_map.mp h.distinct)
  by_contra hne
  rcases Nat.lt_or_gt_of_ne hne with hlt | hlt
  · exact hapart i j hi hlt (by omega) heq
  · exact hapart j i hj hlt (by omega) heq.symm

/-- What a search answers.  The list is sorted when its tail is too long to be scanned. -/
structure SearchSays (dl : Dpl) (pgno : Nat) (out : Nat × Dpl) : Prop where
  inv : Inv out.2
  length : out.2.length = dl.length
  perm : out.2.list.Perm dl.list
  hit : ∀ x ∈ dl.list, x.pgno = pgno → out.1 ≤ dl.length ∧ out.2.items out.1 = x
  whole : dl.length - dl.sorted = 0 ∨ 7 < dl.length - dl.sorted →
    FirstOf out.2 out.2.length pgno out.1
  head : pgno ∉ dl.list.map Dp.pgno → FirstOf out.2 out.2.sorted pgno out.1
  pos : 1 ≤ out.1 ∧ out.1 ≤ dl.length + 1

theorem searchSays_sorted (c : Config) (h' : Inv dl') (hlength : dl'.length = dl.length)
    (hperm : dl'.list.Perm dl.list) (hsorted : dl'.sorted = dl'.length) (pgno : Nat) :
    SearchSays dl pgno (dpBsearch c dl' pgno, dl') := by
  have hfirst := dpBsearch_first c h' pgno
  refine ⟨h', hlength, hperm, fun x hx hpgno => ?_, fun _ => ?_, fun _ => hfirst, hfirst.pos, ?_⟩
  · obtain ⟨j, hj, hjn, rfl⟩ := mem_list.mp (hperm.mem_iff.mpr hx)
    subst hpgno
    have heq := hfirst.hit h' hj (by omega)
    exact ⟨by omega, by rw [heq]⟩
  · have hwhole := hfirst
    rwa [hsorted] at hwhole
  · have hle := hfirst.le
    omega

theorem txnDplSearch_says (c : Config) (memory : Bool) (h : Inv dl) (pgno : Nat) :
    SearchSays dl pgno (txnDplSearch c memory dl pgno) := by
  have hhead := h.head
  unfold txnDplSearch
  by_cases hlong : 7 < dl.length - dl.sorted
  · rw [if_pos hlong]
    have hs := slowpath_sorted c memory h (by omega)
    exact searchSays_sorted c (h.of_sorted hs) hs.length hs.perm
      (hs.sorted.trans hs.length.symm) pgno
  · rw [if_neg hlong]
    cases hscan : tailScan dl pgno (dl.length - dl.sorted) with
    | some i =>
        obtain ⟨hlo, hhi, hpgno⟩ := tailScan_some (Nat.sub_le _ _) hscan
        dsimp only
        refine ⟨h, rfl, .refl _, fun x hx hx' => ⟨hhi, ?_⟩, fun hno => ?_, fun hnot => ?_, ?_⟩
        · obtain ⟨j, hj, hjn, rfl⟩ := mem_list.mp hx
          rw [h.index_eq (by omega) hhi hj hjn (hpgno.trans hx'.symm)]
        · omega
        · exact absurd (hpgno ▸ List.mem_map_of_mem (mem_list.mpr ⟨i, by omega, hhi, rfl⟩)) hnot
        · exact ⟨by omega, by omega⟩
    | none =>
        by_cases hall : dl.length - dl.sorted = 0
        · exact searchSays_sorted c h rfl (.refl _) (by omega) pgno
        · have hfirst := dpBsearch_first c h pgno
          have hmissed := tailScan_none (Nat.sub_le _ _) hscan
          dsimp only
          refine ⟨h, rfl, .refl _, fun x hx hx' => ?_, fun hno => ?_, fun _ => hfirst,
            hfirst.pos, ?_⟩
          · obtain ⟨j, hj, hjn, rfl⟩ := mem_list.mp hx
            have hin : j ≤ dl.sorted := by
              by_contra hout
              exact hmissed j (by omega) hjn hx'
            subst hx'
            have heq := hfirst.hit h hj hin
            exact ⟨by omega, by rw [heq]⟩
          · omega
          · have hle := hfirst.le
            omega

/-- `txn_dpl_exist` finds the item of a page exactly when there is one. -/
theorem txnDplExist_says (c : Config) (memory : Bool) (h : Inv dl) {pgno : Nat}
    (hpage : pgno < pInvalid) :
    let out := txnDplExist c memory dl pgno
    if out.1 = 0 then pgno ∉ dl.list.map Dp.pgno
    else out.2.items out.1 ∈ dl.list ∧ (out.2.items out.1).pgno = pgno := by
  have hfind := txnDplSearch_says c memory h pgno
  unfold txnDplExist
  dsimp only
  generalize txnDplSearch c memory dl pgno = out at *
  have hpos := hfind.pos
  by_cases hfound : (out.2.items out.1).pgno = pgno
  · rw [if_pos hfound, if_neg (by omega)]
    refine ⟨?_, hfound⟩
    have hin : out.1 ≤ dl.length := by
      by_contra hout
      have hlast : out.1 = out.2.length + 1 := by
        have hlength := hfind.length
        omega
      rw [hlast, hfind.inv.ends] at hfound
      change pInvalid = pgno at hfound
      omega
    exact hfind.perm.mem_iff.mp (mem_list.mpr ⟨out.1, hpos.1, by rw [hfind.length]; exact hin, rfl⟩)
  · rw [if_neg hfound, if_pos rfl]
    intro hmem
    obtain ⟨x, hx, hpgno⟩ := List.mem_map.mp hmem
    have hhit := hfind.hit x hx hpgno
    rw [hhit.2] at hfound
    exact hfound hpgno

/-! ## 2. Operations -/

inductive Op where
  | append (dp : Dp) (answer : Option Nat)
  -- `txn_dpl_remove_ex` with the pages of the item, as `page_wash` and `txn_dpl_remove` call it
  | removeEx (i : Nat)
  | sort (memory : Bool)
  | search (memory : Bool) (pgno : Nat)
  | exist (memory : Bool) (pgno : Nat)

/-- The list, and for each page the item that was appended last and has not been removed. -/
structure Tracked where
  dl : Dpl
  held : Nat → Option Dp

def apply (c : Config) (s : Tracked) : Op → Tracked
  | .append dp answer =>
      let out := txnDplAppend c s.dl dp answer
      ⟨out.2, if out.1 = .success then set s.held dp.pgno (some dp) else s.held⟩
  | .removeEx i =>
      ⟨txnDplRemoveEx s.dl i (s.dl.items i).npages, set s.held (s.dl.items i).pgno none⟩
  | .sort memory => { s with dl := txnDplSort c memory s.dl }
  | .search memory pgno => { s with dl := (txnDplSearch c memory s.dl pgno).2 }
  | .exist memory pgno => { s with dl := (txnDplExist c memory s.dl pgno).2 }

/-- What the callers promise: a page is appended only once, and an item of the list is removed. -/
def Legal (s : Tracked) : Op → Prop
  | .append dp _ => 0 < dp.pgno ∧ dp.pgno < pInvalid ∧ s.held dp.pgno = none
  | .removeEx i => 1 ≤ i ∧ i ≤ s.dl.length
  | _ => True

def LegalAll (c : Config) (s : Tracked) : List Op → Prop
  | [] => True
  | op :: ops => Legal s op ∧ LegalAll c (apply c s op) ops

def applyAll (c : Config) (s : Tracked) : List Op → Tracked
  | [] => s
  | op :: ops => applyAll c (apply c s op) ops

/-- `txn_dpl_alloc`, where nothing has been appended yet. -/
def begun (dl : Dpl) : Tracked := ⟨dplInit dl, fun _ => none⟩

structure Agrees (s : Tracked) : Prop where
  inv : Inv s.dl
  held : ∀ pgno x, s.held pgno = some x ↔ x ∈ s.dl.list ∧ x.pgno = pgno

theorem Agrees.none_iff {s : Tracked} (h : Agrees s) {pgno : Nat} :
    s.held pgno = none ↔ pgno ∉ s.dl.list.map Dp.pgno := by
  constructor
  · intro hnone hmem
    obtain ⟨x, hx, hpgno⟩ := List.mem_map.mp hmem
    rw [(h.held pgno x).mpr ⟨hx, hpgno⟩] at hnone
    exact nomatch hnone
  · intro hnot
    cases hheld : s.held pgno with
    | none => rfl
    | some x =>
        obtain ⟨hx, hpgno⟩ := (h.held pgno x).mp hheld
        exact absurd (hpgno ▸ List.mem_map_of_mem hx) hnot

theorem begun_agrees (dl : Dpl) : Agrees (begun dl) := by
  refine ⟨?_, fun pgno x => ⟨nofun, fun h => nomatch h.1⟩⟩
  exact ⟨rfl, rfl, Nat.le_refl _, List.Pairwise.nil, List.nodup_nil, nofun, rfl⟩

/-- A new order of the items. -/
theorem Agrees.permuted {s : Tracked} (h : Agrees s) {dl : Dpl} (hinv : Inv dl)
    (hperm : dl.list.Perm s.dl.list) : Agrees { s with dl := dl } :=
  ⟨hinv, fun pgno x => by rw [h.held pgno x]; exact and_congr_left fun _ => hperm.mem_iff.symm⟩

theorem apply_agrees (c : Config) {s : Tracked} (h : Agrees s) (op : Op) (hlegal : Legal s op) :
    Agrees (apply c s op) := by
  cases op with
  | append dp answer =>
      obtain ⟨hpos, hvalid, hnone⟩ := hlegal
      obtain ⟨hinv, hadded, hfailed⟩ :=
        txnDplAppend_spec c h.inv ⟨hpos, hvalid⟩ (h.none_iff.mp hnone) answer
      refine ⟨hinv, fun pgno x => ?_⟩
      change (if (txnDplAppend c s.dl dp answer).1 = .success then set s.held dp.pgno (some dp)
        else s.held) pgno = some x ↔ x ∈ (txnDplAppend c s.dl dp answer).2.list ∧ x.pgno = pgno
      by_cases hrc : (txnDplAppend c s.dl dp answer).1 = .success
      · rw [if_pos hrc, (hadded hrc).mem_iff, List.mem_cons]
        by_cases hpage : pgno = dp.pgno
        · subst hpage
          rw [set_self, Option.some_inj]
          constructor
          · rintro rfl
            exact ⟨.inl rfl, rfl⟩
          · rintro ⟨rfl | hx, hpgno⟩
            · rfl
            · exact absurd (hpgno ▸ List.mem_map_of_mem hx) (h.none_iff.mp hnone)
        · rw [set_of_ne _ _ hpage, h.held pgno x]
          constructor
          · exact fun hx => ⟨.inr hx.1, hx.2⟩
          · rintro ⟨rfl | hx, hpgno⟩
            · exact absurd hpgno.symm hpage
            · exact ⟨hx, hpgno⟩
      · rw [if_neg hrc, hfailed hrc]
        exact h.held pgno x
  | removeEx i =>
      obtain ⟨hi, hle⟩ := hlegal
      obtain ⟨hinv, hperm⟩ := txnDplRemoveEx_spec h.inv hi hle
      have hdistinct := (hperm.map Dp.pgno).nodup_iff.mp h.inv.distinct
      have hgone := (List.nodup_cons.mp hdistinct).1
      refine ⟨hinv, fun pgno x => ?_⟩
      change set s.held (s.dl.items i).pgno none pgno = some x ↔
        x ∈ (txnDplRemoveEx s.dl i (s.dl.items i).npages).list ∧ x.pgno = pgno
      by_cases hpage : pgno = (s.dl.items i).pgno
      · subst hpage
        rw [set_self]
        exact ⟨nofun, fun hx => absurd (hx.2 ▸ List.mem_map_of_mem hx.1) hgone⟩
      · rw [set_of_ne _ _ hpage, h.held pgno x, hperm.mem_iff, List.mem_cons]
        constructor
        · rintro ⟨rfl | hx, hpgno⟩
          · exact absurd hpgno.symm hpage
          · exact ⟨hx, hpgno⟩
        · exact fun hx => ⟨.inr hx.1, hx.2⟩
  | sort memory =>
      have hs := txnDplSort_sorted c memory h.inv
      exact h.permuted (h.inv.of_sorted hs) hs.perm
  | search memory pgno =>
      have hfind := txnDplSearch_says c memory h.inv pgno
      exact h.permuted hfind.inv hfind.perm
  | exist memory pgno =>
      have hfind := txnDplSearch_says c memory h.inv pgno
      exact h.permuted hfind.inv hfind.perm

theorem applyAll_agrees (c : Config) : ∀ (ops : List Op) {s : Tracked}, Agrees s →
    LegalAll c s ops → Agrees (applyAll c s ops)
  | [], _, h, _ => h
  | op :: ops, _, h, hlegal => applyAll_agrees c ops (apply_agrees c h op hlegal.1) hlegal.2

/-! ## 3. The finite map -/

/-- In every state of a run the head ascends, the stubs are in their places and the pages are counted;
a search finds the item of a page wherever it is, and else the first item that is not before it, of the
whole list or, with a short tail, of the head; a lookup agrees with what has been appended. -/
theorem dirtyList_finite_map (c : Config) (dl : Dpl) (ops : List Op)
    (hlegal : LegalAll c (begun dl) ops) :
    let s := applyAll c (begun dl) ops
    Ascends (slice s.dl.items 1 s.dl.sorted) ∧ s.dl.sorted ≤ s.dl.length ∧
    s.dl.items 0 = stubB ∧ s.dl.items (s.dl.length + 1) = stubE ∧
    s.dl.pagesIncludingLoose = (s.dl.list.map Dp.npages).sum ∧
    (∀ memory pgno, SearchSays s.dl pgno (txnDplSearch c memory s.dl pgno)) ∧
    ∀ memory pgno, pgno < pInvalid →
      let out := txnDplExist c memory s.dl pgno
      s.held pgno = if out.1 = 0 then none else some (out.2.items out.1) := by
  have h := applyAll_agrees c ops (begun_agrees dl) hlegal
  dsimp only
  generalize applyAll c (begun dl) ops = s at *
  refine ⟨h.inv.ascends, h.inv.head, h.inv.begins, h.inv.ends, h.inv.counted,
    fun memory pgno => txnDplSearch_says c memory h.inv pgno, fun memory pgno hpage => ?_⟩
  have hfind := txnDplExist_says c memory h.inv hpage
  dsimp only at hfind
  split
  · rename_i hzero
    rw [if_pos hzero] at hfind
    exact h.none_iff.mpr hfind
  · rename_i hfound
    rw [if_neg hfound] at hfind
    exact (h.held pgno _).mpr hfind

/-! ## 4. A short tail -/

instance (s : Tracked) : ∀ op, Decidable (Legal s op)
  | .append dp _ => inferInstanceAs (Decidable (0 < dp.pgno ∧ dp.pgno < pInvalid ∧ _ = none))
  | .removeEx i => inferInstanceAs (Decidable (1 ≤ i ∧ i ≤ s.dl.length))
  | .sort _ | .search _ _ | .exist _ _ => inferInstanceAs (Decidable True)

instance decidableLegalAll (c : Config) : ∀ s ops, Decidable (LegalAll c s ops)
  | _, [] => inferInstanceAs (Decidable True)
  | s, op :: ops =>
      have := decidableLegalAll c (apply c s op) ops
      inferInstanceAs (Decidable (Legal s op ∧ LegalAll c (apply c s op) ops))

def usualConfig : Config := ⟨true, true, 2 ^ 31 - 1, 1018⟩

def freshList : Dpl := ⟨0, 0, 0, 64, fun _ => stubB⟩

/-- 43 pages in order, and one before them. -/
def mixedOps : List Op :=
  (List.range' 100 43).map (fun p => .append ⟨4096 * p, p, 1⟩ none) ++
    [.append ⟨4096 * 50, 50, 1⟩ none]

theorem dirtyList_finite_map_mixed :
    LegalAll usualConfig (begun freshList) mixedOps ∧
    (applyAll usualConfig (begun freshList) mixedOps).dl.pagesIncludingLoose =
      ((applyAll usualConfig (begun freshList) mixedOps).dl.list.map Dp.npages).sum := by
  have hlegal : LegalAll usualConfig (begun freshList) mixedOps := by decide +kernel
  exact ⟨hlegal, (dirtyList_finite_map usualConfig freshList mixedOps hlegal).2.2.2.2.1⟩

/-- With one item in the tail a search for a page behind all items stops at that item, which is before
the page. -/
theorem search_stops_at_tail :
    LegalAll usualConfig (begun freshList) mixedOps ∧
    let dl := (applyAll usualConfig (begun freshList) mixedOps).dl
    let out := txnDplSearch usualConfig true dl 200
    out.1 ≤ out.2.length ∧ (out.2.items out.1).pgno < 200 := by
  decide +kernel

end Mdbx.DirtyList
