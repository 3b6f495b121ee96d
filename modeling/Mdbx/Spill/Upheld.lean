import Mdbx.Spill.Barred
import Mdbx.Spill.Moves
import Mdbx.Spill.Removal

/-!
# Spill.Upheld — the pages of a transaction that spills

The dirty pages and those of the spill list are the same before and after, unless the call for a page
fails.  The page of that call is then in neither list, and the result of `iov_write` may hide it.
-/

namespace Mdbx.Spill

open Buffer
open Nested (Spilled)

variable {t t' : Txn} {m0 : Option Cursor} {moved : List Item} {o : Options} {answers : Answers}
  {v : Watch} {wanted : Amount} {sp : Spilled}

def pagesOf (x : Item) : List Nat := List.range' x.pgno x.npages

def dirtyPages (t : Txn) : List Nat := t.dirty.flatMap pagesOf

/-- The pages of a spill list. -/
def listPages (sp : Spilled) : List Nat := (kept sp.list.list).map (· / 2)

def spilledPages (t : Txn) : List Nat :=
  match t.spilled with
  | none => []
  | some sp => listPages sp

/-- No page is in two places, and both lists are as they should be. -/
structure Ready (t : Txn) : Prop where
  npages : ∀ x ∈ t.dirty, 0 < x.npages
  once : (dirtyPages t ++ spilledPages t).Nodup
  short : (dirtyPages t ++ spilledPages t).length < Nested.intMax
  counted : t.pagesIncludingLoose = (t.dirty.map Item.npages).sum
  listed : ∀ sp, t.spilled = some sp → Listed sp
  parents : Inherited t.parents

/-- The items `moved` went from the dirty list to the spill list, each of them once. -/
structure Upheld (t : Txn) (m0 : Option Cursor) (t' : Txn) (moved : List Item) : Prop where
  dirty : ((t'.dirty ++ moved).map core).Perm (t.dirty.map core)
  spilled : (spilledPages t').Perm (spilledPages t ++ moved.flatMap pagesOf)
  same : (dirtyPages t' ++ spilledPages t').Perm (dirtyPages t ++ spilledPages t)
  dirtyroom : t'.dirtyroom + t'.dirty.length = t.dirtyroom + t.dirty.length
  counted : t'.pagesIncludingLoose = (t'.dirty.map Item.npages).sum
  loose : ∀ x ∈ moved, x.loose = false
  kept : ∀ mc ∈ keptCursors t m0, ∀ ref ∈ refsOf mc, ref.modifable → ∀ x ∈ moved, x.pgno ≠ ref.pgno
  parents : ∀ x ∈ moved, ∀ p ∈ pagesOf x, ∀ parent ∈ t.parents, ¬ parent.Holds p

/-! ## 1. Pages of items -/

theorem pages_of_core {l l' : List Item} (h : (l.map core).Perm (l'.map core)) :
    (l.flatMap pagesOf).Perm (l'.flatMap pagesOf) := by
  have hpages : ∀ l : List Item,
      l.flatMap pagesOf = (l.map core).flatMap fun c => List.range' c.1 c.2.1 := by
    intro l
    rw [List.flatMap_map]
    rfl
  rw [hpages, hpages]
  exact h.flatMap_right _

theorem sum_of_core {l l' : List Item} (h : (l.map core).Perm (l'.map core)) :
    (l.map Item.npages).sum = (l'.map Item.npages).sum := by
  have hsum : ∀ l : List Item, l.map Item.npages = (l.map core).map fun c => c.2.1 := by
    intro l
    rw [List.map_map]
    rfl
  rw [hsum, hsum]
  exact (h.map _).sum_eq

theorem pages_length (l : List Item) : (l.flatMap pagesOf).length = (l.map Item.npages).sum := by
  rw [List.length_flatMap]
  congr 1
  refine List.map_congr_left fun x _ => ?_
  exact List.length_range'

theorem npages_of_core {l l' : List Item} (h : (l.map core).Perm (l'.map core))
    (hpos : ∀ x ∈ l', 0 < x.npages) : ∀ x ∈ l, 0 < x.npages := by
  intro x hx
  obtain ⟨y, hy, heq⟩ := List.mem_map.mp (h.subset (List.mem_map_of_mem hx))
  have hsame : y.npages = x.npages := congrArg (fun c => c.2.1) heq
  rw [← hsame]
  exact hpos y hy

/-! ## 2. Pages of the spill list -/

theorem ofList_list (l : List Nat) : (Pnl.ofList l).list = l := by
  refine List.ext_getElem? fun k => ?_
  change (slice (Pnl.ofList l).cells 1 l.length)[k]? = _
  by_cases hk : k < l.length
  · rw [slice_getElem? hk]
    change some (l.getD (1 + k - 1) 0) = _
    rw [Nat.add_sub_cancel_left, List.getD_eq_getElem?_getD, List.getElem?_eq_getElem hk]
    rfl
  · rw [List.getElem?_eq_none (by rw [slice_length]; omega), List.getElem?_eq_none (by omega)]

theorem listPages_of_even {words : List Nat} (h : ∀ word ∈ words, word % 2 = 0) (n : Nat) :
    listPages ⟨Pnl.ofList words, n⟩ = words.map (· / 2) := by
  unfold listPages
  rw [ofList_list, kept_of_even h]

theorem wordsOf_even (l : List Item) : ∀ word ∈ l.flatMap wordsOf, word % 2 = 0 := by
  intro word hword
  obtain ⟨x, -, hin⟩ := List.mem_flatMap.mp hword
  obtain ⟨p, -, rfl⟩ := List.mem_map.mp (List.mem_reverse.mp hin)
  exact Nat.mul_mod_right 2 p

theorem wordsOf_pages (l : List Item) :
    ((l.flatMap wordsOf).map (· / 2)).Perm (l.flatMap pagesOf) := by
  rw [List.map_flatMap]
  refine List.Perm.flatMap_left _ fun x _ => ?_
  unfold wordsOf
  rw [List.map_reverse, List.map_map]
  refine (List.reverse_perm _).trans ?_
  have hid : (List.range' x.pgno x.npages).map ((· / 2) ∘ fun p => 2 * p) = pagesOf x := by
    refine (List.map_congr_left fun p _ => ?_).trans (List.map_id _)
    exact Nat.mul_div_cancel_left p (by decide)
  rw [hid]

/-- Words of different pages in descending order are a spill list. -/
theorem listed_of_sorted {words : List Nat} (hsorted : words.Pairwise fun p q => q ≤ p)
    (heven : ∀ word ∈ words, word % 2 = 0) (hnodup : (words.map (· / 2)).Nodup)
    (hshort : words.length < Nested.intMax) : Listed ⟨Pnl.ofList words, Nested.intMax⟩ := by
  refine Listed.of_list ?_ (by rw [ofList_list]; exact heven) hshort
  rw [ofList_list]
  have hdistinct : words.Pairwise fun p q => p / 2 ≠ q / 2 := List.pairwise_map.mp hnodup
  refine (hsorted.and hdistinct).imp fun {p q} hpq => ?_
  have hhalf := Nat.div_le_div_right (c := 2) hpq.1
  omega

/-! ## 3. The list that is opened -/

/-- The spill list has no removed words, and its pages are those from before. -/
structure Opened (t : Txn) (sp : Spilled) : Prop where
  listed : Listed sp
  even : ∀ word ∈ sp.list.list, word % 2 = 0
  pages : sp.list.list.map (· / 2) = spilledPages t

theorem openList_spec (h : Ready t) (hopen : openList answers t = some sp) : Opened t sp := by
  unfold openList at hopen
  cases hspilled : t.spilled with
  | none =>
      rw [hspilled] at hopen
      dsimp only at hopen
      split at hopen
      · cases hopen
        have hempty : (⟨fun _ => 0, 0⟩ : Pnl).list = [] := rfl
        have hnone : spilledPages t = [] := by
          unfold spilledPages
          rw [hspilled]
        refine ⟨Listed.of_list (by rw [hempty]; exact List.Pairwise.nil)
          (by rw [hempty]; exact fun _ hin => absurd hin List.not_mem_nil) (by decide), ?_, ?_⟩
        · exact fun _ hin => absurd (hempty ▸ hin) List.not_mem_nil
        · rw [hnone]
          rfl
      · cases hopen
  | some old =>
      rw [hspilled] at hopen
      cases hopen
      have hpages : spilledPages t = listPages old := by
        unfold spilledPages
        rw [hspilled]
      obtain ⟨hlisted, -, heven, -⟩ := spillPurge_spec (h.listed old hspilled)
      refine ⟨hlisted, heven, ?_⟩
      rw [spillPurge_list (h.listed old hspilled), hpages]
      rfl

/-! ## 4. Before the choice -/

/-- The dirty list is in order and has new labels. -/
structure Prepared (t : Txn) (m0 : Option Cursor) (sp : Spilled) (t' : Txn) : Prop where
  opened : Opened t sp
  spilled : t'.spilled = some sp
  same : (t'.dirty.map core).Perm (t.dirty.map core)
  dirtyroom : t'.dirtyroom = t.dirtyroom
  pages : t'.pagesIncludingLoose = t.pagesIncludingLoose
  parents : t'.parents = t.parents
  error : t'.error = t.error
  young : ∀ mc ∈ keptCursors t m0, ∀ ref ∈ refsOf mc, ref.modifable →
    Young t'.dirtylru t'.dirty ref.pgno

theorem Opened.spilledPages (h : Opened t sp) (hspilled : t'.spilled = some sp) :
    spilledPages t' = spilledPages t := by
  rw [← h.pages]
  unfold Spill.spilledPages
  rw [hspilled]
  change (kept sp.list.list).map _ = _
  rw [kept_of_even h.even]

/-- The transaction after `spill_txn_keep`. -/
def keptTxn (t : Txn) (m0 : Option Cursor) (sp : Spilled) : Txn :=
  { (spillTxnKeep { t with dirty := t.dirty.insertionSort fun x y => x.pgno ≤ y.pgno } m0).2 with
    spilled := some sp }

theorem keptTxn_prepared (m0 : Option Cursor) (h : Opened t sp) : Prepared t m0 sp (keptTxn t m0 sp) := by
  obtain ⟨hcore, hout, hyoung⟩ := spillTxnKeep_spec { t with
    dirty := t.dirty.insertionSort fun x y => x.pgno ≤ y.pgno } m0
  unfold keptTxn
  constructor
  · exact h
  · rfl
  · change ((spillTxnKeep _ m0).2.dirty.map _).Perm _
    rw [hcore]
    exact (List.perm_insertionSort _ _).map _
  · rw [hout]
  · rw [hout]
  · rw [hout]
  · rw [hout]
  · exact hyoung

theorem Prepared.mark {prepared : Txn} (h : Prepared t m0 sp prepared) (v : Watch) :
    Prepared t m0 sp { prepared with
      dirty := prepared.dirty.map (spillMark v), spilled := some sp } := by
  constructor
  · exact h.opened
  · rfl
  · rw [spillMark_core]
    exact h.same
  · exact h.dirtyroom
  · exact h.pages
  · exact h.parents
  · exact h.error
  · exact fun mc hmc ref href hmod => spillMark_young (h.young mc hmc ref href hmod)

theorem Ready.upheld_of_same (h : Ready t) (hcore : (t'.dirty.map core).Perm (t.dirty.map core))
    (hspilled : spilledPages t' = spilledPages t) (hroom : t'.dirtyroom = t.dirtyroom)
    (hpages : t'.pagesIncludingLoose = t.pagesIncludingLoose) : Upheld t m0 t' [] := by
  constructor
  · rw [List.append_nil]
    exact hcore
  · rw [hspilled, List.flatMap_nil, List.append_nil]
  · rw [hspilled]
    exact (pages_of_core hcore).append_right _
  · have hlength := hcore.length_eq
    rw [List.length_map, List.length_map] at hlength
    rw [hroom, hlength]
  · rw [hpages, h.counted]
    exact (sum_of_core hcore).symm
  · exact fun _ hin => absurd hin List.not_mem_nil
  · exact fun _ _ _ _ _ _ hin => absurd hin List.not_mem_nil
  · exact fun _ hin => absurd hin List.not_mem_nil

/-! ## 5. What the loop moved -/

/-- `left` stays in the dirty list, and `moved` and `lost` do not. -/
structure Divided (t : Txn) (t' : Txn) (words : List Nat) (moved lost : List Item) : Prop where
  dirty : ((t'.dirty ++ (moved ++ lost)).map core).Perm (t.dirty.map core)
  spilled : t'.spilled = some ⟨Pnl.ofList words, Nested.intMax⟩
  even : ∀ word ∈ words, word % 2 = 0
  words : (words.map (· / 2)).Perm (spilledPages t ++ moved.flatMap pagesOf)

theorem Divided.pages {words : List Nat} {lost : List Item} (h : Divided t t' words moved lost) :
    spilledPages t' = words.map (· / 2) := by
  unfold spilledPages
  rw [h.spilled]
  exact listPages_of_even h.even _

theorem Divided.all {words : List Nat} {lost : List Item} (h : Divided t t' words moved lost) :
    (dirtyPages t' ++ (lost.flatMap pagesOf ++ spilledPages t')).Perm
      (dirtyPages t ++ spilledPages t) := by
  have hdirty := pages_of_core h.dirty
  have hwords := h.words
  rw [← h.pages] at hwords
  rw [List.flatMap_append, List.flatMap_append] at hdirty
  unfold dirtyPages
  rw [List.perm_iff_count] at hdirty hwords ⊢
  intro p
  have hd := hdirty p
  have hw := hwords p
  simp only [List.count_append] at hd hw ⊢
  omega

theorem Divided.listed {words : List Nat} {lost : List Item} (hready : Ready t)
    (h : Divided t t' words moved lost) (hsorted : words.Pairwise fun p q => q ≤ p) :
    Listed ⟨Pnl.ofList words, Nested.intMax⟩ := by
  have hall := h.all
  have hlength := hall.length_eq
  have hshort := hready.short
  rw [← hlength, List.length_append, List.length_append, h.pages, List.length_map] at hshort
  refine listed_of_sorted hsorted h.even ?_ (by omega)
  rw [← h.pages]
  exact (List.nodup_append.mp (List.nodup_append.mp (hall.nodup_iff.mpr hready.once)).2.1).2.1

/-- An item that was lost is in neither list. -/
theorem Divided.not_upheld {words : List Nat} {lost : List Item} {x : Item} (hready : Ready t)
    (h : Divided t t' words moved (x :: lost)) (other : List Item) : ¬ Upheld t m0 t' other := by
  intro hup
  have hcore := h.dirty.trans hup.dirty.symm
  have hpos := npages_of_core h.dirty hready.npages x
    (List.mem_append_right _ (List.mem_append_right _ List.mem_cons_self))
  have hdirty := sum_of_core hcore
  have hspilled := hup.spilled.length_eq
  have hwords := h.words.length_eq
  rw [h.pages] at hspilled
  rw [List.length_append, pages_length] at hspilled hwords
  simp only [List.map_append, List.sum_append, List.map_cons, List.sum_cons] at hdirty
  omega

theorem Upheld.ready (h : Ready t) (hup : Upheld t m0 t' moved) (hparents : t'.parents = t.parents)
    (hlisted : ∀ sp, t'.spilled = some sp → Listed sp) : Ready t' := by
  constructor
  · intro x hx
    exact npages_of_core hup.dirty h.npages x (List.mem_append_left _ hx)
  · exact hup.same.nodup_iff.mpr h.once
  · rw [hup.same.length_eq]
    exact h.short
  · exact hup.counted
  · exact hlisted
  · rw [hparents]
    exact h.parents

end Mdbx.Spill
