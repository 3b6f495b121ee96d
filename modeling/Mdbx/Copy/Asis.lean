import Mdbx.Copy.Puts
import Mdbx.Lib.WriteLog

/-!
# Copy.Asis — a copy page by page, and what a crash leaves of a copy

The bytes of the snapshot go to the destination in pieces of any length.  In a file the meta pages
come last, behind a sync; in a pipe they come first.
-/

namespace Mdbx.Copy

/-! ## 1. A copy as it is -/

/-- A round of the loop of `copy_asis`: the system, or the read and the write, have brought over some
bytes, and may have failed. -/
structure Round where
  payload : Nat
  err : Int
  deriving DecidableEq

structure Asis where
  destIsPipe : Bool
  /-- The meta pages that were made for the copy. -/
  metas : List UInt8
  /-- The file of the snapshot, up to `first_unallocated`. -/
  used : List UInt8
  -- up to `end_pgno`, in bytes
  wholeSize : Nat

/-- To the end of a pipe or to their place in a file. -/
def Asis.land (a : Asis) (dest : List UInt8) (offset : Nat) (bytes : List UInt8) : List UInt8 :=
  if a.destIsPipe then dest ++ bytes else poke dest offset bytes

/-- The loop; `none` when there is no round left to go on with. -/
def asisLoop (a : Asis) : List Round → Nat → List UInt8 → Option (Int × List UInt8)
  | [], offset, dest => if offset < a.used.length then none else some (0, dest)
  | r :: rounds, offset, dest =>
    if offset < a.used.length then
      let sent := a.land dest offset ((a.used.drop offset).take r.payload)
      if r.err = 0 then asisLoop a rounds (offset + r.payload) sent else some (r.err, sent)
    else some (0, dest)

/-- `copy_fsetsize`, or the zeros for a pipe. -/
def Asis.extend (a : Asis) (dest : List UInt8) : List UInt8 :=
  if a.wholeSize = a.used.length then dest
  else if a.destIsPipe then dest ++ List.replicate (a.wholeSize - a.used.length) 0
  else dest.take a.wholeSize ++ List.replicate (a.wholeSize - dest.length) 0

/-- `copy_asis`, where the extension does not fail. -/
def copyAsis (a : Asis) (rounds : List Round) (dest : List UInt8) : Option (Int × List UInt8) :=
  let begun := if a.destIsPipe then dest ++ a.metas else dest
  let offset := if a.destIsPipe then 0 else a.metas.length
  (asisLoop a rounds offset begun).map fun r => if r.1 = 0 then (r.1, a.extend r.2) else r

/-- What the sizes of a snapshot are to each other. -/
structure Asis.Ok (a : Asis) : Prop where
  metas : a.metas.length ≤ a.used.length
  whole : a.used.length ≤ a.wholeSize

variable {a : Asis} {rounds : List Round} {dest out : List UInt8} {offset : Nat}

theorem land_nil (a : Asis) (dest : List UInt8) (offset : Nat) : a.land dest offset [] = dest := by
  unfold Asis.land poke
  split_ifs
  · exact List.append_nil dest
  · rw [List.append_nil, List.length_nil, Nat.add_zero, List.take_append_drop]

theorem land_land (hle : a.destIsPipe = false → offset ≤ dest.length) (b c : List UInt8) :
    a.land (a.land dest offset b) (offset + b.length) c = a.land dest offset (b ++ c) := by
  unfold Asis.land
  cases hpipe : a.destIsPipe with
  | true => simp only [if_true, List.append_assoc]
  | false =>
    simp only [Bool.false_eq_true, if_false]
    exact poke_poke (hle hpipe)

theorem asisLoop_done (rounds : List Round) (dest : List UInt8) (h : a.used.length ≤ offset) :
    asisLoop a rounds offset dest = some (0, dest) := by
  cases rounds with
  | nil => exact if_neg (Nat.not_lt.mpr h)
  | cons r rounds => exact if_neg (Nat.not_lt.mpr h)

/-- Whatever the rounds bring over, a loop that ends well has brought over everything. -/
theorem asisLoop_whole (hle : a.destIsPipe = false → offset ≤ dest.length)
    (h : asisLoop a rounds offset dest = some (0, out)) :
    out = a.land dest offset (a.used.drop offset) := by
  induction rounds generalizing offset dest with
  | nil =>
    unfold asisLoop at h
    split_ifs at h
    cases h
    rw [List.drop_eq_nil_of_le (by omega), land_nil]
  | cons r rounds ih =>
    by_cases hmore : offset < a.used.length
    · rw [asisLoop, if_pos hmore] at h
      dsimp only at h
      by_cases herr : r.err = 0
      · rw [if_pos herr] at h
        by_cases hall : a.used.length ≤ offset + r.payload
        · -- this round takes the rest
          rw [asisLoop_done _ _ hall] at h
          cases h
          rw [List.take_of_length_le (by rw [List.length_drop]; omega)]
        · have hlen : ((a.used.drop offset).take r.payload).length = r.payload := by
            rw [List.length_take, List.length_drop]
            omega
          have hroom : a.destIsPipe = false → offset + r.payload ≤
              (a.land dest offset ((a.used.drop offset).take r.payload)).length := by
            intro hfile
            have hd := hle hfile
            unfold Asis.land poke
            rw [hfile, if_neg Bool.false_ne_true, List.length_append, head_length hd, hlen]
            omega
          have hrest := land_land hle ((a.used.drop offset).take r.payload)
            (a.used.drop (offset + r.payload))
          rw [hlen, ← List.drop_drop, List.take_append_drop] at hrest
          have hnext := ih hroom h
          rw [← List.drop_drop] at hnext
          exact hnext.trans hrest
      · rw [if_neg herr] at h
        exact absurd (Prod.mk.inj (Option.some.inj h)).1 herr
    · rw [asisLoop_done _ _ (Nat.le_of_not_lt hmore)] at h
      cases h
      rw [List.drop_eq_nil_of_le (Nat.le_of_not_lt hmore), land_nil]

theorem copyAsis_whole (hok : a.Ok) (hdest : a.destIsPipe = false → dest.length = a.metas.length)
    (h : copyAsis a rounds dest = some (0, out)) :
    out = (if a.destIsPipe then dest ++ a.metas ++ a.used
      else dest ++ a.used.drop a.metas.length) ++
        List.replicate (a.wholeSize - a.used.length) 0 := by
  obtain ⟨⟨rc, sent⟩, hloop, hend⟩ := Option.map_eq_some_iff.mp h
  dsimp only at hend
  by_cases hrc : rc = 0
  · rw [if_pos hrc] at hend
    cases hend
    have hmetas := hok.metas
    have hwhole := hok.whole
    unfold Asis.extend
    cases hpipe : a.destIsPipe with
    | true =>
      simp only [hpipe, if_true] at hloop
      have hsent := asisLoop_whole (fun h => absurd (hpipe.symm.trans h) Bool.noConfusion) hloop
      unfold Asis.land at hsent
      simp only [hpipe, if_true, List.drop_zero] at hsent ⊢
      rw [hsent]
      split_ifs with hsize
      · rw [hsize, Nat.sub_self, List.replicate_zero, List.append_nil]
      · rfl
    | false =>
      have hlen := hdest hpipe
      simp only [hpipe, Bool.false_eq_true, if_false] at hloop
      have hsent := asisLoop_whole (fun _ => Nat.le_of_eq hlen.symm) hloop
      have hbehind : dest.drop (a.metas.length + (a.used.drop a.metas.length).length) = [] :=
        List.drop_eq_nil_of_le (by omega)
      unfold Asis.land poke at hsent
      rw [hpipe, if_neg Bool.false_ne_true, hbehind, List.append_nil,
        List.take_of_length_le (Nat.le_of_eq hlen)] at hsent
      simp only [Bool.false_eq_true, if_false]
      have hfull : sent.length = a.used.length := by
        rw [hsent, List.length_append, List.length_drop]
        omega
      rw [← hsent]
      split_ifs with hsize
      · rw [hsize, Nat.sub_self, List.replicate_zero, List.append_nil]
      · rw [List.take_of_length_le (by omega), hfull]
  · rw [if_neg hrc] at hend
    exact absurd (Prod.mk.inj hend).1 hrc

/-- How far the pages of a copy lie behind their numbers, in bytes. -/
def Asis.shift (a : Asis) : Nat := if a.destIsPipe then a.metas.length else 0

/-- A page by page copy that succeeds, to a file that holds the stub of the metas only, has every page
in its place; through a pipe all of them come too late by the meta pages, which are sent twice. -/
theorem asis_shifted (hok : a.Ok) (hdest : dest.length = if a.destIsPipe then 0 else a.metas.length)
    (h : copyAsis a rounds dest = some (0, out)) :
    out.length = a.shift + a.wholeSize ∧
      ∀ i n, a.metas.length ≤ a.shift + i → i + n ≤ a.used.length →
        (out.drop (a.shift + i)).take n = (a.used.drop i).take n := by
  have hmetas := hok.metas
  have hwhole := hok.whole
  have hout := copyAsis_whole hok (fun hfile => by rw [hdest, hfile]; rfl) h
  unfold Asis.shift
  cases hpipe : a.destIsPipe with
  | true =>
    rw [hpipe] at hout hdest
    have hnil : dest = [] := List.length_eq_zero_iff.mp hdest
    simp only [if_true] at hout ⊢
    rw [hnil, List.nil_append] at hout
    refine ⟨by rw [hout]; simp; omega, fun i n _ hn => ?_⟩
    rw [hout, List.append_assoc, ← List.drop_drop, List.drop_left,
      List.drop_append_of_le_length (by omega), List.take_append_of_le_length]
    rw [List.length_drop]
    omega
  | false =>
    rw [hpipe] at hout hdest
    simp only [Bool.false_eq_true, if_false, Nat.zero_add] at hout hdest ⊢
    refine ⟨by rw [hout]; simp [hdest]; omega, fun i n hi hn => ?_⟩
    obtain ⟨k, rfl⟩ := Nat.exists_eq_add_of_le hi
    rw [hout, List.append_assoc, ← List.drop_drop, List.drop_left' hdest,
      List.drop_append_of_le_length (by rw [List.length_drop]; omega), List.drop_drop,
      List.take_append_of_le_length]
    rw [List.length_drop]
    omega

-- two pages of one byte behind the metas, in two rounds
theorem asis_shifted_two : ∃ out, copyAsis ⟨true, [9, 9, 9], [0, 0, 0, 4, 5], 6⟩ [⟨2, 0⟩, ⟨7, 0⟩] [] =
      some (0, out) ∧ out.length = 3 + 6 ∧ (out.drop (3 + 3)).take 2 = [4, 5] := by
  have hok : (⟨true, [9, 9, 9], [0, 0, 0, 4, 5], 6⟩ : Asis).Ok := ⟨by decide, by decide⟩
  have h := asis_shifted hok rfl
    (rfl : copyAsis ⟨true, [9, 9, 9], [0, 0, 0, 4, 5], 6⟩ [⟨2, 0⟩, ⟨7, 0⟩] [] = some (0, _))
  exact ⟨_, rfl, h.1, h.2 3 2 (by decide) (by decide)⟩

end Mdbx.Copy
