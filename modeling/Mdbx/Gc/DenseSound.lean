import Mdbx.Gc.DenseSolve

/-!
# Gc.DenseSound — what the search for dense chunks comes to

A leaf of the search cuts all the runs into pieces of one length.  It goes past the solution array
exactly if these are fewer than the slots and hold less than is to be stored; where no leaf does, the
search ends, and what it finds can be cut from the runs.
-/

namespace Mdbx.Gc.Dense

open Buffer Counted

/-! ## 1. Histograms -/

def Hist.runs (h : Hist) : Multiset Nat := lengths histLength h.array

/-- All that is counted is below `end`. -/
structure Hist.Ok (h : Hist) : Prop where
  ends_le : h.ends ≤ histLength
  zero : ∀ i, h.ends ≤ i → i < histLength → h.array i = 0

section Histogram

variable {h : Hist} {len : Nat}

theorem Hist.Ok.run_bounds (hok : h.Ok) {r : Nat} (hr : r ∈ h.runs) : 1 ≤ r ∧ r ≤ h.ends := by
  obtain ⟨i, hi, rfl, hpos⟩ := mem_lengths hr
  refine ⟨Nat.le_add_left 1 i, ?_⟩
  by_contra hgt
  rw [hok.zero i (by omega) hi] at hpos
  exact absurd hpos (Nat.lt_irrefl 0)

theorem Hist.Ok.shrink (hok : h.Ok) (hzero : h.array (h.ends - 1) = 0) :
    Hist.Ok { h with ends := h.ends - 1 } := by
  refine ⟨Nat.le_trans (Nat.sub_le _ _) hok.ends_le, fun i hi hlt => ?_⟩
  simp only at hi
  by_cases hlast : i = h.ends - 1
  · rw [hlast]
    exact hzero
  · exact hok.zero i (by omega) hlt

theorem readAt_of_lt (a : Nat → Nat) {i : Nat} (hi : i < histLength) : readAt a i = some (a i) :=
  if_pos hi

theorem writeAt_of_lt (a : Nat → Nat) {i : Nat} (v : Nat) (hi : i < histLength) :
    writeAt a i v = some (set a i v) := if_pos hi

/-- What is left of the run is counted. -/
def restCounted (h : Hist) (len : Nat) : Nat → Nat :=
  if h.ends > len then set h.array (h.ends - len - 1) (h.array (h.ends - len - 1) + 1) else h.array

theorem cutOff_eq (hok : h.Ok) (hlen : 1 ≤ len) (hle : len ≤ h.ends) :
    cutOff h len = some ⟨h.ends, set (restCounted h len) (h.ends - 1)
      (restCounted h len (h.ends - 1) - 1)⟩ := by
  have hends := hok.ends_le
  have hlast : h.ends - 1 < histLength := by omega
  unfold cutOff restCounted
  by_cases hlong : h.ends > len
  · have hother : h.ends - len - 1 < histLength := by omega
    simp only [if_pos hlong, readAt_of_lt _ hother, writeAt_of_lt _ _ hother, Option.bind_some,
      readAt_of_lt _ hlast, writeAt_of_lt _ _ hlast, Option.map_some]
  · simp only [if_neg hlong, Option.bind_some, readAt_of_lt _ hlast, writeAt_of_lt _ _ hlast,
      Option.map_some]

/-- A chunk of `len` is cut from a run of the greatest length. -/
theorem cutOff_spec (hok : h.Ok) (hlen : 1 ≤ len) (hle : len ≤ h.ends)
    (hpos : 0 < h.array (h.ends - 1)) :
    ∃ h' rest, cutOff h len = some h' ∧ h'.ends = h.ends ∧ h'.Ok ∧ h.runs = h.ends ::ₘ rest ∧
      h'.runs = if h.ends > len then (h.ends - len) ::ₘ rest else rest := by
  have hends := hok.ends_le
  have hlast : h.ends - 1 < histLength := by omega
  have hruns := lengths_dec h.array hlast hpos
  rw [Nat.sub_add_cancel (by omega)] at hruns
  have hother : ∀ i, h.ends ≤ i → restCounted h len i = h.array i := by
    intro i hi
    unfold restCounted
    by_cases hlong : h.ends > len
    · rw [if_pos hlong]
      exact set_of_ne _ _ (by omega)
    · rw [if_neg hlong]
  refine ⟨_, lengths histLength (set h.array (h.ends - 1) (h.array (h.ends - 1) - 1)),
    cutOff_eq hok hlen hle, rfl, ⟨hends, fun i hi hlt => ?_⟩, hruns, ?_⟩
  · show set (restCounted h len) (h.ends - 1) _ i = 0
    have hi' : h.ends ≤ i := hi
    rw [set_of_ne _ _ (by omega), hother i hi']
    exact hok.zero i hi' hlt
  · show lengths histLength (set (restCounted h len) (h.ends - 1) _) = _
    unfold restCounted
    by_cases hlong : h.ends > len
    · simp only [if_pos hlong]
      have hinc := lengths_inc h.array (show h.ends - len - 1 < histLength by omega)
      have hsame := set_of_ne h.array (h.array (h.ends - len - 1) + 1)
        (show h.ends - 1 ≠ h.ends - len - 1 by omega)
      have hdec := lengths_dec (set h.array (h.ends - len - 1) (h.array (h.ends - len - 1) + 1))
        hlast (by rw [hsame]; exact hpos)
      rw [Nat.sub_add_cancel (by omega)] at hdec hinc
      rw [hinc, hruns, Multiset.cons_swap, Multiset.cons_inj_right] at hdec
      exact hdec.symm
    · simp only [if_neg hlong]

-- the chunk and what is left
theorem cuts_of_cutOff {h' : Hist} {rest : Multiset Nat} (hle : len ≤ h.ends)
    (hruns : h.runs = h.ends ::ₘ rest)
    (hruns' : h'.runs = if h.ends > len then (h.ends - len) ::ₘ rest else rest) :
    Cuts h.runs (len ::ₘ h'.runs) := by
  have hcut : Cuts h.runs (len ::ₘ (h.ends - len) ::ₘ rest) := by
    refine Cuts.cut ?_ hle
    rw [← hruns]
    exact .whole
  rw [hruns']
  by_cases hlong : h.ends > len
  · rw [if_pos hlong]
    exact hcut
  · rw [if_neg hlong]
    rw [Multiset.cons_swap] at hcut
    exact hcut.drop

/-- `n` chunks of `len` are cut from the runs. -/
structure Consumed (h : Hist) (len n : Nat) (h' : Hist) : Prop where
  ok : h'.Ok
  len_le : len ≤ h'.ends
  cuts : Cuts h.runs (Multiset.replicate n len + h'.runs)
  sum_eq : h'.runs.sum + n * len = h.runs.sum
  card_le : ∀ m, 1 ≤ m → m ≤ len →
    Multiset.card (slices m h'.runs) + n ≤ Multiset.card (slices m h.runs)

theorem consumed_cutOff {h' : Hist} {rest : Multiset Nat} (hok' : h'.Ok) (hle : len ≤ h.ends)
    (hsame : h'.ends = h.ends) (hruns : h.runs = h.ends ::ₘ rest)
    (hruns' : h'.runs = if h.ends > len then (h.ends - len) ::ₘ rest else rest) :
    Consumed h len 1 h' := by
  refine ⟨hok', by omega, ?_, ?_, fun m hm hmle => ?_⟩
  · rw [Multiset.replicate_one, Multiset.singleton_add]
    exact cuts_of_cutOff hle hruns hruns'
  · rw [hruns, hruns', Multiset.sum_cons]
    split_ifs with hlong
    · rw [Multiset.sum_cons]
      omega
    · omega
  · rw [hruns, hruns']
    exact card_slices_take hm hmle hle

theorem Consumed.cons {n : Nat} {h₁ h' : Hist} (hone : Consumed h len 1 h₁)
    (hrest : Consumed h₁ len n h') : Consumed h len (n + 1) h' := by
  refine ⟨hrest.ok, hrest.len_le, hone.cuts.trans ?_, ?_, fun m hm hmle => ?_⟩
  · have hadd := hrest.cuts.add {len}
    rw [Multiset.add_comm, Multiset.singleton_add, Multiset.add_comm _ {len}, Multiset.singleton_add]
      at hadd
    rw [Multiset.replicate_one, Multiset.replicate_succ, Multiset.cons_add, Multiset.singleton_add]
    exact hadd
  · have hsum := hone.sum_eq
    have hsum' := hrest.sum_eq
    rw [Nat.succ_mul]
    omega
  · have hcard := hone.card_le m hm hmle
    have hcard' := hrest.card_le m hm hmle
    omega

-- induction on the fuel
theorem consumeStack_spec (hlen : 1 ≤ len) {fuel n : Nat} (hok : h.Ok) (hn : 1 ≤ n)
    (hfuel : h.ends + n < fuel) :
    ∃ ok h', consumeStack len fuel h n = some (ok, h') ∧ (ok = true → Consumed h len n h') := by
  induction fuel generalizing h n with
  | zero => exact absurd hfuel (Nat.not_lt_zero _)
  | succ fuel ih =>
    unfold consumeStack
    by_cases hend : h.ends ≥ len
    · have hends := hok.ends_le
      rw [if_pos hend, readAt_of_lt _ (show h.ends - 1 < histLength by omega), Option.bind_some]
      by_cases hnone : h.array (h.ends - 1) < 1
      · rw [if_pos hnone]
        obtain ⟨ok, h', hrun, hspec⟩ := ih (hok.shrink (by omega)) hn (by simp only; omega)
        refine ⟨ok, h', hrun, fun ht => ?_⟩
        have hdone := hspec ht
        exact ⟨hdone.ok, hdone.len_le, hdone.cuts, hdone.sum_eq, hdone.card_le⟩
      · rw [if_neg hnone]
        obtain ⟨h₁, rest, hcut, hsame, hok₁, hruns, hruns₁⟩ := cutOff_spec hok hlen hend (by omega)
        have hone := consumed_cutOff hok₁ hend hsame hruns hruns₁
        rw [hcut, Option.bind_some]
        by_cases hlast : n - 1 = 0
        · rw [if_pos hlast, show n = 1 by omega]
          exact ⟨true, h₁, rfl, fun _ => hone⟩
        · rw [if_neg hlast]
          obtain ⟨ok, h', hrun, hspec⟩ := ih hok₁ (show 1 ≤ n - 1 by omega) (by omega)
          refine ⟨ok, h', hrun, fun ht => ?_⟩
          rw [show n = n - 1 + 1 by omega]
          exact hone.cons (hspec ht)
    · rw [if_neg hend]
      exact ⟨false, h, rfl, fun hc => absurd hc Bool.false_ne_true⟩

end Histogram

/-! ## 2. A leaf of the search -/

def capacity (ct : Ctx) (chunks : Multiset Nat) : Nat := (chunks.map (perChunk ct)).sum

theorem capacity_cons (ct : Ctx) (len : Nat) (chunks : Multiset Nat) :
    capacity ct (len ::ₘ chunks) = perChunk ct len + capacity ct chunks := by
  unfold capacity
  rw [Multiset.map_cons, Multiset.sum_cons]

theorem capacity_add (ct : Ctx) (chunks chunks' : Multiset Nat) :
    capacity ct (chunks + chunks') = capacity ct chunks + capacity ct chunks' := by
  unfold capacity
  rw [Multiset.map_add, Multiset.sum_add]

theorem capacity_replicate (ct : Ctx) (len n : Nat) :
    capacity ct (Multiset.replicate n len) = n * perChunk ct len := by
  unfold capacity
  rw [Multiset.map_replicate, Multiset.sum_replicate, smul_eq_mul]

/-- Chunks that are cut from the runs of a state, not more than its slots, and hold its volume. -/
structure Solves (ct : Ctx) (st : St) (chunks : Multiset Nat) : Prop where
  slots : Multiset.card chunks ≤ st.leftSlots
  volume : st.leftVolume ≤ capacity ct chunks
  cuts : Cuts st.hist.runs chunks

/-- Cut into pieces of length `m`, the runs are fewer than the slots and hold less than is left. -/
def Short (ct : Ctx) (st : St) (m : Nat) : Prop :=
  Multiset.card (slices m st.hist.runs) < st.leftSlots ∧
    capacity ct (slices m st.hist.runs) < st.leftVolume

/-- Cut into pieces of length `m`, the runs hold what is left to store. -/
def Roomy (ct : Ctx) (st : St) (m : Nat) : Prop :=
  st.leftVolume ≤ capacity ct (slices m st.hist.runs)

/-- A call of `consume_remaining` that runs out of pages before the slots and the volume do. -/
def Call.Exhausts (ct : Ctx) (call : Call) : Prop := Short ct call.st (min call.len ct.factor)

structure Ctx.Ok (ct : Ctx) : Prop where
  factor_pos : 1 ≤ ct.factor
  first_pos : 1 ≤ ct.firstPage
  first_le : ct.firstPage ≤ ct.otherPages
  small : ct.firstPage + ct.otherPages * histLength < 2 ^ 31

/-- What the search in the first `len` cells gives, beyond what was kept in them. -/
structure Gives (ct : Ctx) (st : St) (len : Nat) (a : Nat → Nat) (kept : Multiset Nat) (ok : Bool)
    (a' : Nat → Nat) : Prop where
  frame : ∀ i, len ≤ i → a' i = a i
  solves : ok = true → ∃ chunks, Solves ct st chunks ∧ lengths len a' = kept + chunks
  enough : st.leftVolume ≤ st.leftSlots → ok = true

/-- How cutting pieces of `m` ends: past the array exactly if the runs are short. -/
def Settles (ct : Ctx) (st : St) (m len : Nat) (a : Nat → Nat) (kept : Multiset Nat)
    (res : Option (Bool × St × (Nat → Nat))) : Prop :=
  (Short ct st m ∧ res = none) ∨
    (¬ Short ct st m ∧ ∃ ok st' a', res = some (ok, st', a') ∧ Gives ct st len a kept ok a')

section Leaf

variable {ct : Ctx} {st : St} {len : Nat} {a : Nat → Nat}

theorem Ctx.Ok.perChunk_pos (hct : ct.Ok) (len : Nat) : 1 ≤ perChunk ct len :=
  Nat.le_trans hct.first_pos (Nat.le_add_right _ _)

theorem Ctx.Ok.perChunk_lt (hct : ct.Ok) (hlen : len ≤ histLength) : perChunk ct len < 2 ^ 31 := by
  have hmul := Nat.mul_le_mul_left ct.otherPages (show len - 1 ≤ histLength by omega)
  have hsmall := hct.small
  unfold perChunk
  omega

theorem perChunk_pred (ct : Ctx) (hlen : 2 ≤ len) :
    perChunk ct len - ct.otherPages = perChunk ct (len - 1) := by
  obtain ⟨k, rfl⟩ := Nat.exists_eq_add_of_le' hlen
  show ct.firstPage + ct.otherPages * (k + 1) - ct.otherPages = ct.firstPage + ct.otherPages * k
  rw [Nat.mul_add, Nat.mul_one, ← Nat.add_assoc, Nat.add_sub_cancel]

theorem toInt_of_lt {v : Nat} (hv : v < 2 ^ 31) : toInt v = v := by
  unfold toInt
  rw [Nat.mod_eq_of_lt (by omega), if_pos hv]

theorem volumeSub_of_lt {v c : Nat} (hv : v < 2 ^ 31) (hc : c < v) : volumeSub v c = v - c := by
  unfold volumeSub
  rw [Nat.mod_eq_of_lt (show c < 2 ^ 32 by omega)]
  omega

-- the test of the sign
theorem toInt_volumeSub {v c : Nat} (hv : v < 2 ^ 31) (hc : c < 2 ^ 31) :
    0 ≥ toInt (volumeSub v c) ↔ v ≤ c := by
  by_cases hlt : c < v
  · rw [volumeSub_of_lt hv hlt, toInt_of_lt (by omega)]
    omega
  · have hval : volumeSub v c = (v + 2 ^ 32 - c) % 2 ^ 32 := by
      unfold volumeSub
      rw [Nat.mod_eq_of_lt (show c < 2 ^ 32 by omega)]
    unfold toInt
    rw [hval]
    split_ifs <;> omega

theorem clearAbove_spec (factor : Nat) (a : Nat → Nat) (hlen : len ≤ histLength) :
    ∃ a', clearAbove factor len a = some (a', min len factor) ∧ (∀ i, len ≤ i → a' i = a i) ∧
      ∀ i, min len factor ≤ i → i < len → a' i = 0 := by
  induction len generalizing a with
  | zero =>
    refine ⟨a, ?_, fun i _ => rfl, fun i _ hi => absurd hi (Nat.not_lt_zero i)⟩
    unfold clearAbove
    rw [Nat.zero_min]
  | succ len ih =>
    unfold clearAbove
    by_cases hmore : len + 1 > factor
    · rw [if_pos hmore, writeAt_of_lt _ _ (by omega), Option.bind_some]
      obtain ⟨a', hrun, hsame, hzero⟩ := ih (set a len 0) (by omega)
      have hmin : min (len + 1) factor = min len factor := by omega
      rw [hmin]
      refine ⟨a', hrun, fun i hi => ?_, fun i hi hlt => ?_⟩
      · rw [hsame i (by omega), set_of_ne _ _ (by omega)]
      · by_cases hlast : i = len
        · rw [hsame i (by omega), hlast, set_self]
        · exact hzero i hi (by omega)
    · rw [if_neg hmore, Nat.min_eq_left (by omega)]
      exact ⟨a, rfl, fun i _ => rfl, fun i hi hlt => absurd hlt (by omega)⟩

theorem clearBelow_spec (hlen : 1 ≤ len) (hle : len ≤ histLength) :
    ∃ a', clearBelow len a = some a' ∧ (∀ i, len ≤ i + 1 → a' i = a i) ∧
      ∀ i, i + 1 < len → a' i = 0 := by
  induction len generalizing a with
  | zero => exact absurd hlen (by decide)
  | succ len ih =>
    cases len with
    | zero => exact ⟨a, rfl, fun i _ => rfl, fun i hi => absurd hi (by omega)⟩
    | succ len =>
      unfold clearBelow
      rw [writeAt_of_lt _ _ (by omega), Option.bind_some]
      obtain ⟨a', hrun, hsame, hzero⟩ := ih (a := set a len 0) (by omega) (by omega)
      refine ⟨a', hrun, fun i hi => ?_, fun i hi => ?_⟩
      · rw [hsame i (by omega), set_of_ne _ _ (by omega)]
      · by_cases hlast : i = len
        · rw [hsame i (by omega), hlast, set_self]
        · exact hzero i (by omega)

-- the longest run holds at least one piece
theorem short_cut {h' : Hist} {rest : Multiset Nat} (hlen : 1 ≤ len) (hle : len ≤ st.hist.ends)
    (hruns : st.hist.runs = st.hist.ends ::ₘ rest)
    (hruns' : h'.runs = if st.hist.ends > len then (st.hist.ends - len) ::ₘ rest else rest)
    (hvol : perChunk ct len < st.leftVolume) :
    Short ct ⟨st.leftSlots - 1, st.leftVolume - perChunk ct len, h'⟩ len ↔ Short ct st len := by
  unfold Short
  simp only
  rw [hruns, slices_cut hlen hle, ← hruns', Multiset.card_cons, capacity_cons]
  omega

-- the first chunk of a solution
theorem Solves.cut {h' : Hist} {chunks : Multiset Nat} {v' : Nat} (hslots : 0 < st.leftSlots)
    (hcuts : Cuts st.hist.runs (len ::ₘ h'.runs)) (hvol : st.leftVolume ≤ v' + perChunk ct len)
    (h : Solves ct ⟨st.leftSlots - 1, v', h'⟩ chunks) : Solves ct st (len ::ₘ chunks) := by
  have hcard : Multiset.card chunks ≤ st.leftSlots - 1 := h.slots
  have hcap : v' ≤ capacity ct chunks := h.volume
  refine ⟨?_, ?_, hcuts.trans ?_⟩
  · rw [Multiset.card_cons]
    omega
  · rw [capacity_cons]
    omega
  · have hadd := h.cuts.add {len}
    rw [Multiset.add_comm, Multiset.singleton_add, Multiset.add_comm, Multiset.singleton_add] at hadd
    exact hadd

-- what the cells below `len` count, where the ones below `len - 1` are cleared
theorem lengths_cleared {n : Nat} (hlen : 1 ≤ len) (hval : a (len - 1) = n)
    (hzero : ∀ i, i + 1 < len → a i = 0) : lengths len a = Multiset.replicate n len := by
  obtain ⟨k, rfl⟩ := Nat.exists_eq_add_of_le' hlen
  have hlow : lengths k a = 0 := lengths_zero fun i hi => hzero i (by omega)
  unfold lengths
  rw [hlow, zero_add]
  congr 1

section Step

variable {res : Option (Bool × St × (Nat → Nat))}

-- a piece is cut, and something is left to store
theorem settles_cut {h' : Hist} {rest : Multiset Nat} (hlen : 1 ≤ len) (hle : len ≤ st.hist.ends)
    (hslots : 0 < st.leftSlots) (hruns : st.hist.runs = st.hist.ends ::ₘ rest)
    (hruns' : h'.runs = if st.hist.ends > len then (st.hist.ends - len) ::ₘ rest else rest)
    (hvol : perChunk ct len < st.leftVolume) (hct : ct.Ok)
    (h : Settles ct ⟨st.leftSlots - 1, st.leftVolume - perChunk ct len, h'⟩ len len
      (set a (len - 1) (a (len - 1) + 1))
      (Multiset.replicate (set a (len - 1) (a (len - 1) + 1) (len - 1)) len) res) :
    Settles ct st len len a (Multiset.replicate (a (len - 1)) len) res := by
  have hshort := short_cut hlen hle hruns hruns' hvol
  have hpos := hct.perChunk_pos len
  cases h with
  | inl hout => exact .inl ⟨hshort.1 hout.1, hout.2⟩
  | inr hdone =>
    obtain ⟨hno, ok, st', a', hres, hgives⟩ := hdone
    refine .inr ⟨fun hc => hno (hshort.2 hc), ok, st', a', hres, ⟨fun i hi => ?_, fun ht => ?_,
      fun hv => hgives.enough (tsub_le_tsub hv hpos)⟩⟩
    · rw [hgives.frame i hi, set_of_ne _ _ (by omega)]
    · obtain ⟨chunks, hsolves, hcount⟩ := hgives.solves ht
      refine ⟨len ::ₘ chunks,
        hsolves.cut hslots (cuts_of_cutOff hle hruns hruns')
          (Nat.le_of_eq (Nat.sub_add_cancel (Nat.le_of_lt hvol)).symm), ?_⟩
      rw [hcount, set_self, Multiset.replicate_succ, Multiset.cons_add, Multiset.add_cons]

-- no run of the greatest length is left, and shorter ones are as long as the pieces
theorem settles_shrink
    (h : Settles ct { st with hist := { st.hist with ends := st.hist.ends - 1 } } len len a
      (Multiset.replicate (a (len - 1)) len) res) :
    Settles ct st len len a (Multiset.replicate (a (len - 1)) len) res := by
  cases h with
  | inl hout => exact .inl hout
  | inr hdone =>
    obtain ⟨hno, ok, st', a', hres, hgives⟩ := hdone
    refine .inr ⟨hno, ok, st', a', hres, ⟨hgives.frame, fun ht => ?_, hgives.enough⟩⟩
    obtain ⟨chunks, hsolves, hcount⟩ := hgives.solves ht
    exact ⟨chunks, ⟨hsolves.slots, hsolves.volume, hsolves.cuts⟩, hcount⟩

-- no run is as long as the pieces
theorem settles_shorten (hlen : 2 ≤ len) (hruns : ∀ r ∈ st.hist.runs, 1 ≤ r ∧ r ≤ len - 1)
    (h : Settles ct { st with hist := { st.hist with ends := st.hist.ends - 1 } } (len - 1) (len - 1)
      (set a (len - 1 - 1) 0)
      (Multiset.replicate (set a (len - 1 - 1) 0 (len - 1 - 1)) (len - 1)) res) :
    Settles ct st len len a (Multiset.replicate (a (len - 1)) len) res := by
  have hwhole : slices len st.hist.runs = slices (len - 1) st.hist.runs := by
    rw [slices_of_le hruns, slices_of_le fun r hr => ⟨(hruns r hr).1, by have := (hruns r hr).2; omega⟩]
  have hshort : Short ct st len ↔
      Short ct { st with hist := { st.hist with ends := st.hist.ends - 1 } } (len - 1) := by
    unfold Short
    rw [hwhole]
    exact Iff.rfl
  cases h with
  | inl hout => exact .inl ⟨hshort.2 hout.1, hout.2⟩
  | inr hdone =>
    obtain ⟨hno, ok, st', a', hres, hgives⟩ := hdone
    refine .inr ⟨fun hc => hno (hshort.1 hc), ok, st', a', hres,
      ⟨fun i hi => ?_, fun ht => ?_, hgives.enough⟩⟩
    · rw [hgives.frame i (by omega), set_of_ne _ _ (by omega)]
    · obtain ⟨chunks, hsolves, hcount⟩ := hgives.solves ht
      refine ⟨chunks, ⟨hsolves.slots, hsolves.volume, hsolves.cuts⟩, ?_⟩
      rw [set_self, Multiset.replicate_zero, zero_add] at hcount
      have hlast : a' (len - 1) = a (len - 1) := by
        rw [hgives.frame (len - 1) (Nat.le_refl _), set_of_ne _ _ (by omega)]
      obtain ⟨k, rfl⟩ := Nat.exists_eq_add_of_le' (show 1 ≤ len by omega)
      show lengths k a' + Multiset.replicate (a' k) (k + 1) = _
      rw [show k + 1 - 1 = k by omega] at hlast hcount ⊢
      rw [hcount, hlast, add_comm]

end Step

-- induction on the fuel; the pieces are never longer than the longest run
theorem remainingLoop_spec (hct : ct.Ok) {fuel chunk : Nat} (hok : st.hist.Ok) (hlen : 1 ≤ len)
    (hle : len ≤ st.hist.ends) (hpos : 0 < st.leftVolume) (hvol : st.leftVolume < 2 ^ 31)
    (hchunk : chunk = perChunk ct len) (hfuel : st.hist.ends + st.leftSlots < fuel) :
    Settles ct st len len a (Multiset.replicate (a (len - 1)) len)
      (remainingLoop ct fuel st len chunk a) := by
  induction fuel generalizing st len chunk a with
  | zero => exact absurd hfuel (Nat.not_lt_zero _)
  | succ fuel ih =>
    have hends := hok.ends_le
    unfold remainingLoop
    by_cases hslots : st.leftSlots > 0
    · rw [if_pos ⟨by omega, hslots⟩, readAt_of_lt _ (show st.hist.ends - 1 < histLength by omega),
        Option.bind_some]
      by_cases hsome : st.hist.array (st.hist.ends - 1) ≠ 0
      · rw [if_pos hsome, readAt_of_lt _ (show len - 1 < histLength by omega), Option.bind_some,
          writeAt_of_lt _ _ (show len - 1 < histLength by omega), Option.bind_some]
        obtain ⟨h', rest, hcut, hsame, hok', hruns, hruns'⟩ := cutOff_spec hok hlen hle (by omega)
        rw [hcut, Option.bind_some]
        subst hchunk
        have hlt := hct.perChunk_lt (show len ≤ histLength by omega)
        have hiff := toInt_volumeSub hvol hlt
        by_cases hdone : st.leftVolume ≤ perChunk ct len
        · -- the last piece
          rw [if_pos (hiff.2 hdone)]
          obtain ⟨a', hclear, hkeep, hzero⟩ :=
            clearBelow_spec (a := set a (len - 1) (a (len - 1) + 1)) hlen (by omega)
          have hlast : a' (len - 1) = a (len - 1) + 1 := by
            rw [hkeep _ (by omega), set_self]
          have hshort : ¬ Short ct st len := by
            intro hc
            have hcap := hc.2
            rw [hruns, slices_cut hlen hle, capacity_cons] at hcap
            omega
          rw [hclear, Option.map_some]
          refine .inr ⟨hshort, _, _, a', rfl, ⟨fun i hi => ?_, fun _ => ⟨{len}, ?_, ?_⟩, fun _ => rfl⟩⟩
          · rw [hkeep i (by omega), set_of_ne _ _ (by omega)]
          · refine ⟨?_, ?_, ?_⟩
            · rw [Multiset.card_singleton]
              exact hslots
            · rw [← Multiset.cons_zero, capacity_cons]
              exact Nat.le_trans hdone (Nat.le_add_right _ _)
            · have hcuts := cuts_of_cutOff hle hruns hruns'
              rw [← Multiset.singleton_add, add_comm] at hcuts
              exact hcuts.dropAll
          · rw [lengths_cleared hlen hlast hzero, Multiset.replicate_succ, ← Multiset.singleton_add,
              add_comm]
        · rw [if_neg fun hc => hdone (hiff.1 hc), volumeSub_of_lt hvol (by omega)]
          refine settles_cut hlen hle hslots hruns hruns' (by omega) hct ?_
          exact ih hok' hlen (by show len ≤ h'.ends; omega) (Nat.sub_pos_of_lt (by omega))
            (Nat.lt_of_le_of_lt (Nat.sub_le _ _) hvol) rfl
            (by show h'.ends + (st.leftSlots - 1) < fuel; omega)
      · rw [if_neg hsome]
        have hzero : st.hist.array (st.hist.ends - 1) = 0 := by omega
        have hok' := hok.shrink hzero
        by_cases hshort : len > st.hist.ends - 1
        · rw [if_pos hshort]
          have hlow : ∀ r ∈ st.hist.runs, 1 ≤ r ∧ r ≤ st.hist.ends - 1 :=
            fun r hr => hok'.run_bounds hr
          by_cases hone : len = 1
          · -- nothing is left: `solution[-1]`
            have hends : st.hist.ends - 1 = 0 := by omega
            have hnone : st.hist.runs = 0 := Multiset.eq_zero_of_forall_notMem fun r hr => by
              have hr' := hlow r hr
              omega
            refine .inl ⟨⟨?_, ?_⟩, ?_⟩
            · rw [hnone]
              exact hslots
            · rw [hnone]
              exact hpos
            · show (writeAt a (sizePred (st.hist.ends - 1)) 0).bind _ = none
              rw [hends]
              rfl
          · have hpred : st.hist.ends - 1 = len - 1 := by omega
            have hwrite : sizePred (st.hist.ends - 1) = len - 1 - 1 := by
              unfold sizePred
              rw [if_neg (by omega), hpred]
            simp only [hwrite, writeAt_of_lt _ _ (show len - 1 - 1 < histLength by omega),
              Option.bind_some]
            rw [hpred] at hlow
            refine settles_shorten (by omega) hlow ?_
            simp only [hpred] at hok' ⊢
            exact ih hok' (by omega) (Nat.le_refl _) hpos hvol
              (by rw [hchunk, perChunk_pred ct (by omega)])
              (by show len - 1 + st.leftSlots < fuel; omega)
        · rw [if_neg hshort]
          exact settles_shrink (ih hok' hlen (by show len ≤ st.hist.ends - 1; omega) hpos hvol hchunk
            (by show st.hist.ends - 1 + st.leftSlots < fuel; omega))
    · rw [if_neg fun hc => hslots hc.2]
      refine .inr ⟨fun hc => ?_, _, _, a, rfl, ⟨fun i _ => rfl,
        fun hc => absurd hc Bool.false_ne_true, fun hv => absurd hv (by omega)⟩⟩
      have hcard := hc.1
      omega

/-- `consume_remaining` goes past the array exactly if it exhausts the runs. -/
theorem consumeRemaining_spec (hct : ct.Ok) (hok : st.hist.Ok) (hlen : 1 ≤ len)
    (hle : len ≤ st.hist.ends) (hvol : st.leftVolume < 2 ^ 31) :
    Settles ct st (min len ct.factor) len a 0 (consumeRemaining ct st len a) := by
  have hends := hok.ends_le
  have hfactor := hct.factor_pos
  have hmin : 1 ≤ min len ct.factor := by omega
  obtain ⟨a₀, hclear, hsame, hzero⟩ := clearAbove_spec ct.factor a
    (show len ≤ histLength by omega)
  have hpred : sizePred (min len ct.factor) = min len ct.factor - 1 := by
    unfold sizePred
    rw [if_neg (by omega)]
  unfold consumeRemaining
  simp only [hclear, Option.bind_some, hpred,
    writeAt_of_lt a₀ 0 (show min len ct.factor - 1 < histLength by omega), toInt_of_lt hvol]
  by_cases hnone : st.leftVolume = 0
  · obtain ⟨a', hbelow, hkeep, hlow⟩ :=
      clearBelow_spec (a := set a₀ (min len ct.factor - 1) 0) hmin (by omega)
    have hall : ∀ i, i < len → a' i = 0 := by
      intro i hi
      by_cases hcell : i + 1 < min len ct.factor
      · exact hlow i hcell
      · rw [hkeep i (by omega)]
        by_cases hlast : i = min len ct.factor - 1
        · rw [hlast, set_self]
        · rw [set_of_ne _ _ hlast]
          exact hzero i (by omega) hi
    rw [if_pos (by omega), hbelow, Option.map_some]
    refine .inr ⟨fun hc => ?_, _, _, a', rfl, ⟨fun i hi => ?_, fun _ => ⟨0, ⟨?_, ?_, ?_⟩, ?_⟩,
      fun _ => rfl⟩⟩
    · have hcap := hc.2
      omega
    · rw [hkeep i (by omega), set_of_ne _ _ (by omega), hsame i hi]
    · exact Nat.zero_le _
    · rw [hnone]
      exact Nat.zero_le _
    · have hall : Cuts st.hist.runs (st.hist.runs + 0) := by
        rw [add_zero]
        exact .whole
      exact hall.dropAll
    · rw [lengths_zero hall, add_zero]
  · rw [if_neg (by omega)]
    have hloop := remainingLoop_spec (a := set a₀ (min len ct.factor - 1) 0) hct hok hmin
      (by omega) (Nat.pos_of_ne_zero hnone) hvol rfl (Nat.lt_succ_self _)
    cases hloop with
    | inl hout => exact .inl hout
    | inr hdone =>
      obtain ⟨hno, ok, st', a', hres, hgives⟩ := hdone
      refine .inr ⟨hno, ok, st', a', hres, ⟨fun i hi => ?_, fun ht => ?_, hgives.enough⟩⟩
      · rw [hgives.frame i (by omega), set_of_ne _ _ (by omega), hsame i hi]
      · obtain ⟨chunks, hsolves, hcount⟩ := hgives.solves ht
        refine ⟨chunks, hsolves, ?_⟩
        rw [set_self, Multiset.replicate_zero] at hcount
        rw [← hcount]
        refine lengths_above (Nat.min_le_left _ _) fun i hi hlt => ?_
        rw [hgives.frame i hi, set_of_ne _ _ (by omega)]
        exact hzero i hi hlt

end Leaf

/-! ## 3. The search -/

/-- The outcome of a search: it goes past the array exactly if one of its leaves does.  That is so
where the runs cut into the pieces of a leaf are short, and it is not so where these are roomy. -/
def Verdict (ct : Ctx) (st : St) (len : Nat) (a : Nat → Nat) (out : Out) : Prop :=
  ((∃ call, call ∈ out.calls ∧ call.Exhausts ct) ∧ out.result = none ∧
      ¬ Roomy ct st (min len ct.factor)) ∨
    ((∀ call, call ∈ out.calls → ¬ call.Exhausts ct) ∧ ¬ Short ct st (min len ct.factor) ∧
      ∃ ok st' a', out.result = some (ok, st', a') ∧ Gives ct st len a 0 ok a')

section Search

variable {ct : Ctx} {st : St} {len : Nat} {a : Nat → Nat} {out : Out}

-- a search that goes on after leaves that were no solution
theorem Verdict.after {a' : Nat → Nat} {calls : List Call}
    (hcalls : ∀ call, call ∈ calls → ¬ call.Exhausts ct) (hsame : ∀ i, len ≤ i → a' i = a i)
    (h : Verdict ct st len a' out) : Verdict ct st len a (.after calls out) := by
  cases h with
  | inl hout =>
    obtain ⟨⟨call, hmem, hex⟩, hnone, htight⟩ := hout
    exact .inl ⟨⟨call, List.mem_append_right calls hmem, hex⟩, hnone, htight⟩
  | inr hdone =>
    obtain ⟨hno, hlong, ok, st', a'', hres, hgives⟩ := hdone
    refine .inr ⟨fun call hmem => ?_, hlong, ok, st', a'', hres,
      ⟨fun i hi => (hgives.frame i hi).trans (hsame i hi), hgives.solves, hgives.enough⟩⟩
    cases List.mem_append.1 hmem with
    | inl hbefore => exact hcalls call hbefore
    | inr hthen => exact hno call hthen

-- chunks of one length, and a solution of what is left
theorem Solves.taken {n : Nat} {h : Hist} {chunks : Multiset Nat} (hn : n ≤ st.leftSlots)
    (hcuts : Cuts st.hist.runs (Multiset.replicate n len + h.runs))
    (hsolves : Solves ct (taken ct st len n h) chunks) :
    Solves ct st (Multiset.replicate n len + chunks) := by
  have hcard : Multiset.card chunks ≤ st.leftSlots - n := hsolves.slots
  have hcap : (if st.leftVolume > n * perChunk ct len then st.leftVolume - n * perChunk ct len
    else 0) ≤ capacity ct chunks := hsolves.volume
  refine ⟨?_, ?_, hcuts.trans ?_⟩
  · rw [Multiset.card_add, Multiset.card_replicate]
    omega
  · rw [capacity_add, capacity_replicate]
    split_ifs at hcap <;> omega
  · have hadd := hsolves.cuts.add (Multiset.replicate n len)
    rw [add_comm, add_comm chunks] at hadd
    exact hadd

-- each chunk has `first_page`, and every other page of it holds `other_pages`
theorem capacity_weight (hct : ct.Ok) {chunks : Multiset Nat} (hpos : ∀ x ∈ chunks, 1 ≤ x) :
    capacity ct chunks + (ct.otherPages - ct.firstPage) * Multiset.card chunks =
      ct.otherPages * chunks.sum := by
  have hle := hct.first_le
  induction chunks using Multiset.induction_on with
  | empty => rfl
  | cons x chunks ih =>
    have hrest := ih fun y hy => hpos y (Multiset.mem_cons_of_mem hy)
    obtain ⟨k, rfl⟩ := Nat.exists_eq_add_of_le' (hpos x (Multiset.mem_cons_self x chunks))
    have hone : perChunk ct (k + 1) = ct.firstPage + ct.otherPages * k := rfl
    rw [capacity_cons, Multiset.card_cons, Multiset.sum_cons, hone, Nat.mul_add, Nat.mul_add,
      Nat.mul_add, Nat.mul_one, Nat.mul_one]
    omega

theorem slices_weight (hct : ct.Ok) {m : Nat} (hm : 1 ≤ m) (runs : Multiset Nat) :
    capacity ct (slices m runs) + (ct.otherPages - ct.firstPage) * Multiset.card (slices m runs) =
      ct.otherPages * runs.sum := by
  have hpos : ∀ x ∈ slices m runs, 1 ≤ x := fun x hx => pos_of_mem_slices hm hx
  rw [capacity_weight hct hpos, sum_slices]

-- longer chunks hold no less than the pieces of the same pages
theorem capacity_consumed (hct : ct.Ok) {m n : Nat} {h h' : Hist} (hm : 1 ≤ m) (hmle : m ≤ len)
    (hconsumed : Consumed h len n h') :
    capacity ct (slices m h.runs) ≤ n * perChunk ct len + capacity ct (slices m h'.runs) := by
  have hwhole := slices_weight hct hm h.runs
  have hleft := slices_weight hct hm h'.runs
  have hpos : ∀ x ∈ Multiset.replicate n len, 1 ≤ x := by
    intro x hx
    rw [(Multiset.mem_replicate.1 hx).2]
    exact Nat.le_trans hm hmle
  have hchunk := capacity_weight hct hpos
  rw [capacity_replicate, Multiset.card_replicate, Multiset.sum_replicate, smul_eq_mul] at hchunk
  rw [← hconsumed.sum_eq, Nat.mul_add] at hwhole
  have hcards := Nat.mul_le_mul_left (ct.otherPages - ct.firstPage) (hconsumed.card_le m hm hmle)
  rw [Nat.mul_add] at hcards
  omega

theorem Roomy.consumed (hct : ct.Ok) {m n : Nat} {h : Hist} (hm : 1 ≤ m) (hmle : m ≤ len)
    (hconsumed : Consumed st.hist len n h) (hroom : Roomy ct st m) :
    Roomy ct (taken ct st len n h) m := by
  have hcap := capacity_consumed hct hm hmle hconsumed
  unfold Roomy at hroom
  show (if st.leftVolume > n * perChunk ct len then st.leftVolume - n * perChunk ct len else 0) ≤
    capacity ct (slices m h.runs)
  split_ifs <;> omega

/-- One round of the binary search. -/
theorem attempt_spec {local' : St} {lo hi n : Nat} {again : Nat → Nat → Nat → (Nat → Nat) → Out}
    (hlen : len + 1 ≤ histLength) (hlo : lo ≤ n) (hhi : n ≤ hi)
    (hdeep : Verdict ct local' len a out)
    (hsolves : ∀ chunks, Solves ct local' chunks →
      Solves ct st (Multiset.replicate n (len + 1) + chunks))
    (henough : st.leftVolume ≤ st.leftSlots → n = lo ∧ local'.leftVolume ≤ local'.leftSlots)
    (hroom : Roomy ct st (min (len + 1) ct.factor) → Roomy ct local' (min len ct.factor))
    (hopen : ¬ Short ct local' (min len ct.factor) → ¬ Short ct st (min (len + 1) ct.factor))
    (hagain : ∀ lo' hi' a', ¬ Short ct st (min (len + 1) ct.factor) →
      st.leftSlots < st.leftVolume → lo ≤ lo' → lo' ≤ hi' → hi' ≤ hi →
      hi' - lo' < hi - lo →
        Verdict ct st (len + 1) a' (again lo' hi' ((hi' + lo' + 1) % 2 ^ 32 / 2) a')) :
    Verdict ct st (len + 1) a (attempt st (len + 1) lo hi n again out) := by
  unfold attempt
  cases hdeep with
  | inl hout =>
    rw [hout.2.1]
    exact .inl ⟨hout.1, hout.2.1, fun hc => hout.2.2 (hroom hc)⟩
  | inr hdone =>
    obtain ⟨hno, hdeeper, ok, left, a', hres, hgives⟩ := hdone
    have hlong := hopen hdeeper
    have hframe : ∀ i, len + 1 ≤ i → a' i = a i := fun i hi => hgives.frame i (by omega)
    rw [hres]
    cases ok with
    | true =>
      by_cases hmid : n > lo ∧ n < hi
      · -- a solution, but the search looks for one with fewer such chunks
        have hmany : st.leftSlots < st.leftVolume := by
          by_contra hfew
          have hfirst := (henough (by omega)).1
          omega
        simp only [hmid, and_self, not_true_eq_false, and_false, if_false, if_true]
        rw [if_pos (show n ≥ lo by omega)]
        exact (hagain lo n a' hlong hmany (Nat.le_refl _) hlo hhi (by omega)).after hno hframe
      · simp only [hmid, not_false_eq_true, and_self, if_true, Nat.add_sub_cancel]
        rw [writeAt_of_lt _ _ (by omega), Option.map_some]
        refine .inr ⟨hno, hlong, true, left, set a' len n, rfl,
          ⟨fun i hi => ?_, fun ht => ?_, fun _ => rfl⟩⟩
        · rw [set_of_ne _ _ (by omega), hframe i hi]
        · obtain ⟨chunks, hchunks, hcount⟩ := hgives.solves rfl
          refine ⟨Multiset.replicate n (len + 1) + chunks, hsolves chunks hchunks, ?_⟩
          show lengths len (set a' len n) + Multiset.replicate (set a' len n len) (len + 1) = _
          rw [set_self, lengths_congr fun i hi => set_of_ne a' n (Nat.ne_of_lt hi), hcount, zero_add,
            zero_add, add_comm]
    | false =>
      have hmany : st.leftSlots < st.leftVolume := by
        by_contra hfew
        exact absurd (hgives.enough (henough (by omega)).2) Bool.false_ne_true
      simp only [Bool.false_eq_true, false_and, if_false]
      by_cases hmore : hi ≥ n + 1
      · rw [if_pos hmore]
        exact (hagain (n + 1) hi a' hlong hmany (by omega) hmore (Nat.le_refl _) (by omega)).after hno
          hframe
      · rw [if_neg hmore]
        exact .inr ⟨hno, hlong, false, st, a', rfl, ⟨hframe, fun hc => absurd hc Bool.false_ne_true,
          fun hv => absurd hv (by omega)⟩⟩

-- induction on the fuel; more than one round is made only where the slots are fewer than the volume
theorem solveLoop_spec {deeper : St → (Nat → Nat) → Out} (hct : ct.Ok) (hok : st.hist.Ok)
    (hle : len + 1 ≤ st.hist.ends) (hfactor : ct.factor ≤ len) (hvol : st.leftVolume < 2 ^ 31)
    (hdeep : ∀ st' a', st'.hist.Ok → len + 1 ≤ st'.hist.ends → st'.leftVolume < 2 ^ 31 →
      Verdict ct st' len a' (deeper st' a'))
    {fuel lo hi n : Nat} (hlo : lo ≤ n) (hhi : n ≤ hi) (hslots : hi < st.leftSlots)
    (hfirst : (¬ Short ct st (min (len + 1) ct.factor) ∧ st.leftSlots < st.leftVolume) ∨ n = 0)
    (hfuel : hi - lo < fuel) :
    Verdict ct st (len + 1) a (solveLoop ct deeper st (len + 1) fuel lo hi n a) := by
  induction fuel generalizing lo hi n a with
  | zero => exact absurd hfuel (Nat.not_lt_zero _)
  | succ fuel ih =>
    have hends := hok.ends_le
    have hmin : min (len + 1) ct.factor = min len ct.factor := by omega
    have hagain : ∀ lo' hi' a', ¬ Short ct st (min (len + 1) ct.factor) →
        st.leftSlots < st.leftVolume → lo ≤ lo' → lo' ≤ hi' → hi' ≤ hi → hi' - lo' < hi - lo →
        Verdict ct st (len + 1) a' (solveLoop ct deeper st (len + 1) fuel lo' hi'
          ((hi' + lo' + 1) % 2 ^ 32 / 2) a') := by
      intro lo' hi' a' hlong hmany _ hlohi hhihi hless
      rw [Nat.mod_eq_of_lt (by omega)]
      exact ih (by omega) (by omega) (by omega) (.inl ⟨hlong, hmany⟩) (by omega)
    unfold solveLoop
    by_cases hn : n ≠ 0
    · obtain ⟨hlong, hmany⟩ := hfirst.resolve_right hn
      rw [if_pos hn]
      obtain ⟨ok, h', hrun, hspec⟩ := consumeStack_spec
        (show 1 ≤ len + 1 from Nat.le_add_left 1 len) hok (Nat.pos_of_ne_zero hn) (Nat.lt_succ_self (st.hist.ends + n))
      rw [hrun]
      cases ok with
      | true =>
        have hconsumed := hspec rfl
        have hless : (taken ct st (len + 1) n h').leftVolume ≤ st.leftVolume := by
          unfold taken
          simp only
          split_ifs <;> omega
        have hroom : Roomy ct st (min (len + 1) ct.factor) →
            Roomy ct (taken ct st (len + 1) n h') (min len ct.factor) := by
          intro hc
          have hpos := hct.factor_pos
          rw [hmin] at hc
          exact hc.consumed hct (by omega) (by omega) hconsumed
        exact attempt_spec (by omega) hlo hhi
          (hdeep (taken ct st (len + 1) n h') a hconsumed.ok hconsumed.len_le
            (Nat.lt_of_le_of_lt hless hvol))
          (fun chunks hchunks => hchunks.taken (by omega) hconsumed.cuts)
          (fun hfew => absurd hfew (by omega)) hroom (fun _ => hlong) hagain
      | false =>
        by_cases hmore : n - 1 ≥ lo
        · simp only [if_pos hmore]
          rw [Nat.mod_eq_of_lt (by omega)]
          exact ih (by omega) (by omega) (by omega) (.inl ⟨hlong, hmany⟩) (by omega)
        · simp only [if_neg hmore]
          exact .inr ⟨fun call hc => absurd hc List.not_mem_nil, hlong, false, st, a, rfl,
            ⟨fun i _ => rfl, fun hc => absurd hc Bool.false_ne_true, fun hv => absurd hv (by omega)⟩⟩
    · have hzero : n = 0 := by omega
      rw [if_neg hn]
      refine attempt_spec (by omega) hlo hhi (hdeep st a hok hle hvol) (fun chunks hchunks => ?_)
        (fun hfew => ⟨by omega, hfew⟩) (fun hc => ?_) (fun hc => ?_) hagain
      · rw [hzero, Multiset.replicate_zero, zero_add]
        exact hchunks
      · rw [hmin] at hc
        exact hc
      · rw [hmin]
        exact hc

/-- `solve_recursive` goes past the array exactly if one of its leaves exhausts the runs; else it
ends, and what it finds solves the state. -/
theorem solveRecursive_spec (hct : ct.Ok) (hok : st.hist.Ok) (hlen : 1 ≤ len)
    (hle : len ≤ st.hist.ends) (hvol : st.leftVolume < 2 ^ 31) :
    Verdict ct st len a (solveRecursive ct len st a) := by
  induction len generalizing st a with
  | zero => exact absurd hlen (by decide)
  | succ len ih =>
    have hfactor := hct.factor_pos
    unfold solveRecursive
    by_cases hdeeper : len + 1 > ct.factor ∧ st.leftSlots > 1 ∧ st.leftVolume > perChunk ct (len + 1)
    · rw [if_pos hdeeper]
      exact solveLoop_spec hct hok hle (by omega) hvol
        (fun st' a' hok' hle' hvol' => ih hok' (by omega) (by omega) hvol') (Nat.le_refl _)
        (Nat.zero_le _) (by omega) (.inr rfl) (by omega)
    · rw [if_neg hdeeper]
      have hleaf := consumeRemaining_spec (a := a) hct hok hlen hle hvol
      cases hleaf with
      | inl hout =>
        refine .inl ⟨⟨⟨st, len + 1⟩, List.mem_singleton.2 rfl, hout.1⟩, hout.2, fun hc => ?_⟩
        exact absurd hout.1.2 (Nat.not_lt.2 hc)
      | inr hdone =>
        refine .inr ⟨fun call hmem => ?_, hdone.1, hdone.2⟩
        rw [List.mem_singleton.1 hmem]
        exact hdone.1

end Search

/-! ## 4. The solution -/

/-- The counts are of runs no longer than `seqmax`. -/
structure Counting (a : Nat → Nat) (seqlen seqmax pages : Nat) : Prop where
  seqlen_lt : seqlen < histLength
  seqmax_pos : 1 ≤ seqmax
  seqmax_le : seqmax ≤ histLength
  zero : ∀ i, seqmax ≤ i → i < histLength → a i = 0
  pages_eq : (lengths histLength a).sum + seqlen = pages

theorem histLoop_spec (repnl : Pnl) {n i seqlen seqmax pages : Nat} {a : Nat → Nat}
    (h : Counting a seqlen seqmax pages) :
    ∃ a' seqlen' seqmax', histLoop repnl n i a seqlen seqmax = some (a', seqlen', seqmax') ∧
      Counting a' seqlen' seqmax' (pages + n) := by
  induction n generalizing i seqlen seqmax pages a with
  | zero => exact ⟨a, seqlen, seqmax, rfl, h⟩
  | succ n ih =>
    have hlt := h.seqlen_lt
    have hpages := h.pages_eq
    unfold histLoop
    simp only
    rw [show pages + (n + 1) = pages + 1 + n by omega]
    by_cases hflush : seqlen + 1 = histLength ∨ repnl.cells (i - 1) ≠ repnl.cells i + 1
    · rw [if_pos hflush, Nat.add_sub_cancel, writeAt_of_lt _ _ hlt, Option.bind_some]
      refine ih ⟨by decide, ?_, ?_, fun j hj hlt' => ?_, ?_⟩
      · split_ifs <;> omega
      · have hmax := h.seqmax_le
        split_ifs <;> omega
      · rw [set_of_ne _ _ (by split_ifs at hj <;> omega)]
        exact h.zero j (by split_ifs at hj <;> omega) hlt'
      · rw [lengths_inc a hlt, Multiset.sum_cons]
        omega
    · rw [if_neg hflush]
      exact ih ⟨by omega, h.seqmax_pos, h.seqmax_le, h.zero, by omega⟩

/-- Every page of the list is counted in one run. -/
theorem gcDenseHist_spec (repnl : Pnl) :
    ∃ hist, gcDenseHist repnl = some hist ∧ hist.Ok ∧ 1 ≤ hist.ends ∧
      hist.runs.sum = repnl.size - 1 + 1 := by
  have hnone : lengths histLength (fun _ => 0) = 0 := lengths_zero fun _ _ => rfl
  have hbegin : Counting (fun _ => 0) 0 1 0 := by
    refine ⟨by decide, Nat.le_refl 1, by decide, fun _ _ _ => rfl, ?_⟩
    rw [hnone]
    rfl
  obtain ⟨a, seqlen, seqmax, hrun, hcount⟩ := histLoop_spec repnl (n := repnl.size - 1) (i := 2) hbegin
  have hlt := hcount.seqlen_lt
  have hpos := hcount.seqmax_pos
  have hmax := hcount.seqmax_le
  unfold gcDenseHist
  rw [hrun, Option.bind_some, writeAt_of_lt _ _ hlt, Option.map_some]
  refine ⟨_, rfl, ⟨?_, fun i hi hi' => ?_⟩, ?_, ?_⟩
  · show (if seqmax > seqlen then seqmax else seqlen + 1) ≤ histLength
    split_ifs <;> omega
  · have hi₁ : (if seqmax > seqlen then seqmax else seqlen + 1) ≤ i := hi
    show set a seqlen (a seqlen + 1) i = 0
    rw [set_of_ne _ _ (by split_ifs at hi₁ <;> omega)]
    exact hcount.zero i (by split_ifs at hi₁ <;> omega) hi'
  · show 1 ≤ if seqmax > seqlen then seqmax else seqlen + 1
    split_ifs <;> omega
  · show (lengths histLength (set a seqlen (a seqlen + 1))).sum = _
    have hpages := hcount.pages_eq
    rw [lengths_inc a hlt, Multiset.sum_cons]
    omega

theorem context_ok (e : Env) (slots volume : Nat) : (context e slots volume).Ok := by
  have hmin := e.min_le
  have hmax := e.le_max
  have hfirst : (context e slots volume).firstPage = (e.ps - 20) / 4 - 1 + 1 := rfl
  have hother : (context e slots volume).otherPages = e.ps / 4 + 1 := rfl
  refine ⟨Nat.le_add_left 1 _, ?_, ?_, ?_⟩
  · omega
  · omega
  · show (context e slots volume).firstPage + (context e slots volume).otherPages * 31 < 2 ^ 31
    omega

section Check

variable {ct : Ctx} {a : Nat → Nat}

theorem lengths_trimEnd (a : Nat → Nat) (n : Nat) : lengths (trimEnd a n) a = lengths n a := by
  induction n with
  | zero => rfl
  | succ n ih =>
    unfold trimEnd
    by_cases hzero : a n = 0
    · rw [if_pos hzero, ih]
      show _ = lengths n a + Multiset.replicate (a n) (n + 1)
      rw [hzero, Multiset.replicate_zero, add_zero]
    · rw [if_neg hzero]

theorem checkItems_eq (a : Nat → Nat) (n : Nat) : checkItems a n = Multiset.card (lengths n a) := by
  induction n with
  | zero => rfl
  | succ n ih =>
    unfold checkItems lengths
    rw [ih, Multiset.card_add, Multiset.card_replicate]

theorem checkVolume_eq (ct : Ctx) (a : Nat → Nat) (n : Nat) :
    checkVolume ct a n = capacity ct (lengths n a) := by
  induction n with
  | zero => rfl
  | succ n ih =>
    unfold checkVolume lengths
    rw [ih, capacity_add, capacity_replicate]

end Check

/-- An answer is sound: what is found has no more chunks than slots, holds what is to be stored and
can be cut from the runs; and the check of it never fails. -/
def Sound (e : Env) (hist : Hist) (slots returnLeft : Nat) : Answer → Prop
  | .preconditions => toUnsigned slots = 0
  | .failure => False
  | .found solution =>
      Multiset.card solution.runs ≤ toUnsigned slots ∧
        returnLeft ≤ capacity (context e (toUnsigned slots) returnLeft) solution.runs ∧
          Cuts hist.runs solution.runs
  | .notFound => True

/-- The search ends and stays in the arrays, and its answer is sound. -/
def Safe (e : Env) (hist : Hist) (slots returnLeft : Nat) : Prop :=
  ∃ ans, gcDenseSolve e hist slots returnLeft = some ans ∧ Sound e hist slots returnLeft ans

section Solve

variable {e : Env} {hist : Hist} {slots returnLeft : Nat}

-- without slots there is one leaf, and it is not searched
theorem calls_of_no_slots (hslots : toUnsigned slots = 0) (hends : 1 ≤ hist.ends) :
    (searchOut e hist slots returnLeft).calls = [⟨begun hist slots returnLeft, hist.ends⟩] := by
  obtain ⟨k, hk⟩ := Nat.exists_eq_add_of_le' hends
  have hends' : (begun hist slots returnLeft).hist.ends = k + 1 := hk
  have hnone : (begun hist slots returnLeft).leftSlots = 0 := hslots
  unfold searchOut
  simp only [hends']
  unfold solveRecursive
  rw [if_neg fun hc => absurd hc.2.1 (by omega), hk]

theorem searchOut_spec (hok : hist.Ok) (hends : 1 ≤ hist.ends) (hlt : returnLeft < 2 ^ 31) :
    Verdict (context e (toUnsigned slots) returnLeft) ⟨toUnsigned slots, returnLeft, hist⟩ hist.ends
      (fun _ => 0) (searchOut e hist slots returnLeft) := by
  have hleft : toUnsigned returnLeft = returnLeft := Nat.mod_eq_of_lt (by omega)
  unfold searchOut begun
  rw [hleft]
  exact solveRecursive_spec (context_ok e _ _) hok hends (Nat.le_refl _) hlt

theorem gcDenseSolve_of_result (hslots : toUnsigned slots ≠ 0) (hpos : 1 ≤ returnLeft)
    (hlt : returnLeft < 2 ^ 31) :
    gcDenseSolve e hist slots returnLeft = (searchOut e hist slots returnLeft).result.map fun out =>
      if out.1 then
        if capacity (context e (toUnsigned slots) returnLeft) (lengths histLength out.2.2) < returnLeft ∨
            Multiset.card (lengths histLength out.2.2) > slots then .failure
        else .found ⟨trimEnd out.2.2 histLength, out.2.2⟩
      else .notFound := by
  have hleft : toUnsigned returnLeft = returnLeft := Nat.mod_eq_of_lt (by omega)
  unfold gcDenseSolve begun
  simp only [hleft, checkVolume_eq, checkItems_eq, lengths_trimEnd]
  rw [if_neg (show ¬ (toUnsigned slots = 0 ∨ returnLeft = 0) by omega)]

-- the solution is written over an empty array
theorem sound_of_solves {a' : Nat → Nat} {ok : Bool} {left : St} (hok : hist.Ok)
    (hres : (searchOut e hist slots returnLeft).result = some (ok, left, a'))
    (hslots : toUnsigned slots ≠ 0) (hpos : 1 ≤ returnLeft) (hlt : returnLeft < 2 ^ 31)
    (hgives : Gives (context e (toUnsigned slots) returnLeft) ⟨toUnsigned slots, returnLeft, hist⟩
      hist.ends (fun _ => 0) 0 ok a') : Safe e hist slots returnLeft := by
  unfold Safe
  rw [gcDenseSolve_of_result hslots hpos hlt, hres, Option.map_some]
  cases ok with
  | false => exact ⟨.notFound, rfl, trivial⟩
  | true =>
    obtain ⟨chunks, hsolves, hcount⟩ := hgives.solves rfl
    have hruns : lengths histLength a' = chunks := by
      rw [lengths_above hok.ends_le fun i hi _ => hgives.frame i hi, hcount, zero_add]
    have hcard : Multiset.card chunks ≤ toUnsigned slots := hsolves.slots
    have hcap : returnLeft ≤ capacity (context e (toUnsigned slots) returnLeft) chunks :=
      hsolves.volume
    have hmod : toUnsigned slots ≤ slots := Nat.mod_le _ _
    have hcheck : ¬ (capacity (context e (toUnsigned slots) returnLeft) chunks < returnLeft ∨
        Multiset.card chunks > slots) := by omega
    rw [hruns, if_pos rfl, if_neg hcheck]
    refine ⟨_, rfl, ?_⟩
    show Multiset.card (lengths histLength a') ≤ _ ∧ _ ≤ capacity _ (lengths histLength a') ∧
      Cuts _ (lengths histLength a')
    rw [hruns]
    exact ⟨hcard, hcap, hsolves.cuts⟩

/-- The search is safe exactly if no leaf of it exhausts the runs. -/
theorem safe_iff (hok : hist.Ok) (hends : 1 ≤ hist.ends) (hpos : 1 ≤ returnLeft)
    (hlt : returnLeft < 2 ^ 31) :
    Safe e hist slots returnLeft ↔
      ∀ call, call ∈ (searchOut e hist slots returnLeft).calls →
        ¬ call.Exhausts (context e (toUnsigned slots) returnLeft) := by
  by_cases hslots : toUnsigned slots = 0
  · have hsafe : Safe e hist slots returnLeft := by
      refine ⟨.preconditions, ?_, hslots⟩
      unfold gcDenseSolve
      exact if_pos (.inl hslots)
    refine ⟨fun _ call hmem hex => ?_, fun _ => hsafe⟩
    rw [calls_of_no_slots hslots hends] at hmem
    have hcard : Multiset.card (slices _ call.st.hist.runs) < call.st.leftSlots := hex.1
    rw [List.mem_singleton.1 hmem] at hcard
    exact absurd hcard (by show ¬ _ < toUnsigned slots; omega)
  · cases searchOut_spec hok hends hlt with
    | inl hout =>
      obtain ⟨⟨call, hmem, hex⟩, hnone, -⟩ := hout
      refine ⟨fun hsafe => ?_, fun hall => absurd hex (hall call hmem)⟩
      obtain ⟨ans, hans, -⟩ := hsafe
      rw [gcDenseSolve_of_result hslots hpos hlt, hnone] at hans
      exact absurd hans (by simp)
    | inr hdone =>
      obtain ⟨hno, -, ok, left, a', hres, hgives⟩ := hdone
      exact ⟨fun _ => hno, fun _ => sound_of_solves hok hres hslots hpos hlt hgives⟩

-- where the pieces hold what is to be stored, no leaf exhausts the runs
theorem safe_of_roomy (hok : hist.Ok) (hends : 1 ≤ hist.ends) (hpos : 1 ≤ returnLeft)
    (hlt : returnLeft < 2 ^ 31)
    (hroom : Roomy (context e (toUnsigned slots) returnLeft) ⟨toUnsigned slots, returnLeft, hist⟩
      (min hist.ends (context e (toUnsigned slots) returnLeft).factor)) :
    Safe e hist slots returnLeft := by
  rw [safe_iff hok hends hpos hlt]
  cases searchOut_spec hok hends hlt with
  | inl hout => exact absurd hroom hout.2.2
  | inr hdone => exact hdone.1

-- where they are fewer than the slots and hold less, the first leaf does
theorem not_safe_of_short (hok : hist.Ok) (hends : 1 ≤ hist.ends) (hpos : 1 ≤ returnLeft)
    (hlt : returnLeft < 2 ^ 31)
    (hshort : Short (context e (toUnsigned slots) returnLeft) ⟨toUnsigned slots, returnLeft, hist⟩
      (min hist.ends (context e (toUnsigned slots) returnLeft).factor)) :
    ¬ Safe e hist slots returnLeft := by
  rw [safe_iff hok hends hpos hlt]
  cases searchOut_spec hok hends hlt with
  | inl hout =>
    obtain ⟨call, hmem, hex⟩ := hout.1
    exact fun hall => hall call hmem hex
  | inr hdone => exact absurd hshort hdone.2.1

-- every page of a chunk holds at least what its first page does
theorem capacity_ge {ct : Ctx} (hct : ct.Ok) (chunks : Multiset Nat) :
    ct.firstPage * chunks.sum ≤ capacity ct chunks := by
  induction chunks using Multiset.induction_on with
  | empty => exact Nat.le_refl 0
  | cons x chunks ih =>
    have hone : ct.firstPage * x ≤ perChunk ct x := by
      cases x with
      | zero => exact Nat.zero_le _
      | succ k =>
        have hle := Nat.mul_le_mul_right k hct.first_le
        show ct.firstPage * (k + 1) ≤ ct.firstPage + ct.otherPages * k
        rw [Nat.mul_add, Nat.mul_one]
        omega
    rw [capacity_cons, Multiset.sum_cons, Nat.mul_add]
    exact Nat.add_le_add hone ih

-- what `gc_handle_dense` passes is not more than the pages hold
theorem roomy_of_adjusted {height amount m : Nat} (hm : amount ≤ hist.runs.sum)
    (hsome : 1 ≤ hist.runs.sum) (hle : returnLeft ≤ denseAdjustAmount e height amount) :
    Roomy (context e (toUnsigned slots) returnLeft) ⟨toUnsigned slots, returnLeft, hist⟩ m := by
  have hcap := capacity_ge (context_ok e (toUnsigned slots) returnLeft) (slices m hist.runs)
  have hmin := e.min_le
  have hfirst : (context e (toUnsigned slots) returnLeft).firstPage = (e.ps - 20) / 4 - 1 + 1 := rfl
  rw [sum_slices] at hcap
  have hmul : e.ps / 4 / 2 * 1 ≤ ((e.ps - 20) / 4 - 1) * hist.runs.sum :=
    Nat.mul_le_mul (by omega) hsome
  have hsmall : ((e.ps - 20) / 4 - 1) * 1 ≤ ((e.ps - 20) / 4 - 1) * hist.runs.sum :=
    Nat.mul_le_mul_left _ hsome
  rw [hfirst, Nat.add_mul, Nat.one_mul] at hcap
  refine Nat.le_trans hle (Nat.le_trans ?_ hcap)
  unfold denseAdjustAmount Env.maxgcLarge1page
  split_ifs <;> omega

end Solve

/-- `gc_dense_solve` ends, stays in the arrays and finds what fits exactly if no leaf of its search
runs out of pages before the slots and the volume do.  It does not where the runs cut into the pieces
of the first leaf are short, and it does where these are roomy, as they are for all that
`gc_handle_dense` asks: no more than `dense_adjust_amount` gives for the returned pages. -/
theorem gcDenseSolve_safe_iff (e : Env) (repnl : Pnl) (slots returnLeft : Nat)
    (hpos : 1 ≤ returnLeft) (hlt : returnLeft < 2 ^ 31) :
    ∃ hist, gcDenseHist repnl = some hist ∧
      (Safe e hist slots returnLeft ↔
        ∀ call, call ∈ (searchOut e hist slots returnLeft).calls →
          ¬ call.Exhausts (context e (toUnsigned slots) returnLeft)) ∧
      (Short (context e (toUnsigned slots) returnLeft) (begun hist slots returnLeft)
        (min hist.ends (context e (toUnsigned slots) returnLeft).factor) →
          ¬ Safe e hist slots returnLeft) ∧
      (Roomy (context e (toUnsigned slots) returnLeft) (begun hist slots returnLeft)
        (min hist.ends (context e (toUnsigned slots) returnLeft).factor) →
          Safe e hist slots returnLeft) ∧
      ∀ height amount, amount ≤ repnl.size → returnLeft ≤ denseAdjustAmount e height amount →
        Safe e hist slots returnLeft := by
  obtain ⟨hist, hrun, hok, hends, hsum⟩ := gcDenseHist_spec repnl
  have hleft : toUnsigned returnLeft = returnLeft := Nat.mod_eq_of_lt (by omega)
  unfold begun
  rw [hleft]
  refine ⟨hist, hrun, safe_iff hok hends hpos hlt, not_safe_of_short hok hends hpos hlt,
    safe_of_roomy hok hends hpos hlt, fun height amount hamount hle => ?_⟩
  exact safe_of_roomy hok hends hpos hlt (roomy_of_adjusted (by omega) (by omega) hle)

-- four pages and two slots
theorem gcDenseSolve_safe_iff_sample :
    ∃ hist, gcDenseHist (Pnl.ofList [9, 8, 7, 5]) = some hist ∧
      Safe ⟨256, by decide, by decide⟩ hist 2 58 := by
  obtain ⟨hist, hrun, -, -, -, hcaller⟩ := gcDenseSolve_safe_iff ⟨256, by decide, by decide⟩
    (Pnl.ofList [9, 8, 7, 5]) 2 58 (by decide) (by decide)
  exact ⟨hist, hrun, hcaller 1 4 (by decide) (by decide)⟩

-- one page is to hold a hundred numbers in two slots: `solution[-1]`
theorem gcDenseSolve_past_array :
    ¬ ∀ (e : Env) (repnl : Pnl) (hist : Hist) (slots returnLeft : Nat), 1 ≤ slots →
        1 ≤ returnLeft → returnLeft < 2 ^ 31 → gcDenseHist repnl = some hist →
          Safe e hist slots returnLeft := by
  intro hall
  obtain ⟨hist, hrun, -, -, -⟩ := gcDenseHist_spec (Pnl.ofList [5])
  obtain ⟨ans, hans, -⟩ :=
    hall ⟨256, by decide, by decide⟩ (Pnl.ofList [5]) hist 2 100 (by decide) (by decide) (by decide) hrun
  have hnone : ((gcDenseHist (Pnl.ofList [5])).bind fun hist =>
      gcDenseSolve ⟨256, by decide, by decide⟩ hist 2 100).isNone = true := by decide
  rw [hrun, Option.bind_some, hans] at hnone
  exact Bool.false_ne_true hnone

end Mdbx.Gc.Dense
