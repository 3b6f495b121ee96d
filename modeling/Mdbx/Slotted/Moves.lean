import Mdbx.Slotted.Subpages

/-!
# Slotted.Moves — pages in other places

A sub-page without room is moved to a larger place and its node is replaced; a page that is touched is
copied, the free room in its middle left out.
-/

namespace Mdbx.Slotted

open Node ByteMemory Extents

variable {m m' : Mem} {p space k : Nat}

/-! ## 1. A sub-page gets more room -/

/-- The flags that the page has in its new place say the same of its kind. -/
structure SameKind (m : Mem) (fp flags : Nat) : Prop where
  small : flags < 65536
  leaf : (flags &&& pLeaf != 0) = isLeaf m fp
  fixed : (flags &&& pDupfix != 0) = isDupfixLeaf m fp

variable {fp mp flags growth len : Nat}

/-- The header of the page in its new place. -/
def grownHeader (m : Mem) (fp mp flags growth frontTxnid : Nat) : Mem :=
  let m := poke m (mp + 10) 2 flags
  let m := poke m mp 8 frontTxnid
  let m := poke m (mp + 8) 2 (dupfixKsize m fp)
  let m := setLower m mp (lower m fp)
  setUpper m mp (upper m fp + growth)

theorem grownHeader_spec (m : Mem) (frontTxnid : Nat) (hflags : flags < 65536)
    (hup : upper m fp + growth < 65536) (hapart : fp + 20 ≤ mp ∨ mp + 20 ≤ fp) :
    let m₁ := grownHeader m fp mp flags growth frontTxnid
    (∀ a, a < mp ∨ mp + 16 ≤ a → m₁ a = m a) ∧ pageFlags m₁ mp = flags ∧
      dupfixKsize m₁ mp = dupfixKsize m fp ∧ lower m₁ mp = lower m fp ∧
      upper m₁ mp = upper m fp + growth := by
  have hks := peek_lt m (fp + 8) 2
  have hlow := lower_lt m fp
  unfold grownHeader
  simp only
  generalize hma : poke m (mp + 10) 2 flags = ma
  have houta : ∀ a, a < mp + 10 ∨ mp + 12 ≤ a → ma a = m a := fun a ha => by
    rw [← hma, poke_outside ha]
  generalize hmb : poke ma mp 8 frontTxnid = mb
  have houtb : ∀ a, a < mp ∨ mp + 8 ≤ a → mb a = ma a := fun a ha => by
    rw [← hmb, poke_outside ha]
  have hksb : dupfixKsize mb fp = dupfixKsize m fp := by
    have hagree : Agree m mb (fp + 8) (fp + 8) 2 := fun d hd => by
      rw [houtb _ (by omega), houta _ (by omega)]
    exact hagree.peek
  rw [hksb]
  generalize hmc : poke mb (mp + 8) 2 (dupfixKsize m fp) = mc
  have houtc : ∀ a, a < mp + 8 ∨ mp + 10 ≤ a → mc a = mb a := fun a ha => by
    rw [← hmc, poke_outside ha]
  have hlowc : lower mc fp = lower m fp := lower_of_agree fun a _ _ => by
    rw [houtc a (by omega), houtb a (by omega), houta a (by omega)]
  rw [hlowc]
  generalize hmd : setLower mc mp (lower m fp) = md
  have houtd : ∀ a, a < mp + 12 ∨ mp + 14 ≤ a → md a = mc a := fun a ha => by
    rw [← hmd, setLower_outside ha]
  have hupd : upper md fp = upper m fp := upper_of_agree fun a _ _ => by
    rw [houtd a (by omega), houtc a (by omega), houtb a (by omega), houta a (by omega)]
  rw [hupd]
  have hout : ∀ a, a < mp + 14 ∨ mp + 16 ≤ a → setUpper md mp (upper m fp + growth) a = md a :=
    fun a ha => setUpper_outside ha
  refine ⟨fun a ha => ?_, ?_, ?_, ?_, upper_setUpper _ _ hup⟩
  · rw [hout a (by omega), houtd a (by omega), houtc a (by omega), houtb a (by omega),
      houta a (by omega)]
  · have hagree : Agree ma (setUpper md mp (upper m fp + growth)) (mp + 10) (mp + 10) 2 :=
      fun d hd => by
        rw [hout _ (by omega), houtd _ (by omega), houtc _ (by omega), houtb _ (by omega)]
    refine hagree.peek.trans ?_
    rw [← hma, peek_poke]
    exact Nat.mod_eq_of_lt hflags
  · have hagree : Agree mc (setUpper md mp (upper m fp + growth)) (mp + 8) (mp + 8) 2 :=
      fun d hd => by rw [hout _ (by omega), houtd _ (by omega)]
    refine hagree.peek.trans ?_
    rw [← hmc, peek_poke]
    exact Nat.mod_eq_of_lt hks
  · rw [lower_of_agree fun a _ _ => hout a (by omega), ← hmd, lower_setLower _ _ hlow]

theorem growSubpage_spec (m : Mem) (mp growth frontTxnid : Nat) (hlen : 20 ≤ len)
    (hsub : SubFormed m fp (len - 20)) (hkind : SameKind m fp flags)
    (hgrow : growth % 2 = 0) (hfit : len - 20 + growth < 65536)
    (hapart : fp + len ≤ mp ∨ mp + len + growth ≤ fp) :
    let m' := growSubpage m fp mp flags growth len frontTxnid
    SubFormed m' mp (len - 20 + growth) ∧ values m' mp = values m fp ∧
      pageRoom m' mp = pageRoom m fp + growth ∧
      (isLeaf m' mp = isLeaf m fp ∧ isDupfixLeaf m' mp = isDupfixLeaf m fp ∧
        dupfixKsize m' mp = dupfixKsize m fp) ∧
      ∀ a, (a < mp ∨ mp + 16 ≤ a) → (a < mp + 20 ∨ mp + len + growth ≤ a) → m' a = m a := by
  obtain ⟨hlow, hup, heven, hplain⟩ := hsub.bounds
  have hsubup : upper m fp + growth < 65536 := by
    unfold SubFormed at hsub
    cases hd : isDupfixLeaf m fp with
    | true =>
      rw [hd, if_pos rfl] at hsub
      obtain ⟨ksize, hf⟩ := hsub
      have hfull := hf.full
      have hstep := Nat.mul_le_mul_right (pageNumkeys m fp) hf.wide
      have hlower := hf.lower_eq
      omega
    | false =>
      have hle := (hplain hd).1
      omega
  obtain ⟨hout₁, hflags₁, hks₁, hlow₁, hup₁⟩ := grownHeader_spec m frontTxnid hkind.small hsubup
    (show fp + 20 ≤ mp ∨ mp + 20 ≤ fp by omega)
  simp only
  have hm : growSubpage m fp mp flags growth len frontTxnid =
      let m₁ := grownHeader m fp mp flags growth frontTxnid
      if flags &&& pDupfix ≠ 0 then
        move m₁ (mp + 20) (fp + 20) (pageNumkeys m fp * dupfixKsize m₁ fp)
      else
        let m₂ := move m₁ (mp + upper m₁ mp + 20) (fp + upper m₁ fp + 20) (len - upper m₁ fp - 20)
        let m₃ := move m₂ (mp + 20) (fp + 20) (pageNumkeys m fp * 2)
        growEntries m₃ mp growth (pageNumkeys m fp) 0 := rfl
  rw [hm]
  generalize grownHeader m fp mp flags growth frontTxnid = m₁ at *
  simp only
  have hkeep : ∀ a, fp ≤ a → a < fp + len → m₁ a = m a := fun a h₁ h₂ => hout₁ a (by omega)
  have hnum : 2 * pageNumkeys m fp = lower m fp := by
    unfold pageNumkeys
    omega
  have hspace : len - 20 + growth + 0 = len - 20 + growth := rfl
  -- the header stays as it is from here on
  have hkinds : ∀ m', Agree m₁ m' mp mp 20 → lower m' mp = lower m fp ∧
      upper m' mp = upper m fp + growth ∧ isLeaf m' mp = isLeaf m fp ∧
      isDupfixLeaf m' mp = isDupfixLeaf m fp ∧ dupfixKsize m' mp = dupfixKsize m fp := by
    intro m' hhead
    have hflags : pageFlags m' mp = flags :=
      (hhead.part (d := 10) (k := 2) (by omega)).peek.trans hflags₁
    refine ⟨(hhead.part (d := 12) (k := 2) (by omega)).peek.trans hlow₁,
      (hhead.part (d := 14) (k := 2) (by omega)).peek.trans hup₁, ?_, ?_,
      (hhead.part (d := 8) (k := 2) (by omega)).peek.trans hks₁⟩
    · have hleaf := hkind.leaf
      rw [← hflags] at hleaf
      exact hleaf
    · have hfixed := hkind.fixed
      rw [← hflags] at hfixed
      exact hfixed
  cases hd : isDupfixLeaf m fp with
  | true =>
    have hfixed := hsub
    unfold SubFormed at hfixed
    rw [hd, if_pos rfl] at hfixed
    obtain ⟨ksize, hf⟩ := hfixed
    have hbit : flags &&& pDupfix ≠ 0 := bne_iff_ne.mp (hkind.fixed.trans hd)
    have hks' : dupfixKsize m₁ fp = ksize := by
      have hagree : Agree m m₁ (fp + 8) (fp + 8) 2 := fun d hd => hkeep _ (by omega) (by omega)
      exact hagree.peek.trans hf.ksize_eq
    have hfull := hf.full
    have hksize := hf.ksize_eq
    rw [if_pos hbit, hks', Nat.mul_comm (pageNumkeys m fp) ksize]
    have hout : ∀ a, a < mp + 20 ∨ mp + 20 + ksize * pageNumkeys m fp ≤ a →
        move m₁ (mp + 20) (fp + 20) (ksize * pageNumkeys m fp) a = m₁ a :=
      fun a ha => move_outside (by omega)
    have hbody : Agree m (move m₁ (mp + 20) (fp + 20) (ksize * pageNumkeys m fp)) (fp + 20) (mp + 20)
        (ksize * pageNumkeys m fp) := by
      intro d hd'
      have hmove := move_agree m₁ (mp + 20) (fp + 20) (d := 0) (k := ksize * pageNumkeys m fp)
        (n := ksize * pageNumkeys m fp) (by omega) d hd'
      rw [Nat.add_zero, Nat.add_zero] at hmove
      rw [hmove, hkeep _ (by omega) (by omega)]
    generalize move m₁ (mp + 20) (fp + 20) (ksize * pageNumkeys m fp) = m' at *
    obtain ⟨hlow', hup', hleaf', hflags', hks''⟩ := hkinds m' fun d hd => hout _ (by omega)
    have heven' := hf.even
    obtain ⟨hf', hitems⟩ := hf.transplant growth 0 hflags' hks'' hlow' (by omega) hspace (by omega)
      (by omega) (by omega) hbody
    refine ⟨?_, ?_, ?_, ⟨hleaf', hf'.fixed, hks''⟩, fun a h₁ h₂ => ?_⟩
    · unfold SubFormed
      rw [hf'.fixed, if_pos rfl]
      exact ⟨ksize, hf'⟩
    · unfold values
      rw [hf'.fixed, hd, if_pos rfl, if_pos rfl, hitems]
    · unfold pageRoom
      omega
    · rw [hout a (by omega), hout₁ a (by omega)]
  | false =>
    have hf := hsub
    unfold SubFormed at hf
    rw [hd, if_neg Bool.false_ne_true] at hf
    obtain ⟨hle, hupeven⟩ := hplain hd
    have hbit : ¬ flags &&& pDupfix ≠ 0 := fun hne => by
      have hne' := (bne_iff_ne.mpr hne).symm.trans (hkind.fixed.trans hd)
      exact Bool.false_ne_true hne'.symm
    have hupfp : upper m₁ fp = upper m fp := upper_of_agree fun a _ _ => hkeep a (by omega) (by omega)
    rw [if_neg hbit, hup₁, hupfp]
    generalize hm₂ : move m₁ (mp + (upper m fp + growth) + 20) (fp + upper m fp + 20)
      (len - upper m fp - 20) = m₂
    have hout₂ : ∀ a, a < mp + (upper m fp + growth) + 20 ∨ mp + len + growth ≤ a → m₂ a = m₁ a :=
      fun a ha => by
        rw [← hm₂]
        exact move_outside (by omega)
    generalize hm₃ : move m₂ (mp + 20) (fp + 20) (pageNumkeys m fp * 2) = m₃
    have hout₃ : ∀ a, a < mp + 20 ∨ mp + 20 + lower m fp ≤ a → m₃ a = m₂ a := fun a ha => by
      rw [← hm₃]
      exact move_outside (by omega)
    have hent₃ : ∀ i < pageNumkeys m fp, entry m₃ mp i = entry m fp i := by
      intro i hi
      have hagree : Agree m m₃ (fp + 20 + 2 * i) (mp + 20 + 2 * i) 2 := by
        intro d hd'
        have hmove := move_agree m₂ (mp + 20) (fp + 20) (d := 2 * i) (k := 2)
          (n := pageNumkeys m fp * 2) (by omega) d hd'
        rw [← hm₃, hmove, hout₂ _ (by omega), hkeep _ (by omega) (by omega)]
      exact hagree.peek
    obtain ⟨hout', hent'⟩ := growEntries_spec m₃ mp growth (Nat.zero_add (pageNumkeys m fp))
      fun j _ hj => by
        have hin := hf.placed.inside j hj
        rw [hent₃ j hj]
        omega
    generalize growEntries m₃ mp growth (pageNumkeys m fp) 0 = m' at *
    obtain ⟨hlow', hup', hleaf', hplain', hks'⟩ := hkinds m' fun d hd' => by
      rw [hout' _ (by omega), hout₃ _ (by omega), hout₂ _ (by omega)]
    have htrans : Transplanted m m' fp mp (len - 20) growth 0 := by
      refine ⟨hleaf', hplain', hlow', hup', fun i hi => ?_, fun d d' hdd h₁ h₂ => ?_⟩
      · rw [hent' i (Nat.zero_le i) hi, hent₃ i hi]
        rfl
      · unfold pageHdrSz
        rw [hout' _ (by omega), hout₃ _ (by omega), ← hm₂]
        unfold move
        rw [if_pos (by omega), hkeep _ (by omega) (by omega)]
        congr 1
        omega
    obtain ⟨hf', hitems⟩ := htrans.formed hf hspace (by omega) ⟨hgrow, rfl⟩ (by omega)
    obtain ⟨hsub', hvalues⟩ := SubFormed.of_formed hf' hitems hd
    refine ⟨hsub', hvalues, ?_, ⟨hleaf', hplain'.trans hd, hks'⟩, fun a h₁ h₂ => ?_⟩
    · unfold pageRoom
      omega
    · rw [hout' a (by omega), hout₃ a (by omega), hout₂ a (by omega), hout₁ a (by omega)]

/-! ## 2. A page is copied -/

/-- A page with the same header, entries and nodes. -/
theorem SubFormed.copied {q : Nat} (hsub : SubFormed m p space)
    (hhead : Agree m m' (p + 8) (q + 8) 8)
    (hbody : isDupfixLeaf m p = true → Agree m m' (p + 20) (q + 20) (space - pageRoom m p))
    (hslots : isDupfixLeaf m p = false → Agree m m' (p + 20) (q + 20) (lower m p))
    (hnodes : isDupfixLeaf m p = false →
      Agree m m' (p + 20 + upper m p) (q + 20 + upper m p) (space - upper m p)) :
    SubFormed m' q space ∧ values m' q = values m p ∧ pageRoom m' q = pageRoom m p ∧
      (isDupfixLeaf m p = false → items m' q = items m p) := by
  obtain ⟨hleaf, hfix, hks⟩ := flags_of_agree (hhead.mono (by omega))
  have hlow : lower m' q = lower m p := (hhead.part (d := 4) (k := 2) (by omega)).peek
  have hup : upper m' q = upper m p := (hhead.part (d := 6) (k := 2) (by omega)).peek
  have hroom : pageRoom m' q = pageRoom m p := by
    unfold pageRoom
    rw [hlow, hup]
  cases hd : isDupfixLeaf m p with
  | true =>
    unfold SubFormed at hsub
    rw [hd, if_pos rfl] at hsub
    obtain ⟨ksize, hf⟩ := hsub
    have hsum := hf.room_eq
    rw [length_fixedItems] at hsum
    obtain ⟨hf', hitems⟩ := hf.transplant 0 0 hfix hks hlow (by omega) rfl hf.small hf.even
      (by have := hf.room; omega) ((hbody hd).mono (by omega))
    refine ⟨?_, ?_, hroom, fun h => absurd h.symm Bool.false_ne_true⟩
    · unfold SubFormed
      rw [hf'.fixed, if_pos rfl]
      exact ⟨ksize, hf'⟩
    · unfold values
      rw [hf'.fixed, hd, if_pos rfl, if_pos rfl, hitems]
  | false =>
    have hf := hsub
    unfold SubFormed at hf
    rw [hd, if_neg Bool.false_ne_true] at hf
    have hnum := hf.lower_eq
    have htrans : Transplanted m m' p q space 0 0 := by
      refine ⟨hleaf, hfix, hlow, by omega, fun i hi => ?_, fun d d' hdd h₁ h₂ => ?_⟩
      · exact ((hslots hd).part (d := 2 * i) (k := 2) (by omega)).peek
      · have h := hnodes hd (d - upper m p) (by omega)
        unfold pageHdrSz
        have ha : q + 20 + upper m p + (d - upper m p) = q + 20 + d' := by omega
        have hb : p + 20 + upper m p + (d - upper m p) = p + 20 + d := by omega
        rw [ha, hb] at h
        exact h
    obtain ⟨hf', hitems⟩ := htrans.formed hf rfl hf.small ⟨rfl, rfl⟩ (by have := hf.room; omega)
    obtain ⟨hsub', hvalues⟩ := SubFormed.of_formed hf' hitems hd
    exact ⟨hsub', hvalues, hroom, fun _ => hitems⟩

/-- `page_copy` copies what the page holds, whatever it leaves out. -/
theorem pageCopy_spec (m : Mem) {wordSize cacheline dst src size : Nat} (hword : 0 < wordSize)
    (hline : wordSize ≤ cacheline * 3) (hsize : 20 ≤ size)
    (hlarge : pageFlags m src &&& pLarge = 0) (hsub : SubFormed m src (size - 20))
    (hapart : src + size ≤ dst ∨ dst + size ≤ src) :
    let m' := pageCopy wordSize cacheline m dst src size
    (SubFormed m' dst (size - 20) ∧ values m' dst = values m src ∧
      pageRoom m' dst = pageRoom m src ∧
      (isDupfixLeaf m src = false → items m' dst = items m src)) ∧
      Agree m m' src dst 20 ∧ ∀ a, a < dst ∨ dst + size ≤ a → m' a = m a := by
  obtain ⟨hlow, hup, heven, hplain⟩ := hsub.bounds
  -- it is enough that the used bytes are copied
  have hcopied : ∀ m', (∀ d, (if isDupfixLeaf m src then d < 20 + (size - 20 - pageRoom m src)
      else d < 20 + lower m src ∨ 20 + upper m src ≤ d ∧ d < size) → m' (dst + d) = m (src + d)) →
      (SubFormed m' dst (size - 20) ∧ values m' dst = values m src ∧
        pageRoom m' dst = pageRoom m src ∧
        (isDupfixLeaf m src = false → items m' dst = items m src)) ∧ Agree m m' src dst 20 := by
    intro m' hm'
    have hhead : Agree m m' src dst 20 := fun d hd => hm' d (by split_ifs <;> omega)
    refine ⟨hsub.copied (hhead.part (by omega)) (fun hd d hlt => ?_) (fun hd d hlt => ?_)
      (fun hd d hlt => ?_), hhead⟩
    · rw [Nat.add_assoc, Nat.add_assoc]
      exact hm' _ (by rw [hd, if_pos rfl]; omega)
    · rw [Nat.add_assoc, Nat.add_assoc]
      exact hm' _ (by rw [hd, if_neg Bool.false_ne_true]; omega)
    · rw [Nat.add_assoc, Nat.add_assoc, Nat.add_assoc, Nat.add_assoc]
      exact hm' _ (by rw [hd, if_neg Bool.false_ne_true]; omega)
  have hmove : ∀ n d, d < n → move m dst src n (dst + d) = m (src + d) := by
    intro n d hd
    have h := move_agree m dst src (d := 0) (k := n) (n := n) (by omega) d hd
    rw [Nat.add_zero, Nat.add_zero] at h
    exact h
  simp only
  unfold pageCopy pageHdrSz
  cases hd : isDupfixLeaf m src with
  | true =>
    have hfixed := hsub
    unfold SubFormed at hfixed
    rw [hd, if_pos rfl] at hfixed
    simp only [hd, if_true] at hcopied
    obtain ⟨ksize, hf⟩ := hfixed
    have hsum := hf.room_eq
    rw [length_fixedItems] at hsum
    rw [if_pos rfl, hf.ksize_eq]
    simp only
    rw [if_neg (by omega)]
    obtain ⟨hgood, hhead⟩ := hcopied _ fun d hlt => hmove (20 + ksize * pageNumkeys m src) d (by omega)
    exact ⟨hgood, hhead, fun a ha => move_outside (by omega)⟩
  | false =>
    obtain ⟨hle, -⟩ := hplain hd
    simp only [hd, Bool.false_eq_true, if_false] at hcopied
    rw [if_neg Bool.false_ne_true, if_neg (fun h => h hlarge)]
    by_cases hunused : (upper m src : Int) - lower m src > cacheline * 3
    · simp only [if_pos hunused]
      have hceil : lower m src + 20 ≤ (lower m src + 20 + wordSize - 1) / wordSize * wordSize ∧
          (lower m src + 20 + wordSize - 1) / wordSize * wordSize ≤
            lower m src + 20 + wordSize - 1 := by
        have hdiv := Nat.div_add_mod (lower m src + 20 + wordSize - 1) wordSize
        have hmod := Nat.mod_lt (lower m src + 20 + wordSize - 1) hword
        rw [Nat.mul_comm] at hdiv
        omega
      have hfloor := Nat.div_mul_le_self (upper m src + 20) wordSize
      generalize (lower m src + 20 + wordSize - 1) / wordSize * wordSize = low at *
      generalize (upper m src + 20) / wordSize * wordSize = high at *
      rw [if_neg (by omega)]
      have hboth : ∀ d, d < low ∨ high ≤ d ∧ d < size →
          move (move m dst src low) (dst + high) (src + high) (size - high) (dst + d) =
            m (src + d) := by
        intro d hlt
        by_cases hd' : high ≤ d
        · have h := move_agree (move m dst src low) (dst + high) (src + high) (d := d - high) (k := 1)
            (n := size - high) (by omega) 0 (by omega)
          have ha : dst + high + (d - high) + 0 = dst + d := by omega
          have hb : src + high + (d - high) + 0 = src + d := by omega
          rw [ha, hb] at h
          rw [h, move_outside (by omega)]
        · rw [move_outside (by omega), hmove low d (by omega)]
      obtain ⟨hgood, hhead⟩ := hcopied _ fun d hlt => hboth d (by omega)
      exact ⟨hgood, hhead, fun a ha => by rw [move_outside (by omega), move_outside (by omega)]⟩
    · simp only [if_neg hunused]
      obtain ⟨hgood, hhead⟩ := hcopied _ fun d hlt => hmove size d (by omega)
      exact ⟨hgood, hhead, fun a ha => move_outside ha⟩

end Mdbx.Slotted
