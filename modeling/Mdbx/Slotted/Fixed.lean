import Mdbx.Slotted.Nodes

/-!
# Slotted.Fixed — pages of values of one size

A `P_DUPFIX` page has no entries: its values lie side by side behind the header, and `lower` and
`upper` only count.
-/

namespace Mdbx.Slotted

open Node ByteMemory

variable {m m' : Mem} {p space k : Nat}

def fixedItems (m : Mem) (p : Nat) : List (List UInt8) :=
  (List.range (pageNumkeys m p)).map fun i => ByteMemory.bytes m (pageDupfixPtr m p i) (dupfixKsize m p)

@[simp] theorem length_fixedItems (m : Mem) (p : Nat) :
    (fixedItems m p).length = pageNumkeys m p := by
  rw [fixedItems, List.length_map, List.length_range]

theorem getElem_fixedItems {i : Nat} (h : i < (fixedItems m p).length) :
    (fixedItems m p)[i] = ByteMemory.bytes m (pageDupfixPtr m p i) (dupfixKsize m p) := by
  simp only [fixedItems, List.getElem_map, List.getElem_range]

/-- A well-formed page, with the size of its values. -/
structure FixedFormed (m : Mem) (p space ksize : Nat) : Prop where
  fixed : isDupfixLeaf m p = true
  small : space < 65536
  even : space % 2 = 0
  ksize_eq : dupfixKsize m p = ksize
  wide : 2 ≤ ksize
  numkeys : lower m p % 2 = 0
  room : lower m p ≤ upper m p
  full : upper m p + ksize * pageNumkeys m p = space + lower m p

variable {ksize : Nat}

theorem FixedFormed.lower_eq (h : FixedFormed m p space ksize) :
    lower m p = 2 * pageNumkeys m p := by
  have := h.numkeys
  unfold pageNumkeys
  omega

/-- What is free is what the values leave. -/
theorem FixedFormed.room_eq (h : FixedFormed m p space ksize) :
    pageRoom m p + ksize * (fixedItems m p).length = space := by
  have hroom := h.room
  have hfull := h.full
  rw [length_fixedItems]
  unfold pageRoom
  omega

/-- The parity that the code asserts. -/
theorem FixedFormed.parity (h : FixedFormed m p space ksize) :
    (((ksize &&& pageNumkeys m p) ^^^ upper m p) &&& 1) = 0 := by
  have hfull := h.full
  have heven := h.even
  have hnum := h.numkeys
  have hsum : (upper m p + ksize * pageNumkeys m p) % 2 = 0 := by omega
  have hmul : (ksize * pageNumkeys m p) % 2 = (ksize % 2) * (pageNumkeys m p % 2) % 2 :=
    Nat.mul_mod _ _ _
  have hbit : ((ksize &&& pageNumkeys m p) ^^^ upper m p) % 2 =
      (ksize % 2 &&& pageNumkeys m p % 2) ^^^ upper m p % 2 := by
    have hand := Nat.and_mod_two_pow (a := ksize) (b := pageNumkeys m p) (n := 1)
    have hxor := Nat.xor_mod_two_pow (a := ksize &&& pageNumkeys m p) (b := upper m p) (n := 1)
    rw [Nat.pow_one] at hand hxor
    rw [hxor, hand]
  rw [Nat.and_one_is_mod, hbit]
  rcases Nat.mod_two_eq_zero_or_one ksize with hk | hk <;>
    rcases Nat.mod_two_eq_zero_or_one (pageNumkeys m p) with hn | hn <;>
    rcases Nat.mod_two_eq_zero_or_one (upper m p) with hu | hu <;>
    rw [hk, hn] at hmul <;> rw [hk, hn, hu] <;> first
      | rfl
      | omega

/-- The new state of a page of values of one size. -/
structure FixedHolds (m m' : Mem) (p space ksize : Nat) (xs : List (List UInt8)) : Prop where
  framed : Framed m m' p space
  formed : FixedFormed m' p space ksize
  items_eq : fixedItems m' p = xs

theorem mul_step (c : Nat) {i j : Nat} (h : i < j) : c * i + c ≤ c * j := by
  have hle := Nat.mul_le_mul_left c h
  rwa [Nat.mul_succ] at hle

/-- `node_add_dupfix` puts a value in if there is room for it, and else changes nothing. -/
theorem nodeAddDupfix_spec (hf : FixedFormed m p space ksize) (hk : k ≤ pageNumkeys m p)
    {key : List UInt8} (hkey : key.length = ksize) :
    let r := nodeAddDupfix m p k key
    if ksize ≤ pageRoom m p then r.2 = .success ∧
      FixedHolds m r.1 p space ksize ((fixedItems m p).insertIdx k key)
    else r = (m, .pageFull) := by
  have hroom := hf.room
  have hlow := hf.lower_eq
  have hfull := hf.full
  have hwide := hf.wide
  have hsmall := hf.small
  have hks := hf.ksize_eq
  have hkn := Nat.mul_le_mul_left ksize hk
  unfold nodeAddDupfix pageRoom
  simp only [hkey, adjusted_eq m p hwide]
  by_cases hfit : ksize ≤ upper m p - lower m p
  · simp only [if_pos hfit, if_pos (show lower m p + ksize ≤ upper m p by omega), true_and]
    generalize hn : pageNumkeys m p = n at *
    have hup : upper m p < 65536 := upper_lt m p
    generalize hm₁ : setUpper (setLower m p (lower m p + 2)) p (upper m p - (ksize - 2)) = m₁
    have hout₁ : ∀ a, a < p + 12 ∨ p + 16 ≤ a → m₁ a = m a := by
      intro a ha
      rw [← hm₁, setUpper_outside (by omega), setLower_outside (by omega)]
    have hks₁ : dupfixKsize m₁ p = ksize := by
      have hagree : Agree m m₁ (p + 8) (p + 8) 2 := fun i hi => hout₁ _ (by omega)
      exact hagree.peek.trans hks
    have hptr : pageDupfixPtr m₁ p k = p + 20 + ksize * k := by
      unfold pageDupfixPtr pageHdrSz
      rw [hks₁]
    rw [hptr]
    generalize hm₂ : (if n - k > 0 then move m₁ (p + 20 + ksize * k + ksize) (p + 20 + ksize * k)
      ((n - k) * ksize) else m₁) = m₂
    have hspan : (n - k) * ksize = ksize * n - ksize * k := by
      rw [Nat.mul_comm, Nat.mul_sub]
    have hout₂ : ∀ a, a < p + 20 + ksize * k + ksize ∨ p + 20 + ksize * n + ksize ≤ a →
        m₂ a = m₁ a := by
      intro a ha
      rw [← hm₂]
      split_ifs
      · exact move_outside (by omega)
      · rfl
    have hup₁ : upper m₁ p = upper m p - (ksize - 2) := by
      rw [← hm₁, upper_setUpper _ _ (by omega)]
    have hlow₁ : lower m₁ p = lower m p + 2 := by
      rw [← hm₁, lower_of_agree fun a _ _ => setUpper_outside (by omega),
        lower_setLower _ _ (by omega)]
    -- nothing of the header changes from here on
    have hout : ∀ a, a < p + 20 + ksize * k ∨ p + 20 + ksize * n + ksize ≤ a →
        copy m₂ (p + 20 + ksize * k) key a = m₁ a := by
      intro a ha
      rw [copy_outside (by omega), hout₂ a (by omega)]
    have hframed : Framed m (copy m₂ (p + 20 + ksize * k) key) p space := by
      refine ⟨fun a ha => ?_, fun a h₁ h₂ => ?_⟩
      · unfold pageHdrSz at ha
        rw [hout a (by omega), hout₁ a (by omega)]
      · unfold pageHdrSz at h₂
        rw [hout a (by omega), hout₁ a (by omega)]
    have hlow' : lower (copy m₂ (p + 20 + ksize * k) key) p = lower m p + 2 := by
      rw [lower_of_agree fun a _ _ => hout a (by omega), hlow₁]
    have hup' : upper (copy m₂ (p + 20 + ksize * k) key) p = upper m p - (ksize - 2) := by
      rw [upper_of_agree fun a _ _ => hout a (by omega), hup₁]
    have hnum' : pageNumkeys (copy m₂ (p + 20 + ksize * k) key) p = n + 1 := by
      unfold pageNumkeys
      omega
    have hks' := hframed.header.2.2.trans hks
    refine ⟨hframed, ⟨hframed.header.2.1.trans hf.fixed, hsmall, hf.even, hks', hwide, by omega,
      by omega, ?_⟩, ?_⟩
    · rw [hnum', Nat.mul_succ, hup', hlow']
      omega
    · apply List.ext_getElem
      · rw [length_fixedItems, hnum', List.length_insertIdx_of_le_length (by
          rw [length_fixedItems]
          omega), length_fixedItems, hn]
      · intro i h₁ h₂
        rw [length_fixedItems, hnum'] at h₁
        rw [getElem_fixedItems, hks']
        unfold pageDupfixPtr pageHdrSz
        rw [hks']
        rcases Nat.lt_trichotomy i k with hlt | rfl | hgt
        · have hstep := mul_step ksize hlt
          rw [List.getElem_insertIdx_of_lt hlt, getElem_fixedItems, hks]
          unfold pageDupfixPtr pageHdrSz
          rw [hks]
          have hagree : Agree m (copy m₂ (p + 20 + ksize * k) key) (p + 20 + ksize * i)
              (p + 20 + ksize * i) ksize := fun d hd => by
            rw [hout _ (by omega), hout₁ _ (by omega)]
          exact hagree.bytes
        · rw [List.getElem_insertIdx_self, ← hkey]
          exact bytes_copy _ _ _
        · obtain ⟨j, rfl⟩ := Nat.exists_eq_add_of_lt hgt
          rw [List.getElem_insertIdx_of_gt hgt, getElem_fixedItems, hks]
          unfold pageDupfixPtr pageHdrSz
          rw [hks]
          have hstep := mul_step ksize (show k + j < n by omega)
          have hsplit : ksize * (k + j + 1) = ksize * k + ksize + ksize * j := by ring
          have hsplit' : ksize * (k + j + 1 - 1) = ksize * k + ksize * j := by
            rw [Nat.add_sub_cancel, Nat.mul_add]
          have hsplit'' : ksize * (k + j) = ksize * k + ksize * j := Nat.mul_add _ _ _
          rw [hsplit, hsplit']
          have hagree : Agree m (copy m₂ (p + 20 + ksize * k) key)
              (p + 20 + (ksize * k + ksize * j)) (p + 20 + (ksize * k + ksize + ksize * j)) ksize := by
            intro d hd
            rw [copy_outside (by omega), ← hm₂, if_pos (by omega)]
            unfold move
            rw [if_pos (by omega), hout₁ _ (by omega)]
            congr 1
            omega
          exact hagree.bytes
  · simp only [if_neg hfit, if_neg (show ¬ lower m p + ksize ≤ upper m p by omega)]

/-- `node_del` erases the value. -/
theorem nodeDel_fixed_spec (hf : FixedFormed m p space ksize) (hk : k < pageNumkeys m p) :
    FixedHolds m (nodeDel m p k ksize) p space ksize ((fixedItems m p).eraseIdx k) := by
  have hroom := hf.room
  have hlow := hf.lower_eq
  have hfull := hf.full
  have hwide := hf.wide
  have hsmall := hf.small
  have hks := hf.ksize_eq
  have hkn := mul_step ksize hk
  have hptr : pageDupfixPtr m p k = p + 20 + ksize * k := by
    unfold pageDupfixPtr pageHdrSz
    rw [hks]
  unfold nodeDel
  simp only [hf.fixed, if_true, hptr]
  generalize hn : pageNumkeys m p = n at *
  have hspan : (n - 1 - k) * ksize = ksize * n - ksize * k - ksize := by
    rw [Nat.mul_comm, Nat.mul_sub, Nat.mul_sub, Nat.mul_one]
    omega
  generalize hm₁ : (if n - 1 - k ≠ 0 then move m (p + 20 + ksize * k) (p + 20 + ksize * k + ksize)
    ((n - 1 - k) * ksize) else m) = m₁
  have hout₁ : ∀ a, a < p + 20 + ksize * k ∨ p + 20 + ksize * n ≤ a → m₁ a = m a := by
    intro a ha
    rw [← hm₁]
    split_ifs
    · exact move_outside (by omega)
    · rfl
  have hlow₁ : lower m₁ p = lower m p := lower_of_agree fun a _ _ => hout₁ a (by omega)
  have hup₁ : ∀ v, upper (setLower m₁ p v) p = upper m p := fun v =>
    upper_of_agree fun a _ _ => (setLower_outside (by omega)).trans (hout₁ a (by omega))
  unfold indxSz
  rw [hlow₁, hup₁]
  generalize hm' : setUpper (setLower m₁ p (lower m p - 2)) p (upper m p + (ksize - 2)) = m'
  have hout : ∀ a, a < p + 12 ∨ p + 16 ≤ a → m' a = m₁ a := by
    intro a ha
    rw [← hm', setUpper_outside (by omega), setLower_outside (by omega)]
  have hstep : ksize * n = ksize * (n - 1) + ksize := by
    rw [← Nat.mul_succ]
    congr 1
    omega
  have hup' : upper m' p = upper m p + (ksize - 2) := by
    have hgrow := Nat.mul_le_mul hwide (show 1 ≤ n by omega)
    have hle : 2 * (n - 1) ≤ ksize * (n - 1) := Nat.mul_le_mul_right _ hwide
    rw [← hm', upper_setUpper _ _ (by omega)]
  have hlow' : lower m' p = lower m p - 2 := by
    rw [← hm', lower_of_agree fun a _ _ => setUpper_outside (by omega),
      lower_setLower _ _ (by have := lower_lt m p; omega)]
  have hnum' : pageNumkeys m' p = n - 1 := by
    unfold pageNumkeys
    omega
  have hbound : ksize * n ≤ space := by omega
  have hframed : Framed m m' p space := by
    refine ⟨fun a ha => ?_, fun a h₁ h₂ => ?_⟩
    · unfold pageHdrSz at ha
      rw [hout a (by omega), hout₁ a (by omega)]
    · unfold pageHdrSz at h₂
      rw [hout a (by omega), hout₁ a (by omega)]
  have hks' := hframed.header.2.2.trans hks
  refine ⟨hframed, ⟨hframed.header.2.1.trans hf.fixed, hsmall, hf.even, hks', hwide, by omega,
    by omega, ?_⟩, ?_⟩
  · rw [hnum', hup', hlow']
    omega
  · apply List.ext_getElem
    · rw [length_fixedItems, hnum', List.length_eraseIdx_of_lt (by
        rw [length_fixedItems]
        omega), length_fixedItems, hn]
    · intro i h₁ h₂
      rw [length_fixedItems, hnum'] at h₁
      rw [getElem_fixedItems, hks', List.getElem_eraseIdx]
      unfold pageDupfixPtr pageHdrSz
      rw [hks']
      by_cases hlt : i < k
      · have hstep := mul_step ksize hlt
        rw [dif_pos hlt, getElem_fixedItems, hks]
        unfold pageDupfixPtr pageHdrSz
        rw [hks]
        have hagree : Agree m m' (p + 20 + ksize * i) (p + 20 + ksize * i) ksize := fun d hd => by
          rw [hout _ (by omega), hout₁ _ (by omega)]
        exact hagree.bytes
      · obtain ⟨j, rfl⟩ := Nat.exists_eq_add_of_le (Nat.le_of_not_lt hlt)
        have hstep := mul_step ksize (show k + j + 1 < n by omega)
        have hsplit : ksize * (k + j) = ksize * k + ksize * j := Nat.mul_add _ _ _
        have hsplit' : ksize * (k + j + 1) = ksize * k + ksize * j + ksize := by ring
        rw [dif_neg hlt, getElem_fixedItems, hks]
        unfold pageDupfixPtr pageHdrSz
        rw [hks, hsplit, hsplit']
        have hagree : Agree m m' (p + 20 + (ksize * k + ksize * j + ksize))
            (p + 20 + (ksize * k + ksize * j)) ksize := by
          intro d hd
          rw [hout _ (by omega), ← hm₁, if_pos (by omega)]
          unfold move
          rw [if_pos (by omega)]
          congr 1
          omega
        exact hagree.bytes

theorem Formed.empty (hplain : isDupfixLeaf m p = false) (hlow : lower m p = 0)
    (hup : upper m p = space) (hsmall : space < 65536) (heven : space % 2 = 0) :
    Formed m p space ∧ items m p = [] := by
  have hnum : pageNumkeys m p = 0 := by
    unfold pageNumkeys
    rw [hlow]
  have hitems : items m p = [] := by
    unfold items
    rw [hnum]
    rfl
  refine ⟨⟨hplain, hsmall, by rw [hlow], by omega, by omega, fun i hi => ?_, ?_, ?_⟩, hitems⟩
  · rw [hnum] at hi
    exact absurd hi (Nat.not_lt_zero i)
  · rw [hnum]
    exact Extents.Placed.empty (Nat.le_of_eq hup)
  · rw [hitems, hup]
    exact Nat.zero_add _

theorem FixedFormed.empty (hfixed : isDupfixLeaf m p = true) (hlow : lower m p = 0)
    (hup : upper m p = space) (hsmall : space < 65536) (heven : space % 2 = 0)
    (hwide : 2 ≤ dupfixKsize m p) :
    FixedFormed m p space (dupfixKsize m p) ∧ fixedItems m p = [] := by
  have hnum : pageNumkeys m p = 0 := by
    unfold pageNumkeys
    rw [hlow]
  refine ⟨⟨hfixed, hsmall, heven, rfl, hwide, by rw [hlow], by omega, ?_⟩, ?_⟩
  · rw [hnum, hlow, hup]
    rfl
  · unfold fixedItems
    rw [hnum]
    rfl

end Mdbx.Slotted
