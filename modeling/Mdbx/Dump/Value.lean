import Mdbx.Dump.Model

/-!
# Dump.Value — one line of data

A value is written without newlines, and `readline` gives it back unless it starts with a space or
its line outgrows `INT_MAX`.
-/

namespace Mdbx.Dump

open Text

/-! ## 1. Encoding -/

theorem byte_cases (P : UInt8 → Prop) (h : ∀ n < 256, P (UInt8.ofNat n)) (c : UInt8) : P c := by
  have hc := h c.toNat c.toNat_lt
  rw [UInt8.ofNat_toNat] at hc
  exact hc

-- a printed byte stands for itself, any other is written with two digits
theorem dumpByte_print (c : UInt8) :
    (dumpByte true c = [c] ∧ c ≠ backslash ∧ c ≠ newline ∧ c ≠ 0) ∨
      ∃ a b, dumpByte true c = [backslash, a, b] ∧ a ≠ backslash ∧
        isxdigit a = true ∧ isxdigit b = true ∧ unhex a b = c := by
  by_cases hc : isprint c && c ≠ backslash
  · apply Or.inl
    have hall : ∀ n < 256, isprint (UInt8.ofNat n) → UInt8.ofNat n ≠ newline ∧ UInt8.ofNat n ≠ 0 := by
      decide +kernel
    have ⟨hprint, hne⟩ := Bool.and_eq_true_iff.mp hc
    have hnz := byte_cases (fun c => isprint c → c ≠ newline ∧ c ≠ 0) hall c hprint
    refine ⟨?_, of_decide_eq_true hne, hnz⟩
    unfold dumpByte
    rw [Bool.true_and, if_pos hc]
  · apply Or.inr
    have hall : ∀ n < 256, hexDigit (UInt8.ofNat n >>> 4) ≠ backslash ∧
        isxdigit (hexDigit (UInt8.ofNat n >>> 4)) = true ∧
        isxdigit (hexDigit (UInt8.ofNat n &&& 15)) = true ∧
        unhex (hexDigit (UInt8.ofNat n >>> 4)) (hexDigit (UInt8.ofNat n &&& 15)) =
          UInt8.ofNat n := by
      decide +kernel
    have hc' := byte_cases (fun c => hexDigit (c >>> 4) ≠ backslash ∧
      isxdigit (hexDigit (c >>> 4)) = true ∧ isxdigit (hexDigit (c &&& 15)) = true ∧
      unhex (hexDigit (c >>> 4)) (hexDigit (c &&& 15)) = c) hall c
    refine ⟨hexDigit (c >>> 4), hexDigit (c &&& 15), ?_, hc'⟩
    unfold dumpByte
    rw [Bool.true_and, if_neg hc]
    rfl

theorem dumpByte_hex (c : UInt8) :
    ∃ a b, dumpByte false c = [a, b] ∧
      isxdigit a = true ∧ isxdigit b = true ∧ unhex a b = c := by
  have hall : ∀ n < 256, isxdigit (hexDigit (UInt8.ofNat n >>> 4)) = true ∧
      isxdigit (hexDigit (UInt8.ofNat n &&& 15)) = true ∧
      unhex (hexDigit (UInt8.ofNat n >>> 4)) (hexDigit (UInt8.ofNat n &&& 15)) =
        UInt8.ofNat n := by
    decide +kernel
  exact ⟨hexDigit (c >>> 4), hexDigit (c &&& 15), rfl, byte_cases (fun c =>
    isxdigit (hexDigit (c >>> 4)) = true ∧ isxdigit (hexDigit (c &&& 15)) = true ∧
      unhex (hexDigit (c >>> 4)) (hexDigit (c &&& 15)) = c) hall c⟩

theorem encode_cons (p : Bool) (c : UInt8) (v : Bytes) :
    encode p (c :: v) = dumpByte p c ++ encode p v := List.flatMap_cons

theorem decodePlain_cons {c : UInt8} (hc : c ≠ backslash) (s : Bytes) :
    decodePlain (c :: s) = (decodePlain s).map (c :: ·) := by
  rw [decodePlain.eq_def]
  change (if c = backslash then _ else _) = _
  rw [if_neg hc]

theorem decode_encode (p : Bool) (v : Bytes) : decode p (encode p v) = some v := by
  induction v with
  | nil => cases p with
    | false => rfl
    | true => rfl
  | cons c v ih =>
    rw [encode_cons]
    cases p with
    | false =>
      have ⟨a, b, hbyte, ha, hb, hval⟩ := dumpByte_hex c
      rw [hbyte]
      change (if isxdigit a && isxdigit b then
        (decode false (encode false v)).map (unhex a b :: ·) else none) = _
      rw [ha, hb, ih, hval]
      rfl
    | true =>
      cases dumpByte_print c with
      | inl h =>
        have ⟨hbyte, hback, _⟩ := h
        rw [hbyte]
        change decodePlain (c :: encode true v) = _
        rw [decodePlain_cons hback]
        change (decode true (encode true v)).map (c :: ·) = _
        rw [ih]
        rfl
      | inr h =>
        have ⟨a, b, hbyte, hback, ha, hb, hval⟩ := h
        rw [hbyte]
        change decodePlain (backslash :: a :: b :: encode true v) = _
        rw [decodePlain.eq_def]
        change (if a = backslash then _ else if isxdigit a && isxdigit b then
          (decode true (encode true v)).map (unhex a b :: ·) else none) = _
        rw [if_neg hback, ha, hb, ih, hval]
        rfl

theorem dumpByte_clean (p : Bool) (c : UInt8) : ∀ x ∈ dumpByte p c, x ≠ newline ∧ x ≠ 0 := by
  have hdigit : ∀ n < 256, isxdigit (UInt8.ofNat n) = true →
      UInt8.ofNat n ≠ newline ∧ UInt8.ofNat n ≠ 0 := by decide +kernel
  have hx := byte_cases (fun c => isxdigit c = true → c ≠ newline ∧ c ≠ 0) hdigit
  cases p with
  | false =>
    have ⟨a, b, hbyte, ha, hb, _⟩ := dumpByte_hex c
    rw [hbyte]
    intro x hmem
    cases List.mem_cons.mp hmem with
    | inl h => exact h ▸ hx a ha
    | inr h => exact List.mem_singleton.mp h ▸ hx b hb
  | true =>
    cases dumpByte_print c with
    | inl h =>
      rw [h.1]
      intro x hmem
      exact List.mem_singleton.mp hmem ▸ h.2.2
    | inr h =>
      have ⟨a, b, hbyte, _, ha, hb, _⟩ := h
      rw [hbyte]
      intro x hmem
      cases List.mem_cons.mp hmem with
      | inl h => exact h ▸ (by decide)
      | inr h => cases List.mem_cons.mp h with
        | inl h => exact h ▸ hx a ha
        | inr h => exact List.mem_singleton.mp h ▸ hx b hb

theorem encode_clean (p : Bool) (v : Bytes) : ∀ x ∈ encode p v, x ≠ newline ∧ x ≠ 0 := by
  intro x hx
  have ⟨c, _, hc⟩ := List.mem_flatMap.mp hx
  exact dumpByte_clean p c x hc

theorem newline_not_mem_encode (p : Bool) (v : Bytes) : newline ∉ encode p v :=
  fun h => (encode_clean p v newline h).1 rfl

theorem zero_not_mem_encode (p : Bool) (v : Bytes) : (0 : UInt8) ∉ encode p v :=
  fun h => (encode_clean p v 0 h).2 rfl

theorem dumpByte_length (p : Bool) (c : UInt8) :
    1 ≤ (dumpByte p c).length ∧ (dumpByte p c).length ≤ 3 := by
  cases p with
  | false =>
    have ⟨a, b, hbyte, _⟩ := dumpByte_hex c
    rw [hbyte]
    exact ⟨Nat.le_add_left 1 1, Nat.le_succ 2⟩
  | true =>
    cases dumpByte_print c with
    | inl h =>
      rw [h.1]
      exact ⟨Nat.le_refl 1, Nat.le_add_left 1 2⟩
    | inr h =>
      have ⟨a, b, hbyte, _⟩ := h
      rw [hbyte]
      exact ⟨Nat.le_add_left 1 2, Nat.le_refl 3⟩

theorem encode_length (p : Bool) (v : Bytes) : (encode p v).length ≤ 3 * v.length := by
  induction v with
  | nil => exact Nat.le_refl 0
  | cons c v ih =>
    have hbyte := (dumpByte_length p c).2
    rw [encode_cons, List.length_append, List.length_cons]
    omega

/-- In print mode a leading space would be taken for the mark of the previous value. -/
def Spaced (p : Bool) (v : Bytes) : Prop := p = true ∧ v.head? = some space

instance (p : Bool) (v : Bytes) : Decidable (Spaced p v) := inferInstanceAs (Decidable (_ ∧ _))

theorem not_spaced_nil (p : Bool) : ¬Spaced p [] := fun h => nomatch h.2

theorem encode_head {p : Bool} {v : Bytes} (h : ¬Spaced p v) : (encode p v).head? ≠ some space := by
  cases v with
  | nil => exact fun h => nomatch h
  | cons c v =>
    rw [encode_cons]
    cases p with
    | false =>
      have ⟨a, b, hbyte, ha, _⟩ := dumpByte_hex c
      rw [hbyte]
      intro hs
      have has : a = space := Option.some.inj hs
      rw [has] at ha
      exact absurd ha (by decide)
    | true =>
      cases dumpByte_print c with
      | inl hc =>
        rw [hc.1]
        intro hs
        have hcs : c = space := Option.some.inj hs
        exact h ⟨rfl, congrArg some hcs⟩
      | inr hc =>
        have ⟨a, b, hbyte, _⟩ := hc
        rw [hbyte]
        intro hs
        have hbs : backslash = space := Option.some.inj hs
        exact absurd hbs (by decide)

/-! ## 2. Reassembled lines -/

-- a read takes the rest of the line or a part of it
theorem fgets_line {l : Bytes} (hl : newline ∉ l) {n : Int} {rest piece s : Bytes}
    (h : fgets n (l ++ newline :: rest) = some (piece, s)) :
    (piece = l ++ [newline] ∧ s = rest) ∨
      ∃ k, piece = l.take k ∧ s = l.drop k ++ newline :: rest := by
  by_cases hn : n ≤ 0
  · unfold fgets at h
    rw [if_pos hn] at h
    exact nomatch h
  · by_cases hone : n = 1
    · rw [hone] at h
      unfold fgets at h
      rw [if_neg (by decide), if_neg (fun h => h.1 rfl)] at h
      have hk := takeLine_part hl (k := 0) (Nat.zero_le _) (newline :: rest)
      have heq : takeLine ((1 : Int).toNat - 1) (l ++ newline :: rest) = (piece, s) :=
        Option.some.inj h
      change takeLine 0 (l ++ newline :: rest) = _ at heq
      rw [hk] at heq
      have ⟨hp, hs⟩ := Prod.mk.inj heq
      exact Or.inr ⟨0, hp.symm, hs.symm⟩
    · by_cases hlen : (l.length : Int) + 1 < n
      · rw [fgets_whole hl hlen] at h
        have ⟨hp, hs⟩ := Prod.mk.inj (Option.some.inj h)
        exact Or.inl ⟨hp.symm, hs.symm⟩
      · rw [fgets_part hl (by omega) (by omega)] at h
        have ⟨hp, hs⟩ := Prod.mk.inj (Option.some.inj h)
        exact Or.inr ⟨n.toNat - 1, hp.symm, hs.symm⟩

theorem getLast?_newline (s : Bytes) : (s ++ [newline]).getLast? = some newline :=
  List.getLast?_concat

theorem getLast?_ne {s : Bytes} (hs : newline ∉ s) : s.getLast? ≠ some newline :=
  fun h => hs (List.mem_of_getLast? h)

theorem readMore_done {fuel len : Nat} (text s : Bytes) :
    readMore (fuel + 1) len (text ++ [newline]) s = some (text ++ [newline], len, s) := by
  rw [readMore, if_pos (getLast?_newline text)]

theorem cstr_line {l : Bytes} (hz : (0 : UInt8) ∉ l) : cstr (l ++ [newline]) = l ++ [newline] := by
  apply cstr_of_nonzero
  intro h
  cases List.mem_append.mp h with
  | inl h => exact hz h
  | inr h => exact absurd (List.mem_singleton.mp h) (by decide)

-- whatever the buffer is, only the whole line comes out
theorem readMore_line {fuel len : Nat} {text l rest : Bytes} (htext : newline ∉ text)
    (hl : newline ∉ l) (hz : (0 : UInt8) ∉ l) {t s : Bytes} {len' : Nat}
    (h : readMore fuel len text (l ++ newline :: rest) = some (t, len', s)) :
    t = text ++ l ++ [newline] ∧ s = rest := by
  induction fuel generalizing len text l with
  | zero => exact nomatch h
  | succ fuel ih =>
    rw [readMore, if_neg (getLast?_ne htext)] at h
    cases hg : fgets (int32 (len + 1)) (l ++ newline :: rest) with
    | none =>
      rw [hg] at h
      exact nomatch h
    | some x =>
      have ⟨piece, s'⟩ := x
      rw [hg] at h
      change readMore fuel (2 * len) (text ++ cstr piece) s' = _ at h
      cases fgets_line hl hg with
      | inl hp =>
        rw [hp.1, hp.2, cstr_line hz, ← List.append_assoc] at h
        cases fuel with
        | zero => exact nomatch h
        | succ fuel =>
          rw [readMore_done] at h
          have hpair := Option.some.inj h
          exact ⟨(congrArg Prod.fst hpair).symm, (congrArg (·.2.2) hpair).symm⟩
      | inr hp =>
        have ⟨k, hpiece, hs⟩ := hp
        have hzt : (0 : UInt8) ∉ l.take k := fun h => hz (List.mem_of_mem_take h)
        rw [hpiece, hs, cstr_of_nonzero hzt] at h
        have hnl : newline ∉ text ++ l.take k := fun h => (List.mem_append.mp h).elim htext
          fun h => hl (List.mem_of_mem_take h)
        have ⟨ht, hrest⟩ := ih hnl (fun h => hl (List.mem_of_mem_drop h))
          (fun h => hz (List.mem_of_mem_drop h)) h
        refine ⟨?_, hrest⟩
        rw [ht, List.append_assoc text, List.take_append_drop]

theorem int32_of_lt {n : Int} (hlo : 0 ≤ n) (hhi : n < 2 ^ 31) : int32 n = n := by
  unfold int32
  exact Int.bmod_eq_of_le (by omega) (by omega)

-- a buffer of a power of two grows until the line fits or its size is no `int`
theorem readMore_grow {fuel k : Nat} (hk1 : 1 ≤ k) (hk : k ≤ 31) (hfuel : 33 ≤ k + fuel)
    {l : Bytes} (hl : newline ∉ l) (hz : (0 : UInt8) ∉ l) (hlen : 2 ^ k - 1 ≤ l.length)
    (rest : Bytes) :
    (l.length + 1 < 2 ^ 31 ∧ ∃ k', k ≤ k' ∧ k' ≤ 31 ∧
      readMore fuel (2 ^ k) (l.take (2 ^ k - 1)) (l.drop (2 ^ k - 1) ++ newline :: rest) =
        some (l ++ [newline], 2 ^ k', rest)) ∨
    (2 ^ 31 ≤ l.length + 1 ∧
      readMore fuel (2 ^ k) (l.take (2 ^ k - 1)) (l.drop (2 ^ k - 1) ++ newline :: rest) =
        none) := by
  induction fuel generalizing k with
  | zero => omega
  | succ fuel ih =>
    have htake : newline ∉ l.take (2 ^ k - 1) := fun h => hl (List.mem_of_mem_take h)
    have hdrop : newline ∉ l.drop (2 ^ k - 1) := fun h => hl (List.mem_of_mem_drop h)
    have hdropz : (0 : UInt8) ∉ l.drop (2 ^ k - 1) := fun h => hz (List.mem_of_mem_drop h)
    rw [readMore, if_neg (getLast?_ne htake)]
    by_cases h31 : k = 31
    · apply Or.inr
      rw [h31] at hlen ⊢
      refine ⟨by omega, ?_⟩
      have hneg : int32 ((2 ^ 31 : Nat) + 1) = -2147483647 := by decide
      unfold fgets
      rw [hneg, if_pos (by decide)]
      rfl
    · have hpow : 2 ^ k ≤ 2 ^ 30 := Nat.pow_le_pow_right (by decide) (by omega)
      have hpos : 2 ≤ 2 ^ k := Nat.pow_le_pow_right (by decide : 0 < 2) hk1
      have hint : int32 ((2 ^ k : Nat) + 1) = (2 ^ k : Nat) + 1 := int32_of_lt (by omega) (by omega)
      have hdouble : 2 * 2 ^ k = 2 ^ (k + 1) := (Nat.pow_succ').symm
      rw [hint]
      by_cases hfit : l.length + 2 ≤ 2 ^ (k + 1)
      · apply Or.inl
        have hle31 : 2 ^ (k + 1) ≤ 2 ^ 31 := Nat.pow_le_pow_right (by decide) (by omega)
        refine ⟨by omega, k + 1, by omega, by omega, ?_⟩
        rw [fgets_whole hdrop (by rw [List.length_drop]; omega)]
        change readMore fuel (2 * 2 ^ k) (l.take (2 ^ k - 1) ++
          cstr (l.drop (2 ^ k - 1) ++ [newline])) rest = _
        rw [cstr_line hdropz, ← List.append_assoc, List.take_append_drop, hdouble]
        have hfuel1 : fuel = fuel - 1 + 1 := by omega
        rw [hfuel1, readMore_done]
      · rw [fgets_part hdrop (by omega) (by rw [List.length_drop]; omega)]
        have hn : (((2 ^ k : Nat) : Int) + 1).toNat - 1 = 2 ^ k := by omega
        change (_ ∧ ∃ k', _ ∧ _ ∧ readMore fuel (2 * 2 ^ k) (l.take (2 ^ k - 1) ++
          cstr ((l.drop (2 ^ k - 1)).take ((((2 ^ k : Nat) : Int) + 1).toNat - 1)))
          ((l.drop (2 ^ k - 1)).drop ((((2 ^ k : Nat) : Int) + 1).toNat - 1) ++ newline :: rest) =
          _) ∨ (_ ∧ readMore fuel (2 * 2 ^ k) (l.take (2 ^ k - 1) ++
          cstr ((l.drop (2 ^ k - 1)).take ((((2 ^ k : Nat) : Int) + 1).toNat - 1)))
          ((l.drop (2 ^ k - 1)).drop ((((2 ^ k : Nat) : Int) + 1).toNat - 1) ++ newline :: rest) =
          _)
        have hsum : 2 ^ k - 1 + 2 ^ k = 2 ^ (k + 1) - 1 := by omega
        rw [hn, cstr_of_nonzero (fun h => hdropz (List.mem_of_mem_take h)), ← List.take_add,
          List.drop_drop, hsum, hdouble]
        cases ih (k := k + 1) (by omega) (by omega) (by omega) (by omega) with
        | inl h =>
          have ⟨hlt, k', hkk, hk31, heq⟩ := h
          exact Or.inl ⟨hlt, k', by omega, hk31, heq⟩
        | inr h => exact Or.inr h

/-! ## 3. Lines of data -/

/-- A line of data with the spaces in front of it. -/
def token (p : Bool) (j : Nat) (w : Bytes) : Bytes :=
  List.replicate (j + 1) space ++ (encode p w ++ [newline])

theorem readline_same (p : Bool) (len j : Nat) (w rest : Bytes) :
    readline p len (token p (j + 1) w ++ rest) = .item none len (token p j w ++ rest) := rfl

theorem readline_eof (p : Bool) {len : Nat} (hlo : 9 < len) (hhi : len < 2 ^ 31) :
    readline p len dataEnd = .eof := by
  have hint : int32 len = len := int32_of_lt (by omega) (by omega)
  have hlen : (ascii "ATA=END").length = 7 := by decide
  have hdata : dataEnd = 68 :: (ascii "ATA=END" ++ newline :: []) := by decide
  rw [hdata, readline, if_pos (by decide), hint, fgets_whole (by decide) (by omega)]
  rfl

theorem encode_ne_nil (p : Bool) (c : UInt8) (v : Bytes) :
    ∃ b l, encode p (c :: v) = b :: l := by
  rw [encode_cons]
  have hlen := (dumpByte_length p c).1
  cases hb : dumpByte p c with
  | nil =>
    rw [hb] at hlen
    exact absurd hlen (by decide)
  | cons b l => exact ⟨b, l ++ encode p v, rfl⟩

-- the empty value is a line of its own
theorem readline_empty (p : Bool) (len : Nat) (rest : Bytes) :
    readline p len (token p 0 [] ++ rest) = .item (some []) len rest := by
  cases p with
  | false => rfl
  | true => rfl

theorem readline_token {p : Bool} {w : Bytes} (hw : ¬Spaced p w) (len : Nat) {b : UInt8} {l : Bytes}
    (henc : encode p w = b :: l) (rest : Bytes) :
    readline p len (token p 0 w ++ rest) =
      decoded p ((fgets (int32 (len - 1)) (l ++ newline :: rest)).bind fun x =>
        readMore 64 len (cstr (b :: x.1)) x.2) := by
  have hhead := encode_head hw
  have hnl := newline_not_mem_encode p w
  rw [henc] at hhead hnl
  have hb : b ≠ space := fun h => hhead (congrArg some h)
  have hbn : b ≠ newline := fun h => hnl (h ▸ List.mem_cons_self)
  have htoken : token p 0 w ++ rest = space :: b :: (l ++ newline :: rest) := by
    unfold token
    rw [henc]
    simp
  rw [htoken, readline, if_neg (fun h => h rfl), readValue, if_neg hb, readRest, if_neg hbn]

theorem decoded_line (p : Bool) (w : Bytes) (len : Nat) (rest : Bytes) :
    decoded p (some (encode p w ++ [newline], len, rest)) = .item (some w) len rest := by
  rw [decoded, List.dropLast_concat, decode_encode]

theorem not_mem_cons_take {x b : UInt8} {l : Bytes} (h : x ∉ b :: l) (k : Nat) :
    x ∉ b :: l.take k := by
  intro hx
  cases List.mem_cons.mp hx with
  | inl hb => exact h (hb ▸ List.mem_cons_self)
  | inr hl => exact h (List.mem_cons_of_mem b (List.mem_of_mem_take hl))

-- whatever the buffer is, a value that comes out is the one that was written
theorem readline_value {p : Bool} {w : Bytes} (hw : ¬Spaced p w) {len len' : Nat}
    {rest s : Bytes} {v : Option Bytes}
    (h : readline p len (token p 0 w ++ rest) = .item v len' s) : v = some w ∧ s = rest := by
  cases w with
  | nil =>
    rw [readline_empty] at h
    injection h with hv _ hs
    exact ⟨hv.symm, hs.symm⟩
  | cons c w =>
    have ⟨b, l, henc⟩ := encode_ne_nil p c w
    have hnl := newline_not_mem_encode p (c :: w)
    have hz := zero_not_mem_encode p (c :: w)
    rw [readline_token hw len henc] at h
    rw [henc] at hnl hz
    have hl : newline ∉ l := fun h => hnl (List.mem_cons_of_mem b h)
    have hlz : (0 : UInt8) ∉ l := fun h => hz (List.mem_cons_of_mem b h)
    cases hg : fgets (int32 (len - 1)) (l ++ newline :: rest) with
    | none =>
      rw [hg] at h
      exact nomatch h
    | some x =>
      have ⟨piece, s'⟩ := x
      rw [hg, Option.bind_some] at h
      cases hm : readMore 64 len (cstr (b :: piece)) s' with
      | none =>
        rw [hm] at h
        exact nomatch h
      | some y =>
        have ⟨text, len1, s1⟩ := y
        have htext : text = encode p (c :: w) ++ [newline] ∧ s1 = rest := by
          rw [henc]
          cases fgets_line hl hg with
          | inl hp =>
            rw [hp.1, hp.2, ← List.cons_append, cstr_line hz, readMore_done] at hm
            have hpair := Option.some.inj hm
            exact ⟨(congrArg Prod.fst hpair).symm, (congrArg (·.2.2) hpair).symm⟩
          | inr hp =>
            have ⟨k, hpiece, hs⟩ := hp
            rw [hpiece, hs, cstr_of_nonzero (not_mem_cons_take hz k)] at hm
            have ⟨ht, hrest⟩ := readMore_line (not_mem_cons_take hnl k)
              (fun h => hl (List.mem_of_mem_drop h)) (fun h => hlz (List.mem_of_mem_drop h)) hm
            refine ⟨?_, hrest⟩
            rw [ht, List.cons_append, List.take_append_drop]
        rw [hm, htext.1, htext.2, decoded_line] at h
        injection h with hv _ hs
        exact ⟨hv.symm, hs.symm⟩

theorem readline_fits {p : Bool} {w : Bytes} (hw : ¬Spaced p w) {len : Nat}
    (hlen : (encode p w).length + 2 ≤ len) (hint : len ≤ 2 ^ 31) (rest : Bytes) :
    readline p len (token p 0 w ++ rest) = .item (some w) len rest := by
  cases w with
  | nil => exact readline_empty p len rest
  | cons c w =>
    have ⟨b, l, henc⟩ := encode_ne_nil p c w
    have hnl := newline_not_mem_encode p (c :: w)
    have hz := zero_not_mem_encode p (c :: w)
    rw [readline_token hw len henc]
    rw [henc] at hnl hz hlen
    rw [List.length_cons] at hlen
    have hl : newline ∉ l := fun h => hnl (List.mem_cons_of_mem b h)
    have hn : int32 ((len : Int) - 1) = (len : Int) - 1 := int32_of_lt (by omega) (by omega)
    rw [hn, fgets_whole hl (by omega), Option.bind_some]
    change decoded p (readMore 64 len (cstr (b :: l ++ [newline])) rest) = _
    rw [cstr_line hz, readMore_done, ← henc, decoded_line]

/-- The size of a buffer that started at a power of two and was doubled. -/
def Doubled (len : Nat) : Prop := ∃ k, 12 ≤ k ∧ k ≤ 31 ∧ len = 2 ^ k

theorem readline_grows {p : Bool} {w : Bytes} (hw : ¬Spaced p w) {len : Nat} (hlen : Doubled len)
    (rest : Bytes) :
    ((encode p w).length + 1 < 2 ^ 31 ∧ ∃ len', Doubled len' ∧
      readline p len (token p 0 w ++ rest) = .item (some w) len' rest) ∨
    (2 ^ 31 ≤ (encode p w).length + 1 ∧ readline p len (token p 0 w ++ rest) = .eof) := by
  have ⟨k, hk12, hk31, hk⟩ := hlen
  have hle31 : 2 ^ k ≤ 2 ^ 31 := Nat.pow_le_pow_right (by decide) hk31
  have hge12 : 2 ^ 12 ≤ 2 ^ k := Nat.pow_le_pow_right (by decide) hk12
  by_cases hfit : (encode p w).length + 2 ≤ len
  · exact Or.inl ⟨by omega, len, hlen, readline_fits hw hfit (by omega) rest⟩
  · cases w with
    | nil =>
      change ¬0 + 2 ≤ len at hfit
      omega
    | cons c w =>
      have ⟨b, l, henc⟩ := encode_ne_nil p c w
      have hnl := newline_not_mem_encode p (c :: w)
      have hz := zero_not_mem_encode p (c :: w)
      have hdec := decoded_line p (c :: w)
      rw [readline_token hw len henc]
      rw [henc] at hnl hz hfit hdec ⊢
      rw [List.length_cons] at hfit
      have hl : newline ∉ l := fun h => hnl (List.mem_cons_of_mem b h)
      have hn : int32 ((len : Int) - 1) = (len : Int) - 1 := int32_of_lt (by omega) (by omega)
      have hcount : ((len : Int) - 1).toNat - 1 = len - 2 := by omega
      have hsucc : 2 ^ k - 1 = len - 2 + 1 := by omega
      have htake : b :: l.take (len - 2) = (b :: l).take (2 ^ k - 1) := by
        rw [hsucc, List.take_succ_cons]
      have hdrop : l.drop (len - 2) = (b :: l).drop (2 ^ k - 1) := by
        rw [hsucc, List.drop_succ_cons]
      have hlong : 2 ^ k - 1 ≤ (b :: l).length := by
        rw [List.length_cons]
        omega
      rw [hn, fgets_part hl (by omega) (by omega), hcount, hdrop, Option.bind_some, htake,
        cstr_of_nonzero (fun h => hz (List.mem_of_mem_take h)), hk]
      cases readMore_grow (k := k) (by omega) hk31 (show 33 ≤ k + 64 by omega) hnl hz hlong rest with
      | inl h =>
        have ⟨hlt, k', hkk, hk31', heq⟩ := h
        refine Or.inl ⟨hlt, 2 ^ k', ⟨k', by omega, hk31', rfl⟩, ?_⟩
        rw [heq, hdec]
      | inr h =>
        refine Or.inr ⟨h.1, ?_⟩
        rw [h.2]
        rfl

end Mdbx.Dump
