import Mathlib

/-!
# Lib.Text — byte streams and numbers as the C library reads and writes them

A stream is the list of its remaining bytes.  Numbers are printed in decimal and read back with
`strtoull` and `sscanf`; lines are read with `fgets`.
-/

namespace Mdbx.Text

abbrev Bytes := List UInt8

/-! ## 1. Definitions -/

def newline : UInt8 := 10

def digit (d : Nat) : UInt8 := UInt8.ofNat (48 + d)

/-- The conversion `%u` of `printf`. -/
def showNat (n : Nat) : Bytes :=
  if n = 0 then [digit 0] else (Nat.digits 10 n).reverse.map digit

/-- The value of a byte as a digit of some base. -/
def digitValue (c : UInt8) : Option Nat :=
  if 48 ≤ c.toNat ∧ c.toNat ≤ 57 then some (c.toNat - 48)
  else if 97 ≤ c.toNat ∧ c.toNat ≤ 122 then some (c.toNat - 87)
  else if 65 ≤ c.toNat ∧ c.toNat ≤ 90 then some (c.toNat - 55)
  else none

def isSpace (c : UInt8) : Bool := c = 32 || (9 ≤ c && c ≤ 13)

/-- The digits at the front of the string, added to `acc`. -/
def accumulate (base acc : Nat) : Bytes → Nat × Bytes
  | [] => (acc, [])
  | c :: s => match digitValue c with
    | some d => if d < base then accumulate base (acc * base + d) s else (acc, c :: s)
    | none => (acc, c :: s)

def startsDigit (base : Nat) : Bytes → Bool
  | [] => false
  | c :: _ => match digitValue c with
    | some d => decide (d < base)
    | none => false

/-- The sign and what stands behind it. -/
def sign : Bytes → Bool × Bytes
  | 45 :: s => (true, s)
  | 43 :: s => (false, s)
  | s => (false, s)

def ullongMax : Nat := 2 ^ 64 - 1

/-- Out of range values are `ULLONG_MAX`, negative ones wrap around. -/
def ranged (negative : Bool) (n : Nat) : Nat :=
  if ullongMax < n then ullongMax else if negative then (2 ^ 64 - n) % 2 ^ 64 else n

/-- A number in the base that its prefix tells, if there is one: `strtoull(s, &end, 0)` gives it
and the rest. -/
def strtoull (s : Bytes) : Option (Nat × Bytes) :=
  let (negative, t) := sign (s.dropWhile isSpace)
  match t with
  | 48 :: 120 :: r | 48 :: 88 :: r =>
    if startsDigit 16 r then some ((accumulate 16 0 r).map (ranged negative) id)
    else some (0, t.drop 1)
  | 48 :: _ => some ((accumulate 8 0 t).map (ranged negative) id)
  | _ =>
    if startsDigit 10 t then some ((accumulate 10 0 t).map (ranged negative) id) else none

/-- The conversion `%lu` of `sscanf`. -/
def scanNat (s : Bytes) : Option (Nat × Bytes) :=
  let (negative, t) := sign (s.dropWhile isSpace)
  if startsDigit 10 t then some ((accumulate 10 0 t).map (ranged negative) id) else none

/-- `sscanf` with a literal before each number: the numbers that were converted. -/
def sscanf : List Bytes → Bytes → List Nat
  | [], _ => []
  | lit :: lits, s =>
    if lit.isPrefixOf s then
      match scanNat (s.drop lit.length) with
      | some (n, rest) => n :: sscanf lits rest
      | none => []
    else []

/-- `printf` with a literal before each number. -/
def printf : List Bytes → List Nat → Bytes
  | lit :: lits, n :: ns => lit ++ (showNat n ++ printf lits ns)
  | _, _ => []

/-- What a C string function sees of a buffer. -/
def cstr (s : Bytes) : Bytes := s.takeWhile (· ≠ 0)

/-- At most `k` bytes, up to and with the first newline. -/
def takeLine (k : Nat) : Bytes → Bytes × Bytes
  | [] => ([], [])
  | c :: s =>
    if k = 0 then ([], c :: s)
    else if c = newline then ([c], s)
    else ((c :: (takeLine (k - 1) s).1), (takeLine (k - 1) s).2)

/-- `fgets` with a buffer of `n` bytes: the bytes it stores and the stream behind them. -/
def fgets (n : Int) (s : Bytes) : Option (Bytes × Bytes) :=
  if n ≤ 0 then none
  else if n ≠ 1 ∧ s = [] then none
  else some (takeLine (n.toNat - 1) s)

/-! ## 2. Numbers -/

theorem digitValue_digit {d : Nat} (h : d < 10) : digitValue (digit d) = some d := by
  have hd : ∀ k < 10, digitValue (digit k) = some k := by decide
  exact hd d h

theorem accumulate_digits (acc : Nat) (ds : List Nat) (hds : ∀ d ∈ ds, d < 10) (rest : Bytes) :
    accumulate 10 acc (ds.map digit ++ rest) =
      accumulate 10 (ds.foldl (fun a d => a * 10 + d) acc) rest := by
  induction ds generalizing acc with
  | nil => rfl
  | cons d ds ih =>
    have hd := hds d List.mem_cons_self
    rw [List.map_cons, List.cons_append, accumulate, digitValue_digit hd]
    change (if d < 10 then _ else _) = _
    rw [if_pos hd]
    exact ih _ fun k hk => hds k (List.mem_cons_of_mem d hk)

theorem foldl_digits (n : Nat) :
    (Nat.digits 10 n).reverse.foldl (fun a d => a * 10 + d) 0 = n := by
  rw [List.foldl_reverse]
  conv_rhs => rw [← Nat.ofDigits_digits 10 n]
  generalize Nat.digits 10 n = ds
  induction ds with
  | nil => rfl
  | cons d ds ih =>
    rw [List.foldr_cons, ih, Nat.ofDigits_cons]
    omega

/-- Nothing of the rest belongs to the number. -/
def Ends (rest : Bytes) : Prop := startsDigit 10 rest = false

instance (rest : Bytes) : Decidable (Ends rest) := inferInstanceAs (Decidable (_ = _))

theorem accumulate_ends (acc : Nat) {rest : Bytes} (h : Ends rest) :
    accumulate 10 acc rest = (acc, rest) := by
  unfold Ends at h
  cases rest with
  | nil => rfl
  | cons c s =>
    change (match digitValue c with | some d => decide (d < 10) | none => false) = false at h
    unfold accumulate
    cases hc : digitValue c with
    | none => rfl
    | some d =>
      rw [hc] at h
      change (if d < 10 then _ else _) = _
      rw [if_neg (of_decide_eq_false h)]

-- the first digit is zero only in the number zero
theorem showNat_head (n : Nat) :
    ∃ d ds, showNat n = (d :: ds).map digit ∧ (∀ k ∈ d :: ds, k < 10) ∧
      (d :: ds).foldl (fun a d => a * 10 + d) 0 = n ∧ (d = 0 → ds = []) := by
  unfold showNat
  split_ifs with h0
  · exact ⟨0, [], rfl, by decide, h0.symm, fun _ => rfl⟩
  · have hne : Nat.digits 10 n ≠ [] := Nat.digits_ne_nil_iff_ne_zero.mpr h0
    have hlast := Nat.getLast_digit_ne_zero 10 h0
    have hsplit := List.dropLast_append_getLast hne
    generalize hl : (Nat.digits 10 n).getLast hne = last at hlast hsplit
    have hrev : (Nat.digits 10 n).reverse = last :: (Nat.digits 10 n).dropLast.reverse := by
      rw [← hsplit, List.reverse_append]
      simp
    refine ⟨last, (Nat.digits 10 n).dropLast.reverse, by rw [hrev], ?_, ?_, fun h => ?_⟩
    · rw [← hrev]
      intro k hk
      exact Nat.digits_lt_base (by decide) (List.mem_reverse.mp hk)
    · rw [← hrev]
      exact foldl_digits n
    · exact absurd h hlast

theorem sign_digit {d : Nat} (h : d < 10) (s : Bytes) :
    sign ((digit d :: s).dropWhile isSpace) = (false, digit d :: s) := by
  have hall : ∀ k < 10, isSpace (digit k) = false ∧ digit k ≠ 45 ∧ digit k ≠ 43 := by decide
  have ⟨hspace, hminus, hplus⟩ := hall d h
  rw [List.dropWhile_cons_of_neg (by rw [hspace]; exact Bool.false_ne_true)]
  unfold sign
  split
  · rename_i heq
    exact absurd (List.cons.inj heq).1 hminus
  · rename_i heq
    exact absurd (List.cons.inj heq).1 hplus
  · rfl

theorem startsDigit_digit {d : Nat} (h : d < 10) (s : Bytes) :
    startsDigit 10 (digit d :: s) = true := by
  change (match digitValue (digit d) with | some k => decide (k < 10) | none => false) = true
  rw [digitValue_digit h]
  exact decide_eq_true h

theorem ranged_of_lt {n : Nat} (h : n < 2 ^ 64) : ranged false n = n := by
  unfold ranged ullongMax
  rw [if_neg (by omega), if_neg Bool.false_ne_true]

theorem scanNat_showNat {n : Nat} (hn : n < 2 ^ 64) {rest : Bytes} (hrest : Ends rest) :
    scanNat (showNat n ++ rest) = some (n, rest) := by
  have ⟨d, ds, hshow, hlt, hval, _⟩ := showNat_head n
  have hd := hlt d List.mem_cons_self
  have hacc := accumulate_digits 0 (d :: ds) hlt rest
  rw [hval, accumulate_ends n hrest] at hacc
  rw [hshow]
  change (if startsDigit 10 (sign ((digit d :: (ds.map digit ++ rest)).dropWhile isSpace)).2 then
    some ((accumulate 10 0 (sign ((digit d :: (ds.map digit ++ rest)).dropWhile isSpace)).2).map
      (ranged (sign ((digit d :: (ds.map digit ++ rest)).dropWhile isSpace)).1) id) else none) = _
  rw [sign_digit hd, startsDigit_digit hd, if_pos rfl]
  change some ((accumulate 10 0 ((d :: ds).map digit ++ rest)).map (ranged false) id) = _
  rw [hacc]
  change some (ranged false n, rest) = some (n, rest)
  rw [ranged_of_lt hn]

theorem digit_inj : ∀ d < 10, ∀ k < 10, digit d = digit k → d = k := by decide

theorem strtoull_showNat {n : Nat} (hn : n < 2 ^ 64) : strtoull (showNat n) = some (n, []) := by
  have ⟨d, ds, hshow, hlt, hval, hzero⟩ := showNat_head n
  have hd := hlt d List.mem_cons_self
  have hacc := accumulate_digits 0 (d :: ds) hlt []
  have hnil : Ends [] := rfl
  rw [hval, accumulate_ends n hnil, List.append_nil] at hacc
  rw [hshow]
  unfold strtoull
  rw [List.map_cons, sign_digit hd]
  by_cases h0 : d = 0
  · rw [h0] at hval ⊢
    rw [hzero h0] at hval ⊢
    rw [← hval]
    rfl
  · have hne : digit d ≠ 48 := fun h => h0 (digit_inj d hd 0 (by decide) h)
    dsimp only
    split
    · rename_i heq
      exact absurd (List.cons.inj heq).1 hne
    · rename_i heq
      exact absurd (List.cons.inj heq).1 hne
    · rename_i heq
      exact absurd (List.cons.inj heq).1 hne
    · rw [startsDigit_digit hd, if_pos rfl]
      change some ((accumulate 10 0 ((d :: ds).map digit)).map (ranged false) id) = _
      rw [hacc]
      change some (ranged false n, ([] : Bytes)) = some (n, [])
      rw [ranged_of_lt hn]

-- each literal keeps the number before it from running on
theorem sscanf_printf {lits : List Bytes} {ns : List Nat} (hlen : lits.length = ns.length)
    (hends : ∀ lit ∈ lits, lit ≠ [] ∧ Ends lit) (hns : ∀ n ∈ ns, n < 2 ^ 64) :
    sscanf lits (printf lits ns) = ns := by
  have hrest : ∀ (lits : List Bytes) (ns : List Nat), (∀ lit ∈ lits, lit ≠ [] ∧ Ends lit) →
      Ends (printf lits ns) := by
    intro lits ns hends
    cases lits with
    | nil => rfl
    | cons lit lits =>
      cases ns with
      | nil => rfl
      | cons n ns =>
        have ⟨hne, hlit⟩ := hends lit List.mem_cons_self
        cases lit with
        | nil => exact absurd rfl hne
        | cons c s => exact hlit
  induction lits generalizing ns with
  | nil => exact (List.length_eq_zero_iff.mp hlen.symm).symm
  | cons lit lits ih =>
    cases ns with
    | nil => exact absurd hlen (Nat.succ_ne_zero _)
    | cons n ns =>
      have htail : ∀ l ∈ lits, l ≠ [] ∧ Ends l := fun l hl => hends l (List.mem_cons_of_mem lit hl)
      have hpre : lit.isPrefixOf (lit ++ (showNat n ++ printf lits ns)) = true :=
        List.isPrefixOf_iff_prefix.mpr (List.prefix_append _ _)
      rw [printf, sscanf, if_pos hpre, List.drop_left,
        scanNat_showNat (hns n List.mem_cons_self) (hrest lits ns htail)]
      change n :: sscanf lits (printf lits ns) = n :: ns
      rw [ih (Nat.succ.inj hlen) htail fun m hm => hns m (List.mem_cons_of_mem n hm)]

theorem showNat_length {n : Nat} (hn : n < 2 ^ 64) : (showNat n).length ≤ 20 := by
  unfold showNat
  split_ifs
  · exact Nat.le_of_ble_eq_true rfl
  · rw [List.length_map, List.length_reverse]
    exact (Nat.digits_length_le_iff (by decide) n).mpr (by omega)

theorem showNat_digits (n : Nat) : ∀ c ∈ showNat n, 48 ≤ c.toNat ∧ c.toNat ≤ 57 := by
  have ⟨d, ds, hshow, hlt, _, _⟩ := showNat_head n
  have hall : ∀ k < 10, 48 ≤ (digit k).toNat ∧ (digit k).toNat ≤ 57 := by decide
  rw [hshow]
  intro c hc
  have ⟨k, hk, hkc⟩ := List.mem_map.mp hc
  rw [← hkc]
  exact hall k (hlt k hk)

/-! ## 3. Lines -/

theorem takeLine_whole {l : Bytes} (hl : newline ∉ l) {k : Nat} (hk : l.length < k) (rest : Bytes) :
    takeLine k (l ++ newline :: rest) = (l ++ [newline], rest) := by
  induction l generalizing k with
  | nil =>
    have h0 : k ≠ 0 := by
      rw [List.length_nil] at hk
      omega
    rw [List.nil_append, takeLine, if_neg h0, if_pos rfl]
    rfl
  | cons c l ih =>
    rw [List.length_cons] at hk
    have hne : c ≠ newline := fun h => hl (h ▸ List.mem_cons_self)
    have hrec := ih (fun h => hl (List.mem_cons_of_mem c h)) (k := k - 1) (by omega)
    rw [List.cons_append, takeLine, if_neg (by omega), if_neg hne, hrec]
    rfl

theorem takeLine_part {l : Bytes} (hl : newline ∉ l) {k : Nat} (hk : k ≤ l.length) (rest : Bytes) :
    takeLine k (l ++ rest) = (l.take k, l.drop k ++ rest) := by
  induction l generalizing k with
  | nil =>
    have h0 : k = 0 := Nat.le_zero.mp hk
    rw [h0, List.nil_append]
    cases rest with
    | nil => rfl
    | cons c s => rfl
  | cons c l ih =>
    have hne : c ≠ newline := fun h => hl (h ▸ List.mem_cons_self)
    by_cases h0 : k = 0
    · rw [h0]
      rfl
    · rw [List.length_cons] at hk
      have hrec := ih (fun h => hl (List.mem_cons_of_mem c h)) (k := k - 1) (by omega)
      rw [List.cons_append, takeLine, if_neg h0, if_neg hne, hrec]
      have hsucc : k = k - 1 + 1 := by omega
      conv_rhs => rw [hsucc]
      rfl

-- a read of a text that ends with a newline stops at a newline or takes all it may
theorem takeLine_cases (k : Nat) (r rest : Bytes) :
    ∃ l, newline ∉ l ∧
      ((takeLine k (r ++ newline :: rest) = (l ++ [newline], rest) ∧ r = l ∧ l.length < k) ∨
      (∃ r', takeLine k (r ++ newline :: rest) = (l ++ [newline], r' ++ newline :: rest) ∧
        r = l ++ newline :: r') ∨
      (∃ r', takeLine k (r ++ newline :: rest) = (l, r' ++ newline :: rest) ∧
        r = l ++ r' ∧ l.length = k)) := by
  induction r generalizing k with
  | nil =>
    by_cases h0 : k = 0
    · exact ⟨[], List.not_mem_nil, Or.inr (Or.inr ⟨[], by rw [h0]; rfl, rfl, h0.symm⟩)⟩
    · have hline := takeLine_whole (l := []) List.not_mem_nil (Nat.pos_of_ne_zero h0) rest
      exact ⟨[], List.not_mem_nil, Or.inl ⟨hline, rfl, Nat.pos_of_ne_zero h0⟩⟩
  | cons c r ih =>
    by_cases h0 : k = 0
    · exact ⟨[], List.not_mem_nil, Or.inr (Or.inr ⟨c :: r, by rw [h0]; rfl, rfl, h0.symm⟩)⟩
    · by_cases hc : c = newline
      · refine ⟨[], List.not_mem_nil, Or.inr (Or.inl ⟨r, ?_, by rw [hc]; rfl⟩)⟩
        rw [List.cons_append, takeLine, if_neg h0, if_pos hc, hc]
        rfl
      · have ⟨l, hl, hcases⟩ := ih (k - 1)
        have hcl : newline ∉ c :: l := fun h => (List.mem_cons.mp h).elim (hc ·.symm) hl
        refine ⟨c :: l, hcl, ?_⟩
        rw [List.cons_append, takeLine, if_neg h0, if_neg hc, List.length_cons]
        cases hcases with
        | inl h =>
          apply Or.inl
          rw [h.1, h.2.1]
          exact ⟨rfl, rfl, by omega⟩
        | inr h => cases h with
          | inl h =>
            have ⟨r', htake, hr⟩ := h
            apply Or.inr ∘ Or.inl
            rw [htake, hr]
            exact ⟨r', rfl, rfl⟩
          | inr h =>
            have ⟨r', htake, hr, hlen⟩ := h
            apply Or.inr ∘ Or.inr
            rw [htake, hr]
            exact ⟨r', rfl, rfl, by omega⟩

theorem cstr_of_nonzero {s : Bytes} (h : (0 : UInt8) ∉ s) : cstr s = s := by
  apply List.takeWhile_eq_self_iff.mpr
  intro c hc
  exact decide_eq_true fun h0 : c = 0 => h (h0 ▸ hc)

theorem fgets_whole {l : Bytes} (hl : newline ∉ l) {n : Int} (hn : (l.length : Int) + 1 < n)
    (rest : Bytes) : fgets n (l ++ newline :: rest) = some (l ++ [newline], rest) := by
  unfold fgets
  rw [if_neg (by omega), if_neg (fun h => List.append_ne_nil_of_right_ne_nil l
    (List.cons_ne_nil _ _) h.2), takeLine_whole hl (by omega)]

theorem fgets_part {l : Bytes} (hl : newline ∉ l) {n : Int} (hpos : 1 < n)
    (hn : n ≤ (l.length : Int) + 1) (rest : Bytes) :
    fgets n (l ++ rest) = some (l.take (n.toNat - 1), l.drop (n.toNat - 1) ++ rest) := by
  have hne : l ++ rest ≠ [] := by
    intro h
    have hlen := congrArg List.length (List.append_eq_nil_iff.mp h).1
    rw [List.length_nil] at hlen
    omega
  unfold fgets
  rw [if_neg (by omega), if_neg (fun h => hne h.2), takeLine_part hl (by omega)]

end Mdbx.Text
