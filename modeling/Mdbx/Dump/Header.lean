import Mdbx.Dump.Value

/-!
# Dump.Header — the header line by line

Every item of a header is a line of its own, so that reading it is the composition of the handlers
of its items.  Only the line of the name can be cut or broken by what it holds.
-/

namespace Mdbx.Dump

open Text

/-! ## 1. Items -/

/-- Two texts differ in a place that both have. -/
def clash : Bytes → Bytes → Bool
  | a :: s, b :: t => a ≠ b || clash s t
  | _, _ => false

theorem clash_not_start {s t : Bytes} (h : clash s t = true) (x : Bytes) :
    ¬s.isPrefixOf (t ++ x) = true := by
  induction s generalizing t with
  | nil => exact nomatch h
  | cons a s ih =>
    cases t with
    | nil => exact nomatch h
    | cons b t =>
      intro hp
      rw [List.cons_append, List.isPrefixOf_cons_cons] at hp
      have ⟨hab, hst⟩ := Bool.and_eq_true_iff.mp hp
      cases Bool.or_eq_true_iff.mp h with
      | inl hne => exact of_decide_eq_true hne (eq_of_beq hab)
      | inr hrec => exact ih hrec hst

theorem valstr_clash {item line : Bytes} (h : clash item line = true) (x : Bytes) :
    valstr (line ++ x) item = .absent := by
  rw [valstr, if_neg (clash_not_start h x)]

theorem valstr_item (item s : Bytes) :
    valstr (item ++ equals :: s) item = .str (s.takeWhile (· ≠ newline)) := by
  rw [valstr, if_pos (List.isPrefixOf_iff_prefix.mpr (List.prefix_append _ _)), List.drop_left]
  rfl

/-- The first item that a line could be. -/
def firstItem (its : List (Bytes × Handler)) (item : Bytes) : Option (Bytes × Handler) :=
  its.find? fun x => !clash x.1 (item ++ [equals])

theorem readItem_first {its : List (Bytes × Handler)} {item : Bytes} {f : Handler}
    (hfind : firstItem its item = some (item, f)) (s : Bytes) (h : Header) :
    readItem its (item ++ equals :: s) h = f (s.takeWhile (· ≠ newline)) h := by
  induction its with
  | nil => exact nomatch hfind
  | cons x its ih =>
    have ⟨other, g⟩ := x
    have hsplit : item ++ equals :: s = (item ++ [equals]) ++ s := by
      rw [List.append_assoc]
      rfl
    by_cases hx : clash other (item ++ [equals]) = true
    · have hnext : firstItem its item = some (item, f) := by
        rw [← hfind]
        unfold firstItem
        rw [List.find?_cons_of_neg (by rw [hx]; decide)]
      rw [readItem, hsplit, valstr_clash hx, ← hsplit]
      exact ih hnext
    · have hhead : some (other, g) = some (item, f) := by
        rw [← hfind]
        unfold firstItem
        rw [List.find?_cons_of_pos (by rw [Bool.eq_false_of_not_eq_true hx]; rfl)]
      have ⟨hother, hg⟩ := Prod.mk.inj (Option.some.inj hhead)
      rw [hother, hg, readItem, valstr_item]

/-- A text that a line can hold. -/
def Plain (s : Bytes) : Prop := newline ∉ s ∧ (0 : UInt8) ∉ s

instance (s : Bytes) : Decidable (Plain s) := inferInstanceAs (Decidable (_ ∧ _))

theorem Plain.append {s t : Bytes} (hs : Plain s) (ht : Plain t) : Plain (s ++ t) :=
  ⟨fun h => (List.mem_append.mp h).elim hs.1 ht.1, fun h => (List.mem_append.mp h).elim hs.2 ht.2⟩

theorem takeWhile_line {s : Bytes} (hs : newline ∉ s) :
    (s ++ [newline]).takeWhile (· ≠ newline) = s := by
  have hall : ∀ c ∈ s, decide (c ≠ newline) = true :=
    fun c hc => decide_eq_true fun h : c = newline => hs (h ▸ hc)
  rw [List.takeWhile_append_of_pos hall]
  exact List.append_nil s

theorem plain_showNat (n : Nat) : Plain (showNat n) := by
  have hall : ∀ c : UInt8, 48 ≤ c.toNat ∧ c.toNat ≤ 57 → c ≠ newline ∧ c ≠ 0 := by
    intro c hc
    refine ⟨fun h => ?_, fun h => ?_⟩
    · rw [h] at hc
      exact absurd hc (by decide)
    · rw [h] at hc
      exact absurd hc (by decide)
  exact ⟨fun h => (hall _ (showNat_digits n _ h)).1 rfl,
    fun h => (hall _ (showNat_digits n _ h)).2 rfl⟩

theorem plain_printf {lits : List Bytes} (hlits : ∀ lit ∈ lits, Plain lit) (ns : List Nat) :
    Plain (printf lits ns) := by
  have hnil : Plain [] := ⟨List.not_mem_nil, List.not_mem_nil⟩
  induction lits generalizing ns with
  | nil => exact hnil
  | cons lit lits ih =>
    cases ns with
    | nil => exact hnil
    | cons n ns =>
      exact (hlits lit List.mem_cons_self).append ((plain_showNat n).append
        (ih (fun l hl => hlits l (List.mem_cons_of_mem lit hl)) ns))

theorem printf_length {lits : List Bytes} (hlits : ∀ lit ∈ lits, lit.length ≤ 2) (ns : List Nat)
    (hns : ∀ n ∈ ns, n < 2 ^ 64) : (printf lits ns).length ≤ 22 * lits.length := by
  induction lits generalizing ns with
  | nil => exact Nat.zero_le _
  | cons lit lits ih =>
    cases ns with
    | nil => exact Nat.zero_le _
    | cons n ns =>
      have hlit := hlits lit List.mem_cons_self
      have hnum := showNat_length (hns n List.mem_cons_self)
      have hrest := ih (fun l hl => hlits l (List.mem_cons_of_mem lit hl)) ns
        fun m hm => hns m (List.mem_cons_of_mem n hm)
      rw [printf, List.length_append, List.length_append, List.length_cons]
      omega

theorem valnum_showNat (n : UInt64) : valnum (showNat n.toNat) = some n := by
  rw [valnum, strtoull_showNat n.toNat_lt]
  change (if ([] : Bytes) = [] then some (UInt64.ofNat n.toNat) else none) = _
  rw [if_pos rfl, UInt64.ofNat_toNat]

theorem number_showNat (f : UInt64 → Header → Step) (n : UInt64) (h : Header) :
    number f (showNat n.toNat) h = f n h := by
  rw [number, valnum_showNat]

/-! ## 2. Lines -/

/-- Reading on from `s` under `h` is reading on from `s'` under `h'`. -/
def Reads (h : Header) (s : Bytes) (h' : Header) (s' : Bytes) : Prop :=
  ∀ fuel, s.length < fuel →
    ∃ fuel', s'.length < fuel' ∧ readLines dbufLen fuel h s = readLines dbufLen fuel' h' s'

theorem Reads.refl (h : Header) (s : Bytes) : Reads h s h s := fun fuel hfuel => ⟨fuel, hfuel, rfl⟩

theorem Reads.trans {h₁ h₂ h₃ : Header} {s₁ s₂ s₃ : Bytes} (h12 : Reads h₁ s₁ h₂ s₂)
    (h23 : Reads h₂ s₂ h₃ s₃) : Reads h₁ s₁ h₃ s₃ := by
  intro fuel hfuel
  have ⟨fuel₂, hfuel₂, heq₂⟩ := h12 fuel hfuel
  have ⟨fuel₃, hfuel₃, heq₃⟩ := h23 fuel₂ hfuel₂
  exact ⟨fuel₃, hfuel₃, heq₂.trans heq₃⟩

theorem int32_dbufLen : int32 dbufLen = 4096 := by decide

theorem readLines_succ {s line rest : Bytes} (hg : fgets 4096 s = some (line, rest)) (fuel : Nat)
    (h : Header) :
    readLines dbufLen (fuel + 1) h s = match readItem items (cstr line) h with
      | .next h' => readLines dbufLen fuel h' rest
      | .exit => none
      | .done h' => some (h', rest) := by
  rw [readLines, int32_dbufLen, hg]
  rfl

theorem Reads.step {h h' : Header} {s line rest : Bytes} (hg : fgets 4096 s = some (line, rest))
    (hlt : rest.length < s.length) (hstep : readItem items (cstr line) h = .next h') :
    Reads h s h' rest := by
  intro fuel hfuel
  cases fuel with
  | zero => exact absurd hfuel (Nat.not_lt_zero _)
  | succ fuel =>
    refine ⟨fuel, by omega, ?_⟩
    rw [readLines_succ hg, hstep]

/-- A line of an item that readhdr knows. -/
structure IsItem (item : Bytes) (f : Handler) : Prop where
  first : firstItem items item = some (item, f)
  plain : Plain item
  short : item.length ≤ 12

theorem fgets_headerLine {item value : Bytes} (hitem : Plain item) (hshort : item.length ≤ 12)
    (hvalue : Plain value) (hlen : value.length ≤ 100) (rest : Bytes) :
    fgets 4096 (headerLine item value ++ rest) = some (item ++ equals :: (value ++ [newline]), rest) ∧
      cstr (item ++ equals :: (value ++ [newline])) = item ++ equals :: (value ++ [newline]) := by
  have hequals : Plain [equals] := by decide
  have hplain := hitem.append (hequals.append hvalue)
  have hline : item ++ equals :: (value ++ [newline]) =
      (item ++ ([equals] ++ value)) ++ [newline] := by simp
  have hlong : (item ++ ([equals] ++ value)).length < 4095 := by
    rw [List.length_append, List.length_append, List.length_singleton]
    omega
  refine ⟨?_, ?_⟩
  · rw [headerLine, hline, List.append_assoc]
    exact fgets_whole hplain.1 (by omega) rest
  · rw [hline, cstr_line hplain.2]

theorem headerLine_length (item value : Bytes) : 0 < (headerLine item value).length := by
  rw [headerLine, List.length_append, List.length_cons]
  omega

theorem IsItem.reads {item value : Bytes} {f : Handler} (hi : IsItem item f) (hvalue : Plain value)
    (hlen : value.length ≤ 100) {h h' : Header} (hf : f value h = .next h') (rest : Bytes) :
    Reads h (headerLine item value ++ rest) h' rest := by
  have ⟨hg, hcstr⟩ := fgets_headerLine hi.plain hi.short hvalue hlen rest
  have hpos := headerLine_length item value
  apply Reads.step hg
  · rw [List.length_append]
    omega
  · rw [hcstr, readItem_first hi.first, takeWhile_line hvalue.1, hf]

theorem IsItem.readsNum {item : Bytes} {f : UInt64 → Header → Step} (hi : IsItem item (number f))
    {n : UInt64} {h h' : Header} (hf : f n h = .next h') (rest : Bytes) :
    Reads h (headerNum item n.toNat ++ rest) h' rest := by
  have hlen := showNat_length n.toNat_lt
  apply hi.reads (plain_showNat _) (by omega)
  rw [number_showNat, hf]

/-! ## 3. The two parts of the header -/

theorem isVersion : IsItem (ascii "VERSION") onVersion := ⟨rfl, by decide, by decide⟩
theorem isPagesize : IsItem (ascii "db_pagesize") onPagesize := ⟨rfl, by decide, by decide⟩
theorem isFormat : IsItem (ascii "format") onFormat := ⟨rfl, by decide, by decide⟩
theorem isType : IsItem (ascii "type") onType := ⟨rfl, by decide, by decide⟩
theorem isMapsize : IsItem (ascii "mapsize") onMapsize := ⟨rfl, by decide, by decide⟩
theorem isSequence : IsItem (ascii "sequence") onSequence := ⟨rfl, by decide, by decide⟩
theorem isGeometry : IsItem (ascii "geometry") onGeometry := ⟨rfl, by decide, by decide⟩
theorem isCanary : IsItem (ascii "canary") onCanary := ⟨rfl, by decide, by decide⟩
theorem isDuplicates : IsItem (ascii "duplicates") (onFlag dbDupsort) :=
  ⟨rfl, by decide, by decide⟩

/-- What a header tells about the table and its text. -/
def Header.core (h : Header) : Option Bytes × UInt32 × UInt64 × Bool :=
  (h.subname, h.dbiFlags, h.sequence, h.plaintext)

theorem onPagesize_core (n : UInt64) (h : Header) :
    ∃ h', onPagesize (showNat n.toNat) h = .next h' ∧ h'.core = h.core := by
  rw [onPagesize, number_showNat]
  split_ifs with hglobal hrange
  · exact ⟨h, rfl, rfl⟩
  · exact ⟨h, rfl, rfl⟩
  · exact ⟨_, rfl, rfl⟩

theorem onMapsize_core (n : UInt64) (h : Header) :
    ∃ h', onMapsize (showNat n.toNat) h = .next h' ∧ h'.core = h.core := by
  rw [onMapsize, number_showNat]
  split_ifs with hglobal hrange
  · exact ⟨h, rfl, rfl⟩
  · exact ⟨h, rfl, rfl⟩
  · exact ⟨_, rfl, rfl⟩

theorem onGeometry_core (l u s g : UInt64) (h : Header) :
    ∃ h', onGeometry (printf geometryFormat [l.toNat, u.toNat, s.toNat, g.toNat]) h = .next h' ∧
      h'.core = h.core := by
  have hns : ∀ n ∈ [l.toNat, u.toNat, s.toNat, g.toNat], n < 2 ^ 64 := by
    simp [l.toNat_lt, u.toNat_lt, s.toNat_lt, g.toNat_lt]
  rw [onGeometry, sscanf_printf rfl (by decide) hns]
  split_ifs with hglobal
  · exact ⟨h, rfl, rfl⟩
  · exact ⟨_, rfl, rfl⟩

theorem onCanary_core (v x y z : UInt64) (h : Header) :
    ∃ h', onCanary (printf canaryFormat [v.toNat, x.toNat, y.toNat, z.toNat]) h = .next h' ∧
      h'.core = h.core := by
  have hns : ∀ n ∈ [v.toNat, x.toNat, y.toNat, z.toNat], n < 2 ^ 64 := by
    simp [v.toNat_lt, x.toNat_lt, y.toNat_lt, z.toNat_lt]
  rw [onCanary, sscanf_printf rfl (by decide) hns]
  split_ifs with hglobal
  · exact ⟨h, rfl, rfl⟩
  · exact ⟨_, rfl, rfl⟩

theorem printf4_fits (fmt : List Bytes) (hplain : ∀ lit ∈ fmt, Plain lit)
    (hlen : fmt.length = 4 ∧ ∀ lit ∈ fmt, lit.length ≤ 2) (a b c d : UInt64) :
    Plain (printf fmt [a.toNat, b.toNat, c.toNat, d.toNat]) ∧
      (printf fmt [a.toNat, b.toNat, c.toNat, d.toNat]).length ≤ 100 := by
  have hns : ∀ n ∈ [a.toNat, b.toNat, c.toNat, d.toNat], n < 2 ^ 64 := by
    simp [a.toNat_lt, b.toNat_lt, c.toNat_lt, d.toNat_lt]
  have hle := printf_length hlen.2 _ hns
  rw [hlen.1] at hle
  exact ⟨plain_printf hplain _, by omega⟩

/-- A step of the header that leaves what it tells about the table. -/
def Passes (s : Bytes) : Prop :=
  ∀ h rest, ∃ h', Reads h (s ++ rest) h' rest ∧ h'.core = h.core

theorem Passes.nil : Passes [] := fun h rest => ⟨h, Reads.refl h rest, rfl⟩

theorem Passes.append {s t : Bytes} (hs : Passes s) (ht : Passes t) : Passes (s ++ t) := by
  intro h rest
  have ⟨h₁, hreads₁, hcore₁⟩ := hs h (t ++ rest)
  have ⟨h₂, hreads₂, hcore₂⟩ := ht h₁ rest
  rw [List.append_assoc]
  exact ⟨h₂, hreads₁.trans hreads₂, hcore₂.trans hcore₁⟩

theorem IsItem.passes {item value : Bytes} {f : Handler} (hi : IsItem item f) (hvalue : Plain value)
    (hlen : value.length ≤ 100) (hf : ∀ h, ∃ h', f value h = .next h' ∧ h'.core = h.core) :
    Passes (headerLine item value) := by
  intro h rest
  have ⟨h', hnext, hcore⟩ := hf h
  exact ⟨h', hi.reads hvalue hlen hnext rest, hcore⟩

theorem dumpGlobal_passes (info : Info) : Passes (dumpGlobal info) := by
  have hgeometry : Passes (if info.upper ≠ info.lower then
      headerLine (ascii "geometry") (printf geometryFormat
        [info.lower.toNat, info.upper.toNat, info.shrink.toNat, info.grow.toNat]) else []) := by
    have ⟨hplain, hlen⟩ := printf4_fits geometryFormat (by decide) (by decide)
      info.lower info.upper info.shrink info.grow
    split_ifs
    · exact isGeometry.passes hplain hlen (onGeometry_core _ _ _ _)
    · exact Passes.nil
  have hcanary : Passes (if info.canaryV ≠ 0 then
      headerLine (ascii "canary") (printf canaryFormat
        [info.canaryV.toNat, info.canaryX.toNat, info.canaryY.toNat, info.canaryZ.toNat])
      else []) := by
    have ⟨hplain, hlen⟩ := printf4_fits canaryFormat (by decide) (by decide)
      info.canaryV info.canaryX info.canaryY info.canaryZ
    split_ifs
    · exact isCanary.passes hplain hlen (onCanary_core _ _ _ _)
    · exact Passes.nil
  have hmapsize : Passes (headerNum (ascii "mapsize") info.upper.toNat) := by
    have hlen := showNat_length info.upper.toNat_lt
    exact isMapsize.passes (plain_showNat _) (by omega) (onMapsize_core _)
  exact (hgeometry.append hmapsize).append hcanary

theorem dumpHead_reads (mode : Mode) (info : Info) (h : Header) (rest : Bytes) :
    ∃ h', Reads h (dumpHead mode info ++ rest) h' rest ∧
      h'.core = (h.subname, h.dbiFlags, h.sequence, mode.print) := by
  have hversion : Passes (headerNum (ascii "VERSION") 3) := by
    apply isVersion.passes (by decide) (by decide)
    exact fun h => ⟨h, rfl, rfl⟩
  have hglobal : Passes (if mode.global then dumpGlobal info else []) := by
    split_ifs
    · exact dumpGlobal_passes info
    · exact Passes.nil
  have ⟨h', hreads, hcore⟩ := (hversion.append hglobal) h
    (headerLine (ascii "format") (if mode.print then ascii "print" else ascii "bytevalue") ++ rest)
  have hformat : Reads h' (headerLine (ascii "format")
      (if mode.print then ascii "print" else ascii "bytevalue") ++ rest)
      { h' with plaintext := mode.print } rest := by
    cases mode.print with
    | true => exact isFormat.reads (by decide) (by decide) rfl rest
    | false => exact isFormat.reads (by decide) (by decide) rfl rest
  rw [dumpHead, List.append_assoc]
  refine ⟨_, hreads.trans hformat, ?_⟩
  exact congrArg (fun c => (c.1, c.2.1, c.2.2.1, mode.print)) hcore

/-- The bits that the lines of the flags set. -/
def withFlags (flags : UInt32) (names : List (UInt32 × Bytes)) (start : UInt32) : UInt32 :=
  names.foldl (fun acc x => if flags &&& x.1 ≠ 0 then acc ||| x.1 else acc) start

theorem flagLines_reads (flags : UInt32) {names : List (UInt32 × Bytes)}
    (hnames : ∀ x ∈ names, IsItem x.2 (onFlag x.1)) (h : Header) (rest : Bytes) :
    Reads h (names.flatMap (fun (bit, name) =>
        if flags &&& bit ≠ 0 then headerNum name 1 else []) ++ rest)
      { h with dbiFlags := withFlags flags names h.dbiFlags } rest := by
  induction names generalizing h with
  | nil => exact Reads.refl h rest
  | cons x names ih =>
    have ⟨bit, name⟩ := x
    have hrest := fun h => ih (fun y hy => hnames y (List.mem_cons_of_mem _ hy)) h
    have hitem : IsItem name (onFlag bit) := hnames (bit, name) List.mem_cons_self
    rw [List.flatMap_cons, List.append_assoc]
    have hfold : withFlags flags ((bit, name) :: names) h.dbiFlags = withFlags flags names
      (if flags &&& bit ≠ 0 then h.dbiFlags ||| bit else h.dbiFlags) := rfl
    rw [hfold]
    change Reads h ((if flags &&& bit ≠ 0 then headerNum name 1 else []) ++ _) _ rest
    split_ifs with hbit
    · have hset : onFlag bit (showNat 1) h = .next { h with dbiFlags := h.dbiFlags ||| bit } := rfl
      have hline := hitem.reads (by decide) (by decide) hset
      exact (hline _).trans (hrest { h with dbiFlags := h.dbiFlags ||| bit })
    · exact hrest h

theorem dumpFlagNames_items : ∀ x ∈ dumpFlagNames, IsItem x.2 (onFlag x.1) := by
  intro x hx
  simp only [dumpFlagNames, List.mem_cons, List.not_mem_nil, or_false] at hx
  cases hx with
  | inl h => exact h ▸ ⟨rfl, by decide, by decide⟩
  | inr hx => cases hx with
    | inl h => exact h ▸ ⟨rfl, by decide, by decide⟩
    | inr hx => cases hx with
      | inl h => exact h ▸ ⟨rfl, by decide, by decide⟩
      | inr hx => cases hx with
        | inl h => exact h ▸ ⟨rfl, by decide, by decide⟩
        | inr hx => cases hx with
          | inl h => exact h ▸ ⟨rfl, by decide, by decide⟩
          | inr h => exact h ▸ ⟨rfl, by decide, by decide⟩

/-- What the lines of the flags make of no flags. -/
def reloadedFlags (flags : UInt32) : UInt32 :=
  withFlags flags dumpFlagNames (if anyDup flags then dbDupsort else 0)

theorem and_not_or_and (x m : UInt32) : (x &&& ~~~m) ||| (x &&& m) = x := by
  apply UInt32.toBitVec_inj.mp
  simp only [UInt32.toBitVec_or, UInt32.toBitVec_and, UInt32.toBitVec_not]
  ext i hi
  simp only [BitVec.getElem_or, BitVec.getElem_and, BitVec.getElem_not]
  cases x.toBitVec[i] <;> cases m.toBitVec[i] <;> rfl

theorem reloadedFlags_checked {flags : UInt32} (h : checkTableFlags flags = true) :
    reloadedFlags flags = flags := by
  have hall : ∀ n < 128, checkTableFlags (UInt32.ofNat n) = true →
      reloadedFlags (UInt32.ofNat n) = UInt32.ofNat n := by decide +kernel
  have hmask : [dbDupsort, dbDupsort ||| dbReversedup, dbDupsort ||| dbDupfixed,
      dbDupsort ||| dbDupfixed ||| dbReversedup, dbDupsort ||| dbDupfixed ||| dbIntegerdup,
      dbDupsort ||| dbDupfixed ||| dbIntegerdup ||| dbReversedup, 0].all (· < 128) = true := by
    decide
  have hmem := List.contains_iff_mem.mp (Bool.and_eq_true_iff.mp h).1
  have hlt := of_decide_eq_true (List.all_eq_true.mp hmask _ hmem)
  have hflags : flags.toNat < 128 := by
    have hlow : (flags &&& (dbReversekey ||| dbIntegerkey)).toNat < 2 ^ 7 := by
      rw [UInt32.toNat_and]
      exact Nat.lt_of_le_of_lt Nat.and_le_right (by decide)
    rw [← and_not_or_and flags (dbReversekey ||| dbIntegerkey), UInt32.toNat_or]
    exact Nat.or_lt_two_pow hlt hlow
  have hres := hall flags.toNat hflags
  rw [UInt32.ofNat_toNat] at hres
  exact hres h

theorem dumpFlags_reads {flags : UInt32} (hflags : checkTableFlags flags = true) (h : Header)
    (rest : Bytes) :
    ∃ f, Reads h (dumpFlags flags ++ rest) { h with dbiFlags := f } rest ∧
      (h.dbiFlags = 0 → f = flags) := by
  have hdup : ∃ f, (∀ s, Reads h (headerNum (ascii "duplicates") (if anyDup flags then 1 else 0) ++ s)
      { h with dbiFlags := f } s) ∧
      (h.dbiFlags = 0 → f = if anyDup flags then dbDupsort else 0) := by
    split_ifs with hany
    · refine ⟨h.dbiFlags ||| dbDupsort, ?_, fun hzero => by rw [hzero]; rfl⟩
      exact isDuplicates.reads (by decide) (by decide) rfl
    · refine ⟨h.dbiFlags &&& ~~~dbDupsort, ?_, fun hzero => by rw [hzero]; rfl⟩
      exact isDuplicates.reads (by decide) (by decide) rfl
  have ⟨f, hreads, hf⟩ := hdup
  have hnames := flagLines_reads flags dumpFlagNames_items { h with dbiFlags := f } rest
  refine ⟨withFlags flags dumpFlagNames f, ?_, fun hzero => ?_⟩
  · rw [dumpFlags, List.append_assoc]
    exact (hreads _).trans hnames
  · rw [hf hzero]
    exact reloadedFlags_checked hflags

theorem headerEnd_done (h : Header) (rest : Bytes) {fuel : Nat} (hfuel : 0 < fuel) :
    readLines dbufLen fuel h (headerLine (ascii "HEADER") (ascii "END") ++ rest) =
      some (h, rest) := by
  have hitem : Plain (ascii "HEADER") := by decide
  have hvalue : Plain (ascii "END") := by decide
  have ⟨hg, hcstr⟩ := fgets_headerLine hitem (by decide) hvalue (by decide) rest
  have hfirst : firstItem items (ascii "HEADER") = some (ascii "HEADER", onHeader) := rfl
  have hfuel1 : fuel = fuel - 1 + 1 := by omega
  rw [hfuel1, readLines_succ hg, hcstr, readItem_first hfirst, takeWhile_line (by decide)]
  rfl

-- the lines behind the name end the header and leave the name
theorem dumpTail_reads (info : Info) {flags : UInt32} (hflags : checkTableFlags flags = true)
    (sequence : UInt64) (h : Header) (rest : Bytes) :
    ∃ h', (∀ fuel, (dumpTail info flags sequence ++ rest).length < fuel →
        readLines dbufLen fuel h (dumpTail info flags sequence ++ rest) = some (h', rest)) ∧
      h'.subname = h.subname ∧
      (h.dbiFlags = 0 → h.sequence = 0 → h'.core = (h.subname, flags, sequence, h.plaintext)) := by
  have htype : Passes (headerLine (ascii "type") (ascii "btree")) :=
    isType.passes (by decide) (by decide) fun h => ⟨h, rfl, rfl⟩
  have hpsize : Passes (headerNum (ascii "db_pagesize") info.psize.toNat) := by
    have hlt : info.psize.toNat < 2 ^ 64 := by
      have h32 := info.psize.toNat_lt
      omega
    have hlen := showNat_length hlt
    have hnum : info.psize.toNat = (info.psize.toUInt64).toNat := rfl
    rw [hnum]
    apply isPagesize.passes (plain_showNat _) _ (onPagesize_core _)
    rw [← hnum]
    omega
  have ⟨h₁, hreads₁, hcore₁⟩ := (htype.append hpsize) h (dumpFlags flags ++
    ((if sequence ≠ 0 then headerNum (ascii "sequence") sequence.toNat else []) ++
      (headerLine (ascii "HEADER") (ascii "END") ++ rest)))
  have ⟨f, hreads₂, hf⟩ := dumpFlags_reads hflags h₁
    ((if sequence ≠ 0 then headerNum (ascii "sequence") sequence.toNat else []) ++
      (headerLine (ascii "HEADER") (ascii "END") ++ rest))
  have hseq : ∃ q, Reads { h₁ with dbiFlags := f }
      ((if sequence ≠ 0 then headerNum (ascii "sequence") sequence.toNat else []) ++
        (headerLine (ascii "HEADER") (ascii "END") ++ rest))
      { h₁ with dbiFlags := f, sequence := q } (headerLine (ascii "HEADER") (ascii "END") ++ rest) ∧
      (h₁.sequence = 0 → q = sequence) := by
    split_ifs with hne
    · refine ⟨sequence, ?_, fun _ => rfl⟩
      exact isSequence.readsNum rfl _
    · refine ⟨h₁.sequence, Reads.refl _ _, fun hzero => ?_⟩
      rw [hzero]
      exact (not_not.mp hne).symm
  have ⟨q, hreads₃, hq⟩ := hseq
  have hall := (hreads₁.trans hreads₂).trans hreads₃
  have htext : dumpTail info flags sequence ++ rest =
      (headerLine (ascii "type") (ascii "btree") ++
        headerNum (ascii "db_pagesize") info.psize.toNat) ++ (dumpFlags flags ++
      ((if sequence ≠ 0 then headerNum (ascii "sequence") sequence.toNat else []) ++
        (headerLine (ascii "HEADER") (ascii "END") ++ rest))) := by
    rw [dumpTail]
    simp only [List.append_assoc]
  refine ⟨{ h₁ with dbiFlags := f, sequence := q }, ?_, congrArg (·.1) hcore₁, ?_⟩
  · intro fuel hfuel
    rw [htext] at hfuel ⊢
    have ⟨fuel', hfuel', heq⟩ := hall fuel hfuel
    rw [heq]
    exact headerEnd_done _ rest (Nat.lt_of_le_of_lt (Nat.zero_le _) hfuel')
  · intro hflags0 hseq0
    have hzero : h₁.dbiFlags = 0 := (congrArg (·.2.1) hcore₁).trans hflags0
    have hzeroq : h₁.sequence = 0 := (congrArg (·.2.2.1) hcore₁).trans hseq0
    rw [hf hzero, hq hzeroq]
    exact congrArg (fun c => (c.1, flags, sequence, c.2.2.2)) hcore₁

end Mdbx.Dump
