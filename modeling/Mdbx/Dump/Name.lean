import Mdbx.Dump.Header

/-!
# Dump.Name — the line of the name

A name without a newline that fits the buffer of the header is read back.  Of any other name
`readhdr` takes a part only, whatever the rest of the name is taken for.
-/

namespace Mdbx.Dump

open Text

def database : Bytes := ascii "database="

/-- The name has a line of its own that fits the buffer. -/
def NameFits (name : Option Bytes) : Prop :=
  ∀ s ∈ name, s ≠ [] ∧ newline ∉ s ∧ s.length + 10 ≤ dbufLen

theorem database_first : firstItem items (ascii "database") = some (ascii "database", onDatabase) :=
  rfl

theorem readItem_database (s : Bytes) (h : Header) :
    readItem items (database ++ s) h = onDatabase (s.takeWhile (· ≠ newline)) h :=
  readItem_first database_first s h

theorem onDatabase_name {s : Bytes} (hs : s ≠ []) (h : Header) :
    onDatabase s h = .next { h with subname := some s } := by
  rw [onDatabase, if_neg hs]

theorem takeWhile_clean {s : Bytes} (hs : newline ∉ s) : s.takeWhile (· ≠ newline) = s := by
  apply List.takeWhile_eq_self_iff.mpr
  intro c hc
  exact decide_eq_true fun h : c = newline => hs (h ▸ hc)

theorem dumpName_text (s rest : Bytes) :
    dumpName (some s) ++ rest = (database ++ s) ++ newline :: rest := by
  have hdb : database = ascii "database" ++ [equals] := by decide
  rw [dumpName, headerLine, hdb]
  simp

theorem database_plain : Plain database := by decide

theorem database_length : database.length = 9 := by decide

-- a name that fits exactly leaves its newline for a line of its own
theorem dumpName_fits {s : Bytes} (hs : s ≠ []) (hplain : Plain s)
    (hlen : s.length + 10 ≤ dbufLen) (h : Header) (rest : Bytes) :
    Reads h (dumpName (some s) ++ rest) { h with subname := some s } rest := by
  have hline := database_plain.append hplain
  have hlength : (database ++ s).length = 9 + s.length := by
    rw [List.length_append, database_length]
  have hbuf : dbufLen = 4096 := rfl
  rw [dumpName_text]
  by_cases hwhole : s.length + 11 ≤ dbufLen
  · have hg := fgets_whole hline.1 (n := 4096) (by omega) rest
    apply Reads.step hg
    · rw [List.length_append, List.length_cons]
      omega
    · rw [cstr_line hline.2, List.append_assoc, readItem_database, takeWhile_line hplain.1,
        onDatabase_name hs]
  · have hpart := fgets_part hline.1 (n := 4096) (by decide) (by omega) (newline :: rest)
    have hcut : (4096 : Int).toNat - 1 = (database ++ s).length := by
      change 4095 = (database ++ s).length
      omega
    rw [hcut, List.take_length, List.drop_length, List.nil_append] at hpart
    have hname : Reads h ((database ++ s) ++ newline :: rest) { h with subname := some s }
        (newline :: rest) := by
      apply Reads.step hpart
      · rw [List.length_append]
        omega
      · rw [cstr_of_nonzero hline.2, readItem_database, takeWhile_clean hplain.1,
          onDatabase_name hs]
    have hblank : Reads { h with subname := some s } (newline :: rest)
        { h with subname := some s } rest := by
      apply Reads.step (fgets_whole (l := []) List.not_mem_nil (n := 4096) (by decide) rest)
      · exact Nat.lt_succ_self _
      · rfl
    exact hname.trans hblank

theorem dumpName_reads {name : Option Bytes} (hname : NameFits name)
    (hzero : ∀ s ∈ name, (0 : UInt8) ∉ s) {h : Header} (hnone : h.subname = none) (rest : Bytes) :
    Reads h (dumpName name ++ rest) { h with subname := name } rest := by
  cases name with
  | none =>
    have hsame : { h with subname := none } = h := by rw [← hnone]
    rw [hsame]
    exact Reads.refl h rest
  | some s =>
    have ⟨hne, hnl, hlen⟩ := hname s rfl
    exact dumpName_fits hne ⟨hnl, hzero s rfl⟩ hlen h rest

/-! ## 2. Names that do not fit -/

def Step.header : Step → Option Header
  | .next h => some h
  | .exit => none
  | .done h => some h

/-- The handler leaves the name alone. -/
def KeepsName (f : Handler) : Prop :=
  ∀ s h h', (f s h).header = some h' → h'.subname = h.subname

theorem keepsName_number {f : UInt64 → Header → Step}
    (hf : ∀ n h h', (f n h).header = some h' → h'.subname = h.subname) : KeepsName (number f) := by
  intro s h h' hstep
  rw [number] at hstep
  cases hn : valnum s with
  | none =>
    rw [hn] at hstep
    cases hstep
  | some n =>
    rw [hn] at hstep
    exact hf n h h' hstep

-- closes a branch that sets nothing but other fields
theorem subname_of_next {h₁ h h' : Header} (hstep : (Step.next h₁).header = some h')
    (heq : h₁.subname = h.subname) : h'.subname = h.subname := by
  rw [← Option.some.inj hstep, heq]

theorem items_keepName : ∀ x ∈ items, KeepsName x.2 ∨ x = (ascii "database", onDatabase) := by
  have hversion : KeepsName onVersion := keepsName_number fun n h h' hstep => by
    split_ifs at hstep
    · exact subname_of_next hstep rfl
    · exact nomatch hstep
  have hpagesize : KeepsName onPagesize := keepsName_number fun n h h' hstep => by
    split_ifs at hstep
    · exact subname_of_next hstep rfl
    · exact subname_of_next hstep rfl
    · exact subname_of_next hstep rfl
  have hformat : KeepsName onFormat := fun s h h' hstep => by
    rw [onFormat] at hstep
    split_ifs at hstep
    · exact subname_of_next hstep rfl
    · exact subname_of_next hstep rfl
    · exact nomatch hstep
  have htype : KeepsName onType := fun s h h' hstep => by
    rw [onType] at hstep
    split_ifs at hstep
    · exact subname_of_next hstep rfl
    · exact nomatch hstep
  have hignored : KeepsName onIgnored := keepsName_number fun n h h' hstep =>
    subname_of_next hstep rfl
  have hmapsize : KeepsName onMapsize := keepsName_number fun n h h' hstep => by
    split_ifs at hstep
    · exact subname_of_next hstep rfl
    · exact subname_of_next hstep rfl
    · exact subname_of_next hstep rfl
  have hmaxreaders : KeepsName onMaxreaders := keepsName_number fun n h h' hstep => by
    split_ifs at hstep
    · exact subname_of_next hstep rfl
    · exact subname_of_next hstep rfl
    · exact subname_of_next hstep rfl
  have hsequence : KeepsName onSequence := keepsName_number fun n h h' hstep =>
    subname_of_next hstep rfl
  have hgeometry : KeepsName onGeometry := fun s h h' hstep => by
    rw [onGeometry] at hstep
    split_ifs at hstep
    · exact subname_of_next hstep rfl
    · split at hstep
      · exact subname_of_next hstep rfl
      · split at hstep
        · exact subname_of_next hstep rfl
        · exact nomatch hstep
  have hcanary : KeepsName onCanary := fun s h h' hstep => by
    rw [onCanary] at hstep
    split_ifs at hstep
    · exact subname_of_next hstep rfl
    · split at hstep
      · exact subname_of_next hstep rfl
      · exact nomatch hstep
  have hflag : ∀ bit, KeepsName (onFlag bit) := fun bit => keepsName_number fun n h h' hstep => by
    split_ifs at hstep
    · exact nomatch hstep
    · exact subname_of_next hstep rfl
    · exact subname_of_next hstep rfl
  have hheader : KeepsName onHeader := fun s h h' hstep => by
    rw [onHeader] at hstep
    split_ifs at hstep
    · exact subname_of_next hstep rfl
    · exact subname_of_next hstep rfl
  simp only [items, List.forall_mem_cons, List.not_mem_nil, false_implies, implies_true, and_true]
  exact ⟨Or.inl hversion, Or.inl hpagesize, Or.inl hformat, Or.inr trivial, Or.inl htype,
    Or.inl hignored, Or.inl hmapsize, Or.inl hmaxreaders, Or.inl hignored, Or.inl hsequence,
    Or.inl hgeometry, Or.inl hcanary, Or.inl (hflag _), Or.inl (hflag _), Or.inl (hflag _),
    Or.inl (hflag _), Or.inl (hflag _), Or.inl (hflag _), Or.inl (hflag _), Or.inl hheader⟩

-- a line leaves the name or sets it to what stands behind `database=`
theorem readItem_name {its : List (Bytes × Handler)}
    (hits : ∀ x ∈ its, KeepsName x.2 ∨ x = (ascii "database", onDatabase)) {line : Bytes}
    {h h' : Header} (hstep : (readItem its line h).header = some h') :
    h'.subname = h.subname ∨
      ∃ s, valstr line (ascii "database") = .str s ∧ h'.subname = some s := by
  induction its with
  | nil => exact Or.inl (subname_of_next hstep rfl)
  | cons x its ih =>
    obtain ⟨item, f⟩ := x
    rw [readItem] at hstep
    cases hv : valstr line item with
    | absent =>
      rw [hv] at hstep
      exact ih (fun y hy => hits y (List.mem_cons_of_mem _ hy)) hstep
    | bad =>
      rw [hv] at hstep
      cases hstep
    | str s =>
      rw [hv] at hstep
      cases hits (item, f) List.mem_cons_self with
      | inl hkeep => exact Or.inl (hkeep s h h' hstep)
      | inr hdb =>
        obtain ⟨hitem, hf⟩ := Prod.mk.inj hdb
        rw [hf] at hstep
        change (if s = [] then Step.next h else .next { h with subname := some s }).header = _
          at hstep
        split_ifs at hstep
        · exact Or.inl (subname_of_next hstep rfl)
        · refine Or.inr ⟨s, hitem ▸ hv, ?_⟩
          rw [← Option.some.inj hstep]

theorem valstr_prefix {line s : Bytes} (h : valstr line (ascii "database") = .str s) :
    database ++ s <+: line ∧ newline ∉ s := by
  rw [valstr] at h
  split_ifs at h with hpre
  obtain ⟨rest, hline⟩ := List.isPrefixOf_iff_prefix.mp hpre
  rw [← hline, List.drop_left] at h
  cases rest with
  | nil => cases h
  | cons c t =>
    change (if c = equals then ValStr.str (t.takeWhile (· ≠ newline))
      else if 32 < c ∧ c < 128 then .absent else .bad) = _ at h
    split_ifs at h with hc
    injection h with h
    obtain ⟨u, hu⟩ := List.takeWhile_prefix (l := t) (fun c => decide (c ≠ newline))
    refine ⟨⟨u, ?_⟩, fun hmem => ?_⟩
    · rw [← hline, ← h, hc]
      have hdb : database = ascii "database" ++ [equals] := by decide
      rw [hdb, List.append_assoc, List.append_assoc, hu]
      rfl
    · rw [← h] at hmem
      have hp : decide (newline ≠ newline) = true :=
        List.mem_takeWhile_imp (p := fun c => decide (c ≠ newline)) hmem
      exact of_decide_eq_true hp rfl

-- the name that a line sets is shorter than the line
theorem valstr_length {l line s : Bytes} (hz : (0 : UInt8) ∉ l)
    (hline : line = l ∨ line = l ++ [newline])
    (h : valstr (cstr line) (ascii "database") = .str s) : s.length + 9 ≤ l.length := by
  have ⟨hpre, hs⟩ := valstr_prefix h
  have hlen : (database ++ s).length = s.length + 9 := by
    rw [List.length_append, database_length, Nat.add_comm]
  rw [← hlen]
  cases hline with
  | inl hline =>
    rw [hline, cstr_of_nonzero hz] at hpre
    exact hpre.length_le
  | inr hline =>
    rw [hline, cstr_line hz] at hpre
    cases List.prefix_concat_iff.mp hpre with
    | inl heq =>
      have hnl : newline ∉ database ++ s := fun h => (List.mem_append.mp h).elim
        database_plain.1 hs
      exact absurd (heq ▸ List.mem_append_right l List.mem_cons_self) hnl
    | inr hpre => exact hpre.length_le

/-- What is left of a name's line and cannot be taken for the whole name. -/
def Broken (n : Nat) (r : Bytes) : Prop :=
  r.length ≤ n + 9 ∧ (r.length < n + 9 ∨ newline ∈ r ∨ 4095 < r.length)

-- one piece after the other, every name set on the way is shorter than the name
theorem readLines_broken {name t : Bytes}
    (ht : ∀ fuel h h' s', t.length < fuel → h.subname ≠ some name →
      readLines dbufLen fuel h t = some (h', s') → h'.subname ≠ some name)
    {fuel : Nat} {r : Bytes} (hr : Broken name.length r) (hz : (0 : UInt8) ∉ r) {h h' : Header}
    {s' : Bytes} (hfuel : (r ++ newline :: t).length < fuel) (hname : h.subname ≠ some name)
    (hres : readLines dbufLen fuel h (r ++ newline :: t) = some (h', s')) :
    h'.subname ≠ some name := by
  induction fuel generalizing r h with
  | zero => exact absurd hfuel (Nat.not_lt_zero _)
  | succ fuel ih =>
    have ⟨hle, hbroken⟩ := hr
    have hne : r ++ newline :: t ≠ [] := List.append_ne_nil_of_right_ne_nil r (List.cons_ne_nil _ _)
    have hg : fgets 4096 (r ++ newline :: t) = some (takeLine 4095 (r ++ newline :: t)) := by
      rw [fgets, if_neg (by decide), if_neg (fun h => hne h.2)]
      rfl
    have ⟨l, hl, hcases⟩ := takeLine_cases 4095 r t
    rw [List.length_append, List.length_cons] at hfuel
    -- the piece itself names nothing as long as the name
    have hpiece : ∀ line h₁, (line = l ∨ line = l ++ [newline]) → (0 : UInt8) ∉ l →
        l.length < name.length + 9 → (readItem items (cstr line) h).header = some h₁ →
        h₁.subname ≠ some name := by
      intro line h₁ hline hzl hlen hstep
      cases readItem_name items_keepName hstep with
      | inl hsame => exact hsame ▸ hname
      | inr hset =>
        have ⟨v, hv, hsub⟩ := hset
        have hvlen := valstr_length hzl hline hv
        rw [hsub]
        intro heq
        rw [Option.some.inj heq] at hvlen
        omega
    -- and what follows is shorter
    have hgo : ∀ line rest, takeLine 4095 (r ++ newline :: t) = (line, rest) →
        (line = l ∨ line = l ++ [newline]) → (0 : UInt8) ∉ l → l.length < name.length + 9 →
        (∀ h₁, h₁.subname ≠ some name → readLines dbufLen fuel h₁ rest = some (h', s') →
          h'.subname ≠ some name) → h'.subname ≠ some name := by
      intro line rest htake hline hzl hlen hrest
      rw [htake] at hg
      rw [readLines_succ hg] at hres
      have hstep := hpiece line
      cases hi : readItem items (cstr line) h with
      | next h₁ =>
        rw [hi] at hres hstep
        exact hrest h₁ (hstep h₁ hline hzl hlen rfl) hres
      | exit =>
        rw [hi] at hres
        exact nomatch hres
      | done h₁ =>
        rw [hi] at hres hstep
        have heq : h₁ = h' := congrArg Prod.fst (Option.some.inj hres)
        exact heq ▸ hstep h₁ hline hzl hlen rfl
    cases hcases with
    | inl hwhole =>
      have ⟨htake, hrl, hlen⟩ := hwhole
      have hlt : r.length < name.length + 9 := by
        cases hbroken with
        | inl h => exact h
        | inr h => cases h with
          | inl h => exact absurd (hrl ▸ h) hl
          | inr h =>
            rw [hrl] at h
            omega
      exact hgo _ _ htake (Or.inr rfl) (hrl ▸ hz) (hrl ▸ hlt)
        fun h₁ h1 h2 => ht fuel h₁ h' s' (by omega) h1 h2
    | inr h => cases h with
      | inl hline =>
        have ⟨r', htake, hrl⟩ := hline
        have hlen : r.length = l.length + (r'.length + 1) := by
          rw [hrl, List.length_append, List.length_cons]
        rw [hrl] at hz
        refine hgo _ _ htake (Or.inr rfl) (fun h => hz (List.mem_append_left _ h)) (by omega) ?_
        intro h₁ h1 h2
        refine ih ⟨by omega, Or.inl (by omega)⟩
          (fun h => hz (List.mem_append_right _ (List.mem_cons_of_mem _ h))) ?_ h1 h2
        rw [List.length_append, List.length_cons]
        omega
      | inr hpart =>
        have ⟨r', htake, hrl, hlen⟩ := hpart
        have hlen' : r.length = l.length + r'.length := by
          rw [hrl, List.length_append]
        have hlt : l.length < name.length + 9 := by
          cases hbroken with
          | inl h => omega
          | inr h => cases h with
            | inl h =>
              have hr' : newline ∈ r' := by
                rw [hrl] at h
                exact (List.mem_append.mp h).resolve_left hl
              have hpos := List.length_pos_of_mem hr'
              omega
            | inr h => omega
        rw [hrl] at hz
        refine hgo _ _ htake (Or.inl rfl) (fun h => hz (List.mem_append_left _ h)) hlt ?_
        intro h₁ h1 h2
        refine ih ⟨by omega, Or.inl (by omega)⟩ (fun h => hz (List.mem_append_right _ h)) ?_ h1 h2
        rw [List.length_append, List.length_cons]
        omega

/-! ## 3. The whole header -/

theorem readhdr_fits (mode : Mode) (info : Info) {name : Option Bytes} (hname : NameFits name)
    (hzero : ∀ s ∈ name, (0 : UInt8) ∉ s) {flags : UInt32}
    (hflags : checkTableFlags flags = true) (sequence : UInt64) (h : Header) (rest : Bytes) :
    ∃ h', readhdr dbufLen h
        (dumpHead mode info ++ dumpName name ++ dumpTail info flags sequence ++ rest) =
          some (h', rest) ∧
      h'.core = (name, flags, sequence, mode.print) := by
  have ⟨h₁, hreads₁, hcore₁⟩ := dumpHead_reads mode info
    { h with subname := none, dbiFlags := 0, sequence := 0 }
    (dumpName name ++ (dumpTail info flags sequence ++ rest))
  have hnone : h₁.subname = none := congrArg (·.1) hcore₁
  have hreads₂ := dumpName_reads hname hzero hnone (dumpTail info flags sequence ++ rest)
  have ⟨h', hdone, _, hcore⟩ := dumpTail_reads info hflags sequence { h₁ with subname := name } rest
  rw [readhdr]
  simp only [List.append_assoc]
  have ⟨fuel', hfuel', heq⟩ := (hreads₁.trans hreads₂) _ (Nat.lt_succ_self _)
  refine ⟨h', heq.trans (hdone fuel' hfuel'), ?_⟩
  have hprint : h₁.plaintext = mode.print := congrArg (·.2.2.2) hcore₁
  have hcore' := hcore (congrArg (·.2.1) hcore₁) (congrArg (·.2.2.1) hcore₁)
  rw [← hprint]
  exact hcore'

-- a name that does not fit is not the name that is read
theorem readhdr_broken (mode : Mode) (info : Info) {name : Option Bytes} (hname : ¬NameFits name)
    (hzero : ∀ s ∈ name, (0 : UInt8) ∉ s) {flags : UInt32}
    (hflags : checkTableFlags flags = true) (sequence : UInt64) (h : Header) (rest : Bytes)
    {h' : Header} {s' : Bytes}
    (hres : readhdr dbufLen h
      (dumpHead mode info ++ dumpName name ++ dumpTail info flags sequence ++ rest) =
        some (h', s')) : h'.subname ≠ name := by
  cases name with
  | none => exact absurd (fun s hs => nomatch hs) hname
  | some s =>
    have ⟨h₁, hreads₁, hcore₁⟩ := dumpHead_reads mode info
      { h with subname := none, dbiFlags := 0, sequence := 0 }
      (dumpName (some s) ++ (dumpTail info flags sequence ++ rest))
    have hnone : h₁.subname = none := congrArg (·.1) hcore₁
    have htail : ∀ fuel h h' s', (dumpTail info flags sequence ++ rest).length < fuel →
        h.subname ≠ some s →
        readLines dbufLen fuel h (dumpTail info flags sequence ++ rest) = some (h', s') →
        h'.subname ≠ some s := by
      intro fuel h h' s' hfuel hne hread
      have ⟨h₂, hdone, hsub, _⟩ := dumpTail_reads info hflags sequence h rest
      rw [hdone fuel hfuel] at hread
      have heq : h₂ = h' := congrArg Prod.fst (Option.some.inj hread)
      exact heq ▸ hsub ▸ hne
    rw [readhdr] at hres
    simp only [List.append_assoc] at hres
    have ⟨fuel', hfuel', heq⟩ := hreads₁ _ (Nat.lt_succ_self _)
    rw [heq, dumpName_text] at hres
    rw [dumpName_text] at hfuel'
    have hlength : (database ++ s).length = s.length + 9 := by
      rw [List.length_append, database_length, Nat.add_comm]
    have hz : (0 : UInt8) ∉ database ++ s := fun h => (List.mem_append.mp h).elim
      database_plain.2 (hzero s rfl)
    have hne : h₁.subname ≠ some s := by
      rw [hnone]
      exact fun h => nomatch h
    by_cases hempty : s = []
    · -- an empty name is no name
      rw [hempty] at hres hfuel' hne htail ⊢
      have hreads : Reads h₁ ((database ++ []) ++ newline ::
          (dumpTail info flags sequence ++ rest)) h₁ (dumpTail info flags sequence ++ rest) := by
        apply Reads.step (fgets_whole (l := database ++ []) (n := 4096) (by decide)
          (by decide) _)
        · simp only [List.length_append, List.length_cons]
          omega
        · rfl
      have ⟨fuel₂, hfuel₂, heq₂⟩ := hreads fuel' hfuel'
      rw [heq₂] at hres
      exact htail fuel₂ h₁ h' s' hfuel₂ hne hres
    · apply readLines_broken htail ⟨by omega, ?_⟩ hz hfuel' hne hres
      apply Or.inr
      by_cases hnl : newline ∈ s
      · exact Or.inl (List.mem_append_right _ hnl)
      · apply Or.inr
        by_contra hlen
        have hbuf : dbufLen = 4096 := rfl
        apply hname
        intro s₁ hs₁
        rw [← Option.some.inj hs₁]
        exact ⟨hempty, hnl, by omega⟩

end Mdbx.Dump
