import Mdbx.Dump.Name

/-!
# Dump.RoundTrip — a load of a dump

The data of a dump is a sequence of lines with one or more spaces in front.  A load gives the
table back exactly when its name fits, no printed key or value starts with a space and no line
outgrows an `int`.
-/

namespace Mdbx.Dump

open Text

/-! ## 1. Puts in order -/

theorem recordCmp_oriented (env : Env) (flags : UInt32) (a b : Record) :
    env.recordCmp flags a b = (env.recordCmp flags b a).swap := by
  unfold Env.recordCmp
  rw [Ordering.swap_then, ← env.key_oriented]
  split_ifs
  · rw [← env.data_oriented]
  · rfl

theorem cursorPut_last {env : Env} {flags : UInt32} {r : Record} {table : List Record}
    (h : ∀ x ∈ table, env.recordCmp flags x r = .lt) :
    env.cursorPut flags r table = table ++ [r] := by
  induction table with
  | nil => rfl
  | cons x xs ih =>
    have hgt : env.recordCmp flags r x = .gt := by
      rw [recordCmp_oriented, h x List.mem_cons_self]
      rfl
    rw [Env.cursorPut, hgt]
    change x :: env.cursorPut flags r xs = _
    rw [ih fun y hy => h y (List.mem_cons_of_mem x hy)]
    rfl

-- pairs that come in the order of the table are appended
theorem puts_in_order {env : Env} {flags : UInt32} {records : List Record} (table : List Record)
    (h : (table ++ records).Pairwise fun a b => env.recordCmp flags a b = .lt) :
    records.foldl (fun acc r => env.cursorPut flags r acc) table = table ++ records := by
  induction records generalizing table with
  | nil => exact (List.append_nil table).symm
  | cons r records ih =>
    have hlast : ∀ x ∈ table, env.recordCmp flags x r = .lt :=
      fun x hx => (List.pairwise_append.mp h).2.2 x hx r List.mem_cons_self
    have hsplit : table ++ r :: records = (table ++ [r]) ++ records := by
      rw [List.append_assoc]
      rfl
    rw [List.foldl_cons, cursorPut_last hlast, hsplit]
    exact ih _ (hsplit ▸ h)

theorem cursorPut_forall {env : Env} {flags : UInt32} {P : Bytes → Prop} {r : Record}
    {table : List Record} (hr : P r.1 ∧ P r.2) (htable : ∀ x ∈ table, P x.1 ∧ P x.2) :
    ∀ x ∈ env.cursorPut flags r table, P x.1 ∧ P x.2 := by
  induction table with
  | nil =>
    intro x hx
    exact List.mem_singleton.mp hx ▸ hr
  | cons y ys ih =>
    have hy := htable y List.mem_cons_self
    have hys : ∀ x ∈ ys, P x.1 ∧ P x.2 := fun x hx => htable x (List.mem_cons_of_mem y hx)
    unfold Env.cursorPut
    cases env.recordCmp flags r y with
    | lt =>
      intro x hx
      cases List.mem_cons.mp hx with
      | inl h => exact h ▸ hr
      | inr h => exact htable x h
    | eq =>
      intro x hx
      cases List.mem_cons.mp hx with
      | inl h =>
        rw [h]
        split_ifs
        · exact hy
        · exact ⟨hy.1, hr.2⟩
      | inr h => exact hys x h
    | gt =>
      intro x hx
      cases List.mem_cons.mp hx with
      | inl h => exact h ▸ hy
      | inr h => exact ih hys x h

/-! ## 2. The data as lines with leading spaces -/

def isBlank (c : UInt8) : Bool := c = space

/-- The spaces that a printed value starts with, and the rest of it. -/
def leading (p : Bool) (v : Bytes) : Nat := if p then (v.takeWhile isBlank).length else 0

def stripped (p : Bool) (v : Bytes) : Bytes := if p then v.dropWhile isBlank else v

theorem stripped_not_spaced (p : Bool) (v : Bytes) : ¬Spaced p (stripped p v) := by
  intro h
  have hp : p = true := h.1
  have hhead := h.2
  rw [stripped, if_pos hp] at hhead
  cases hd : v.dropWhile isBlank with
  | nil =>
    rw [hd] at hhead
    exact nomatch hhead
  | cons c w =>
    have hne := List.head_dropWhile_not isBlank (l := v) (hd ▸ List.cons_ne_nil c w)
    rw [hd] at hhead
    have hc : c = space := Option.some.inj hhead
    simp only [hd, List.head_cons] at hne
    exact of_decide_eq_false hne hc

theorem leading_of_not_spaced {p : Bool} {v : Bytes} (h : ¬Spaced p v) :
    leading p v = 0 ∧ stripped p v = v := by
  unfold leading stripped
  split_ifs with hp
  · cases v with
    | nil => exact ⟨rfl, rfl⟩
    | cons c v =>
      have hc : ¬isBlank c = true := fun hc => h ⟨hp, congrArg some (of_decide_eq_true hc)⟩
      rw [List.takeWhile_cons_of_neg hc, List.dropWhile_cons_of_neg hc]
      exact ⟨rfl, rfl⟩
  · exact ⟨rfl, rfl⟩

theorem encode_leading (p : Bool) (v : Bytes) :
    encode p v = List.replicate (leading p v) space ++ encode p (stripped p v) := by
  unfold leading stripped
  split_ifs with hp
  · induction v with
    | nil => rfl
    | cons c v ih =>
      by_cases hc : c = space
      · have hd : isBlank c = true := decide_eq_true hc
        have hbyte : dumpByte p c = [space] := by
          rw [hp, hc]
          rfl
        rw [List.takeWhile_cons_of_pos hd, List.dropWhile_cons_of_pos hd, encode_cons, hbyte, ih]
        rfl
      · have hd : ¬isBlank c = true := fun h => hc (of_decide_eq_true h)
        rw [List.takeWhile_cons_of_neg hd, List.dropWhile_cons_of_neg hd]
        rfl
  · rfl

theorem dumpval_token (p : Bool) (v : Bytes) :
    dumpval p v = token p (leading p v) (stripped p v) := by
  rw [dumpval, encode_leading, token, List.replicate_succ, List.append_assoc]
  rfl

theorem space_dumpval (p : Bool) (v : Bytes) :
    space :: dumpval p v = token p (leading p v + 1) (stripped p v) := by
  rw [dumpval_token]
  rfl

/-- The lines behind the header; a printed text does not start with one more space. -/
inductive Data (p : Bool) : Bytes → Prop where
  | done : Data p dataEnd
  | line (j : Nat) {w rest : Bytes} (hw : ¬Spaced p w) (hrest : Data p rest) :
      Data p (token p j w ++ rest)

theorem Data.dumpval {p : Bool} (v : Bytes) {rest : Bytes} (h : Data p rest) :
    Data p (dumpval p v ++ rest) :=
  dumpval_token p v ▸ Data.line _ (stripped_not_spaced p v) h

theorem Data.concise {p : Bool} (v : Bytes) {rest : Bytes} (h : Data p rest) :
    Data p (space :: Dump.dumpval p v ++ rest) :=
  space_dumpval p v ▸ Data.line _ (stripped_not_spaced p v) h

theorem readline_dataEnd (p : Bool) (len : Nat) :
    readline p len dataEnd = .eof ∨ readline p len dataEnd = .failed := by
  have hdata : dataEnd = 68 :: (ascii "ATA=END" ++ newline :: []) := by decide
  rw [hdata, readline, if_pos (by decide)]
  cases fgets (int32 len) (ascii "ATA=END" ++ newline :: []) with
  | none => exact Or.inr rfl
  | some x =>
    rw [readEnd]
    split_ifs
    · exact Or.inl rfl
    · exact Or.inr rfl

-- what comes out is the value before or one that does not start with a space
theorem Data.readline {p : Bool} {s : Bytes} (hs : Data p s) {len len' : Nat} {v : Option Bytes}
    {rest : Bytes} (h : readline p len s = .item v len' rest) :
    Data p rest ∧ ∀ w ∈ v, ¬Spaced p w := by
  cases hs with
  | done =>
    cases readline_dataEnd p len with
    | inl heof => exact nomatch heof ▸ h
    | inr hfail => exact nomatch hfail ▸ h
  | line j hw hrest =>
    cases j with
    | zero =>
      have ⟨hv, hr⟩ := readline_value hw h
      rw [hv, hr]
      exact ⟨hrest, fun x hx => Option.some.inj hx ▸ hw⟩
    | succ j =>
      rw [readline_same] at h
      injection h with hv _ hr
      rw [← hv, ← hr]
      exact ⟨Data.line j hw hrest, fun x hx => nomatch hx⟩

theorem getD_not_spaced {p : Bool} {v : Option Bytes} {last : Bytes} (hv : ∀ w ∈ v, ¬Spaced p w)
    (hlast : ¬Spaced p last) : ¬Spaced p (v.getD last) := by
  cases v with
  | none => exact hlast
  | some w => exact hv w rfl

/-- Nothing that starts with a space is ever read in print mode. -/
theorem readPairs_not_spaced {env : Env} {h : Header} {fuel klen dlen : Nat} {last : Record}
    {table records : List Record} {s : Bytes} (hs : Data h.plaintext s)
    (hlast : ¬Spaced h.plaintext last.1 ∧ ¬Spaced h.plaintext last.2)
    (htable : ∀ x ∈ table, ¬Spaced h.plaintext x.1 ∧ ¬Spaced h.plaintext x.2)
    (hres : readPairs env h fuel klen dlen last table s = some records) :
    ∀ x ∈ records, ¬Spaced h.plaintext x.1 ∧ ¬Spaced h.plaintext x.2 := by
  induction fuel generalizing klen dlen last table s with
  | zero => exact nomatch hres
  | succ fuel ih =>
    rw [readPairs] at hres
    cases hk : readline h.plaintext klen s with
    | eof =>
      rw [hk] at hres
      exact Option.some.inj hres ▸ htable
    | failed =>
      rw [hk] at hres
      exact nomatch hres
    | item k klen' s' =>
      have ⟨hs', hkey⟩ := hs.readline hk
      rw [hk] at hres
      dsimp only at hres
      cases hd : readline h.plaintext dlen s' with
      | eof =>
        rw [hd] at hres
        exact nomatch hres
      | failed =>
        rw [hd] at hres
        exact nomatch hres
      | item d dlen' rest =>
        have ⟨hrest, hdata⟩ := hs'.readline hd
        rw [hd] at hres
        dsimp only at hres
        split_ifs at hres
        have hnew : ¬Spaced h.plaintext (k.getD last.1) ∧ ¬Spaced h.plaintext (d.getD last.2) :=
          ⟨getD_not_spaced hkey hlast.1, getD_not_spaced hdata hlast.2⟩
        exact ih hrest hnew (cursorPut_forall (P := (¬Spaced h.plaintext ·)) hnew htable) hres

/-! ## 3. Records read as they were written -/

/-- A record with the mark that its key is the one before. -/
structure Entry where
  same : Bool
  record : Record

def Entry.text (p : Bool) (e : Entry) : Bytes :=
  if e.same then space :: dumpval p e.record.2
  else dumpval p e.record.1 ++ dumpval p e.record.2

def itemEntries (mode : Mode) (flags : UInt32) (i : Item) : List Entry :=
  if dupsort flags && mode.concise then
    ⟨false, i.key, i.value⟩ :: i.dups.map fun v => ⟨true, i.key, v⟩
  else i.records.map fun r => ⟨false, r⟩

theorem itemEntries_text (mode : Mode) (flags : UInt32) (i : Item) :
    (itemEntries mode flags i).flatMap (Entry.text mode.print) = dumpItem mode flags i := by
  unfold itemEntries dumpItem
  split_ifs
  · rw [List.flatMap_cons, List.flatMap_map]
    rfl
  · rw [List.flatMap_map]
    rfl

theorem itemEntries_records (mode : Mode) (flags : UInt32) (i : Item) :
    (itemEntries mode flags i).map Entry.record = i.records := by
  unfold itemEntries
  split_ifs
  · rw [List.map_cons, List.map_map, Item.records, List.map_cons]
    rfl
  · rw [List.map_map]
    exact List.map_id _

/-- Every mark is true of the key before. -/
def Chained (key : Bytes) : List Entry → Prop
  | [] => True
  | e :: es => (e.same = true → e.record.1 = key) ∧ Chained e.record.1 es

theorem chained_full (key : Bytes) (records : List Record) {es : List Entry}
    (hes : ∀ k, Chained k es) : Chained key (records.map (⟨false, ·⟩) ++ es) := by
  induction records generalizing key with
  | nil => exact hes key
  | cons r records ih => exact ⟨fun h => (nomatch h), ih r.1⟩

theorem chained_dups (key : Bytes) (dups : List Bytes) {es : List Entry}
    (hes : ∀ k, Chained k es) :
    Chained key (dups.map (fun v => (⟨true, key, v⟩ : Entry)) ++ es) := by
  induction dups with
  | nil => exact hes key
  | cons v dups ih => exact ⟨fun _ => rfl, ih⟩

theorem chained_items (mode : Mode) (flags : UInt32) (items : List Item) (key : Bytes) :
    Chained key (items.flatMap (itemEntries mode flags)) := by
  induction items generalizing key with
  | nil => trivial
  | cons i items ih =>
    rw [List.flatMap_cons]
    rw [itemEntries]
    split_ifs
    · exact ⟨fun h => (nomatch h), chained_dups i.key i.dups ih⟩
    · exact chained_full key i.records ih

/-- The line of the value is no longer than an `int` can count. -/
def ValueFits (p : Bool) (v : Bytes) : Prop := (encode p v).length + 1 < 2 ^ 31

instance (p : Bool) (v : Bytes) : Decidable (ValueFits p v) := inferInstanceAs (Decidable (_ < _))

/-- What a record needs to be read as it was written; the value may still be too long. -/
structure Entry.Ok (env : Env) (h : Header) (e : Entry) : Prop where
  key : ¬Spaced h.plaintext e.record.1
  value : ¬Spaced h.plaintext e.record.2
  key_le : e.record.1.length ≤ env.keyMax
  accepted : env.accepts h.dbiFlags e.record = true

theorem token_of_not_spaced {p : Bool} {v : Bytes} (h : ¬Spaced p v) :
    dumpval p v = token p 0 v ∧ space :: dumpval p v = token p 1 v := by
  have ⟨hzero, hself⟩ := leading_of_not_spaced h
  rw [space_dumpval, dumpval_token, hzero, hself]
  exact ⟨rfl, rfl⟩

-- the key of an entry is read, or marked and kept
theorem Entry.readKey {env : Env} {h : Header} {e : Entry} (he : e.Ok env h) {key : Bytes}
    (hchain : e.same = true → e.record.1 = key) (rest : Bytes) :
    ∃ k, readline h.plaintext (env.maxvalsize + 1) (e.text h.plaintext ++ rest) =
        .item k (env.maxvalsize + 1) (token h.plaintext 0 e.record.2 ++ rest) ∧
      k.getD key = e.record.1 := by
  have htokenKey := (token_of_not_spaced he.key).1
  have htokenVal := token_of_not_spaced he.value
  unfold Entry.text
  split_ifs with hsame
  · refine ⟨none, ?_, (hchain hsame).symm⟩
    rw [htokenVal.2]
    exact readline_same h.plaintext _ 0 e.record.2 rest
  · refine ⟨some e.record.1, ?_, rfl⟩
    have hlen := encode_length h.plaintext e.record.1
    have hle := he.key_le
    have hfit := env.keys_fit
    have hmax := env.maxvalsize_lt
    rw [htokenKey, htokenVal.1, List.append_assoc]
    exact readline_fits he.key (by omega) (by omega) _

def putAll (env : Env) (flags : UInt32) (es : List Entry) (table : List Record) : List Record :=
  es.foldl (fun acc e => env.cursorPut flags e.record acc) table

theorem readPairs_entries {env : Env} {h : Header} {es : List Entry} (hok : ∀ e ∈ es, e.Ok env h)
    {last : Record} (hchain : Chained last.1 es) {fuel : Nat} (hfuel : es.length < fuel)
    {dlen : Nat} (hdlen : Doubled dlen) (table : List Record) :
    readPairs env h fuel (env.maxvalsize + 1) dlen last table
        (es.flatMap (Entry.text h.plaintext) ++ dataEnd) =
      if ∀ e ∈ es, ValueFits h.plaintext e.record.2 then some (putAll env h.dbiFlags es table)
      else none := by
  induction es generalizing last fuel dlen table with
  | nil =>
    have hmax := env.maxvalsize_lt
    have hfit := env.keys_fit
    have hfuel1 : fuel = fuel - 1 + 1 := by
      rw [List.length_nil] at hfuel
      omega
    have hall : ∀ e ∈ ([] : List Entry), ValueFits h.plaintext e.record.2 := fun e he => nomatch he
    rw [hfuel1, List.flatMap_nil, List.nil_append, readPairs,
      readline_eof _ (by omega) (by omega), if_pos hall]
    rfl
  | cons e es ih =>
    have hfuel1 : fuel = fuel - 1 + 1 := by
      rw [List.length_cons] at hfuel
      omega
    have he := hok e List.mem_cons_self
    have ⟨k, hread, hkey⟩ := e.readKey he hchain.1 (es.flatMap (Entry.text h.plaintext) ++ dataEnd)
    rw [hfuel1, readPairs, List.flatMap_cons, List.append_assoc, hread]
    dsimp only
    cases readline_grows he.value hdlen (es.flatMap (Entry.text h.plaintext) ++ dataEnd) with
    | inl hfit =>
      have ⟨hlt, dlen', hdlen', hdata⟩ := hfit
      rw [hdata]
      dsimp only
      rw [hkey, Option.getD_some, if_pos he.accepted]
      have hrest : Chained e.record.1 es := hchain.2
      have hfuel' : es.length < fuel - 1 := by
        rw [List.length_cons] at hfuel
        omega
      have hrec := ih (fun x hx => hok x (List.mem_cons_of_mem e hx)) hrest hfuel' hdlen'
        (env.cursorPut h.dbiFlags e.record table)
      have hval : ValueFits h.plaintext e.record.2 := hlt
      rw [hrec]
      by_cases hes : ∀ x ∈ es, ValueFits h.plaintext x.record.2
      · have hall : ∀ x ∈ e :: es, ValueFits h.plaintext x.record.2 :=
          List.forall_mem_cons.mpr ⟨hval, hes⟩
        rw [if_pos hes, if_pos hall]
        rfl
      · rw [if_neg hes, if_neg (fun h => hes (List.forall_mem_cons.mp h).2)]
    | inr hlong =>
      have hval : ¬∀ x ∈ e :: es, ValueFits h.plaintext x.record.2 := by
        intro hall
        have hlt : (encode h.plaintext e.record.2).length + 1 < 2 ^ 31 :=
          hall e List.mem_cons_self
        omega
      rw [hlong.2, if_neg hval]

/-! ## 4. Whole dumps -/

def entries {env : Env} (mode : Mode) (t : Table env) : List Entry :=
  t.items.flatMap (itemEntries mode t.flags)

theorem entries_text {env : Env} (mode : Mode) (t : Table env) :
    (entries mode t).flatMap (Entry.text mode.print) = t.items.flatMap (dumpItem mode t.flags) := by
  unfold entries
  rw [List.flatMap_assoc]
  simp only [itemEntries_text]

theorem entries_records {env : Env} (mode : Mode) (t : Table env) :
    (entries mode t).map Entry.record = t.records := by
  unfold entries Table.records
  rw [List.map_flatMap]
  simp only [itemEntries_records]

theorem entries_forall {env : Env} {mode : Mode} {t : Table env} {P : Record → Prop} :
    (∀ e ∈ entries mode t, P e.record) ↔ ∀ r ∈ t.records, P r := by
  rw [← entries_records mode t]
  exact List.forall_mem_map.symm

theorem entries_length {p : Bool} (es : List Entry) (rest : Bytes) :
    es.length ≤ (es.flatMap (Entry.text p) ++ rest).length := by
  induction es with
  | nil => exact Nat.zero_le _
  | cons e es ih =>
    have hpos : 0 < (e.text p).length := by
      unfold Entry.text
      split_ifs
      · exact Nat.succ_pos _
      · rw [List.length_append]
        exact Nat.add_pos_left (Nat.succ_pos _) _
    rw [List.flatMap_cons, List.append_assoc, List.length_append, List.length_cons]
    omega

theorem entries_data {p : Bool} (es : List Entry) :
    Data p (es.flatMap (Entry.text p) ++ dataEnd) := by
  induction es with
  | nil => exact Data.done
  | cons e es ih =>
    rw [List.flatMap_cons, List.append_assoc, Entry.text]
    split_ifs
    · exact ih.concise e.record.2
    · rw [List.append_assoc]
      exact (ih.dumpval e.record.2).dumpval e.record.1

theorem records_key {env : Env} (t : Table env) : ∀ r ∈ t.records, r.1.length ≤ env.keyMax := by
  intro r hr
  have ⟨i, hi, hri⟩ := List.mem_flatMap.mp hr
  have ⟨v, _, hv⟩ := List.mem_map.mp hri
  rw [← hv]
  exact t.keys_le i hi

theorem putAll_entries {env : Env} (mode : Mode) (t : Table env) :
    putAll env t.flags (entries mode t) [] = t.records := by
  have hputs := puts_in_order [] (show ([] ++ t.records).Pairwise _ from t.ordered)
  rw [← entries_records mode t, List.foldl_map] at hputs
  exact hputs.trans (entries_records mode t)

/-- What a dump of the table in this mode needs to be read back. -/
structure Table.Readable {env : Env} (t : Table env) (mode : Mode) : Prop where
  name : NameFits t.name
  key : ∀ r ∈ t.records, ¬Spaced mode.print r.1
  value : ∀ r ∈ t.records, ¬Spaced mode.print r.2
  line : ∀ r ∈ t.records, ValueFits mode.print r.2

theorem dumpTbl_text {env : Env} (mode : Mode) (info : Info) (t : Table env) :
    dumpTbl mode info t = dumpHead mode info ++ dumpName t.name ++
      dumpTail info t.flags t.sequence ++
      ((entries mode t).flatMap (Entry.text mode.print) ++ dataEnd) := by
  rw [entries_text, dumpTbl]
  simp only [List.append_assoc]

-- the data read under the header of the dump
theorem readPairs_table {env : Env} {mode : Mode} (t : Table env) {h : Header}
    (hcore : h.core = (t.name, t.flags, t.sequence, mode.print)) :
    readPairs env h (((entries mode t).flatMap (Entry.text mode.print) ++ dataEnd).length + 1)
        (env.maxvalsize + 1) dbufLen ([], []) []
        ((entries mode t).flatMap (Entry.text mode.print) ++ dataEnd) = some t.records ↔
      (∀ r ∈ t.records, ¬Spaced mode.print r.1) ∧ (∀ r ∈ t.records, ¬Spaced mode.print r.2) ∧
        ∀ r ∈ t.records, ValueFits mode.print r.2 := by
  have hprint : h.plaintext = mode.print := congrArg (·.2.2.2) hcore
  have hflags : h.dbiFlags = t.flags := congrArg (·.2.1) hcore
  rw [← hprint]
  apply Iff.intro
  · intro hres
    have hnil : ¬Spaced h.plaintext [] := not_spaced_nil _
    have hclean := readPairs_not_spaced (entries_data (entries mode t)) ⟨hnil, hnil⟩
      (fun x hx => absurd hx List.not_mem_nil) hres
    have hok : ∀ e ∈ entries mode t, e.Ok env h := by
      have hrec : ∀ r ∈ t.records, ¬Spaced h.plaintext r.1 ∧ ¬Spaced h.plaintext r.2 ∧
          r.1.length ≤ env.keyMax ∧ env.accepts h.dbiFlags r = true := fun r hr =>
        ⟨(hclean r hr).1, (hclean r hr).2, records_key t r hr, hflags ▸ t.accepted r hr⟩
      intro e he
      have ⟨hk, hv, hle, hacc⟩ := entries_forall.mpr hrec e he
      exact ⟨hk, hv, hle, hacc⟩
    have hchain : Chained (([], []) : Record).1 (entries mode t) :=
      chained_items mode t.flags t.items []
    have hdouble : Doubled dbufLen := ⟨12, by decide⟩
    have hread := readPairs_entries hok hchain
      (Nat.lt_succ_of_le (entries_length (p := h.plaintext) _ dataEnd)) hdouble []
    refine ⟨fun r hr => (hclean r hr).1, fun r hr => (hclean r hr).2, ?_⟩
    rw [hres] at hread
    apply (entries_forall (P := fun r => ValueFits h.plaintext r.2)).mp
    by_contra hlong
    rw [if_neg hlong] at hread
    exact nomatch hread
  · intro hall
    have ⟨hkey, hvalue, hline⟩ := hall
    have hok : ∀ e ∈ entries mode t, e.Ok env h := by
      have hrec : ∀ r ∈ t.records, ¬Spaced h.plaintext r.1 ∧ ¬Spaced h.plaintext r.2 ∧
          r.1.length ≤ env.keyMax ∧ env.accepts h.dbiFlags r = true := fun r hr =>
        ⟨hkey r hr, hvalue r hr, records_key t r hr, hflags ▸ t.accepted r hr⟩
      intro e he
      have ⟨hk, hv, hle, hacc⟩ := entries_forall.mpr hrec e he
      exact ⟨hk, hv, hle, hacc⟩
    have hfits : ∀ e ∈ entries mode t, ValueFits h.plaintext e.record.2 :=
      (entries_forall (P := fun r => ValueFits h.plaintext r.2)).mpr hline
    rw [readPairs_entries hok (chained_items mode t.flags t.items [])
      (Nat.lt_succ_of_le (entries_length _ dataEnd)) ⟨12, by decide⟩, if_pos hfits, hflags,
      putAll_entries]

theorem load_of_readhdr {env : Env} {h h' : Header} {s rest : Bytes}
    (hread : readhdr dbufLen h s = some (h', rest))
    (hflags : checkTableFlags h'.dbiFlags = true) :
    load env h s = (readPairs env h' (rest.length + 1) (env.maxvalsize + 1) dbufLen ([], []) []
      rest).map fun records => ⟨h'.subname, h'.dbiFlags, h'.sequence, records⟩ := by
  rw [load, hread]
  exact if_pos hflags

/-- A load of a dump leaves the table that was dumped exactly when the dump is readable.  For a
name that fits this holds of the flags, the sequence and the records alone. -/
theorem load_undoes_dump {env : Env} (mode : Mode) (info : Info) (t : Table env) (h : Header) :
    (load env h (dumpTbl mode info t) = some t.asLoaded ↔ t.Readable mode) ∧
    (NameFits t.name →
      ((∃ name, load env h (dumpTbl mode info t) = some { t.asLoaded with subname := name }) ↔
        t.Readable mode)) := by
  rw [dumpTbl_text]
  by_cases hname : NameFits t.name
  · have ⟨h', hread, hcore⟩ := readhdr_fits mode info hname t.name_nonzero t.checked t.sequence h
      ((entries mode t).flatMap (Entry.text mode.print) ++ dataEnd)
    have hsub : h'.subname = t.name := congrArg (·.1) hcore
    have hflags : h'.dbiFlags = t.flags := congrArg (·.2.1) hcore
    have hseq : h'.sequence = t.sequence := congrArg (·.2.2.1) hcore
    have hpairs := readPairs_table t hcore
    rw [load_of_readhdr hread (hflags ▸ t.checked), hsub, hflags, hseq]
    have hreadable : t.Readable mode ↔ (∀ r ∈ t.records, ¬Spaced mode.print r.1) ∧
        (∀ r ∈ t.records, ¬Spaced mode.print r.2) ∧ ∀ r ∈ t.records, ValueFits mode.print r.2 :=
      ⟨fun r => ⟨r.key, r.value, r.line⟩, fun hall => ⟨hname, hall.1, hall.2.1, hall.2.2⟩⟩
    rw [hreadable, ← hpairs]
    refine ⟨⟨fun heq => ?_, fun heq => ?_⟩, fun _ => ⟨fun heq => ?_, fun heq => ⟨t.name, ?_⟩⟩⟩
    · have ⟨records, hrec, hval⟩ := Option.map_eq_some_iff.mp heq
      rw [hrec]
      exact congrArg (fun l : Loaded => some l.records) hval
    · rw [heq]
      rfl
    · have ⟨name, hload⟩ := heq
      have ⟨records, hrec, hval⟩ := Option.map_eq_some_iff.mp hload
      rw [hrec]
      exact congrArg (fun l : Loaded => some l.records) hval
    · rw [heq]
      rfl
  · refine ⟨⟨fun heq => ?_, fun hr => absurd hr.name hname⟩, fun h => absurd h hname⟩
    rw [load] at heq
    cases hread : readhdr dbufLen h (dumpHead mode info ++ dumpName t.name ++
        dumpTail info t.flags t.sequence ++
        ((entries mode t).flatMap (Entry.text mode.print) ++ dataEnd)) with
    | none =>
      rw [hread] at heq
      exact nomatch heq
    | some x =>
      have ⟨h', rest⟩ := x
      rw [hread] at heq
      dsimp only at heq
      split_ifs at heq
      have ⟨records, _, hval⟩ := Option.map_eq_some_iff.mp heq
      exact absurd (congrArg Loaded.subname hval)
        (readhdr_broken mode info hname t.name_nonzero t.checked t.sequence h _ hread)

/-- An environment whose tables are in the order of `memcmp`. -/
def memcmpEnv : Env where
  keyMax := 2022
  maxvalsize := 0x7fff0000
  keyCmp _ a b := compare a b
  dataCmp _ a b := compare a b
  accepts _ r := r.1.length ≤ 2022
  keys_fit := by decide
  maxvalsize_lt := by decide
  key_oriented _ _ _ := Std.OrientedCmp.eq_swap
  data_oriented _ _ _ := Std.OrientedCmp.eq_swap

/-- The key `k` with two spaces for its value. -/
def spacesTable : Table memcmpEnv where
  name := none
  flags := 0
  sequence := 0
  items := [⟨ascii "k", [space, space], []⟩]
  name_nonzero _ h := nomatch h
  checked := by decide
  single _ i hi := by
    rw [List.mem_singleton.mp hi]
  ordered := List.pairwise_singleton _ _
  keys_le i hi := by
    rw [List.mem_singleton.mp hi]
    decide
  accepted r hr := by
    rw [List.mem_singleton.mp hr]
    decide

def printMode : Mode := ⟨true, false, false⟩

def bytevalueMode : Mode := ⟨false, true, true⟩

def emptyInfo : Info := ⟨0, 0, 0, 0, 0, 0, 0, 0, 4096⟩

def emptyHeader : Header := ⟨none, 0, 0, false, false, 0, 0, 0, 0, 0, 0, 0, 0, 0, 0, 0, 0⟩

-- written as digits, the spaces come back
theorem load_undoes_dump_spaces :
    load memcmpEnv emptyHeader (dumpTbl bytevalueMode emptyInfo spacesTable) =
        some spacesTable.asLoaded ∧
      ∃ name, load memcmpEnv emptyHeader (dumpTbl bytevalueMode emptyInfo spacesTable) =
        some { spacesTable.asLoaded with subname := name } := by
  have hfits : NameFits spacesTable.name := fun s hs => nomatch hs
  have hreadable : spacesTable.Readable bytevalueMode := by
    refine ⟨hfits, fun r hr => ?_, fun r hr => ?_, fun r hr => ?_⟩
    · exact fun h => nomatch h.1
    · exact fun h => nomatch h.1
    · rw [List.mem_singleton.mp hr]
      decide
  have ⟨hall, hcontent⟩ := load_undoes_dump bytevalueMode emptyInfo spacesTable emptyHeader
  exact ⟨hall.mpr hreadable, (hcontent hfits).mpr hreadable⟩

-- the line of the value is taken for the value before, which is empty; the load succeeds
theorem spaces_load_as_nothing :
    (∃ l, load memcmpEnv emptyHeader (dumpTbl printMode emptyInfo spacesTable) = some l ∧
      l.records = [(ascii "k", [])]) ∧
    ¬∃ name, load memcmpEnv emptyHeader (dumpTbl printMode emptyInfo spacesTable) =
      some { spacesTable.asLoaded with subname := name } := by
  have hload : load memcmpEnv emptyHeader (dumpTbl printMode emptyInfo spacesTable) =
      some ⟨none, 0, 0, [(ascii "k", [])]⟩ := by
    decide +kernel
  refine ⟨⟨_, hload, rfl⟩, fun heq => ?_⟩
  have ⟨name, hname⟩ := heq
  rw [hload] at hname
  have hrecords : [(ascii "k", [])] = spacesTable.records :=
    congrArg Loaded.records (Option.some.inj hname)
  exact absurd hrecords (by decide)

end Mdbx.Dump
